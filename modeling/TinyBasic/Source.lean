import TinyBasic.Position

/-!
# Sources and locations

* `Source` is a named text.  Its `text` is the text as read followed by one line feed, so that
  every line of it is ended by a line feed.
* `Source.line` is a line of the text by its number, without the line feed and without the
  carriage returns before it.
* `Location` is a range of a source, from a first position to one just past the last.
* `Located` is a value together with the range it comes from.
-/

namespace TinyBasic

/-- A named text. -/
structure Source where
  /-- The name shown in reports. -/
  name : String
  /-- The text as read. -/
  body : String
  deriving DecidableEq

namespace Source

/-- The text to be compiled: the body, and a line feed that ends its last line. -/
def text (s : Source) : String := s.body ++ "\n"

/-- The characters of the text. -/
def chars (s : Source) : List Char := s.text.toList

/-- The characters up to the first line feed, after `n` line feeds have been passed. -/
def lineAfter : Nat → List Char → List Char
  | _, [] => []
  | 0, c :: cs => if c = '\n' then [] else c :: lineAfter 0 cs
  | n + 1, c :: cs => lineAfter (if c = '\n' then n else n + 1) cs

/-- The characters without the carriage returns at their end. -/
def dropFinalReturns (cs : List Char) : List Char :=
  (cs.reverse.dropWhile (· == '\r')).reverse

/-- Line `n` of the text, counted from one, without what ends it.  A line that the text does not
have is empty. -/
def line (s : Source) : Nat → String
  | 0 => ""
  | n + 1 => String.ofList (dropFinalReturns (lineAfter n s.chars))

@[simp] theorem toList_line_succ (s : Source) (n : Nat) :
    (s.line (n + 1)).toList = dropFinalReturns (lineAfter n s.chars) := by
  simp [line]

theorem chars_eq (s : Source) : s.chars = s.body.toList ++ ['\n'] := by
  simp [chars, text]

end Source

/-- A range of a source. -/
structure Location where
  /-- Where the range lies. -/
  source : Source
  /-- The first position of the range. -/
  start : Position
  /-- The position just past the range. -/
  stop : Position
  deriving DecidableEq

namespace Location

/-- The range of the single column at `p`. -/
def single (s : Source) (p : Position) : Location := ⟨s, p, p.advance⟩

/-- The range of the characters `cs` from `start` on: it ends just past the last of them, and is
one column wide if the last one stands on another line. -/
def spanning (s : Source) (start : Position) (cs : List Char) : Location :=
  let last := start.afterAll cs.dropLast
  ⟨s, start, if last.line = start.line then last.advance else start.advance⟩

/-- The name of the source, then one position for a range of one column, else the first and the
last. -/
instance : ToString Location where
  toString l :=
    if l.stop = l.start.advance then s!"{l.source.name}:{l.start}"
    else s!"{l.source.name}:[{l.start}-{l.stop.back}]"

end Location

/-- A value together with the range of the source it comes from. -/
structure Located (α : Type) where
  /-- The value. -/
  value : α
  /-- Where it comes from. -/
  location : Location
  deriving DecidableEq

namespace Located

variable {α β : Type}

/-- Another value from the same range. -/
def map (f : α → β) (x : Located α) : Located β := ⟨f x.value, x.location⟩

@[simp] theorem map_value (f : α → β) (x : Located α) : (x.map f).value = f x.value := rfl

@[simp] theorem map_location (f : α → β) (x : Located α) : (x.map f).location = x.location := rfl

end Located

end TinyBasic
