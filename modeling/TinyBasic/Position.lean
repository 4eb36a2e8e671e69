/-!
# Positions in a text

A `Position` is a line and a column, both counted from one.  Reading a character moves it
(`Position.after`): a line feed goes to the start of the next line, a tab to the next tab stop,
and any other character one column on.  `Position.afterAll` is the position after a whole text,
and splits over concatenation (`Position.afterAll_append`).

Lines and columns can be any numbers.  That a lexer which counts them in 32 bits answers nothing
else, whenever it answers, is `CompactLexer.next_of_next?`.
-/

namespace TinyBasic

/-- A line and a column of a text, both counted from one. -/
structure Position where
  /-- The line, the first one being `1`. -/
  line : Nat
  /-- The column, the first one being `1`. -/
  column : Nat
  deriving DecidableEq

namespace Position

/-- Tab stops are this many columns apart. -/
def tabStop : Nat := 4

/-- The position of the first character of a text. -/
def origin : Position := ⟨1, 1⟩

/-- One column to the right. -/
def advance (p : Position) : Position := ⟨p.line, p.column + 1⟩

/-- One column to the left, but not beyond the first. -/
def back (p : Position) : Position := ⟨p.line, max (p.column - 1) 1⟩

/-- The start of the next line. -/
def newline (p : Position) : Position := ⟨p.line + 1, 1⟩

/-- The next tab stop.  The stops are the columns `1`, `5`, `9` and so on. -/
def tab (p : Position) : Position := ⟨p.line, 1 + ((p.column - 1) / tabStop + 1) * tabStop⟩

/-- The position after a character that stands at `p`. -/
def after (p : Position) (c : Char) : Position :=
  if c = '\n' then p.newline else if c = '\t' then p.tab else p.advance

/-- The position after the characters `cs`, the first of which stands at `p`. -/
def afterAll (p : Position) (cs : List Char) : Position := cs.foldl after p

instance : Inhabited Position := ⟨origin⟩

instance : ToString Position := ⟨fun p => s!"{p.line}:{p.column}"⟩

@[simp] theorem afterAll_nil (p : Position) : p.afterAll [] = p := rfl

@[simp] theorem afterAll_cons (p : Position) (c : Char) (cs : List Char) :
    p.afterAll (c :: cs) = (p.after c).afterAll cs := rfl

theorem afterAll_append (p : Position) (cs ds : List Char) :
    p.afterAll (cs ++ ds) = (p.afterAll cs).afterAll ds :=
  List.foldl_append

end Position

end TinyBasic
