import TinyBasic.Proofs.Text.Unescape
import TinyBasic.Token

/-!
# A token can be read off its line

A token is shown as its escaped lexeme, a colon, a blank and the name of its kind
(`Token.line`).  A lexeme may hold a colon and a blank itself, but no name of a kind does, so the
last ones on the line are those between the lexeme and the kind (`Token.cutLast?_append`).  Reading
the line gives the token back (`Token.ofLine?_line`).
-/

namespace TinyBasic

namespace Token

namespace Kind

/-- All kinds. -/
def all : List Kind :=
  [.eof, .newline, .number, .ident, .string, .eq, .plus, .minus, .asterisk, .slash, .eqEq, .notEq,
    .lt, .ltEq, .gt, .gtEq] ++ Keyword.all.map .keyword

/-- The kind with the given name. -/
def ofName? (s : String) : Option Kind := all.find? fun k => k.name == s

/-- **A kind is told by its name.**  No keyword is written like the name of another kind. -/
theorem ofName?_name (k : Kind) : ofName? k.name = some k := by
  cases k with
  | keyword k => cases k <;> rfl
  | _ => rfl

theorem colon_notMem_name (k : Kind) : ':' ∉ k.name.toList := by
  cases k with
  | keyword k => cases k <;> decide
  | _ => decide

theorem isPrintable_of_mem_name (k : Kind) : ∀ c ∈ k.name.toList, Text.isPrintable c = true := by
  have hall : k.name.toList.all Text.isPrintable = true := by
    cases k with
    | keyword k => cases k <;> decide
    | _ => decide
  exact List.all_eq_true.1 hall

end Kind

/-! ### Lines -/

/-- What stands before and after the last colon that a blank follows. -/
def cutLast? : List Char → Option (List Char × List Char)
  | [] => none
  | c :: cs =>
    match cutLast? cs with
    | some (before, after) => some (c :: before, after)
    | none => if c = ':' ∧ cs.head? = some ' ' then some ([], cs.tail) else none

theorem cutLast?_eq_none {cs : List Char} (h : ':' ∉ cs) : cutLast? cs = none := by
  induction cs with
  | nil => rfl
  | cons c cs ih =>
    obtain ⟨hc, hcs⟩ := not_or.1 (mt List.mem_cons.2 h)
    simp [cutLast?, ih hcs, Ne.symm hc]

/-- **The last colon with a blank** is the one after which there is no colon. -/
theorem cutLast?_append {after : List Char} (h : ':' ∉ after) (before : List Char) :
    cutLast? (before ++ ':' :: ' ' :: after) = some (before, after) := by
  induction before with
  | nil =>
    have hblank : cutLast? (' ' :: after) = none := cutLast?_eq_none (by simpa using h)
    rw [List.nil_append, cutLast?, hblank]
    simp
  | cons c before ih => simp [cutLast?, ih]

/-- The token that a line stands for. -/
def ofLine? (line : String) : Option Token := do
  let (text, name) ← cutLast? line.toList
  let kind ← Kind.ofName? (String.ofList name)
  let text ← Text.unescape? (String.ofList text)
  return ⟨kind, text⟩

/-- **The line of a token is read back as the token.** -/
theorem ofLine?_line (t : Token) : ofLine? t.line = some t := by
  have hchars : t.line.toList = (Text.escape t.text).toList ++ ':' :: ' ' :: t.kind.name.toList := by
    simp [line]
  simp [ofLine?, hchars, cutLast?_append t.kind.colon_notMem_name, Kind.ofName?_name,
    Text.unescape?_escape]

theorem isPrintable_of_mem_line (t : Token) : ∀ c ∈ t.line.toList, Text.isPrintable c = true := by
  have hseparator : ∀ c ∈ ": ".toList, Text.isPrintable c = true :=
    List.all_eq_true.1 (by decide)
  rw [line, String.toList_append, String.toList_append]
  exact List.forall_mem_append.2 ⟨List.forall_mem_append.2
    ⟨fun _ => Text.isPrintable_of_mem_escape, hseparator⟩, t.kind.isPrintable_of_mem_name⟩

theorem newline_notMem_line (t : Token) : '\n' ∉ t.line.toList := fun h =>
  absurd (t.isPrintable_of_mem_line _ h) (by decide)

end Token

end TinyBasic
