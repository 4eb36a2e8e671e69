import TinyBasic.Source
import TinyBasic.Token.Lexeme

/-!
# The lexer

A `Lexer` stands somewhere in a source: it knows the characters that remain and the position of
the first of them.  `Lexer.next` passes the layout and reads one lexeme.  It answers with a token
and the range of its lexeme, or with an error at the position where reading stopped, and in both
cases with the lexer that stands there.  At the end of the text the answer is an `eof` token,
however often it is asked for (`Lexer.next_of_rest_eq_nil`); any other token leaves fewer
characters (`Lexer.next_rest_length_lt`).
-/

namespace TinyBasic

/-- A place in a source from which lexemes are read. -/
structure Lexer where
  /-- The source being read. -/
  source : Source
  /-- The characters that remain. -/
  rest : List Char
  /-- The position of the first of them. -/
  position : Position

namespace Lexer

/-- One answer of a lexer: a token or an error, with its range. -/
abbrev Item := Except (Located LexicalError) (Located Token)

/-- The lexer at the start of a source. -/
def ofSource (s : Source) : Lexer := ⟨s, s.chars, .origin⟩

/-- The lexer after the characters `taken`, where `rest` remains. -/
def pass (l : Lexer) (taken rest : List Char) : Lexer :=
  ⟨l.source, rest, l.position.afterAll taken⟩

/-- The lexer after the layout that it stands before. -/
def passLayout (l : Lexer) : Lexer :=
  l.pass (Lexeme.layout l.rest) (Lexeme.afterLayout l.rest)

/-- The answer for a lexeme that starts at `start` and after which the lexer is `l`. -/
def item (start : Position) (lexeme : Lexeme) (l : Lexer) : Item :=
  match lexeme.outcome with
  | .ok token => .ok ⟨token, .spanning l.source start lexeme.taken⟩
  | .error e => .error ⟨e, .single l.source l.position⟩

/-- The answer at the end of the text. -/
def eofItem (l : Lexer) : Item := .ok ⟨⟨.eof, ""⟩, .single l.source l.position⟩

/-- Reads the next lexeme. -/
def next (l : Lexer) : Item × Lexer :=
  let l := l.passLayout
  match l.rest with
  | [] => (l.eofItem, l)
  | c :: rest =>
    let lexeme := Lexeme.read c rest
    let after := l.pass lexeme.taken lexeme.rest
    (item l.position lexeme after, after)

/-! ### Small facts -/

@[simp] theorem ofSource_source (s : Source) : (ofSource s).source = s := rfl

@[simp] theorem ofSource_rest (s : Source) : (ofSource s).rest = s.chars := rfl

@[simp] theorem pass_rest (l : Lexer) (cs ds : List Char) : (l.pass cs ds).rest = ds := rfl

@[simp] theorem pass_source (l : Lexer) (cs ds : List Char) : (l.pass cs ds).source = l.source :=
  rfl

@[simp] theorem pass_position (l : Lexer) (cs ds : List Char) :
    (l.pass cs ds).position = l.position.afterAll cs := rfl

@[simp] theorem passLayout_rest (l : Lexer) : l.passLayout.rest = Lexeme.afterLayout l.rest := rfl

/-- At the end of the text every answer is the same, and the lexer stays where it is. -/
theorem next_of_rest_eq_nil {l : Lexer} (h : l.rest = []) : l.next = (l.eofItem, l) := by
  obtain ⟨s, rest, p⟩ := l
  subst h
  rfl

/-- Reading never gives characters back. -/
theorem next_rest_length_le (l : Lexer) : l.next.2.rest.length ≤ l.rest.length := by
  refine Nat.le_trans ?_ (Lexeme.length_afterLayout_le l.rest)
  unfold next
  rw [← passLayout_rest]
  generalize l.passLayout = l'
  dsimp only
  split
  · exact Nat.le_refl _
  · rename_i c rest heq
    rw [heq, ← Lexeme.read_taken_append_rest c rest]
    simp

/-- **A token that is not the end of the text leaves fewer characters.** -/
theorem next_rest_length_lt {l : Lexer} {t : Located Token} (h : l.next.1 = .ok t)
    (ht : t.value.kind ≠ .eof) : l.next.2.rest.length < l.rest.length := by
  refine Nat.lt_of_lt_of_le ?_ (Lexeme.length_afterLayout_le l.rest)
  unfold next at h ⊢
  rw [← passLayout_rest]
  generalize l.passLayout = l' at h ⊢
  dsimp only at h ⊢
  split
  · rename_i heq
    rw [heq] at h
    exact absurd (congrArg (fun t => t.value.kind) (Except.ok.inj h)).symm ht
  · rename_i c rest heq
    rw [heq] at h
    rw [heq]
    cases ho : (Lexeme.read c rest).outcome with
    | ok t' => exact Lexeme.read_rest_length_lt ho
    | error e => simp [item, ho] at h

end Lexer

end TinyBasic
