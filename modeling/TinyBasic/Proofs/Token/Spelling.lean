import Mathlib.Data.List.TakeWhile
import TinyBasic.Token.Lexeme

/-!
# Which characters are a lexeme

The lexemes of the language are described here without a reader.

* `Lexeme.Spells kind text raw` says that the characters `raw` are a lexeme of the given kind and
  that its token has the given text.  A lexeme has one kind and one text
  (`Lexeme.Spells.unique`), and its first character tells what sort of lexeme it is
  (`Lexeme.Spells.cases_head`).
* `Lexeme.IsGap` describes what may stand between two lexemes.
* `Lexeme.Fault cs e` says that the error `e` keeps a token from being read at the front of `cs`.
* `IsLongestPrefix` is how a tokenisation chooses among gaps and among lexemes.
-/

namespace TinyBasic

variable {P : List Char → Prop} {p q cs ds : List Char}

/-- `p` is the longest of the prefixes of `cs` that satisfy `P`. -/
structure IsLongestPrefix (P : List Char → Prop) (p cs : List Char) : Prop where
  holds : P p
  isPrefix : p <+: cs
  longest : ∀ q, P q → q <+: cs → q.length ≤ p.length

theorem IsLongestPrefix.eq (hp : IsLongestPrefix P p cs) (hq : IsLongestPrefix P q cs) : p = q := by
  have hle := hq.longest p hp.holds hp.isPrefix
  have hge := hp.longest q hq.holds hq.isPrefix
  exact (List.prefix_of_prefix_length_le hp.isPrefix hq.isPrefix hle).eq_of_length
    (Nat.le_antisymm hle hge)

/-- A prefix is the longest one if nothing can be added to it. -/
theorem IsLongestPrefix.of_append {rest : List Char} (hp : P p)
    (hlonger : ∀ c t, c :: t <+: rest → ¬ P (p ++ c :: t)) : IsLongestPrefix P p (p ++ rest) where
  holds := hp
  isPrefix := List.prefix_append p rest
  longest q hq hprefix := by
    rcases List.prefix_or_prefix_of_prefix hprefix (List.prefix_append p rest) with hle | hle
    · exact hle.length_le
    · obtain ⟨t, rfl⟩ := hle
      cases t with
      | nil => simp
      | cons c t => exact absurd hq (hlonger c t ((List.prefix_append_right_inj p).1 hprefix))

namespace Lexeme

variable {c : Char} {raw raw' text text' rest rest' : List Char} {k k' : Token.Kind}

/-! ### Gaps -/

/-- Blanks, and after them at most one comment, which stays on its line. -/
def IsGap (cs : List Char) : Prop :=
  ∃ blanks comment, cs = blanks ++ comment ∧ (∀ b ∈ blanks, b ∈ [' ', '\t', '\r']) ∧
    (comment = [] ∨ ∃ remark, comment = '#' :: remark ∧ '\n' ∉ remark)

/-! ### Lexemes by their kind -/

/-- The operators and how they are written. -/
def operators : List (String × Token.Kind) :=
  [("+", .plus), ("-", .minus), ("*", .asterisk), ("/", .slash), ("=", .eq), ("==", .eqEq),
    ("<", .lt), ("<=", .ltEq), (">", .gt), (">=", .gtEq), ("!=", .notEq)]

/-- One digit or more. -/
def IsDigits (cs : List Char) : Prop := cs ≠ [] ∧ ∀ c ∈ cs, c.isDigit = true

/-- A letter, and letters and digits after it. -/
def IsWord (cs : List Char) : Prop :=
  ∃ c rest, cs = c :: rest ∧ c.isAlpha = true ∧ ∀ d ∈ rest, d.isAlphanum = true

/-- The characters between the quotes of a string literal. -/
def IsStringText (cs : List Char) : Prop := ∀ c ∈ cs, c ∉ ['"', '\n', '\r', '\t', '\\', '%']

/-- `Spells kind text raw`: the characters `raw` are a lexeme of the given kind, and its token has
the given text. -/
inductive Spells : Token.Kind → List Char → List Char → Prop
  | newline : Spells .newline ['\n'] ['\n']
  | operator {s : String} {k : Token.Kind} : (s, k) ∈ operators → Spells k s.toList s.toList
  | integer {ds : List Char} : IsDigits ds → Spells .number ds ds
  | decimal {ds fs : List Char} : IsDigits ds → IsDigits fs →
      Spells .number (ds ++ '.' :: fs) (ds ++ '.' :: fs)
  | keyword (k : Keyword) : Spells (.keyword k) k.spelling.toList k.spelling.toList
  | ident {w : List Char} : IsWord w → (∀ k : Keyword, w ≠ k.spelling.toList) → Spells .ident w w
  | string {cs : List Char} : IsStringText cs → Spells .string cs ('"' :: cs ++ ['"'])

/-- The characters are a lexeme. -/
def IsLexeme (raw : List Char) : Prop := ∃ kind text, Spells kind text raw

/-- A numeral that is broken off after its point. -/
def IsBrokenNumeral (cs : List Char) : Prop :=
  ∃ ds rest, cs = ds ++ '.' :: rest ∧ IsDigits ds ∧ ∀ d, rest.head? = some d → d.isDigit = false

/-- No lexeme stands at the front of the text. -/
def NoLexeme (cs : List Char) : Prop := ∀ raw, IsLexeme raw → ¬ raw <+: cs

/-- `Fault cs e`: what keeps a token from being read at the front of `cs` is `e`. -/
inductive Fault : List Char → LexicalError → Prop
  | badBang {rest : List Char} : rest.head? ≠ some '=' → Fault ('!' :: rest) (.badBang rest.head?)
  | badNumber {cs : List Char} : IsBrokenNumeral cs → Fault cs .badNumber
  | badString {cs rest : List Char} {c : Char} : IsStringText cs → c ∈ ['\r', '\t', '\\', '%'] →
      Fault ('"' :: cs ++ c :: rest) .badString
  | unterminatedString {cs rest : List Char} : IsStringText cs →
      rest.head? = none ∨ rest.head? = some '\n' → Fault ('"' :: cs ++ rest) .unterminatedString
  | unknownChar {c : Char} {rest : List Char} : NoLexeme (c :: rest) → c ≠ '!' → c ≠ '"' →
      Fault (c :: rest) (.unknownChar c)

/-! ### How a lexeme starts -/

/-- The kind that the reader's tables give to one character, or to one and an equals sign. -/
def tableKind? : List Char → Option Token.Kind
  | [c] => single? c
  | [c, '='] => withEquals? c
  | _ => none

theorem tableKind?_of_mem_operators : ∀ o ∈ operators, tableKind? o.1.toList = some o.2 := by
  decide

theorem isAlpha_of_mem_spelling (k : Keyword) : ∀ c ∈ k.spelling.toList, c.isAlpha = true := by
  have hall : k.spelling.toList.all Char.isAlpha = true := by cases k <;> decide
  exact List.all_eq_true.1 hall

/-- The kind of the token of a word. -/
def wordKind (w : List Char) : Token.Kind :=
  ((Keyword.ofSpelling? (String.ofList w)).map Token.Kind.keyword).getD .ident

theorem wordKind_spelling (k : Keyword) : wordKind k.spelling.toList = .keyword k := by
  simp [wordKind, Keyword.ofSpelling?_spelling]

theorem wordKind_of_ne_spelling {w : List Char} (h : ∀ k : Keyword, w ≠ k.spelling.toList) :
    wordKind w = .ident := by
  unfold wordKind
  cases hk : Keyword.ofSpelling? (String.ofList w) with
  | none => rfl
  | some k =>
    refine absurd ?_ (h k)
    rw [← Keyword.ofSpelling?_eq_some_iff.1 hk, String.toList_ofList]

theorem spells_wordKind {w : List Char} (h : IsWord w) : Spells (wordKind w) w w := by
  by_cases hk : ∃ k : Keyword, w = k.spelling.toList
  · obtain ⟨k, rfl⟩ := hk
    rw [wordKind_spelling]
    exact .keyword k
  · have hne : ∀ k : Keyword, w ≠ k.spelling.toList := fun k h => hk ⟨k, h⟩
    rw [wordKind_of_ne_spelling hne]
    exact .ident h hne

/-- **A lexeme is of one of five sorts**, and its first character tells which. -/
theorem Spells.cases_head (h : Spells k text (c :: rest)) :
    (rest = [] ∧ text = [c] ∧ single? c = some k) ∨
    (rest = ['='] ∧ text = [c, '='] ∧ withEquals? c = some k) ∨
    (c.isDigit = true ∧ k = .number ∧ text = c :: rest ∧
      (IsDigits text ∨ ∃ ds fs, text = ds ++ '.' :: fs ∧ IsDigits ds ∧ IsDigits fs)) ∨
    (c.isAlpha = true ∧ k = wordKind text ∧ text = c :: rest ∧
      ∀ d ∈ text, d.isAlphanum = true) ∨
    (c = '"' ∧ k = .string ∧ rest = text ++ ['"'] ∧ IsStringText text) := by
  generalize hraw : c :: rest = raw at h
  cases h with
  | newline =>
    obtain ⟨rfl, rfl⟩ := List.cons.inj hraw
    exact .inl ⟨rfl, rfl, rfl⟩
  | operator hs =>
    have htable := tableKind?_of_mem_operators _ hs
    rw [← hraw] at htable ⊢
    unfold tableKind? at htable
    split at htable
    · rename_i heq
      obtain ⟨rfl, rfl⟩ := List.cons.inj heq
      exact .inl ⟨rfl, rfl, htable⟩
    · rename_i heq
      obtain ⟨rfl, rfl⟩ := List.cons.inj heq
      exact .inr (.inl ⟨rfl, rfl, htable⟩)
    · cases htable
  | integer hd =>
    exact .inr (.inr (.inl ⟨hd.2 c (hraw ▸ List.mem_cons_self), rfl, rfl, .inl hd⟩))
  | @decimal ds fs hd hf =>
    have hc : c ∈ ds := by
      cases ds with
      | nil => exact absurd rfl hd.1
      | cons d ds => simp [(List.cons.inj hraw).1]
    exact .inr (.inr (.inl ⟨hd.2 c hc, rfl, rfl, .inr ⟨ds, fs, rfl, hd, hf⟩⟩))
  | keyword k =>
    have ha := isAlpha_of_mem_spelling k
    have hc : c.isAlpha = true := ha c (hraw ▸ List.mem_cons_self)
    refine .inr (.inr (.inr (.inl ⟨hc, (wordKind_spelling k).symm, rfl, fun d hd => ?_⟩)))
    simp [Char.isAlphanum, ha d hd]
  | ident hw hk =>
    obtain ⟨c', w, rfl, hc, hw⟩ := hw
    obtain ⟨rfl, rfl⟩ := List.cons.inj hraw
    refine .inr (.inr (.inr (.inl ⟨hc, (wordKind_of_ne_spelling hk).symm, rfl, fun d hd => ?_⟩)))
    rcases List.mem_cons.1 hd with rfl | hd
    · simp [Char.isAlphanum, hc]
    · exact hw d hd
  | string hs =>
    obtain ⟨rfl, rfl⟩ := List.cons.inj hraw
    exact .inr (.inr (.inr (.inr ⟨rfl, rfl, rfl, hs⟩)))

theorem Spells.ne_nil (h : Spells k text raw) : raw ≠ [] := by
  intro hraw
  cases h with
  | newline => cases hraw
  | operator hs => exact absurd (tableKind?_of_mem_operators _ hs) (by simp [hraw, tableKind?])
  | integer hd => exact hd.1 hraw
  | decimal => simp at hraw
  | keyword k => cases k <;> cases hraw
  | ident hw =>
    obtain ⟨c, w, rfl, -⟩ := hw
    cases hraw
  | string => cases hraw

/-- Neither a digit nor a letter nor a quote. -/
def IsSymbol (c : Char) : Prop := c.isDigit = false ∧ c.isAlpha = false ∧ c ≠ '"'

theorem mem_of_lookup_eq_some {α : Type} {a : α} {l : List (Char × α)} (h : l.lookup c = some a) :
    (c, a) ∈ l := by
  obtain ⟨l₁, l₂, rfl, -⟩ := List.lookup_eq_some_iff.1 h
  simp

theorem isSymbol_of_single? (h : single? c = some k) : IsSymbol c := by
  have h := mem_of_lookup_eq_some h
  simp only [List.mem_cons, Prod.mk.injEq, List.not_mem_nil, or_false] at h
  rcases h with ⟨rfl, -⟩ | ⟨rfl, -⟩ | ⟨rfl, -⟩ | ⟨rfl, -⟩ | ⟨rfl, -⟩ | ⟨rfl, -⟩ | ⟨rfl, -⟩ |
    ⟨rfl, -⟩ <;> exact ⟨by decide, by decide, by decide⟩

theorem isSymbol_of_withEquals? (h : withEquals? c = some k) : IsSymbol c := by
  have h := mem_of_lookup_eq_some h
  simp only [List.mem_cons, Prod.mk.injEq, List.not_mem_nil, or_false] at h
  rcases h with ⟨rfl, -⟩ | ⟨rfl, -⟩ | ⟨rfl, -⟩ | ⟨rfl, -⟩ <;>
    exact ⟨by decide, by decide, by decide⟩

/-- All letters come after the digits. -/
theorem isAlpha_eq_false_of_isDigit (h : c.isDigit = true) : c.isAlpha = false := by
  have hle : c.toNat ≤ 57 := (Char.isDigit_iff_toNat.1 h).2
  have hafter : ∀ d : Char, 57 < d.toNat → ¬ d.val ≤ c.val := by
    intro d hd hdc
    have : d.toNat ≤ c.toNat := UInt32.le_iff_toNat_le.1 hdc
    omega
  have hupper : c.isUpper = false :=
    decide_eq_false fun hc => hafter 'A' (by decide) hc.1
  have hlower : c.isLower = false :=
    Bool.and_eq_false_iff.2 (.inl (decide_eq_false (hafter 'a' (by decide))))
  exact Bool.or_eq_false_iff.2 ⟨hupper, hlower⟩

theorem isDigit_eq_false_of_isAlpha (h : c.isAlpha = true) : c.isDigit = false := by
  by_contra hd
  simp [isAlpha_eq_false_of_isDigit (by simpa using hd)] at h

/-- The kind and the text of the token whose lexeme is `raw`. -/
def kindAndText : List Char → Token.Kind × List Char
  | [] => (.eof, [])
  | c :: rest =>
    if c = '"' then (.string, rest.dropLast)
    else if c.isDigit then (.number, c :: rest)
    else if c.isAlpha then (wordKind (c :: rest), c :: rest)
    else ((tableKind? (c :: rest)).getD .eof, c :: rest)

theorem Spells.eq_kindAndText (h : Spells k text raw) : (k, text) = kindAndText raw := by
  cases raw with
  | nil => exact absurd rfl h.ne_nil
  | cons c rest =>
    rcases h.cases_head with ⟨rfl, rfl, hk⟩ | ⟨rfl, rfl, hk⟩ | ⟨hc, rfl, rfl, -⟩ |
      ⟨hc, rfl, rfl, -⟩ | ⟨rfl, rfl, rfl, -⟩
    · have ⟨hd, ha, hq⟩ := isSymbol_of_single? hk
      simp [kindAndText, tableKind?, hd, ha, hq, hk]
    · have ⟨hd, ha, hq⟩ := isSymbol_of_withEquals? hk
      simp [kindAndText, tableKind?, hd, ha, hq, hk]
    · have hq : c ≠ '"' := by rintro rfl; simp at hc
      simp [kindAndText, hq, hc]
    · have hd := isDigit_eq_false_of_isAlpha hc
      have hq : c ≠ '"' := by rintro rfl; simp at hc
      simp [kindAndText, hq, hc, hd]
    · simp [kindAndText]

/-- **A lexeme has one kind and one text.** -/
theorem Spells.unique (h : Spells k text raw) (h' : Spells k' text' raw) : k = k' ∧ text = text' :=
  Prod.mk.inj (h.eq_kindAndText.trans h'.eq_kindAndText.symm)

/-! ### The spelling of each kind -/

theorem ident_notMem_operators (s : String) : (s, Token.Kind.ident) ∉ operators := by
  simp [operators]

theorem number_notMem_operators (s : String) : (s, Token.Kind.number) ∉ operators := by
  simp [operators]

theorem string_notMem_operators (s : String) : (s, Token.Kind.string) ∉ operators := by
  simp [operators]

theorem Spells.isWord (h : Spells .ident text raw) : IsWord text := by
  cases h with
  | ident hw => exact hw
  | operator hs => exact absurd hs (ident_notMem_operators _)

theorem Spells.isStringText (h : Spells .string text raw) : IsStringText text := by
  cases h with
  | string hs => exact hs
  | operator hs => exact absurd hs (string_notMem_operators _)

/-- A numeral is made of digits, with at most one point. -/
theorem Spells.isNumeral (h : Spells .number text raw) :
    IsDigits text ∨ ∃ ds fs, text = ds ++ '.' :: fs ∧ IsDigits ds ∧ IsDigits fs := by
  cases h with
  | integer hd => exact .inl hd
  | decimal hd hf => exact .inr ⟨_, _, rfl, hd, hf⟩
  | operator hs => exact absurd hs (number_notMem_operators _)

/-- A numeral begins with a digit, and digits and points come after it. -/
theorem Spells.exists_digit (h : Spells .number text raw) :
    ∃ c cs, text = c :: cs ∧ c.isDigit = true ∧ ∀ d ∈ cs, d.isDigit = true ∨ d = '.' := by
  rcases h.isNumeral with ⟨hne, hd⟩ | ⟨ds, fs, rfl, ⟨hne, hd⟩, ⟨-, hf⟩⟩
  · obtain ⟨c, cs, rfl⟩ := List.exists_cons_of_ne_nil hne
    obtain ⟨hc, hcs⟩ := List.forall_mem_cons.1 hd
    exact ⟨c, cs, rfl, hc, fun d hd => .inl (hcs d hd)⟩
  · obtain ⟨c, cs, rfl⟩ := List.exists_cons_of_ne_nil hne
    obtain ⟨hc, hcs⟩ := List.forall_mem_cons.1 hd
    refine ⟨c, cs ++ '.' :: fs, rfl, hc, List.forall_mem_append.2 ⟨fun d hd => .inl (hcs d hd), ?_⟩⟩
    exact List.forall_mem_cons.2 ⟨.inr rfl, fun d hd => .inl (hf d hd)⟩

/-- An operator is in the table of operators. -/
theorem Spells.exists_operator (h : Spells k text raw)
    (hk : k.isAdditive = true ∨ k.isMultiplicative = true ∨ k.isComparison = true) :
    ∃ s, (s, k) ∈ operators ∧ text = s.toList := by
  cases h with
  | operator hs => exact ⟨_, hs, rfl⟩
  | _ => simp [Token.Kind.isAdditive, Token.Kind.isMultiplicative, Token.Kind.isComparison] at hk

/-- The characters of operators. -/
def operatorChars : List Char := ['+', '-', '*', '/', '=', '<', '>', '!']

theorem Spells.mem_operatorChars (h : Spells k text raw)
    (hk : k.isAdditive = true ∨ k.isMultiplicative = true ∨ k.isComparison = true) :
    ∀ c ∈ text, c ∈ operatorChars := by
  obtain ⟨s, hs, rfl⟩ := h.exists_operator hk
  have hall : ∀ o ∈ operators, o.1.toList.all (· ∈ operatorChars) = true := by decide
  simpa using hall _ hs

end Lexeme

end TinyBasic
