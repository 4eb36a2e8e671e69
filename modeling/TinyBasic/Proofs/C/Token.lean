import TinyBasic.Proofs.Translation.Identifiers

/-!
# Tokens of C

How C divides a text into tokens: at each place it takes the longest characters that are a token.

* `C.IsToken`: identifiers, preprocessing numbers, punctuators and what opens a comment.  Character
  constants and string literals are left out, since no expression holds a quote.
* `C.Splits cs ts`: the characters `cs` are divided into the tokens `ts`, and no others
  (`C.Splits.unique`).
* `C.SplitsInto code ts`: the text `code` is divided into the tokens `ts` wherever a character comes
  after it that no longer token holds (`C.Stops`).  Two such texts with an operator between two
  blanks make another one (`C.SplitsInto.operation`).
-/

namespace TinyBasic.C

variable {c : Char} {cs ds raw rest : List Char} {ts us out out' : List String}
  {code a b op s : String}

/-! ### Tokens -/

/-- The characters between tokens. -/
def spaces : List Char := [' ', '\t', '\n', '\x0b', '\x0c']

/-- An identifier: letters, digits and underscores, of which the first is no digit. -/
def IsIdentifier (cs : List Char) : Prop :=
  ∃ c rest, cs = c :: rest ∧ c.isDigit = false ∧ ∀ d ∈ cs, CText.isNameChar d = true

/-- A preprocessing number.  It may hold a sign, but only after an exponent letter. -/
inductive IsNumber : List Char → Prop
  | digit {c : Char} : c.isDigit = true → IsNumber [c]
  | point {c : Char} : c.isDigit = true → IsNumber ['.', c]
  | append {cs : List Char} {c : Char} : IsNumber cs → CText.isNameChar c = true ∨ c = '.' →
      IsNumber (cs ++ [c])
  | exponent {cs : List Char} {e sign : Char} : IsNumber cs → e ∈ ['e', 'E', 'p', 'P'] →
      sign ∈ ['+', '-'] → IsNumber (cs ++ [e, sign])

/-- The punctuators. -/
def punctuators : List String :=
  ["[", "]", "(", ")", "\x7b", "\x7d", ".", "->", "++", "--", "&", "*", "+", "-", "~", "!", "/",
    "%", "<<", ">>", "<", ">", "<=", ">=", "==", "!=", "^", "|", "&&", "||", "?", ":", ";", "...",
    "=", "*=", "/=", "%=", "+=", "-=", "<<=", ">>=", "&=", "^=", "|=", ",", "#", "##", "<:", ":>",
    "<%", "%>", "%:", "%:%:"]

/-- What opens a comment. -/
def commentOpenings : List String := ["//", "/*"]

/-- The characters are a token. -/
def IsToken (cs : List Char) : Prop :=
  IsIdentifier cs ∨ IsNumber cs ∨ ∃ p ∈ punctuators ++ commentOpenings, cs = p.toList

/-- `Splits cs ts`: the characters `cs` are divided into the tokens `ts`. -/
inductive Splits : List Char → List String → Prop
  | nil : Splits [] []
  | space {c : Char} {cs : List Char} {ts : List String} : c ∈ spaces → Splits cs ts →
      Splits (c :: cs) ts
  | token {raw rest : List Char} {ts : List String} : IsLongestPrefix IsToken raw (raw ++ rest) →
      Splits rest ts → Splits (raw ++ rest) (String.ofList raw :: ts)

/-! ### The characters of tokens -/

theorem IsNumber.head (h : IsNumber cs) :
    ∃ c rest, cs = c :: rest ∧ (c.isDigit = true ∨ c = '.') := by
  induction h with
  | digit hc => exact ⟨_, _, rfl, .inl hc⟩
  | point => exact ⟨_, _, rfl, .inr rfl⟩
  | append _ _ ih | exponent _ _ _ ih =>
    obtain ⟨c, rest, rfl, hc⟩ := ih
    exact ⟨c, _, rfl, hc⟩

/-- The characters of preprocessing numbers. -/
def isNumberChar (c : Char) : Bool := CText.isNameChar c || ['.', '+', '-'].contains c

theorem isNumberChar_of_isNameChar (h : CText.isNameChar c = true) : isNumberChar c = true := by
  simp [isNumberChar, h]

theorem IsNumber.chars (h : IsNumber cs) : ∀ c ∈ cs, isNumberChar c = true := by
  have hdigit : ∀ {c : Char}, c.isDigit = true → isNumberChar c = true := fun hc =>
    isNumberChar_of_isNameChar (by simp [CText.isNameChar, Char.isAlphanum, hc])
  have hexponent : ∀ c ∈ ['e', 'E', 'p', 'P'] ++ ['+', '-'], isNumberChar c = true :=
    List.all_eq_true.1 (by decide)
  induction h with
  | digit hc => exact List.forall_mem_singleton.2 (hdigit hc)
  | point hc => exact List.forall_mem_cons.2 ⟨rfl, List.forall_mem_singleton.2 (hdigit hc)⟩
  | append _ hc ih =>
    refine List.forall_mem_append.2 ⟨ih, List.forall_mem_singleton.2 ?_⟩
    rcases hc with hc | rfl
    · exact isNumberChar_of_isNameChar hc
    · rfl
  | exponent _ he hsign ih =>
    refine List.forall_mem_append.2 ⟨ih, List.forall_mem_cons.2 ⟨?_, ?_⟩⟩
    · exact hexponent _ (List.mem_append_left _ he)
    · exact List.forall_mem_singleton.2 (hexponent _ (List.mem_append_right _ hsign))

/-- A preprocessing number and more digits, letters and points after it. -/
theorem IsNumber.append_of_forall (h : IsNumber cs)
    (hds : ∀ d ∈ ds, CText.isNameChar d = true ∨ d = '.') : IsNumber (cs ++ ds) := by
  induction ds generalizing cs with
  | nil => rwa [List.append_nil]
  | cons d ds ih =>
    obtain ⟨hd, hds⟩ := List.forall_mem_cons.1 hds
    rw [List.append_cons]
    exact ih (h.append hd) hds

/-- The blank, and tokens of one character that no other token holds. -/
def stops : List Char := [' ', '(', ')', ';']

theorem IsToken.ne_nil (h : IsToken cs) : cs ≠ [] := by
  have hpunctuators : ∀ p ∈ punctuators ++ commentOpenings, p.toList ≠ [] := by decide
  rcases h with ⟨c, rest, rfl, -⟩ | h | ⟨p, hp, rfl⟩
  · exact List.cons_ne_nil c rest
  · obtain ⟨c, rest, rfl, -⟩ := h.head
    exact List.cons_ne_nil c rest
  · exact hpunctuators p hp

/-- A token is a punctuator, opens a comment, or is made of other characters. -/
theorem IsToken.cases_chars (h : IsToken cs) :
    (∀ c ∈ cs, isNumberChar c = true) ∨ ∃ p ∈ punctuators ++ commentOpenings, cs = p.toList := by
  rcases h with ⟨-, -, -, -, h⟩ | h | h
  · exact .inl fun c hc => isNumberChar_of_isNameChar (h c hc)
  · exact .inl h.chars
  · exact .inr h

theorem isNumberChar_eq_false (hc : c ∈ spaces ++ stops) : isNumberChar c = false := by
  have hall : ∀ c ∈ spaces ++ stops, (!isNumberChar c) = true := List.all_eq_true.1 (by decide)
  simpa using hall c hc

theorem IsToken.space_notMem (h : IsToken cs) (hc : c ∈ spaces) : c ∉ cs := by
  have hpunctuators : ∀ p ∈ punctuators ++ commentOpenings,
      spaces.all (fun c => !p.toList.contains c) = true := by decide
  intro hmem
  rcases h.cases_chars with h | ⟨p, hp, rfl⟩
  · simpa [isNumberChar_eq_false (List.mem_append_left _ hc)] using h c hmem
  · simpa [hmem] using List.all_eq_true.1 (hpunctuators p hp) c hc

/-- **A token that holds a stop is no longer than that.** -/
theorem IsToken.length_eq_one (h : IsToken cs) (hc : c ∈ stops) (hmem : c ∈ cs) :
    cs.length = 1 := by
  have hpunctuators : ∀ p ∈ punctuators ++ commentOpenings, p.toList.length ≠ 1 →
      stops.all (fun c => !p.toList.contains c) = true := by decide
  rcases h.cases_chars with h | ⟨p, hp, rfl⟩
  · simpa [isNumberChar_eq_false (List.mem_append_right _ hc)] using h c hmem
  · by_contra hlength
    simpa [hmem] using List.all_eq_true.1 (hpunctuators p hp hlength) c hc

/-- No token begins with a sign and goes on with a letter or a digit. -/
theorem IsToken.not_isAlphanum {sign : Char} (h : IsToken (sign :: c :: cs))
    (hs : sign = '+' ∨ sign = '-') : c.isAlphanum = false := by
  have hpunctuators : ∀ p ∈ punctuators ++ commentOpenings,
      p.toList.head? = some '+' ∨ p.toList.head? = some '-' →
      p.toList.tail.all (fun d => !d.isAlphanum) = true := by decide
  rcases h with ⟨-, -, -, -, h⟩ | h | ⟨p, hp, hpunct⟩
  · have hname := h sign List.mem_cons_self
    rcases hs with rfl | rfl <;> cases hname
  · obtain ⟨d, rest, hd, hhead⟩ := h.head
    obtain ⟨rfl, -⟩ := List.cons.inj hd
    rcases hs with rfl | rfl <;> simp at hhead
  · have htail := hpunctuators p hp (by simpa [← hpunct] using hs)
    rw [← hpunct] at htail
    simpa using List.all_eq_true.1 htail c List.mem_cons_self

/-! ### Division into tokens -/

/-- **A text is divided into tokens in one way.** -/
theorem Splits.unique (h : Splits cs out) (h' : Splits cs out') : out = out' := by
  induction h generalizing out' with
  | nil =>
    generalize hcs : ([] : List Char) = cs at h'
    cases h' with
    | nil => rfl
    | space => cases hcs
    | token hraw => exact absurd (List.append_eq_nil_iff.1 hcs.symm).1 hraw.holds.ne_nil
  | @space c cs ts hc _ ih =>
    generalize hcs : c :: cs = whole at h'
    cases h' with
    | nil => cases hcs
    | space _ h' =>
      obtain ⟨rfl, rfl⟩ := List.cons.inj hcs
      exact ih h'
    | @token raw rest _ hraw =>
      obtain ⟨d, raw, rfl⟩ := List.exists_cons_of_ne_nil hraw.holds.ne_nil
      obtain ⟨rfl, -⟩ := List.cons.inj hcs
      exact absurd List.mem_cons_self (hraw.holds.space_notMem hc)
  | @token raw rest ts hraw _ ih =>
    generalize hcs : raw ++ rest = whole at h' hraw
    cases h' with
    | nil => exact absurd (List.append_eq_nil_iff.1 hcs).1 hraw.holds.ne_nil
    | space hc =>
      obtain ⟨d, raw, rfl⟩ := List.exists_cons_of_ne_nil hraw.holds.ne_nil
      obtain ⟨rfl, -⟩ := List.cons.inj hcs
      exact absurd List.mem_cons_self (hraw.holds.space_notMem hc)
    | token hraw' h' =>
      obtain rfl := hraw.eq hraw'
      obtain rfl := List.append_cancel_left hcs
      rw [ih h']

/-- The text is empty or begins with a stop. -/
def Stops (cs : List Char) : Prop := ∀ c, cs.head? = some c → c ∈ stops

theorem stops_nil : Stops [] := by simp [Stops]

theorem stops_cons (hc : c ∈ stops) (cs : List Char) : Stops (c :: cs) := by simpa [Stops] using hc

/-- **A token in front of a stop is taken as it is.** -/
theorem isLongestPrefix_of_stops (h : IsToken raw) (hrest : Stops rest) :
    IsLongestPrefix IsToken raw (raw ++ rest) := by
  refine .of_append h fun c t ⟨rest', hc⟩ hlonger => ?_
  have hone := hlonger.length_eq_one (hrest c (by simp [← hc])) (by simp)
  have hpos := List.length_pos_iff.2 h.ne_nil
  simp only [List.length_append, List.length_cons] at hone
  omega

/-- The text is divided into these tokens wherever a stop comes after it. -/
def SplitsInto (code : String) (ts : List String) : Prop :=
  ∀ rest out, Stops rest → Splits rest out → Splits (code.toList ++ rest) (ts ++ out)

theorem splitsInto_token (h : IsToken s.toList) : SplitsInto s [s] := by
  intro rest out hrest hout
  simpa using Splits.token (isLongestPrefix_of_stops h hrest) hout

/-- **A sign does not merge** with a letter or a digit that comes after it. -/
theorem SplitsInto.sign (h : SplitsInto a ts) (hs : s = "+" ∨ s = "-")
    (ha : a.toList.head?.map Char.isAlphanum = some true) : SplitsInto (s ++ a) (s :: ts) := by
  intro rest out hrest hout
  obtain ⟨c, hhead, hc⟩ := Option.map_eq_some_iff.1 ha
  obtain ⟨cs, hcs⟩ := List.head?_eq_some_iff.1 hhead
  have hsign : ∃ sign, (sign = '+' ∨ sign = '-') ∧ s.toList = [sign] := by
    rcases hs with rfl | rfl
    · exact ⟨'+', .inl rfl, rfl⟩
    · exact ⟨'-', .inr rfl, rfl⟩
  obtain ⟨sign, hsign, hchars⟩ := hsign
  have htoken : IsToken s.toList := by
    rcases hs with rfl | rfl <;> exact .inr (.inr ⟨_, by decide, rfl⟩)
  have hlongest : IsLongestPrefix IsToken s.toList (s.toList ++ (a.toList ++ rest)) := by
    refine .of_append htoken fun d t ⟨rest', hd⟩ hlonger => ?_
    rw [hcs] at hd
    obtain ⟨rfl, -⟩ := List.cons.inj hd
    rw [hchars] at hlonger
    simp [hlonger.not_isAlphanum hsign] at hc
  have hsplits := Splits.token hlongest (h rest out hrest hout)
  simpa using hsplits

/-- **An operator between two blanks** is divided from what stands around it. -/
theorem SplitsInto.operation (ha : SplitsInto a ts) (hop : IsToken op.toList)
    (hb : SplitsInto b us) : SplitsInto (a ++ (" " ++ op ++ " " ++ b)) (ts ++ op :: us) := by
  intro rest out hrest hout
  have hblank : ' ' ∈ spaces := by decide
  have hstop : ' ' ∈ stops := by decide
  have hright := Splits.space hblank (hb rest out hrest hout)
  have hmiddle := Splits.space hblank (splitsInto_token hop _ _ (stops_cons hstop _) hright)
  have hleft := ha _ _ (stops_cons hstop _) hmiddle
  simpa using hleft

/-- A text that is divided into these tokens is divided into no others. -/
theorem SplitsInto.splits_iff (h : SplitsInto code ts) (hrest : Stops rest) (hout : Splits rest out)
    {all : List String} : Splits (code.toList ++ rest) all ↔ all = ts ++ out :=
  ⟨fun hall => hall.unique (h rest out hrest hout), fun hall => hall ▸ h rest out hrest hout⟩

end TinyBasic.C
