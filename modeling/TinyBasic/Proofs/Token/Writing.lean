import TinyBasic.Proofs.Token.Normalization

/-!
# Tokens written out

A text is written from tokens by putting one space between the lexemes of consecutive ones
(`Token.written`).  No lexeme goes on with a space or with a line feed, whatever comes after it
(`Lexeme.not_isLexeme_append`, `Lexeme.not_isBrokenNumeral_append`), so each of them is read back
as it was written (`Tokenizes.written_cons`), and reading undoes writing
(`Lexer.lexing_undoes_writing`).
-/

namespace TinyBasic

namespace Lexeme

variable {c : Char} {cs gap raw rest text tl : List Char} {k : Token.Kind}

/-! ### What ends a lexeme -/

/-- The characters that no lexeme goes on with. -/
def separators : List Char := [' ', '\n']

/-- The text is empty or begins with a separator. -/
def Separated (cs : List Char) : Prop := ∀ c, cs.head? = some c → c ∈ separators

theorem separated_nil : Separated [] := by simp [Separated]

theorem separated_cons (hc : c ∈ separators) (cs : List Char) : Separated (c :: cs) := by
  simpa [Separated] using hc

theorem not_isAlphanum_of_separator : ∀ c ∈ separators, c.isAlphanum = false := by simp [separators]

theorem ne_of_separator : ∀ c ∈ separators, c ≠ '=' ∧ c ≠ '.' := by simp [separators]

theorem isDigit_eq_false_of_separator (hc : c ∈ separators) : c.isDigit = false := by
  have h := not_isAlphanum_of_separator c hc
  rw [Char.isAlphanum, Bool.or_eq_false_iff] at h
  exact h.2

/-- **No lexeme goes on with a separator.** -/
theorem not_isLexeme_append (h : IsLexeme raw) (hc : c ∈ separators) (tl : List Char) :
    ¬ IsLexeme (raw ++ c :: tl) := by
  rintro ⟨k', text', hlonger⟩
  obtain ⟨k, text, h⟩ := h
  obtain ⟨d, ds, rfl⟩ := List.exists_cons_of_ne_nil h.ne_nil
  rw [List.cons_append] at hlonger
  have hmem : c ∈ d :: (ds ++ c :: tl) := by simp
  rcases h.cases_head with ⟨rfl, -, hk⟩ | ⟨rfl, -, hk⟩ | ⟨hd, -⟩ | ⟨ha, -⟩ | ⟨rfl, -, rfl, -⟩
  · rcases hlonger.of_isSymbol (isSymbol_of_single? hk) with ⟨heq, -⟩ | ⟨heq, -⟩
    · cases heq
    · exact (ne_of_separator c hc).1 (List.cons.inj heq).1
  · rcases hlonger.of_isSymbol (isSymbol_of_withEquals? hk) with ⟨heq, -⟩ | ⟨heq, -⟩
    · cases heq
    · cases (List.cons.inj heq).2
  · have hno := isDigit_eq_false_of_separator hc
    rcases hlonger.of_isDigit hd with hds | ⟨ds', fs, heq, hds, hfs⟩
    · simp [hds.2 c hmem] at hno
    · rw [heq] at hmem
      rcases List.mem_append.1 hmem with hmem | hmem
      · simp [hds.2 c hmem] at hno
      · rcases List.mem_cons.1 hmem with hdot | hmem
        · exact (ne_of_separator c hc).2 hdot
        · simp [hfs.2 c hmem] at hno
  · simpa [not_isAlphanum_of_separator c hc] using hlonger.of_isAlpha ha c hmem
  · -- the closing quote would stand inside of the longer literal
    obtain ⟨-, heq, htext'⟩ := hlonger.of_quote
    have hinside : text ++ ['"'] <+: text' := by
      have hlen := congrArg List.length heq
      simp only [List.length_append, List.length_cons, List.length_nil] at hlen
      refine List.prefix_of_prefix_length_le ⟨c :: tl, heq⟩ (List.prefix_append text' _) ?_
      simp only [List.length_append, List.length_cons, List.length_nil]
      omega
    exact htext' '"' (hinside.subset (by simp)) (by decide)

/-- **A lexeme in front of a separator is the longest one.** -/
theorem isLongestPrefix_of_separated (h : IsLexeme raw) (hrest : Separated rest) :
    IsLongestPrefix IsLexeme raw (raw ++ rest) := by
  refine .of_append h fun c t ⟨rest', hc⟩ => not_isLexeme_append h (hrest c ?_) t
  simp [← hc]

/-- A numeral in front of a separator is not broken off. -/
theorem not_isBrokenNumeral_append (h : IsLexeme raw) (hrest : Separated rest) :
    ¬ IsBrokenNumeral (raw ++ rest) := by
  obtain ⟨k, text, h⟩ := h
  obtain ⟨c, cs, rfl⟩ := List.exists_cons_of_ne_nil h.ne_nil
  cases hc : c.isDigit with
  | false => exact not_isBrokenNumeral_of_head hc
  | true =>
    rintro ⟨ds, rest', heq, hds, hno⟩
    have hfront := takeWhile_isDigit_append hds rest'
    have hback := dropWhile_isDigit_append hds rest'
    rw [← heq] at hfront hback
    rcases h.of_isDigit hc with hraw | ⟨ds', fs, hraw, hds', hfs⟩
    · -- the point would have to be the separator
      rw [List.dropWhile_append_of_pos hraw.2] at hback
      cases rest with
      | nil => cases hback
      | cons d rest =>
        have hd : d ∈ separators := hrest d rfl
        rw [List.dropWhile_cons_of_neg (by simp [isDigit_eq_false_of_separator hd])] at hback
        exact (ne_of_separator d hd).2 (List.cons.inj hback).1
    · rw [hraw, List.append_assoc, List.cons_append, dropWhile_isDigit_append hds'] at hback
      obtain ⟨f, fs, rfl⟩ := List.exists_cons_of_ne_nil hfs.1
      obtain ⟨-, rfl⟩ := List.cons.inj hback
      simpa [hfs.2 f List.mem_cons_self] using hno f rfl

/-! ### What starts a lexeme -/

/-- No lexeme starts like a gap. -/
theorem Spells.head_notMem (h : Spells k text (c :: rest)) : c ∉ [' ', '\t', '\r', '#'] := by
  intro hc
  have hno : ∀ d ∈ [' ', '\t', '\r', '#'],
      (d.isDigit = false ∧ d.isAlpha = false ∧ d ≠ '"') ∧
        single? d = none ∧ withEquals? d = none := by simp [single?, withEquals?]
  obtain ⟨hsymbol, hsingle, hequals⟩ := hno c hc
  rcases h.of_isSymbol hsymbol with ⟨-, hk⟩ | ⟨-, hk⟩
  · simp [hsingle] at hk
  · simp [hequals] at hk

/-- **Blanks in front of a lexeme are the longest gap there.** -/
theorem isLongestPrefix_blanks (hgap : ∀ b ∈ gap, isBlank b = true) (h : IsLexeme raw)
    (rest : List Char) : IsLongestPrefix IsGap gap (gap ++ (raw ++ rest)) := by
  obtain ⟨k, text, h⟩ := h
  obtain ⟨c, cs, rfl⟩ := List.exists_cons_of_ne_nil h.ne_nil
  have hc := h.head_notMem
  simp only [List.mem_cons, List.not_mem_nil, or_false, not_or] at hc
  have hblank : isBlank c = false := by simp [isBlank, hc]
  have hlayout : layout (gap ++ (c :: cs ++ rest)) = gap := by
    simp [layout, List.takeWhile_append_of_pos hgap, List.dropWhile_append_of_pos hgap, hblank, hc]
  simpa only [hlayout] using isLongestPrefix_layout (gap ++ (c :: cs ++ rest))

/-- A string literal is written between quotes. -/
theorem Spells.raw_eq_quoted (h : Spells .string text raw) : raw = '"' :: text ++ ['"'] := by
  cases h with
  | operator hs => exact absurd hs (string_notMem_operators _)
  | string => rfl

end Lexeme

namespace Token

variable {t : Token} {ts : List Token} {raw : List Char}

/-! ### Writing -/

/-- The lexeme of a token: its text, which stands between quotes in a string literal. -/
def lexeme (t : Token) : List Char :=
  if t.kind = .string then '"' :: t.text.toList ++ ['"'] else t.text.toList

/-- The text of the token is one of its kind. -/
def WellFormed (t : Token) : Prop := Lexeme.Spells t.kind t.text.toList t.lexeme

/-- The lexemes of the tokens, one space between consecutive ones. -/
def written (ts : List Token) : String := String.ofList (List.intercalate [' '] (ts.map lexeme))

theorem lexeme_eq_of_spells (h : Lexeme.Spells t.kind t.text.toList raw) : t.lexeme = raw := by
  unfold lexeme
  split
  · rename_i hk
    rw [hk] at h
    exact h.raw_eq_quoted.symm
  · rename_i hk
    exact (h.raw_eq hk).symm

theorem wellFormed_of_spells (h : Lexeme.Spells t.kind t.text.toList raw) : t.WellFormed := by
  unfold WellFormed
  rwa [lexeme_eq_of_spells h]

theorem WellFormed.isLexeme (h : t.WellFormed) : Lexeme.IsLexeme t.lexeme := ⟨_, _, h⟩

theorem wellFormed_newline : newline.WellFormed := .newline

theorem toList_written_cons (t : Token) (ts : List Token) :
    (written (t :: ts)).toList = t.lexeme ++ ts.flatMap fun u => ' ' :: u.lexeme := by
  rw [written, String.toList_ofList]
  induction ts generalizing t with
  | nil => simp
  | cons u us ih =>
    have hu := ih u
    simp only [List.map_cons, List.intercalate_cons_cons, List.flatMap_cons] at hu ⊢
    rw [hu, List.append_assoc, List.singleton_append, List.cons_append]

end Token

open Lexeme Token

variable {t : Token} {ts : List Token} {cs rest : List Char}
  {out : List (Except LexicalError Token)}

/-- **A token that is written out is read back**, after blanks and in front of a separator. -/
theorem Tokenizes.written_cons (gap : List Char) (hgap : ∀ b ∈ gap, isBlank b = true)
    (ht : t.WellFormed) (hrest : Separated rest) (h : Tokenizes rest out) :
    Tokenizes (gap ++ (t.lexeme ++ rest)) (.ok t :: out) := by
  have key := Tokenizes.token (isLongestPrefix_blanks hgap ht.isLexeme rest)
    (not_isBrokenNumeral_append ht.isLexeme hrest)
    (isLongestPrefix_of_separated ht.isLexeme hrest) ht h
  rwa [String.ofList_toList] at key

theorem separated_flatMap (ts : List Token) (hrest : Separated rest) :
    Separated ((ts.flatMap fun t => ' ' :: t.lexeme) ++ rest) := by
  cases ts with
  | nil => exact hrest
  | cons t ts => exact separated_cons (by decide) _

/-- So is a whole list of tokens, each with a space before it. -/
theorem Tokenizes.written_flatMap (hts : ∀ t ∈ ts, t.WellFormed) (hrest : Separated rest)
    (h : Tokenizes rest out) :
    Tokenizes ((ts.flatMap fun t => ' ' :: t.lexeme) ++ rest) (ts.map .ok ++ out) := by
  induction ts with
  | nil => exact h
  | cons t ts ih =>
    obtain ⟨ht, hts⟩ := List.forall_mem_cons.1 hts
    have key := Tokenizes.written_cons [' '] (by simp [isBlank]) ht (separated_flatMap ts hrest) (ih hts)
    simpa using key

/-- The end of a text: blanks, and the line feed that every text ends with. -/
theorem tokenizes_newline (gap : List Char) (hgap : ∀ b ∈ gap, isBlank b = true) :
    Tokenizes (gap ++ ['\n']) [.ok Token.newline, .ok Token.eof] := by
  have hend : Tokenizes [] [.ok Token.eof] := .eof (isLongestPrefix_layout [])
  exact Tokenizes.written_cons gap hgap wellFormed_newline separated_nil hend

/-- The tokens of a text without a fault are well-formed, and the end of the text comes after
them. -/
theorem Tokenizes.exists_wellFormed (h : Tokenizes cs out) :
    ∀ us : List Token, out = us.map .ok → ∃ ts, us = ts ++ [Token.eof] ∧ ∀ t ∈ ts, t.WellFormed := by
  induction h with
  | eof =>
    intro us hus
    obtain ⟨u, us, rfl, hu, hnil⟩ := List.map_eq_cons_iff.1 hus.symm
    obtain rfl := List.map_eq_nil_iff.1 hnil
    exact ⟨[], by rw [Except.ok.inj hu]; rfl, by simp⟩
  | fault =>
    intro us hus
    obtain ⟨u, us, rfl, hu, -⟩ := List.map_eq_cons_iff.1 hus.symm
    cases hu
  | @token gap raw rest text kind out _ _ _ hs _ ih =>
    intro us hus
    obtain ⟨u, us, rfl, hu, hout⟩ := List.map_eq_cons_iff.1 hus.symm
    obtain ⟨ts, rfl, hts⟩ := ih us hout.symm
    rw [← String.toList_ofList (l := text)] at hs
    have hwell : u.WellFormed := Except.ok.inj hu ▸ wellFormed_of_spells hs
    exact ⟨u :: ts, rfl, List.forall_mem_cons.2 ⟨hwell, hts⟩⟩

namespace Lexer

/-- What is read from a text of written tokens, in which the end of the text may have been written
too: as nothing, with a space before it. -/
theorem map_content_written (name : String) (hts : ∀ t ∈ ts, t.WellFormed) {us : List Token}
    (hus : us = [] ∨ us = [Token.eof]) :
    (ofSource ⟨name, written (ts ++ us)⟩).items.map content =
      (ts ++ [Token.newline, Token.eof]).map .ok := by
  have hmap : (ts ++ [Token.newline, Token.eof]).map Except.ok =
      ts.map .ok ++ [(.ok Token.newline : Except LexicalError Token), .ok Token.eof] := by simp
  refine map_content_of_tokenizes ?_ _ rfl
  rw [ofSource_rest, Source.chars_eq, hmap]
  cases ts with
  | nil =>
    have hnothing : (written ([] ++ us)).toList = [] := by
      rcases hus with rfl | rfl <;> simp [written, Token.eof, lexeme]
    rw [hnothing]
    exact tokenizes_newline [] (by simp)
  | cons t ts =>
    obtain ⟨ht, hts⟩ := List.forall_mem_cons.1 hts
    have hend : Separated ((us.flatMap fun u => ' ' :: u.lexeme) ++ ['\n']) ∧
        Tokenizes ((us.flatMap fun u => ' ' :: u.lexeme) ++ ['\n'])
          [.ok Token.newline, .ok Token.eof] := by
      rcases hus with rfl | rfl
      · exact ⟨separated_cons (by decide) _, tokenizes_newline [] (by simp)⟩
      · exact ⟨separated_cons (by decide) _, tokenizes_newline [' '] (by simp [isBlank])⟩
    have key := Tokenizes.written_cons [] (by simp) ht (separated_flatMap ts hend.1)
      (.written_flatMap hts hend.1 hend.2)
    simpa [toList_written_cons] using key

/-- **Reading undoes writing.**  Well-formed tokens that are written out with one space between
consecutive ones are read back as they are, with the line feed that ends every text after them.
So the tokens of a text without a fault are read back when they are written out, whether the end
of the text is written or not. -/
theorem lexing_undoes_writing (name : String) :
    (∀ ts : List Token, (∀ t ∈ ts, t.WellFormed) →
      (ofSource ⟨name, written ts⟩).items.map content =
        (ts ++ [Token.newline, Token.eof]).map .ok) ∧
    ∀ (s : Source) (us : List Token), (ofSource s).items.map content = us.map .ok →
      ∃ ts, us = ts ++ [Token.eof] ∧ ∀ vs ∈ [ts, us],
        (ofSource ⟨name, written vs⟩).items.map content =
          (ts ++ [Token.newline, Token.eof]).map .ok := by
  refine ⟨fun ts hts => ?_, fun s us hus => ?_⟩
  · simpa using map_content_written name hts (.inl rfl)
  · obtain ⟨ts, rfl, hts⟩ := (tokenizes_items (ofSource s)).exists_wellFormed us hus
    refine ⟨ts, rfl, fun vs hvs => ?_⟩
    simp only [List.mem_cons, List.not_mem_nil, or_false] at hvs
    rcases hvs with rfl | rfl
    · simpa using map_content_written name hts (.inl rfl)
    · exact map_content_written name hts (.inr rfl)

/-- A token of each sort. -/
def medley : List Token :=
  [.keyword .print, ⟨.string, "one # two"⟩, Token.newline, ⟨.ident, "PRINTER"⟩, ⟨.gtEq, ">="⟩,
    ⟨.number, "2.50"⟩]

theorem lexing_undoes_writing_medley :
    ((∀ t ∈ medley, t.WellFormed) ∧ written medley = "PRINT \"one # two\" \n PRINTER >= 2.50" ∧
      (ofSource ⟨"a.bas", written medley⟩).items.map content =
        (medley ++ [Token.newline, Token.eof]).map .ok) ∧
    (ofSource ⟨"b.bas", "PRINT\"one # two\"#x\nPRINTER>=2.50"⟩).items.map content =
      (medley ++ [Token.newline, Token.eof]).map .ok ∧
    ∃ ts, medley ++ [Token.newline, Token.eof] = ts ++ [Token.eof] ∧
      ∀ vs ∈ [ts, medley ++ [Token.newline, Token.eof]],
        (ofSource ⟨"a.bas", written vs⟩).items.map content =
          (ts ++ [Token.newline, Token.eof]).map .ok := by
  have hwell : ∀ t ∈ medley, t.WellFormed := by
    simp only [medley, List.forall_mem_cons, List.not_mem_nil, false_imp_iff, implies_true,
      and_true]
    have hdigits : IsDigits ['2'] ∧ IsDigits ['5', '0'] := by simp [IsDigits]
    have hword : IsWord "PRINTER".toList := ⟨'P', "RINTER".toList, rfl, by decide, by simp⟩
    have htext : IsStringText "one # two".toList := by simp [IsStringText]
    refine ⟨.keyword .print, wellFormed_of_spells (.string htext), .newline,
      .ident hword fun k => ?_, .operator (by decide), @Spells.decimal _ _ hdigits.1 hdigits.2⟩
    cases k <;> decide
  have hread : (ofSource ⟨"b.bas", "PRINT\"one # two\"#x\nPRINTER>=2.50"⟩).items.map content =
      (medley ++ [Token.newline, Token.eof]).map .ok := by decide +kernel
  exact ⟨⟨hwell, by decide, (lexing_undoes_writing "a.bas").1 medley hwell⟩, hread,
    (lexing_undoes_writing "a.bas").2 _ _ hread⟩

end Lexer

end TinyBasic
