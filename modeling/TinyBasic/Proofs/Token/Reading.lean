import TinyBasic.Proofs.Token.Spelling

/-!
# The longest lexeme is read

What the reader takes off the front of a text is always the longest possible: the layout is the
longest gap (`Lexeme.isLongestPrefix_layout`), and a token's lexeme the longest lexeme.  It
refuses a text exactly when no lexeme stands at its front or when a numeral is broken off after
its point, and the error names the fault (`Lexeme.isAnswer_read`).
-/

namespace TinyBasic

namespace Lexeme

variable {p q cs raw text rest : List Char} {c : Char} {k : Token.Kind}

/-! ### Layout -/

theorem isBlank_iff : isBlank c = true ↔ c ∈ [' ', '\t', '\r'] := by
  simp [isBlank, or_assoc]

/-- A comment at the front of a text ends right before a line feed, unless the text ends there. -/
theorem layout_eq (cs : List Char) :
    ∃ blanks comment, layout cs = blanks ++ comment ∧ (∀ b ∈ blanks, b ∈ [' ', '\t', '\r']) ∧
      (comment = [] ∨ ∃ remark, comment = '#' :: remark ∧ '\n' ∉ remark ∧
        ∀ c, (afterLayout cs).head? = some c → c = '\n') := by
  have hblank : ∀ b ∈ cs.takeWhile isBlank, b ∈ [' ', '\t', '\r'] :=
    fun b hb => isBlank_iff.1 (List.mem_takeWhile_imp hb)
  unfold layout afterLayout
  split
  · rename_i rest _
    refine ⟨_, _, rfl, hblank, .inr ⟨_, rfl, fun hn => ?_, fun c hc => ?_⟩⟩
    · simpa using List.mem_takeWhile_imp hn
    · have hstop := List.head?_dropWhile_not (· != '\n') rest
      rw [hc] at hstop
      simpa using hstop
  · exact ⟨_, [], (List.append_nil _).symm, hblank, .inl rfl⟩

theorem isGap_layout (cs : List Char) : IsGap (layout cs) := by
  obtain ⟨blanks, comment, hlayout, hblanks, hcomment⟩ := layout_eq cs
  refine ⟨blanks, comment, hlayout, hblanks, hcomment.imp_right ?_⟩
  rintro ⟨remark, rfl, hremark, -⟩
  exact ⟨remark, rfl, hremark⟩

theorem length_le_layout (hq : IsGap q) (h : q <+: cs) : q.length ≤ (layout cs).length := by
  obtain ⟨rest, rfl⟩ := h
  obtain ⟨blanks, comment, rfl, hblank, hcomment⟩ := hq
  have hb : ∀ b ∈ blanks, isBlank b = true := fun b hb => isBlank_iff.2 (hblank b hb)
  rcases hcomment with rfl | ⟨remark, rfl, hremark⟩
  · -- a gap of blanks is a part of the blanks of the layout
    have hle : blanks.length ≤ ((blanks ++ rest).takeWhile isBlank).length := by
      simp [List.takeWhile_append_of_pos hb]
    simp only [List.append_nil, layout]
    split
    · rw [List.length_append]
      exact Nat.le_add_right_of_le hle
    · exact hle
  · -- a gap with a comment starts like the layout, and the comment cannot go beyond its line
    have hr : ∀ x ∈ remark, (x != '\n') = true := fun x hx => by
      simpa using fun hn : x = '\n' => hremark (hn ▸ hx)
    have hhash : isBlank '#' = false := by decide
    simp [layout, List.takeWhile_append_of_pos hb, List.dropWhile_append_of_pos hb, hhash,
      List.takeWhile_append_of_pos hr]

/-- **The layout at the front of a text is the longest gap that stands there.** -/
theorem isLongestPrefix_layout (cs : List Char) : IsLongestPrefix IsGap (layout cs) cs where
  holds := isGap_layout cs
  isPrefix := ⟨afterLayout cs, layout_append_afterLayout cs⟩
  longest _ hq h := length_le_layout hq h

/-! ### What is read -/

/-- `l` is the longest lexeme at the front of `cs`, or says why none can be taken. -/
def IsAnswer (l : Lexeme) (cs : List Char) : Prop :=
  match l.outcome with
  | .ok t => Spells t.kind t.text.toList l.taken ∧ IsLongestPrefix IsLexeme l.taken cs ∧
      ¬ IsBrokenNumeral cs
  | .error e => Fault cs e ∧ (NoLexeme cs ∨ IsBrokenNumeral cs)

theorem isAnswer_token (hs : Spells k raw raw) (hcs : raw ++ rest = cs)
    (hb : ¬ IsBrokenNumeral cs) (hl : ∀ q, IsLexeme q → q <+: cs → q.length ≤ raw.length) :
    IsAnswer (token k raw rest) cs := by
  refine ⟨?_, ⟨⟨k, raw, hs⟩, ⟨rest, hcs⟩, hl⟩, hb⟩
  simpa [token] using hs

/-- The lexemes at the front of a text start with its first character. -/
theorem exists_spells_of_isLexeme (h : IsLexeme raw) (hp : raw <+: c :: rest) :
    ∃ k text tl, raw = c :: tl ∧ tl <+: rest ∧ Spells k text (c :: tl) := by
  obtain ⟨k, text, h⟩ := h
  cases raw with
  | nil => exact absurd rfl h.ne_nil
  | cons d tl =>
    obtain ⟨rfl, htl⟩ := List.cons_prefix_cons.1 hp
    exact ⟨k, text, tl, rfl, htl, h⟩

theorem not_isBrokenNumeral_of_head (hc : c.isDigit = false) : ¬ IsBrokenNumeral (c :: rest) := by
  rintro ⟨ds, rest', h, ⟨hne, hd⟩, -⟩
  cases ds with
  | nil => exact hne rfl
  | cons d ds =>
    obtain ⟨rfl, -⟩ := List.cons.inj h
    simp [hd c List.mem_cons_self] at hc

theorem eq_newline_or_mem_operators (h : tableKind? raw = some k) :
    raw = ['\n'] ∧ k = .newline ∨ (String.ofList raw, k) ∈ operators := by
  unfold tableKind? at h
  split at h
  · have h := mem_of_lookup_eq_some h
    simp only [List.mem_cons, Prod.mk.injEq, List.not_mem_nil, or_false] at h
    rcases h with ⟨rfl, rfl⟩ | ⟨rfl, rfl⟩ | ⟨rfl, rfl⟩ | ⟨rfl, rfl⟩ | ⟨rfl, rfl⟩ | ⟨rfl, rfl⟩ |
      ⟨rfl, rfl⟩ | ⟨rfl, rfl⟩ <;> decide
  · have h := mem_of_lookup_eq_some h
    simp only [List.mem_cons, Prod.mk.injEq, List.not_mem_nil, or_false] at h
    rcases h with ⟨rfl, rfl⟩ | ⟨rfl, rfl⟩ | ⟨rfl, rfl⟩ | ⟨rfl, rfl⟩ <;> decide
  · cases h

theorem spells_of_tableKind? (h : tableKind? raw = some k) : Spells k raw raw := by
  rcases eq_newline_or_mem_operators h with ⟨rfl, rfl⟩ | h
  · exact .newline
  · simpa using Spells.operator h

theorem Spells.of_isSymbol (hc : IsSymbol c) (h : Spells k text (c :: rest)) :
    rest = [] ∧ single? c = some k ∨ rest = ['='] ∧ withEquals? c = some k := by
  obtain ⟨hd, ha, hq⟩ := hc
  rcases h.cases_head with ⟨rfl, -, hk⟩ | ⟨rfl, -, hk⟩ | ⟨hc, -⟩ | ⟨hc, -⟩ | ⟨hc, -⟩
  · exact .inl ⟨rfl, hk⟩
  · exact .inr ⟨rfl, hk⟩
  · simp [hd] at hc
  · simp [ha] at hc
  · exact absurd hc hq

theorem isAnswer_operator? {l : Lexeme} (h : operator? c rest = some l) :
    IsAnswer l (c :: rest) := by
  -- one character is the longest lexeme when no equals sign can be added
  have single {k : Token.Kind} (hk : single? c = some k)
      (hno : ∀ k', withEquals? c = some k' → ¬ ['='] <+: rest) :
      IsAnswer (token k [c] rest) (c :: rest) := by
    have hc := isSymbol_of_single? hk
    have hs : Spells k [c] [c] := spells_of_tableKind? hk
    refine isAnswer_token hs rfl (not_isBrokenNumeral_of_head hc.1) fun q hq hp => ?_
    obtain ⟨k', text, tl, rfl, htl, hs⟩ := exists_spells_of_isLexeme hq hp
    rcases hs.of_isSymbol hc with ⟨rfl, -⟩ | ⟨rfl, hk'⟩
    · exact Nat.le_refl _
    · exact absurd htl (hno k' hk')
  unfold operator? at h
  split at h
  · rename_i rest'
    split at h
    · rename_i k hk
      obtain rfl := Option.some.inj h
      have hc := isSymbol_of_withEquals? hk
      have hs : Spells k [c, '='] [c, '='] := spells_of_tableKind? hk
      refine isAnswer_token hs rfl (not_isBrokenNumeral_of_head hc.1) fun q hq hp => ?_
      obtain ⟨k', text, tl, rfl, -, hs⟩ := exists_spells_of_isLexeme hq hp
      rcases hs.of_isSymbol hc with ⟨rfl, -⟩ | ⟨rfl, -⟩ <;> simp
    · rename_i hno
      obtain ⟨k, hk, rfl⟩ := Option.map_eq_some_iff.1 h
      exact single hk fun k' hk' => by simp [hno] at hk'
  · rename_i hno
    obtain ⟨k, hk, rfl⟩ := Option.map_eq_some_iff.1 h
    exact single hk fun k' _ ⟨rest', hrest'⟩ => hno rest' hrest'.symm

theorem Spells.of_isDigit (hc : c.isDigit = true) (h : Spells k text (c :: rest)) :
    IsDigits (c :: rest) ∨
      ∃ ds fs, c :: rest = ds ++ '.' :: fs ∧ IsDigits ds ∧ IsDigits fs := by
  rcases h.cases_head with ⟨-, -, hk⟩ | ⟨-, -, hk⟩ | ⟨-, -, rfl, h⟩ | ⟨ha, -⟩ | ⟨rfl, -⟩
  · simp [(isSymbol_of_single? hk).1] at hc
  · simp [(isSymbol_of_withEquals? hk).1] at hc
  · exact h
  · simp [isAlpha_eq_false_of_isDigit hc] at ha
  · simp at hc

theorem takeWhile_isDigit_append {ds : List Char} (h : IsDigits ds) (rest : List Char) :
    (ds ++ '.' :: rest).takeWhile Char.isDigit = ds := by
  have hdot : '.'.isDigit = false := by decide
  simp [List.takeWhile_append_of_pos h.2, hdot]

theorem dropWhile_isDigit_append {ds : List Char} (h : IsDigits ds) (rest : List Char) :
    (ds ++ '.' :: rest).dropWhile Char.isDigit = '.' :: rest := by
  have hdot : '.'.isDigit = false := by decide
  simp [List.dropWhile_append_of_pos h.2, hdot]

theorem isDigits_takeWhile (h : cs.takeWhile Char.isDigit ≠ []) :
    IsDigits (cs.takeWhile Char.isDigit) :=
  ⟨h, fun _ hd => List.mem_takeWhile_imp hd⟩

theorem length_le_takeWhile {f : Char → Bool} (hq : ∀ c ∈ q, f c = true) (h : q <+: cs) :
    q.length ≤ (cs.takeWhile f).length := by
  obtain ⟨rest, rfl⟩ := h
  simp [List.takeWhile_append_of_pos hq]

theorem takeWhile_eq_nil_iff {f : Char → Bool} :
    cs.takeWhile f = [] ↔ ∀ c, cs.head? = some c → f c = false := by
  cases cs with
  | nil => simp
  | cons c cs => cases hc : f c <;> simp [hc]

theorem isAnswer_number (hc : c.isDigit = true) : IsAnswer (number (c :: rest)) (c :: rest) := by
  have hds : IsDigits ((c :: rest).takeWhile Char.isDigit) := isDigits_takeWhile (by simp [hc])
  have hcs := List.takeWhile_append_dropWhile (p := Char.isDigit) (l := c :: rest)
  unfold number
  split
  · rename_i rest' hrest
    rw [hrest] at hcs
    split
    · rename_i hempty
      have hb : IsBrokenNumeral (c :: rest) :=
        ⟨_, rest', hcs.symm, hds, takeWhile_eq_nil_iff.1 (List.isEmpty_iff.1 hempty)⟩
      exact ⟨.badNumber hb, .inr hb⟩
    · rename_i hfs
      have hfs : IsDigits (rest'.takeWhile Char.isDigit) := isDigits_takeWhile (by simpa using hfs)
      refine isAnswer_token (.decimal hds hfs) ?_ ?_ ?_
      · simpa using hcs
      · -- the digits in front of the point are those that were read, and one follows the point
        rintro ⟨ds, rest'', h, hd, hno⟩
        rw [h, dropWhile_isDigit_append hd] at hrest
        obtain ⟨-, rfl⟩ := List.cons.inj hrest
        exact hfs.1 (takeWhile_eq_nil_iff.2 hno)
      · intro q hq hp
        obtain ⟨k, text, tl, rfl, -, hs⟩ := exists_spells_of_isLexeme hq hp
        rcases hs.of_isDigit hc with hd | ⟨ds, fs, heq, hd, hf⟩
        · have := length_le_takeWhile hd.2 hp
          rw [List.length_append]
          omega
        · rw [heq] at hp ⊢
          obtain ⟨r, hr⟩ := hp
          rw [List.append_assoc, List.cons_append] at hr
          rw [← hr, dropWhile_isDigit_append hd] at hrest
          obtain ⟨-, rfl⟩ := List.cons.inj hrest
          rw [← hr, takeWhile_isDigit_append hd]
          have := length_le_takeWhile hf.2 (List.prefix_append fs r)
          simp only [List.length_append, List.length_cons]
          omega
  · rename_i hno
    refine isAnswer_token (.integer hds) hcs ?_ ?_
    · rintro ⟨ds, rest', h, hd, -⟩
      exact hno rest' (h ▸ dropWhile_isDigit_append hd rest')
    · intro q hq hp
      obtain ⟨k, text, tl, rfl, -, hs⟩ := exists_spells_of_isLexeme hq hp
      rcases hs.of_isDigit hc with hd | ⟨ds, fs, heq, hd, hf⟩
      · exact length_le_takeWhile hd.2 hp
      · obtain ⟨r, hr⟩ := heq ▸ hp
        rw [List.append_assoc, List.cons_append] at hr
        exact absurd (hr ▸ dropWhile_isDigit_append hd _) (hno _)

theorem Spells.of_isAlpha (hc : c.isAlpha = true) (h : Spells k text (c :: rest)) :
    ∀ d ∈ c :: rest, d.isAlphanum = true := by
  rcases h.cases_head with ⟨-, -, hk⟩ | ⟨-, -, hk⟩ | ⟨hd, -⟩ | ⟨-, -, rfl, h⟩ | ⟨rfl, -⟩
  · simp [(isSymbol_of_single? hk).2.1] at hc
  · simp [(isSymbol_of_withEquals? hk).2.1] at hc
  · simp [isAlpha_eq_false_of_isDigit hd] at hc
  · exact h
  · simp at hc

theorem isAnswer_word (hc : c.isAlpha = true) : IsAnswer (word (c :: rest)) (c :: rest) := by
  have hw : IsWord ((c :: rest).takeWhile Char.isAlphanum) := by
    refine ⟨c, rest.takeWhile Char.isAlphanum, ?_, hc, fun d hd => List.mem_takeWhile_imp hd⟩
    simp [Char.isAlphanum, hc]
  refine isAnswer_token (spells_wordKind hw) List.takeWhile_append_dropWhile
    (not_isBrokenNumeral_of_head (isDigit_eq_false_of_isAlpha hc)) fun q hq hp => ?_
  obtain ⟨k, text, tl, rfl, -, hs⟩ := exists_spells_of_isLexeme hq hp
  exact length_le_takeWhile (hs.of_isAlpha hc) hp

theorem isStringChar_iff : isStringChar c = true ↔ c ∉ ['"', '\n', '\r', '\t', '\\', '%'] := by
  simp [isStringChar, outsideStrings]

theorem Spells.of_quote (h : Spells k text ('"' :: rest)) :
    k = .string ∧ rest = text ++ ['"'] ∧ IsStringText text := by
  rcases h.cases_head with ⟨-, -, hk⟩ | ⟨-, -, hk⟩ | ⟨hd, -⟩ | ⟨ha, -⟩ | ⟨-, h⟩
  · exact absurd rfl (isSymbol_of_single? hk).2.2
  · exact absurd rfl (isSymbol_of_withEquals? hk).2.2
  · simp at hd
  · simp at ha
  · exact h

theorem isAnswer_string : IsAnswer (string rest) ('"' :: rest) := by
  have hin : IsStringText (rest.takeWhile isStringChar) :=
    fun c hc => isStringChar_iff.1 (List.mem_takeWhile_imp hc)
  have hrest := List.takeWhile_append_dropWhile (p := isStringChar) (l := rest)
  have hb : ¬ IsBrokenNumeral ('"' :: rest) := not_isBrokenNumeral_of_head (by decide)
  -- a literal at the front has to end where the characters that it can hold end
  have hend : ∀ q, IsLexeme q → q <+: '"' :: rest →
      q = '"' :: rest.takeWhile isStringChar ++ ['"'] ∧
        (rest.dropWhile isStringChar).head? = some '"' := by
    intro q hq hp
    obtain ⟨k, text, tl, rfl, ⟨r, rfl⟩, hs⟩ := exists_spells_of_isLexeme hq hp
    obtain ⟨-, rfl, ht⟩ := hs.of_quote
    have ht : ∀ c ∈ text, isStringChar c = true := fun c hc => isStringChar_iff.2 (ht c hc)
    have hquote : isStringChar '"' = false := by decide
    simp [List.takeWhile_append_of_pos ht, List.dropWhile_append_of_pos ht, hquote]
  have hcs : '"' :: rest.takeWhile isStringChar ++ rest.dropWhile isStringChar = '"' :: rest :=
    congrArg ('"' :: ·) hrest
  unfold string
  split
  · rename_i rest' heq
    rw [heq] at hcs
    refine ⟨by simpa using Spells.string hin, ⟨⟨_, _, .string hin⟩, ⟨rest', ?_⟩, ?_⟩, hb⟩
    · simpa using hcs
    · intro q hq hp
      rw [(hend q hq hp).1]
  · rename_i heq
    rw [heq] at hcs
    refine ⟨hcs ▸ .unterminatedString hin (.inl rfl), .inl fun q hq hp => ?_⟩
    simpa [heq] using (hend q hq hp).2
  · rename_i c rest' hc heq
    rw [heq] at hcs
    have hno : NoLexeme ('"' :: rest) := fun q hq hp => by
      have := (hend q hq hp).2
      rw [heq] at this
      exact hc (Option.some.inj this)
    split
    · rename_i hn
      exact ⟨hcs ▸ .unterminatedString hin (.inr (by simp [hn])), .inl hno⟩
    · rename_i hn
      have hout : isStringChar c = false := by
        have := List.head?_dropWhile_not isStringChar rest
        simpa [heq] using this
      have hbad : c ∈ ['\r', '\t', '\\', '%'] := by
        have : c ∈ ['"', '\n', '\r', '\t', '\\', '%'] := by
          by_contra hmem
          simp [isStringChar_iff.2 hmem] at hout
        simpa [show c ≠ '"' from hc, hn] using this
      exact ⟨hcs ▸ .badString hin hbad, .inl hno⟩

theorem single?_eq_none_of_operator?_eq_none (h : operator? c rest = none) : single? c = none := by
  unfold operator? at h
  split at h
  · split at h
    · cases h
    · exact Option.map_eq_none_iff.1 h
  · exact Option.map_eq_none_iff.1 h

theorem noLexeme_of_operator?_eq_none (hc : IsSymbol c) (hno : operator? c rest = none) :
    NoLexeme (c :: rest) := by
  intro q hq hp
  obtain ⟨k, text, tl, rfl, ⟨r, rfl⟩, hs⟩ := exists_spells_of_isLexeme hq hp
  rcases hs.of_isSymbol hc with ⟨rfl, hk⟩ | ⟨rfl, hk⟩
  · simp [single?_eq_none_of_operator?_eq_none hno] at hk
  · simp [operator?, hk] at hno

theorem isAnswer_read (c : Char) (rest : List Char) : IsAnswer (read c rest) (c :: rest) := by
  unfold read
  split
  · rename_i l hl
    exact isAnswer_operator? hl
  · rename_i hno
    split
    · rename_i hc
      rw [hc]
      exact isAnswer_string
    · split
      · rename_i hd
        exact isAnswer_number hd
      · split
        · rename_i ha
          exact isAnswer_word ha
        · rename_i hq hd ha
          have hc : IsSymbol c := ⟨by simpa using hd, by simpa using ha, hq⟩
          have hnone := noLexeme_of_operator?_eq_none hc hno
          split
          · rename_i hbang
            subst hbang
            refine ⟨.badBang fun heq => ?_, .inl hnone⟩
            obtain ⟨rest', rfl⟩ := List.head?_eq_some_iff.1 heq
            cases hno
          · rename_i hbang
            exact ⟨.unknownChar hnone hbang hq, .inl hnone⟩

end Lexeme

end TinyBasic
