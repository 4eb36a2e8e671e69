import TinyBasic.Proofs.Token.Locations

/-!
# Texts one after the other

A line feed ends whatever stands before it: only its own lexeme holds one, and no gap does.  So when
a text that ends with a line feed goes on with another text, nothing that was read in it changes
(`Tokenizes.append`), and the tokens of two sources of which one is put below the other are those of
the first and then those of the second (`Lexer.map_content_joined`).
-/

namespace TinyBasic

open Lexeme

variable {P : List Char → Prop} {p cs ds raw : List Char}

/-- The longest prefix stays the longest one if none that is longer goes beyond the text. -/
theorem IsLongestPrefix.append (h : IsLongestPrefix P p cs)
    (hlonger : ∀ q, P q → cs <+: q → q.length ≤ p.length) (ds : List Char) :
    IsLongestPrefix P p (cs ++ ds) where
  holds := h.holds
  isPrefix := h.isPrefix.trans (List.prefix_append cs ds)
  longest q hq hprefix := by
    rcases List.prefix_or_prefix_of_prefix hprefix (List.prefix_append cs ds) with hle | hle
    · exact h.longest q hq hle
    · exact hlonger q hq hle

/-- Every line of the text is ended by a line feed. -/
def EndsLine (cs : List Char) : Prop := cs = [] ∨ ∃ front, cs = front ++ ['\n']

theorem EndsLine.newline_mem (h : EndsLine cs) (hne : cs ≠ []) : '\n' ∈ cs := by
  obtain rfl | ⟨front, rfl⟩ := h
  · exact absurd rfl hne
  · simp

theorem EndsLine.of_append (h : EndsLine (ds ++ cs)) : EndsLine cs := by
  obtain hnil | ⟨front, hfront⟩ := h
  · exact .inl (List.append_eq_nil_iff.1 hnil).2
  · obtain rfl | ⟨cs, c, rfl⟩ := List.eq_nil_or_concat' cs
    · exact .inl rfl
    · rw [← List.append_assoc] at hfront
      exact .inr ⟨cs, by rw [(List.append_inj' hfront rfl).2]⟩

theorem newline_notMem_gap (h : IsGap cs) : '\n' ∉ cs := by
  obtain ⟨blanks, comment, rfl, hblanks, hcomment⟩ := h
  rw [List.mem_append, not_or]
  refine ⟨fun hn => absurd (hblanks _ hn) (by decide), ?_⟩
  rcases hcomment with rfl | ⟨remark, rfl, hremark⟩
  · simp
  · simpa using hremark

/-- A gap in a text that ends with a line feed ends in it. -/
theorem IsLongestPrefix.gap_append (h : IsLongestPrefix IsGap p cs) (hcs : '\n' ∈ cs)
    (ds : List Char) : IsLongestPrefix IsGap p (cs ++ ds) :=
  h.append (fun _ hq hle => absurd (hle.subset hcs) (newline_notMem_gap hq)) ds

/-- So does a lexeme. -/
theorem IsLongestPrefix.lexeme_append (h : IsLongestPrefix IsLexeme p cs) (hcs : '\n' ∈ cs)
    (ds : List Char) : IsLongestPrefix IsLexeme p (cs ++ ds) := by
  refine h.append (fun q hq hle => ?_) ds
  obtain ⟨k, text, hspells⟩ := id hq
  rcases hspells.eq_newline_or_plain with rfl | hplain
  · obtain ⟨_, _, hp⟩ := h.holds
    exact List.length_pos_iff.2 hp.ne_nil
  · exact absurd rfl (hplain '\n' (hle.subset hcs)).1

/-- So does a numeral that is broken off. -/
theorem isBrokenNumeral_of_append (hcs : '\n' ∈ cs) (h : IsBrokenNumeral (cs ++ ds)) :
    IsBrokenNumeral cs := by
  obtain ⟨digits, rest, heq, hdigits, hrest⟩ := h
  have hno : '\n' ∉ digits := fun hn => absurd (hdigits.2 _ hn) (by decide)
  obtain ⟨front, rfl, -⟩ | ⟨back, rfl, hback⟩ := List.append_eq_append_iff.1 heq
  · exact absurd (List.mem_append_left _ hcs) hno
  · cases back with
    | nil => exact absurd (by simpa using hcs) hno
    | cons c back =>
      obtain ⟨rfl, rfl⟩ := List.cons.inj hback
      refine ⟨digits, back, rfl, hdigits, fun d hd => hrest d ?_⟩
      cases back with
      | nil => cases hd
      | cons _ _ => exact hd

/-- **Nothing that was read in a text that ends with a line feed changes when another text comes
after it.** -/
theorem Tokenizes.append {out out' : List (Except LexicalError Token)} {ts : List Token}
    (h : Tokenizes cs out) (hcs : EndsLine cs) (hout : out = ts.map .ok ++ [.ok .eof])
    (h' : Tokenizes ds out') : Tokenizes (cs ++ ds) (ts.map .ok ++ out') := by
  -- by induction on what is read, all of which lies in front of the line feed at the end
  induction h generalizing ts with
  | @eof gap hgap =>
    obtain rfl : ts = [] := by simpa using congrArg List.length hout
    have hnil : gap = [] := by
      by_contra hne
      exact newline_notMem_gap hgap.holds (hcs.newline_mem hne)
    rw [hnil]
    exact h'
  | @token gap raw rest text kind out hgap hbroken hlong hs hrest ih =>
    cases ts with
    | nil => exact absurd (List.cons.inj hout).2 hrest.ne_nil
    | cons t ts =>
      obtain ⟨ht, hout⟩ := List.cons.inj hout
      have hmem : '\n' ∈ raw ++ rest := hcs.of_append.newline_mem (by simp [hs.ne_nil])
      have hlater := ih hcs.of_append.of_append hout
      have hgap' := hgap.gap_append (List.mem_append_right gap hmem) ds
      have hlong' := hlong.lexeme_append hmem ds
      have hbroken' : ¬ IsBrokenNumeral ((raw ++ rest) ++ ds) :=
        mt (isBrokenNumeral_of_append hmem) hbroken
      rw [List.append_assoc] at hlong' hbroken'
      rw [List.append_assoc, List.append_assoc] at hgap' ⊢
      rw [List.map_cons, List.cons_append, ← ht]
      exact .token hgap' hbroken' hlong' hs hlater
  | @fault gap rest e =>
    have hmem : .error e ∈ ts.map Except.ok ++ [.ok Token.eof] := by simp [← hout]
    simp at hmem

/-- Source `s'` below source `s`. -/
def Source.joined (name : String) (s s' : Source) : Source := ⟨name, s.body ++ "\n" ++ s'.body⟩

theorem Source.chars_joined (name : String) (s s' : Source) :
    (Source.joined name s s').chars = s.chars ++ s'.chars := by
  simp [Source.chars_eq, Source.joined]

/-- **The tokens of two sources, one below the other**, are those of the first and those of the
second. -/
theorem Lexer.map_content_joined (name : String) {s s' : Source} {ts : List (Located Token)}
    {e : Located Token} (h : (ofSource s).items = (ts ++ [e]).map .ok)
    (he : e.value.kind = .eof) :
    (ofSource (.joined name s s')).items.map content =
      (ts.map (·.value)).map .ok ++ (ofSource s').items.map content := by
  have hfirst := tokenizes_items (ofSource s)
  have hitems : (ofSource s).items.map content = (ts.map (·.value)).map .ok ++ [.ok Token.eof] := by
    rw [h, ← eq_eof_of_items h he]
    simp [content, Function.comp_def]
  refine map_content_of_tokenizes ?_ _ rfl
  rw [ofSource_rest, Source.chars_joined]
  exact hfirst.append (.inr ⟨_, s.chars_eq⟩) hitems (tokenizes_items (ofSource s'))

/-- The answers of a lexer that have the given contents, none of them an error. -/
theorem Lexer.exists_of_map_content {items : List Item} {ts : List Token}
    (h : items.map content = ts.map .ok) :
    ∃ us : List (Located Token), items = us.map .ok ∧ us.map (·.value) = ts := by
  induction items generalizing ts with
  | nil => exact ⟨[], rfl, (List.map_eq_nil_iff.1 h.symm).symm⟩
  | cons i items ih =>
    obtain ⟨t, ts, rfl, ht, hts⟩ := List.map_eq_cons_iff.1 h.symm
    obtain ⟨us, rfl, rfl⟩ := ih hts.symm
    cases i with
    | error e => cases ht
    | ok u => exact ⟨u :: us, rfl, by rw [List.map_cons, Except.ok.inj ht]⟩

end TinyBasic
