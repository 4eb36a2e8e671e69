import Mathlib.Data.List.Chain
import TinyBasic.Proofs.Source.Positions
import TinyBasic.Proofs.Token.Writing

/-!
# Where tokens lie

`LiesAt s i t` says that the lexeme of the token `t` stands in `s` from the index `i` on, and that
the location of `t` is the range of exactly these characters.  A lexer stands at an index of its
source (`Lexer.StandsAt`), which every step keeps (`Lexer.StandsAt.pass`), and its answers lie one
after the other (`Lexer.Answers`).

* `Lexer.StandsAt.answers_items`: so do all answers of a lexer.
* `Lexer.locations_are_exact`: the tokens of a source lie where their locations say, in order, and
  only gaps are between them.  So do those that are located by 32-bit counters
  (`CompactLexer.take_of_run?`).
-/

namespace TinyBasic

open Lexeme

namespace Lexeme

variable {cs raw text : List Char} {k : Token.Kind}

/-! ### Lexemes stay on their line -/

theorem plain_of_isAlphanum {c : Char} (h : c.isAlphanum = true) : c ≠ '\n' ∧ c ≠ '\t' := by
  constructor <;> rintro rfl <;> exact absurd h (by decide)

theorem plain_of_isDigit {c : Char} (h : c.isDigit = true) : c ≠ '\n' ∧ c ≠ '\t' :=
  plain_of_isAlphanum (by simp [Char.isAlphanum, h])

theorem plain_of_mem_operators :
    ∀ o ∈ operators, ∀ c ∈ o.1.toList, c ≠ '\n' ∧ c ≠ '\t' := by simp [operators]

/-- Only the lexeme of a line feed holds one, and none holds a tab. -/
theorem Spells.eq_newline_or_plain (h : Spells k text raw) :
    raw = ['\n'] ∨ ∀ c ∈ raw, c ≠ '\n' ∧ c ≠ '\t' := by
  cases h with
  | newline => exact .inl rfl
  | operator hs => exact .inr (plain_of_mem_operators _ hs)
  | integer hd => exact .inr fun c hc => plain_of_isDigit (hd.2 c hc)
  | decimal hd hf =>
    refine .inr (List.forall_mem_append.2 ⟨fun c hc => plain_of_isDigit (hd.2 c hc), ?_⟩)
    exact List.forall_mem_cons.2 ⟨by decide, fun c hc => plain_of_isDigit (hf.2 c hc)⟩
  | keyword k =>
    refine .inr fun c hc => plain_of_isAlphanum ?_
    simp [Char.isAlphanum, isAlpha_of_mem_spelling k c hc]
  | ident hw =>
    obtain ⟨c, rest, rfl, hc, hrest⟩ := hw
    refine .inr (List.forall_mem_cons.2 ⟨plain_of_isAlphanum (by simp [Char.isAlphanum, hc]), ?_⟩)
    exact fun d hd => plain_of_isAlphanum (hrest d hd)
  | string hs =>
    refine .inr (List.forall_mem_cons.2 ⟨by decide, List.forall_mem_append.2 ⟨fun c hc => ?_, ?_⟩⟩)
    · have hin := hs c hc
      simp only [List.mem_cons, List.not_mem_nil, or_false, not_or] at hin
      exact ⟨hin.2.1, hin.2.2.2.1⟩
    · simp

/-- What stands before the last character of a lexeme is as wide as it is long. -/
theorem Spells.afterAll_dropLast (h : Spells k text raw) (p : Position) :
    p.afterAll raw.dropLast = ⟨p.line, p.column + raw.dropLast.length⟩ := by
  refine Position.afterAll_of_plain ?_
  rcases h.eq_newline_or_plain with rfl | hplain
  · simp
  · exact fun c hc => hplain c ((List.dropLast_prefix raw).subset hc)

/-- **The range of a lexeme** stays on its line, and has one column for every character. -/
theorem Spells.spanning_stop (h : Spells k text raw) (s : Source) (p : Position) :
    (Location.spanning s p raw).stop = ⟨p.line, p.column + raw.length⟩ := by
  have hlen : raw.dropLast.length + 1 = raw.length := by
    have := List.length_pos_iff.2 h.ne_nil
    simp only [List.length_dropLast]
    omega
  rw [Location.spanning, h.afterAll_dropLast]
  simp only [if_true, Position.advance, Position.mk.injEq, true_and]
  omega

/-- The range of a lexeme ends at most where the text goes on after it. -/
theorem Spells.stop_le_afterAll (h : Spells k text raw) (p : Position) :
    (⟨p.line, p.column + raw.length⟩ : Position) ≤ p.afterAll raw := by
  rw [← h.spanning_stop ⟨"", ""⟩ p, Location.spanning]
  obtain ⟨c, hc⟩ : ∃ c, raw = raw.dropLast ++ [c] :=
    ⟨raw.getLast h.ne_nil, (List.dropLast_append_getLast h.ne_nil).symm⟩
  have hline : (p.afterAll raw.dropLast).line = p.line := by rw [h.afterAll_dropLast]
  conv_rhs => rw [hc, Position.afterAll_append]
  rw [if_pos hline]
  exact Position.advance_le_after _ c

/-! ### Comments stay on their line -/

theorem newline_notMem_layout (cs : List Char) : '\n' ∉ layout cs := by
  obtain ⟨blanks, comment, hlayout, hblanks, hcomment⟩ := layout_eq cs
  rw [hlayout, List.mem_append, not_or]
  refine ⟨fun hn => absurd (hblanks _ hn) (by decide), ?_⟩
  rcases hcomment with rfl | ⟨remark, rfl, hremark, -⟩
  · simp
  · simpa using hremark

end Lexeme

/-! ### Places in a source -/

/-- Between the indices `i` and `j` there are only blanks and at most one comment, which ends right
before a line feed. -/
def Source.GapBetween (s : Source) (i j : ℕ) : Prop :=
  i ≤ j ∧ ∃ blanks comment, (s.chars.drop i).take (j - i) = blanks ++ comment ∧
    (∀ b ∈ blanks, b ∈ [' ', '\t', '\r']) ∧
    (comment = [] ∨ ∃ remark, comment = '#' :: remark ∧ '\n' ∉ remark ∧ s.chars[j]? = some '\n')

/-- The token is written from index `i` on, and its location is the range of its lexeme: it starts
where the characters before it lead to, does not leave its line before the last character, and has
one column for every character. -/
structure LiesAt (s : Source) (i : ℕ) (t : Located Token) : Prop where
  wellFormed : t.value.WellFormed
  isPrefix : t.value.lexeme <+: s.chars.drop i
  source : t.location.source = s
  start : t.location.start = Position.origin.afterAll (s.chars.take i)
  last_line : (t.location.start.afterAll t.value.lexeme.dropLast).line = t.location.start.line
  stop_line : t.location.stop.line = t.location.start.line
  stop_column : t.location.stop.column = t.location.start.column + t.value.lexeme.length

/-- A token with the index that it is written from comes right after another one: its characters
and its range are beyond those of the first, and only a gap is between the two. -/
structure ComesAfter (s : Source) (p q : ℕ × Located Token) : Prop where
  index_lt : p.1 < p.1 + p.2.value.lexeme.length
  gap : s.GapBetween (p.1 + p.2.value.lexeme.length) q.1
  start_lt_stop : p.2.location.start < p.2.location.stop
  stop_le_start : p.2.location.stop ≤ q.2.location.start

/-- The end of the text, located after the final line feed. -/
def Source.endToken (s : Source) : Located Token :=
  ⟨.eof, .single s (Position.origin.afterAll s.chars)⟩

variable {s : Source} {i j : ℕ} {t u : Located Token}

namespace LiesAt

/-- A token lies where the range of its lexeme is. -/
theorem spanning {t : Token} (ht : t.WellFormed) (h : t.lexeme <+: s.chars.drop i) :
    LiesAt s i ⟨t, .spanning s (s.positionAt i) t.lexeme⟩ where
  wellFormed := ht
  isPrefix := h
  source := rfl
  start := rfl
  last_line := by rw [ht.afterAll_dropLast]
  stop_line := by
    rw [ht.spanning_stop]
    rfl
  stop_column := by
    rw [ht.spanning_stop]
    rfl

theorem lexeme_length_pos (h : LiesAt s i t) : 0 < t.value.lexeme.length :=
  List.length_pos_iff.2 h.wellFormed.ne_nil

theorem stop_eq (h : LiesAt s i t) :
    t.location.stop =
      ⟨t.location.start.line, t.location.start.column + t.value.lexeme.length⟩ := by
  rw [← h.stop_line, ← h.stop_column]

theorem start_lt_stop (h : LiesAt s i t) : t.location.start < t.location.stop := by
  have hpos := h.lexeme_length_pos
  rw [h.stop_eq, Position.lt_iff]
  exact .inr ⟨rfl, by dsimp only; omega⟩

/-- The range of a token ends at most where the text goes on. -/
theorem stop_le (h : LiesAt s i t) (hj : i + t.value.lexeme.length ≤ j) :
    t.location.stop ≤ s.positionAt j := by
  have hend := Source.positionAt_add h.isPrefix
  calc t.location.stop
      ≤ t.location.start.afterAll t.value.lexeme := by
        rw [h.stop_eq]
        exact h.wellFormed.stop_le_afterAll _
    _ = s.positionAt (i + t.value.lexeme.length) := by rw [hend, h.start, Source.positionAt]
    _ ≤ s.positionAt j := Source.positionAt_mono hj

/-- What starts after a gap follows. -/
theorem comesAfter (h : LiesAt s i t) (hgap : s.GapBetween (i + t.value.lexeme.length) j)
    (hu : u.location.start = s.positionAt j) : ComesAfter s (i, t) (j, u) where
  index_lt := Nat.lt_add_of_pos_right h.lexeme_length_pos
  gap := hgap
  start_lt_stop := h.start_lt_stop
  stop_le_start := by
    rw [hu]
    exact h.stop_le hgap.1

end LiesAt

namespace Lexer

variable {l : Lexer} {taken rest : List Char}

/-! ### Where a lexer stands -/

/-- The lexer is about to read the characters of `s` from index `i` on. -/
structure StandsAt (l : Lexer) (s : Source) (i : ℕ) : Prop where
  source : l.source = s
  rest : l.rest = s.chars.drop i
  position : l.position = s.positionAt i
  bound : i ≤ s.chars.length

theorem standsAt_ofSource (s : Source) : (ofSource s).StandsAt s 0 := ⟨rfl, rfl, rfl, Nat.zero_le _⟩

/-- **Passing characters keeps the lexer in its source.** -/
theorem StandsAt.pass (h : l.StandsAt s i) (hrest : l.rest = taken ++ rest) :
    (l.pass taken rest).StandsAt s (i + taken.length) := by
  have hdrop : s.chars.drop i = taken ++ rest := h.rest.symm.trans hrest
  have hpos := Source.positionAt_add (s := s) (i := i) ⟨rest, hdrop.symm⟩
  refine ⟨h.source, ?_, ?_, ?_⟩
  · rw [pass_rest, ← List.drop_drop, hdrop, List.drop_left]
  · rw [pass_position, h.position, hpos]
  · have hlen := congrArg List.length hdrop
    have hbound := h.bound
    simp only [List.length_drop, List.length_append] at hlen
    omega

theorem StandsAt.passLayout (h : l.StandsAt s i) :
    l.passLayout.StandsAt s (i + (layout l.rest).length) :=
  h.pass (layout_append_afterLayout l.rest).symm

/-- Unless it is at the end, a lexer has a line feed to come. -/
theorem StandsAt.newline_mem (h : l.StandsAt s i) (hne : l.rest ≠ []) : '\n' ∈ l.rest := by
  rw [h.rest] at hne ⊢
  exact Source.newline_mem_drop (Nat.lt_of_not_le (mt List.drop_eq_nil_of_le hne))

/-- **The end of the text** is given once everything has been read. -/
theorem StandsAt.eq_length (h : l.StandsAt s i) (hnil : afterLayout l.rest = []) :
    l.rest = [] ∧ i = s.chars.length := by
  have hlayout := layout_append_afterLayout l.rest
  rw [hnil, List.append_nil] at hlayout
  have hrest : l.rest = [] := by
    by_contra hne
    exact newline_notMem_layout l.rest (hlayout.symm ▸ h.newline_mem hne)
  have hdrop := List.drop_eq_nil_iff.1 (h.rest ▸ hrest)
  exact ⟨hrest, Nat.le_antisymm h.bound hdrop⟩

/-- The layout that is passed in front of a lexeme is a gap. -/
theorem StandsAt.gapBetween (h : l.StandsAt s i) {c : Char} {cs : List Char}
    (hcons : afterLayout l.rest = c :: cs) : s.GapBetween i (i + (layout l.rest).length) := by
  obtain ⟨blanks, comment, hlayout, hblanks, hcomment⟩ := layout_eq l.rest
  have hrest := layout_append_afterLayout l.rest
  refine ⟨Nat.le_add_right i _, blanks, comment, ?_, hblanks, hcomment.imp_right ?_⟩
  · rw [Nat.add_sub_cancel_left, ← h.rest, ← hlayout]
    conv_lhs => arg 2; rw [← hrest]
    exact List.take_left
  · rintro ⟨remark, rfl, hremark, hstop⟩
    refine ⟨remark, rfl, hremark, ?_⟩
    rw [← List.head?_drop, ← h.passLayout.rest, passLayout_rest, hcons, List.head?_cons,
      hstop c (by rw [hcons]; rfl)]

theorem next_eq_of_cons {c : Char} {cs : List Char} (h : afterLayout l.rest = c :: cs) :
    l.next =
      (item l.passLayout.position (read c cs)
        (l.passLayout.pass (read c cs).taken (read c cs).rest),
      l.passLayout.pass (read c cs).taken (read c cs).rest) := by
  simp [next, h]

/-- **What the next answer of a lexer is**: a token, which lies after a gap, the end of the text, or
an error where the lexer stopped. -/
theorem StandsAt.next_cases (h : l.StandsAt s i) :
    (∃ t j, l.next.1 = .ok t ∧ t.value.kind ≠ .eof ∧ s.GapBetween i j ∧ LiesAt s j t ∧
      l.next.2.StandsAt s (j + t.value.lexeme.length)) ∨
    (l.next = (.ok s.endToken, l) ∧ i = s.chars.length) ∨
    ∃ e j, l.next.1 = .error e ∧ e.location = .single s (s.positionAt j) := by
  cases hrest : afterLayout l.rest with
  | nil =>
    obtain ⟨hnil, rfl⟩ := h.eq_length hrest
    refine .inr (.inl ⟨?_, rfl⟩)
    rw [next_of_rest_eq_nil hnil, eofItem, h.source, h.position, Source.positionAt,
      List.take_length]
    rfl
  | cons c cs =>
    have hanswer := isAnswer_read c cs
    have hafter := h.passLayout.pass (hrest.trans (read_taken_append_rest c cs).symm)
    unfold IsAnswer at hanswer
    rw [next_eq_of_cons hrest]
    cases ho : (read c cs).outcome with
    | error e =>
      generalize i + (layout l.rest).length + (read c cs).taken.length = j at hafter
      refine .inr (.inr ⟨⟨e, .single s (s.positionAt j)⟩, j, ?_, rfl⟩)
      simp only [item, ho, hafter.source, hafter.position]
    | ok t =>
      rw [ho] at hanswer
      obtain ⟨hs, hlong, -⟩ := hanswer
      have hlexeme : t.lexeme = (read c cs).taken := Token.lexeme_eq_of_spells hs
      rw [← hlexeme] at hs hafter hlong
      refine .inl ⟨⟨t, .spanning s (s.positionAt (i + (layout l.rest).length)) t.lexeme⟩,
        i + (layout l.rest).length, ?_, hs.kind_ne_eof, h.gapBetween hrest, ?_, ?_⟩
      · simp only [item, ho, pass_source, h.passLayout.source, h.passLayout.position, hlexeme]
      · refine .spanning hs ?_
        rw [← h.passLayout.rest, passLayout_rest, hrest]
        exact hlong.isPrefix
      · rwa [← hlexeme]

/-! ### Where the answers lie -/

/-- `Answers s i items`: the answers lie one after the other from index `i` of `s` on, with gaps
before them, up to the end of the text or to an error. -/
inductive Answers (s : Source) : ℕ → List Item → Prop
  | token {i j : ℕ} {t : Located Token} {items : List Item} : t.value.kind ≠ .eof →
      s.GapBetween i j → LiesAt s j t → Answers s (j + t.value.lexeme.length) items →
      Answers s i (.ok t :: items)
  | eof : Answers s s.chars.length [.ok s.endToken]
  | error {i : ℕ} (e : Located LexicalError) : Answers s i [.error e]

/-- **The answers of a lexer lie from where it stands on.** -/
theorem StandsAt.answers_items {l : Lexer} {i : ℕ} (h : l.StandsAt s i) : Answers s i l.items := by
  -- by induction on the characters that are left, of which every token takes some
  rw [items_eq]
  rcases h.next_cases with ⟨t, j, ht, hk, hgap, hlies, hnext⟩ | ⟨heof, rfl⟩ | ⟨e, -, he, -⟩
  · have hlt := next_rest_length_lt ht hk
    simp only [ht, TokenStream.isLast, hk, decide_false, Bool.false_eq_true, if_false]
    exact .token hk hgap hlies hnext.answers_items
  · rw [heof]
    simp only [TokenStream.isLast, Source.endToken, Token.eof, decide_true, if_true]
    exact .eof
  · simp only [he, TokenStream.isLast, if_true]
    exact .error e
termination_by l.rest.length

/-- The places come one right after the other from index `i` on. -/
structure Row (s : Source) (i : ℕ) (places : List (ℕ × Located Token)) : Prop where
  head : ∀ p ∈ places.head?, s.GapBetween i p.1 ∧ p.2.location.start = s.positionAt p.1
  chain : places.IsChain (ComesAfter s)

theorem Row.cons {places : List (ℕ × Located Token)} (hgap : s.GapBetween i j)
    (hlies : LiesAt s j t) (h : Row s (j + t.value.lexeme.length) places) :
    Row s i ((j, t) :: places) where
  head := by simpa using ⟨hgap, hlies.start⟩
  chain := List.isChain_cons.2
    ⟨fun q hq => hlies.comesAfter (h.head q hq).1 (h.head q hq).2, h.chain⟩

theorem Answers.exists_places {items : List Item} (h : Answers s i items) :
    ∃ (places : List (ℕ × Located Token)) (last : Item),
      items = places.map (fun p => .ok p.2) ++ [last] ∧
      (∀ p ∈ places, p.2.value.kind ≠ .eof ∧ LiesAt s p.1 p.2) ∧ Row s i places ∧
      ∀ t, last = .ok t → t = s.endToken ∧ Row s i (places ++ [(s.chars.length, s.endToken)]) := by
  induction h with
  | eof =>
    have hnone : s.GapBetween s.chars.length s.chars.length :=
      ⟨Nat.le_refl _, [], [], by simp, by simp, .inl rfl⟩
    have hend : Row s s.chars.length [(s.chars.length, s.endToken)] :=
      ⟨by simpa [Source.positionAt] using ⟨hnone, rfl⟩, .singleton _⟩
    exact ⟨[], _, rfl, by simp, ⟨by simp, .nil⟩, fun t ht => ⟨(Except.ok.inj ht).symm, hend⟩⟩
  | error e => exact ⟨[], _, rfl, by simp, ⟨by simp, .nil⟩, by simp⟩
  | token hk hgap hlies _ ih =>
    obtain ⟨places, last, rfl, hplaces, hrow, hlast⟩ := ih
    refine ⟨_ :: places, last, rfl, List.forall_mem_cons.2 ⟨⟨hk, hlies⟩, hplaces⟩,
      hrow.cons hgap hlies, fun t ht => ?_⟩
    exact ⟨(hlast t ht).1, (hlast t ht).2.cons hgap hlies⟩

/-- **The locations of tokens are exact.**  Every token up to the end of the text or the first
error lies where its location says, and each one follows the one before it: in order, with nothing
but a gap between the two.  So does the end of the text, which is located after the final line
feed. -/
theorem locations_are_exact (s : Source) :
    ∃ (places : List (ℕ × Located Token)) (last : Item),
      (ofSource s).items = places.map (fun p => .ok p.2) ++ [last] ∧
      (∀ p ∈ places, p.2.value.kind ≠ .eof ∧ LiesAt s p.1 p.2) ∧
      places.IsChain (ComesAfter s) ∧
      ∀ t, last = .ok t → t = s.endToken ∧
        (places ++ [(s.chars.length, s.endToken)]).IsChain (ComesAfter s) := by
  obtain ⟨places, last, hitems, hplaces, hrow, hlast⟩ :=
    (standsAt_ofSource s).answers_items.exists_places
  exact ⟨places, last, hitems, hplaces, hrow.chain,
    fun t ht => ⟨(hlast t ht).1, (hlast t ht).2.chain⟩⟩

end Lexer

end TinyBasic
