import TinyBasic.Proofs.Token.Locations
import TinyBasic.Proofs.Translation.Invariants

/-!
# Where failures are

What a translation comes across has its place from the tokens of its source, so to lie in the source
is an invariant of it (`Invariant.inSource`).  The failure of a translation is a range on one line of
the source, from one of its characters on (`translate_failure_isIn`).
-/

namespace TinyBasic

/-- The range starts at index `i` of `s`, is not empty and does not leave its line. -/
structure Location.StartsAt (l : Location) (s : Source) (i : ℕ) : Prop where
  source : l.source = s
  start : l.start = s.positionAt i
  stop_line : l.stop.line = l.start.line
  column_lt : l.start.column < l.stop.column

theorem Location.StartsAt.one_le_column {l : Location} {s : Source} {i : ℕ}
    (h : l.StartsAt s i) : 1 ≤ l.start.column := by
  rw [h.start]
  exact Position.one_le_column_afterAll (Nat.le_refl 1) _

/-- The range starts at some index of `s`. -/
def Location.IsIn (l : Location) (s : Source) : Prop := ∃ i, l.StartsAt s i

variable {s : Source} {i : ℕ}

theorem LiesAt.isIn {t : Located Token} (h : LiesAt s i t) : t.location.IsIn s :=
  ⟨i, h.source, h.start, h.stop_line, by
    rw [h.stop_column]
    exact Nat.lt_add_of_pos_right h.lexeme_length_pos⟩

theorem Location.isIn_single (s : Source) (i : ℕ) : (single s (s.positionAt i)).IsIn s :=
  ⟨i, rfl, rfl, rfl, Nat.lt_succ_self _⟩

theorem Source.isIn_endToken (s : Source) : s.endToken.location.IsIn s := by
  have h := Location.isIn_single s s.chars.length
  rwa [positionAt, List.take_length] at h

/-! ### Translations -/

/-- What a lexer in a source gives lies there, and so does the lexer after it. -/
theorem Lexer.StandsAt.next_ok {l l' : Lexer} {t : Located Token} (h : l.StandsAt s i)
    (hl : l.next = (.ok t, l')) : t.location.IsIn s ∧ ∃ j, l'.StandsAt s j := by
  obtain ⟨t', j, ht, -, -, hlies, hnext⟩ | ⟨heof, -⟩ | ⟨e, j, he, -⟩ := h.next_cases
  · rw [hl] at ht hnext
    obtain rfl : t = t' := Except.ok.inj ht
    exact ⟨hlies.isIn, _, hnext⟩
  · obtain ⟨ht, rfl⟩ := Prod.mk.inj (hl.symm.trans heof)
    obtain rfl : t = s.endToken := Except.ok.inj ht
    exact ⟨s.isIn_endToken, i, h⟩
  · rw [hl] at he
    cases he

theorem Lexer.StandsAt.next_error {l l' : Lexer} {e : Located LexicalError} (h : l.StandsAt s i)
    (hl : l.next = (.error e, l')) : e.location.IsIn s := by
  obtain ⟨t, j, ht, -⟩ | ⟨heof, -⟩ | ⟨e', j, he, hlocation⟩ := h.next_cases
  · rw [hl] at ht
    cases ht
  · cases (Prod.mk.inj (hl.symm.trans heof)).1
  · rw [hl] at he
    obtain rfl : e = e' := Except.error.inj he
    exact hlocation ▸ Location.isIn_single s j

/-- To lie in `s` is an invariant. -/
def Invariant.inSource (s : Source) : Invariant where
  lexer l := ∃ i, l.StandsAt s i
  token t := t.location.IsIn s
  check c := c.location.IsIn s
  failure f := f.location.IsIn s
  next := fun ⟨_, h⟩ hl => h.next_ok hl
  lexical := fun ⟨_, h⟩ hl => h.next_error hl
  syntactic ht _ := ht
  checks ht _ _ _ := ht
  semantic hc _ _ := hc

/-- **A failure is a range of the source.** -/
theorem translate_failure_isIn {f : Failure} (h : (translate s).result = .error f) :
    f.location.IsIn s :=
  (Invariant.inSource s).failure_of_translate ⟨0, Lexer.standsAt_ofSource s⟩ h

end TinyBasic
