import Mathlib.Data.List.TakeWhile
import Mathlib.Data.Prod.Lex
import TinyBasic.Source

/-!
# Positions along a text

Positions are ordered by their lines, and on one line by their columns.  Every character moves its
position on (`Position.lt_after`), so positions grow along a text (`Position.le_afterAll`).

* `Position.afterAll_of_plain`: a text without line feeds and tabs moves its position by as many
  columns as it has characters.
* `Source.positionAt s i`: the position of the character at index `i` of the text of `s`, which is
  what reading the characters before it comes to (`Source.positionAt_add`).  It increases strictly
  with the index (`Source.positionAt_lt`).
-/

namespace TinyBasic

namespace Position

variable {p q : Position} {c : Char} {cs : List Char}

/-! ### The order of positions -/

/-- What positions are compared by. -/
def key (p : Position) : ℕ ×ₗ ℕ := toLex (p.line, p.column)

theorem key_injective : Function.Injective key := by
  rintro ⟨l, c⟩ ⟨l', c'⟩ h
  obtain ⟨rfl, rfl⟩ := Prod.mk.inj (toLex.injective h)
  rfl

instance : PartialOrder Position := PartialOrder.lift key key_injective

theorem lt_iff : p < q ↔ p.line < q.line ∨ p.line = q.line ∧ p.column < q.column :=
  Prod.Lex.toLex_lt_toLex

theorem le_iff : p ≤ q ↔ p.line < q.line ∨ p.line = q.line ∧ p.column ≤ q.column :=
  Prod.Lex.toLex_le_toLex

/-! ### Moving on -/

theorem advance_le_after (p : Position) (c : Char) : p.advance ≤ p.after c := by
  unfold after
  split
  · exact le_iff.2 (.inl (Nat.lt_succ_self p.line))
  · split
    · refine le_iff.2 (.inr ⟨rfl, ?_⟩)
      simp only [advance, tab, tabStop]
      omega
    · exact le_refl p.advance

/-- **Every character moves its position on.** -/
theorem lt_after (p : Position) (c : Char) : p < p.after c := by
  have hlt : p < p.advance := lt_iff.2 (.inr ⟨rfl, Nat.lt_succ_self p.column⟩)
  exact hlt.trans_le (p.advance_le_after c)

/-- **Positions grow along a text.** -/
theorem le_afterAll (p : Position) (cs : List Char) : p ≤ p.afterAll cs := by
  induction cs generalizing p with
  | nil => exact le_refl p
  | cons c cs ih => exact (p.lt_after c).le.trans (ih _)

theorem lt_afterAll (p : Position) (h : cs ≠ []) : p < p.afterAll cs := by
  cases cs with
  | nil => exact absurd rfl h
  | cons c cs => exact (p.lt_after c).trans_le (le_afterAll _ cs)

/-- Every line feed of a text begins a line. -/
theorem line_afterAll_eq_add (p : Position) (cs : List Char) :
    (p.afterAll cs).line = p.line + cs.count '\n' := by
  induction cs generalizing p with
  | nil => rfl
  | cons c cs ih =>
    rw [afterAll_cons, ih, after]
    by_cases hc : c = '\n'
    · simp only [hc, if_true, newline, List.count_cons_self]
      omega
    · rw [List.count_cons_of_ne hc, if_neg hc]
      split <;> rfl

/-- Without a line feed a text stays on its line. -/
theorem line_afterAll (h : '\n' ∉ cs) : (p.afterAll cs).line = p.line := by
  rw [line_afterAll_eq_add, List.count_eq_zero_of_not_mem h, Nat.add_zero]

/-- The columns of a text depend on the first column alone. -/
theorem column_afterAll_congr (h : p.column = q.column) (cs : List Char) :
    (p.afterAll cs).column = (q.afterAll cs).column := by
  induction cs generalizing p q with
  | nil => exact h
  | cons c cs ih =>
    refine ih ?_
    unfold after
    split
    · rfl
    · split <;> simp only [tab, advance, h]

/-- **Without line feeds and tabs** every character is one column wide. -/
theorem afterAll_of_plain (h : ∀ c ∈ cs, c ≠ '\n' ∧ c ≠ '\t') :
    p.afterAll cs = ⟨p.line, p.column + cs.length⟩ := by
  induction cs generalizing p with
  | nil => rfl
  | cons c cs ih =>
    obtain ⟨hc, hcs⟩ := List.forall_mem_cons.1 h
    rw [afterAll_cons, ih hcs, after, if_neg hc.1, if_neg hc.2, List.length_cons, advance]
    simp only [mk.injEq, true_and]
    omega

theorem one_le_column_afterAll (h : 1 ≤ p.column) (cs : List Char) :
    1 ≤ (p.afterAll cs).column := by
  induction cs generalizing p with
  | nil => exact h
  | cons c cs ih =>
    refine ih ?_
    unfold after
    split
    · exact Nat.le_refl 1
    · split
      · exact Nat.le_add_right 1 _
      · exact Nat.le_add_left 1 _

/-! ### Tab stops -/

theorem column_tab (p : Position) : p.tab.column % tabStop = 1 := by
  simp only [tab, tabStop]
  omega

/-- A text cannot tell apart columns that are a number of tab stops apart. -/
theorem column_afterAll_mod (h : p.column % tabStop = q.column % tabStop) (cs : List Char) :
    (p.afterAll cs).column % tabStop = (q.afterAll cs).column % tabStop := by
  induction cs generalizing p q with
  | nil => exact h
  | cons c cs ih =>
    refine ih ?_
    unfold after
    split
    · rfl
    · split
      · rw [column_tab, column_tab]
      · simp only [advance, tabStop] at h ⊢
        omega

/-- After a tab, a text cannot tell any two columns apart by more than tab stops. -/
theorem column_afterAll_mod_of_tab (h : '\t' ∈ cs) (p q : Position) :
    (p.afterAll cs).column % tabStop = (q.afterAll cs).column % tabStop := by
  induction cs generalizing p q with
  | nil => cases h
  | cons c cs ih =>
    rcases List.mem_cons.1 h with rfl | hcs
    · refine column_afterAll_mod ?_ cs
      exact (p.column_tab).trans (q.column_tab).symm
    · exact ih hcs _ _

/-- A shift by a number of tab stops shifts a whole line. -/
theorem column_afterAll_add {l c n : ℕ} (hn : n % tabStop = 0) (hc : 0 < c) (h : '\n' ∉ cs) :
    ((⟨l, c + n⟩ : Position).afterAll cs).column = ((⟨l, c⟩ : Position).afterAll cs).column + n := by
  induction cs generalizing c with
  | nil => rfl
  | cons x cs ih =>
    obtain ⟨hx, hcs⟩ := not_or.1 (mt List.mem_cons.2 h)
    simp only [afterAll_cons, after, if_neg (Ne.symm hx)]
    split
    · have htab : (⟨l, c + n⟩ : Position).tab = ⟨l, (⟨l, c⟩ : Position).tab.column + n⟩ := by
        simp only [tab, tabStop, mk.injEq, true_and] at hn ⊢
        omega
      rw [htab, ih (by simp only [tab]; omega) hcs]
      rfl
    · have hadvance : (⟨l, c + n⟩ : Position).advance = ⟨l, c + 1 + n⟩ := by
        simp only [advance, mk.injEq, true_and]
        omega
      rw [hadvance, ih (Nat.succ_pos c) hcs]
      rfl

/-- **A line is shifted as a whole** exactly when it has no tabs, or when the shift is by a number
of tab stops. -/
theorem column_afterAll_add_iff {l c n : ℕ} (hc : 0 < c) (h : '\n' ∉ cs) :
    ((⟨l, c + n⟩ : Position).afterAll cs).column =
        ((⟨l, c⟩ : Position).afterAll cs).column + n ↔ ('\t' ∈ cs → n % tabStop = 0) := by
  refine ⟨fun heq htab => ?_, fun hn => ?_⟩
  · have hmod := column_afterAll_mod_of_tab htab ⟨l, c + n⟩ ⟨l, c⟩
    simp only [heq, tabStop] at hmod ⊢
    omega
  · by_cases htab : '\t' ∈ cs
    · exact column_afterAll_add (hn htab) hc h
    · have hplain : ∀ x ∈ cs, x ≠ '\n' ∧ x ≠ '\t' :=
        fun x hx => ⟨fun hn => h (hn ▸ hx), fun ht => htab (ht ▸ hx)⟩
      simp only [afterAll_of_plain hplain]
      omega

end Position

namespace Source

variable {s : Source} {i j : ℕ} {cs : List Char}

/-- The position of the character at index `i` of a text, or of the end of the text. -/
def positionAt (s : Source) (i : ℕ) : Position := Position.origin.afterAll (s.chars.take i)

theorem positionAt_add (h : cs <+: s.chars.drop i) :
    s.positionAt (i + cs.length) = (s.positionAt i).afterAll cs := by
  rw [positionAt, List.take_add, ← List.prefix_iff_eq_take.1 h, Position.afterAll_append]
  rfl

theorem positionAt_succ {c : Char} (h : s.chars[i]? = some c) :
    s.positionAt (i + 1) = (s.positionAt i).after c := by
  rw [← List.head?_drop] at h
  obtain ⟨rest, hrest⟩ := List.head?_eq_some_iff.1 h
  exact positionAt_add (show [c] <+: s.chars.drop i from ⟨rest, hrest.symm⟩)

/-- **Positions increase strictly** along a text. -/
theorem positionAt_lt (h : i < j) (hj : j ≤ s.chars.length) :
    s.positionAt i < s.positionAt j := by
  obtain ⟨n, rfl⟩ := Nat.exists_eq_add_of_lt h
  have hne : (s.chars.drop i).take (n + 1) ≠ [] := by
    rw [← List.length_pos_iff, List.length_take, List.length_drop]
    omega
  rw [Nat.add_assoc, positionAt, positionAt, List.take_add, Position.afterAll_append]
  exact Position.lt_afterAll _ hne

theorem positionAt_mono (h : i ≤ j) : s.positionAt i ≤ s.positionAt j := by
  obtain ⟨n, rfl⟩ := Nat.exists_eq_add_of_le h
  rw [positionAt, positionAt, List.take_add, Position.afterAll_append]
  exact Position.le_afterAll _ _

/-! ### The lines of a text -/

/-- What comes before index `i` on its line. -/
def lineBefore (s : Source) (i : ℕ) : List Char :=
  ((s.chars.take i).reverse.takeWhile (· != '\n')).reverse

/-- What comes from index `i` on up to the end of its line. -/
def lineFrom (s : Source) (i : ℕ) : List Char := (s.chars.drop i).takeWhile (· != '\n')

/-- The lines above that of index `i`, each with its line feed. -/
def linesAbove (s : Source) (i : ℕ) : List Char :=
  ((s.chars.take i).reverse.dropWhile (· != '\n')).reverse

theorem linesAbove_append_lineBefore (s : Source) (i : ℕ) :
    s.linesAbove i ++ s.lineBefore i = s.chars.take i := by
  rw [linesAbove, lineBefore, ← List.reverse_append, List.takeWhile_append_dropWhile,
    List.reverse_reverse]

/-- Only the end of the text is without a line feed to come. -/
theorem newline_mem_drop (h : i < s.chars.length) : '\n' ∈ s.chars.drop i := by
  have hlast : s.chars.getLast? = some '\n' := by simp [chars_eq]
  refine List.mem_of_getLast? ?_
  rw [List.getLast?_drop, if_neg (Nat.not_le_of_lt h), hlast]

/-- What comes after the characters up to a line feed is nothing, or starts with it. -/
theorem dropWhile_newline_cases (cs : List Char) :
    cs.dropWhile (· != '\n') = [] ∨ ∃ below, cs.dropWhile (· != '\n') = '\n' :: below := by
  have hstop := List.head?_dropWhile_not (· != '\n') cs
  cases h : cs.dropWhile (· != '\n') with
  | nil => exact .inl rfl
  | cons c below =>
    rw [h] at hstop
    obtain rfl : c = '\n' := by simpa using hstop
    exact .inr ⟨below, rfl⟩

theorem newline_notMem_lineBefore (s : Source) (i : ℕ) : '\n' ∉ s.lineBefore i := by
  intro h
  simpa using List.mem_takeWhile_imp (List.mem_reverse.1 h)

/-- The lines above end with a line feed if there are any. -/
theorem linesAbove_cases (s : Source) (i : ℕ) :
    s.linesAbove i = [] ∨ ∃ above, s.linesAbove i = above ++ ['\n'] := by
  unfold linesAbove
  rcases dropWhile_newline_cases (s.chars.take i).reverse with h | ⟨above, h⟩
  · rw [h]
    exact .inl rfl
  · rw [h]
    exact .inr ⟨above.reverse, List.reverse_cons⟩

theorem lineAfter_zero (cs : List Char) : lineAfter 0 cs = cs.takeWhile (· != '\n') := by
  induction cs with
  | nil => rfl
  | cons c cs ih => by_cases hc : c = '\n' <;> simp [lineAfter, hc, ih]

theorem newline_notMem_lineAfter (n : ℕ) (cs : List Char) : '\n' ∉ lineAfter n cs := by
  fun_induction lineAfter n cs with
  | case1 => exact List.not_mem_nil
  | case2 => exact List.not_mem_nil
  | case3 c cs hc ih => exact fun hn => (List.mem_cons.1 hn).elim (fun h => hc h.symm) ih
  | case4 n c cs ih => exact ih

/-- A line holds no line feed. -/
theorem newline_notMem_line (s : Source) (n : ℕ) : '\n' ∉ (s.line n).toList := by
  cases n with
  | zero => simp [line]
  | succ n =>
    rw [toList_line_succ, dropFinalReturns, List.mem_reverse]
    exact fun hn => newline_notMem_lineAfter n s.chars
      (List.mem_reverse.1 ((List.dropWhile_sublist _).subset hn))

theorem dropFinalReturns_append (before after : List Char) :
    dropFinalReturns (before ++ after) =
      if dropFinalReturns after = [] then dropFinalReturns before
      else before ++ dropFinalReturns after := by
  unfold dropFinalReturns
  rw [List.reverse_append, List.dropWhile_append]
  split <;> simp_all

/-- The carriage returns that a line does not show. -/
theorem exists_returns (cs : List Char) :
    ∃ n, cs = dropFinalReturns cs ++ List.replicate n '\r' := by
  have hsplit := List.takeWhile_append_dropWhile (p := (· == '\r')) (l := cs.reverse)
  have hreturns : cs.reverse.takeWhile (· == '\r') =
      List.replicate (cs.reverse.takeWhile (· == '\r')).length '\r' :=
    List.eq_replicate_iff.2 ⟨rfl, fun c hc => by simpa using List.mem_takeWhile_imp hc⟩
  refine ⟨(cs.reverse.takeWhile (· == '\r')).length, ?_⟩
  rw [← List.reverse_inj, List.reverse_append, List.reverse_replicate, ← hreturns,
    dropFinalReturns, List.reverse_reverse, hsplit]

/-- Passing the line feeds of some lines passes these lines. -/
theorem lineAfter_append (above cs : List Char) :
    lineAfter (above.count '\n' + 1) (above ++ '\n' :: cs) = lineAfter 0 cs := by
  induction above with
  | nil => rfl
  | cons c above ih => by_cases hc : c = '\n' <;> simp [lineAfter, hc, ih]

theorem lineAfter_linesAbove (s : Source) (i : ℕ) :
    lineAfter ((s.linesAbove i).count '\n') s.chars = s.lineBefore i ++ s.lineFrom i := by
  have hbefore : ∀ c ∈ s.lineBefore i, (c != '\n') = true := fun c hc => by
    simpa using fun hn : c = '\n' => s.newline_notMem_lineBefore i (hn ▸ hc)
  have hline : lineAfter 0 (s.lineBefore i ++ s.chars.drop i) = s.lineBefore i ++ s.lineFrom i := by
    rw [lineAfter_zero, List.takeWhile_append_of_pos hbefore, lineFrom]
  have hsplit : s.linesAbove i ++ (s.lineBefore i ++ s.chars.drop i) = s.chars := by
    rw [← List.append_assoc, linesAbove_append_lineBefore, List.take_append_drop]
  rw [← hsplit]
  rcases s.linesAbove_cases i with habove | ⟨above, habove⟩
  · rw [habove, List.nil_append, List.count_nil, hline]
  · rw [habove, List.append_assoc, List.singleton_append, List.count_append,
      List.count_singleton_self, lineAfter_append, hline]

/-- The lines above an index lead to the start of its own line. -/
theorem afterAll_linesAbove (s : Source) (i : ℕ) :
    Position.origin.afterAll (s.linesAbove i) = ⟨(s.linesAbove i).count '\n' + 1, 1⟩ := by
  rcases s.linesAbove_cases i with habove | ⟨above, habove⟩
  · rw [habove]
    rfl
  · rw [habove, Position.afterAll_append, List.count_append, List.count_singleton_self]
    have hline := Position.line_afterAll_eq_add .origin above
    have hone : Position.origin.line = 1 := rfl
    simp only [Position.afterAll_cons, Position.afterAll_nil, Position.after, if_true,
      Position.newline, hline, hone, Position.mk.injEq, and_true]
    omega

/-- **The line of an index** is what comes before and after it. -/
theorem toList_line_positionAt (s : Source) (i : ℕ) :
    (s.line (s.positionAt i).line).toList =
      dropFinalReturns (s.lineBefore i ++ s.lineFrom i) := by
  rw [positionAt, ← linesAbove_append_lineBefore, Position.afterAll_append, afterAll_linesAbove,
    Position.line_afterAll (s.newline_notMem_lineBefore i), toList_line_succ, lineAfter_linesAbove]

/-- **The column of an index** is what the characters before it on its line lead to. -/
theorem column_positionAt (s : Source) (i : ℕ) :
    (s.positionAt i).column = (Position.origin.afterAll (s.lineBefore i)).column := by
  rw [positionAt, ← linesAbove_append_lineBefore, Position.afterAll_append, afterAll_linesAbove]
  have hcolumn : (⟨(s.linesAbove i).count '\n' + 1, 1⟩ : Position).column =
      Position.origin.column := rfl
  exact Position.column_afterAll_congr hcolumn _

end Source

end TinyBasic
