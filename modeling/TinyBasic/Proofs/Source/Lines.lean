import Mathlib.Order.Bounds.Basic
import TinyBasic.Proofs.Source.Positions

/-!
# Lines by number and lines by position

There are two notions of a line.  A text is split into its lines, of which one is looked up by its
number (`Source.lines`).  And every character has a position, which counts the lines while the
characters before it are read.  The two agree at every index (`Source.line_of_position`): the number
that is counted is that of the line around the index (`Source.LineAround`), which the look-up gives
without the carriage returns at its end.

Both are told by the pieces between the line feeds: passing line feeds leads to the piece of that
number (`Source.lineAfter_eq_getElem?`).
-/

namespace TinyBasic

/-- **A tab goes to the next column that is one more than a multiple of four.** -/
theorem Position.isLeast_column_tab {p : Position} (h : 1 ≤ p.column) :
    IsLeast {c | p.column < c ∧ c % 4 = 1} p.tab.column := by
  refine ⟨⟨?_, p.column_tab⟩, fun c hc => ?_⟩
  · simp only [tab, tabStop]
    omega
  · obtain ⟨hlt, hmod⟩ := hc
    simp only [tab, tabStop]
    omega

namespace Source

variable {s : Source} {i n : ℕ} {cs : List Char}

/-! ### The lines of a text -/

/-- A line without the carriage return that ends it together with its line feed. -/
def dropReturn (cs : List Char) : List Char := if cs.getLast? = some '\r' then cs.dropLast else cs

/-- The lines of a text.  Each is ended by a line feed, or by a carriage return and a line feed, so
what comes after the last line feed is no line. -/
def lines (s : Source) : List (List Char) :=
  (s.chars.splitOn '\n').dropLast.map dropReturn

/-- Passing line feeds leads to the piece between two of them. -/
theorem lineAfter_eq_getElem? (n : ℕ) (cs : List Char) :
    lineAfter n cs = (cs.splitOn '\n')[n]?.getD [] := by
  induction cs generalizing n with
  | nil => cases n <;> rfl
  | cons c cs ih =>
    obtain ⟨piece, pieces, hpieces⟩ := List.exists_cons_of_ne_nil (List.splitOn_ne_nil '\n' cs)
    rw [List.splitOn_cons_eq_if_modifyHead]
    by_cases hc : c = '\n'
    · cases n with
      | zero => simp [lineAfter, hc]
      | succ n => simp [lineAfter, hc, ih]
    · rw [hpieces] at ih ⊢
      cases n with
      | zero => simp [lineAfter, hc, ih]
      | succ n => simpa [lineAfter, hc] using ih (n + 1)

theorem length_splitOn (cs : List Char) : (cs.splitOn '\n').length = cs.count '\n' + 1 := by
  induction cs with
  | nil => rfl
  | cons c cs ih =>
    rw [List.splitOn_cons_eq_if_modifyHead]
    by_cases hc : c = '\n' <;> simp [hc, ih]

/-- Nothing comes after the last line feed. -/
theorem splitOn_chars (s : Source) :
    s.chars.splitOn '\n' = s.body.toList.splitOn '\n' ++ [[]] := by
  rw [chars_eq, List.splitOn_append_cons_self, List.splitOn_nil]

/-- **Every line feed ends a line.** -/
theorem length_lines (s : Source) : s.lines.length = s.chars.count '\n' := by
  rw [lines, List.length_map, List.length_dropLast, length_splitOn, Nat.add_sub_cancel]

theorem dropFinalReturns_dropReturn (cs : List Char) :
    dropFinalReturns (dropReturn cs) = dropFinalReturns cs := by
  unfold dropReturn
  split
  · rename_i h
    obtain ⟨front, rfl⟩ := List.getLast?_eq_some_iff.1 h
    simp [dropFinalReturns]
  · rfl

/-- **The line of a number** is the one of the lines with that number, without the carriage returns
that are left at its end. -/
theorem toList_line_eq_getElem? (s : Source) (n : ℕ) :
    (s.line (n + 1)).toList = dropFinalReturns (s.lines[n]?.getD []) := by
  have hlines : s.lines = (s.body.toList.splitOn '\n').map dropReturn := by
    rw [lines, splitOn_chars, List.dropLast_concat]
  rw [toList_line_succ, lineAfter_eq_getElem?, splitOn_chars, hlines, List.getElem?_map]
  rcases Nat.lt_or_ge n (s.body.toList.splitOn '\n').length with hn | hn
  · rw [List.getElem?_append_left hn, List.getElem?_eq_getElem hn]
    exact (dropFinalReturns_dropReturn _).symm
  · -- both the piece after the last line feed and the pieces that there are not are empty
    have hempty (k : ℕ) : ([[]] : List (List Char))[k]?.getD [] = [] := by cases k <;> rfl
    rw [List.getElem?_append_right hn, hempty, List.getElem?_eq_none hn]
    rfl

theorem line_eq_empty (h : n = 0 ∨ s.lines.length < n) : s.line n = "" := by
  obtain rfl | h := h
  · rfl
  · obtain ⟨n, rfl⟩ := Nat.exists_eq_add_one_of_ne_zero (Nat.ne_zero_of_lt h)
    rw [← String.toList_inj, toList_line_eq_getElem?, List.getElem?_eq_none (Nat.le_of_lt_succ h)]
    rfl

theorem getLast?_dropFinalReturns (cs : List Char) :
    (dropFinalReturns cs).getLast? ≠ some '\r' := by
  rw [dropFinalReturns, List.getLast?_reverse]
  intro h
  have hstop := List.head?_dropWhile_not (· == '\r') cs.reverse
  rw [h] at hstop
  cases hstop

/-! ### The line around an index -/

/-- The longest part of the text around the index `i` without a line feed: `before` is what comes
before the index, and `after` is what comes from it on.  The part is ended by a line feed, and by
the start of the text or another line feed before it. -/
structure LineAround (s : Source) (i : ℕ) (before after : List Char) : Prop where
  newline_notMem : '\n' ∉ before ++ after
  exists_split : ∃ above below, s.chars = above ++ before ++ after ++ '\n' :: below ∧
    (above ++ before).length = i ∧ (above = [] ∨ above.getLast? = some '\n')

/-- **Every index is on a line.** -/
theorem lineAround (h : i < s.chars.length) : s.LineAround i (s.lineBefore i) (s.lineFrom i) where
  newline_notMem := by
    rw [List.mem_append, not_or]
    exact ⟨s.newline_notMem_lineBefore i, fun hn => by simpa using List.mem_takeWhile_imp hn⟩
  exists_split := by
    have hne : (s.chars.drop i).dropWhile (· != '\n') ≠ [] := fun hnil => by
      simpa using List.dropWhile_eq_nil_iff.1 hnil '\n' (newline_mem_drop h)
    obtain ⟨below, hbelow⟩ := (dropWhile_newline_cases _).resolve_left hne
    refine ⟨s.linesAbove i, below, ?_, ?_, ?_⟩
    · rw [linesAbove_append_lineBefore, lineFrom, ← hbelow, List.append_assoc,
        List.takeWhile_append_dropWhile, List.take_append_drop]
    · rw [linesAbove_append_lineBefore, List.length_take, Nat.min_eq_left h.le]
    · rcases s.linesAbove_cases i with habove | ⟨above, habove⟩
      · exact .inl habove
      · exact .inr (by rw [habove, List.getLast?_concat])

/-- The line of an index is counted by the line feeds before it. -/
theorem line_positionAt (s : Source) (i : ℕ) :
    (s.positionAt i).line = (s.chars.take i).count '\n' + 1 := by
  rw [positionAt, Position.line_afterAll_eq_add]
  exact Nat.add_comm _ _

/-- **Looking up a line agrees with counting positions.**  At every index of a text, the line that
is counted is one more than the number of line feeds before.  The line of that number is the line
around the index, without the carriage returns at its end, and the column is where the characters
before the index on that line lead to.  Positions increase strictly, and a tab goes to the least
column beyond it that is one more than a multiple of four.  The line of a number is found among the
lines that the text is split into, of which there is one for every line feed.  There is no line of
number zero and none beyond the last one. -/
theorem line_of_position (s : Source) :
    (∀ i < s.chars.length, ∃ before after, s.LineAround i before after ∧
      (s.positionAt i).line = (s.chars.take i).count '\n' + 1 ∧
      (∃ n, before ++ after = (s.line (s.positionAt i).line).toList ++ List.replicate n '\r') ∧
      (s.line (s.positionAt i).line).toList.getLast? ≠ some '\r' ∧
      (s.positionAt i).column = (Position.origin.afterAll before).column) ∧
    (∀ i j, i < j → j ≤ s.chars.length → s.positionAt i < s.positionAt j) ∧
    (∀ i, s.chars[i]? = some '\t' →
      (s.positionAt (i + 1)).line = (s.positionAt i).line ∧
      IsLeast {c | (s.positionAt i).column < c ∧ c % 4 = 1} (s.positionAt (i + 1)).column) ∧
    (∀ n, (s.line (n + 1)).toList = dropFinalReturns (s.lines[n]?.getD [])) ∧
    s.lines.length = s.chars.count '\n' ∧
    ∀ n, n = 0 ∨ s.lines.length < n → s.line n = "" := by
  refine ⟨fun i hi => ?_, fun i j => positionAt_lt, fun i htab => ?_, s.toList_line_eq_getElem?,
    s.length_lines, fun n => line_eq_empty⟩
  · have hline := s.toList_line_positionAt i
    refine ⟨s.lineBefore i, s.lineFrom i, lineAround hi, s.line_positionAt i, ?_, ?_,
      s.column_positionAt i⟩
    · rw [hline]
      exact exists_returns _
    · rw [hline]
      exact getLast?_dropFinalReturns _
  · have hcolumn : 1 ≤ (s.positionAt i).column := Position.one_le_column_afterAll (Nat.le_refl 1) _
    rw [positionAt_succ htab]
    exact ⟨rfl, Position.isLeast_column_tab hcolumn⟩

/-- Carriage returns before a line feed, on a line, and after the last line feed. -/
def mixed : Source := ⟨"mixed", "a\r\r\n\t\rb\r\n\r"⟩

theorem line_of_position_mixed :
    6 < mixed.chars.length ∧ mixed.positionAt 6 = ⟨2, 6⟩ ∧ mixed.line 2 = "\t\rb" ∧
    (∃ before after, mixed.LineAround 6 before after ∧
      2 = (mixed.chars.take 6).count '\n' + 1 ∧
      (∃ n, before ++ after = (mixed.line 2).toList ++ List.replicate n '\r') ∧
      (mixed.line 2).toList.getLast? ≠ some '\r' ∧
      6 = (Position.origin.afterAll before).column) ∧
    mixed.positionAt 6 < mixed.positionAt 10 ∧
    (mixed.chars[4]? = some '\t' ∧ mixed.positionAt 4 = ⟨2, 1⟩ ∧ mixed.positionAt 5 = ⟨2, 5⟩ ∧
      IsLeast {c | 1 < c ∧ c % 4 = 1} 5) ∧
    mixed.lines.length < 4 ∧ mixed.line 4 = "" := by
  have hstart : mixed.positionAt 4 = ⟨2, 1⟩ := by decide
  have htab : mixed.positionAt 5 = ⟨2, 5⟩ := by decide
  have hindex : mixed.positionAt 6 = ⟨2, 6⟩ := by decide
  have hlength : 6 < mixed.chars.length := by decide
  have hlines : mixed.lines.length < 4 := by decide
  have hchar : mixed.chars[4]? = some '\t' := by decide
  obtain ⟨haround, hlt, hstops, -, -, hempty⟩ := mixed.line_of_position
  have hline := haround 6 hlength
  have hstop := hstops 4 hchar
  rw [hindex] at hline
  rw [hstart, htab] at hstop
  exact ⟨hlength, hindex, by decide, hline, hlt 6 10 (by decide) (by decide),
    ⟨hchar, hstart, htab, hstop.2⟩, hlines, hempty 4 (.inr hlines)⟩

end Source

end TinyBasic
