import Mathlib.Algebra.Group.Nat.Defs
import TinyBasic.Proofs.Source.Lines
import TinyBasic.Report

/-!
# Positions that are counted in 32 bits

Lines and columns can be any numbers.  A machine counts them in 32 bits, and there a sum, a
difference or a product may be out of range.  `CompactPosition` and `CompactLocation` are positions
and ranges that are made of such counters.  All that is done with them is done by the checked
operations of `Counter`, so it comes to `none` as soon as one of these is out of range.

* `CompactPosition.after?_eq_some_iff`: reading a character comes to the position that is meant, or
  to `none` if that one is out of range.
* `CompactPosition.toPosition_of_afterAll?`, `CompactLocation.toLocation_of_spanning?`: what reading
  a text comes to, and the range of some characters, can only be what is meant.
* `Source.fits_positionAt`: the positions of a text of fewer than `2 ^ 30` characters are in range,
  with room for one more column.  A tab is up to four columns wide, so a column is at most one more
  than four times the characters before it on its line (`Position.column_afterAll_le`).
* `CompactLocation.snippet?_eq`: what a report shows of a range that starts in such a position.
-/

namespace TinyBasic

/-- What a machine counts lines and columns in. -/
abbrev Counter := UInt32

namespace Counter

variable {a b c : Counter}

/-- The sum, if it is in range. -/
def add? (a b : Counter) : Option Counter :=
  if a.toNat + b.toNat < 2 ^ 32 then some (a + b) else none

/-- The difference, if it is in range. -/
def sub? (a b : Counter) : Option Counter := if b ≤ a then some (a - b) else none

/-- The product, if it is in range. -/
def mul? (a b : Counter) : Option Counter :=
  if a.toNat * b.toNat < 2 ^ 32 then some (a * b) else none

/-- One less, but not below zero. -/
def pred (a : Counter) : Counter := if a = 0 then 0 else a - 1

theorem add?_eq_some_iff : a.add? b = some c ↔ c.toNat = a.toNat + b.toNat := by
  unfold add?
  split
  · rename_i h
    rw [Option.some_inj, ← UInt32.toNat_inj, UInt32.toNat_add, Nat.mod_eq_of_lt h, eq_comm]
  · have hc := c.toNat_lt
    simp only [reduceCtorEq, false_iff]
    omega

theorem sub?_eq_some_iff : a.sub? b = some c ↔ b.toNat + c.toNat = a.toNat := by
  unfold sub?
  split
  · rename_i h
    rw [Option.some_inj, ← UInt32.toNat_inj, UInt32.toNat_sub_of_le _ _ h]
    have hle := UInt32.le_iff_toNat_le.1 h
    omega
  · rename_i h
    rw [UInt32.le_iff_toNat_le] at h
    simp only [reduceCtorEq, false_iff]
    omega

theorem mul?_eq_some_iff : a.mul? b = some c ↔ c.toNat = a.toNat * b.toNat := by
  unfold mul?
  split
  · rename_i h
    rw [Option.some_inj, ← UInt32.toNat_inj, UInt32.toNat_mul, Nat.mod_eq_of_lt h, eq_comm]
  · have hc := c.toNat_lt
    simp only [reduceCtorEq, false_iff]
    omega

theorem toNat_pred (a : Counter) : a.pred.toNat = a.toNat - 1 := by
  unfold pred
  split
  · rename_i h
    rw [h]
    rfl
  · rename_i h
    have hle : (1 : Counter) ≤ a := by
      rw [UInt32.le_iff_toNat_le]
      have hne := mt UInt32.toNat_inj.1 h
      exact Nat.one_le_iff_ne_zero.2 hne
    rw [UInt32.toNat_sub_of_le _ _ hle]
    rfl

/-- A number in range can be counted. -/
theorem exists_toNat_eq {n : ℕ} (h : n < 2 ^ 32) : ∃ a : Counter, a.toNat = n :=
  ⟨.ofNat n, UInt32.toNat_ofNat_of_lt' h⟩

end Counter

/-! ### Positions -/

/-- A line and a column in the counters of a machine. -/
structure CompactPosition where
  /-- The line, the first one being `1`. -/
  line : Counter
  /-- The column, the first one being `1`. -/
  column : Counter
  deriving DecidableEq

namespace CompactPosition

/-- Tab stops are this many columns apart. -/
def tabStop : Counter := 4

/-- The position of the first character of a text. -/
def origin : CompactPosition := ⟨1, 1⟩

/-- One column to the right. -/
def advance? (p : CompactPosition) : Option CompactPosition := do
  some ⟨p.line, ← p.column.add? 1⟩

/-- One column to the left, but not beyond the first. -/
def back (p : CompactPosition) : CompactPosition := ⟨p.line, max p.column.pred 1⟩

/-- The start of the next line. -/
def newline? (p : CompactPosition) : Option CompactPosition := do
  some ⟨← p.line.add? 1, 1⟩

/-- The next tab stop. -/
def tab? (p : CompactPosition) : Option CompactPosition := do
  let before ← p.column.sub? 1
  let stops ← (before / tabStop).add? 1
  let width ← stops.mul? tabStop
  some ⟨p.line, ← (1 : Counter).add? width⟩

/-- The position after a character that stands at `p`. -/
def after? (p : CompactPosition) (c : Char) : Option CompactPosition :=
  if c = '\n' then p.newline? else if c = '\t' then p.tab? else p.advance?

/-- The position after the characters `cs`, the first of which stands at `p`. -/
def afterAll? (p : CompactPosition) (cs : List Char) : Option CompactPosition := cs.foldlM after? p

instance : ToString CompactPosition := ⟨fun p => s!"{p.line}:{p.column}"⟩

/-- The position that is meant. -/
def toPosition (p : CompactPosition) : Position := ⟨p.line.toNat, p.column.toNat⟩

end CompactPosition

/-- The line, the column and the column after it are in range, and columns count from one. -/
structure Position.Fits (p : Position) : Prop where
  line_lt : p.line < 2 ^ 32
  one_le_column : 1 ≤ p.column
  column_lt : p.column + 1 < 2 ^ 32

namespace CompactPosition

variable {p q : CompactPosition} {c : Char} {cs ds : List Char}

theorem toPosition_injective : Function.Injective toPosition := by
  rintro ⟨l, c⟩ ⟨l', c'⟩ h
  obtain ⟨hl, hc⟩ := Position.mk.inj h
  obtain rfl : l = l' := UInt32.toNat_inj.1 hl
  obtain rfl : c = c' := UInt32.toNat_inj.1 hc
  rfl

/-- A position in range can be counted. -/
theorem exists_toPosition_eq {x : Position} (hl : x.line < 2 ^ 32) (hc : x.column < 2 ^ 32) :
    ∃ q : CompactPosition, q.toPosition = x := by
  obtain ⟨l, hl⟩ := Counter.exists_toNat_eq hl
  obtain ⟨c, hc⟩ := Counter.exists_toNat_eq hc
  exact ⟨⟨l, c⟩, by rw [toPosition, hl, hc]⟩

/-! Every operation comes to the position that is meant, unless that one is out of range. -/

theorem advance?_eq_some_iff : p.advance? = some q ↔ q.toPosition = p.toPosition.advance := by
  obtain ⟨l, c⟩ := q
  simp only [advance?, Option.bind_eq_bind, Option.bind_eq_some_iff, Counter.add?_eq_some_iff,
    Option.some_inj, mk.injEq, toPosition, Position.advance, Position.mk.injEq, UInt32.toNat_inj]
  constructor
  · rintro ⟨c', hc', hl, rfl⟩
    exact ⟨hl.symm, hc'⟩
  · rintro ⟨hl, hc⟩
    exact ⟨c, hc, hl.symm, rfl⟩

theorem newline?_eq_some_iff : p.newline? = some q ↔ q.toPosition = p.toPosition.newline := by
  obtain ⟨l, c⟩ := q
  have hone : c.toNat = 1 ↔ c = 1 := UInt32.toNat_inj (b := 1)
  simp only [newline?, Option.bind_eq_bind, Option.bind_eq_some_iff, Counter.add?_eq_some_iff,
    Option.some_inj, mk.injEq, toPosition, Position.newline, Position.mk.injEq, hone]
  constructor
  · rintro ⟨l', hl', rfl, hc⟩
    exact ⟨hl', hc.symm⟩
  · rintro ⟨hl, hc⟩
    exact ⟨l, hl, rfl, hc.symm⟩

theorem tab?_eq_some_iff (h : 1 ≤ p.toPosition.column) :
    p.tab? = some q ↔ q.toPosition = p.toPosition.tab := by
  obtain ⟨l, c⟩ := q
  have hone : (1 : Counter).toNat = 1 := rfl
  have hstop : tabStop.toNat = 4 := rfl
  simp only [toPosition] at h
  simp only [tab?, Option.bind_eq_bind, Option.bind_eq_some_iff, Counter.add?_eq_some_iff,
    Counter.sub?_eq_some_iff, Counter.mul?_eq_some_iff, Option.some_inj, mk.injEq, toPosition,
    Position.tab, Position.tabStop, Position.mk.injEq, UInt32.toNat_inj, UInt32.toNat_div, hone,
    hstop]
  constructor
  · rintro ⟨before, hbefore, stops, hstops, width, hwidth, c', hc', rfl, rfl⟩
    refine ⟨rfl, ?_⟩
    omega
  · -- the numbers on the way are no larger than the column that they lead to
    rintro ⟨rfl, hc⟩
    have hlt := c.toNat_lt
    obtain ⟨before, hbefore⟩ := Counter.exists_toNat_eq (n := p.column.toNat - 1) (by omega)
    obtain ⟨stops, hstops⟩ := Counter.exists_toNat_eq (n := before.toNat / 4 + 1) (by omega)
    obtain ⟨width, hwidth⟩ := Counter.exists_toNat_eq (n := stops.toNat * 4) (by omega)
    exact ⟨before, by omega, stops, hstops, width, hwidth, c, by omega, rfl, rfl⟩

/-- **Reading a character** comes to the position that is meant, or to `none` if that one is out of
range. -/
theorem after?_eq_some_iff (h : 1 ≤ p.toPosition.column) :
    p.after? c = some q ↔ q.toPosition = p.toPosition.after c := by
  unfold after? Position.after
  split
  · exact newline?_eq_some_iff
  · split
    · exact tab?_eq_some_iff h
    · exact advance?_eq_some_iff

theorem afterAll?_append (p : CompactPosition) (cs ds : List Char) :
    p.afterAll? (cs ++ ds) = p.afterAll? cs >>= (·.afterAll? ds) :=
  List.foldlM_append

/-- A tab stop is counted from the column before, so there has to be one. -/
theorem one_le_column_of_tab? (h : p.tab? = some q) : 1 ≤ p.toPosition.column := by
  obtain ⟨before, hbefore, -⟩ := Option.bind_eq_some_iff.1 h
  have hsum : 1 + before.toNat = p.column.toNat := Counter.sub?_eq_some_iff.1 hbefore
  exact Nat.le.intro hsum

theorem toPosition_of_after? (h : p.after? c = some q) :
    q.toPosition = p.toPosition.after c := by
  unfold after? at h
  unfold Position.after
  split_ifs at h ⊢
  · exact newline?_eq_some_iff.1 h
  · exact (tab?_eq_some_iff (one_le_column_of_tab? h)).1 h
  · exact advance?_eq_some_iff.1 h

/-- **Reading a text** can only come to the position that is meant. -/
theorem toPosition_of_afterAll? (h : p.afterAll? cs = some q) :
    q.toPosition = p.toPosition.afterAll cs := by
  induction cs generalizing p with
  | nil =>
    obtain rfl := Option.some.inj h
    rfl
  | cons c cs ih =>
    rw [afterAll?, List.foldlM_cons] at h
    obtain ⟨p', hp', h⟩ := Option.bind_eq_some_iff.1 h
    rw [ih h, toPosition_of_after? hp', Position.afterAll_cons]

theorem exists_advance? (h : p.toPosition.Fits) :
    ∃ q, p.advance? = some q ∧ q.toPosition = p.toPosition.advance := by
  obtain ⟨q, hq⟩ := exists_toPosition_eq (x := p.toPosition.advance) h.line_lt h.column_lt
  exact ⟨q, advance?_eq_some_iff.2 hq, hq⟩

/-- **Reading a text** comes to the position that is meant if those on the way are in range. -/
theorem exists_afterAll? (h : ∀ front, front <+: cs → (p.toPosition.afterAll front).Fits) :
    ∃ q, p.afterAll? cs = some q ∧ q.toPosition = p.toPosition.afterAll cs := by
  induction cs generalizing p with
  | nil => exact ⟨p, rfl, rfl⟩
  | cons c cs ih =>
    have hp : p.toPosition.Fits := h [] List.nil_prefix
    have hafter : (p.toPosition.after c).Fits := h [c] ⟨cs, rfl⟩
    obtain ⟨p', hp'⟩ := exists_toPosition_eq hafter.line_lt (Nat.lt_of_succ_lt hafter.column_lt)
    have hfronts : ∀ front, front <+: cs → (p'.toPosition.afterAll front).Fits := fun front hf => by
      rw [hp']
      exact h (c :: front) (List.cons_prefix_cons.2 ⟨rfl, hf⟩)
    obtain ⟨q, hq, hposition⟩ := ih hfronts
    refine ⟨q, ?_, by rw [hposition, hp', Position.afterAll_cons]⟩
    rw [afterAll?, List.foldlM_cons, (after?_eq_some_iff hp.one_le_column).2 hp']
    exact hq

end CompactPosition

/-! ### How far the positions of a text go -/

namespace Position

variable {p : Position}

theorem column_after_le (h : 1 ≤ p.column) (c : Char) : (p.after c).column ≤ p.column + 4 := by
  unfold after
  split
  · simp only [newline]
    omega
  · split
    · simp only [tab, tabStop]
      omega
    · simp only [advance]
      omega

/-- **No character is wider than four columns.** -/
theorem column_afterAll_le (h : 1 ≤ p.column) (cs : List Char) :
    (p.afterAll cs).column ≤ p.column + 4 * cs.length := by
  induction cs generalizing p with
  | nil => exact Nat.le_refl _
  | cons c cs ih =>
    have hafter := column_after_le h c
    have hrest := ih (one_le_column_afterAll h [c])
    rw [afterAll_cons, List.length_cons]
    simp only [afterAll_cons, afterAll_nil] at hrest
    omega

end Position

namespace Source

variable {s : Source} {i : ℕ}

/-- The line feed that ends the text is not in front of anything on its line. -/
theorem length_lineBefore_le (s : Source) (i : ℕ) : (s.lineBefore i).length ≤ s.body.length := by
  by_contra hlong
  have hsplit : s.linesAbove i ++ s.lineBefore i ++ s.chars.drop i = s.chars := by
    rw [linesAbove_append_lineBefore, List.take_append_drop]
  have hlength := congrArg List.length hsplit
  rw [List.length_append, List.length_append, chars_eq, List.length_append, String.length_toList,
    List.length_singleton] at hlength
  have habove : s.linesAbove i = [] := List.length_eq_zero_iff.1 (by omega)
  have hfrom : s.chars.drop i = [] := List.length_eq_zero_iff.1 (by rw [chars_eq]; omega)
  rw [habove, hfrom, List.nil_append, List.append_nil] at hsplit
  have hmem : '\n' ∈ s.chars := by simp [chars_eq]
  exact s.newline_notMem_lineBefore i (hsplit ▸ hmem)

/-- **The positions of a short text are in range**, with room for one more column. -/
theorem fits_positionAt (h : s.body.length < 2 ^ 30) (i : ℕ) : (s.positionAt i).Fits where
  line_lt := by
    have hcount : (s.chars.take i).count '\n' ≤ s.chars.length :=
      List.count_le_length.trans (List.length_take_le' i s.chars)
    have hlength : s.chars.length = s.body.length + 1 := by
      rw [chars_eq, List.length_append, String.length_toList, List.length_singleton]
    rw [line_positionAt]
    omega
  one_le_column := Position.one_le_column_afterAll (Nat.le_refl 1) _
  column_lt := by
    have hcolumn := Position.column_afterAll_le (p := .origin) (Nat.le_refl 1) (s.lineBefore i)
    have hlength := s.length_lineBefore_le i
    have hone : Position.origin.column = 1 := rfl
    rw [← s.column_positionAt, hone] at hcolumn
    omega

end Source

/-! ### Ranges -/

/-- A range of a source, from a first position to one just past the last. -/
structure CompactLocation where
  /-- Where the range lies. -/
  source : Source
  /-- The first position of the range. -/
  start : CompactPosition
  /-- The position just past the range. -/
  stop : CompactPosition

namespace CompactLocation

/-- The range of the single column at `p`. -/
def single? (s : Source) (p : CompactPosition) : Option CompactLocation := do
  some ⟨s, p, ← p.advance?⟩

/-- The range of the characters `cs` from `start` on. -/
def spanning? (s : Source) (start : CompactPosition) (cs : List Char) :
    Option CompactLocation := do
  let last ← start.afterAll? cs.dropLast
  some ⟨s, start, ← if last.line = start.line then last.advance? else start.advance?⟩

/-- How a range is shown. -/
def toString? (l : CompactLocation) : Option String := do
  let next ← l.start.advance?
  some (if l.stop = next then s!"{l.source.name}:{l.start}"
    else s!"{l.source.name}:[{l.start}-{l.stop.back}]")

/-- What a report shows of a range.  The rows are those of the lines from the first to the last, and
no counter goes beyond these. -/
def snippet? (l : CompactLocation) : Option String := do
  let place ← l.toString?
  let first := max l.start.column 1
  let last := max l.stop.column.pred first
  let margin ← first.sub? 1
  let carets ← (← last.sub? first).add? 1
  let width := (toString l.stop.line).length
  let gutter := Report.repeated ' ' width
  some (s!" --> {place}\n" ++ gutter ++ " |\n" ++
    Report.sourceRows l.source width l.start.line.toNat
      (l.stop.line.toNat + 1 - l.start.line.toNat) ++
    gutter ++ " | " ++ Report.repeated ' ' margin.toNat ++ Report.repeated '^' carets.toNat ++ "\n")

/-- The report of one error. -/
def report? (kind message : String) (l : CompactLocation) : Option String := do
  some (kind ++ ": " ++ message ++ "\n" ++ (← l.snippet?) ++ "\n" ++ Report.footer 1)

/-- The range that is meant. -/
def toLocation (l : CompactLocation) : Location := ⟨l.source, l.start.toPosition, l.stop.toPosition⟩

variable {s : Source} {l : CompactLocation} {p : CompactPosition} {cs : List Char}

theorem toLocation_of_single? (h : single? s p = some l) :
    l.toLocation = .single s p.toPosition := by
  obtain ⟨q, hq, h⟩ := Option.bind_eq_some_iff.1 h
  obtain rfl := Option.some.inj h
  rw [toLocation, CompactPosition.advance?_eq_some_iff.1 hq]
  rfl

/-- **The range of some characters** can only be the one that is meant. -/
theorem toLocation_of_spanning? (h : spanning? s p cs = some l) :
    l.toLocation = .spanning s p.toPosition cs := by
  obtain ⟨last, hlast, h⟩ := Option.bind_eq_some_iff.1 h
  have hposition := CompactPosition.toPosition_of_afterAll? hlast
  have hline : last.line = p.line ↔ last.toPosition.line = p.toPosition.line :=
    UInt32.toNat_inj.symm
  dsimp only at h
  rw [Location.spanning, ← hposition]
  split_ifs at h with hsame
  all_goals
    obtain ⟨stop, hstop, h⟩ := Option.bind_eq_some_iff.1 h
    obtain rfl := Option.some.inj h
    rw [toLocation, CompactPosition.advance?_eq_some_iff.1 hstop]
  · rw [if_pos (hline.1 hsame)]
  · rw [if_neg (mt hline.2 hsame)]

theorem exists_single? (s : Source) (h : p.toPosition.Fits) : ∃ l, single? s p = some l := by
  obtain ⟨q, hq, -⟩ := CompactPosition.exists_advance? h
  exact ⟨⟨s, p, q⟩, by simp [single?, hq]⟩

theorem exists_spanning? (s : Source)
    (h : ∀ front, front <+: cs → (p.toPosition.afterAll front).Fits) :
    ∃ l, spanning? s p cs = some l := by
  have hfront : cs.dropLast <+: cs := List.dropLast_prefix cs
  obtain ⟨last, hlast, hposition⟩ :=
    CompactPosition.exists_afterAll? fun front hf => h front (hf.trans hfront)
  obtain ⟨next, hnext, -⟩ := CompactPosition.exists_advance? (h [] List.nil_prefix)
  obtain ⟨stop, hstop, -⟩ := CompactPosition.exists_advance? (hposition ▸ h _ hfront)
  rw [spanning?, hlast, Option.bind_eq_bind, Option.bind_some]
  split
  · exact ⟨⟨s, p, stop⟩, by simp [hstop]⟩
  · exact ⟨⟨s, p, next⟩, by simp [hnext]⟩

theorem toPosition_back (p : CompactPosition) : p.back.toPosition = p.toPosition.back := by
  simp only [CompactPosition.back, CompactPosition.toPosition, Position.back, UInt32.toNat_max,
    Counter.toNat_pred]
  rfl

theorem toString?_eq (h : l.start.toPosition.Fits) :
    l.toString? = some (toString l.toLocation) := by
  obtain ⟨next, hnext, hposition⟩ := CompactPosition.exists_advance? h
  have hstop : l.stop = next ↔ l.stop.toPosition = l.start.toPosition.advance := by
    rw [← hposition]
    exact CompactPosition.toPosition_injective.eq_iff.symm
  have hshown (p : CompactPosition) : toString p = toString p.toPosition := rfl
  have hlocation : toString l.toLocation =
      if l.stop.toPosition = l.start.toPosition.advance then
        s!"{l.source.name}:{l.start.toPosition}"
      else s!"{l.source.name}:[{l.start.toPosition}-{l.stop.toPosition.back}]" := rfl
  simp only [toString?, hnext, Option.bind_eq_bind, Option.bind_some, hlocation, hstop, hshown,
    toPosition_back]

/-- **What a report shows of a range** that starts in range. -/
theorem snippet?_eq (h : l.start.toPosition.Fits) :
    l.snippet? = some (Report.snippet l.toLocation) := by
  have hfirst : (max l.start.column 1).toNat = Report.firstCaret l.toLocation :=
    UInt32.toNat_max _ _
  have hlast : (max l.stop.column.pred (max l.start.column 1)).toNat =
      Report.lastCaret l.toLocation := by
    rw [UInt32.toNat_max, hfirst, Counter.toNat_pred]
    rfl
  have hone : (1 : Counter).toNat = 1 := rfl
  have hpos : 1 ≤ Report.firstCaret l.toLocation := Nat.le_max_right _ _
  have hle : Report.firstCaret l.toLocation ≤ Report.lastCaret l.toLocation := Nat.le_max_right _ _
  have hlt := (max l.stop.column.pred (max l.start.column 1)).toNat_lt
  rw [hlast] at hlt
  -- the carets are fewer than the columns up to the last of them
  obtain ⟨margin, hmargin⟩ :=
    Counter.exists_toNat_eq (n := Report.firstCaret l.toLocation - 1) (by omega)
  obtain ⟨more, hmore⟩ := Counter.exists_toNat_eq
    (n := Report.lastCaret l.toLocation - Report.firstCaret l.toLocation) (by omega)
  obtain ⟨carets, hcarets⟩ := Counter.exists_toNat_eq
    (n := Report.lastCaret l.toLocation - Report.firstCaret l.toLocation + 1) (by omega)
  have hsub : (max l.start.column 1).sub? 1 = some margin :=
    Counter.sub?_eq_some_iff.2 (by omega)
  have hrest : (max l.stop.column.pred (max l.start.column 1)).sub? (max l.start.column 1) =
      some more := Counter.sub?_eq_some_iff.2 (by omega)
  have hadd : more.add? 1 = some carets := Counter.add?_eq_some_iff.2 (by omega)
  simp only [snippet?, toString?_eq h, hsub, hrest, hadd, Option.bind_eq_bind, Option.bind_some,
    hmargin, hcarets]
  rfl

theorem report?_eq (h : l.start.toPosition.Fits) (kind message : String) :
    l.report? kind message = some (Report.render ⟨kind, [⟨message, l.toLocation⟩]⟩) := by
  simp only [report?, snippet?_eq h, Option.bind_eq_bind, Option.bind_some, Report.render,
    List.isEmpty_cons, Bool.false_eq_true, if_false, List.map_cons, List.map_nil, List.length_cons,
    List.length_nil, String.join_cons, String.join_nil, String.append_empty, Report.entry,
    Nat.zero_add]

/-- All columns of the range are counted from one, and a report can show the range. -/
structure Shown (l : CompactLocation) : Prop where
  one_le_start : 1 ≤ l.start.column
  one_le_stop : 1 ≤ l.stop.column
  /-- The last column is counted from one as well. -/
  one_le_back : 1 ≤ l.stop.back.column
  report : ∀ kind message,
    l.report? kind message = some (Report.render ⟨kind, [⟨message, l.toLocation⟩]⟩)

/-- A range that starts in range and ends beyond the first column of its line. -/
theorem shown (hstart : l.start.toPosition.Fits) (hstop : 1 ≤ l.stop.toPosition.column) :
    l.Shown where
  one_le_start := UInt32.le_iff_toNat_le.2 hstart.one_le_column
  one_le_stop := UInt32.le_iff_toNat_le.2 hstop
  one_le_back := by
    rw [UInt32.le_iff_toNat_le, CompactPosition.back, UInt32.toNat_max]
    exact Nat.le_max_right _ _
  report := report?_eq hstart

theorem shown_of_single {x : Position} (hx : x.Fits) (h : l.toLocation = .single s x) :
    l.Shown := by
  obtain ⟨-, hstart, hstop⟩ := Location.mk.inj h
  refine shown (hstart ▸ hx) ?_
  rw [hstop]
  exact Nat.le_add_left 1 _

theorem shown_of_spanning {x : Position} (hx : x.Fits) (h : l.toLocation = .spanning s x cs) :
    l.Shown := by
  obtain ⟨-, hstart, hstop⟩ := Location.mk.inj h
  refine shown (hstart ▸ hx) ?_
  rw [hstop]
  split <;> exact Nat.le_add_left 1 _

end CompactLocation

end TinyBasic
