import TinyBasic.Proofs.Translation.Ranges

/-!
# What a report underlines

The report of a failure shows the line of its range, and carets under it.  The line is shown as it
stands, behind its number, so its tabs go to the tab stops of the row that is shown.  The margin in
front of the carets has been measured in the columns of the source, in which tabs go to the tab
stops of the line.  So the carets are in the columns of the range unless a tab is in front of it and
the gutter is not as wide as a number of tab stops (`report_marks_range`).

* `Report.displayColumn row`: where the next character of a row of the report is shown.
* `Report.rowBefore s i`: the row of the character at index `i` of `s`, up to that character.
* `Report.margin l`: the row of carets for the range `l`, up to the first caret.
-/

namespace TinyBasic

namespace Report

variable {s : Source} {i : ℕ} {l : Location}

/-- The column in which the character after these is shown, on a row of its own. -/
def displayColumn (row : List Char) : ℕ := (Position.origin.afterAll row).column

/-- What is shown in front of a line: its number and a bar. -/
def gutter (n : ℕ) : String := toString n ++ " | "

/-- What is shown on the row of the character at index `i` in front of that character. -/
def rowBefore (s : Source) (i : ℕ) : List Char :=
  (gutter (s.positionAt i).line).toList ++ s.lineBefore i

/-- What is shown in front of the carets. -/
def margin (l : Location) : String :=
  repeated ' ' (toString l.stop.line).length ++ " | " ++ repeated ' ' (firstCaret l - 1)

/-! ### The text of a report -/

theorem length_repeated (c : Char) (n : ℕ) : (repeated c n).length = n := by
  simp [repeated]

theorem length_bar : " | ".length = 3 := by decide

theorem numberRight_length (n : ℕ) : numberRight (toString n).length n = toString n := by
  simp [numberRight, repeated]

/-- A range of one line is shown as the line and the carets under it. -/
theorem snippet_eq (h : l.stop.line = l.start.line) :
    snippet l = " --> " ++ toString l ++ "\n" ++ repeated ' ' (toString l.stop.line).length ++
      " |\n" ++ (gutter l.start.line ++ l.source.line l.start.line) ++ "\n" ++
      (margin l ++ repeated '^' (lastCaret l - firstCaret l + 1)) ++ "\n" := by
  have hone : l.start.line + 1 - l.start.line = 1 := Nat.add_sub_cancel_left _ _
  have hrows : sourceRows l.source (toString l.start.line).length l.start.line 1 =
      gutter l.start.line ++ l.source.line l.start.line ++ "\n" := by
    simp only [sourceRows, List.range'_one, List.map_cons, List.map_nil, numberRight_length, gutter,
      String.join_cons, String.join_nil, String.append_empty]
  have hstring (x : String) : toString x = x := rfl
  -- the equation of `snippet` takes long to derive
  delta snippet
  simp only [h, hone, hrows, margin, String.append_assoc, hstring]

theorem footer_one : footer 1 = "Build failed with 1 error\n" := by decide

/-- **The report of a failure**: its message and its place, the line, and the carets. -/
theorem render_report {f : Failure} (h : f.location.stop.line = f.location.start.line) :
    f.report.render = f.kind ++ ": " ++ f.message ++ "\n" ++ " --> " ++ toString f.location ++
      "\n" ++ repeated ' ' (toString f.location.stop.line).length ++ " |\n" ++
      (gutter f.location.start.line ++ f.location.source.line f.location.start.line) ++ "\n" ++
      (margin f.location ++
        repeated '^' (lastCaret f.location - firstCaret f.location + 1)) ++ "\n" ++
      "\n" ++ "Build failed with 1 error\n" := by
  have hsnippet := snippet_eq h
  simp only [render, Failure.report, List.isEmpty_cons, Bool.false_eq_true, if_false, List.map_cons,
    List.map_nil, List.length_cons, List.length_nil, String.join_cons, String.join_nil,
    String.append_empty, entry, hsnippet, String.append_assoc, Nat.zero_add, footer_one]

/-! ### The columns of a report -/

/-- One caret for every column of the range. -/
theorem carets_eq (h : l.StartsAt s i) :
    lastCaret l - firstCaret l + 1 = l.stop.column - l.start.column := by
  have hstart := h.one_le_column
  have hlt := h.column_lt
  unfold lastCaret firstCaret
  omega

theorem plain_repeated (n : ℕ) : ∀ c ∈ (repeated ' ' n).toList, c ≠ '\n' ∧ c ≠ '\t' := by
  intro c hc
  rw [repeated, String.toList_ofList] at hc
  rw [List.eq_of_mem_replicate hc]
  decide

theorem plain_bar : ∀ c ∈ " | ".toList, c ≠ '\n' ∧ c ≠ '\t' := by simp

theorem plain_gutter (n : ℕ) : ∀ c ∈ (gutter n).toList, c ≠ '\n' ∧ c ≠ '\t' := by
  rw [gutter, String.toList_append]
  refine List.forall_mem_append.2 ⟨fun c hc => ?_, plain_bar⟩
  rw [Nat.toString_eq_ofList_toDigits, String.toList_ofList] at hc
  exact Lexeme.plain_of_isDigit (Nat.isDigit_of_mem_toDigits (by decide) (by decide) hc)

theorem length_gutter (n : ℕ) : (gutter n).length = (toString n).length + 3 := by
  rw [gutter, String.length_append, length_bar]

/-- The carets start as far behind the bar as the column of the range says. -/
theorem displayColumn_margin (h : l.StartsAt s i) :
    displayColumn (margin l).toList = (s.positionAt i).column + (gutter l.start.line).length := by
  have hplain : ∀ c ∈ (margin l).toList, c ≠ '\n' ∧ c ≠ '\t' := by
    rw [margin, String.toList_append, String.toList_append]
    exact List.forall_mem_append.2
      ⟨List.forall_mem_append.2 ⟨plain_repeated _, plain_bar⟩, plain_repeated _⟩
  have hlength : (margin l).toList.length = (gutter l.start.line).length + (firstCaret l - 1) := by
    rw [length_gutter, ← h.stop_line, String.length_toList, margin, String.length_append,
      String.length_append, length_repeated, length_repeated, length_bar]
  have hstart := h.one_le_column
  have horigin : Position.origin.column = 1 := rfl
  rw [displayColumn, Position.afterAll_of_plain hplain, hlength, ← h.start]
  simp only [horigin, firstCaret]
  omega

/-- What is in front of a character on its line is shown behind the gutter. -/
theorem displayColumn_rowBefore (s : Source) (i : ℕ) :
    displayColumn (rowBefore s i) =
      ((⟨1, 1 + (gutter (s.positionAt i).line).length⟩ : Position).afterAll
        (s.lineBefore i)).column := by
  rw [displayColumn, rowBefore, Position.afterAll_append,
    Position.afterAll_of_plain (plain_gutter _), String.length_toList]
  rfl

/-- **The carets are under the range** exactly when no tab is in front of it on its line, or when
the gutter is as wide as a number of tab stops. -/
theorem aligned_iff (h : l.StartsAt s i) :
    displayColumn (margin l).toList = displayColumn (rowBefore s i) ↔
      ('\t' ∈ s.lineBefore i → ((toString l.start.line).length + 3) % Position.tabStop = 0) := by
  rw [displayColumn_margin h, displayColumn_rowBefore, s.column_positionAt, ← h.start,
    ← length_gutter]
  exact eq_comm.trans (Position.column_afterAll_add_iff Nat.one_pos (s.newline_notMem_lineBefore i))

/-! ### The row of the range -/

/-- **The row that is shown goes on after what is in front of the range**, or the range comes after
the row and the carriage returns at its end, which are not shown. -/
theorem rowBefore_cases (s : Source) (i : ℕ) :
    rowBefore s i <+: (gutter (s.positionAt i).line ++ s.line (s.positionAt i).line).toList ∨
      ∃ n, rowBefore s i =
        (gutter (s.positionAt i).line ++ s.line (s.positionAt i).line).toList ++
          List.replicate n '\r' := by
  rw [String.toList_append, s.toList_line_positionAt, Source.dropFinalReturns_append]
  split
  · obtain ⟨n, hn⟩ := Source.exists_returns (s.lineBefore i)
    exact .inr ⟨n, by rw [rowBefore, List.append_assoc, ← hn]⟩
  · exact .inl ⟨_, List.append_assoc _ _ _⟩

end Report

open Report

variable {s : Source}

/-- **What the report of a failure underlines.**  The failure is a range of one line of the source.
Its report shows that line behind its number, and under it a caret for every column of the range.
The first caret is in the display column of the first character of the range exactly when no tab is
in front of it on its line, or when the gutter in front of the line is as wide as a number of tab
stops. -/
theorem report_marks_range {f : Failure} (h : (translate s).result = .error f) :
    ∃ i, f.location.StartsAt s i ∧
      f.report.render =
        f.kind ++ ": " ++ f.message ++ "\n" ++ " --> " ++ toString f.location ++ "\n" ++
        repeated ' ' (toString f.location.stop.line).length ++ " |\n" ++
        (gutter f.location.start.line ++ s.line f.location.start.line) ++ "\n" ++
        (margin f.location ++
          repeated '^' (f.location.stop.column - f.location.start.column)) ++ "\n" ++
        "\n" ++ "Build failed with 1 error\n" ∧
      (rowBefore s i <+: (gutter f.location.start.line ++ s.line f.location.start.line).toList ∨
        ∃ n, rowBefore s i =
          (gutter f.location.start.line ++ s.line f.location.start.line).toList ++
            List.replicate n '\r') ∧
      (displayColumn (margin f.location).toList = displayColumn (rowBefore s i) ↔
        ('\t' ∈ s.lineBefore i →
          ((toString f.location.start.line).length + 3) % Position.tabStop = 0)) := by
  obtain ⟨i, hi⟩ := translate_failure_isIn h
  refine ⟨i, hi, ?_, ?_, aligned_iff hi⟩
  · rw [render_report hi.stop_line, carets_eq hi, hi.source]
  · rw [hi.start]
    exact rowBefore_cases s i

/-- A tab in front of an unknown name, on a line with a number of two digits. -/
def indented : Source where
  name := "indented"
  body := "\n\n\n\n\n\n\n\n\n\tPRINT b\n"

/-- The range of the name. -/
def indentedName : Location := ⟨indented, ⟨10, 11⟩, ⟨10, 12⟩⟩

theorem translate_indented :
    (translate indented).result = .error (.semantic ⟨.undefined "b", indentedName⟩) := by
  decide +kernel

theorem report_marks_range_indented :
    (translate indented).result = .error (.semantic ⟨.undefined "b", indentedName⟩) ∧
    ∃ i, indentedName.StartsAt indented i ∧
      (Failure.semantic ⟨.undefined "b", indentedName⟩).report.render =
        "Semantic error" ++ ": " ++ ScopeError.message (.undefined "b") ++ "\n" ++ " --> " ++
        toString indentedName ++ "\n" ++ repeated ' ' (toString 10).length ++ " |\n" ++
        (gutter 10 ++ indented.line 10) ++ "\n" ++ (margin indentedName ++ repeated '^' (12 - 11)) ++
        "\n" ++ "\n" ++ "Build failed with 1 error\n" ∧
      (rowBefore indented i <+: (gutter 10 ++ indented.line 10).toList ∨
        ∃ n, rowBefore indented i =
          (gutter 10 ++ indented.line 10).toList ++ List.replicate n '\r') ∧
      (displayColumn (margin indentedName).toList = displayColumn (rowBefore indented i) ↔
        ('\t' ∈ indented.lineBefore i → ((toString 10).length + 3) % Position.tabStop = 0)) :=
  ⟨translate_indented, report_marks_range translate_indented⟩

/-- **The carets can miss the range**: here the name is in column 15 of its row, and the caret in
column 16. -/
theorem caret_beside_name :
    (translate indented).result = .error (.semantic ⟨.undefined "b", indentedName⟩) ∧
    indentedName.StartsAt indented 16 ∧
    (Failure.semantic ⟨.undefined "b", indentedName⟩).report.render =
      "Semantic error: Referencing variable before assignment: b\n --> indented:10:11\n   |\n" ++
      "10 | \tPRINT b\n" ++ "   |           ^\n" ++ "\nBuild failed with 1 error\n" ∧
    rowBefore indented 16 ++ ['b'] = "10 | \tPRINT b".toList ∧
    displayColumn (rowBefore indented 16) = 15 ∧
    displayColumn (margin indentedName).toList = 16 := by
  refine ⟨translate_indented, ⟨rfl, by decide, rfl, by decide⟩, ?_, ?_, ?_, ?_⟩
  all_goals decide +kernel

end TinyBasic
