import TinyBasic.Proofs.Grammar.ViablePrefix
import TinyBasic.Proofs.Token.Line
import TinyBasic.Proofs.Token.Normalization
import TinyBasic.Proofs.Translation.Reports

/-!
# The rows of a report

The report of a failure is made of seven rows (`Report.rows`): the message, the place, an empty
gutter, the line of the range, the carets, an empty row, and the number of failures.  The line and
the carets stand behind the same gutter.

All rows but the first stay in one piece if the name of the source does.  The first one ends with
what the message quotes.  The names and characters quoted hold no line feed, and of the tokens only
one does: a syntax error that quotes the text of a line feed breaks the first row in two, and no
other failure does (`Failure.newline_mem_message_iff`).
-/

namespace TinyBasic

/-! ### What messages quote -/

namespace Lexeme

variable {k : Token.Kind} {cs raw text : List Char} {e : LexicalError}

theorem Spells.text_subset (h : Spells k text raw) : text ⊆ raw := by
  cases h with
  | string => exact fun c hc => by simp [hc]
  | _ => exact List.Subset.refl _

/-- Only the token of a line feed has one in its text. -/
theorem Spells.kind_eq_newline_of_mem (h : Spells k text raw) (hn : '\n' ∈ text) :
    k = .newline := by
  obtain rfl | hplain := h.eq_newline_or_plain
  · exact (h.unique .newline).1
  · exact absurd rfl (hplain _ (h.text_subset hn)).1

/-- The character that a fault quotes is no line feed, or it is escaped. -/
theorem Fault.newline_notMem_message (h : Fault cs e) : '\n' ∉ e.message.toList := by
  cases h with
  | badNumber => decide
  | badString => decide
  | unterminatedString => decide
  | @badBang rest =>
    have hmessage : (LexicalError.badBang rest.head?).message = "Lexing error. Expected !=, got !" ++
        String.ofList (rest.head?.toList.flatMap Text.escapeChar) := rfl
    have hescaped : '\n' ∉ rest.head?.toList.flatMap Text.escapeChar := fun hn => by
      obtain ⟨c, -, hc⟩ := List.mem_flatMap.1 hn
      exact absurd (Text.isPrintable_of_mem_escapeChar hc) (by decide)
    rw [hmessage, String.toList_append, List.mem_append, not_or]
    exact ⟨by simp, by rwa [String.toList_ofList]⟩
  | @unknownChar c rest hno =>
    have hmessage : (LexicalError.unknownChar c).message =
        "Lexing error. Unknown token: " ++ String.singleton c := rfl
    -- a line feed is a lexeme, and no lexeme stands where this fault is
    have hc : c ≠ '\n' := by
      rintro rfl
      exact hno ['\n'] ⟨_, _, .newline⟩ ⟨rest, rfl⟩
    rw [hmessage, String.toList_append, String.toList_singleton, List.mem_append, List.mem_singleton,
      not_or]
    exact ⟨by simp, hc.symm⟩

end Lexeme

/-- A token of a lexer is the line feed if its text holds one. -/
theorem Lexer.eq_newline_of_mem {cs : List Char} {out : List (Except LexicalError Token)}
    {t : Token} (h : Tokenizes cs out) (ht : .ok t ∈ out) (hn : '\n' ∈ t.text.toList) :
    t = .newline := by
  obtain rfl | ⟨raw, hs⟩ := eof_or_spells_of_mem h ht
  · simp at hn
  · exact eq_newline_of_tokenizes h ht (hs.kind_eq_newline_of_mem hn)

/-- The message about a name ends with that name. -/
theorem ScopeError.exists_message_eq (e : ScopeError) :
    ∃ front : String, '\n' ∉ front.toList ∧ e.message = front ++ e.name := by
  cases e with
  | undefined => exact ⟨"Referencing variable before assignment: ", by simp, rfl⟩
  | duplicateLabel => exact ⟨"Label already exists: ", by simp, rfl⟩
  | danglingGoto => exact ⟨"Attempting to GOTO to undeclared label: ", by simp, rfl⟩
  | reserved => exact ⟨"Name is reserved in generated code: ", by simp, rfl⟩

theorem ScopeError.newline_notMem_message {e : ScopeError} (h : '\n' ∉ e.name.toList) :
    '\n' ∉ e.message.toList := by
  obtain ⟨front, hfront, hmessage⟩ := e.exists_message_eq
  rw [hmessage, String.toList_append, List.mem_append, not_or]
  exact ⟨hfront, h⟩

/-- The failure quotes the text of a line feed. -/
def Failure.QuotesNewline (f : Failure) : Prop :=
  ∃ e, f = .syntactic e ∧ (e.value = .unexpectedToken "\n" ∨ e.value = .expectedComparison "\n")

/-- An error that describes a token quotes a line feed only as the text of that token. -/
theorem SyntaxError.newline_mem_message_iff {e : SyntaxError} {t : Token} (h : e.Describes t)
    (ht : '\n' ∈ t.text.toList → t = .newline) :
    '\n' ∈ e.message.toList ↔ e = .unexpectedToken "\n" ∨ e = .expectedComparison "\n" := by
  have hquoted : '\n' ∈ t.text.toList ↔ t.text = "\n" :=
    ⟨fun hn => congrArg Token.text (ht hn), fun h => by simp [h]⟩
  cases e with
  | expected wanted found =>
    have hname (k : Token.Kind) : '\n' ∉ k.name.toList := fun hn =>
      absurd (k.isPrintable_of_mem_name _ hn) (by decide)
    have hmessage : (expected wanted found).message =
        "Expected " ++ wanted.name ++ ", got " ++ found.name ++ "." := rfl
    simp [hmessage, hname]
  | invalidStatement text =>
    -- a line may be empty, so the token that starts no statement is not its line feed
    obtain ⟨rfl, hk, -⟩ := h
    have hmessage : (invalidStatement t.text).message = "Invalid statement at " ++ t.text := rfl
    have hplain : '\n' ∉ t.text.toList := fun hn => hk (congrArg Token.kind (ht hn))
    simp [hmessage, hplain]
  | expectedComparison text =>
    obtain rfl : text = t.text := h
    have hmessage : (expectedComparison t.text).message =
        "Expected comparison operator at: " ++ t.text := rfl
    simp [hmessage, hquoted]
  | unexpectedToken text =>
    obtain rfl : text = t.text := h
    have hmessage : (unexpectedToken t.text).message = "Unexpected token at " ++ t.text := rfl
    simp [hmessage, hquoted]

/-- That names and characters are quoted without a line feed is an invariant. -/
def Invariant.plainNames : Invariant where
  lexer _ := True
  token t := t.value.kind = .ident → '\n' ∉ t.value.text.toList
  check c := '\n' ∉ c.value.name.toList
  failure f := (∀ e, f ≠ .syntactic e) → '\n' ∉ f.message.toList
  next {l t l'} _ hl := by
    refine ⟨fun hk hn => ?_, trivial⟩
    have hmem := Lexer.content_next_mem l
    rw [hl] at hmem
    have ht := Lexer.eq_newline_of_mem (Lexer.tokenizes_items l) hmem hn
    rw [ht] at hk
    cases hk
  lexical {l e l'} _ hl _ := by
    have hmem := Lexer.content_next_mem l
    rw [hl] at hmem
    obtain ⟨ds, hfault⟩ := Lexer.exists_fault_of_mem (Lexer.tokenizes_items l) hmem
    exact hfault.newline_notMem_message
  syntactic _ _ h := absurd rfl (h _)
  checks ht hk _ hname := by
    rw [hname]
    exact ht hk
  semantic hc _ hname _ := ScopeError.newline_notMem_message (hname ▸ hc)

variable {s : Source} {f : Failure}

/-- **Only a syntax error at a line feed has a message with a line feed.** -/
theorem Failure.newline_mem_message_iff (h : (translate s).result = .error f) :
    '\n' ∈ f.message.toList ↔ f.QuotesNewline := by
  have hplain := Invariant.plainNames.failure_of_translate trivial h
  cases f with
  | lexical e => simpa [QuotesNewline] using hplain (by simp)
  | semantic e => simpa [QuotesNewline] using hplain (by simp)
  | syntactic e =>
    -- the error describes a token that the lexer of the source gives
    obtain ⟨w, ts, t, hitems, hr⟩ := Script.exists_rejection (Translation.ending_of_syntactic h)
    obtain ⟨later, hi⟩ := hr.items
    have hmem : .ok t.value ∈ (Lexer.ofSource s).items.map Lexer.content := by
      rw [← hitems, hi]
      simp [Lexer.content]
    have hnewline := Lexer.eq_newline_of_mem (Lexer.tokenizes_items _) hmem
    rw [message, SyntaxError.newline_mem_message_iff hr.describes hnewline]
    simp [QuotesNewline]

/-! ### Rows -/

/-- The line feeds of a text made of lines are those that end the lines and those inside them. -/
theorem count_newline_unlines (ls : List String) :
    (unlines ls).toList.count '\n' = ls.length + (ls.flatMap String.toList).count '\n' := by
  induction ls with
  | nil => rfl
  | cons l ls ih =>
    have hfeed : "\n".toList.count '\n' = 1 := by decide
    rw [unlines_cons, String.toList_append, String.toList_append, List.count_append,
      List.count_append, hfeed, ih, List.length_cons, List.flatMap_cons, List.count_append]
    omega

/-- A text has as many line feeds as lines exactly when each line is one. -/
theorem count_newline_unlines_eq_length_iff {ls : List String} :
    (unlines ls).toList.count '\n' = ls.length ↔ ∀ l ∈ ls, '\n' ∉ l.toList := by
  rw [count_newline_unlines, Nat.add_eq_left, List.count_eq_zero]
  simp

theorem notMem_toDigits {c : Char} (hc : c.isDigit = false) (n : ℕ) : c ∉ Nat.toDigits 10 n :=
  fun h => by simp [Nat.isDigit_of_mem_toDigits (by decide) (by decide) h] at hc

theorem Position.newline_notMem_toString (p : Position) : '\n' ∉ (toString p).toList := by
  have hp : toString p = toString p.line ++ ":" ++ toString p.column := rfl
  have hdigit : '\n'.isDigit = false := by decide
  simp [hp, notMem_toDigits hdigit]

theorem Location.newline_notMem_toString {l : Location} (h : '\n' ∉ l.source.name.toList) :
    '\n' ∉ (toString l).toList := by
  have hl : toString l =
      if l.stop = l.start.advance then l.source.name ++ ":" ++ toString l.start
      else l.source.name ++ ":[" ++ toString l.start ++ "-" ++ toString l.stop.back ++ "]" := rfl
  rw [hl]
  split <;> simp [h, Position.newline_notMem_toString]

namespace Report

variable {s : Source} {i : ℕ} {f : Failure} {l : Location}

/-- The gutter beside no line, as wide as that beside line `n`. -/
def emptyGutter (n : ℕ) : String := repeated ' ' (toString n).length ++ " |"

/-- The row of carets under a range of one line. -/
def caretRow (l : Location) : String :=
  emptyGutter l.start.line ++ " " ++ repeated ' ' (l.start.column - 1) ++
    repeated '^' (l.stop.column - l.start.column)

/-- The rows behind the gutter. -/
def gutterRows (l : Location) : List String :=
  [emptyGutter l.start.line, gutter l.start.line ++ l.source.line l.start.line, caretRow l]

/-- The rows of the report of a failure whose range is on one line. -/
def rows (f : Failure) : List String :=
  [f.kind ++ ": " ++ f.message, " --> " ++ toString f.location] ++ gutterRows f.location ++
    ["", "Build failed with 1 error"]

/-- **The report is made of its rows.** -/
theorem render_eq_unlines_rows (h : f.location.StartsAt s i) :
    f.report.render = unlines (rows f) := by
  have hbar : " |\n" = " |" ++ "\n" := by decide
  have hbars : " | " = " |" ++ " " := by decide
  have hfooter : "Build failed with 1 error\n" = "Build failed with 1 error" ++ "\n" := by decide
  have hfirst : firstCaret f.location = f.location.start.column :=
    Nat.max_eq_left h.one_le_column
  rw [render_report h.stop_line, carets_eq h]
  simp only [rows, gutterRows, emptyGutter, caretRow, margin, h.stop_line, hfirst, hbar, hbars,
    hfooter, List.cons_append, List.nil_append, unlines_cons, unlines_nil, String.append_assoc,
    String.append_empty, String.empty_append]

/-- The rows behind the gutter hold no line feed. -/
theorem newline_notMem_gutterRows (l : Location) : ∀ row ∈ gutterRows l, '\n' ∉ row.toList := by
  have hline := l.source.newline_notMem_line l.start.line
  have hdigit : '\n'.isDigit = false := by decide
  have hempty : '\n' ∉ (emptyGutter l.start.line).toList := by
    simp [emptyGutter, repeated]
  have hgutter : '\n' ∉ (gutter l.start.line).toList := fun hn => (plain_gutter _ _ hn).1 rfl
  have hcarets : '\n' ∉ (caretRow l).toList := by
    simp [caretRow, hempty, repeated]
  simp [gutterRows, hempty, hgutter, hline, hcarets]

/-- **Only the first row can hold a line feed**, in what the message quotes. -/
theorem newline_notMem_tail_rows (hname : '\n' ∉ f.location.source.name.toList) :
    ∀ row ∈ (rows f).tail, '\n' ∉ row.toList := by
  have hplace := Location.newline_notMem_toString hname
  have hgutter := newline_notMem_gutterRows f.location
  simp only [rows, List.cons_append, List.nil_append, List.tail_cons]
  refine List.forall_mem_cons.2 ⟨by simp [hplace], List.forall_mem_append.2 ⟨hgutter, ?_⟩⟩
  simp

/-- In a row behind the gutter the bar comes after as many characters as the number of the line has
digits. -/
theorem exists_eq_of_mem_gutterRows {row : String} (h : row ∈ gutterRows l) :
    ∃ front back : String, row = front ++ " |" ++ back ∧
      front.length = (toString l.start.line).length ∧ '|' ∉ front.toList := by
  have hblank (n : ℕ) : '|' ∉ (repeated ' ' n).toList := by simp [repeated]
  have hdigit : '|'.isDigit = false := by decide
  have hbar : " | " = " |" ++ " " := by decide
  simp only [gutterRows, List.mem_cons, List.not_mem_nil, or_false] at h
  rcases h with rfl | rfl | rfl
  · exact ⟨_, "", by simp [emptyGutter], length_repeated _ _, hblank _⟩
  · refine ⟨toString l.start.line, " " ++ l.source.line l.start.line, ?_, rfl, ?_⟩
    · simp only [gutter, hbar, String.append_assoc]
    · simpa using notMem_toDigits hdigit l.start.line
  · refine ⟨_, " " ++ repeated ' ' (l.start.column - 1) ++
      repeated '^' (l.stop.column - l.start.column), ?_, length_repeated _ _, hblank _⟩
    simp only [caretRow, emptyGutter, String.append_assoc]

/-- **The bars are one above the other**, right behind the longest number. -/
theorem idxOf_bar_of_mem_gutterRows {row : String} (h : row ∈ gutterRows l) :
    '|' ∈ row.toList ∧ row.toList.idxOf '|' = (toString l.start.line).length + 1 := by
  obtain ⟨front, back, rfl, hlength, hfront⟩ := exists_eq_of_mem_gutterRows h
  have hrow : (front ++ " |" ++ back).toList = front.toList ++ ' ' :: '|' :: back.toList := by simp
  rw [hrow, List.idxOf_append_of_notMem hfront, List.idxOf_cons_ne _ (by decide),
    List.idxOf_cons_self, String.length_toList, hlength]
  exact ⟨by simp, rfl⟩

/-- As many carets as columns. -/
theorem count_caretRow (l : Location) :
    (caretRow l).toList.count '^' = l.stop.column - l.start.column := by
  simp [caretRow, emptyGutter, repeated, List.count_replicate]

end Report

open Report

/-- A message that quotes a line feed ends with it. -/
theorem Failure.QuotesNewline.exists_eq (h : f.QuotesNewline) :
    ∃ front : String, '\n' ∉ front.toList ∧ f.kind ++ ": " ++ f.message = front ++ "\n" := by
  obtain ⟨⟨e, place⟩, rfl, h⟩ := h
  obtain rfl | rfl := h
  · have hrow : "Syntax error" ++ ": " ++ ("Unexpected token at " ++ "\n") =
        "Syntax error: Unexpected token at " ++ "\n" := by decide
    exact ⟨_, by simp, hrow⟩
  · have hrow : "Syntax error" ++ ": " ++ ("Expected comparison operator at: " ++ "\n") =
        "Syntax error: Expected comparison operator at: " ++ "\n" := by decide
    exact ⟨_, by simp, hrow⟩

theorem Failure.newline_notMem_kind (f : Failure) : '\n' ∉ f.kind.toList := by
  cases f with
  | lexical => simp [kind]
  | syntactic => simp [kind]
  | semantic => simp [kind]

/-- **The rows of the report of a failure.**  The range of the failure is on one line of the source,
which the report shows behind a gutter.  The report is made of seven rows, of which all but the
first hold no line feed.  Neither does the first, unless the failure quotes a line feed: then that
is what it ends with.  So there are as many line feeds as rows exactly if none is quoted.  In the
rows behind the gutter the bar is in the same column, and there are as many carets as the range has
columns, which is one or more. -/
theorem report_rows (hname : '\n' ∉ s.name.toList) (h : (translate s).result = .error f) :
    f.location.source = s ∧ f.location.stop.line = f.location.start.line ∧
    f.report.render = unlines (rows f) ∧
    (∀ row ∈ (rows f).tail, '\n' ∉ row.toList) ∧
    ((∀ row ∈ rows f, '\n' ∉ row.toList) ↔ ¬ f.QuotesNewline) ∧
    (f.QuotesNewline →
      ∃ front : String, '\n' ∉ front.toList ∧ f.kind ++ ": " ++ f.message = front ++ "\n") ∧
    (f.report.render.toList.count '\n' = 7 ↔ ¬ f.QuotesNewline) ∧
    (∀ row ∈ gutterRows f.location, '|' ∈ row.toList ∧
      row.toList.idxOf '|' = (toString f.location.start.line).length + 1) ∧
    (caretRow f.location).toList.count '^' =
      f.location.stop.column - f.location.start.column ∧
    1 ≤ f.location.stop.column - f.location.start.column := by
  obtain ⟨i, hi⟩ := translate_failure_isIn h
  have htail := newline_notMem_tail_rows (hi.source ▸ hname)
  have hrows : (∀ row ∈ rows f, '\n' ∉ row.toList) ↔ ¬ f.QuotesNewline := by
    have hfirst : '\n' ∈ (f.kind ++ ": " ++ f.message).toList ↔ f.QuotesNewline := by
      rw [← f.newline_mem_message_iff h]
      simp [f.newline_notMem_kind]
    rw [← hfirst]
    exact ⟨fun hall => hall _ List.mem_cons_self, fun hmem => List.forall_mem_cons.2 ⟨hmem, htail⟩⟩
  refine ⟨hi.source, hi.stop_line, render_eq_unlines_rows hi, htail, hrows,
    Failure.QuotesNewline.exists_eq, ?_, fun _ => idxOf_bar_of_mem_gutterRows,
    count_caretRow _, Nat.sub_pos_of_lt hi.column_lt⟩
  rw [← hrows, ← count_newline_unlines_eq_length_iff, ← render_eq_unlines_rows hi]
  rfl

/-- A block that is open at the end of the text, on a line with a number of two digits. -/
def cutOff : Source where
  name := "cut off"
  body := "\n\n\n\n\n\n\n\nIF 1 < 2 THEN\n"

/-- The end of the block is missing. -/
def cutOffFailure : Failure :=
  .syntactic ⟨.expected (.keyword .endIf) .eof, .single cutOff ⟨11, 1⟩⟩

theorem translate_cutOff : (translate cutOff).result = .error cutOffFailure := by
  decide +kernel

theorem report_rows_cutOff :
    '\n' ∉ cutOff.name.toList ∧ (translate cutOff).result = .error cutOffFailure ∧
    cutOffFailure.report.render = unlines (rows cutOffFailure) ∧
    rows cutOffFailure = ["Syntax error: Expected ENDIF, got EOF.", " --> cut off:11:1", "   |",
      "11 | ", "   | ^", "", "Build failed with 1 error"] ∧
    (∀ row ∈ rows cutOffFailure, '\n' ∉ row.toList) ∧
    (∀ row ∈ gutterRows cutOffFailure.location, '|' ∈ row.toList ∧
      row.toList.idxOf '|' = (toString 11).length + 1) ∧
    (caretRow cutOffFailure.location).toList.count '^' = 2 - 1 := by
  have hname : '\n' ∉ cutOff.name.toList := by decide
  have hquotes : ¬ cutOffFailure.QuotesNewline := by
    rintro ⟨e, he, h⟩
    obtain rfl := Failure.syntactic.inj he
    simp at h
  obtain ⟨-, -, hrender, -, hrows, -, -, hbars, hcarets, -⟩ := report_rows hname translate_cutOff
  exact ⟨hname, translate_cutOff, hrender, by decide +kernel, hrows.2 hquotes, hbars, hcarets⟩

/-- A statement whose line ends in front of its operand. -/
def missing : Source where
  name := "prog.bas"
  body := "PRINT\n"

/-- The line feed is no operand. -/
def missingFailure : Failure :=
  .syntactic ⟨.unexpectedToken "\n", .single missing ⟨1, 6⟩⟩

/-- **A report can have another row**: no seven lines are the report of a missing operand. -/
theorem report_breaks_message :
    '\n' ∉ missing.name.toList ∧ (translate missing).result = .error missingFailure ∧
    missingFailure.report.render =
      "Syntax error: Unexpected token at \n\n --> prog.bas:1:6\n  |\n" ++
      "1 | PRINT\n" ++ "  |      ^\n" ++ "\nBuild failed with 1 error\n" ∧
    ¬ ∃ rows : List String, rows.length = 7 ∧ (∀ row ∈ rows, '\n' ∉ row.toList) ∧
      missingFailure.report.render = unlines rows := by
  have hcount : missingFailure.report.render.toList.count '\n' = 8 := by decide +kernel
  refine ⟨by decide, by decide +kernel, by decide +kernel, ?_⟩
  -- seven lines have seven line feeds
  rintro ⟨rows, hlength, hrows, hrender⟩
  rw [hrender, count_newline_unlines_eq_length_iff.2 hrows, hlength] at hcount
  cases hcount

end TinyBasic
