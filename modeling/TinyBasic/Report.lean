import TinyBasic.Source

/-!
# Reports

A `Report` lists errors of one kind.  `Report.render` shows each with the lines of source that its
range covers, numbered in a gutter, and a row of carets from the first column of the range to its
last, and ends with the number of errors.  The gutter is as wide as the number of the last line.
-/

namespace TinyBasic

/-- An error message about a range of the source. -/
structure Diagnostic where
  /-- What is wrong. -/
  message : String
  /-- Where. -/
  location : Location

/-- Errors of one kind. -/
structure Report where
  /-- The word or words before each message. -/
  kind : String
  /-- The errors, in order. -/
  errors : List Diagnostic

namespace Report

/-- The kind of errors that are not said to be of any other. -/
def plainKind : String := "error"

/-- The report without errors. -/
def empty : Report := ⟨plainKind, []⟩

/-- `n` times the character `c`. -/
def repeated (c : Char) (n : Nat) : String := String.ofList (List.replicate n c)

/-- A number right-aligned in `width` columns. -/
def numberRight (width n : Nat) : String :=
  let digits := toString n
  repeated ' ' (width - digits.length) ++ digits

/-- The numbered rows of `count` lines from line `first` on. -/
def sourceRows (source : Source) (width first count : Nat) : String :=
  String.join ((List.range' first count).map fun n =>
    numberRight width n ++ " | " ++ source.line n ++ "\n")

/-- The first column that gets a caret. -/
def firstCaret (l : Location) : Nat := max l.start.column 1

/-- The last column that gets a caret.  An empty range still gets one. -/
def lastCaret (l : Location) : Nat := max (l.stop.column - 1) (firstCaret l)

/-- A range of the source, with the lines it covers and carets under its columns. -/
def snippet (l : Location) : String :=
  let width := (toString l.stop.line).length
  let gutter := repeated ' ' width
  let carets := repeated '^' (lastCaret l - firstCaret l + 1)
  s!" --> {l}\n" ++ gutter ++ " |\n" ++
    sourceRows l.source width l.start.line (l.stop.line + 1 - l.start.line) ++
    gutter ++ " | " ++ repeated ' ' (firstCaret l - 1) ++ carets ++ "\n"

/-- The rows of one error. -/
def entry (kind : String) (d : Diagnostic) : String :=
  kind ++ ": " ++ d.message ++ "\n" ++ snippet d.location ++ "\n"

/-- The last row. -/
def footer (count : Nat) : String :=
  s!"Build failed with {count} error" ++ (if count = 1 then "" else "s") ++ "\n"

/-- The text of a report. -/
def render (r : Report) : String :=
  if r.errors.isEmpty then "No errors were reported\n"
  else String.join (r.errors.map (entry r.kind)) ++ footer r.errors.length

end Report

end TinyBasic
