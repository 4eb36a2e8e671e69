/-!
# The C text under construction

A `CUnit` has two regions that grow at their ends: a header, which takes whole lines, and a body.
The text of the unit is the header followed by the body (`CUnit.text`), so a declaration can be
added to the header after the body has begun to use it.
-/

namespace TinyBasic

/-- C text in two regions. -/
structure CUnit where
  /-- The opening lines and the declarations. -/
  header : String
  /-- The statements. -/
  body : String
  deriving DecidableEq

namespace CUnit

/-- The unit before anything is written. -/
def empty : CUnit := ⟨"", ""⟩

/-- Adds text to the body. -/
def write (u : CUnit) (code : String) : CUnit := { u with body := u.body ++ code }

/-- Adds text and a line feed to the body. -/
def writeLine (u : CUnit) (code : String) : CUnit := { u with body := u.body ++ code ++ "\n" }

/-- Adds a line to the header. -/
def headerLine (u : CUnit) (code : String) : CUnit :=
  { u with header := u.header ++ code ++ "\n" }

/-- The whole text: the header, then the body. -/
def text (u : CUnit) : String := u.header ++ u.body

end CUnit

end TinyBasic
