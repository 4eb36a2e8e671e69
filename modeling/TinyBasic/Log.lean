/-!
# Log records

A `Record` is a message at a `Level`.  The louder a run is asked to be, the more levels it shows
(`Record.isShown`): `info` from verbosity one, `debug` from two, `trace` from three.
-/

namespace TinyBasic.Log

/-- How detailed a record is. -/
inductive Level where
  /-- What the command is doing. -/
  | info
  /-- What was found in the program. -/
  | debug
  /-- How the program was read. -/
  | trace
  deriving DecidableEq

/-- The least verbosity that shows a level. -/
def Level.verbosity : Level → Nat
  | .info => 1
  | .debug => 2
  | .trace => 3

/-- A message at a level. -/
structure Record where
  /-- How detailed the record is. -/
  level : Level
  /-- What it says. -/
  message : String
  deriving DecidableEq

namespace Record

/-- Whether a run of the given verbosity shows the record. -/
def isShown (verbosity : Nat) (r : Record) : Bool := r.level.verbosity ≤ verbosity

/-- The record as a line of text. -/
def line (r : Record) : String := r.message ++ "\n"

end Record

/-- The lines that a run of the given verbosity shows. -/
def render (verbosity : Nat) (records : List Record) : String :=
  String.join ((records.filter (Record.isShown verbosity)).map Record.line)

end TinyBasic.Log
