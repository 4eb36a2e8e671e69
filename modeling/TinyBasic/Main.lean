import TinyBasic.Command.Session

/-!
# The command

Carries the session of the command line out on the files of the system.
-/

namespace TinyBasic

/-- The system's number for a path that looks something up in a regular file. -/
def notDirectoryCode : UInt32 := 20

/-- The reason behind a failed system call.  The system's number comes with either sign. -/
def fileErrorOf : IO.Error → FileError
  | .inappropriateType _ code _ =>
    if code = notDirectoryCode ∨ code = -notDirectoryCode then .notDirectory else .isDirectory
  | _ => .notFound

/-- Reads a file as text. -/
def readText (path : Path) : IO (Except FileError String) := do
  try
    match String.fromUTF8? (← IO.FS.readBinFile path.text) with
    | some text => return .ok text
    | none => return .error .invalidText
  catch e => return .error (fileErrorOf e)

/-- Creates a file, or replaces what it holds. -/
def writeText (path : Path) (text : String) : IO (Except FileError Unit) := do
  try
    IO.FS.writeFile path.text text
    return .ok ()
  catch e => return .error (fileErrorOf e)

/-- Carries a session out on the files of the system. -/
def carryOut : Session → IO Response
  | .finished r => return r
  | .reading path resume => do carryOut (resume (← readText path))
  | .writing path text resume => do carryOut (resume (← writeText path text))

end TinyBasic

/-- Runs the command and leaves its exit status. -/
def main (args : List String) : IO UInt32 := do
  let r ← TinyBasic.carryOut (.ofArguments args)
  IO.print r.stdout
  IO.eprint r.stderr
  return r.code.toUInt32
