import TinyBasic.Command.Invocation
import TinyBasic.FileTree
import TinyBasic.Text.Lines
import TinyBasic.Translation

/-!
# Sessions

A `Session` is a run of the command as its surroundings see it: it reads a file and goes on with
what it got, writes a file and goes on with how that went, or is finished with a `Response`.
`Session.run` carries a session out on a `FileTree`.

Command lines are read by an `OptionReader`.  The command takes from it what it is asked for, and
leaves to it what is said when that is no work on a file: the description, the version, and why a
command line is refused.  `OptionReader.session` is the session of a command line for any reader,
and `Session.ofArguments` the one for the reader of the command.

A compiling session reads the source, then decides on the destination, and only a translation that
has succeeded is written.  A destination that looks like the source (`Path.resembles`) is refused.
-/

namespace TinyBasic

/-- What a finished run leaves behind. -/
structure Response where
  /-- The exit status. -/
  code : Nat
  /-- The text on standard output. -/
  stdout : String
  /-- The text on standard error. -/
  stderr : String
  deriving DecidableEq

/-- A run of the command. -/
inductive Session where
  /-- The run is over. -/
  | finished (r : Response)
  /-- A file is read. -/
  | reading (path : Path) (resume : Except FileError String → Session)
  /-- A file is written. -/
  | writing (path : Path) (text : String) (resume : Except FileError Unit → Session)

/-- Where C text goes. -/
inductive Destination where
  | file (path : Path)
  | stdout
  deriving DecidableEq

/-- The name of a destination in messages. -/
def Destination.name : Destination → String
  | .file path => path.text
  | .stdout => "<stdout>"

/-- What reads command lines. -/
structure OptionReader where
  /-- What a command line asks for. -/
  read : List String → Invocation
  /-- The description of the command. -/
  helpText : String
  /-- The name of the command and its version. -/
  versionText : String
  /-- What is said of a command line that is refused. -/
  misuseText : List String → String

namespace Session

/-! ### Texts of the command -/

/-- The name of the command and its version. -/
def versionText : String := "Tiny BASIC compiler 1.0.0\n"

/-- The description of the command. -/
def helpText : String :=
  versionText ++ unlines
    ["",
      "USAGE:",
      "    tbc [OPTIONS] <FILE>",
      "",
      "ARGS:",
      "    <FILE>    Source file",
      "",
      "OPTIONS:",
      "    -h, --help             Print help information",
      "        --no-color         Disables colorized output",
      "    -o, --output <FILE>    Output file ('-' for stdout), defaults to out.c next to the source",
      "        --tokens           Print the token stream instead of compiling",
      "    -v                     Sets the level of verbosity",
      "    -V, --version          Print version information"]

/-- What is said of any command line that is refused.  The wording is free: nothing is stated of it
anywhere. -/
def misuseText : String :=
  unlines
    ["error: The arguments are not valid",
      "",
      "USAGE:",
      "    tbc [OPTIONS] <FILE>",
      "",
      "For more information try --help"]

/-- The text for an error outside the program, and below it the reason, if there is one. -/
def errorText (message : String) (cause : Option FileError) : String :=
  "Error: " ++ message ++ "\n" ++
    match cause with
    | some e => "\nCaused by:\n    " ++ e.message ++ "\n"
    | none => ""

/-! ### Listing tokens -/

/-- The lines of the tokens before the first error. -/
def tokenLines (items : List Lexer.Item) : String :=
  String.join (items.map fun
    | .ok t => t.value.line ++ "\n"
    | .error _ => "")

/-- The first error, if there is one. -/
def firstError? (items : List Lexer.Item) : Option (Located LexicalError) :=
  items.findSome? fun
    | .ok _ => none
    | .error e => some e

/-- Lists the tokens of a source, and reports the first lexical error. -/
def listTokens (s : Source) : Response :=
  let items := (Lexer.ofSource s).items
  match firstError? items with
  | none => ⟨0, tokenLines items, ""⟩
  | some e => ⟨1, tokenLines items, (Failure.lexical e).report.render⟩

/-! ### Compiling -/

/-- The name of the output file, next to the source, when none is asked for. -/
def defaultOutput : String := "out.c"

/-- Where the C text goes. -/
def destination (o : Options) : Destination :=
  match o.output with
  | none => .file ((Path.mk o.file).sibling defaultOutput)
  | some path => if path = "-" then .stdout else .file ⟨path⟩

/-- Whether writing to a destination would obviously replace the source. -/
def isSource (o : Options) : Destination → Bool
  | .file path => path.resembles ⟨o.file⟩
  | .stdout => false

/-- The record before a translation. -/
def openingRecord (o : Options) (d : Destination) : Log.Record :=
  ⟨.info, "Compiling " ++ o.file ++ " into " ++ d.name⟩

/-- The record after the text has been written. -/
def closingRecord (text : String) (d : Destination) : Log.Record :=
  ⟨.info, s!"Wrote {text.utf8ByteSize} bytes to {d.name}"⟩

/-- Writes the text of a translation.  `log` has been shown before. -/
def emit (o : Options) (d : Destination) (log text : String) : Session :=
  let done := log ++ Log.render o.verbosity [closingRecord text d]
  match d with
  | .stdout => .finished ⟨0, text, done⟩
  | .file path =>
    .writing path text fun
      | .ok () => .finished ⟨0, "", done⟩
      | .error e =>
        .finished ⟨1, "", log ++ errorText ("Failed to write output: " ++ path.text) (some e)⟩

/-- Compiles a source for the given destination. -/
def compile (o : Options) (d : Destination) (s : Source) : Session :=
  let t := translate s
  let log := Log.render o.verbosity (openingRecord o d :: t.log)
  match t.result with
  | .ok unit => emit o d log unit.text
  | .error f => .finished ⟨1, "", log ++ f.report.render⟩

/-- Works on a source that has been read. -/
def ofSource (o : Options) (s : Source) : Session :=
  if o.tokens then .finished (listTokens s)
  else if isSource o (destination o) then
    .finished ⟨1, "", errorText ("Refusing to overwrite source file: " ++ o.file) none⟩
  else compile o (destination o) s

/-! ### Whole sessions -/

/-- Works on a file. -/
def ofOptions (o : Options) : Session :=
  .reading ⟨o.file⟩ fun
    | .ok body => ofSource o ⟨o.file, body⟩
    | .error e =>
      .finished ⟨1, "", errorText ("Failed to read source file: " ++ o.file) (some e)⟩

end Session

namespace OptionReader

/-- The reader of the command. -/
def standard : OptionReader where
  read := .ofArguments
  helpText := Session.helpText
  versionText := Session.versionText
  misuseText _ := Session.misuseText

/-- The session of a command line. -/
def session (reader : OptionReader) (args : List String) : Session :=
  match reader.read args with
  | .help => .finished ⟨0, reader.helpText, ""⟩
  | .version => .finished ⟨0, reader.versionText, ""⟩
  | .misuse => .finished ⟨2, "", reader.misuseText args⟩
  | .run o => .ofOptions o

theorem session_of_run {reader : OptionReader} {args : List String} {o : Options}
    (h : reader.read args = .run o) : reader.session args = .ofOptions o := by
  simp only [session, h]

end OptionReader

namespace Session

/-- The session of a command line of the command. -/
def ofArguments (args : List String) : Session := OptionReader.standard.session args

/-- Carries a session out on a file tree.  Answers with the response and the tree after it. -/
def run : Session → FileTree → Response × FileTree
  | .finished r, t => (r, t)
  | .reading path resume, t => (resume (t.read path)).run t
  | .writing path text resume, t =>
    match t.write path text with
    | .ok t' => (resume (.ok ())).run t'
    | .error e => (resume (.error e)).run t

end Session

end TinyBasic
