/-!
# Invocations

`Invocation.ofArguments` reads a command line.  The arguments are taken from left to right into a
`Tally` (`Tally.take`).

* Asking for help or for the version ends the reading at once, and so does an argument that cannot
  be right whatever follows: an unknown option, a value for an option that takes none, a second
  file.
* What is wrong only when all arguments are known is found at the end (`Tally.verdict`): no file,
  an output without a value, an option given twice that is not to be repeated.
-/

namespace TinyBasic

/-- What a run is asked to do with a file. -/
structure Options where
  /-- The path of the source file. -/
  file : String
  /-- The output that was asked for, if any. -/
  output : Option String
  /-- Whether the tokens are to be listed instead of compiling. -/
  tokens : Bool
  /-- How many log levels are to be shown. -/
  verbosity : Nat
  deriving DecidableEq

/-- What a command line asks for. -/
inductive Invocation where
  /-- The description of the command. -/
  | help
  /-- The version of the command. -/
  | version
  /-- Nothing that the command knows. -/
  | misuse
  /-- Work on a file. -/
  | run (o : Options)
  deriving DecidableEq

/-- One argument, read by itself. -/
inductive Argument where
  /-- Two dashes, after which there are no options. -/
  | endOfOptions
  /-- An option of several letters, and the value after its equals sign. -/
  | long (name : String) (value : Option String)
  /-- Options of one letter each. -/
  | short (letters : List Char)
  /-- Anything else. -/
  | plain (text : String)
  deriving DecidableEq

/-- Reads one argument.  A dash alone is no option. -/
def Argument.ofString (arg : String) : Argument :=
  match arg.toList with
  | ['-', '-'] => .endOfOptions
  | '-' :: '-' :: text =>
    let name := String.ofList (text.takeWhile (· != '='))
    match text.dropWhile (· != '=') with
    | [] => .long name none
    | _ :: value => .long name (some (String.ofList value))
  | '-' :: c :: letters => .short (c :: letters)
  | _ => .plain arg

/-- What has been seen of a command line. -/
structure Tally where
  /-- The file. -/
  file : Option String
  /-- The outputs, the latest first, each with its value unless that is missing. -/
  outputs : List (Option String)
  /-- Whether the next argument can be the value of the latest output. -/
  isWaiting : Bool
  /-- Whether all further arguments are files. -/
  onlyFiles : Bool
  /-- How often the tokens were asked for. -/
  tokens : Nat
  /-- How often output without colours was asked for.  There are none, so it changes nothing. -/
  plain : Nat
  /-- How often more log levels were asked for. -/
  verbosity : Nat

namespace Tally

/-- The tally of no argument. -/
def empty : Tally := ⟨none, [], false, false, 0, 0, 0⟩

/-- Adds a file, of which there can be only one. -/
def addFile (t : Tally) (path : String) : Except Invocation Tally :=
  if t.file.isSome then .error .misuse else .ok { t with file := some path }

/-- Adds an output with its value. -/
def addOutput (t : Tally) (value : String) : Tally :=
  { t with outputs := some value :: t.outputs }

/-- Adds an output whose value can be the next argument. -/
def awaitOutput (t : Tally) : Tally :=
  { t with outputs := none :: t.outputs, isWaiting := true }

/-- Gives the latest output its value. -/
def supplyOutput (t : Tally) (value : String) : Tally :=
  { t with outputs := some value :: t.outputs.tail, isWaiting := false }

/-- Takes options of one letter.  What stands after the letter for the output is its value, less
one equals sign at the front. -/
def takeLetters (t : Tally) : List Char → Except Invocation Tally
  | [] => .ok t
  | c :: cs =>
    if c = 'v' then { t with verbosity := t.verbosity + 1 }.takeLetters cs
    else if c = 'h' then .error .help
    else if c = 'V' then .error .version
    else if c = 'o' then
      match cs with
      | [] => .ok t.awaitOutput
      | '=' :: value => .ok (t.addOutput (String.ofList value))
      | value => .ok (t.addOutput (String.ofList value))
    else .error .misuse

/-- Takes an option of several letters. -/
def takeLong (t : Tally) (name : String) (value : Option String) : Except Invocation Tally :=
  match name, value with
  | "output", some value => .ok (t.addOutput value)
  | "output", none => .ok t.awaitOutput
  | "tokens", none => .ok { t with tokens := t.tokens + 1 }
  | "no-color", none => .ok { t with plain := t.plain + 1 }
  | "help", none => .error .help
  | "version", none => .error .version
  | _, _ => .error .misuse

/-- Takes one argument. -/
def take (t : Tally) (arg : String) : Except Invocation Tally :=
  if t.onlyFiles then t.addFile arg
  else
    match Argument.ofString arg with
    | .plain text => if t.isWaiting then .ok (t.supplyOutput text) else t.addFile text
    | .short letters => { t with isWaiting := false }.takeLetters letters
    | .long name value => { t with isWaiting := false }.takeLong name value
    | .endOfOptions => .ok { t with isWaiting := false, onlyFiles := true }

/-- What is asked for when all arguments have been seen. -/
def verdict (t : Tally) : Invocation :=
  if t.tokens ≤ 1 ∧ t.plain ≤ 1 then
    match t.file, t.outputs with
    | some file, [] => .run ⟨file, none, t.tokens == 1, t.verbosity⟩
    | some file, [some output] => .run ⟨file, some output, t.tokens == 1, t.verbosity⟩
    | _, _ => .misuse
  else .misuse

end Tally

/-- Reads a command line. -/
def Invocation.ofArguments (args : List String) : Invocation :=
  match args.foldlM Tally.take .empty with
  | .ok t => t.verdict
  | .error i => i

end TinyBasic
