import TinyBasic.Grammar.Program
import TinyBasic.Token.Stream

/-!
# Translations

* `Script` is all that the grammar asks for while it reads a source, and how that ended.
* `Translation` is what comes of carrying out the script: the records made, the tokens asked for,
  and the C text or the failure.  The first check that fails stops the script, so it also comes
  before a lexical or syntactic failure that the script ends with.  Jumps are settled last, when
  everything else has succeeded.
-/

namespace TinyBasic

/-- What the grammar asks for, in order, and how its reading ended. -/
structure Script where
  /-- The actions up to the end or the failure. -/
  actions : List Action
  /-- The lexical or syntactic failure, if there was one. -/
  ending : Except Failure Unit

namespace Script

/-- The script of the text in front of a lexer.  Two tokens are asked for before the grammar
looks at the first. -/
def ofLexer (l : Lexer) : Script :=
  match l.next with
  | (.error e, _) => ⟨[.pull], .error (.lexical e)⟩
  | (.ok current, l) =>
    match l.next with
    | (.error e, _) => ⟨[.pull, .pull], .error (.lexical e)⟩
    | (.ok ahead, l) =>
      let o := Grammar.program.run ⟨l, current, ahead⟩
      ⟨.pull :: .pull :: o.actions, o.result⟩

/-- The script of a source. -/
def ofSource (s : Source) : Script := ofLexer (.ofSource s)

end Script

/-- What comes of translating a source. -/
structure Translation where
  /-- The records made, in order. -/
  log : List Log.Record
  /-- The number of tokens asked for. -/
  pulls : Nat
  /-- The C text, or why there is none. -/
  result : Except Failure CUnit

namespace Translation

/-- Carries out a script on a workspace. -/
def ofScript (script : Script) (w : Workspace) : Translation :=
  match w.performAll script.actions with
  | (w, some e) => ⟨w.log.toList, w.pulls, .error (.semantic e)⟩
  | (w, none) =>
    let result :=
      match script.ending, w.scope.finish with
      | .error e, _ => .error e
      | .ok (), .error e => .error (.semantic e)
      | .ok (), .ok () => .ok w.output
    ⟨w.log.toList, w.pulls, result⟩

end Translation

/-- Translates a source and adds the C text to `output`. -/
def translateOnto (output : CUnit) (s : Source) : Translation :=
  .ofScript (.ofSource s) (.onto output)

/-- Translates a source. -/
def translate (s : Source) : Translation := translateOnto .empty s

end TinyBasic
