import TinyBasic.CUnit
import TinyBasic.Grammar.Construct
import TinyBasic.Log
import TinyBasic.Scope

/-!
# Actions

While the grammar is being recognised it asks for `Action`s, in the order in which they are to
happen: take a token, record a construct, write text, check a name.  `Action.perform` carries one
out on a `Workspace`, and `Workspace.performAll` a list of them up to the first whose check fails.
-/

namespace TinyBasic

/-- What the grammar asks for. -/
inductive Action where
  /-- The next token is asked for. -/
  | pull
  /-- A construct begins. -/
  | record (c : Construct)
  /-- Text goes to the body. -/
  | write (code : String)
  /-- A line goes to the body. -/
  | writeLine (code : String)
  /-- A line goes to the header. -/
  | headerLine (code : String)
  /-- A variable gets a value.  It is declared in the header when it is new. -/
  | introduce (name : Name)
  /-- A variable is read. -/
  | read (name : Name)
  /-- A label is declared. -/
  | declare (name : Name)
  /-- A jump goes to a label. -/
  | jump (name : Name)

/-- What a translation works on. -/
structure Workspace where
  /-- The names known so far. -/
  scope : Scope
  /-- The text written so far. -/
  output : CUnit
  /-- The records made so far. -/
  log : Array Log.Record
  /-- The number of tokens asked for so far. -/
  pulls : Nat

namespace Workspace

/-- The workspace of a translation that adds to `output`. -/
def onto (output : CUnit) : Workspace := ⟨.empty, output, #[], 0⟩

/-- Adds a record. -/
def note (w : Workspace) (level : Log.Level) (message : String) : Workspace :=
  { w with log := w.log.push ⟨level, message⟩ }

/-- Changes the text. -/
def mapOutput (w : Workspace) (f : CUnit → CUnit) : Workspace := { w with output := f w.output }

end Workspace

namespace Action

/-- Carries out one action, unless a name cannot be used as it asks. -/
def perform (w : Workspace) : Action → Except (Located ScopeError) Workspace
  | .pull => .ok { w with pulls := w.pulls + 1 }
  | .record c => .ok (w.note .trace c.name)
  | .write code => .ok (w.mapOutput (·.write code))
  | .writeLine code => .ok (w.mapOutput (·.writeLine code))
  | .headerLine code => .ok (w.mapOutput (·.headerLine code))
  | .introduce name =>
    match w.scope.introduce name with
    | .error e => .error e
    | .ok (false, scope) => .ok { w with scope }
    | .ok (true, scope) =>
      let w := { w with scope }
      let w := w.note .debug s!"Variable `{name.value}` introduced at {name.location}"
      .ok (w.mapOutput (·.headerLine ("float " ++ name.value ++ ";")))
  | .read name => (w.scope.read name).map fun _ => w
  | .declare name =>
    (w.scope.declare name).map fun scope =>
      { w with scope }.note .debug s!"Label `{name.value}` declared at {name.location}"
  | .jump name => (w.scope.jump name).map fun scope => { w with scope }

end Action

namespace Workspace

/-- Carries out actions in order, up to the first whose check fails.  Answers with the workspace
at that point and the failure, if there was one. -/
def performAll (w : Workspace) : List Action → Workspace × Option (Located ScopeError)
  | [] => (w, none)
  | a :: as =>
    match a.perform w with
    | .ok w' => w'.performAll as
    | .error e => (w, some e)

@[simp] theorem performAll_nil (w : Workspace) : w.performAll [] = (w, none) := rfl

theorem performAll_cons_of_ok {w w' : Workspace} {a : Action} (h : a.perform w = .ok w')
    (as : List Action) : w.performAll (a :: as) = w'.performAll as := by
  simp [performAll, h]

theorem performAll_cons_of_error {w : Workspace} {a : Action} {e : Located ScopeError}
    (h : a.perform w = .error e) (as : List Action) : w.performAll (a :: as) = (w, some e) := by
  simp [performAll, h]

/-- **Two lists one after the other**: the second list starts where the first ended, and does not
start at all if a check in the first one failed. -/
theorem performAll_append (w : Workspace) (as bs : List Action) :
    w.performAll (as ++ bs) =
      match w.performAll as with
      | (w', none) => w'.performAll bs
      | (w', some e) => (w', some e) := by
  induction as generalizing w with
  | nil => rfl
  | cons a as ih =>
    cases h : a.perform w with
    | ok w' => simpa [performAll_cons_of_ok h] using ih w'
    | error e => simp [performAll_cons_of_error h]

end Workspace

end TinyBasic
