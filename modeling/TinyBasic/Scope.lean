import TinyBasic.Scope.Reserved
import TinyBasic.Source

/-!
# Names in scope

A `Scope` holds the variables introduced so far, the labels declared so far, and the jumps
recorded so far in their order.  Variables and labels are separate name spaces.  Each operation
either succeeds or fails with a `ScopeError` at the name it was given, and a failure leaves the
scope as it was.  A jump may go to a label that is declared later, so jumps are settled at the
end, by `Scope.finish`.
-/

namespace TinyBasic

/-- A name together with its place in the source. -/
abbrev Name := Located String

/-- Why a name cannot be used as it is. -/
inductive ScopeError where
  /-- A variable is read that has no value yet. -/
  | undefined (name : String)
  /-- A label is declared for the second time. -/
  | duplicateLabel (name : String)
  /-- A jump goes to a label that is declared nowhere. -/
  | danglingGoto (name : String)
  /-- The name is taken in the generated text. -/
  | reserved (name : String)
  deriving DecidableEq

namespace ScopeError

/-- The text of the error. -/
def message : ScopeError → String
  | .undefined name => "Referencing variable before assignment: " ++ name
  | .duplicateLabel name => "Label already exists: " ++ name
  | .danglingGoto name => "Attempting to GOTO to undeclared label: " ++ name
  | .reserved name => "Name is reserved in generated code: " ++ name

end ScopeError

/-- The names known at some point of a program. -/
structure Scope where
  /-- The variables that have got a value, the latest first. -/
  assigned : List String
  /-- The labels declared, the latest first. -/
  labels : List String
  /-- The jumps recorded, the latest first. -/
  jumps : List Name

namespace Scope

/-- The scope at the start of a program. -/
def empty : Scope := ⟨[], [], []⟩

/-- The failure `e` at a name. -/
def failure {α : Type} (e : String → ScopeError) (name : Name) : Except (Located ScopeError) α :=
  .error (name.map e)

/-- Introduces a variable.  Answers whether it is new, and the scope after that. -/
def introduce (s : Scope) (name : Name) : Except (Located ScopeError) (Bool × Scope) :=
  if Reserved.forVariable name.value then failure .reserved name
  else if s.assigned.contains name.value then .ok (false, s)
  else .ok (true, { s with assigned := name.value :: s.assigned })

/-- Reads a variable, which must have been introduced. -/
def read (s : Scope) (name : Name) : Except (Located ScopeError) Unit :=
  if s.assigned.contains name.value then .ok () else failure .undefined name

/-- Declares a label, which must be new. -/
def declare (s : Scope) (name : Name) : Except (Located ScopeError) Scope :=
  if Reserved.forLabel name.value then failure .reserved name
  else if s.labels.contains name.value then failure .duplicateLabel name
  else .ok { s with labels := name.value :: s.labels }

/-- Records a jump to a label, declared or not. -/
def jump (s : Scope) (name : Name) : Except (Located ScopeError) Scope :=
  if Reserved.forLabel name.value then failure .reserved name
  else .ok { s with jumps := name :: s.jumps }

/-- Settles the jumps: the first one to a label that was never declared is a failure. -/
def finish (s : Scope) : Except (Located ScopeError) Unit :=
  match s.jumps.reverse.find? fun name => !s.labels.contains name.value with
  | some name => failure .danglingGoto name
  | none => .ok ()

/-- **The jumps are settled exactly when each goes to a declared label.** -/
theorem finish_eq_ok_iff (s : Scope) :
    s.finish = .ok () ↔ ∀ name ∈ s.jumps, name.value ∈ s.labels := by
  unfold finish
  split
  · rename_i name h
    have hm := List.mem_of_find?_eq_some h
    have hp := List.find?_some h
    simp only [failure, reduceCtorEq, false_iff]
    intro hall
    simp [hall name (List.mem_reverse.1 hm)] at hp
  · rename_i h
    simpa [List.find?_eq_none] using h

end Scope

end TinyBasic
