import Mathlib.Data.List.Forall2
import TinyBasic.Proofs.Grammar.Parallel
import TinyBasic.Translation

/-!
# Alike scripts have alike translations

What is checked and what is written depends on names and not on where they stand, so actions that
are alike (`Action.Alike`), carried out on workspaces that are alike, either succeed on both or fail
on both with the same error, at places that are alike (`Workspace.Alike.perform`).  By induction the
same holds of lists of actions, whatever tokens are asked for in between
(`Workspace.Alike.performAll`).

Two scripts of alike actions that end alike are thus translated to the same text, or rejected with
the same error (`Translation.alike_ofScript`).
-/

namespace TinyBasic

variable {α β γ δ κ : Type} {key : Location → κ}

/-! ### Errors -/

/-- The same error of the same phase, at places of which `key` is the same. -/
inductive Failure.Alike (key : Location → κ) : Failure → Failure → Prop
  | lexical {e e' : Located LexicalError} (h : e.Alike key e') :
    Alike key (.lexical e) (.lexical e')
  | syntactic {e e' : Located SyntaxError} (h : e.Alike key e') :
    Alike key (.syntactic e) (.syntactic e')
  | semantic {e e' : Located ScopeError} (h : e.Alike key e') :
    Alike key (.semantic e) (.semantic e')

theorem Failure.Alike.kind_eq {f g : Failure} (h : f.Alike key g) : f.kind = g.kind := by
  cases h <;> rfl

theorem Failure.Alike.message_eq {f g : Failure} (h : f.Alike key g) : f.message = g.message := by
  cases h with
  | lexical h => exact congrArg LexicalError.message h.value
  | syntactic h => exact congrArg SyntaxError.message h.value
  | semantic h => exact congrArg ScopeError.message h.value

/-- Two answers of a check: values that `A` relates, or the same error. -/
inductive CheckedAlike (key : Location → κ) (A : α → β → Prop) :
    Except (Located ScopeError) α → Except (Located ScopeError) β → Prop
  | ok {a : α} {b : β} (h : A a b) : CheckedAlike key A (.ok a) (.ok b)
  | error {e e' : Located ScopeError} (h : e.Alike key e') :
    CheckedAlike key A (.error e) (.error e')

theorem CheckedAlike.map {A : α → β → Prop} {B : γ → δ → Prop} {f : α → γ} {g : β → δ}
    {r : Except (Located ScopeError) α} {r' : Except (Located ScopeError) β}
    (h : CheckedAlike key A r r') (hf : ∀ a b, A a b → B (f a) (g b)) :
    CheckedAlike key B (r.map f) (r'.map g) := by
  cases h with
  | ok h => exact .ok (hf _ _ h)
  | error h => exact .error h

/-! ### Scopes -/

namespace Scope

variable {s s' : Scope} {m n : Name}

/-- The same names in scope, and jumps from places of which `key` is the same. -/
structure Alike (key : Location → κ) (s s' : Scope) : Prop where
  assigned : s.assigned = s'.assigned
  labels : s.labels = s'.labels
  jumps : List.Forall₂ (Located.Alike key) s.jumps s'.jumps

theorem alike_empty : Alike key empty empty := ⟨rfl, rfl, .nil⟩

theorem checkedAlike_failure {A : α → β → Prop} (h : m.Alike key n) (e : String → ScopeError) :
    CheckedAlike key A (failure e m) (failure e n) :=
  .error (h.map e)

theorem Alike.introduce (hs : s.Alike key s') (h : m.Alike key n) :
    CheckedAlike key (fun r r' => r.1 = r'.1 ∧ r.2.Alike key r'.2) (s.introduce m)
      (s'.introduce n) := by
  unfold Scope.introduce
  rw [hs.assigned, h.value]
  split
  · exact checkedAlike_failure h _
  · split
    · exact .ok ⟨rfl, hs⟩
    · exact .ok ⟨rfl, rfl, hs.labels, hs.jumps⟩

theorem Alike.read (hs : s.Alike key s') (h : m.Alike key n) :
    CheckedAlike key (fun _ _ => True) (s.read m) (s'.read n) := by
  unfold Scope.read
  rw [hs.assigned, h.value]
  split
  · exact .ok trivial
  · exact checkedAlike_failure h _

theorem Alike.declare (hs : s.Alike key s') (h : m.Alike key n) :
    CheckedAlike key (Alike key) (s.declare m) (s'.declare n) := by
  unfold Scope.declare
  rw [hs.labels, h.value]
  split
  · exact checkedAlike_failure h _
  · split
    · exact checkedAlike_failure h _
    · exact .ok ⟨hs.assigned, rfl, hs.jumps⟩

theorem Alike.jump (hs : s.Alike key s') (h : m.Alike key n) :
    CheckedAlike key (Alike key) (s.jump m) (s'.jump n) := by
  unfold Scope.jump
  rw [h.value]
  split
  · exact checkedAlike_failure h _
  · exact .ok ⟨hs.assigned, hs.labels, .cons h hs.jumps⟩

/-- What is found first in two lists whose elements are alike. -/
theorem find?_alike {ms ns : List Name} (h : List.Forall₂ (Located.Alike key) ms ns)
    (p : String → Bool) :
    (ms.find? (p ·.value) = none ∧ ns.find? (p ·.value) = none) ∨
      ∃ m n, ms.find? (p ·.value) = some m ∧ ns.find? (p ·.value) = some n ∧ m.Alike key n := by
  induction h with
  | nil => exact .inl ⟨rfl, rfl⟩
  | @cons m n ms ns h _ ih =>
    by_cases hp : p m.value = true
    · exact .inr ⟨m, n, List.find?_cons_of_pos hp, List.find?_cons_of_pos (h.value ▸ hp), h⟩
    · have hp' : ¬ p n.value = true := h.value ▸ hp
      simpa [hp, hp'] using ih

theorem Alike.finish (hs : s.Alike key s') :
    CheckedAlike key (fun _ _ => True) s.finish s'.finish := by
  unfold Scope.finish
  rw [hs.labels]
  obtain ⟨hm, hn⟩ | ⟨m, n, hm, hn, h⟩ := find?_alike (List.rel_reverse hs.jumps)
    fun x => !s'.labels.contains x
  · rw [hm, hn]
    exact .ok trivial
  · rw [hm, hn]
    exact checkedAlike_failure h _

end Scope

/-! ### Workspaces -/

namespace Workspace

variable {w w' : Workspace} {a b : Action} {as bs : List Action}

/-- Scopes that are alike, and the same text. -/
structure Alike (key : Location → κ) (w w' : Workspace) : Prop where
  scope : w.scope.Alike key w'.scope
  output : w.output = w'.output

theorem Alike.mapOutput (h : w.Alike key w') (f : CUnit → CUnit) :
    (w.mapOutput f).Alike key (w'.mapOutput f) :=
  ⟨h.scope, congrArg f h.output⟩

theorem Alike.perform_introduce {m n : Name} (hw : w.Alike key w') (h : m.Alike key n) :
    CheckedAlike key (Alike key) ((Action.introduce m).perform w)
      ((Action.introduce n).perform w') := by
  have hscope := hw.scope.introduce h
  simp only [Action.perform]
  generalize w.scope.introduce m = r at hscope ⊢
  generalize w'.scope.introduce n = r' at hscope ⊢
  cases hscope with
  | error he => exact .error he
  | @ok r r' hr =>
    obtain ⟨new, s⟩ := r
    obtain ⟨new', s'⟩ := r'
    obtain ⟨rfl, hs⟩ := hr
    cases new with
    | false => exact .ok ⟨hs, hw.output⟩
    | true =>
      refine .ok ⟨hs, ?_⟩
      change w.output.headerLine _ = w'.output.headerLine _
      rw [hw.output, h.value]

theorem Alike.perform_read {m n : Name} (hw : w.Alike key w') (h : m.Alike key n) :
    CheckedAlike key (Alike key) ((Action.read m).perform w) ((Action.read n).perform w') :=
  (hw.scope.read h).map fun _ _ _ => hw

theorem Alike.perform_declare {m n : Name} (hw : w.Alike key w') (h : m.Alike key n) :
    CheckedAlike key (Alike key) ((Action.declare m).perform w) ((Action.declare n).perform w') :=
  (hw.scope.declare h).map fun _ _ hs => ⟨hs, hw.output⟩

theorem Alike.perform_jump {m n : Name} (hw : w.Alike key w') (h : m.Alike key n) :
    CheckedAlike key (Alike key) ((Action.jump m).perform w) ((Action.jump n).perform w') :=
  (hw.scope.jump h).map fun _ _ hs => ⟨hs, hw.output⟩

/-- **Actions that are alike either both succeed or both fail**, with the same error. -/
theorem Alike.perform (hw : w.Alike key w') (h : a.Alike key b) :
    CheckedAlike key (Alike key) (a.perform w) (b.perform w') := by
  cases h with
  | introduce h => exact hw.perform_introduce h
  | read h => exact hw.perform_read h
  | declare h => exact hw.perform_declare h
  | jump h => exact hw.perform_jump h
  | same =>
    cases a with
    | pull | record => exact .ok ⟨hw.scope, hw.output⟩
    | write | writeLine | headerLine => exact .ok (hw.mapOutput _)
    | introduce n => exact hw.perform_introduce ⟨rfl, rfl⟩
    | read n => exact hw.perform_read ⟨rfl, rfl⟩
    | declare n => exact hw.perform_declare ⟨rfl, rfl⟩
    | jump n => exact hw.perform_jump ⟨rfl, rfl⟩

/-- Two lists of actions that were carried out to the end, or up to the same error. -/
inductive RunAlike (key : Location → κ) :
    Workspace × Option (Located ScopeError) → Workspace × Option (Located ScopeError) → Prop
  | done {w w' : Workspace} (h : w.Alike key w') : RunAlike key (w, none) (w', none)
  | failed {w w' : Workspace} {e e' : Located ScopeError} (h : e.Alike key e') :
    RunAlike key (w, some e) (w', some e')

theorem performAll_pull (w : Workspace) (as : List Action) :
    w.performAll (.pull :: as) = { w with pulls := w.pulls + 1 }.performAll as :=
  rfl

/-- **So do lists of actions that are alike.** -/
theorem Alike.performAll (hw : w.Alike key w') (h : Action.AllAlike key as bs) :
    RunAlike key (w.performAll as) (w'.performAll bs) := by
  induction h generalizing w w' with
  | nil => exact .done hw
  | @cons a b as bs h _ ih =>
    have hstep := hw.perform h
    cases ha : a.perform w with
    | ok w₁ =>
      cases hb : b.perform w' with
      | ok w₁' =>
        rw [ha, hb] at hstep
        rw [performAll_cons_of_ok ha, performAll_cons_of_ok hb]
        cases hstep with
        | ok h₁ => exact ih h₁
      | error e => rw [ha, hb] at hstep; cases hstep
    | error e =>
      cases hb : b.perform w' with
      | ok w₁' => rw [ha, hb] at hstep; cases hstep
      | error e' =>
        rw [ha, hb] at hstep
        rw [performAll_cons_of_error ha, performAll_cons_of_error hb]
        cases hstep with
        | error he => exact .failed he
  | @pull_left as bs _ ih =>
    rw [performAll_pull]
    exact ih ⟨hw.scope, hw.output⟩
  | @pull_right as bs _ ih =>
    rw [performAll_pull]
    exact ih ⟨hw.scope, hw.output⟩

theorem alike_onto (base : CUnit) : (onto base).Alike key (onto base) :=
  ⟨Scope.alike_empty, rfl⟩

end Workspace

/-! ### Translations -/

/-- Two scripts of actions that are alike, which end alike. -/
inductive Script.Alike (key : Location → κ) : Script → Script → Prop
  | accepted {as bs : List Action} (hs : Action.AllAlike key as bs) :
    Alike key ⟨as, .ok ()⟩ ⟨bs, .ok ()⟩
  | rejected {as bs : List Action} {f g : Failure} (hs : Action.AllAlike key as bs)
    (h : f.Alike key g) : Alike key ⟨as, .error f⟩ ⟨bs, .error g⟩

namespace Translation

variable {x y : Script} {w w' : Workspace}

/-- **Scripts that are alike** are translated to the same text, or rejected with the same error. -/
theorem alike_ofScript (hw : w.Alike key w') (h : x.Alike key y) :
    (∃ u, (ofScript x w).result = .ok u ∧ (ofScript y w').result = .ok u) ∨
      ∃ f g, (ofScript x w).result = .error f ∧ (ofScript y w').result = .error g ∧
        f.Alike key g := by
  cases h with
  | @accepted as bs hs =>
    have hrun := hw.performAll hs
    unfold ofScript
    dsimp only
    generalize w.performAll as = r at hrun ⊢
    generalize w'.performAll bs = r' at hrun ⊢
    cases hrun with
    | failed he => exact .inr ⟨_, _, rfl, rfl, .semantic he⟩
    | @done w₁ w₁' h₁ =>
      have hfinish := h₁.scope.finish
      dsimp only
      generalize w₁.scope.finish = r at hfinish ⊢
      generalize w₁'.scope.finish = r' at hfinish ⊢
      cases hfinish with
      | ok => exact .inl ⟨_, rfl, by rw [h₁.output]⟩
      | error he => exact .inr ⟨_, _, rfl, rfl, .semantic he⟩
  | @rejected as bs f g hs hfg =>
    have hrun := hw.performAll hs
    unfold ofScript
    dsimp only
    generalize w.performAll as = r at hrun ⊢
    generalize w'.performAll bs = r' at hrun ⊢
    cases hrun with
    | failed he => exact .inr ⟨_, _, rfl, rfl, .semantic he⟩
    | done _ => exact .inr ⟨_, _, rfl, rfl, hfg⟩

/-- A script that comes to a lexical error, beside one that asks for the same before that. -/
theorem alike_ofScript_of_lexical {as bs cs : List Action} {e : Located LexicalError}
    (hw : w.Alike key w') (hs : Action.AllAlike key as bs)
    (hx : x = ⟨as ++ [.pull], .error (.lexical e)⟩) (hy : y.actions = bs ++ cs) :
    (ofScript x w).result = .error (.lexical e) ∨
      ∃ e₁ e₂, (ofScript x w).result = .error (.semantic e₁) ∧
        (ofScript y w').result = .error (.semantic e₂) ∧ e₁.Alike key e₂ := by
  subst hx
  have hrun := hw.performAll hs
  unfold ofScript
  rw [hy]
  simp only [Workspace.performAll_append]
  generalize w.performAll as = r at hrun ⊢
  generalize w'.performAll bs = r' at hrun ⊢
  cases hrun with
  | failed he => exact .inr ⟨_, _, rfl, rfl, he⟩
  | done _ => exact .inl rfl

end Translation

end TinyBasic
