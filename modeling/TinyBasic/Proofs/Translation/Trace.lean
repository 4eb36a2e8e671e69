import TinyBasic.Proofs.Translation.Violations

/-!
# The log of a translation

The records of a translation follow the derivation of its source: a record for each construct, in
front of the records of what it is made of, and records of the variables and labels where they
become known.

* `Tree.Program.walk`: the derivation in this order, with every place at which a variable gets a
  value, though only the first one of a variable is recorded.
* `Visit.kept`: what is recorded of such a walk.
* `Workspace.log_of_performAll`: what actions that are carried out add to the log, whatever has been
  recorded before.
-/

namespace TinyBasic

/-- What is met on the way through a derivation. -/
inductive Visit where
  /-- A construct begins. -/
  | construct (c : Construct)
  /-- A variable gets a value. -/
  | assign (n : Name)
  /-- A label is declared. -/
  | label (n : Name)

namespace Visit

/-- How a visit is recorded. -/
def record : Visit → Log.Record
  | .construct c => ⟨.trace, c.name⟩
  | .assign n => ⟨.debug, s!"Variable `{n.value}` introduced at {n.location}"⟩
  | .label n => ⟨.debug, s!"Label `{n.value}` declared at {n.location}"⟩

/-- The variable that gets a value. -/
def assign? : Visit → Option Name
  | .assign n => some n
  | _ => none

/-- The label that is declared. -/
def label? : Visit → Option Name
  | .label n => some n
  | _ => none

/-- The visits that are recorded when the variables `known` have got a value: all of them, but for
variables that have got one before. -/
def kept (known : List String) : List Visit → List Visit
  | [] => []
  | .assign n :: es =>
    if n.value ∈ known then kept known es else .assign n :: kept (n.value :: known) es
  | e :: es => e :: kept known es

variable {known : List String}

/-- **The variables that are recorded are those that get a value**, each where it first does. -/
theorem assigned_kept (known : List String) (es : List Visit) :
    ((kept known es).filterMap assign?).map Located.value =
      (((es.filterMap assign?).map Located.value).filter (· ∉ known)).eraseDups := by
  induction es generalizing known with
  | nil => rfl
  | cons e es ih =>
    cases e with
    | construct | label => exact ih known
    | assign n =>
      by_cases hn : n.value ∈ known
      · simp [kept, hn, assign?, ih]
      · -- the later ones of a variable are left out on both sides
        simp only [kept, hn, if_false, List.filterMap_cons, assign?, List.map_cons, ih,
          not_false_eq_true, decide_true, List.filter_cons_of_pos, List.eraseDups_cons,
          List.filter_filter]
        refine congrArg (fun p => n.value :: (List.filter p _).eraseDups) (funext fun x => ?_)
        by_cases hx : x = n.value <;> simp [hx]

/-- No declaration of a label is left out. -/
theorem labels_kept (known : List String) (es : List Visit) :
    (kept known es).filterMap label? = es.filterMap label? := by
  induction es generalizing known with
  | nil => rfl
  | cons e es ih =>
    cases e with
    | construct => exact ih known
    | label n => exact congrArg (n :: ·) (ih known)
    | assign n =>
      rw [kept]
      split
      · exact ih known
      · exact ih (n.value :: known)

end Visit

/-! ### Derivations -/

namespace Tree

variable {α : Type} {isOperator : Token.Kind → Bool} {s : TinyBasic.Statement}

def Primary.walk (p : Primary) : List Visit := [.construct (.primary p.token.value.text)]

def Unary.walk (u : Unary) : List Visit := .construct .unary :: u.operand.walk

/-- The walk through a series, as which the construct `c` is recorded. -/
def Series.walk (c : Construct) (operand : α → List Visit) (x : Series isOperator α) :
    List Visit :=
  .construct c :: operand x.first ++ x.later.flatMap fun y => operand y.2

def Term.walk : Term → List Visit := Series.walk .term Unary.walk

def Expression.walk : Expression → List Visit := Series.walk .expression Term.walk

def Comparison.walk (c : Comparison) : List Visit := c.chain.walk .comparison Expression.walk

/-- However many line feeds there are, the end of a line is recorded once. -/
def LineEnd.walk (_ : LineEnd) : List Visit := [.construct .newline]

/-- The value of a variable comes before the variable that gets it. -/
def Line.walk : Line s → List Visit
  | .printText _ => []
  | .printValue value => value.walk
  | .label name => [.label name.name]
  | .goto _ => []
  | .assign name _ value => value.walk ++ [.assign name.name]
  | .input name => [.assign name.name]

mutual

def Statement.walk : Statement → List Visit
  | .line s _ line ending => .construct (.statement s) :: line.walk ++ ending.walk
  | .block b head body foot =>
    .construct (.statement (.block b)) :: head.condition.walk ++ head.ending.walk ++
      walkAll body ++ foot.ending.walk

def walkAll : List Statement → List Visit
  | [] => []
  | x :: xs => x.walk ++ walkAll xs

end

/-- Blank lines in front of a program are not recorded. -/
def Program.walk (p : Program) : List Visit := .construct .program :: walkAll p.statements

end Tree

/-! ### Actions -/

namespace Action

/-- What an action may record. -/
def visit? : Action → Option Visit
  | .record c => some (.construct c)
  | .introduce n => some (.assign n)
  | .declare n => some (.label n)
  | _ => none

/-- What a list of actions may record, in order. -/
def visitsAll (as : List Action) : List Visit := as.filterMap visit?

@[simp] theorem visitsAll_nil : visitsAll [] = [] := rfl

@[simp] theorem visitsAll_cons (a : Action) (as : List Action) :
    visitsAll (a :: as) = a.visit?.toList ++ visitsAll as := by
  rw [visitsAll, List.filterMap_cons]
  cases a.visit? <;> rfl

@[simp] theorem visitsAll_append (as bs : List Action) :
    visitsAll (as ++ bs) = visitsAll as ++ visitsAll bs :=
  List.filterMap_append

end Action

namespace Tree

variable {α : Type} {isOperator : Token.Kind → Bool} {s : TinyBasic.Statement}

theorem Primary.visitsAll_actions (p : Primary) : Action.visitsAll p.actions = p.walk := by
  cases p <;> rfl

theorem Unary.visitsAll_actions (u : Unary) : Action.visitsAll u.actions = u.walk := by
  obtain ⟨sign, p⟩ := u
  have hp := congrArg (Visit.construct .unary :: ·) p.visitsAll_actions
  cases sign with
  | none => exact hp
  | some l => exact hp

theorem Series.visitsAll_actions {operand : α → List Action} {walk : α → List Visit}
    (h : ∀ x, Action.visitsAll (operand x) = walk x) (c : Construct) (x : Series isOperator α) :
    Action.visitsAll (x.actions c operand) = x.walk c walk := by
  obtain ⟨first, later⟩ := x
  have hlater : Action.visitsAll (later.flatMap fun y =>
      .write " " :: pasted y.1.token ++ .write " " :: operand y.2) =
        later.flatMap fun y => walk y.2 := by
    induction later with
    | nil => rfl
    | cons y later ih =>
      rw [List.flatMap_cons, List.flatMap_cons, Action.visitsAll_append, ih]
      simp [pasted, Action.visit?, h]
  rw [Series.actions, Action.visitsAll_append, Action.visitsAll_cons, hlater, h]
  rfl

theorem Expression.visitsAll_actions (x : Expression) : Action.visitsAll x.actions = x.walk :=
  Series.visitsAll_actions (Series.visitsAll_actions Unary.visitsAll_actions .term) .expression x

theorem Comparison.visitsAll_actions (c : Comparison) : Action.visitsAll c.actions = c.walk :=
  Series.visitsAll_actions Expression.visitsAll_actions .comparison c.chain

theorem visitsAll_pulls (xs : List α) : Action.visitsAll (xs.map fun _ => .pull) = [] := by
  induction xs with
  | nil => rfl
  | cons x xs ih => exact ih

theorem LineEnd.visitsAll_actions (n : LineEnd) : Action.visitsAll n.actions = n.walk :=
  congrArg (Visit.construct .newline :: ·) (visitsAll_pulls n.more)

theorem Line.visitsAll_actions (l : Line s) : Action.visitsAll l.actions = l.walk := by
  cases l with
  | printValue x => simp [actions, walk, Action.visit?, x.visitsAll_actions]
  | assign name equals x => simp [actions, walk, Action.visit?, x.visitsAll_actions]
  | _ => rfl

mutual

theorem Statement.visitsAll_actions (x : Statement) : Action.visitsAll x.actions = x.walk :=
  match x with
  | .line _ _ l n => by
    simp [Statement.actions, Statement.walk, Action.visit?, l.visitsAll_actions,
      n.visitsAll_actions]
  | .block _ head body foot => by
    simp [Statement.actions, Statement.walk, Head.actions, Foot.actions, Action.visit?,
      head.condition.visitsAll_actions, LineEnd.visitsAll_actions, visitsAll_actionsAll body]

theorem visitsAll_actionsAll (xs : List Statement) :
    Action.visitsAll (actionsAll xs) = walkAll xs :=
  match xs with
  | [] => rfl
  | x :: xs => by
    rw [actionsAll, walkAll, Action.visitsAll_append, x.visitsAll_actions,
      visitsAll_actionsAll xs]

end

/-- **What the actions of a program may record is met in the same order on the way through it.** -/
theorem Program.visitsAll_actions (p : Program) : Action.visitsAll p.actions = p.walk := by
  rw [Program.actions, Action.visitsAll_append, Action.visitsAll_append, visitsAll_actionsAll]
  simp only [Action.visitsAll_cons, Action.visitsAll_nil, visitsAll_pulls, Action.visit?,
    Option.toList_some, Option.toList_none, List.append_nil]
  rfl

end Tree

namespace Action

/-- The values that are given are uses of names. -/
theorem assigned_visitsAll (as : List Action) :
    ((visitsAll as).filterMap Visit.assign?).map Located.value = Use.targets (usesAll as) := by
  induction as with
  | nil => rfl
  | cons a as ih =>
    cases a <;> simp [List.filterMap_cons, visit?, Visit.assign?, use?, check?, Use.target?, ih]

/-- The labels that are declared are uses of names. -/
theorem labels_visitsAll (as : List Action) :
    ((visitsAll as).filterMap Visit.label?).map Located.value = Use.labels (usesAll as) := by
  induction as with
  | nil => rfl
  | cons a as ih =>
    cases a <;> simp [List.filterMap_cons, visit?, Visit.label?, use?, check?, Use.label?, ih]

end Action

namespace Tree

theorem Program.usesAll_actions (p : Program) : Action.usesAll p.actions = p.uses :=
  p.emits.uses

theorem Program.assigned_walk (p : Program) :
    (p.walk.filterMap Visit.assign?).map Located.value = Use.targets p.uses := by
  rw [← p.visitsAll_actions, Action.assigned_visitsAll, p.usesAll_actions]

theorem Program.labels_walk (p : Program) :
    (p.walk.filterMap Visit.label?).map Located.value = Use.labels p.uses := by
  rw [← p.visitsAll_actions, Action.labels_visitsAll, p.usesAll_actions]

/-- **The variables of a program are those that are recorded**, in the same order. -/
theorem Program.assigned_kept_walk (p : Program) :
    ((Visit.kept [] p.walk).filterMap Visit.assign?).map Located.value = p.variables := by
  rw [Visit.assigned_kept, p.assigned_walk, Program.variables, List.filter_eq_self.2 (by simp)]

end Tree

open TinyBasic.Tree

namespace Workspace

variable {w w' : Workspace} {a : Action} {as : List Action}

/-- **What has been recorded, and what will be, stay the same** when an action is carried out. -/
theorem log_of_perform (h : a.perform w = .ok w') (es : List Visit) :
    w'.log.toList ++ (Visit.kept w'.scope.assigned es).map Visit.record =
      w.log.toList ++
        (Visit.kept w.scope.assigned (a.visit?.toList ++ es)).map Visit.record := by
  cases a with
  | pull | write | writeLine | headerLine =>
    obtain rfl := Except.ok.inj h
    rfl
  | record c =>
    obtain rfl := Except.ok.inj h
    simp [note, Action.visit?, Visit.kept, Visit.record]
  | introduce n =>
    obtain ⟨-, rfl⟩ := perform_introduce_eq_ok_iff.1 h
    by_cases hn : n.value ∈ w.scope.assigned
    · simp [Action.visit?, Visit.kept, hn]
    · simp [Action.visit?, Visit.kept, Visit.record, hn, note, mapOutput]
  | read n =>
    obtain ⟨-, rfl⟩ := perform_read_eq_ok_iff.1 h
    rfl
  | declare n =>
    obtain ⟨-, rfl⟩ := perform_declare_eq_ok_iff.1 h
    simp [note, Action.visit?, Visit.kept, Visit.record]
  | jump n =>
    obtain ⟨-, rfl⟩ := perform_jump_eq_ok_iff.1 h
    rfl

/-- **What actions that are carried out add to the log.** -/
theorem log_of_performAll (h : w.performAll as = (w', none)) :
    w'.log.toList = w.log.toList ++
      (Visit.kept w.scope.assigned (Action.visitsAll as)).map Visit.record := by
  induction as generalizing w with
  | nil =>
    obtain rfl : w = w' := (Prod.mk.inj h).1
    simp [Visit.kept]
  | cons a as ih =>
    obtain ⟨w₁, ha, h⟩ := performAll_cons_eq_none_iff.1 h
    rw [Action.visitsAll_cons, ← log_of_perform ha, ih h]

end Workspace

theorem Translation.log_ofScript {script : Script} {w w' : Workspace}
    (h : w.performAll script.actions = (w', none)) :
    (ofScript script w).log = w'.log.toList := by
  rw [ofScript, h]

variable {s : Source} {base u : CUnit}

/-- **The log is the way through the derivation.**  The records of a source that is translated are
those of the constructs of its derivation, each in front of what it is made of, among which a
variable is recorded where it first gets a value and a label where it is declared, with the place of
its name.  The variables that are recorded are those that the header declares, in the same order. -/
theorem log_follows_derivation (h : (translateOnto base s).result = .ok u) :
    ∃ p : Program, (∀ q : Program, q.IsOf s ↔ q = p) ∧
      (translateOnto base s).log = (Visit.kept [] p.walk).map Visit.record ∧
      u.header = base.header ++ unlines (["#include <stdio.h>", "int main(void)\x7b"] ++
        ((Visit.kept [] p.walk).filterMap Visit.assign?).map fun n =>
          "float " ++ n.value ++ ";") ∧
      ((Visit.kept [] p.walk).filterMap Visit.label?).map Located.value = Use.labels p.uses := by
  obtain ⟨hread, w, hw, -, rfl⟩ := Translation.ofScript_eq_ok_iff.1 h
  obtain ⟨p, hp⟩ := Script.exists_isOf hread
  have hunique : ∀ q : Program, q.IsOf s ↔ q = p :=
    fun q => ⟨fun hq => hq.unique hp, fun hq => hq ▸ hp⟩
  rw [Script.ofSource_eq hp] at hw
  have hlog := Workspace.log_of_performAll hw
  have hheader := (Workspace.shows_of_performAll_program hw).header
  have hscript : Script.ofSource s = ⟨.pull :: .pull :: p.actions, .ok ()⟩ := Script.ofSource_eq hp
  refine ⟨p, hunique, ?_, ?_, ?_⟩
  · rw [translateOnto, hscript, Translation.log_ofScript hw, hlog]
    exact congrArg (fun es => (Visit.kept [] es).map Visit.record) p.visitsAll_actions
  · rw [hheader, ← Program.variables, ← p.assigned_kept_walk, List.map_map]
    rfl
  · rw [Visit.labels_kept, p.labels_walk]

/-- A program with blank lines, and a variable that gets a value twice. -/
def twice : Source := ⟨"twice", "\nLET m = -1\n\nINPUT m\nLABEL end\n"⟩

/-- Its text in C. -/
def twiceOutput : CUnit where
  header := "#include <stdio.h>\nint main(void)\x7b\nfloat m;\n"
  body := "m = -1;\nif (0 == scanf(\"%f\", &m)) \x7b\nm = 0;\nscanf(\"%*s\");\n\x7d\nend:;\n" ++
    "return 0;\n\x7d\n"

theorem log_follows_derivation_twice :
    (translateOnto .empty twice).result = .ok twiceOutput ∧
    (translateOnto .empty twice).log =
      [⟨.trace, "PROGRAM"⟩, ⟨.trace, "STATEMENT-LET"⟩, ⟨.trace, "EXPRESSION"⟩, ⟨.trace, "TERM"⟩,
        ⟨.trace, "UNARY"⟩, ⟨.trace, "PRIMARY (1)"⟩,
        ⟨.debug, "Variable `m` introduced at twice:2:5"⟩, ⟨.trace, "NEWLINE"⟩,
        ⟨.trace, "STATEMENT-INPUT"⟩, ⟨.trace, "NEWLINE"⟩, ⟨.trace, "STATEMENT-LABEL"⟩,
        ⟨.debug, "Label `end` declared at twice:[5:7-5:9]"⟩, ⟨.trace, "NEWLINE"⟩] ∧
    ∃ p : Program, (∀ q : Program, q.IsOf twice ↔ q = p) ∧
      (translateOnto .empty twice).log = (Visit.kept [] p.walk).map Visit.record ∧
      twiceOutput.header = CUnit.empty.header ++
        unlines (["#include <stdio.h>", "int main(void)\x7b"] ++
          ((Visit.kept [] p.walk).filterMap Visit.assign?).map fun n =>
            "float " ++ n.value ++ ";") ∧
      ((Visit.kept [] p.walk).filterMap Visit.label?).map Located.value = Use.labels p.uses := by
  have hresult : (translateOnto .empty twice).result = .ok twiceOutput := by decide +kernel
  exact ⟨hresult, by decide +kernel, log_follows_derivation hresult⟩

end TinyBasic
