import TinyBasic.Proofs.Grammar.Tree
import TinyBasic.Proofs.Translation.Uses

/-!
# Trees as C text

A compiler by recursion on derivation trees, beside which the actions of a tree can be put.

* `Tree.Program.lines`: the statements of a program as lines of C.
* `Tree.Program.checks`: the uses of names in the order in which they are checked, each with the
  place of its name.  `Tree.Program.uses` are the uses without the places.
* `Tree.Program.output`: the whole C text.
* `Emits as cs code`: the actions `as` make the checks `cs` and write `code` to the body.  The
  actions of every tree emit its checks and its text (`Tree.Statement.emits` and the lemmas before
  it).
-/

namespace TinyBasic

namespace Tree

variable {α : Type} {isOperator : Token.Kind → Bool} {s : TinyBasic.Statement} {b : Block}

/-- The text of a token. -/
def Leaf.text {p : Token.Kind → Prop} (l : Leaf p) : String := l.token.value.text

/-! ### Rendering -/

/-- Operands with the operators between them, each between two spaces. -/
def Series.render (operand : α → String) (x : Series isOperator α) : String :=
  operand x.first ++ String.join (x.later.map fun y => " " ++ y.1.text ++ " " ++ operand y.2)

/-- **Induction along a series**: what holds of the first operand, and is kept by every further
operator and operand, holds of the series.  It may speak of the text and the tokens so far, and of a
state that each operator and operand change. -/
theorem Series.foldl_induction {β : Type} {code : α → String} {b : β} (x : Series isOperator α)
    (tokens : α → List (Located Token)) (step : β → Leaf (isOperator ·) × α → β)
    (P : String → List (Located Token) → β → Prop)
    (hfirst : P (code x.first) (tokens x.first) b)
    (hstep : ∀ y ∈ x.later, ∀ c ts b, P c ts b →
      P (c ++ (" " ++ y.1.text ++ " " ++ code y.2)) (ts ++ y.1.token :: tokens y.2) (step b y)) :
    P (x.render code) (x.tokens tokens) (x.later.foldl step b) := by
  obtain ⟨first, later⟩ := x
  rw [Series.render, Series.tokens]
  generalize code first = c at hfirst ⊢
  generalize tokens first = ts at hfirst ⊢
  -- the operands so far take the place of the first one
  induction later generalizing c ts b with
  | nil => simpa using hfirst
  | cons y later ih =>
    have hall := ih (fun z hz => hstep z (List.mem_cons_of_mem y hz)) _ _
      (hstep y List.mem_cons_self c ts b hfirst)
    simpa [String.append_assoc] using hall

/-- What holds of all tokens of a series holds of those of its operands, and of its operators. -/
theorem Series.forall_mem {tokens : α → List (Located Token)} {P : Located Token → Prop}
    {x : Series isOperator α} (h : ∀ t ∈ x.tokens tokens, P t) :
    (∀ t ∈ tokens x.first, P t) ∧ ∀ y ∈ x.later, P y.1.token ∧ ∀ t ∈ tokens y.2, P t := by
  obtain ⟨hfirst, hlater⟩ := List.forall_mem_append.1 h
  refine ⟨hfirst, fun y hy => List.forall_mem_cons.1 fun t ht => ?_⟩
  exact hlater t (List.mem_flatMap.2 ⟨y, hy, ht⟩)

def Primary.render (p : Primary) : String := p.token.value.text

/-- A sign directly in front of its operand. -/
def Unary.render (u : Unary) : String :=
  String.join (u.sign.toList.map Leaf.text) ++ u.operand.render

def Term.render : Term → String := Series.render Unary.render

def Expression.render : Expression → String := Series.render Term.render

def Comparison.render (c : Comparison) : String := c.chain.render Expression.render

/-- The lines of C for the line of a statement. -/
def Line.lines : Line s → List String
  | .printText text => ["printf(\"" ++ text.text ++ "\\n\");"]
  | .printValue value => ["printf(\"%.2f\\n\", (float)(" ++ value.render ++ "));"]
  | .label name => [name.text ++ ":;"]
  | .goto name => ["goto " ++ name.text ++ ";"]
  | .assign name _ value => [name.text ++ " = " ++ value.render ++ ";"]
  | .input name =>
    ["if (0 == scanf(\"%f\", &" ++ name.text ++ ")) \x7b", name.text ++ " = 0;",
      "scanf(\"%*s\");", "\x7d"]

mutual

/-- The lines of C for a statement. -/
def Statement.lines : Statement → List String
  | .line _ _ l _ => l.lines
  | .block b head body _ =>
    (b.word ++ "(" ++ head.condition.render ++ ")\x7b") :: linesAll body ++ ["\x7d"]

def linesAll : List Statement → List String
  | [] => []
  | s :: ss => s.lines ++ linesAll ss

end

/-- The lines of C for the statements of a program. -/
def Program.lines (p : Program) : List String := linesAll p.statements

/-! ### Checks of names -/

/-- What the operands of a series give, from left to right. -/
def Series.gather {β : Type} (operand : α → List β) (x : Series isOperator α) : List β :=
  operand x.first ++ x.later.flatMap fun y => operand y.2

theorem Series.map_gather {β γ : Type} (f : β → γ) (operand : α → List β)
    (x : Series isOperator α) :
    (x.gather operand).map f = x.gather fun y => (operand y).map f := by
  rw [gather, List.map_append, List.map_flatMap, gather]

/-- A use of the name that a token is, at the place of the token. -/
def Leaf.check {p : Token.Kind → Prop} (l : Leaf p) (use : String → Use) : Located Use :=
  l.name.map use

def Primary.checks : Primary → List (Located Use)
  | .number _ => []
  | .variable name => [name.check .read]

def Unary.checks (u : Unary) : List (Located Use) := u.operand.checks

def Term.checks : Term → List (Located Use) := Series.gather Unary.checks

def Expression.checks : Expression → List (Located Use) := Series.gather Term.checks

def Comparison.checks (c : Comparison) : List (Located Use) := c.chain.gather Expression.checks

/-- The checks on the line of a statement.  The name that gets a value is checked after the
variables on the right have been read. -/
def Line.checks : Line s → List (Located Use)
  | .printText _ => []
  | .printValue value => value.checks
  | .label name => [name.check .label]
  | .goto name => [name.check .goto]
  | .assign name _ value => value.checks ++ [name.check .assign]
  | .input name => [name.check .assign]

mutual

def Statement.checks : Statement → List (Located Use)
  | .line _ _ l _ => l.checks
  | .block _ head body _ => head.condition.checks ++ checksAll body

def checksAll : List Statement → List (Located Use)
  | [] => []
  | s :: ss => s.checks ++ checksAll ss

end

/-- The uses of names of a program in the order in which they are checked, each with the place of
its name. -/
def Program.checks (p : Program) : List (Located Use) := checksAll p.statements

/-! ### Uses of names -/

def Primary.uses (p : Primary) : List Use := p.checks.map Located.value

def Unary.uses (u : Unary) : List Use := u.checks.map Located.value

def Expression.uses (x : Expression) : List Use := x.checks.map Located.value

def Comparison.uses (c : Comparison) : List Use := c.checks.map Located.value

def Line.uses (l : Line s) : List Use := l.checks.map Located.value

def Statement.uses (x : Statement) : List Use := x.checks.map Located.value

def usesAll (xs : List Statement) : List Use := (checksAll xs).map Located.value

/-- What a program does with its names, in the order of its text. -/
def Program.uses (p : Program) : List Use := p.checks.map Located.value

@[simp] theorem Primary.uses_variable (name : Exactly .ident) :
    (Primary.variable name).uses = [.read name.text] :=
  rfl

@[simp] theorem Unary.uses_eq (u : Unary) : u.uses = u.operand.uses := rfl

theorem Expression.uses_eq (x : Expression) : x.uses = x.gather (Series.gather Unary.uses) := by
  rw [uses, checks, Series.map_gather]
  exact congrArg x.gather (funext fun y => y.map_gather _ _)

theorem Comparison.uses_eq (c : Comparison) : c.uses = c.chain.gather Expression.uses :=
  c.chain.map_gather _ _

@[simp] theorem Line.uses_label (name : Exactly .ident) :
    (Line.label name).uses = [.label name.text] :=
  rfl

@[simp] theorem Line.uses_goto (name : Exactly .ident) :
    (Line.goto name).uses = [.goto name.text] :=
  rfl

@[simp] theorem Line.uses_assign (name : Exactly .ident) (equals : Exactly .eq)
    (value : Expression) :
    (Line.assign name equals value).uses = value.uses ++ [.assign name.text] :=
  List.map_append

@[simp] theorem Line.uses_input (name : Exactly .ident) :
    (Line.input name).uses = [.assign name.text] :=
  rfl

@[simp] theorem Statement.uses_block (head : Head b) (body : List Statement) (foot : Foot b) :
    (Statement.block b head body foot).uses = head.condition.uses ++ usesAll body :=
  List.map_append

@[simp] theorem usesAll_nil : usesAll [] = [] := rfl

@[simp] theorem usesAll_cons (x : Statement) (xs : List Statement) :
    usesAll (x :: xs) = x.uses ++ usesAll xs :=
  List.map_append

theorem Program.uses_eq (p : Program) : p.uses = usesAll p.statements := rfl

/-! ### The whole text -/

/-- The lines that every C text begins with. -/
def opening : List String := ["#include <stdio.h>", "int main(void)\x7b"]

/-- The lines that every C text ends with. -/
def ending : List String := ["return 0;", "\x7d"]

/-- The variables of a program, in the order in which they first get a value. -/
def Program.variables (p : Program) : List String := (Use.targets p.uses).eraseDups

/-- The C text of a program. -/
def Program.output (p : Program) : CUnit where
  header := unlines (opening ++ p.variables.map declaration)
  body := unlines (p.lines ++ ending)

end Tree

/-! ### Actions of trees -/

/-- The actions make the checks `cs`, write `code` to the body, and add no line of their own to the
header. -/
structure Emits (as : List Action) (cs : List (Located Use)) (code : String) : Prop where
  checks : Action.checksAll as = cs
  written : Action.writtenAll as = code
  inner : ∀ a ∈ as, a.isHeaderLine = false

namespace Emits

variable {as bs : List Action} {cs ds : List (Located Use)} {c d : String}

theorem nil : Emits [] [] "" := ⟨rfl, by simp, by simp⟩

theorem congr (h : Emits as cs c) (hcs : cs = ds) (hc : c = d) : Emits as ds d := hcs ▸ hc ▸ h

theorem append (h : Emits as cs c) (h' : Emits bs ds d) : Emits (as ++ bs) (cs ++ ds) (c ++ d) where
  checks := by rw [Action.checksAll_append, h.checks, h'.checks]
  written := by rw [Action.writtenAll_append, h.written, h'.written]
  inner a ha := (List.mem_append.1 ha).elim (h.inner a) (h'.inner a)

theorem cons {a : Action} (ha : a.isHeaderLine = false) (h : Emits as cs c) :
    Emits (a :: as) (a.check?.toList ++ cs) (a.written ++ c) where
  checks := by rw [Action.checksAll_cons, h.checks]
  written := by rw [Action.writtenAll_cons, h.written]
  inner b hb := (List.mem_cons.1 hb).elim (fun hba => hba ▸ ha) (h.inner b)

theorem flatMap {X : Type} {actions : X → List Action} {checks : X → List (Located Use)}
    {code : X → String} (h : ∀ x, Emits (actions x) (checks x) (code x)) (xs : List X) :
    Emits (xs.flatMap actions) (xs.flatMap checks) (String.join (xs.map code)) := by
  induction xs with
  | nil => simpa using nil
  | cons x xs ih => simpa using (h x).append ih

/-- The uses of names are those that are checked. -/
theorem uses (h : Emits as cs c) : Action.usesAll as = cs.map Located.value :=
  congrArg (List.map Located.value) h.checks

end Emits

namespace Tree

variable {α : Type} {isOperator : Token.Kind → Bool} {s : TinyBasic.Statement} {b : Block}

theorem emits_pasted (t : Located Token) : Emits (pasted t) [] t.value.text :=
  ⟨rfl, by simp [pasted, Action.written], by simp [pasted, Action.isHeaderLine]⟩

theorem Primary.emits (p : Primary) : Emits p.actions p.checks p.render := by
  cases p with
  | number t => exact (emits_pasted t.token).cons rfl
  | «variable» t => exact ((emits_pasted t.token).cons rfl).cons rfl

theorem Unary.emits (u : Unary) : Emits u.actions u.checks u.render := by
  obtain ⟨sign, p⟩ := u
  cases sign with
  | none => exact (p.emits.cons rfl).congr rfl (by simp [render, Action.written])
  | some l =>
    exact (((emits_pasted l.token).append p.emits).cons rfl).congr rfl
      (by simp [render, Leaf.text, Action.written])

theorem Series.emits {operand : α → List Action} {checks : α → List (Located Use)}
    {code : α → String} (h : ∀ x, Emits (operand x) (checks x) (code x)) (c : Construct)
    (x : Series isOperator α) : Emits (x.actions c operand) (x.gather checks) (x.render code) := by
  have hlater := Emits.flatMap (fun y : Leaf (isOperator ·) × α =>
    ((((emits_pasted y.1.token).append ((h y.2).cons (a := .write " ") rfl))).cons
      (a := .write " ") rfl)) x.later
  have hall := ((h x.first).append hlater).cons (a := .record c) rfl
  exact hall.congr (by simp [Series.gather, Action.check?])
    (by simp [render, Leaf.text, Action.written, String.append_assoc])

theorem Expression.emits (x : Expression) : Emits x.actions x.checks x.render :=
  Series.emits (Series.emits Unary.emits .term) .expression x

theorem Comparison.emits (c : Comparison) : Emits c.actions c.checks c.render :=
  Series.emits Expression.emits .comparison c.chain

theorem emits_pulls {X : Type} (xs : List X) : Emits (xs.map fun _ => .pull) [] "" := by
  induction xs with
  | nil => exact .nil
  | cons x xs ih => exact ih.cons rfl

theorem LineEnd.emits (n : LineEnd) : Emits n.actions [] "" :=
  ((emits_pulls n.more).cons rfl).cons rfl

theorem Line.emits (l : Line s) : Emits l.actions l.checks (unlines l.lines) := by
  cases l with
  | printText text =>
    exact ((Emits.nil.cons rfl).cons rfl).congr rfl (by simp [Action.written, lines, Leaf.text])
  | printValue x =>
    have hend := x.emits.append (Emits.nil.cons (a := .writeLine "));") rfl)
    exact (hend.cons rfl).congr (by simp [checks, Action.check?])
      (by simp [Action.written, lines, String.append_assoc])
  | label name =>
    exact (((Emits.nil.cons rfl).cons rfl).cons rfl).congr rfl
      (by simp [Action.written, lines, Leaf.text, Leaf.name])
  | goto name =>
    exact (((Emits.nil.cons rfl).cons rfl).cons rfl).congr rfl
      (by simp [Action.written, lines, Leaf.text, Leaf.name])
  | assign name _ x =>
    have hend := x.emits.append ((Emits.nil.cons (a := .writeLine ";") rfl).cons
      (a := .introduce name.name) rfl)
    exact (((hend.cons rfl).cons rfl).cons rfl).congr
      (by simp [checks, Action.check?, Leaf.check])
      (by simp [Action.written, lines, Leaf.text, Leaf.name, String.append_assoc])
  | input name =>
    exact ((((((Emits.nil.cons rfl).cons rfl).cons rfl).cons rfl).cons rfl).cons rfl).congr rfl
      (by simp [Action.written, lines, Leaf.text, Leaf.name, String.append_assoc])

theorem Head.emits (h : Head b) :
    Emits h.actions h.condition.checks (b.word ++ "(" ++ h.condition.render ++ ")\x7b" ++ "\n") := by
  have hstart := ((h.condition.emits.cons (a := .write (b.word ++ "(")) rfl).cons (a := .pull)
    rfl).cons (a := .record (.statement (.block b))) rfl
  have hend := h.ending.emits.cons (a := .pull) rfl
  exact ((hstart.append hend).append (Emits.nil.cons (a := .writeLine ")\x7b") rfl)).congr
    (by simp [Action.check?]) (by simp [Action.written, String.append_assoc])

theorem Foot.emits (f : Foot b) : Emits f.actions [] ("\x7d" ++ "\n") :=
  ((f.ending.emits.cons rfl).cons rfl).congr rfl (by simp [Action.written])

mutual

/-- **The actions of a statement make its checks and write its lines.** -/
theorem Statement.emits (x : Statement) : Emits x.actions x.checks (unlines x.lines) :=
  match x with
  | .line _ _ l n => (((l.emits.append n.emits).cons rfl).cons rfl).congr
      (by simp [Statement.checks, Action.check?]) (by simp [Action.written, Statement.lines])
  | .block _ head body foot => ((head.emits.append (emitsAll body)).append foot.emits).congr
      (by simp [Statement.checks]) (by simp [Statement.lines, String.append_assoc])

theorem emitsAll (xs : List Statement) :
    Emits (actionsAll xs) (checksAll xs) (unlines (linesAll xs)) :=
  match xs with
  | [] => Emits.nil.congr rfl (by simp [linesAll])
  | x :: xs => (x.emits.append (emitsAll xs)).congr rfl (by simp [linesAll])

end

end Tree

end TinyBasic
