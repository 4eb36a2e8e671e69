import Mathlib.Data.Rat.Defs
import Mathlib.Algebra.Field.Rat
import TinyBasic.Proofs.Translation.Arithmetic

/-!
# Conditions in C

In the language all comparison operators are on one level, and a chain of comparisons is grouped
from left to right.  C has two levels for them: relational operators bind tighter than equality
operators.

* `Tree.Comparison.formula`: the structure that the language gives to a chain.
* `Tree.Comparison.reading`: the structure that C gives to it (`Tree.Comparison.transcribes`).
* `Tree.Comparison.reading_eq_formula_iff`: they are the same exactly when no relational operator
  comes after an equality operator.
* `Tree.Comparison.value`: what a condition means in the language, for any `Meaning` of operands and
  operators.
* `condition_structure`: what C makes of every condition in the text of a program.
-/

namespace TinyBasic

open TinyBasic.Tree

/-- An equality operator.  The other comparison operators are relational. -/
def IsEquality (op : String) : Prop := op = "==" ∨ op = "!="

instance : DecidablePred IsEquality := fun op => inferInstanceAs (Decidable (op = "==" ∨ op = "!="))

/-! ### Chains read by C -/

/-- A chain of comparisons as far as it has been read from left to right. -/
inductive Reading where
  /-- Only relational operators so far. -/
  | relational (f : Formula)
  /-- The last equality operator so far, what it is applied to on its left, and what the relational
  operators after it make. -/
  | equality (l : Formula) (op : String) (r : Formula)

namespace Reading

variable {x : Reading} {code b op : String} {ts rs : List String} {r : Formula}

/-- What has been read, as a formula. -/
def formula : Reading → Formula
  | relational f => f
  | equality l op r => .binary op l r

/-- Applies a relational operator to what comes after the last equality operator. -/
def relate (op : String) (r : Formula) : Reading → Reading
  | relational f => relational (.binary op f r)
  | equality l eq f => equality l eq (.binary op f r)

/-- Reads an operator and its right operand.  An equality operator is applied to all that comes
before. -/
def step (x : Reading) (op : String) (r : Formula) : Reading :=
  if IsEquality op then equality x.formula op r else x.relate op r

/-- `Transcribes x code ts`: C divides the text `code` into the tokens `ts`, which it reads as
`x`. -/
inductive Transcribes : Reading → String → List String → Prop
  | relational {code : String} {ts : List String} {f : Formula} : C.Transcribes 4 code ts f →
      Transcribes (relational f) code ts
  | equality {a b op : String} {ls rs : List String} {l r : Formula} : C.Transcribes 5 a ls l →
      op ∈ C.operators 4 → C.Transcribes 4 b rs r →
      Transcribes (equality l op r) (a ++ (" " ++ op ++ " " ++ b)) (ls ++ op :: rs)

theorem Transcribes.formula (h : x.Transcribes code ts) : C.Transcribes 5 code ts x.formula := by
  cases h with
  | relational h => exact h.next
  | equality hl hop hr => exact hl.operation hop hr

theorem Transcribes.relate (h : x.Transcribes code ts) (hop : op ∈ C.operators 3)
    (hr : C.Transcribes 3 b rs r) :
    (x.relate op r).Transcribes (code ++ (" " ++ op ++ " " ++ b)) (ts ++ op :: rs) := by
  cases h with
  | relational h => exact .relational (h.operation hop hr)
  | equality hl heq hinner =>
    have := Transcribes.equality hl heq (hinner.operation hop hr)
    simpa [Reading.relate, String.append_assoc] using this

/-- **One more comparison.** -/
theorem Transcribes.step (h : x.Transcribes code ts)
    (hop : if IsEquality op then op ∈ C.operators 4 else op ∈ C.operators 3)
    (hr : C.Transcribes 3 b rs r) :
    (x.step op r).Transcribes (code ++ (" " ++ op ++ " " ++ b)) (ts ++ op :: rs) := by
  unfold Reading.step
  split <;> rename_i heq
  · rw [if_pos heq] at hop
    exact .equality h.formula hop hr.next
  · rw [if_neg heq] at hop
    exact h.relate hop hr

/-- The reading has seen the operators `ops`: it holds an equality operator if there is one. -/
def Tracks : Reading → List String → Prop
  | relational _, ops => ∀ op ∈ ops, ¬ IsEquality op
  | equality _ eq _, ops => eq ∈ ops ∧ IsEquality eq

theorem Tracks.step {ops : List String} (h : x.Tracks ops) (op : String) (r : Formula) :
    (x.step op r).Tracks (ops ++ [op]) := by
  unfold Reading.step
  split <;> rename_i heq
  · exact ⟨by simp, heq⟩
  · cases x with
    | relational f => exact List.forall_mem_append.2 ⟨h, List.forall_mem_singleton.2 heq⟩
    | equality l eq f => exact ⟨List.mem_append_left _ h.1, h.2⟩

/-- **A comparison keeps the grouping from left to right** unless it is relational and comes after
an equality operator. -/
theorem Tracks.formula_step_eq_iff {ops : List String} (h : x.Tracks ops) {op : String}
    {f r : Formula} : (x.step op r).formula = .binary op f r ↔
      x.formula = f ∧ ∀ eq ∈ ops, IsEquality eq → IsEquality op := by
  unfold Reading.step
  split <;> rename_i hop
  · simp [Reading.formula, hop]
  · cases x with
    | relational g =>
      have hops : ∀ eq ∈ ops, IsEquality eq → IsEquality op :=
        fun eq heq hequality => absurd hequality (h eq heq)
      rw [and_iff_left hops]
      simp [relate, Reading.formula]
    | equality l eq g =>
      have hne : eq ≠ op := fun heq => hop (heq ▸ h.2)
      have hops : ¬ ∀ eq ∈ ops, IsEquality eq → IsEquality op := fun hops => hop (hops eq h.1 h.2)
      simp [relate, Reading.formula, hne, hops]

end Reading

namespace Tree

/-! ### The two structures -/

/-- The operators of a chain, from left to right. -/
def Comparison.operators (c : Comparison) : List String := c.chain.later.map (·.1.text)

/-- The chain grouped from left to right. -/
def Comparison.formula (c : Comparison) : Formula := c.chain.formula Expression.formula

/-- What C has read at the end of a chain. -/
def Series.reading (x : Series Token.Kind.isComparison Expression) : Reading :=
  x.later.foldl (fun r y => r.step y.1.text y.2.formula) (.relational x.first.formula)

/-- The chain as C reads it. -/
def Comparison.reading (c : Comparison) : Formula := c.chain.reading.formula

theorem Series.reading_transcribes (x : Series Token.Kind.isComparison Expression)
    (h : ∀ t ∈ x.tokens Expression.tokens, IsPlain t) :
    x.reading.Transcribes (x.render Expression.render) (lexemes (x.tokens Expression.tokens)) := by
  obtain ⟨hfirst, hlater⟩ := Series.forall_mem h
  refine x.foldl_induction Expression.tokens _ (fun c ts r => Reading.Transcribes r c (lexemes ts))
    (.relational (x.first.transcribes hfirst).next.next) ?_
  intro y hy c ts r hr
  obtain ⟨hoperator, hoperand⟩ := hlater y hy
  have hop := y.1.forall_text
    (P := fun op => if IsEquality op then op ∈ C.operators 4 else op ∈ C.operators 3)
    hoperator.spelled (fun _ h => .inr (.inr h)) (by decide)
  rw [lexemes_operation]
  exact hr.step hop (y.2.transcribes hoperand).next

/-- No relational operator comes after an equality operator. -/
def Comparison.IsSorted (c : Comparison) : Prop :=
  c.operators.Pairwise fun op op' => IsEquality op → IsEquality op'

theorem tracks_and_formula_eq_iff (f : Formula)
    (later : List (Leaf (Token.Kind.isComparison ·) × Expression)) :
    let x := later.foldl (fun r y => r.step y.1.text y.2.formula) (Reading.relational f)
    let ops := later.map (·.1.text)
    x.Tracks ops ∧ (x.formula = later.foldl (fun f y => .binary y.1.text f y.2.formula) f ↔
      ops.Pairwise fun op op' => IsEquality op → IsEquality op') := by
  -- from the right, since the last operator is the outermost one of the left grouping
  induction later using List.reverseRecOn with
  | nil => simp [Reading.Tracks, Reading.formula]
  | append_singleton later y ih =>
    obtain ⟨htracks, hiff⟩ := ih
    simp only [List.foldl_append, List.foldl_cons, List.foldl_nil, List.map_append, List.map_cons,
      List.map_nil, List.pairwise_append, List.pairwise_singleton, List.mem_singleton, forall_eq,
      true_and]
    exact ⟨htracks.step _ _, by rw [htracks.formula_step_eq_iff, hiff]⟩

/-- **C groups a chain from left to right exactly when it is sorted.** -/
theorem Comparison.reading_eq_formula_iff (c : Comparison) : c.reading = c.formula ↔ c.IsSorted :=
  (tracks_and_formula_eq_iff c.chain.first.formula c.chain.later).2

/-- **C reads a chain with its two levels.** -/
theorem Comparison.transcribes (c : Comparison) (h : ∀ t ∈ c.tokens, IsPlain t) :
    C.Transcribes 5 c.render (lexemes c.tokens) c.reading :=
  (c.chain.reading_transcribes h).formula

end Tree

/-! ### Values -/

/-- What operands and operators mean: any arithmetic, with rounding or without. -/
structure Meaning (V : Type) where
  operand : String → V
  unary : String → V → V
  binary : String → V → V → V

/-- The value of a formula. -/
def Formula.value {V : Type} (m : Meaning V) : Formula → V
  | operand s => m.operand s
  | unary op f => m.unary op (f.value m)
  | binary op l r => m.binary op (l.value m) (r.value m)

namespace Tree

variable {V X : Type} {isOperator : Token.Kind → Bool}

/-- The language computes a series from left to right. -/
def Series.value (m : Meaning V) (operand : X → V) (x : Series isOperator X) : V :=
  x.later.foldl (fun v y => m.binary y.1.text v (operand y.2)) (operand x.first)

def Unary.value (m : Meaning V) (u : Unary) : V :=
  match u.sign with
  | none => m.operand u.operand.render
  | some l => m.unary l.text (m.operand u.operand.render)

def Term.value (m : Meaning V) : Term → V := Series.value m (Unary.value m)

def Expression.value (m : Meaning V) : Expression → V := Series.value m (Term.value m)

/-- What a condition means in the language. -/
def Comparison.value (m : Meaning V) (c : Comparison) : V := c.chain.value m (Expression.value m)

theorem Series.value_formula (m : Meaning V) {formula : X → Formula} {operand : X → V}
    (h : ∀ y, (formula y).value m = operand y) (x : Series isOperator X) :
    (x.formula formula).value m = x.value m operand := by
  rw [Series.formula, Series.value, ← h]
  refine (List.foldl_hom (Formula.value m) fun f y => ?_).symm
  rw [Formula.value, h]

theorem Unary.value_formula (m : Meaning V) (u : Unary) : u.formula.value m = u.value m := by
  obtain ⟨_ | l, p⟩ := u <;> rfl

theorem Expression.value_formula (m : Meaning V) (x : Expression) :
    x.formula.value m = x.value m :=
  Series.value_formula m (Series.value_formula m (Unary.value_formula m)) x

theorem Comparison.value_formula (m : Meaning V) (c : Comparison) :
    c.formula.value m = c.value m :=
  c.chain.value_formula m (Expression.value_formula m)

end Tree

variable {s : Source} {u : CUnit}

/-- **Conditions in C.**  Every condition of a program that is translated stands on a line of the
body, where C divides it into its lexemes and gives it one structure.  That is the grouping from
left to right, which the language means, exactly when no relational operator comes after an equality
operator; and then the condition has the value that the language means, in any arithmetic. -/
theorem condition_structure (h : (translate s).result = .ok u) :
    ∃ p : Program, (∀ q : Program, q.IsOf s ↔ q = p) ∧
      ∀ c ∈ p.conditions, StandsOn c.render (CText.lines u.body) ∧
        (∀ rest out, C.Stops rest → C.Splits rest out → ∀ ts : List String,
          C.Splits (c.render.toList ++ rest) ts ↔ ts = lexemes c.tokens ++ out) ∧
        (∀ f : Formula, C.Parses (lexemes c.tokens) f ↔ f = c.reading) ∧
        (c.reading = c.formula ↔ c.IsSorted) ∧
        (c.IsSorted → ∀ (V : Type) (m : Meaning V), c.reading.value m = c.value m) := by
  obtain ⟨p, hp, hspelled, hscoped, rfl⟩ := exists_derivation h
  refine ⟨p, hp, fun c hc => ?_⟩
  have htranscribes := c.transcribes (Program.condition_isPlain hspelled hscoped hc)
  refine ⟨Program.condition_standsOn hspelled hc, ?_,
    fun f => htranscribes.parses_iff (by decide), c.reading_eq_formula_iff, fun hsorted V m => ?_⟩
  · exact fun rest out hrest hout ts => htranscribes.splits.splits_iff hrest hout
  · rw [c.reading_eq_formula_iff.2 hsorted, c.value_formula]

/-- A program whose condition has an equality operator after a relational operator. -/
def sorted : Source := ⟨"sorted", "LET a = 1\nWHILE a < 2 != 0 REPEAT\nLET a = a + 1\nENDWHILE\n"⟩

/-- Its text in C. -/
def sortedOutput : CUnit where
  header := "#include <stdio.h>\nint main(void)\x7b\nfloat a;\n"
  body := "a = 1;\nwhile(a < 2 != 0)\x7b\na = a + 1;\n\x7d\nreturn 0;\n\x7d\n"

theorem condition_structure_sorted :
    (translate sorted).result = .ok sortedOutput ∧
    ∃ p : Program, (∀ q : Program, q.IsOf sorted ↔ q = p) ∧
      ∀ c ∈ p.conditions, StandsOn c.render (CText.lines sortedOutput.body) ∧
        (∀ rest out, C.Stops rest → C.Splits rest out → ∀ ts : List String,
          C.Splits (c.render.toList ++ rest) ts ↔ ts = lexemes c.tokens ++ out) ∧
        (∀ f : Formula, C.Parses (lexemes c.tokens) f ↔ f = c.reading) ∧
        (c.reading = c.formula ↔ c.IsSorted) ∧
        (c.IsSorted → ∀ (V : Type) (m : Meaning V), c.reading.value m = c.value m) :=
  ⟨by decide +kernel, condition_structure (by decide +kernel)⟩

/-- A program whose condition has a relational operator after an equality operator. -/
def mixed : Source := ⟨"mixed", "IF 2 == 1 < 2 THEN\nPRINT 1\nENDIF\n"⟩

namespace Mixed

/-- The numerals and the two comparisons of the program.  A comparison is one if it holds and zero
if not. -/
def rational : Meaning ℚ where
  operand s := if s = "1" then 1 else 2
  unary _ x := x
  binary op x y := if (if op = "==" then x = y else x < y) then 1 else 0

/-- Its text in C. -/
def output : CUnit where
  header := "#include <stdio.h>\nint main(void)\x7b\n"
  body := "if(2 == 1 < 2)\x7b\nprintf(\"%.2f\\n\", (float)(1));\n\x7d\nreturn 0;\n\x7d\n"

/-- The token with the given text at a position. -/
def token (kind : Token.Kind) (text : String) (line column : ℕ) : Located Token :=
  ⟨⟨kind, text⟩, .spanning mixed ⟨line, column⟩ text.toList⟩

def numeral (text : String) (line column : ℕ) : Expression :=
  ⟨⟨⟨none, .number ⟨token .number text line column, rfl⟩⟩, []⟩, []⟩

def condition : Comparison where
  chain := ⟨numeral "2" 1 4, [(⟨token .eqEq "==" 1 6, rfl⟩, numeral "1" 1 9),
    (⟨token .lt "<" 1 11, rfl⟩, numeral "2" 1 13)]⟩
  compares := List.cons_ne_nil _ _

def lineEnd (line column : ℕ) (more : List (Exactly .newline)) : LineEnd :=
  ⟨⟨token .newline "\n" line column, rfl⟩, more⟩

/-- Its derivation. -/
def program : Program where
  blank := []
  statements := [.block .conditional
    ⟨⟨token (.keyword .«if») "IF" 1 1, rfl⟩, condition, ⟨token (.keyword .«then») "THEN" 1 15, rfl⟩,
      lineEnd 1 19 []⟩
    [.line .print ⟨token (.keyword .print) "PRINT" 2 1, rfl⟩ (.printValue (numeral "1" 2 7))
      (lineEnd 2 8 [])]
    ⟨⟨token (.keyword .endIf) "ENDIF" 3 1, rfl⟩,
      lineEnd 3 6 [⟨token .newline "\n" 4 1, rfl⟩]⟩]

theorem program_isOf : program.IsOf mixed :=
  ⟨⟨⟨.eof, ""⟩, .single mixed ⟨5, 1⟩⟩, rfl, by decide +kernel⟩

theorem result_eq : (translate mixed).result = .ok output := by decide +kernel

end Mixed

/-- **C regroups a chain that is not sorted.**  C applies the equality operator last, and the value
of the condition is another one than the language means. -/
theorem mixed_is_regrouped :
    (translate mixed).result = .ok Mixed.output ∧
    (∀ q : Program, q.IsOf mixed ↔ q = Mixed.program) ∧
    Mixed.program.conditions = [Mixed.condition] ∧
    Mixed.condition.formula =
      .binary "<" (.binary "==" (.operand "2") (.operand "1")) (.operand "2") ∧
    (∀ f : Formula, C.Parses (lexemes Mixed.condition.tokens) f ↔
      f = .binary "==" (.operand "2") (.binary "<" (.operand "1") (.operand "2"))) ∧
    Mixed.condition.value Mixed.rational = 1 ∧
    Mixed.condition.reading.value Mixed.rational = 0 := by
  obtain ⟨p, hp, hspelled, hscoped, -⟩ := exists_derivation Mixed.result_eq
  obtain rfl := (hp _).1 Mixed.program_isOf
  have hplain := Program.condition_isPlain hspelled hscoped (List.mem_singleton_self Mixed.condition)
  exact ⟨Mixed.result_eq, hp, rfl, rfl,
    fun f => (Mixed.condition.transcribes hplain).parses_iff (by decide), by decide +kernel,
    by decide +kernel⟩

end TinyBasic
