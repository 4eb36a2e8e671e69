import Mathlib.Tactic.FinCases
import Mathlib.Tactic.Simps.Basic
import TinyBasic.Proofs.Translation.Conditions
import TinyBasic.Proofs.Translation.Numerals

/-!
# Values in C

In the language every number is rational.  C has integers too: a constant without a point is one,
and an operation on two integers gives an integer, so that their quotient loses its fraction.

* `rational env`: the arithmetic of the language, where `env` gives the values of the variables.
* `C.arithmetic env`: the arithmetic of C with its two types.  Which integers there are in an
  expression does not depend on the variables (`Formula.value_integral`).
* `Formula.IsExact`: no quotient of two integers loses a fraction.
* `Formula.IsArithmetic.forall_agreesInC_iff`: the language and C agree on the values of all parts
  of a formula exactly when it is exact.
* `expression_values`: so it is for every expression in the text of a program.

Rounding and the limits of the types are left out.
-/

namespace TinyBasic

open TinyBasic.Tree

variable {op s : String} {cs raw : List Char} {m n : ℤ} {env : String → ℚ}

/-! ### Operations on numbers -/

section

variable {N : Type}

/-- What a sign makes of a number. -/
def signed [Neg N] (op : String) (a : N) : Option N :=
  match op with
  | "+" => some a
  | "-" => some (-a)
  | _ => none

theorem isSome_signed [Neg N] (h : op ∈ ["+", "-"]) (a : N) : (signed op a).isSome := by
  fin_cases h <;> rfl

variable [Add N] [Sub N] [Mul N] [Zero N] [DecidableEq N]

/-- What an operator makes of two numbers.  There is no quotient by zero. -/
def operation (divide : N → N → N) (op : String) (a b : N) : Option N :=
  match op with
  | "+" => some (a + b)
  | "-" => some (a - b)
  | "*" => some (a * b)
  | "/" => if b = 0 then none else some (divide a b)
  | _ => none

theorem isSome_operation_iff {divide : N → N → N} (h : op ∈ ["+", "-", "*", "/"]) (a b : N) :
    (operation divide op a b).isSome ↔ (op = "/" → b ≠ 0) := by
  fin_cases h <;> simp [operation]

end

/-- A truncated quotient of integers is the rational one exactly when the divisor divides. -/
theorem cast_tdiv_eq_iff (hn : n ≠ 0) : ((m.tdiv n : ℤ) : ℚ) = m / n ↔ n ∣ m := by
  rw [eq_div_iff (Int.cast_ne_zero.2 hn), ← Int.cast_mul, Int.cast_inj]
  exact ⟨Dvd.intro_left _, Int.tdiv_mul_cancel⟩

theorem signed_cast : (signed op n).map (Int.cast : ℤ → ℚ) = signed op (n : ℚ) := by
  unfold signed
  split <;> simp

/-- **An operation on integers gives the rational result**, but for the quotients that lose a
fraction. -/
theorem operation_cast_iff :
    (operation Int.tdiv op m n).map (Int.cast : ℤ → ℚ) = operation (· / ·) op (m : ℚ) n ↔
      (op = "/" → n ≠ 0 → n ∣ m) := by
  unfold operation
  split
  · simp
  · simp
  · simp
  · by_cases hn : n = 0
    · simp [hn]
    · simp [hn, cast_tdiv_eq_iff hn]
  · simp_all

/-! ### The language -/

/-- Whether an operand is a numeral.  If not, it is a variable. -/
def isNumeral (s : String) : Bool := s.toList.head?.any Char.isDigit

/-- The arithmetic of the language. -/
@[simps]
def rational (env : String → ℚ) : Meaning (Option ℚ) where
  operand s := some (if isNumeral s then decimal s.toList else env s)
  unary op a := a.bind (signed op)
  binary op a b := a.bind fun a => b.bind (operation (· / ·) op a)

/-! ### C -/

namespace C

/-- A value: an integer, or a number of a floating type. -/
inductive Value where
  | integer (n : ℤ)
  | floating (q : ℚ)
  deriving DecidableEq

namespace Value

/-- The number that a value is. -/
def number : Value → ℚ
  | integer n => n
  | floating q => q

/-- A value that is an integer. -/
def integer? : Value → Option ℤ
  | integer n => some n
  | floating _ => none

/-- A sign keeps the type. -/
def signed (op : String) : Value → Option Value
  | integer n => (TinyBasic.signed op n).map integer
  | floating q => (TinyBasic.signed op q).map floating

/-- Two integers make an integer, and their quotient is truncated.  Any other operands are
floating. -/
def operation (op : String) : Value → Value → Option Value
  | integer m, integer n => (TinyBasic.operation Int.tdiv op m n).map integer
  | v, w => (TinyBasic.operation (· / ·) op v.number w.number).map floating

theorem number_signed (op : String) (v : Value) :
    (v.signed op).map number = TinyBasic.signed op v.number := by
  cases v with
  | integer n => rw [signed, Option.map_map]; exact signed_cast
  | floating q => simp [signed, number, Function.comp_def]

/-- **An operation in C gives the rational result**, but for the quotients of integers that lose a
fraction. -/
theorem number_operation_iff {v w : Value} :
    (v.operation op w).map number = TinyBasic.operation (· / ·) op v.number w.number ↔
      (op = "/" → ∀ m ∈ v.integer?, ∀ n ∈ w.integer?, n ≠ 0 → n ∣ m) := by
  cases v <;> cases w
  case integer.integer m n =>
    rw [operation, Option.map_map]
    exact operation_cast_iff.trans (by simp [integer?])
  all_goals simp [operation, number, integer?, Function.comp_def]

/-- An operation has an integer result if its operands are integers. -/
theorem integer?_operation (op : String) (v w : Value) :
    (v.operation op w).bind integer? =
      v.integer?.bind fun m => w.integer?.bind (TinyBasic.operation Int.tdiv op m) := by
  cases v <;> cases w <;> simp [operation, integer?, Option.bind_map, Function.comp_def]

theorem integer?_signed (op : String) (v : Value) :
    (v.signed op).bind integer? = v.integer?.bind (TinyBasic.signed op) := by
  cases v <;> simp [signed, integer?, Option.bind_map, Function.comp_def]

end Value

/-- The value of a constant.  It is floating if there is a point.  If not, it is an integer, which
is octal if it starts with a zero. -/
def constant? (cs : List Char) : Option Value :=
  if '.' ∈ cs then some (.floating (decimal cs))
  else if cs.head? = some '0' then
    if cs.all isOctal then some (.integer (digits 8 cs)) else none
  else some (.integer (digits 10 cs))

/-- The arithmetic of C.  A variable is a `float`. -/
@[simps]
def arithmetic (env : String → ℚ) : Meaning (Option Value) where
  operand s := if isNumeral s then constant? s.toList else some (.floating (env s))
  unary op a := a.bind (Value.signed op)
  binary op a b := a.bind fun a => b.bind (a.operation op)

/-- The arithmetic of the integers of C alone. -/
@[simps]
def integral : Meaning (Option ℤ) where
  operand s := if isNumeral s then (constant? s.toList).bind Value.integer? else none
  unary op a := a.bind (signed op)
  binary op a b := a.bind fun a => b.bind (operation Int.tdiv op a)

/-- **The value of a numeral** is the one that it has as a constant. -/
theorem constant?_eq_some_iff (h : Lexeme.Spells .number cs raw) {q : ℚ} :
    (constant? cs).map Value.number = some q ↔ Constant cs q := by
  have hdecimal : ¬ IsPadded cs → (some (decimal cs) = some q ↔ Constant cs q) := by
    intro hpadded
    have hconstant := constant_decimal h hpadded
    exact Option.some_inj.trans ⟨fun hq => hq ▸ hconstant, hconstant.unique⟩
  unfold constant?
  split_ifs with hpoint hzero hoctal
  · exact hdecimal fun hpadded => hpadded.2 hpoint
  · rw [constant_iff_of_isPadded ⟨hzero, hpoint⟩, and_iff_right (List.all_eq_true.1 hoctal),
      eq_comm (a := q)]
    simp [Value.number]
  · have hother : ¬ ∀ d ∈ cs, isOctal d = true := fun hall => hoctal (List.all_eq_true.2 hall)
    simp [constant_iff_of_isPadded ⟨hzero, hpoint⟩, hother]
  · have hdigits : ∀ d ∈ cs, d.isDigit = true := by
      rcases h.cases_point with ⟨-, hd⟩ | ⟨ds, fs, rfl, -⟩
      · exact hd
      · exact absurd (by simp) hpoint
    rw [← hdecimal fun hpadded => hzero hpadded.1, decimal_of_isDigits hdigits]
    simp [Value.number]

end C

/-! ### Both arithmetics on formulas -/

namespace Formula

variable {P : String → Prop} {f l r : Formula}

/-- **The integers in a formula are made of integers.**  So they do not depend on the variables. -/
theorem value_integral (env : String → ℚ) (f : Formula) :
    f.value C.integral = (f.value (C.arithmetic env)).bind C.Value.integer? := by
  induction f with
  | operand s =>
    simp only [value, C.integral_operand, C.arithmetic_operand]
    split <;> rfl
  | unary op f ih =>
    simp only [value, C.integral_unary, C.arithmetic_unary, ih, Option.bind_assoc,
      C.Value.integer?_signed]
  | binary op l r ihl ihr =>
    simp only [value, C.integral_binary, C.arithmetic_binary, ihl, ihr, Option.bind_assoc,
      C.Value.integer?_operation]
    cases l.value (C.arithmetic env) <;> cases r.value (C.arithmetic env) <;> simp

/-- The formula and the formulas that it is made of. -/
def parts : Formula → List Formula
  | operand s => [operand s]
  | unary op f => unary op f :: f.parts
  | binary op l r => binary op l r :: (l.parts ++ r.parts)

theorem self_mem_parts (f : Formula) : f ∈ f.parts := by cases f <;> simp [parts]

/-- In C the formula has the value that the language means, or neither has one. -/
def AgreesInC (env : String → ℚ) (f : Formula) : Prop :=
  (f.value (C.arithmetic env)).map C.Value.number = f.value (rational env)

/-- No quotient of two integers in the formula loses a fraction. -/
def IsExact : Formula → Prop
  | operand _ => True
  | unary _ f => f.IsExact
  | binary op l r => l.IsExact ∧ r.IsExact ∧
      (op = "/" → ∀ m ∈ l.value C.integral, ∀ n ∈ r.value C.integral, n ≠ 0 → n ∣ m)

/-- No divisor in the formula is zero. -/
def HasNonzeroDivisors (env : String → ℚ) : Formula → Prop
  | operand _ => True
  | unary _ f => f.HasNonzeroDivisors env
  | binary op l r => l.HasNonzeroDivisors env ∧ r.HasNonzeroDivisors env ∧
      (op = "/" → r.value (rational env) ≠ some 0)

theorem AgreesInC.unary (h : f.AgreesInC env) (op : String) :
    (Formula.unary op f).AgreesInC env := by
  unfold AgreesInC at *
  simp only [value, C.arithmetic_unary, rational_unary, ← h, Option.map_bind, Option.bind_map,
    Function.comp_def, C.Value.number_signed]

/-- **An operation agrees in C**, but for a quotient of integers that loses a fraction. -/
theorem agreesInC_binary_iff (hl : l.AgreesInC env) (hr : r.AgreesInC env) :
    (binary op l r).AgreesInC env ↔
      (op = "/" → ∀ m ∈ l.value C.integral, ∀ n ∈ r.value C.integral, n ≠ 0 → n ∣ m) := by
  rw [value_integral env l, value_integral env r]
  unfold AgreesInC at *
  rw [value, value, ← hl, ← hr]
  cases l.value (C.arithmetic env) with
  | none => simp
  | some v =>
    cases r.value (C.arithmetic env) with
    | none => simp
    | some w => exact C.Value.number_operation_iff

/-- `IsArithmetic P f`: the formula is made of the signs and the operators of the language and of
operands that satisfy `P`. -/
inductive IsArithmetic (P : String → Prop) : Formula → Prop
  | operand {s : String} : P s → IsArithmetic P (operand s)
  | unary {op : String} {f : Formula} : op ∈ ["+", "-"] → IsArithmetic P f →
      IsArithmetic P (unary op f)
  | binary {op : String} {l r : Formula} : op ∈ ["+", "-", "*", "/"] → IsArithmetic P l →
      IsArithmetic P r → IsArithmetic P (binary op l r)

/-- **The language and C agree on all parts of a formula** whose operands they agree on exactly when
it is exact. -/
theorem IsArithmetic.forall_agreesInC_iff
    (h : f.IsArithmetic fun s => (Formula.operand s).AgreesInC env) :
    (∀ g ∈ f.parts, g.AgreesInC env) ↔ f.IsExact := by
  induction h with
  | operand h => simpa [parts, IsExact] using h
  | @unary op f _ _ ih =>
    rw [parts, List.forall_mem_cons, ih, IsExact]
    exact and_iff_right_of_imp fun h => (ih.2 h f f.self_mem_parts).unary op
  | @binary op l r _ _ _ ihl ihr =>
    rw [parts, List.forall_mem_cons, List.forall_mem_append, ihl, ihr, IsExact, and_comm, and_assoc]
    refine and_congr_right fun hl => and_congr_right fun hr => ?_
    exact agreesInC_binary_iff (ihl.2 hl l l.self_mem_parts) (ihr.2 hr r r.self_mem_parts)

/-- **A formula has a value** exactly when no divisor in it is zero. -/
theorem IsArithmetic.isSome_value_iff (h : f.IsArithmetic P) :
    (f.value (rational env)).isSome ↔ f.HasNonzeroDivisors env := by
  induction h with
  | operand => simp [value, rational, HasNonzeroDivisors]
  | @unary op f hop _ ih =>
    rw [HasNonzeroDivisors, ← ih, value]
    cases f.value (rational env) with
    | none => rfl
    | some a => exact iff_of_true (isSome_signed hop a) rfl
  | @binary op l r hop _ _ ihl ihr =>
    rw [HasNonzeroDivisors, ← ihl, ← ihr, value]
    cases l.value (rational env) with
    | none => simp
    | some a =>
      cases r.value (rational env) with
      | none => simp
      | some b => simpa using isSome_operation_iff hop a b

/-- **An exact formula has the same value in C**, if no divisor in it is zero. -/
theorem IsArithmetic.exists_value
    (h : f.IsArithmetic fun s => (Formula.operand s).AgreesInC env) (hexact : f.IsExact)
    (hdivisors : f.HasNonzeroDivisors env) :
    ∃ q, f.value (rational env) = some q ∧
      (f.value (C.arithmetic env)).map C.Value.number = some q := by
  obtain ⟨q, hq⟩ := Option.isSome_iff_exists.1 (h.isSome_value_iff.2 hdivisors)
  exact ⟨q, hq, (h.forall_agreesInC_iff.2 hexact f f.self_mem_parts).trans hq⟩

end Formula

/-! ### Expressions -/

/-- Whether a zero stands in front of another digit. -/
def hasLeadingZero : List Char → Bool
  | '0' :: d :: _ => d.isDigit
  | _ => false

/-- A numeral without a leading zero is not octal in C, or it is zero. -/
theorem constant_of_hasLeadingZero_eq_false (h : Lexeme.Spells .number cs raw)
    (hzero : hasLeadingZero cs = false) : C.Constant cs (decimal cs) := by
  refine (constant_decimal_iff h).2 fun hpadded => ?_
  have hdigits := isDigit_of_isPadded h hpadded
  obtain ⟨ds, rfl⟩ := List.head?_eq_some_iff.1 hpadded.1
  cases ds with
  | nil => decide +kernel
  | cons d ds => exact absurd (hdigits d (by simp)) (by simpa [hasLeadingZero] using hzero)

namespace Tree

variable {X : Type} {isOperator : Token.Kind → Bool} {P : String → Prop} {t : Located Token}

theorem Series.isArithmetic {tokens : X → List (Located Token)} {formula : X → Formula}
    {Q : Located Token → Prop}
    (hop : ∀ l : Leaf (isOperator ·), Q l.token → l.text ∈ ["+", "-", "*", "/"])
    (hoperand : ∀ y, (∀ t ∈ tokens y, Q t) → (formula y).IsArithmetic P)
    (x : Series isOperator X) (h : ∀ t ∈ x.tokens tokens, Q t) :
    (x.formula formula).IsArithmetic P := by
  obtain ⟨hfirst, hlater⟩ := Series.forall_mem h
  refine List.foldlRecOn x.later _ (hoperand x.first hfirst) fun f hf y hy => ?_
  exact .binary (hop y.1 (hlater y hy).1) hf (hoperand y.2 (hlater y hy).2)

theorem Unary.isArithmetic (u : Unary)
    (h : ∀ t ∈ u.tokens, IsSpelled t ∧
      (t.value.kind = .number ∨ t.value.kind = .ident → P t.value.text)) :
    u.formula.IsArithmetic P := by
  obtain ⟨sign, p⟩ := u
  have hkind : p.token.value.kind = .number ∨ p.token.value.kind = .ident := by
    cases p with
    | number l => exact .inl l.fits
    | «variable» l => exact .inr l.fits
  have hp : Formula.IsArithmetic P (.operand p.render) :=
    .operand ((h p.token (by simp [tokens])).2 hkind)
  cases sign with
  | none => exact hp
  | some l =>
    exact .unary (l.forall_text (h l.token (by simp [tokens])).1 (fun _ => .inl) (by decide)) hp

/-- **An expression is made of the operators of the language and of its numerals and variables.** -/
theorem Expression.isArithmetic (x : Expression)
    (h : ∀ t ∈ x.tokens, IsSpelled t ∧
      (t.value.kind = .number ∨ t.value.kind = .ident → P t.value.text)) :
    x.formula.IsArithmetic P :=
  Series.isArithmetic (fun l h => l.forall_text h.1 (fun _ => .inl) (by decide))
    (Series.isArithmetic (fun l h => l.forall_text h.1 (fun _ h => .inr (.inl h)) (by decide))
      Unary.isArithmetic) x h

end Tree

/-- **A numeral without a leading zero, and a variable, has the same value in C.** -/
theorem operand_agreesInC {t : Located Token} (h : IsSpelled t)
    (hk : t.value.kind = .number ∨ t.value.kind = .ident)
    (hzero : t.value.kind = .number → hasLeadingZero t.value.text.toList = false) :
    (Formula.operand t.value.text).AgreesInC env := by
  obtain ⟨raw, hraw⟩ := h
  simp only [Formula.AgreesInC, Formula.value, C.arithmetic_operand, rational_operand]
  rcases hk with hk | hk <;> rw [hk] at hraw
  · obtain ⟨c, cs, htext, hc, -⟩ := hraw.exists_digit
    have hnumeral : isNumeral t.value.text = true := by simp [isNumeral, htext, hc]
    rw [if_pos hnumeral, if_pos hnumeral, C.constant?_eq_some_iff hraw]
    exact constant_of_hasLeadingZero_eq_false hraw (hzero hk)
  · obtain ⟨c, cs, htext, hc, -⟩ := hraw.isWord
    have hname : isNumeral t.value.text = false := by
      simp [isNumeral, htext, Lexeme.isDigit_eq_false_of_isAlpha hc]
    simp [hname, C.Value.number]

variable {u : CUnit}

/-- **Values in C.**  Every expression of a program that is translated stands on a line of the body,
where C divides it into its lexemes and gives it the structure that the source gives to it.  If no
numeral in it has a zero in front of another digit, all its parts have the values in C that the
language means exactly when no quotient of two integers in it loses a fraction; and then it has a
value in both, the same one, whenever no divisor is zero. -/
theorem expression_values {s : Source} (h : (translate s).result = .ok u) :
    ∃ p : Program, (∀ q : Program, q.IsOf s ↔ q = p) ∧
      ∀ x ∈ p.expressions, StandsOn x.render (CText.lines u.body) ∧
        (∀ rest out, C.Stops rest → C.Splits rest out → ∀ ts : List String,
          C.Splits (x.render.toList ++ rest) ts ↔ ts = lexemes x.tokens ++ out) ∧
        (∀ f : Formula, C.Parses (lexemes x.tokens) f ↔ f = x.formula) ∧
        ((∀ t ∈ x.tokens, t.value.kind = .number →
            hasLeadingZero t.value.text.toList = false) →
          ∀ env : String → ℚ,
            ((∀ f ∈ x.formula.parts, f.AgreesInC env) ↔ x.formula.IsExact) ∧
            (x.formula.IsExact → x.formula.HasNonzeroDivisors env →
              ∃ q, x.value (rational env) = some q ∧
                (x.formula.value (C.arithmetic env)).map C.Value.number = some q)) := by
  obtain ⟨p, hp, hspelled, hscoped, rfl⟩ := exists_derivation h
  refine ⟨p, hp, fun x hx => ?_⟩
  have hplain := Program.expression_isPlain hspelled hscoped hx
  have htranscribes := x.transcribes hplain
  refine ⟨Program.expression_standsOn hspelled hx,
    fun rest out hrest hout ts => htranscribes.splits.splits_iff hrest hout,
    fun f => htranscribes.parses_iff (by decide), fun hzero env => ?_⟩
  have harithmetic : x.formula.IsArithmetic fun s => (Formula.operand s).AgreesInC env :=
    x.isArithmetic fun t ht =>
      ⟨(hplain t ht).spelled, fun hk => operand_agreesInC (hplain t ht).spelled hk (hzero t ht)⟩
  rw [← x.value_formula]
  exact ⟨harithmetic.forall_agreesInC_iff, harithmetic.exists_value⟩

/-- A program with a quotient of two integers, and with quotients and products of other numbers. -/
def shares : Source := ⟨"shares", "LET x = 6 / 2 - 1.5\nPRINT x / 4 * 3\n"⟩

/-- Its text in C. -/
def sharesOutput : CUnit where
  header := "#include <stdio.h>\nint main(void)\x7b\nfloat x;\n"
  body := "x = 6 / 2 - 1.5;\nprintf(\"%.2f\\n\", (float)(x / 4 * 3));\nreturn 0;\n\x7d\n"

theorem expression_values_shares :
    (translate shares).result = .ok sharesOutput ∧
    ∃ p : Program, (∀ q : Program, q.IsOf shares ↔ q = p) ∧
      ∀ x ∈ p.expressions, StandsOn x.render (CText.lines sharesOutput.body) ∧
        (∀ rest out, C.Stops rest → C.Splits rest out → ∀ ts : List String,
          C.Splits (x.render.toList ++ rest) ts ↔ ts = lexemes x.tokens ++ out) ∧
        (∀ f : Formula, C.Parses (lexemes x.tokens) f ↔ f = x.formula) ∧
        ((∀ t ∈ x.tokens, t.value.kind = .number →
            hasLeadingZero t.value.text.toList = false) →
          ∀ env : String → ℚ,
            ((∀ f ∈ x.formula.parts, f.AgreesInC env) ↔ x.formula.IsExact) ∧
            (x.formula.IsExact → x.formula.HasNonzeroDivisors env →
              ∃ q, x.value (rational env) = some q ∧
                (x.formula.value (C.arithmetic env)).map C.Value.number = some q)) :=
  ⟨by decide +kernel, expression_values (by decide +kernel)⟩

/-- A program that divides one by two. -/
def half : Source := ⟨"half", "PRINT 1 / 2\n"⟩

namespace Half

/-- Its text in C. -/
def output : CUnit where
  header := "#include <stdio.h>\nint main(void)\x7b\n"
  body := "printf(\"%.2f\\n\", (float)(1 / 2));\nreturn 0;\n\x7d\n"

/-- The token with the given text at a position. -/
def token (kind : Token.Kind) (text : String) (line column : ℕ) : Located Token :=
  ⟨⟨kind, text⟩, .spanning half ⟨line, column⟩ text.toList⟩

def numeral (text : String) (column : ℕ) : Unary :=
  ⟨none, .number ⟨token .number text 1 column, rfl⟩⟩

def quotient : Expression := ⟨⟨numeral "1" 7, [(⟨token .slash "/" 1 9, rfl⟩, numeral "2" 11)]⟩, []⟩

/-- Its derivation. -/
def program : Program where
  blank := []
  statements := [.line .print ⟨token (.keyword .print) "PRINT" 1 1, rfl⟩ (.printValue quotient)
    ⟨⟨token .newline "\n" 1 12, rfl⟩, [⟨token .newline "\n" 2 1, rfl⟩]⟩]

theorem program_isOf : program.IsOf half :=
  ⟨⟨⟨.eof, ""⟩, .single half ⟨3, 1⟩⟩, rfl, by decide +kernel⟩

theorem result_eq : (translate half).result = .ok output := by decide +kernel

end Half

/-- **C truncates a quotient of integers.**  One divided by two is a half in the language, and zero
in C. -/
theorem half_is_truncated :
    (translate half).result = .ok Half.output ∧
    (∀ q : Program, q.IsOf half ↔ q = Half.program) ∧
    Half.program.expressions = [Half.quotient] ∧
    (∀ t ∈ Half.quotient.tokens, hasLeadingZero t.value.text.toList = false) ∧
    (∀ f : Formula, C.Parses (lexemes Half.quotient.tokens) f ↔
      f = .binary "/" (.operand "1") (.operand "2")) ∧
    ∀ env, Half.quotient.formula.HasNonzeroDivisors env ∧
      Half.quotient.value (rational env) = some (1 / 2) ∧
      Half.quotient.formula.value (C.arithmetic env) = some (.integer 0) := by
  obtain ⟨p, hp, hspelled, hscoped, -⟩ := exists_derivation Half.result_eq
  obtain rfl := (hp _).1 Half.program_isOf
  have hplain := Program.expression_isPlain hspelled hscoped (List.mem_singleton_self Half.quotient)
  have hone : decimal "1".toList = 1 := by decide +kernel
  have htwo : decimal "2".toList = 2 := by decide +kernel
  refine ⟨Half.result_eq, hp, rfl, by decide +kernel,
    fun f => (Half.quotient.transcribes hplain).parses_iff (by decide), fun env => ⟨?_, ?_, rfl⟩⟩
  · have hdivisor : (Half.numeral "2" 11).formula.value (rational env) =
        some (decimal "2".toList) := rfl
    refine ⟨trivial, trivial, fun _ => ?_⟩
    rw [hdivisor, htwo]
    decide
  · have hvalue : Half.quotient.value (rational env) =
        operation (· / ·) "/" (decimal "1".toList) (decimal "2".toList) := rfl
    rw [hvalue, hone, htwo]
    simp [operation]

end TinyBasic
