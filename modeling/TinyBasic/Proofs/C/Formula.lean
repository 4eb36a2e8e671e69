import Mathlib.Data.Rat.Defs
import TinyBasic.Proofs.C.Token

/-!
# Expressions of C

* `Formula`: operands and the operators that are applied to them, the structure of an expression in
  either language.
* `C.Derives n ts f`: the grammar of C derives the formula `f` from the tokens `ts` with the binary
  operators of the first `n` levels.  An operator of a lower level binds tighter, and those of one
  level are applied from left to right.
* `C.Parses ts f`: the tokens are an expression with the structure `f`.  Tokens have one structure
  (`C.Parses.unique`).

Operands are names and numbers.  Calls, indices, members, casts, postfix operators, the conditional
operator, assignments and the comma are left out: each of them needs a token that is neither an
operand nor one of the operators here, or parentheses around a type.
-/

namespace TinyBasic

/-- An expression: operands and the operators that are applied to them. -/
inductive Formula where
  | operand (text : String)
  | unary (op : String) (f : Formula)
  | binary (op : String) (l r : Formula)
  deriving DecidableEq

namespace C

variable {k m n : ℕ} {s op : String} {ts us rs rest rest' : List String} {e f g l r : Formula}

/-! ### The grammar -/

/-- The keywords. -/
def keywords : List String :=
  ["auto", "break", "case", "char", "const", "continue", "default", "do", "double", "else",
    "enum", "extern", "float", "for", "goto", "if", "inline", "int", "long", "register",
    "restrict", "return", "short", "signed", "sizeof", "static", "struct", "switch", "typedef",
    "union", "unsigned", "void", "volatile", "while", "_Bool", "_Complex", "_Imaginary"]

/-- A name or a number. -/
def IsOperand (s : String) : Prop :=
  IsIdentifier s.toList ∧ s ∉ keywords ∨ IsNumber s.toList

/-- The operators in front of an operand. -/
def unaryOperators : List String := ["++", "--", "&", "*", "+", "-", "~", "!"]

/-- The operators between operands, those that bind tightest first. -/
def levels : List (List String) :=
  [["*", "/", "%"], ["+", "-"], ["<<", ">>"], ["<", ">", "<=", ">="], ["==", "!="], ["&"], ["^"],
    ["|"], ["&&"], ["||"]]

/-- The operators of a level. -/
def operators (n : ℕ) : List String := levels.getD n []

/-- `Derives n ts f`: the tokens `ts` are an expression with the structure `f`, of which the binary
operators outside of parentheses are of the first `n` levels. -/
inductive Derives : ℕ → List String → Formula → Prop
  | operand {s : String} : IsOperand s → Derives 0 [s] (.operand s)
  | group {ts : List String} {f : Formula} : Derives levels.length ts f →
      Derives 0 ("(" :: ts ++ [")"]) f
  | unary {op : String} {ts : List String} {f : Formula} : op ∈ unaryOperators → Derives 0 ts f →
      Derives 0 (op :: ts) (.unary op f)
  | next {n : ℕ} {ts : List String} {f : Formula} : Derives n ts f → Derives (n + 1) ts f
  | binary {n : ℕ} {op : String} {ls rs : List String} {l r : Formula} : op ∈ operators n →
      Derives (n + 1) ls l → Derives n rs r → Derives (n + 1) (ls ++ op :: rs) (.binary op l r)

/-- The tokens are an expression with the structure `f`. -/
def Parses (ts : List String) (f : Formula) : Prop := Derives levels.length ts f

theorem Derives.mono (h : Derives n ts f) (hnm : n ≤ m) : Derives m ts f := by
  induction hnm with
  | refl => exact h
  | step _ ih => exact ih.next

/-! ### Operators and operands can be told apart -/

theorem lt_of_mem_operators (h : op ∈ operators n) : n < levels.length := by
  by_contra hn
  rw [operators, List.getD_eq_getElem?_getD, List.getElem?_eq_none (Nat.le_of_not_lt hn)] at h
  cases h

/-- An operator belongs to one level. -/
theorem eq_of_mem_operators (h : op ∈ operators m) (h' : op ∈ operators n) : m = n := by
  have hall : ∀ m < levels.length, ∀ n < levels.length, ∀ op ∈ operators m, op ∈ operators n →
      m = n := by decide
  exact hall m (lt_of_mem_operators h) n (lt_of_mem_operators h') op h h'

theorem close_notMem_operators (n : ℕ) : ")" ∉ operators n := by
  have hall : ∀ n < levels.length, ")" ∉ operators n := by decide
  exact fun h => hall n (lt_of_mem_operators h) h

theorem open_notMem_unaryOperators : "(" ∉ unaryOperators := by decide

theorem IsOperand.head (h : IsOperand s) :
    ∃ c rest, s.toList = c :: rest ∧ (CText.isNameChar c = true ∨ c = '.') := by
  rcases h with ⟨⟨c, rest, hs, -, hname⟩, -⟩ | h
  · exact ⟨c, rest, hs, .inl (hname c (hs ▸ List.mem_cons_self))⟩
  · obtain ⟨c, rest, hs, hc⟩ := h.head
    exact ⟨c, rest, hs, hc.imp_left fun hc => by simp [CText.isNameChar, Char.isAlphanum, hc]⟩

theorem IsOperand.notMem (h : IsOperand s) : s ∉ "(" :: unaryOperators := by
  have hall : ∀ s ∈ "(" :: unaryOperators,
      (s.toList.head?.any fun c => CText.isNameChar c || c == '.') = false := by decide
  obtain ⟨c, rest, hs, hc⟩ := h.head
  intro hmem
  have hother := hall s hmem
  rcases hc with hc | rfl
  · simp [hs, hc] at hother
  · simp [hs] at hother

theorem IsOperand.isToken (h : IsOperand s) : IsToken s.toList :=
  h.elim (fun h => .inl h.1) fun h => .inr (.inl h)

theorem isToken_of_mem_operators (h : op ∈ operators n) : IsToken op.toList := by
  have hall : ∀ n < levels.length, ∀ op ∈ operators n, op ∈ punctuators := by decide
  exact .inr (.inr ⟨op, List.mem_append_left _ (hall n (lt_of_mem_operators h) op h), rfl⟩)

/-! ### Operations of one level -/

/-- `Operations n us e f`: the formula `e`, and after it the operators of level `n` and their
operands in `us`, make up the formula `f`. -/
inductive Operations (n : ℕ) : List String → Formula → Formula → Prop
  | nil {e : Formula} : Operations n [] e e
  | cons {op : String} {rs us : List String} {l r f : Formula} : op ∈ operators n →
      Derives n rs r → Operations n us (.binary op l r) f → Operations n (op :: rs ++ us) l f

theorem Operations.concat (h : Operations n us e l) (hop : op ∈ operators n)
    (hr : Derives n rs r) : Operations n (us ++ op :: rs) e (.binary op l r) := by
  induction h with
  | nil => simpa using Operations.cons hop hr .nil
  | cons hop' hr' _ ih => simpa using Operations.cons hop' hr' ih

/-- **An expression of a level** is one of the level before and operations of this one. -/
theorem Derives.exists_operations (h : Derives (n + 1) ts f) :
    ∃ es us e, ts = es ++ us ∧ Derives n es e ∧ Operations n us e f := by
  generalize hm : n + 1 = m at h
  induction h with
  | operand | group | unary => cases hm
  | next h =>
    obtain rfl := Nat.succ.inj hm
    exact ⟨_, [], _, (List.append_nil _).symm, h, .nil⟩
  | binary hop _ hr ih =>
    obtain rfl := Nat.succ.inj hm
    obtain ⟨es, us, e, rfl, he, hus⟩ := ih rfl
    exact ⟨es, _, e, List.append_assoc es us _, he, hus.concat hop hr⟩

/-! ### Tokens have one structure -/

/-- No operator of the first `n` levels comes next. -/
def Ends (n : ℕ) (ts : List String) : Prop := ∀ op, ts.head? = some op → ∀ m < n, op ∉ operators m

theorem ends_nil : Ends n [] := by simp [Ends]

theorem Ends.of_succ (h : Ends (n + 1) ts) : Ends n ts := fun op hop m hm => h op hop m (by omega)

theorem ends_cons (hop : op ∈ operators n) (ts : List String) : Ends n (op :: ts) := by
  intro op' hop' m hm hmem
  obtain rfl := Option.some.inj hop'
  exact absurd (eq_of_mem_operators hop hmem) (by omega)

theorem ends_close (ts : List String) : Ends n (")" :: ts) := by
  intro op hop m _ hmem
  obtain rfl := Option.some.inj hop
  exact close_notMem_operators m hmem

/-- What comes after an operand of level `n` does not go on with a tighter operator. -/
theorem Operations.ends (h : Operations n us e f) (hrest : Ends (n + 1) rest) :
    Ends n (us ++ rest) := by
  cases h with
  | nil => exact hrest.of_succ
  | cons hop => exact ends_cons hop _

/-- Expressions of less than `k` tokens at level `n` can be read from the front of a text in one
way. -/
def Determined (k n : ℕ) : Prop :=
  ∀ {ts us rest rest' : List String} {f g : Formula}, ts.length < k → Derives n ts f →
    Derives n us g → ts ++ rest = us ++ rest' → Ends n rest → Ends n rest' → ts = us ∧ f = g

theorem Operations.determined {us' : List String} (h : Determined k n) (hus : Operations n us e f)
    (hlength : us.length < k) (hus' : Operations n us' e g) (happend : us ++ rest = us' ++ rest')
    (hrest : Ends (n + 1) rest) (hrest' : Ends (n + 1) rest') : us = us' ∧ f = g := by
  induction hus generalizing us' with
  | nil =>
    cases hus' with
    | nil => exact ⟨rfl, rfl⟩
    | cons hop =>
      have hhead : rest = _ := happend
      exact absurd hop (hrest _ (by rw [hhead]; rfl) n (Nat.lt_succ_self n))
  | @cons op rs us l r f hop hr hus ih =>
    cases hus' with
    | nil =>
      have hhead : _ = rest' := happend
      exact absurd hop (hrest' _ (by rw [← hhead]; rfl) n (Nat.lt_succ_self n))
    | @cons op' rs' us' _ r' _ hop' hr' hus' =>
      simp only [List.cons_append, List.append_assoc, List.cons.injEq] at happend
      obtain ⟨rfl, happend⟩ := happend
      simp only [List.length_append, List.length_cons] at hlength
      obtain ⟨rfl, rfl⟩ := h (by omega) hr hr' happend (hus.ends hrest) (hus'.ends hrest')
      obtain ⟨rfl, rfl⟩ := ih (by omega) hus' (List.append_cancel_left happend)
      exact ⟨rfl, rfl⟩

theorem determined_zero (h : ∀ n, Determined k n) : Determined (k + 1) 0 := by
  intro ts us rest rest' f g hlength hf hg happend hrest hrest'
  cases hf with
  | operand hs =>
    obtain ⟨hopen, hunary⟩ := not_or.1 (mt List.mem_cons.2 hs.notMem)
    cases hg with
    | operand => simp_all
    | group => exact absurd (List.cons.inj happend).1 hopen
    | unary hop => exact absurd ((List.cons.inj happend).1 ▸ hop) hunary
  | @group ts f hf =>
    cases hg with
    | operand hs =>
      exact absurd (List.mem_cons.2 (.inl (List.cons.inj happend).1.symm)) hs.notMem
    | @group us g hg =>
      have happend : ts ++ ")" :: rest = us ++ ")" :: rest' := by simpa using happend
      obtain ⟨rfl, rfl⟩ := h levels.length (by simp at hlength; omega) hf hg happend
        (ends_close rest) (ends_close rest')
      exact ⟨rfl, rfl⟩
    | unary hop =>
      exact absurd ((List.cons.inj happend).1 ▸ hop) open_notMem_unaryOperators
  | @unary op ts f hop hf =>
    cases hg with
    | operand hs =>
      exact absurd (List.mem_cons_of_mem _ ((List.cons.inj happend).1 ▸ hop)) hs.notMem
    | group => exact absurd ((List.cons.inj happend).1 ▸ hop) open_notMem_unaryOperators
    | unary hop' hg =>
      obtain ⟨rfl, htail⟩ := List.cons.inj happend
      obtain ⟨rfl, rfl⟩ := h 0 (Nat.lt_of_succ_lt_succ hlength) hf hg htail hrest hrest'
      exact ⟨rfl, rfl⟩

theorem Determined.succ (h : Determined k n) : Determined k (n + 1) := by
  intro ts us rest rest' f g hlength hf hg happend hrest hrest'
  obtain ⟨es, vs, e, rfl, he, hvs⟩ := hf.exists_operations
  obtain ⟨es', vs', e', rfl, he', hvs'⟩ := hg.exists_operations
  rw [List.append_assoc, List.append_assoc] at happend
  rw [List.length_append] at hlength
  obtain ⟨rfl, rfl⟩ := h (by omega) he he' happend (hvs.ends hrest) (hvs'.ends hrest')
  obtain ⟨rfl, rfl⟩ := hvs.determined h (by omega) hvs' (List.append_cancel_left happend) hrest
    hrest'
  exact ⟨rfl, rfl⟩

theorem determined (k n : ℕ) : Determined k n := by
  induction k generalizing n with
  | zero => exact fun hlength => absurd hlength (Nat.not_lt_zero _)
  | succ k hk =>
    induction n with
    | zero => exact determined_zero hk
    | succ n hn => exact hn.succ

/-- **Tokens have one structure.** -/
theorem Parses.unique (hf : Parses ts f) (hg : Parses ts g) : f = g :=
  (determined (ts.length + 1) levels.length (Nat.lt_succ_self _) hf hg rfl ends_nil ends_nil).2

end C

end TinyBasic
