import TinyBasic.Proofs.Translation.Expressions

/-!
# Arithmetic in C

An expression is written as it stands in the source.  C divides the text into the same lexemes and
gives them the same structure.

* `Tree.Expression.formula`: the structure that the grammar of the language gives to an expression.
  A repetition is grouped from left to right.
* `C.Transcribes n code ts f`: C divides the text `code` into the tokens `ts`, and these have the
  structure `f`.  It holds of every expression, with the operators of the first two levels
  (`Tree.Expression.transcribes`), by one step for each rule of the grammar.
* `arithmetic_is_kept`: so it is for every expression in the text of a program.
-/

namespace TinyBasic

open TinyBasic.Tree

/-! ### The structure of expressions -/

namespace Tree

variable {X : Type} {isOperator : Token.Kind → Bool}

/-- The texts of tokens. -/
def lexemes (ts : List (Located Token)) : List String := ts.map (·.value.text)

theorem lexemes_operation {p : Token.Kind → Prop} (ts us : List (Located Token)) (l : Leaf p) :
    lexemes (ts ++ l.token :: us) = lexemes ts ++ l.text :: lexemes us := by
  simp [lexemes, Leaf.text]

/-- Each operator is applied to all that comes before it. -/
def Series.formula (operand : X → Formula) (x : Series isOperator X) : Formula :=
  x.later.foldl (fun f y => .binary y.1.text f (operand y.2)) (operand x.first)

/-- A sign is applied to its operand. -/
def Unary.formula (u : Unary) : Formula :=
  match u.sign with
  | none => .operand u.operand.render
  | some l => .unary l.text (.operand u.operand.render)

def Term.formula : Term → Formula := Series.formula Unary.formula

def Expression.formula : Expression → Formula := Series.formula Term.formula

end Tree

/-! ### The structure in C -/

namespace C

variable {n : ℕ} {a b op s : String} {ls rs ts : List String} {f l r : Formula}

/-- C divides the text `code` into the tokens `ts`, and reads them with the binary operators of the
first `n` levels as the formula `f`. -/
structure Transcribes (n : ℕ) (code : String) (ts : List String) (f : Formula) : Prop where
  splits : SplitsInto code ts
  derives : Derives n ts f

namespace Transcribes

theorem operand (h : IsOperand s) : Transcribes 0 s [s] (.operand s) :=
  ⟨splitsInto_token h.isToken, .operand h⟩

theorem sign (h : Transcribes 0 a ts f) (hs : s = "+" ∨ s = "-")
    (ha : a.toList.head?.map Char.isAlphanum = some true) :
    Transcribes 0 (s ++ a) (s :: ts) (.unary s f) where
  splits := h.splits.sign hs ha
  derives := .unary (by rcases hs with rfl | rfl <;> decide) h.derives

theorem next (h : Transcribes n a ts f) : Transcribes (n + 1) a ts f := ⟨h.splits, h.derives.next⟩

theorem operation (hl : Transcribes (n + 1) a ls l) (hop : op ∈ operators n)
    (hr : Transcribes n b rs r) :
    Transcribes (n + 1) (a ++ (" " ++ op ++ " " ++ b)) (ls ++ op :: rs) (.binary op l r) where
  splits := hl.splits.operation (isToken_of_mem_operators hop) hr.splits
  derives := .binary hop hl.derives hr.derives

/-- The tokens have the structure that they were read with, and no other. -/
theorem parses_iff (h : Transcribes n a ts f) (hn : n ≤ levels.length) {g : Formula} :
    Parses ts g ↔ g = f :=
  ⟨fun hg => hg.unique (h.derives.mono hn), fun hg => hg ▸ h.derives.mono hn⟩

end Transcribes

end C

/-! ### From the source to C -/

namespace Tree

variable {X : Type} {isOperator : Token.Kind → Bool}

/-- What holds of all operators that may stand in a place holds of the one that stands there. -/
theorem Leaf.forall_text {P : String → Prop} (l : Leaf (isOperator ·)) (h : IsSpelled l.token)
    (hop : ∀ k : Token.Kind, isOperator k = true →
      k.isAdditive = true ∨ k.isMultiplicative = true ∨ k.isComparison = true)
    (hP : ∀ o ∈ Lexeme.operators, isOperator o.2 = true → P o.1) : P l.text := by
  obtain ⟨raw, h⟩ := h
  obtain ⟨s, hs, htext⟩ := h.exists_operator (hop _ l.fits)
  rw [Leaf.text, String.toList_inj.1 htext]
  exact hP _ hs l.fits

/-- The keywords of C are among the names that no variable has, or they are no words. -/
theorem notMem_keywords {w : String} (h : Lexeme.IsWord w.toList) (hw : w ∉ Reserved.words) :
    w ∉ C.keywords := by
  have hall : ∀ k ∈ C.keywords, k ∈ Reserved.words ∨ k.toList.head? = some '_' := by decide
  intro hmem
  obtain ⟨c, cs, hchars, hc, -⟩ := h
  rcases hall w hmem with hmem | hhead
  · exact hw hmem
  · rw [hchars] at hhead
    obtain rfl := Option.some.inj hhead
    simp at hc

/-- A number or a variable is an operand of C. -/
theorem Primary.isOperand (p : Primary) (h : IsPlain p.token) :
    C.IsOperand p.render ∧ p.render.toList.head?.map Char.isAlphanum = some true := by
  obtain ⟨⟨raw, hraw⟩, hfree⟩ := h
  cases p with
  | number l =>
    change Lexeme.Spells l.token.value.kind l.text.toList raw at hraw
    change C.IsOperand l.text ∧ l.text.toList.head?.map Char.isAlphanum = some true
    rw [l.fits] at hraw
    obtain ⟨c, cs, htext, hc, hcs⟩ := hraw.exists_digit
    refine ⟨.inr ?_, by simp [htext, Char.isAlphanum, hc]⟩
    rw [htext]
    refine (C.IsNumber.digit hc).append_of_forall fun d hd => (hcs d hd).imp_left fun hd => ?_
    simp [CText.isNameChar, Char.isAlphanum, hd]
  | «variable» l =>
    change Lexeme.Spells l.token.value.kind l.text.toList raw at hraw
    change C.IsOperand l.text ∧ l.text.toList.head?.map Char.isAlphanum = some true
    rw [l.fits] at hraw
    have hword := hraw.isWord
    have hkeyword := notMem_keywords hword (hfree l.fits)
    obtain ⟨c, cs, htext, hc, hcs⟩ := hword
    refine ⟨.inl ⟨⟨c, cs, htext, Lexeme.isDigit_eq_false_of_isAlpha hc, ?_⟩, hkeyword⟩,
      by simp [htext, Char.isAlphanum, hc]⟩
    rw [htext]
    refine List.forall_mem_cons.2 ⟨by simp [CText.isNameChar, Char.isAlphanum, hc], fun d hd => ?_⟩
    simp [CText.isNameChar, hcs d hd]

theorem Unary.transcribes (u : Unary) (h : ∀ t ∈ u.tokens, IsPlain t) :
    C.Transcribes 0 u.render (lexemes u.tokens) u.formula := by
  obtain ⟨sign, p⟩ := u
  obtain ⟨hoperand, hhead⟩ := p.isOperand (h p.token (by simp [tokens]))
  have hp := C.Transcribes.operand hoperand
  cases sign with
  | none =>
    have hrender : Unary.render ⟨none, p⟩ = p.render := by simp [render]
    exact hrender ▸ hp
  | some l =>
    have hsign := l.forall_text (P := fun s => s = "+" ∨ s = "-")
      (h l.token (by simp [tokens])).spelled (fun _ => .inl) (by decide)
    have hrender : Unary.render ⟨some l, p⟩ = l.text ++ p.render := by simp [render]
    exact hrender ▸ hp.sign hsign hhead

/-- **A series is read from left to right**, if its operators are those of the next level. -/
theorem Series.transcribes {n : ℕ} {tokens : X → List (Located Token)} {code : X → String}
    {formula : X → Formula}
    (hop : ∀ k : Token.Kind, isOperator k = true →
      k.isAdditive = true ∨ k.isMultiplicative = true ∨ k.isComparison = true)
    (hlevel : ∀ o ∈ Lexeme.operators, isOperator o.2 = true → o.1 ∈ C.operators n)
    (hoperand : ∀ y, (∀ t ∈ tokens y, IsPlain t) →
      C.Transcribes n (code y) (lexemes (tokens y)) (formula y))
    (x : Series isOperator X) (h : ∀ t ∈ x.tokens tokens, IsPlain t) :
    C.Transcribes (n + 1) (x.render code) (lexemes (x.tokens tokens)) (x.formula formula) := by
  obtain ⟨hfirst, hlater⟩ := Series.forall_mem h
  refine x.foldl_induction tokens _ (fun c ts f => C.Transcribes (n + 1) c (lexemes ts) f)
    (hoperand _ hfirst).next ?_
  intro y hy c ts f hf
  have hl := y.1.forall_text (hlater y hy).1.spelled hop hlevel
  rw [lexemes_operation]
  exact hf.operation hl (hoperand y.2 (hlater y hy).2)

/-- **C reads an expression as the source does.** -/
theorem Expression.transcribes (x : Expression) (h : ∀ t ∈ x.tokens, IsPlain t) :
    C.Transcribes 2 x.render (lexemes x.tokens) x.formula :=
  Series.transcribes (fun _ => .inl) (by decide)
    (Series.transcribes (fun _ h => .inr (.inl h)) (by decide) Unary.transcribes) x h

end Tree

variable {s : Source} {u : CUnit}

/-- **Arithmetic is kept.**  Every expression of a program that is translated stands on a line of
the body, where no token of C reaches into it or out of it.  Whatever comes after it there, C
divides its text into its lexemes, one after the other; and these are an expression of C with one
structure, the one that the source gives to it. -/
theorem arithmetic_is_kept (h : (translate s).result = .ok u) :
    ∃ p : Program, (∀ q : Program, q.IsOf s ↔ q = p) ∧
      ∀ x ∈ p.expressions, StandsOn x.render (CText.lines u.body) ∧
        (∀ rest out, C.Stops rest → C.Splits rest out → ∀ ts : List String,
          C.Splits (x.render.toList ++ rest) ts ↔ ts = lexemes x.tokens ++ out) ∧
        ∀ f : Formula, C.Parses (lexemes x.tokens) f ↔ f = x.formula := by
  obtain ⟨p, hp, hspelled, hscoped, rfl⟩ := exists_derivation h
  refine ⟨p, hp, fun x hx => ?_⟩
  have htranscribes := x.transcribes (Program.expression_isPlain hspelled hscoped hx)
  refine ⟨Program.expression_standsOn hspelled hx, ?_,
    fun f => htranscribes.parses_iff (by decide)⟩
  exact fun rest out hrest hout ts => htranscribes.splits.splits_iff hrest hout

/-- A program with signs after operators, and with operators of both levels. -/
def signs : Source where
  name := "signs"
  body := "LET x = 3\nIF x - -1 * 2 < -x / 1.5 THEN\nPRINT 4 - 2 - +x\nENDIF\n"

/-- Its text in C. -/
def signsOutput : CUnit where
  header := "#include <stdio.h>\nint main(void)\x7b\nfloat x;\n"
  body := "x = 3;\nif(x - -1 * 2 < -x / 1.5)\x7b\n" ++
    "printf(\"%.2f\\n\", (float)(4 - 2 - +x));\n\x7d\nreturn 0;\n\x7d\n"

theorem arithmetic_is_kept_signs :
    (translate signs).result = .ok signsOutput ∧
    ∃ p : Program, (∀ q : Program, q.IsOf signs ↔ q = p) ∧
      ∀ x ∈ p.expressions, StandsOn x.render (CText.lines signsOutput.body) ∧
        (∀ rest out, C.Stops rest → C.Splits rest out → ∀ ts : List String,
          C.Splits (x.render.toList ++ rest) ts ↔ ts = lexemes x.tokens ++ out) ∧
        ∀ f : Formula, C.Parses (lexemes x.tokens) f ↔ f = x.formula :=
  ⟨by decide +kernel, arithmetic_is_kept (by decide +kernel)⟩

end TinyBasic
