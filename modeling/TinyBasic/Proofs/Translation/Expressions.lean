import TinyBasic.Proofs.C.Formula
import TinyBasic.Proofs.Translation.Scoping

/-!
# Where expressions stand

* `Tree.Program.parts`: the lines of statements and the conditions of blocks that a program is made
  of, also those inside blocks.
* `Tree.Program.expressions` and `Tree.Program.conditions`: the expressions and the conditions in
  them.  Every numeral of a program is in one of its expressions
  (`Tree.Program.exists_expression_of_number`).
* `StandsOn code ls`: the text `code` stands on one of the lines between places where no token of C
  goes on.  On the lines of the body all expressions and conditions do
  (`Tree.Program.expression_standsOn`, `Tree.Program.condition_standsOn`).
* `IsPlain t`: the token is spelled as its kind demands, and it is no name that C takes.
-/

namespace TinyBasic

open TinyBasic.Tree

/-- **What is translated has one derivation**, which keeps the static rules and is spelled as it
should be. -/
theorem exists_derivation {s : Source} {u : CUnit} (h : (translate s).result = .ok u) :
    ∃ p : Program, (∀ q : Program, q.IsOf s ↔ q = p) ∧ (∀ t ∈ p.tokens, IsSpelled t) ∧
      WellScoped p.uses ∧ p.output = u := by
  obtain ⟨p, hp, hscoped, houtput⟩ := translate_eq_ok_iff.1 h
  exact ⟨p, fun q => ⟨fun hq => hq.unique hp, fun hq => hq ▸ hp⟩, hp.isSpelled, hscoped, houtput⟩

namespace Tree

variable {s : TinyBasic.Statement} {X : Type} {isOperator : Token.Kind → Bool} {t : Located Token}

/-! ### Parts of programs -/

/-- The line of a statement, or the condition of a block. -/
inductive Part where
  | line {s : TinyBasic.Statement} (l : Line s)
  | condition (b : Block) (c : Comparison)

mutual

/-- The parts of a statement, in the order of its text. -/
def Statement.parts : Statement → List Part
  | .line _ _ l _ => [.line l]
  | .block b head body _ => .condition b head.condition :: partsAll body

def partsAll : List Statement → List Part
  | [] => []
  | s :: ss => s.parts ++ partsAll ss

end

/-- The parts of a program, in the order of its text. -/
def Program.parts (p : Program) : List Part := partsAll p.statements

/-- What is computed on the line of a statement. -/
def Line.expressions : Line s → List Expression
  | .printValue value => [value]
  | .assign _ _ value => [value]
  | .printText _ | .label _ | .goto _ | .input _ => []

/-- The operands of a series, from left to right. -/
def Series.operands (x : Series isOperator X) : List X := x.first :: x.later.map (·.2)

namespace Part

def lines : Part → List String
  | line l => l.lines
  | condition b c => [b.word ++ "(" ++ c.render ++ ")\x7b"]

def tokens : Part → List (Located Token)
  | line l => l.tokens
  | condition _ c => c.tokens

def uses : Part → List Use
  | line l => l.uses
  | condition _ c => c.uses

def expressions : Part → List Expression
  | line l => l.expressions
  | condition _ c => c.chain.operands

def conditions : Part → List Comparison
  | line _ => []
  | condition _ c => [c]

/-- The lines, the tokens and the uses of names of a part are among these. -/
structure IsIn (x : Part) (ls : List String) (ts : List (Located Token)) (us : List Use) :
    Prop where
  lines : x.lines ⊆ ls
  tokens : x.tokens ⊆ ts
  uses : x.uses ⊆ us

end Part

/-- The expressions of a program: what is printed or assigned, and the sides of comparisons. -/
def Program.expressions (p : Program) : List Expression := p.parts.flatMap Part.expressions

/-- The conditions of the blocks of a program. -/
def Program.conditions (p : Program) : List Comparison := p.parts.flatMap Part.conditions

mutual

theorem Statement.part_isIn (x : Statement) : ∀ y ∈ x.parts, y.IsIn x.lines x.tokens x.uses :=
  match x with
  | .line _ _ l _ => by
    rintro y hy
    obtain rfl := List.mem_singleton.1 hy
    exact ⟨fun _ => id, fun t ht => by simp [Statement.tokens, show t ∈ l.tokens from ht],
      fun _ => id⟩
  | .block b head body _ => by
    intro y hy
    rw [Statement.uses_block]
    rcases List.mem_cons.1 hy with rfl | hy
    · refine ⟨fun _ hl => ?_, fun t ht => ?_, List.subset_append_left _ _⟩
      · obtain rfl := List.mem_singleton.1 hl
        simp [Statement.lines]
      · simp [Statement.tokens, Head.tokens, show t ∈ head.condition.tokens from ht]
    · obtain ⟨hlines, htokens, huses⟩ := part_isIn_all body y hy
      refine ⟨fun l hl => ?_, fun t ht => ?_, fun u hu => List.mem_append_right _ (huses hu)⟩
      · simp [Statement.lines, hlines hl]
      · simp [Statement.tokens, htokens ht]

theorem part_isIn_all (xs : List Statement) :
    ∀ y ∈ partsAll xs, y.IsIn (linesAll xs) (tokensAll xs) (usesAll xs) :=
  match xs with
  | [] => by simp [partsAll]
  | x :: xs => by
    intro y hy
    rw [usesAll_cons]
    rcases List.mem_append.1 hy with hy | hy
    · obtain ⟨hlines, htokens, huses⟩ := x.part_isIn y hy
      exact ⟨fun _ h => List.mem_append_left _ (hlines h), fun _ h =>
        List.mem_append_left _ (htokens h), fun _ h => List.mem_append_left _ (huses h)⟩
    · obtain ⟨hlines, htokens, huses⟩ := part_isIn_all xs y hy
      exact ⟨fun _ h => List.mem_append_right _ (hlines h), fun _ h =>
        List.mem_append_right _ (htokens h), fun _ h => List.mem_append_right _ (huses h)⟩

end

theorem Program.part_isIn (p : Program) : ∀ y ∈ p.parts, y.IsIn p.lines p.tokens p.uses := by
  intro y hy
  obtain ⟨hlines, htokens, huses⟩ := part_isIn_all p.statements y hy
  exact ⟨hlines, fun t ht => List.mem_append_right _ (htokens ht), huses⟩

/-! ### Numerals -/

theorem LineEnd.kind_eq (n : LineEnd) : ∀ t ∈ n.tokens, t.value.kind = .newline := by
  refine List.forall_mem_cons.2 ⟨n.first.fits, fun t ht => ?_⟩
  obtain ⟨l, -, rfl⟩ := List.mem_map.1 ht
  exact l.fits

theorem Leaf.kind_ne {p : Token.Kind → Prop} (l : Leaf p) (hp : ¬ p .number) :
    l.token.value.kind ≠ .number := fun h => hp (h ▸ l.fits)

theorem Series.exists_operand {tokens : X → List (Located Token)} (x : Series isOperator X)
    (hop : isOperator .number = false) (ht : t ∈ x.tokens tokens)
    (hk : t.value.kind = .number) : ∃ y ∈ x.operands, t ∈ tokens y := by
  rcases List.mem_append.1 ht with ht | ht
  · exact ⟨x.first, List.mem_cons_self, ht⟩
  · obtain ⟨y, hy, ht⟩ := List.mem_flatMap.1 ht
    rcases List.mem_cons.1 ht with rfl | ht
    · exact absurd hk (y.1.kind_ne (by simp [hop]))
    · exact ⟨y.2, List.mem_cons_of_mem _ (List.mem_map.2 ⟨y, hy, rfl⟩), ht⟩

theorem Line.exists_expression (l : Line s) (ht : t ∈ l.tokens) (hk : t.value.kind = .number) :
    ∃ x ∈ l.expressions, t ∈ x.tokens := by
  have hother : ∀ {p : Token.Kind → Prop} (m : Leaf p), ¬ p .number → t ≠ m.token :=
    fun m hp htm => m.kind_ne hp (htm ▸ hk)
  cases l with
  | printValue x => exact ⟨x, List.mem_cons_self, ht⟩
  | assign name equals x =>
    rcases List.mem_cons.1 ht with ht | ht
    · exact absurd ht (hother name (by simp))
    · rcases List.mem_cons.1 ht with ht | ht
      · exact absurd ht (hother equals (by simp))
      · exact ⟨x, List.mem_cons_self, ht⟩
  | printText m | label m | goto m | input m =>
    exact absurd (List.mem_singleton.1 ht) (hother m (by simp))

mutual

theorem Statement.exists_part (x : Statement) (ht : t ∈ x.tokens) (hk : t.value.kind = .number) :
    ∃ y ∈ x.parts, ∃ e ∈ y.expressions, t ∈ e.tokens :=
  match x with
  | .line s keyword l n => by
    simp only [Statement.tokens, List.cons_append, List.mem_cons, List.mem_append] at ht
    rcases ht with rfl | ht | ht
    · exact absurd hk (keyword.kind_ne (by simp))
    · exact ⟨.line l, List.mem_cons_self, l.exists_expression ht hk⟩
    · simp [n.kind_eq t ht] at hk
  | .block b head body foot => by
    simp only [Statement.tokens, Head.tokens, Foot.tokens, List.cons_append, List.append_assoc,
      List.mem_cons, List.mem_append] at ht
    rcases ht with rfl | ht | rfl | ht | ht | rfl | ht
    · exact absurd hk (head.keyword.kind_ne (by simp))
    · exact ⟨.condition b head.condition, List.mem_cons_self,
        head.condition.chain.exists_operand rfl ht hk⟩
    · exact absurd hk (head.divider.kind_ne (by simp))
    · simp [head.ending.kind_eq t ht] at hk
    · obtain ⟨y, hy, he⟩ := exists_part_all body ht hk
      exact ⟨y, List.mem_cons_of_mem _ hy, he⟩
    · exact absurd hk (foot.keyword.kind_ne (by simp))
    · simp [foot.ending.kind_eq t ht] at hk

theorem exists_part_all (xs : List Statement) (ht : t ∈ tokensAll xs)
    (hk : t.value.kind = .number) : ∃ y ∈ partsAll xs, ∃ e ∈ y.expressions, t ∈ e.tokens :=
  match xs with
  | [] => by simp [tokensAll] at ht
  | x :: xs => by
    rcases List.mem_append.1 ht with ht | ht
    · obtain ⟨y, hy, he⟩ := x.exists_part ht hk
      exact ⟨y, List.mem_append_left _ hy, he⟩
    · obtain ⟨y, hy, he⟩ := exists_part_all xs ht hk
      exact ⟨y, List.mem_append_right _ hy, he⟩

end

/-- **Every numeral of a program is in one of its expressions.** -/
theorem Program.exists_expression_of_number (p : Program) (ht : t ∈ p.tokens)
    (hk : t.value.kind = .number) : ∃ x ∈ p.expressions, t ∈ x.tokens := by
  rcases List.mem_append.1 ht with ht | ht
  · obtain ⟨l, -, rfl⟩ := List.mem_map.1 ht
    exact absurd hk (l.kind_ne (by simp))
  · obtain ⟨y, hy, e, he, ht⟩ := exists_part_all p.statements ht hk
    exact ⟨e, List.mem_flatMap.2 ⟨y, hy, he⟩, ht⟩

end Tree

/-! ### Places on a line -/

/-- The text `code` stands on one of the lines.  A stop comes before it and another one after it,
unless the line ends there, so that no token of C reaches into it or out of it. -/
def StandsOn (code : String) (ls : List String) : Prop :=
  ∃ front back, front ++ code ++ back ∈ ls ∧
    (∃ c, front.toList.getLast? = some c ∧ c ∈ C.stops) ∧ C.Stops back.toList

theorem StandsOn.mono {code : String} {ls ls' : List String} (h : StandsOn code ls)
    (hls : ls ⊆ ls') : StandsOn code ls' := by
  obtain ⟨front, back, hline, hends⟩ := h
  exact ⟨front, back, hls hline, hends⟩

namespace Tree

variable {X : Type} {isOperator : Token.Kind → Bool}

/-- An operand stands between blanks, if not at an end. -/
theorem Series.exists_render {code : X → String} (x : Series isOperator X) {y : X}
    (hy : y ∈ x.operands) :
    ∃ front back, x.render code = front ++ code y ++ back ∧
      (front = "" ∨ front.toList.getLast? = some ' ') ∧
      (back = "" ∨ back.toList.head? = some ' ') := by
  have hback : ∀ later : List (Leaf (isOperator ·) × X),
      let back := String.join (later.map fun y => " " ++ y.1.text ++ " " ++ code y.2)
      back = "" ∨ back.toList.head? = some ' ' := by
    rintro (_ | ⟨z, later⟩)
    · exact .inl (by simp)
    · exact .inr (by simp)
  rcases List.mem_cons.1 hy with rfl | hy
  · exact ⟨"", _, by simp [render], .inl rfl, hback x.later⟩
  · obtain ⟨z, hz, rfl⟩ := List.mem_map.1 hy
    obtain ⟨before, later, hlater⟩ := List.append_of_mem hz
    refine ⟨code x.first ++ String.join (before.map fun y => " " ++ y.1.text ++ " " ++ code y.2) ++
      " " ++ z.1.text ++ " ", _, ?_, .inr ?_, hback later⟩
    · simp [render, hlater, String.append_assoc]
    · rw [String.toList_append]
      exact List.getLast?_concat

theorem Part.condition_standsOn (y : Part) : ∀ c ∈ y.conditions, StandsOn c.render y.lines := by
  cases y with
  | line => simp [conditions]
  | condition b c =>
    refine List.forall_mem_singleton.2 ⟨b.word ++ "(", ")\x7b", List.mem_singleton_self _, ?_, ?_⟩
    · exact ⟨'(', by rw [String.toList_append]; exact List.getLast?_concat, by decide⟩
    · exact C.stops_cons (by decide) _

theorem Part.expression_standsOn (y : Part) : ∀ x ∈ y.expressions, StandsOn x.render y.lines := by
  intro x hx
  cases y with
  | line l =>
    cases l with
    | printValue value =>
      obtain rfl := List.mem_singleton.1 hx
      exact ⟨_, _, List.mem_singleton_self _, ⟨'(', rfl, by decide⟩, C.stops_cons (by decide) _⟩
    | assign name equals value =>
      obtain rfl := List.mem_singleton.1 hx
      refine ⟨name.text ++ " = ", ";", List.mem_singleton_self _, ⟨' ', ?_, by decide⟩,
        C.stops_cons (by decide) _⟩
      simp
    | _ => cases hx
  | condition b c =>
    obtain ⟨front, back, hrender, hfront, hback⟩ := c.chain.exists_render hx
    refine ⟨b.word ++ "(" ++ front, back ++ ")\x7b", ?_, ?_, ?_⟩
    · have hline : b.word ++ "(" ++ c.chain.render Expression.render ++ ")\x7b" ∈
          (condition b c).lines := List.mem_singleton_self _
      rw [hrender] at hline
      simpa [String.append_assoc] using hline
    · rcases hfront with rfl | hfront
      · exact ⟨'(', by simp, by decide⟩
      · exact ⟨' ', by rw [String.toList_append, List.getLast?_append, hfront]; rfl, by decide⟩
    · rcases hback with rfl | hback
      · exact C.stops_cons (by decide) _
      · obtain ⟨cs, hcs⟩ := List.head?_eq_some_iff.1 hback
        rw [String.toList_append, hcs]
        exact C.stops_cons (by decide) _

theorem Program.lines_subset_body {p : Program} (h : ∀ t ∈ p.tokens, IsSpelled t) :
    p.lines ⊆ CText.lines p.output.body := by
  rw [p.lines_body h, List.append_assoc]
  exact List.subset_append_left _ _

/-- **Every expression of a program stands in the body.** -/
theorem Program.expression_standsOn {p : Program} (h : ∀ t ∈ p.tokens, IsSpelled t)
    {x : Expression} (hx : x ∈ p.expressions) :
    StandsOn x.render (CText.lines p.output.body) := by
  obtain ⟨y, hy, hx⟩ := List.mem_flatMap.1 hx
  exact ((y.expression_standsOn x hx).mono (p.part_isIn y hy).lines).mono (lines_subset_body h)

/-- **Every condition of a program stands in the body.** -/
theorem Program.condition_standsOn {p : Program} (h : ∀ t ∈ p.tokens, IsSpelled t)
    {c : Comparison} (hc : c ∈ p.conditions) :
    StandsOn c.render (CText.lines p.output.body) := by
  obtain ⟨y, hy, hc⟩ := List.mem_flatMap.1 hc
  exact ((y.condition_standsOn c hc).mono (p.part_isIn y hy).lines).mono (lines_subset_body h)

end Tree

/-! ### Tokens of expressions -/

/-- The token is spelled as its kind demands, and it is no name that C takes. -/
structure IsPlain (t : Located Token) : Prop where
  spelled : IsSpelled t
  free : t.value.kind = .ident → t.value.text ∉ Reserved.words

/-- A variable that is read has a name of its own. -/
theorem WellScoped.read_free {p : Program} (h : WellScoped p.uses) {n : String}
    (hn : .read n ∈ p.uses) : n ∉ Reserved.words := by
  have hvariable := h.mem_variables (.inl hn)
  rw [Program.variables, List.mem_eraseDups, Use.mem_targets] at hvariable
  exact (h.target n hvariable).1

namespace Tree

variable {X : Type} {isOperator : Token.Kind → Bool} {t : Located Token}

theorem Unary.read_mem_uses (u : Unary) (ht : t ∈ u.tokens) (hk : t.value.kind = .ident) :
    .read t.value.text ∈ u.uses := by
  obtain ⟨sign, operand⟩ := u
  rcases List.mem_append.1 ht with ht | ht
  · obtain ⟨l, -, rfl⟩ := List.mem_map.1 ht
    have hadditive := l.fits
    simp [hk, Token.Kind.isAdditive] at hadditive
  · obtain rfl := List.mem_singleton.1 ht
    cases operand with
    | number l => simp [Primary.token, l.fits] at hk
    | «variable» l => exact List.mem_singleton_self _

theorem Series.read_mem_uses {tokens : X → List (Located Token)} {uses : X → List Use}
    (hop : isOperator .ident = false)
    (hoperand : ∀ y, t ∈ tokens y → t.value.kind = .ident → .read t.value.text ∈ uses y)
    (x : Series isOperator X) (ht : t ∈ x.tokens tokens) (hk : t.value.kind = .ident) :
    .read t.value.text ∈ x.gather uses := by
  rcases List.mem_append.1 ht with ht | ht
  · exact List.mem_append_left _ (hoperand x.first ht hk)
  · obtain ⟨y, hy, ht⟩ := List.mem_flatMap.1 ht
    rcases List.mem_cons.1 ht with rfl | ht
    · have hoperator := y.1.fits
      simp [hk, hop] at hoperator
    · exact List.mem_append_right _ (List.mem_flatMap.2 ⟨y, hy, hoperand y.2 ht hk⟩)

theorem Expression.read_mem_uses (x : Expression) (ht : t ∈ x.tokens)
    (hk : t.value.kind = .ident) : .read t.value.text ∈ x.uses := by
  rw [x.uses_eq]
  exact Series.read_mem_uses rfl (Series.read_mem_uses rfl Unary.read_mem_uses) x ht hk

theorem Comparison.read_mem_uses (c : Comparison) (ht : t ∈ c.tokens)
    (hk : t.value.kind = .ident) : .read t.value.text ∈ c.uses := by
  rw [c.uses_eq]
  exact Series.read_mem_uses rfl Expression.read_mem_uses c.chain ht hk

theorem Series.tokens_subset {tokens : X → List (Located Token)} (x : Series isOperator X) {y : X}
    (hy : y ∈ x.operands) : tokens y ⊆ x.tokens tokens := by
  rcases List.mem_cons.1 hy with rfl | hy
  · exact List.subset_append_left _ _
  · obtain ⟨z, hz, rfl⟩ := List.mem_map.1 hy
    exact fun t ht =>
      List.mem_append_right _ (List.mem_flatMap.2 ⟨z, hz, List.mem_cons_of_mem _ ht⟩)

/-- The names in a part of a program that keeps the static rules are free. -/
theorem Part.condition_isPlain {y : Part} (hspelled : ∀ t ∈ y.tokens, IsSpelled t)
    (hfree : ∀ n, .read n ∈ y.uses → n ∉ Reserved.words) :
    ∀ c ∈ y.conditions, ∀ t ∈ c.tokens, IsPlain t := by
  cases y with
  | line => simp [conditions]
  | condition b c =>
    exact List.forall_mem_singleton.2 fun t ht =>
      ⟨hspelled t ht, fun hk => hfree _ (c.read_mem_uses ht hk)⟩

theorem Part.expression_isPlain {y : Part} (hspelled : ∀ t ∈ y.tokens, IsSpelled t)
    (hfree : ∀ n, .read n ∈ y.uses → n ∉ Reserved.words) :
    ∀ x ∈ y.expressions, ∀ t ∈ x.tokens, IsPlain t := by
  intro x hx t ht
  cases y with
  | line l =>
    cases l with
    | printValue value =>
      obtain rfl := List.mem_singleton.1 hx
      exact ⟨hspelled t ht, fun hk => hfree _ (x.read_mem_uses ht hk)⟩
    | assign name equals value =>
      obtain rfl := List.mem_singleton.1 hx
      rw [uses, Line.uses_assign] at hfree
      exact ⟨hspelled t (by simp [tokens, Line.tokens, ht]), fun hk =>
        hfree _ (List.mem_append_left _ (x.read_mem_uses ht hk))⟩
    | _ => cases hx
  | condition b c =>
    exact condition_isPlain hspelled hfree c (List.mem_singleton_self c) t
      (c.chain.tokens_subset hx ht)

theorem Program.expression_isPlain {p : Program} (hspelled : ∀ t ∈ p.tokens, IsSpelled t)
    (h : WellScoped p.uses) {x : Expression} (hx : x ∈ p.expressions) :
    ∀ t ∈ x.tokens, IsPlain t := by
  obtain ⟨y, hy, hx⟩ := List.mem_flatMap.1 hx
  obtain ⟨-, htokens, huses⟩ := p.part_isIn y hy
  exact Part.expression_isPlain (fun t ht => hspelled t (htokens ht))
    (fun n hn => h.read_free (huses hn)) x hx

theorem Program.condition_isPlain {p : Program} (hspelled : ∀ t ∈ p.tokens, IsSpelled t)
    (h : WellScoped p.uses) {c : Comparison} (hc : c ∈ p.conditions) :
    ∀ t ∈ c.tokens, IsPlain t := by
  obtain ⟨y, hy, hc⟩ := List.mem_flatMap.1 hc
  obtain ⟨-, htokens, huses⟩ := p.part_isIn y hy
  exact Part.condition_isPlain (fun t ht => hspelled t (htokens ht))
    (fun n hn => h.read_free (huses hn)) c hc

end Tree

end TinyBasic
