import TinyBasic.Proofs.Grammar.Predictive

/-!
# The parsers of the grammar are predictive

The tokens of the trees of each rule are a language made up from those of its parts
(`Grammar.yields_series`, `Grammar.yields_line` and the lemmas beside them), and the parser of the
rule is made up in the same way.  So it predicts its language: `Grammar.predicts_expression`,
`Grammar.predicts_comparison`, and `Grammar.predicts_statement` for a line or the first line of a
block.
-/

namespace TinyBasic

open TinyBasic.Tree TinyBasic.Parser
open scoped Computability

namespace Grammar

variable {α X Y Z : Type} {isOperator : Token.Kind → Bool} {tokens : X → List (Located Token)}
  {w : Window} {L : Language (Located Token)} {P ends : Token.Kind → Prop} {b : Block}
  {bs : List Block} {s : TinyBasic.Statement}

/-! ### Languages of trees -/

/-- Trees of two parts. -/
theorem yields_eq_mul {f : X → List (Located Token)} {g : Y → List (Located Token)}
    {h : Z → List (Located Token)} (mk : X → Y → Z) (hmk : ∀ z, ∃ x y, mk x y = z)
    (htokens : ∀ x y, h (mk x y) = f x ++ g y) : yields h = yields f * yields g := by
  refine Language.ext fun us => ⟨?_, fun hus => ?_⟩
  · rintro ⟨z, rfl⟩
    obtain ⟨x, y, rfl⟩ := hmk z
    rw [htokens]
    exact Language.append_mem_mul ⟨x, rfl⟩ ⟨y, rfl⟩
  · obtain ⟨_, ⟨x, rfl⟩, _, ⟨y, rfl⟩, rfl⟩ := Language.mem_mul.1 hus
    exact ⟨mk x y, htokens x y⟩

theorem yields_prod (f : X → List (Located Token)) (g : Y → List (Located Token)) :
    yields (fun x : X × Y => f x.1 ++ g x.2) = yields f * yields g :=
  yields_eq_mul Prod.mk (fun x => ⟨x.1, x.2, rfl⟩) fun _ _ => rfl

/-- A leaf in front of a tree. -/
theorem yields_cons (tokens : X → List (Located Token)) :
    yields (fun x : Leaf P × X => x.1.token :: tokens x.2) = one P * yields tokens :=
  yields_prod (fun l : Leaf P => [l.token]) tokens

theorem yields_flatMap (tokens : X → List (Located Token)) :
    yields (fun xs : List X => xs.flatMap tokens) = (yields tokens)∗ := by
  refine Language.ext fun us => ⟨?_, fun hus => ?_⟩
  · rintro ⟨xs, rfl⟩
    refine Language.mem_kstar.2 ⟨xs.map tokens, rfl, fun ts hts => ?_⟩
    obtain ⟨x, -, rfl⟩ := List.mem_map.1 hts
    exact ⟨x, rfl⟩
  · obtain ⟨tss, rfl, hall⟩ := Language.mem_kstar.1 hus
    clear hus
    induction tss with
    | nil => exact ⟨[], rfl⟩
    | cons ts tss ih =>
      obtain ⟨x, rfl⟩ := hall ts List.mem_cons_self
      obtain ⟨xs, hxs⟩ := ih fun ts h => hall ts (.tail _ h)
      exact ⟨x :: xs, congrArg (tokens x ++ ·) hxs⟩

/-- The operands of a series after the first, with the operators before them. -/
theorem yields_later :
    yields (fun later : List (Leaf (isOperator ·) × X) =>
      later.flatMap fun x => x.1.token :: tokens x.2) = (one (isOperator ·) * yields tokens)∗ := by
  rw [yields_flatMap, yields_cons]

theorem yields_series :
    yields (X := Series isOperator X) (Series.tokens tokens) =
      yields tokens * (one (isOperator ·) * yields tokens)∗ := by
  rw [← yields_later]
  exact yields_eq_mul Series.mk (fun x => ⟨x.1, x.2, rfl⟩) fun _ _ => rfl

/-- The kinds of operands. -/
def IsOperand (k : Token.Kind) : Prop := k = .number ∨ k = .ident

theorem yields_primary : yields (fun p : Primary => [p.token]) = one IsOperand := by
  refine Language.ext fun us => ⟨?_, ?_⟩
  · rintro ⟨p, rfl⟩
    cases p with
    | number l => exact mem_one (.inl l.fits)
    | «variable» l => exact mem_one (.inr l.fits)
  · rintro ⟨⟨t, ht | ht⟩, rfl⟩
    · exact ⟨.number ⟨t, ht⟩, rfl⟩
    · exact ⟨.variable ⟨t, ht⟩, rfl⟩

theorem yields_unary :
    yields Unary.tokens = one (Token.Kind.isAdditive ·) * one IsOperand + one IsOperand := by
  rw [← yields_primary]
  refine Language.ext fun us => ⟨?_, ?_⟩
  · rintro ⟨⟨sign, p⟩, rfl⟩
    cases sign with
    | some l => exact .inl (Language.append_mem_mul ⟨l, rfl⟩ ⟨p, rfl⟩)
    | none => exact .inr ⟨p, rfl⟩
  · rintro (hus | ⟨p, rfl⟩)
    · obtain ⟨_, ⟨l, rfl⟩, _, ⟨p, rfl⟩, rfl⟩ := Language.mem_mul.1 hus
      exact ⟨⟨some l, p⟩, rfl⟩
    · exact ⟨⟨none, p⟩, rfl⟩

theorem yields_comparison :
    yields Comparison.tokens = yields Expression.tokens *
      (one (Token.Kind.isComparison ·) * yields Expression.tokens *
        (one (Token.Kind.isComparison ·) * yields Expression.tokens)∗) := by
  rw [← yields_later, ← yields_cons, ← yields_prod]
  refine yields_eq_mul (fun x y => ⟨⟨x, y.1 :: y.2⟩, List.cons_ne_nil _ _⟩) (fun c => ?_)
    fun _ _ => rfl
  obtain ⟨⟨x, later⟩, hne⟩ := c
  obtain ⟨y, later, rfl⟩ := List.exists_cons_of_ne_nil hne
  exact ⟨x, (y, later), rfl⟩

theorem yields_newlines :
    yields (fun ls : List (Exactly .newline) => ls.map Leaf.token) = (one (· = .newline))∗ := by
  rw [one, ← yields_flatMap]
  simp only [List.map_eq_flatMap]

theorem yields_lineEnd :
    yields LineEnd.tokens = one (· = .newline) * (one (· = .newline))∗ := by
  rw [← yields_newlines]
  exact yields_eq_mul LineEnd.mk (fun n => ⟨n.1, n.2, rfl⟩) fun _ _ => rfl

/-! ### Expressions -/

theorem silent_paste : paste.Silent :=
  silent_current.bind fun _ => (silent_perform _).bind fun _ => silent_advance

theorem predicts_paste (hw : w.Settled) (hc : P w.current.value.kind)
    (heof : w.current.value.kind ≠ .eof) : paste.Predicts w (one P) fun _ => True :=
  silent_paste.predicts hc fun _ ha => ⟨_, takes_paste_of_ok hw heof ha⟩

theorem predicts_operator (hw : w.Settled) (hc : P w.current.value.kind)
    (heof : w.current.value.kind ≠ .eof) : operator.Predicts w (one P) fun _ => True := by
  refine (takes_perform hw _).predicts_bind ?_
  exact (predicts_paste hw hc heof).bind_idle fun _ => idle_perform _

theorem predicts_primary (hw : w.Settled) : primary.Predicts w (one IsOperand) fun _ => True := by
  refine (takes_current hw).predicts_bind ((takes_perform hw _).predicts_bind ?_)
  split
  case h_1 hk => exact predicts_paste hw (.inl hk) (by simp [hk])
  case h_2 hk =>
    exact (takes_perform hw _).predicts_bind (predicts_paste hw (.inr hk) (by simp [hk]))
  case h_3 hnumber hident =>
    refine predicts_fail rfl ?_ opens_one (fun _ _ => trivial) fun hk => hk.elim hnumber hident
    exact ⟨_, mem_one (t := sample .number) (.inl rfl)⟩

theorem predicts_unary (hw : w.Settled) :
    unary.Predicts w (yields Unary.tokens) fun _ => True := by
  rw [yields_unary]
  refine (takes_perform hw _).predicts_bind ((takes_current hw).predicts_bind ?_)
  have hoperand : Set.Nonempty (one IsOperand) := ⟨_, mem_one (t := sample .number) (.inl rfl)⟩
  by_cases hc : w.current.value.kind.isAdditive = true
  · rw [if_pos hc]
    have hsign : paste.Predicts w (one (Token.Kind.isAdditive ·)) fun _ => True :=
      predicts_paste hw hc (ne_eof_of_isOperator rfl hc)
    have hsigned := hsign.one_bind hoperand fun ht => predicts_primary ht.settled
    refine hsigned.inl (fun _ => (opens_one.mul_right _).begins) ?_
    rintro (hk | hk) <;> simp [hk, Token.Kind.isAdditive] at hc
  · rw [if_neg hc]
    refine Predicts.inr ?_ (fun _ => ((opens_one.mul_right _).mul_right _).begins) hc
    exact predicts_primary hw

section Series

variable {operand : Parser Unit} {follow : Token.Kind → Prop}

/-- An operator and an operand. -/
theorem predicts_operation [Nonempty X]
    (hoperand : ∀ {w : Window}, w.Settled → operand.Predicts w (yields tokens) follow)
    (heof : isOperator .eof = false) (hw : w.Settled)
    (hc : isOperator w.current.value.kind = true) :
    (do operator; operand : Parser Unit).Predicts w (one (isOperator ·) * yields tokens)
      follow :=
  (predicts_operator hw hc (ne_eof_of_isOperator heof hc)).one_bind (nonempty_yields tokens)
    fun ht => hoperand ht.settled

theorem delimited_operation (hdetermines : Determines tokens follow) :
    Delimited (one (isOperator ·) * yields tokens) follow := by
  rw [← yields_cons]
  refine delimited_yields ?_
  rintro ⟨l, x⟩ ⟨l', x'⟩ r r' heq hr hr'
  obtain ⟨hl, heq⟩ := List.cons.inj heq
  obtain rfl := Leaf.ext hl
  obtain ⟨rfl, rfl⟩ := hdetermines heq hr hr'
  exact ⟨rfl, rfl⟩

/-- What begins with an operator, or after the operations. -/
theorem begins_operations (hfollow : ∀ k, isOperator k = true → follow k)
    {K : Language (Located Token)} (hK : Begins K fun k => follow k ∧ isOperator k = false) :
    Begins ((one (isOperator ·) * yields tokens)∗ * K) follow :=
  ((opens_one.mul_right _).mono hfollow).begins_kstar_mul (hK.mono fun _ hk => hk.1)

/-- **A series is predicted when its operands are.** -/
theorem predicts_series [Nonempty X] (c : Construct)
    (hoperand : ∀ {w : Window}, w.Settled → operand.Predicts w (yields tokens) follow)
    (hdetermines : Determines tokens follow) (heof : isOperator .eof = false)
    (hfollow : ∀ k, isOperator k = true → follow k) (hw : w.Settled) :
    (do perform (.record c); operand; operations isOperator operand heof).Predicts w
      (yields (X := Series isOperator X) (Series.tokens tokens))
      fun k => follow k ∧ isOperator k = false := by
  rw [yields_series]
  refine (takes_perform hw _).predicts_bind ?_
  refine (hoperand hw).bind (delimited_yields hdetermines) (nonempty_kstar _)
    (begins_operations hfollow) fun ht he => ?_
  exact predicts_many (fun hw hc => predicts_operation hoperand heof hw hc)
    (opens_one.mul_right _) (delimited_operation hdetermines) hfollow ht.settled he

end Series

instance : Nonempty Unary := ⟨⟨none, .number (Classical.arbitrary _)⟩⟩

instance [Nonempty X] : Nonempty (Series isOperator X) := ⟨⟨Classical.arbitrary X, []⟩⟩

theorem predicts_term (hw : w.Settled) : term.Predicts w (yields Term.tokens) EndsTerm :=
  (predicts_series .term predicts_unary determines_unary rfl (fun _ _ => trivial) hw).congr rfl
    fun _ => true_and _ ▸ .rfl

theorem predicts_expression (hw : w.Settled) :
    expression.Predicts w (yields Expression.tokens) EndsExpression :=
  predicts_series .expression predicts_term determines_term rfl (fun _ => endsTerm_of_isAdditive) hw

theorem predicts_comparison (hw : w.Settled) :
    comparison.Predicts w (yields Comparison.tokens) EndsComparison := by
  have hoperator : Set.Nonempty (one (Token.Kind.isComparison ·)) :=
    ⟨_, mem_one (t := sample .eqEq) rfl⟩
  have hlater := nonempty_mul (nonempty_mul hoperator (nonempty_yields Expression.tokens))
    (nonempty_kstar (one (Token.Kind.isComparison ·) * yields Expression.tokens))
  have hopens := ((opens_one (P := (Token.Kind.isComparison ·))).mul_right
    (yields Expression.tokens)).mul_right
      (one (Token.Kind.isComparison ·) * yields Expression.tokens)∗
  rw [yields_comparison]
  refine (takes_perform hw _).predicts_bind ?_
  refine (predicts_expression hw).bind (delimited_yields determines_expression) hlater
    (fun _ => ((hopens.mono fun _ => endsExpression_of_isComparison).mul_right _).begins)
    fun {_ _ _ w₁} ht he => (takes_current ht.settled).predicts_bind ?_
  by_cases hc : w₁.current.value.kind.isComparison = true
  · rw [if_pos hc]
    exact predicts_many_pos (fun hw hc => predicts_operation predicts_expression rfl hw hc)
      (opens_one.mul_right _) (delimited_operation determines_expression)
      (fun _ => endsExpression_of_isComparison) ht.settled hc
  · rw [if_neg hc]
    exact predicts_fail rfl hlater hopens (fun _ _ => trivial) hc

/-! ### Lines -/

theorem predicts_blankLines (hw : w.Settled) :
    blankLines.Predicts w (one (· = .newline))∗ (· ≠ .newline) := by
  have hround : ∀ {w : Window}, w.Settled → decide (w.current.value.kind = .newline) = true →
      advance.Predicts w (one (· = .newline)) fun _ => True := by
    intro w _ hc
    have hk : w.current.value.kind = .newline := by simpa using hc
    exact predicts_advance hk (by simp [hk])
  have hopens : Opens (one (· = .newline)) fun k => decide (k = .newline) = true :=
    opens_one.mono fun _ => decide_eq_true
  exact (predicts_many hround hopens delimited_one (fun _ _ => trivial) hw trivial).congr rfl
    (by simp)

theorem predicts_lineEnd (hw : w.Settled) :
    lineEnd.Predicts w (yields LineEnd.tokens) (· ≠ .newline) := by
  rw [yields_lineEnd]
  refine (takes_perform hw _).predicts_bind ?_
  exact (predicts_expect (by decide) hw).one_bind (nonempty_kstar _)
    fun ht => predicts_blankLines ht.settled

instance : Nonempty LineEnd := ⟨⟨Classical.arbitrary _, []⟩⟩

theorem opens_lineEnd : Opens (yields LineEnd.tokens) (· = .newline) := by
  rw [yields_lineEnd]
  exact opens_one.mul_right _

/-- A line up to its end. -/
theorem predicts_line {body : Parser Unit} (hbody : body.Predicts w L ends)
    (hL : Delimited L ends) (hends : ends .newline) :
    (do body; lineEnd; return bs : Parser (List Block)).Predicts w (L * yields LineEnd.tokens)
      (· ≠ .newline) := by
  refine hbody.bind hL (nonempty_yields _) (fun _ => ?_) fun ht _ => ?_
  · exact ((opens_lineEnd.mono fun _ hk => hk ▸ hends).mul_right _).begins
  · exact (predicts_lineEnd ht.settled).bind_idle fun _ => idle_pure _

theorem yields_printLine :
    yields (Line.tokens (s := .print)) = one (· = .string) + yields Expression.tokens := by
  refine Language.ext fun us => ⟨?_, ?_⟩
  · rintro ⟨l, rfl⟩
    cases l with
    | printText text => exact .inl ⟨text, rfl⟩
    | printValue x => exact .inr ⟨x, rfl⟩
  · rintro (⟨text, rfl⟩ | ⟨x, rfl⟩)
    · exact ⟨.printText text, rfl⟩
    · exact ⟨.printValue x, rfl⟩

theorem opens_expression : Opens (yields Expression.tokens) StartsExpression := by
  rintro _ ⟨x, rfl⟩
  exact Expression.exists_tokens x

theorem predicts_print (hw : w.Settled) :
    (do printBody; lineEnd; return bs : Parser (List Block)).Predicts w
      (yields (Line.tokens (s := .print)) * yields LineEnd.tokens) (· ≠ .newline) := by
  rw [yields_printLine, add_mul]
  by_cases hc : w.current.value.kind = .string
  · have htext : printBody.Predicts w (one (· = .string)) fun _ => True := by
      refine (takes_current hw).predicts_bind ?_
      rw [if_pos hc]
      exact (takes_perform hw _).predicts_bind (predicts_advance hc (by simp [hc]))
    refine (predicts_line htext delimited_one trivial).inl
      (fun _ => ((opens_expression.mul_right _).mul_right _).begins) ?_
    simp [StartsExpression, hc, Token.Kind.isAdditive]
  · have hvalue : printBody.Predicts w (yields Expression.tokens) EndsExpression := by
      refine (takes_current hw).predicts_bind ?_
      rw [if_neg hc]
      refine (takes_perform hw _).predicts_bind ?_
      exact (predicts_expression hw).bind_idle fun _ => idle_perform _
    exact (predicts_line hvalue (delimited_yields determines_expression) ⟨rfl, rfl⟩).inr
      (fun _ => ((opens_one.mul_right _).mul_right _).begins) hc

/-- A line that holds nothing but a name. -/
theorem predicts_nameLine {body : Name → Parser Unit} (hbody : ∀ n, (body n).Idle)
    (mk : Exactly .ident → Line s) (hmk : ∀ l, ∃ n, mk n = l)
    (htokens : ∀ n, (mk n).tokens = [n.token]) (hw : w.Settled) :
    (do ident >>= body; lineEnd; return bs : Parser (List Block)).Predicts w
      (yields (Line.tokens (s := s)) * yields LineEnd.tokens) (· ≠ .newline) := by
  have hyields : one (· = .ident) = yields (Line.tokens (s := s)) := by
    refine Language.ext fun us => ⟨?_, ?_⟩
    · rintro ⟨n, rfl⟩
      exact ⟨mk n, htokens n⟩
    · rintro ⟨l, rfl⟩
      obtain ⟨n, rfl⟩ := hmk l
      exact ⟨n, (htokens n).symm⟩
  rw [← hyields]
  exact predicts_line ((predicts_ident hw).bind_idle hbody) delimited_one trivial

theorem yields_letLine :
    yields (Line.tokens (s := .«let»)) =
      one (· = .ident) * (one (· = .eq) * yields Expression.tokens) := by
  rw [← yields_cons]
  refine yields_eq_mul (fun name x => Line.assign name x.1 x.2) (fun l => ?_) fun _ _ => rfl
  cases l with
  | assign name equals x => exact ⟨name, (equals, x), rfl⟩

theorem predicts_letBody (hw : w.Settled) :
    letBody.Predicts w (yields (Line.tokens (s := .«let»))) EndsExpression := by
  rw [yields_letLine]
  refine (predicts_ident hw).one_bind (nonempty_mul (nonempty_yields _) (nonempty_yields _))
    fun hname => (takes_perform hname.settled _).predicts_bind ?_
  refine (predicts_expect (by decide) hname.settled).one_bind (nonempty_yields _)
    fun hequals => ?_
  exact (predicts_expression hequals.settled).bind_idle fun _ =>
    (idle_perform _).bind fun _ => idle_perform _

/-! ### Statements -/

/-- What comes after the keyword of a statement, up to the next statement. -/
def afterKeyword : TinyBasic.Statement → Language (Located Token)
  | .block b =>
    yields Comparison.tokens * (one (· = .keyword b.divider) * yields LineEnd.tokens)
  | s => yields (Line.tokens (s := s)) * yields LineEnd.tokens

instance : Nonempty Comparison :=
  ⟨⟨⟨Classical.arbitrary _, [(⟨sample .eqEq, rfl⟩, Classical.arbitrary _)]⟩, List.cons_ne_nil _ _⟩⟩

theorem nonempty_afterKeyword : (s : TinyBasic.Statement) → Set.Nonempty (afterKeyword s)
  | .block _ =>
    nonempty_mul (nonempty_yields _) (nonempty_mul (nonempty_yields _) (nonempty_yields _))
  | .print => nonempty_mul ⟨_, .printText (Classical.arbitrary _), rfl⟩ (nonempty_yields _)
  | .label => nonempty_mul ⟨_, .label (Classical.arbitrary _), rfl⟩ (nonempty_yields _)
  | .goto => nonempty_mul ⟨_, .goto (Classical.arbitrary _), rfl⟩ (nonempty_yields _)
  | .«let» => nonempty_mul
    ⟨_, .assign (Classical.arbitrary _) (Classical.arbitrary _) (Classical.arbitrary _), rfl⟩
    (nonempty_yields _)
  | .input => nonempty_mul ⟨_, .input (Classical.arbitrary _), rfl⟩ (nonempty_yields _)

theorem predicts_blockHead (hw : w.Settled) :
    (blockHead b).Predicts w (afterKeyword (.block b)) (· ≠ .newline) := by
  have hdivider : Opens (one (· = .keyword b.divider)) EndsComparison :=
    opens_one.mono fun _ hk => hk ▸ ⟨⟨rfl, rfl⟩, rfl⟩
  refine (takes_perform hw _).predicts_bind ?_
  refine (predicts_comparison hw).bind (delimited_yields determines_comparison)
    (nonempty_mul (nonempty_yields _) (nonempty_yields _))
    (fun _ => ((hdivider.mul_right _).mul_right _).begins) fun ht _ => ?_
  refine (predicts_expect (by simp) ht.settled).one_bind (nonempty_yields _) fun hd => ?_
  exact (predicts_lineEnd hd.settled).bind_idle fun _ => idle_perform _

theorem predicts_statementBody (hw : w.Settled) :
    (statementBody bs s).Predicts w (afterKeyword s) (· ≠ .newline) := by
  cases s with
  | print => exact predicts_print hw
  | label =>
    exact predicts_nameLine (fun _ => (idle_perform _).bind fun _ => idle_perform _) Line.label
      (fun l => by cases l with | label n => exact ⟨n, rfl⟩) (fun _ => rfl) hw
  | goto =>
    exact predicts_nameLine (fun _ => (idle_perform _).bind fun _ => idle_perform _) Line.goto
      (fun l => by cases l with | goto n => exact ⟨n, rfl⟩) (fun _ => rfl) hw
  | «let» => exact predicts_line (predicts_letBody hw) (delimited_yields determines_line) ⟨rfl, rfl⟩
  | input =>
    refine predicts_nameLine (fun _ => ?_) Line.input
      (fun l => by cases l with | input n => exact ⟨n, rfl⟩) (fun _ => rfl) hw
    exact (idle_perform _).bind fun _ => (idle_perform _).bind fun _ => (idle_perform _).bind
      fun _ => (idle_perform _).bind fun _ => idle_perform _
  | block b => exact (predicts_blockHead hw).bind_idle fun _ => idle_pure _

/-- **A statement is predicted from its keyword.** -/
theorem predicts_statement (hw : w.Settled)
    (hk : w.current.value.kind = .keyword s.keyword) :
    (statement bs).Predicts w (one (· = .keyword s.keyword) * afterKeyword s) (· ≠ .newline) := by
  refine (takes_current hw).predicts_bind ?_
  rw [ofKind?_eq_some_iff.2 hk]
  refine (takes_perform hw _).predicts_bind ?_
  exact (predicts_advance hk (by simp [hk])).one_bind (nonempty_afterKeyword s)
    fun ht => predicts_statementBody ht.settled

theorem predicts_blockEnd (hk : w.current.value.kind = .keyword b.closing) :
    (blockEnd bs).Predicts w (yields (Foot.tokens (b := b))) (· ≠ .newline) := by
  have hyields : yields (Foot.tokens (b := b)) =
      one (· = .keyword b.closing) * yields LineEnd.tokens :=
    yields_eq_mul Foot.mk (fun f => ⟨f.1, f.2, rfl⟩) fun _ _ => rfl
  rw [hyields]
  refine (predicts_advance hk (by simp [hk])).one_bind (nonempty_yields _)
    fun ht => (takes_perform ht.settled _).predicts_bind ?_
  exact (predicts_lineEnd ht.settled).bind_idle fun _ => idle_pure _

end Grammar

end TinyBasic
