import TinyBasic.Proofs.Grammar.Derivation

/-!
# The grammar is unambiguous

`Tree.Determines tokens ends` says that two trees are the same when sequences that begin with their
tokens are, as long as a kind in `ends` comes after each of them.  It holds on every level of the
grammar, and on the highest it needs nothing to come after: a sequence of tokens is the yield of at
most one program (`Tree.Program.tokens_injective`), so a source has at most one derivation
(`Tree.Program.IsOf.unique`).
-/

namespace TinyBasic

open TinyBasic.Parser TinyBasic.Grammar

namespace Tree

variable {X : Type} {isOperator : Token.Kind → Bool} {ends : Token.Kind → Prop}
  {tokens : X → List (Located Token)} {r r' : List (Located Token)}

/-- A tree is determined by a sequence that begins with its tokens. -/
def Determines (tokens : X → List (Located Token)) (ends : Token.Kind → Prop) : Prop :=
  ∀ ⦃x y : X⦄ ⦃r r' : List (Located Token)⦄, tokens x ++ r = tokens y ++ r' →
    Follows ends r → Follows ends r' → x = y ∧ r = r'

theorem determines_leaf {p : Token.Kind → Prop} :
    Determines (fun l : Leaf p => [l.token]) ends := by
  intro l l' r r' h _ _
  obtain ⟨ht, hr⟩ := List.cons.inj h
  exact ⟨Leaf.ext ht, hr⟩

theorem determines_primary : Determines (fun p : Primary => [p.token]) ends := by
  intro p q r r' h _ _
  obtain ⟨ht, hr⟩ := List.cons.inj h
  refine ⟨?_, hr⟩
  cases p with
  | number t =>
    cases q with
    | number t' => exact congrArg Primary.number (Leaf.ext ht)
    | «variable» t' =>
      have hk := t.fits
      rw [show t.token = t'.token from ht, t'.fits] at hk
      cases hk
  | «variable» t =>
    cases q with
    | number t' =>
      have hk := t.fits
      rw [show t.token = t'.token from ht, t'.fits] at hk
      cases hk
    | «variable» t' => exact congrArg Primary.variable (Leaf.ext ht)

theorem determines_unary : Determines Unary.tokens ends := by
  rintro ⟨sign, p⟩ ⟨sign', p'⟩ r r' h hr hr'
  cases sign with
  | none =>
    cases sign' with
    | none =>
      obtain ⟨rfl, rfl⟩ := determines_primary h hr hr'
      exact ⟨rfl, rfl⟩
    | some l' =>
      have hk := l'.fits
      rw [← (List.cons.inj h).1, Primary.not_isAdditive] at hk
      cases hk
  | some l =>
    cases sign' with
    | none =>
      have hk := l.fits
      rw [(List.cons.inj h).1, Primary.not_isAdditive] at hk
      cases hk
    | some l' =>
      obtain ⟨hl, h⟩ := List.cons.inj h
      obtain rfl := Leaf.ext hl
      obtain ⟨rfl, rfl⟩ := determines_primary h hr hr'
      exact ⟨rfl, rfl⟩

/-- Operands are taken one by one, as long as operators are in front. -/
theorem determines_later (h : Determines tokens ends)
    (hends : ∀ k, isOperator k = true → ends k) :
    Determines (fun later : List (Leaf (isOperator ·) × X) =>
      later.flatMap fun y => y.1.token :: tokens y.2) fun k => ends k ∧ isOperator k = false := by
  intro xs
  induction xs with
  | nil =>
    intro ys r r' heq hr hr'
    cases ys with
    | nil => exact ⟨rfl, heq⟩
    | cons y ys =>
      -- an operator cannot come after the series
      rw [show r = _ from heq] at hr
      have hk := (follows_cons.1 hr).2
      rw [y.1.fits] at hk
      cases hk
  | cons x xs ih =>
    intro ys r r' heq hr hr'
    cases ys with
    | nil =>
      rw [show r' = _ from heq.symm] at hr'
      have hk := (follows_cons.1 hr').2
      rw [x.1.fits] at hk
      cases hk
    | cons y ys =>
      obtain ⟨⟨o, hx⟩, x⟩ := x
      obtain ⟨⟨o', hy⟩, y⟩ := y
      simp only [List.flatMap_cons, List.cons_append, List.append_assoc] at heq
      obtain ⟨rfl, hafter⟩ := List.cons.inj heq
      obtain ⟨rfl, hlater⟩ := h hafter (follows_later hends xs (hr.mono fun _ h => h.1))
        (follows_later hends ys (hr'.mono fun _ h => h.1))
      obtain ⟨rfl, rfl⟩ := ih hlater hr hr'
      exact ⟨rfl, rfl⟩

theorem determines_series (h : Determines tokens ends)
    (hends : ∀ k, isOperator k = true → ends k) :
    Determines (X := Series isOperator X) (Series.tokens tokens)
      fun k => ends k ∧ isOperator k = false := by
  rintro ⟨x, xs⟩ ⟨y, ys⟩ r r' heq hr hr'
  simp only [Series.tokens, List.append_assoc] at heq
  obtain ⟨rfl, hlater⟩ := h heq (follows_later hends xs (hr.mono fun _ h => h.1))
    (follows_later hends ys (hr'.mono fun _ h => h.1))
  obtain ⟨rfl, rfl⟩ := determines_later h hends hlater hr hr'
  exact ⟨rfl, rfl⟩

theorem determines_term : Determines Term.tokens EndsTerm := by
  intro x y r r' heq hr hr'
  have hunary : Determines Unary.tokens fun _ => True := determines_unary
  exact determines_series hunary (fun _ _ => trivial) heq
    (hr.mono fun _ h => ⟨trivial, h⟩) (hr'.mono fun _ h => ⟨trivial, h⟩)

theorem determines_expression : Determines Expression.tokens EndsExpression :=
  determines_series determines_term fun _ => endsTerm_of_isAdditive

theorem determines_comparison : Determines Comparison.tokens EndsComparison := by
  rintro ⟨x, hx⟩ ⟨y, hy⟩ r r' heq hr hr'
  obtain ⟨rfl, rfl⟩ := determines_series determines_expression
    (fun _ => endsExpression_of_isComparison) heq hr hr'
  exact ⟨rfl, rfl⟩

theorem determines_newlines :
    Determines (fun ls : List (Exactly .newline) => ls.map Leaf.token) (· ≠ .newline) := by
  intro xs
  induction xs with
  | nil =>
    intro ys r r' heq hr hr'
    cases ys with
    | nil => exact ⟨rfl, heq⟩
    | cons y ys =>
      rw [show r = _ from heq] at hr
      exact absurd y.fits (follows_cons.1 hr)
  | cons x xs ih =>
    intro ys r r' heq hr hr'
    cases ys with
    | nil =>
      rw [show r' = _ from heq.symm] at hr'
      exact absurd x.fits (follows_cons.1 hr')
    | cons y ys =>
      obtain ⟨hxy, hafter⟩ := List.cons.inj heq
      obtain rfl := Leaf.ext hxy
      obtain ⟨rfl, rfl⟩ := ih hafter hr hr'
      exact ⟨rfl, rfl⟩

theorem determines_lineEnd : Determines LineEnd.tokens (· ≠ .newline) := by
  rintro ⟨x, xs⟩ ⟨y, ys⟩ r r' heq hr hr'
  obtain ⟨hxy, hafter⟩ := List.cons.inj heq
  obtain rfl := Leaf.ext hxy
  obtain ⟨rfl, rfl⟩ := determines_newlines hafter hr hr'
  exact ⟨rfl, rfl⟩

theorem determines_line {s : TinyBasic.Statement} :
    Determines (Line.tokens (s := s)) EndsExpression := by
  have mixed : ∀ (t : Exactly .string) (x : Expression) (r r' : List (Located Token)),
      t.token :: r ≠ x.tokens ++ r' := by
    intro t x r r' h
    obtain ⟨u, us, hx, hu⟩ := Expression.exists_tokens x
    rw [hx] at h
    rw [← (List.cons.inj h).1, t.fits] at hu
    simp [StartsExpression, Token.Kind.isAdditive] at hu
  intro l l' r r' heq hr hr'
  cases l with
  | printText text =>
    cases l' with
    | printText text' =>
      obtain ⟨rfl, rfl⟩ := determines_leaf heq hr hr'
      exact ⟨rfl, rfl⟩
    | printValue x => exact absurd heq (mixed text x _ _)
  | printValue x =>
    cases l' with
    | printText text => exact absurd heq.symm (mixed text x _ _)
    | printValue x' =>
      obtain ⟨rfl, rfl⟩ := determines_expression heq hr hr'
      exact ⟨rfl, rfl⟩
  | assign name equals x =>
    cases l' with
    | assign name' equals' x' =>
      obtain ⟨hname, hafter⟩ := List.cons.inj heq
      obtain ⟨hequals, hvalue⟩ := List.cons.inj hafter
      obtain rfl := Leaf.ext hname
      obtain rfl := Leaf.ext hequals
      obtain ⟨rfl, rfl⟩ := determines_expression hvalue hr hr'
      exact ⟨rfl, rfl⟩
  | label name =>
    cases l' with
    | label name' =>
      obtain ⟨rfl, rfl⟩ := determines_leaf heq hr hr'
      exact ⟨rfl, rfl⟩
  | goto name =>
    cases l' with
    | goto name' =>
      obtain ⟨rfl, rfl⟩ := determines_leaf heq hr hr'
      exact ⟨rfl, rfl⟩
  | input name =>
    cases l' with
    | input name' =>
      obtain ⟨rfl, rfl⟩ := determines_leaf heq hr hr'
      exact ⟨rfl, rfl⟩

theorem keyword_injective : Function.Injective TinyBasic.Statement.keyword := by
  intro s s' h
  have hs := TinyBasic.Statement.ofKeyword?_eq_some_iff.2 (rfl : s.keyword = s.keyword)
  rw [h, TinyBasic.Statement.ofKeyword?_eq_some_iff.2 rfl] at hs
  exact (Option.some.inj hs).symm

theorem determines_head {b : Block} : Determines (Head.tokens (b := b)) (· ≠ .newline) := by
  rintro ⟨k, c, d, n⟩ ⟨k', c', d', n'⟩ r r' heq hr hr'
  simp only [Head.tokens, List.append_assoc] at heq
  obtain ⟨hk, hafter⟩ := List.cons.inj heq
  obtain rfl := Leaf.ext hk
  obtain ⟨rfl, hdivider⟩ := determines_comparison hafter (endsComparison_of_divider d)
    (endsComparison_of_divider d')
  obtain ⟨hd, hend⟩ := List.cons.inj hdivider
  obtain rfl := Leaf.ext hd
  obtain ⟨rfl, rfl⟩ := determines_lineEnd hend hr hr'
  exact ⟨rfl, rfl⟩

theorem Piece.keyword_eq {bs bs₁ bs₂ : List Block} {m : Piece bs bs₁} {m' : Piece bs bs₂}
    (h : m.tokens ++ r = m'.tokens ++ r') : m.keyword = m'.keyword := by
  obtain ⟨t, ts, hm, ht⟩ := m.exists_tokens
  obtain ⟨t', ts', hm', ht'⟩ := m'.exists_tokens
  rw [hm, hm'] at h
  obtain rfl := (List.cons.inj h).1
  simpa [ht] using ht'

theorem determines_piece {bs : List Block} :
    Determines (fun m : Σ bs', Piece bs bs' => m.2.tokens) (· ≠ .newline) := by
  rintro ⟨bs₁, m⟩ ⟨bs₂, m'⟩ r r' heq hr hr'
  have hk := Piece.keyword_eq heq
  cases m with
  | line s k l n =>
    cases m' with
    | line s' k' l' n' =>
      obtain rfl := keyword_injective hk
      obtain ⟨hkt, hafter⟩ := List.cons.inj heq
      obtain rfl := Leaf.ext hkt
      have hends : EndsExpression .newline := ⟨rfl, rfl⟩
      have hline : l.tokens ++ (n.tokens ++ r) = l'.tokens ++ (n'.tokens ++ r') := by
        rw [← List.append_assoc, ← List.append_assoc]
        exact hafter
      obtain ⟨rfl, hend⟩ := determines_line hline (LineEnd.follows hends n)
        (LineEnd.follows hends n')
      obtain ⟨rfl, rfl⟩ := determines_lineEnd hend hr hr'
      exact ⟨rfl, rfl⟩
    | head h =>
      obtain rfl := keyword_injective hk
      cases l
    | foot f => exact absurd hk (keyword_ne_closing _ _)
  | head h =>
    cases m' with
    | line s' k' l' n' =>
      obtain rfl := keyword_injective hk
      cases l'
    | head h' =>
      obtain rfl := TinyBasic.Statement.block.inj (keyword_injective hk)
      obtain ⟨rfl, rfl⟩ := determines_head heq hr hr'
      exact ⟨rfl, rfl⟩
    | foot f => exact absurd hk (keyword_ne_closing _ _)
  | foot f =>
    cases m' with
    | line s' k' l' n' => exact absurd hk.symm (keyword_ne_closing _ _)
    | head h' => exact absurd hk.symm (keyword_ne_closing _ _)
    | foot f' =>
      obtain ⟨k, n⟩ := f
      obtain ⟨k', n'⟩ := f'
      obtain ⟨hkt, hafter⟩ := List.cons.inj heq
      obtain rfl := Leaf.ext hkt
      obtain ⟨rfl, rfl⟩ := determines_lineEnd hafter hr hr'
      exact ⟨rfl, rfl⟩

theorem Pending.follows_tokens {bs : List Block} (p : Pending bs) :
    Follows (· ≠ .newline) p.tokens := by
  have := p.follows follows_nil
  rwa [List.append_nil] at this

/-- **What is left of a program is determined by its tokens.** -/
theorem Pending.tokens_injective {bs : List Block} (p q : Pending bs) (h : p.tokens = q.tokens) :
    p = q := by
  induction hn : p.tokens.length using Nat.strong_induction_on generalizing bs with
  | _ n ih =>
    subst hn
    have pieces : ∀ {bs'} (m : Piece bs bs') (p : Pending bs'), (p.after m).tokens ≠ [] := by
      intro bs' m p hm
      obtain ⟨t, ts, hts, -⟩ := m.exists_tokens
      simp [hts] at hm
    obtain ⟨rfl, hp⟩ | ⟨bs₁, m, p, rfl⟩ := p.exists_after
    · obtain rfl := eq_of_heq hp
      obtain ⟨-, hq⟩ | ⟨bs₂, m', q, rfl⟩ := q.exists_after
      · exact (eq_of_heq hq).symm
      · exact absurd h.symm (pieces m' q)
    · obtain ⟨rfl, hq⟩ | ⟨bs₂, m', q, rfl⟩ := q.exists_after
      · obtain rfl := eq_of_heq hq
        exact absurd h (pieces m p)
      · simp only [Pending.tokens_after] at h
        -- both start with the same piece, and what is left after it is shorter
        obtain ⟨hm, hpq⟩ := @determines_piece bs ⟨bs₁, m⟩ ⟨bs₂, m'⟩ p.tokens q.tokens h
          p.follows_tokens q.follows_tokens
        cases hm
        obtain ⟨t, ts, hts, -⟩ := m.exists_tokens
        have hlt : p.tokens.length < (p.after m).tokens.length := by
          simp only [Pending.tokens_after, hts, List.length_append, List.length_cons]
          omega
        rw [ih _ hlt p q hpq rfl]

/-- **The grammar is unambiguous.** -/
theorem Program.tokens_injective : Function.Injective Program.tokens := by
  rintro ⟨blank, ss⟩ ⟨blank', ss'⟩ h
  obtain ⟨rfl, hss⟩ := determines_newlines h (Pending.outside ss).follows_tokens
    (Pending.outside ss').follows_tokens
  have := Pending.tokens_injective (.outside ss) (.outside ss') hss
  rw [Pending.outside.inj this]

/-- **A source has at most one derivation.** -/
theorem Program.IsOf.unique {p q : Program} {s : Source} (hp : p.IsOf s) (hq : q.IsOf s) :
    p = q := by
  obtain ⟨e, -, hp⟩ := hp
  obtain ⟨e', -, hq⟩ := hq
  have h := (List.map_inj_right fun _ _ h => Except.ok.inj h).1 (hp.symm.trans hq)
  exact Program.tokens_injective (List.append_inj' h rfl).1

end Tree

end TinyBasic
