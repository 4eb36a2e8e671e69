import TinyBasic.Proofs.Grammar.Sentence
import TinyBasic.Proofs.Translation.Rendering

/-!
# Trees at other places

What a tree renders and which names it uses does not depend on where its tokens stand: tokens that
are the same but for their places are those of a tree that renders and uses the same
(`Tree.relocates_program`).  On every level of the grammar the leaves of a tree are exchanged for
tokens of the same kinds and texts (`Tree.Relocates`).
-/

namespace TinyBasic

namespace Tree

variable {X C : Type} {isOperator : Token.Kind → Bool} {ts us : List (Located Token)}

/-- Tokens that are the same as those of a tree are those of a tree that renders and uses the
same. -/
def Relocates (tokens : X → List (Located Token)) (render : X → C) (uses : X → List Use) : Prop :=
  ∀ (x : X) (ts : List (Located Token)), values ts = values (tokens x) →
    ∃ y, tokens y = ts ∧ render y = render x ∧ uses y = uses x

theorem kinds_eq_of_values (h : values ts = values us) : kinds ts = kinds us := by
  have hkinds := congrArg (List.map Token.kind) h
  rwa [values, values, List.map_map, List.map_map] at hkinds

theorem exists_append_of_values {vs : List (Located Token)} (h : values ts = values (us ++ vs)) :
    ∃ us' vs', ts = us' ++ vs' ∧ values us' = values us ∧ values vs' = values vs := by
  rw [values, values, List.map_append] at h
  exact List.map_eq_append_iff.1 h

theorem eq_nil_of_values (h : values ts = values []) : ts = [] := List.map_eq_nil_iff.1 h

/-- A leaf in front. -/
theorem exists_leaf_of_values {p : Token.Kind → Prop} (l : Leaf p)
    (h : values ts = values (l.token :: us)) :
    ∃ (l' : Leaf p) (us' : List (Located Token)), ts = l'.token :: us' ∧ l'.text = l.text ∧
      values us' = values us := by
  rw [values, values, List.map_cons] at h
  obtain ⟨t, us', rfl, ht, hus⟩ := List.map_eq_cons_iff.1 h
  exact ⟨⟨t, ht ▸ l.fits⟩, us', rfl, congrArg Token.text ht, hus⟩

/-- A leaf alone. -/
theorem exists_leaf_of_values_singleton {p : Token.Kind → Prop} (l : Leaf p)
    (h : values ts = values [l.token]) : ∃ l' : Leaf p, ts = [l'.token] ∧ l'.text = l.text := by
  obtain ⟨l', us, rfl, htext, hus⟩ := exists_leaf_of_values l h
  exact ⟨l', by rw [eq_nil_of_values hus], htext⟩

/-! ### Expressions -/

theorem relocates_primary :
    Relocates (fun p : Primary => [p.token]) Primary.render Primary.uses := by
  intro p ts h
  cases p with
  | number l =>
    obtain ⟨l', rfl, htext⟩ := exists_leaf_of_values_singleton l h
    exact ⟨.number l', rfl, htext, rfl⟩
  | «variable» l =>
    obtain ⟨l', rfl, htext⟩ := exists_leaf_of_values_singleton l h
    exact ⟨.variable l', rfl, htext, by simp [htext]⟩

theorem relocates_unary : Relocates Unary.tokens Unary.render Unary.uses := by
  rintro ⟨sign, p⟩ ts h
  cases sign with
  | none =>
    obtain ⟨p', rfl, hrender, huses⟩ := relocates_primary p ts h
    exact ⟨⟨none, p'⟩, rfl, by simp [Unary.render, hrender], huses⟩
  | some l =>
    obtain ⟨l', us, rfl, htext, hus⟩ := exists_leaf_of_values l h
    obtain ⟨p', rfl, hrender, huses⟩ := relocates_primary p us hus
    exact ⟨⟨some l', p'⟩, rfl, by simp [Unary.render, hrender, htext], huses⟩

section Series

variable {tokens : X → List (Located Token)} {render : X → String} {uses : X → List Use}

/-- Operators and operands one after the other. -/
theorem relocates_later (hX : Relocates tokens render uses) (xs : List (Leaf (isOperator ·) × X))
    (h : values ts = values (xs.flatMap fun x => x.1.token :: tokens x.2)) :
    ∃ ys : List (Leaf (isOperator ·) × X),
      (ys.flatMap fun y => y.1.token :: tokens y.2) = ts ∧
      (ys.map fun y => " " ++ y.1.text ++ " " ++ render y.2) =
        (xs.map fun x => " " ++ x.1.text ++ " " ++ render x.2) ∧
      (ys.flatMap fun y => uses y.2) = xs.flatMap fun x => uses x.2 := by
  induction xs generalizing ts with
  | nil => exact ⟨[], (eq_nil_of_values h).symm, rfl, rfl⟩
  | cons x xs ih =>
    rw [List.flatMap_cons, List.cons_append] at h
    obtain ⟨l, us, rfl, htext, hus⟩ := exists_leaf_of_values x.1 h
    obtain ⟨vs, ws, rfl, hvs, hws⟩ := exists_append_of_values hus
    obtain ⟨y, rfl, hrender, huses⟩ := hX x.2 vs hvs
    obtain ⟨ys, rfl, hrenders, husess⟩ := ih hws
    refine ⟨(l, y) :: ys, rfl, ?_, ?_⟩
    · rw [List.map_cons, List.map_cons, hrenders, htext, hrender]
    · rw [List.flatMap_cons, List.flatMap_cons, husess, huses]

theorem relocates_series (hX : Relocates tokens render uses) (x : Series isOperator X)
    (h : values ts = values (x.tokens tokens)) :
    ∃ y : Series isOperator X, y.tokens tokens = ts ∧ y.render render = x.render render ∧
      y.gather uses = x.gather uses ∧ (x.later ≠ [] → y.later ≠ []) := by
  obtain ⟨us, vs, rfl, hus, hvs⟩ := exists_append_of_values h
  obtain ⟨first, rfl, hrender, huses⟩ := hX x.first us hus
  obtain ⟨later, rfl, hrenders, husess⟩ := relocates_later hX x.later hvs
  refine ⟨⟨first, later⟩, rfl, ?_, ?_, ?_⟩
  · rw [Series.render, Series.render, hrender, hrenders]
  · rw [Series.gather, Series.gather, huses, husess]
  · rintro hne rfl
    exact hne (List.map_eq_nil_iff.1 hrenders.symm)

end Series

theorem relocates_expression : Relocates Expression.tokens Expression.render Expression.uses := by
  have hterm : Relocates Term.tokens Term.render (Series.gather Unary.uses) := fun x ts h => by
    obtain ⟨y, hy, hrender, huses, -⟩ := relocates_series relocates_unary x h
    exact ⟨y, hy, hrender, huses⟩
  intro x ts h
  obtain ⟨y, hy, hrender, huses, -⟩ := relocates_series hterm x h
  exact ⟨y, hy, hrender, by rw [Expression.uses_eq, Expression.uses_eq, huses]⟩

theorem relocates_comparison : Relocates Comparison.tokens Comparison.render Comparison.uses := by
  rintro ⟨x, hx⟩ ts h
  obtain ⟨y, hy, hrender, huses, hne⟩ := relocates_series relocates_expression x h
  exact ⟨⟨y, hne hx⟩, hy, hrender, by rw [Comparison.uses_eq, Comparison.uses_eq, huses]⟩

/-! ### Statements -/

theorem relocates_line {s : TinyBasic.Statement} :
    Relocates (Line.tokens (s := s)) Line.lines Line.uses := by
  intro l ts h
  cases l with
  | printText text =>
    obtain ⟨text', rfl, htext⟩ := exists_leaf_of_values_singleton text h
    exact ⟨.printText text', rfl, by simp [Line.lines, htext], rfl⟩
  | printValue x =>
    obtain ⟨x', rfl, hrender, huses⟩ := relocates_expression x ts h
    exact ⟨.printValue x', rfl, by simp [Line.lines, hrender], huses⟩
  | label name =>
    obtain ⟨name', rfl, htext⟩ := exists_leaf_of_values_singleton name h
    exact ⟨.label name', rfl, by simp [Line.lines, htext], by simp [htext]⟩
  | goto name =>
    obtain ⟨name', rfl, htext⟩ := exists_leaf_of_values_singleton name h
    exact ⟨.goto name', rfl, by simp [Line.lines, htext], by simp [htext]⟩
  | assign name equals x =>
    obtain ⟨name', us, rfl, htext, hus⟩ := exists_leaf_of_values name h
    obtain ⟨equals', vs, rfl, -, hvs⟩ := exists_leaf_of_values equals hus
    obtain ⟨x', rfl, hrender, huses⟩ := relocates_expression x vs hvs
    exact ⟨.assign name' equals' x', rfl, by simp [Line.lines, htext, hrender],
      by simp [htext, huses]⟩
  | input name =>
    obtain ⟨name', rfl, htext⟩ := exists_leaf_of_values_singleton name h
    exact ⟨.input name', rfl, by simp [Line.lines, htext], by simp [htext]⟩

theorem relocates_head {b : Block} (head : Head b) (h : values ts = values head.tokens) :
    ∃ head' : Head b, head'.tokens = ts ∧ head'.condition.render = head.condition.render ∧
      head'.condition.uses = head.condition.uses := by
  obtain ⟨k, c, d, n⟩ := head
  obtain ⟨us, vs, rfl, hus, hvs⟩ := exists_append_of_values h
  obtain ⟨k', us, rfl, -, hc⟩ := exists_leaf_of_values k hus
  obtain ⟨c', rfl, hrender, huses⟩ := relocates_comparison c us hc
  obtain ⟨d', vs, rfl, -, hn⟩ := exists_leaf_of_values d hvs
  obtain ⟨n', rfl⟩ := relabels_lineEnd n vs (kinds_eq_of_values hn)
  exact ⟨⟨k', c', d', n'⟩, rfl, hrender, huses⟩

mutual

theorem relocates_statement (x : Statement) (ts : List (Located Token))
    (h : values ts = values x.tokens) :
    ∃ y : Statement, y.tokens = ts ∧ y.lines = x.lines ∧ y.uses = x.uses :=
  match x with
  | .line s k l n => by
    obtain ⟨us, vs, rfl, hus, hvs⟩ := exists_append_of_values h
    obtain ⟨k', us, rfl, -, hl⟩ := exists_leaf_of_values k hus
    obtain ⟨l', rfl, hlines, huses⟩ := relocates_line l us hl
    obtain ⟨n', rfl⟩ := relabels_lineEnd n vs (kinds_eq_of_values hvs)
    exact ⟨.line s k' l' n', rfl, hlines, huses⟩
  | .block b head body foot => by
    obtain ⟨us, ws, rfl, hus, hws⟩ := exists_append_of_values h
    obtain ⟨us, vs, rfl, hus, hvs⟩ := exists_append_of_values hus
    obtain ⟨head', rfl, hrender, hcondition⟩ := relocates_head head hus
    obtain ⟨body', rfl, hlines, huses⟩ := relocates_tokensAll body vs hvs
    obtain ⟨foot', rfl⟩ := relabels_foot foot ws (kinds_eq_of_values hws)
    exact ⟨.block b head' body' foot', rfl,
      by rw [Statement.lines, Statement.lines, hrender, hlines],
      by rw [Statement.uses_block, Statement.uses_block, hcondition, huses]⟩

theorem relocates_tokensAll (xs : List Statement) (ts : List (Located Token))
    (h : values ts = values (tokensAll xs)) :
    ∃ ys : List Statement,
      tokensAll ys = ts ∧ linesAll ys = linesAll xs ∧ usesAll ys = usesAll xs :=
  match xs with
  | [] => ⟨[], (eq_nil_of_values h).symm, rfl, rfl⟩
  | x :: xs => by
    obtain ⟨us, vs, rfl, hus, hvs⟩ := exists_append_of_values h
    obtain ⟨x', rfl, hlines, huses⟩ := relocates_statement x us hus
    obtain ⟨xs', rfl, hlinesAll, husesAll⟩ := relocates_tokensAll xs vs hvs
    exact ⟨x' :: xs', rfl, by rw [linesAll, linesAll, hlines, hlinesAll],
      by rw [usesAll_cons, usesAll_cons, huses, husesAll]⟩

end

/-- **The same tokens at other places** are those of a program that renders and uses the same. -/
theorem relocates_program : Relocates Program.tokens Program.lines Program.uses := by
  rintro ⟨blank, ss⟩ ts h
  obtain ⟨us, vs, rfl, hus, hvs⟩ := exists_append_of_values h
  obtain ⟨blank', rfl⟩ := relabels_newlines blank us (kinds_eq_of_values hus)
  obtain ⟨ss', rfl, hlines, huses⟩ := relocates_tokensAll ss vs hvs
  exact ⟨⟨blank', ss'⟩, rfl, hlines, huses⟩

end Tree

end TinyBasic
