import TinyBasic.Proofs.Grammar.Tree

/-!
# Sentences and their trees

Whether tokens have a tree depends on their kinds alone: `Tree.sentence_iff` says that the kinds of
the tokens `ts` are a sentence exactly when `ts` is the yield of a program.  On every level of the
grammar the leaves of a tree can be exchanged for tokens of the same kinds (`Tree.Relabels`).
-/

namespace TinyBasic

namespace Tree

variable {X Y : Type} {isOperator : Token.Kind → Bool} {f : X → List (Located Token)}
  {g : Y → List (Located Token)} {ts : List (Located Token)}

/-- Tokens of the same kinds as those of a tree are those of a tree. -/
def Relabels (f : X → List (Located Token)) : Prop :=
  ∀ (x : X) (ts : List (Located Token)), kinds ts = kinds (f x) → ∃ y, f y = ts

theorem exists_append_of_kinds {us vs : List (Located Token)} (h : kinds ts = kinds (us ++ vs)) :
    ∃ us' vs', ts = us' ++ vs' ∧ kinds us' = kinds us ∧ kinds vs' = kinds vs := by
  rw [kinds, kinds, List.map_append] at h
  exact List.map_eq_append_iff.1 h

theorem exists_cons_of_kinds {t : Located Token} {us : List (Located Token)}
    (h : kinds ts = kinds (t :: us)) :
    ∃ t' us', ts = t' :: us' ∧ t'.value.kind = t.value.kind ∧ kinds us' = kinds us := by
  rw [kinds, kinds, List.map_cons] at h
  exact List.map_eq_cons_iff.1 h

/-- A leaf in front. -/
theorem exists_leaf_of_kinds {p : Token.Kind → Prop} (l : Leaf p) {us : List (Located Token)}
    (h : kinds ts = kinds (l.token :: us)) :
    ∃ (l' : Leaf p) (us' : List (Located Token)), ts = l'.token :: us' ∧ kinds us' = kinds us := by
  obtain ⟨t, us', rfl, ht, hus⟩ := exists_cons_of_kinds h
  exact ⟨⟨t, ht ▸ l.fits⟩, us', rfl, hus⟩

theorem eq_nil_of_kinds (h : kinds ts = kinds []) : ts = [] := List.map_eq_nil_iff.1 h

theorem relabels_leaf {p : Token.Kind → Prop} : Relabels fun l : Leaf p => [l.token] := by
  intro l ts h
  obtain ⟨l', us, rfl, hus⟩ := exists_leaf_of_kinds l h
  exact ⟨l', by rw [eq_nil_of_kinds hus]⟩

theorem relabels_newlines :
    Relabels fun ls : List (Exactly .newline) => ls.map Leaf.token := by
  intro ls
  induction ls with
  | nil =>
    intro ts h
    exact ⟨[], (eq_nil_of_kinds h).symm⟩
  | cons l ls ih =>
    intro ts h
    obtain ⟨l', us, rfl, hus⟩ := exists_leaf_of_kinds l h
    obtain ⟨ls', rfl⟩ := ih us hus
    exact ⟨l' :: ls', rfl⟩

theorem relabels_primary : Relabels fun p : Primary => [p.token] := by
  intro p ts h
  cases p with
  | number l =>
    obtain ⟨l', rfl⟩ := relabels_leaf l ts h
    exact ⟨.number l', rfl⟩
  | «variable» l =>
    obtain ⟨l', rfl⟩ := relabels_leaf l ts h
    exact ⟨.variable l', rfl⟩

theorem relabels_unary : Relabels Unary.tokens := by
  rintro ⟨sign, p⟩ ts h
  cases sign with
  | none =>
    obtain ⟨p', rfl⟩ := relabels_primary p ts h
    exact ⟨⟨none, p'⟩, rfl⟩
  | some l =>
    obtain ⟨l', us, rfl, hus⟩ := exists_leaf_of_kinds l h
    obtain ⟨p', rfl⟩ := relabels_primary p us hus
    exact ⟨⟨some l', p'⟩, rfl⟩

/-- A series keeps the number of its operands. -/
theorem relabels_later (hf : Relabels f) (xs : List (Leaf (isOperator ·) × X))
    (h : kinds ts = kinds (xs.flatMap fun x => x.1.token :: f x.2)) :
    ∃ ys : List (Leaf (isOperator ·) × X),
      (ys.flatMap fun y => y.1.token :: f y.2) = ts ∧ ys.length = xs.length := by
  induction xs generalizing ts with
  | nil => exact ⟨[], (eq_nil_of_kinds h).symm, rfl⟩
  | cons x xs ih =>
    rw [List.flatMap_cons, List.cons_append] at h
    obtain ⟨l, us, rfl, hus⟩ := exists_leaf_of_kinds x.1 h
    obtain ⟨vs, ws, rfl, hvs, hws⟩ := exists_append_of_kinds hus
    obtain ⟨y, rfl⟩ := hf x.2 vs hvs
    obtain ⟨ys, rfl, hlength⟩ := ih hws
    exact ⟨(l, y) :: ys, rfl, by simp [hlength]⟩

theorem relabels_series (hf : Relabels f) (x : Series isOperator X)
    (h : kinds ts = kinds (x.tokens f)) :
    ∃ y : Series isOperator X, y.tokens f = ts ∧ y.later.length = x.later.length := by
  obtain ⟨us, vs, rfl, hus, hvs⟩ := exists_append_of_kinds h
  obtain ⟨first, rfl⟩ := hf x.first us hus
  obtain ⟨later, rfl, hlength⟩ := relabels_later hf x.later hvs
  exact ⟨⟨first, later⟩, rfl, hlength⟩

theorem relabels_expression : Relabels Expression.tokens := by
  have hterm : Relabels Term.tokens := fun x ts h =>
    (relabels_series relabels_unary x h).imp fun _ hy => hy.1
  exact fun x ts h => (relabels_series hterm x h).imp fun _ hy => hy.1

theorem relabels_comparison : Relabels Comparison.tokens := by
  rintro ⟨x, hx⟩ ts h
  obtain ⟨y, rfl, hlength⟩ := relabels_series relabels_expression x h
  -- as many operators as before, so there is one
  refine ⟨⟨y, ?_⟩, rfl⟩
  rw [← List.length_pos_iff] at hx ⊢
  omega

theorem relabels_lineEnd : Relabels LineEnd.tokens := by
  rintro ⟨l, ls⟩ ts h
  obtain ⟨l', us, rfl, hus⟩ := exists_leaf_of_kinds l h
  obtain ⟨ls', rfl⟩ := relabels_newlines ls us hus
  exact ⟨⟨l', ls'⟩, rfl⟩

theorem relabels_line {s : TinyBasic.Statement} : Relabels (Line.tokens (s := s)) := by
  intro l ts h
  cases l with
  | printText text =>
    obtain ⟨text', rfl⟩ := relabels_leaf text ts h
    exact ⟨.printText text', rfl⟩
  | printValue x =>
    obtain ⟨x', rfl⟩ := relabels_expression x ts h
    exact ⟨.printValue x', rfl⟩
  | label name =>
    obtain ⟨name', rfl⟩ := relabels_leaf name ts h
    exact ⟨.label name', rfl⟩
  | goto name =>
    obtain ⟨name', rfl⟩ := relabels_leaf name ts h
    exact ⟨.goto name', rfl⟩
  | assign name equals x =>
    obtain ⟨name', us, rfl, hus⟩ := exists_leaf_of_kinds name h
    obtain ⟨equals', vs, rfl, hvs⟩ := exists_leaf_of_kinds equals hus
    obtain ⟨x', rfl⟩ := relabels_expression x vs hvs
    exact ⟨.assign name' equals' x', rfl⟩
  | input name =>
    obtain ⟨name', rfl⟩ := relabels_leaf name ts h
    exact ⟨.input name', rfl⟩

theorem relabels_head {b : Block} : Relabels (Head.tokens (b := b)) := by
  rintro ⟨k, c, d, n⟩ ts h
  obtain ⟨us, vs, rfl, hus, hvs⟩ := exists_append_of_kinds h
  obtain ⟨k', us, rfl, hc⟩ := exists_leaf_of_kinds k hus
  obtain ⟨c', rfl⟩ := relabels_comparison c us hc
  obtain ⟨d', vs, rfl, hn⟩ := exists_leaf_of_kinds d hvs
  obtain ⟨n', rfl⟩ := relabels_lineEnd n vs hn
  exact ⟨⟨k', c', d', n'⟩, rfl⟩

theorem relabels_foot {b : Block} : Relabels (Foot.tokens (b := b)) := by
  rintro ⟨k, n⟩ ts h
  obtain ⟨k', us, rfl, hus⟩ := exists_leaf_of_kinds k h
  obtain ⟨n', rfl⟩ := relabels_lineEnd n us hus
  exact ⟨⟨k', n'⟩, rfl⟩

mutual

theorem relabels_statement (x : Statement) (ts : List (Located Token))
    (h : kinds ts = kinds x.tokens) : ∃ y : Statement, y.tokens = ts :=
  match x with
  | .line s k l n => by
    obtain ⟨us, vs, rfl, hus, hvs⟩ := exists_append_of_kinds h
    obtain ⟨k', us, rfl, hl⟩ := exists_leaf_of_kinds k hus
    obtain ⟨l', rfl⟩ := relabels_line l us hl
    obtain ⟨n', rfl⟩ := relabels_lineEnd n vs hvs
    exact ⟨.line s k' l' n', rfl⟩
  | .block b head body foot => by
    obtain ⟨us, ws, rfl, hus, hws⟩ := exists_append_of_kinds h
    obtain ⟨us, vs, rfl, hus, hvs⟩ := exists_append_of_kinds hus
    obtain ⟨head', rfl⟩ := relabels_head head us hus
    obtain ⟨body', rfl⟩ := relabels_tokensAll body vs hvs
    obtain ⟨foot', rfl⟩ := relabels_foot foot ws hws
    exact ⟨.block b head' body' foot', rfl⟩

theorem relabels_tokensAll (xs : List Statement) (ts : List (Located Token))
    (h : kinds ts = kinds (tokensAll xs)) : ∃ ys : List Statement, tokensAll ys = ts :=
  match xs with
  | [] => ⟨[], (eq_nil_of_kinds h).symm⟩
  | x :: xs => by
    obtain ⟨us, vs, rfl, hus, hvs⟩ := exists_append_of_kinds h
    obtain ⟨x', rfl⟩ := relabels_statement x us hus
    obtain ⟨xs', rfl⟩ := relabels_tokensAll xs vs hvs
    exact ⟨x' :: xs', rfl⟩

end

/-- **The kinds of tokens are a sentence exactly when the tokens are those of a tree.** -/
theorem sentence_iff : Sentence (kinds ts) ↔ ∃ p : Program, p.tokens = ts := by
  constructor
  · rintro ⟨p, hp⟩
    obtain ⟨us, vs, rfl, hus, hvs⟩ := exists_append_of_kinds hp.symm
    obtain ⟨blank, rfl⟩ := relabels_newlines p.blank us hus
    obtain ⟨ss, rfl⟩ := relabels_tokensAll p.statements vs hvs
    exact ⟨⟨blank, ss⟩, rfl⟩
  · rintro ⟨p, rfl⟩
    exact ⟨p, rfl⟩

end Tree

end TinyBasic
