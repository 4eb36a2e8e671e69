import TinyBasic.Grammar.Parser
import TinyBasic.Proofs.Token.Tokenization

/-!
# What a window has in front of it

`Window.items` is all that a parser can still see: the current token, the token ahead, and the
answers of the lexer after them, up to the end of the text or the first lexical error.  A parser
sees its tokens only through it: taking a token drops the first item
(`Window.items_eq_of_advance?`), and it can be taken whenever no error is among the items
(`Window.exists_advance?`).

A window is `Window.Settled` when its lexer has nothing left once the end of the text is ahead.
-/

namespace TinyBasic

namespace Window

variable {w w' : Window}

/-- The items in front of a parser. -/
def items (w : Window) : List Lexer.Item :=
  if w.current.value.kind = .eof then [.ok w.current]
  else .ok w.current ::
    if w.ahead.value.kind = .eof then [.ok w.ahead] else .ok w.ahead :: w.lexer.items

/-- Nothing is left to the lexer when the end of the text is ahead. -/
def Settled (w : Window) : Prop := w.ahead.value.kind = .eof → w.lexer.rest = []

theorem items_of_eof (h : w.current.value.kind = .eof) : w.items = [.ok w.current] := by
  rw [items, if_pos h]

theorem head_items (w : Window) : w.items.head? = some (.ok w.current) := by
  unfold items
  split <;> rfl

/-- The items of a lexer whose next token is `t`. -/
theorem items_of_next {l l' : Lexer} {t : Located Token} (h : l.next = (.ok t, l')) :
    l.items = .ok t :: if t.value.kind = .eof then [] else l'.items := by
  rw [Lexer.items_eq, h]
  by_cases ht : t.value.kind = .eof <;> simp [TokenStream.isLast, ht]

theorem settled_of_advance? (h : w.advance? = .ok w') : w'.Settled := by
  unfold advance? at h
  split at h
  · rename_i t l hn
    obtain rfl := Except.ok.inj h
    intro ht
    have := Lexer.next_rest_of_eof (l := w.lexer) (t := t) (by rw [hn]) ht
    rwa [hn] at this
  · cases h

/-- **Taking a token drops the first item.** -/
theorem items_eq_of_advance? (hc : w.current.value.kind ≠ .eof)
    (h : w.advance? = .ok w') : w.items = .ok w.current :: w'.items := by
  unfold advance? at h
  split at h
  · rename_i t l hn
    obtain rfl := Except.ok.inj h
    unfold items
    simp only [hc, if_false]
    by_cases ha : w.ahead.value.kind = .eof
    · simp [ha]
    · simp only [ha, if_false, items_of_next hn]
      split <;> rfl
  · cases h

/-- **A token can be taken when no item is an error.** -/
theorem exists_advance? {ts : List (Located Token)} (hw : w.Settled)
    (hc : w.current.value.kind ≠ .eof) (h : w.items = ts.map .ok) :
    ∃ w', w.advance? = .ok w' := by
  have hnext : ∃ t, w.lexer.next.1 = .ok t := by
    by_cases ha : w.ahead.value.kind = .eof
    · exact ⟨_, by rw [Lexer.next_of_rest_eq_nil (hw ha)]; rfl⟩
    · rw [items, if_neg hc, if_neg ha, Lexer.items_eq] at h
      have hmem : w.lexer.next.1 ∈ ts.map .ok := by simp [← h]
      obtain ⟨t, -, ht⟩ := List.mem_map.1 hmem
      exact ⟨t, ht.symm⟩
  obtain ⟨t, ht⟩ := hnext
  refine ⟨⟨w.lexer.next.2, w.ahead, t⟩, ?_⟩
  unfold advance?
  split
  · rename_i t' l hn
    simp_all
  · rename_i e l hn
    simp [hn] at ht

end Window

/-! ### Steps of a parser -/

namespace Parser

variable {α β : Type} {p : Parser α} {f : α → Parser β} {a : α} {b : β} {w w' w'' : Window}
  {ts ts' : List (Located Token)} {as as' : List Action}

/-- In front of `w`, the parser `p` takes the tokens `ts`, asks for `as`, answers with `a`, and
leaves `w'`. -/
structure Takes (p : Parser α) (w : Window) (ts : List (Located Token)) (as : List Action) (a : α)
    (w' : Window) : Prop where
  run_eq : p.run w = ⟨as, .ok a, w'⟩
  settled : w'.Settled
  items_eq : w.items = ts.map .ok ++ w'.items

/-- What is in front after tokens were taken. -/
theorem Takes.items_of {rest : List (Located Token)} (h : p.Takes w ts as a w')
    (hi : w.items = (ts ++ rest).map .ok) : w'.items = rest.map .ok := by
  have := h.items_eq
  rw [hi, List.map_append] at this
  exact (List.append_cancel_left this).symm

theorem Takes.bind (hp : p.Takes w ts as a w') (hf : (f a).Takes w' ts' as' b w'') :
    (p >>= f).Takes w (ts ++ ts') (as ++ as') b w'' where
  run_eq := by
    have hok : (p.run w).result = .ok a := by rw [hp.run_eq]
    rw [run_bind_of_ok hok, hp.run_eq, hf.run_eq]
  settled := hf.settled
  items_eq := by rw [hp.items_eq, hf.items_eq, List.map_append, List.append_assoc]

theorem Takes.andThen {q : Parser β} (hp : p.Takes w ts as a w') (hq : q.Takes w' ts' as' b w'') :
    (p >>= fun _ => q).Takes w (ts ++ ts') (as ++ as') b w'' :=
  hp.bind hq

theorem takes_pure (hw : w.Settled) (a : α) : (pure a : Parser α).Takes w [] [] a w :=
  ⟨rfl, hw, rfl⟩

theorem takes_perform (hw : w.Settled) (act : Action) : (perform act).Takes w [] [act] () w :=
  ⟨rfl, hw, rfl⟩

theorem takes_current (hw : w.Settled) : current.Takes w [] [] w.current w := ⟨rfl, hw, rfl⟩

theorem takes_advance (hc : w.current.value.kind ≠ .eof) (h : w.advance? = .ok w') :
    advance.Takes w [w.current] [.pull] () w' :=
  ⟨run_advance_of_ok h, Window.settled_of_advance? h, Window.items_eq_of_advance? hc h⟩

/-- A sequence of two parsers succeeds only if both do. -/
theorem exists_of_bind (h : ((p >>= f).run w).result = .ok b) :
    ∃ a, (p.run w).result = .ok a ∧ ((f a).run (p.run w).window).result = .ok b := by
  cases hp : (p.run w).result with
  | error e => simp [run_bind_of_error hp] at h
  | ok a =>
    rw [run_bind_of_ok hp] at h
    exact ⟨a, rfl, h⟩

/-- Asking for an action does not fail. -/
theorem ok_of_perform {act : Action} {q : Parser β}
    (h : ((perform act >>= fun _ => q).run w).result = .ok b) : (q.run w).result = .ok b :=
  h

theorem Takes.of_run_eq {q : Parser α} (h : q.Takes w ts as a w') (hrun : p.run w = q.run w) :
    p.Takes w ts as a w' :=
  ⟨hrun.trans h.run_eq, h.settled, h.items_eq⟩

theorem Takes.map (g : α → β) (h : p.Takes w ts as a w') : (g <$> p).Takes w ts as (g a) w' := by
  rw [← bind_pure_comp]
  have := h.bind (f := fun a => pure (g a)) (takes_pure h.settled (g a))
  rwa [List.append_nil, List.append_nil] at this

theorem exists_of_map {g : α → β} (h : ((g <$> p).run w).result = .ok b) :
    ∃ a, b = g a ∧ (p.run w).result = .ok a := by
  rw [← bind_pure_comp] at h
  obtain ⟨a, ha, hb⟩ := exists_of_bind h
  exact ⟨a, (Except.ok.inj hb).symm, ha⟩

end Parser

end TinyBasic
