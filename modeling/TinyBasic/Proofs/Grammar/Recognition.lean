import TinyBasic.Grammar.Program
import TinyBasic.Proofs.Grammar.Tree
import TinyBasic.Proofs.Grammar.Window

/-!
# The parsers recognise the trees of the grammar

`Parser.Recognizes p tokens actions follow` says that a parser and a type of trees belong together:
where the parser succeeds it has taken the tokens of a tree and asked for its actions, and it takes
the tokens of every tree that something of a kind in `follow` comes after.  It is proved for the
parsers of expressions and conditions (`Grammar.recognizes_comparison`) and of line ends
(`Grammar.recognizes_lineEnd`).

A repetition recognises lists of what its rounds recognise (`Parser.takes_many_of_ok`,
`Parser.takes_many_of_items`), and from that follows the general lemma for operands with operators
between them, `Grammar.recognizes_series`.
-/

namespace TinyBasic

open TinyBasic.Tree

namespace Parser

variable {α β X : Type} {p : Parser α} {f : α → Parser β} {a : α} {b : β} {w w' w'' : Window}
  {ts ts' rest : List (Located Token)} {as as' : List Action} {t : Located Token}

theorem Takes.rest_ok (hp : p.Takes w ts as a w') (h : ((p >>= f).run w).result = .ok b) :
    ((f a).run w').result = .ok b := by
  have hok : (p.run w).result = .ok a := by rw [hp.run_eq]
  rw [run_bind_of_ok hok, hp.run_eq] at h
  exact h

theorem Takes.congr (h : p.Takes w ts as a w') (hts : ts = ts') (has : as = as') :
    p.Takes w ts' as' a w' :=
  hts ▸ has ▸ h

theorem current_of_items (h : w.items = (t :: ts).map .ok) : w.current = t := by
  have := w.head_items
  rw [h] at this
  exact (Except.ok.inj (Option.some.inj this)).symm

theorem Takes.current_eq (h : p.Takes w (t :: ts) as a w') : w.current = t := by
  have := w.head_items
  rw [h.items_eq] at this
  exact (Except.ok.inj (Option.some.inj this)).symm

/-- The token after `rest` has begun, if there is one, is of a kind that satisfies `P`. -/
def Follows (P : Token.Kind → Prop) (rest : List (Located Token)) : Prop :=
  ∀ t, rest.head? = some t → P t.value.kind

@[simp] theorem follows_nil {P : Token.Kind → Prop} : Follows P [] := fun _ h => by cases h

@[simp] theorem follows_cons {P : Token.Kind → Prop} : Follows P (t :: ts) ↔ P t.value.kind := by
  simp [Follows]

theorem Follows.mono {P Q : Token.Kind → Prop} (h : Follows P rest) (hPQ : ∀ k, P k → Q k) :
    Follows Q rest :=
  fun t ht => hPQ _ (h t ht)

/-- `p` recognises the trees of type `X`: where it succeeds it has taken the tokens of a tree and
asked for its actions, and it succeeds on the tokens of every tree that a token of a kind in
`follow` comes after. -/
structure Recognizes (p : Parser Unit) (tokens : X → List (Located Token))
    (actions : X → List Action) (follow : Token.Kind → Prop) : Prop where
  sound : ∀ {w : Window}, w.Settled → (p.run w).result = .ok () →
    ∃ x w', p.Takes w (tokens x) (actions x) () w'
  complete : ∀ {w : Window} (x : X) {rest : List (Located Token)}, w.Settled →
    w.items = (tokens x ++ rest).map .ok → Follows follow rest →
    ∃ w', p.Takes w (tokens x) (actions x) () w'

theorem Recognizes.mono {p : Parser Unit} {tokens : X → List (Located Token)}
    {actions : X → List Action} {follow ends : Token.Kind → Prop}
    (h : p.Recognizes tokens actions follow) (hends : ∀ k, ends k → follow k) :
    p.Recognizes tokens actions ends where
  sound := h.sound
  complete x _ hw hi hrest := h.complete x hw hi (hrest.mono hends)

/-- The token in front of a window without errors. -/
theorem exists_of_items (h : w.items = ts.map .ok) : ∃ rest, ts = w.current :: rest := by
  have hhead := w.head_items
  rw [h] at hhead
  cases ts with
  | nil => cases hhead
  | cons t ts =>
    obtain rfl := Except.ok.inj (Option.some.inj hhead)
    exact ⟨ts, rfl⟩

/-! ### Single tokens -/

theorem takes_advance_of_ok (hc : w.current.value.kind ≠ .eof)
    (h : (advance.run w).result = .ok ()) : ∃ w', advance.Takes w [w.current] [.pull] () w' := by
  cases ha : w.advance? with
  | error e => simp [run_advance_of_error ha] at h
  | ok w' => exact ⟨w', takes_advance hc ha⟩

theorem takes_advance_of_items (hw : w.Settled) (ht : t.value.kind ≠ .eof)
    (h : w.items = (t :: rest).map .ok) : ∃ w', advance.Takes w [t] [.pull] () w' := by
  obtain rfl := current_of_items h
  obtain ⟨w', ha⟩ := Window.exists_advance? hw ht h
  exact ⟨w', takes_advance ht ha⟩

theorem recognizes_expect {k : Token.Kind} (hk : k ≠ .eof) :
    (expect k).Recognizes (X := Exactly k) (fun l => [l.token]) (fun _ => [.pull])
      fun _ => True where
  sound {w} hw h := by
    have h := (takes_current hw).rest_ok h
    split at h
    · rename_i hc
      obtain ⟨w', ht⟩ := takes_advance_of_ok (hc ▸ hk) h
      refine ⟨⟨w.current, hc⟩, w', ((takes_current hw).bind ?_)⟩
      rwa [if_pos hc]
    · simp at h
  complete {w} l {rest} hw hi _ := by
    obtain ⟨w', ht⟩ := takes_advance_of_items hw (l.fits.symm ▸ hk) hi
    refine ⟨w', (takes_current hw).bind ?_⟩
    rwa [if_pos (by rw [current_of_items hi]; exact l.fits)]

theorem takes_ident_of_ok (hw : w.Settled) {n : Name} (h : (ident.run w).result = .ok n) :
    ∃ (l : Exactly .ident) (w' : Window), n = l.name ∧ ident.Takes w [l.token] [.pull] n w' := by
  have h := (takes_current hw).rest_ok h
  obtain ⟨⟨⟩, he, -⟩ := exists_of_bind h
  obtain ⟨l, w', ht⟩ := (recognizes_expect (by decide)).sound hw he
  have h := ht.rest_ok h
  obtain rfl : w.current.map Token.text = n := Except.ok.inj h
  refine ⟨l, w', by rw [ht.current_eq]; rfl, (takes_current hw).bind (ht.bind ?_)⟩
  exact takes_pure ht.settled _

theorem takes_ident_of_items (l : Exactly .ident) (hw : w.Settled)
    (hi : w.items = (l.token :: rest).map .ok) :
    ∃ w', ident.Takes w [l.token] [.pull] l.name w' := by
  obtain ⟨w', ht⟩ := (recognizes_expect (by decide)).complete l hw hi fun _ _ => trivial
  refine ⟨w', (takes_current hw).bind (ht.bind ?_)⟩
  rw [current_of_items hi]
  exact takes_pure ht.settled _

/-! ### Repetitions -/

theorem many_eq (continues : Token.Kind → Bool) (body : Parser Unit)
    (h : ∀ w, continues w.current.value.kind = true → body.Consumes w) :
    many continues body h = current >>= fun t =>
      if continues t.value.kind then body >>= fun _ => many continues body h else pure () := by
  refine (loop_eq _ _ ()).trans ?_
  simp only [round, bind_assoc]
  congr 1
  funext t
  split
  · simp only [bind_assoc, pure_bind]
    rfl
  · rfl

section Many

variable {continues : Token.Kind → Bool} {body : Parser Unit} {tokens : X → List (Located Token)}
  {actions : X → List Action} {follow : Token.Kind → Prop}
  (h : ∀ w, continues w.current.value.kind = true → body.Consumes w)

theorem takes_many_of_ok
    (hbody : ∀ {w : Window}, w.Settled → continues w.current.value.kind = true →
      (body.run w).result = .ok () → ∃ x w', body.Takes w (tokens x) (actions x) () w')
    (hw : w.Settled) (hok : ((many continues body h).run w).result = .ok ()) :
    ∃ xs w', (many continues body h).Takes w (xs.flatMap tokens) (xs.flatMap actions) () w' ∧
      (continues w.current.value.kind = true → xs ≠ []) := by
  induction hn : w.remaining using Nat.strong_induction_on generalizing w with
  | _ n ih =>
    subst hn
    rw [many_eq] at hok ⊢
    have hok := (takes_current hw).rest_ok hok
    by_cases hc : continues w.current.value.kind = true
    · rw [if_pos hc] at hok
      obtain ⟨⟨⟩, hb, -⟩ := exists_of_bind hok
      obtain ⟨x, w₁, hx⟩ := hbody hw hc hb
      have hlt : w₁.remaining < w.remaining := by
        have := h w hc () hb
        rwa [hx.run_eq] at this
      -- the rounds after the first start with less in front
      obtain ⟨xs, w', hxs, -⟩ := ih _ hlt hx.settled (hx.rest_ok hok) rfl
      refine ⟨x :: xs, w', (takes_current hw).bind ?_, fun _ => List.cons_ne_nil x xs⟩
      rw [if_pos hc]
      exact hx.bind hxs
    · rw [if_neg hc] at hok
      refine ⟨[], w, (takes_current hw).bind ?_, fun h => absurd h hc⟩
      rw [if_neg hc]
      exact takes_pure hw ()

theorem takes_many_of_items
    (hbody : ∀ {w : Window} (x : X) {rest : List (Located Token)}, w.Settled →
      w.items = (tokens x ++ rest).map .ok → Follows follow rest →
      ∃ w', body.Takes w (tokens x) (actions x) () w')
    (hstart : ∀ x, ∃ t ts, tokens x = t :: ts ∧ continues t.value.kind = true)
    (hfollow : ∀ k, continues k = true → follow k) (xs : List X) (hw : w.Settled)
    (hi : w.items = (xs.flatMap tokens ++ rest).map .ok)
    (hrest : Follows (fun k => follow k ∧ continues k = false) rest) :
    ∃ w', (many continues body h).Takes w (xs.flatMap tokens) (xs.flatMap actions) () w' := by
  induction xs generalizing w with
  | nil =>
    have hrest' : w.items = rest.map .ok := hi
    obtain ⟨rest, rfl⟩ := exists_of_items hrest'
    refine ⟨w, (many_eq _ _ h) ▸ (takes_current hw).bind ?_⟩
    rw [if_neg (by simp [(hrest _ rfl).2])]
    exact takes_pure hw ()
  | cons x xs ih =>
    obtain ⟨t, ts, hx, ht⟩ := hstart x
    rw [List.flatMap_cons, List.append_assoc] at hi
    have hcurrent : w.current = t := current_of_items (by rw [hi, hx]; rfl)
    -- the next round, or what comes after the repetition, ends this round
    have hnext : Follows follow (xs.flatMap tokens ++ rest) := by
      cases xs with
      | nil => exact hrest.mono fun _ h => h.1
      | cons y ys =>
        obtain ⟨u, us, hy, hu⟩ := hstart y
        rw [List.flatMap_cons, hy]
        exact follows_cons.2 (hfollow _ hu)
    obtain ⟨w₁, hw₁⟩ := hbody x hw hi hnext
    obtain ⟨w', hw'⟩ := ih hw₁.settled (hw₁.items_of hi)
    refine ⟨w', (many_eq _ _ h) ▸ (takes_current hw).bind ?_⟩
    rw [if_pos (by rw [hcurrent]; exact ht)]
    exact hw₁.bind hw'

end Many

end Parser

namespace Grammar

open TinyBasic.Parser

variable {α X : Type} {w w' : Window} {t : Located Token} {ts rest : List (Located Token)}

/-! ### Expressions -/

theorem takes_paste_of_ok (hw : w.Settled) (hc : w.current.value.kind ≠ .eof)
    (h : (paste.run w).result = .ok ()) :
    ∃ w', paste.Takes w [w.current] (pasted w.current) () w' := by
  have h := (takes_perform hw _).rest_ok ((takes_current hw).rest_ok h)
  obtain ⟨w', ht⟩ := takes_advance_of_ok hc h
  exact ⟨w', (takes_current hw).bind ((takes_perform hw _).bind ht)⟩

theorem takes_paste_of_items (hw : w.Settled) (ht : t.value.kind ≠ .eof)
    (hi : w.items = (t :: rest).map .ok) : ∃ w', paste.Takes w [t] (pasted t) () w' := by
  obtain ⟨w', h⟩ := takes_advance_of_items hw ht hi
  obtain rfl := current_of_items hi
  exact ⟨w', (takes_current hw).bind ((takes_perform hw _).bind h)⟩

theorem recognizes_primary :
    primary.Recognizes (fun p => [p.token]) Primary.actions fun _ => True where
  sound {w} hw h := by
    have hrecord := takes_perform hw (.record (.primary w.current.value.text))
    have hread := takes_perform hw (.read (w.current.map Token.text))
    have h := hrecord.rest_ok ((takes_current hw).rest_ok h)
    split at h
    · rename_i hk
      obtain ⟨w', ht⟩ := takes_paste_of_ok hw (by simp [hk]) h
      refine ⟨.number ⟨w.current, hk⟩, w', (takes_current hw).bind (hrecord.bind ?_)⟩
      rw [hk]
      exact ht
    · rename_i hk
      obtain ⟨w', ht⟩ := takes_paste_of_ok hw (by simp [hk]) (hread.rest_ok h)
      refine ⟨.variable ⟨w.current, hk⟩, w', (takes_current hw).bind (hrecord.bind ?_)⟩
      rw [hk]
      exact hread.bind ht
    · simp at h
  complete {w} p {rest} hw hi _ := by
    have hrecord := takes_perform hw (.record (.primary w.current.value.text))
    have hread := takes_perform hw (.read (w.current.map Token.text))
    cases p with
    | number l =>
      obtain ⟨t, hk⟩ := l
      obtain rfl := current_of_items hi
      obtain ⟨w', ht⟩ := takes_paste_of_items hw (by simp [Primary.token, hk]) hi
      refine ⟨w', (takes_current hw).bind (hrecord.bind ?_)⟩
      rw [hk]
      exact ht
    | «variable» l =>
      obtain ⟨t, hk⟩ := l
      obtain rfl := current_of_items hi
      obtain ⟨w', ht⟩ := takes_paste_of_items hw (by simp [Primary.token, hk]) hi
      refine ⟨w', (takes_current hw).bind (hrecord.bind ?_)⟩
      rw [hk]
      exact hread.bind ht

theorem ne_eof_of_isOperator {isOperator : Token.Kind → Bool} (heof : isOperator .eof = false)
    {k : Token.Kind} (h : isOperator k = true) : k ≠ .eof := by
  rintro rfl
  simp [heof] at h

theorem Primary.not_isAdditive (p : Primary) : p.token.value.kind.isAdditive = false := by
  cases p with
  | number l => simp [Primary.token, l.fits, Token.Kind.isAdditive]
  | «variable» l => simp [Primary.token, l.fits, Token.Kind.isAdditive]

theorem recognizes_unary : unary.Recognizes Unary.tokens Unary.actions fun _ => True where
  sound {w} hw h := by
    have hrecord := takes_perform hw (.record .unary)
    have h := (takes_current hw).rest_ok (hrecord.rest_ok h)
    by_cases hc : w.current.value.kind.isAdditive = true
    · rw [if_pos hc] at h
      obtain ⟨⟨⟩, hp, -⟩ := exists_of_bind h
      obtain ⟨w₁, hsign⟩ := takes_paste_of_ok hw (ne_eof_of_isOperator rfl hc) hp
      obtain ⟨p, w', hprimary⟩ := recognizes_primary.sound hsign.settled (hsign.rest_ok h)
      refine ⟨⟨some ⟨w.current, hc⟩, p⟩, w', hrecord.bind ((takes_current hw).bind ?_)⟩
      rw [if_pos hc]
      exact hsign.bind hprimary
    · rw [if_neg hc] at h
      obtain ⟨p, w', hprimary⟩ := recognizes_primary.sound hw ((takes_pure hw _).rest_ok h)
      refine ⟨⟨none, p⟩, w', hrecord.bind ((takes_current hw).bind ?_)⟩
      rw [if_neg hc]
      exact (takes_pure hw _).bind hprimary
  complete {w} u {rest} hw hi _ := by
    have hrecord := takes_perform hw (.record .unary)
    obtain ⟨sign, p⟩ := u
    cases sign with
    | some l =>
      obtain ⟨t, hc⟩ := l
      obtain rfl := current_of_items hi
      obtain ⟨w₁, hsign⟩ := takes_paste_of_items hw (ne_eof_of_isOperator rfl hc) hi
      obtain ⟨w', hprimary⟩ := recognizes_primary.complete p hsign.settled
        (hsign.items_of hi) fun _ _ => trivial
      refine ⟨w', hrecord.bind ((takes_current hw).bind ?_)⟩
      rw [if_pos hc]
      exact hsign.bind hprimary
    | none =>
      obtain ⟨w', hprimary⟩ := recognizes_primary.complete p hw hi fun _ _ => trivial
      refine ⟨w', hrecord.bind ((takes_current hw).bind ?_)⟩
      rw [if_neg (by rw [current_of_items hi, Primary.not_isAdditive]; exact Bool.false_ne_true)]
      exact (takes_pure hw _).bind hprimary

/-! ### Series -/

section Series

variable {isOperator : Token.Kind → Bool} {operand : Parser Unit}
  {tokens : X → List (Located Token)} {actions : X → List Action} {follow : Token.Kind → Prop}

theorem takes_operator_of_ok (hw : w.Settled) (hc : w.current.value.kind ≠ .eof)
    (h : (operator.run w).result = .ok ()) :
    ∃ w', operator.Takes w [w.current] (.write " " :: pasted w.current ++ [.write " "]) () w' := by
  have h := (takes_perform hw _).rest_ok h
  obtain ⟨⟨⟩, hp, -⟩ := exists_of_bind h
  obtain ⟨w', ht⟩ := takes_paste_of_ok hw hc hp
  exact ⟨w', (takes_perform hw _).bind (ht.bind (takes_perform ht.settled _))⟩

theorem takes_operator_of_items (hw : w.Settled) (ht : t.value.kind ≠ .eof)
    (hi : w.items = (t :: rest).map .ok) :
    ∃ w', operator.Takes w [t] (.write " " :: pasted t ++ [.write " "]) () w' := by
  obtain ⟨w', ht⟩ := takes_paste_of_items hw ht hi
  exact ⟨w', (takes_perform hw _).bind (ht.bind (takes_perform ht.settled _))⟩

theorem takes_operations_of_ok (hoperand : operand.Recognizes tokens actions follow)
    (heof : isOperator .eof = false) (hw : w.Settled)
    (h : ((operations isOperator operand heof).run w).result = .ok ()) :
    ∃ (later : List (Leaf (isOperator ·) × X)) (w' : Window),
      (operations isOperator operand heof).Takes w
        (later.flatMap fun x => x.1.token :: tokens x.2)
        (later.flatMap fun x => .write " " :: pasted x.1.token ++ .write " " :: actions x.2) () w' ∧
      (isOperator w.current.value.kind = true → later ≠ []) := by
  refine takes_many_of_ok _ (fun {w} hw hc h => ?_) hw h
  obtain ⟨⟨⟩, ho, -⟩ := exists_of_bind h
  obtain ⟨w₁, hop⟩ := takes_operator_of_ok hw (ne_eof_of_isOperator heof hc) ho
  obtain ⟨x, w', hx⟩ := hoperand.sound hop.settled (hop.rest_ok h)
  exact ⟨(⟨w.current, hc⟩, x), w', (hop.bind hx).congr rfl (by simp)⟩

theorem takes_operations_of_items (hoperand : operand.Recognizes tokens actions follow)
    (heof : isOperator .eof = false) (hfollow : ∀ k, isOperator k = true → follow k)
    (later : List (Leaf (isOperator ·) × X)) (hw : w.Settled)
    (hi : w.items = ((later.flatMap fun x => x.1.token :: tokens x.2) ++ rest).map .ok)
    (hrest : Follows (fun k => follow k ∧ isOperator k = false) rest) :
    ∃ w', (operations isOperator operand heof).Takes w
      (later.flatMap fun x => x.1.token :: tokens x.2)
      (later.flatMap fun x => .write " " :: pasted x.1.token ++ .write " " :: actions x.2) ()
        w' := by
  refine takes_many_of_items _ (fun {w} x {rest} hw hi hrest => ?_)
    (fun x => ⟨_, _, rfl, x.1.fits⟩) hfollow later hw hi hrest
  obtain ⟨w₁, hop⟩ := takes_operator_of_items hw (ne_eof_of_isOperator heof x.1.fits) hi
  obtain ⟨w', hx⟩ := hoperand.complete x.2 hop.settled (hop.items_of hi) hrest
  exact ⟨w', (hop.bind hx).congr rfl (by simp)⟩

/-- What comes after an operand: an operator, or what comes after the series. -/
theorem follows_later (hfollow : ∀ k, isOperator k = true → follow k)
    (later : List (Leaf (isOperator ·) × X)) (hrest : Follows follow rest) :
    Follows follow ((later.flatMap fun x => x.1.token :: tokens x.2) ++ rest) := by
  cases later with
  | nil => exact hrest
  | cons x later => exact follows_cons.2 (hfollow _ x.1.fits)

/-- **A series is recognised when its operands are** and an operator can follow an operand. -/
theorem recognizes_series (c : Construct) (hoperand : operand.Recognizes tokens actions follow)
    (heof : isOperator .eof = false) (hfollow : ∀ k, isOperator k = true → follow k) :
    (do perform (.record c); operand; operations isOperator operand heof).Recognizes
      (X := Series isOperator X) (Series.tokens tokens) (Series.actions c actions)
      fun k => follow k ∧ isOperator k = false where
  sound {w} hw h := by
    have hrecord := takes_perform hw (.record c)
    have h := hrecord.rest_ok h
    obtain ⟨⟨⟩, ho, -⟩ := exists_of_bind h
    obtain ⟨x, w₁, hx⟩ := hoperand.sound hw ho
    obtain ⟨later, w', hlater, -⟩ :=
      takes_operations_of_ok hoperand heof hx.settled (hx.rest_ok h)
    exact ⟨⟨x, later⟩, w', hrecord.bind (hx.bind hlater)⟩
  complete {w} s {rest} hw hi hrest := by
    have hrecord := takes_perform hw (.record c)
    rw [Series.tokens, List.append_assoc] at hi
    obtain ⟨w₁, hx⟩ := hoperand.complete s.first hw hi
      (follows_later hfollow s.later (hrest.mono fun _ h => h.1))
    obtain ⟨w', hlater⟩ := takes_operations_of_items hoperand heof hfollow s.later hx.settled
      (hx.items_of hi) hrest
    exact ⟨w', hrecord.bind (hx.bind hlater)⟩

end Series

/-- The kinds that end a term. -/
def EndsTerm (k : Token.Kind) : Prop := k.isMultiplicative = false

/-- The kinds that end an expression. -/
def EndsExpression (k : Token.Kind) : Prop := EndsTerm k ∧ k.isAdditive = false

/-- The kinds that end a condition. -/
def EndsComparison (k : Token.Kind) : Prop := EndsExpression k ∧ k.isComparison = false

theorem endsTerm_of_isAdditive {k : Token.Kind} (h : k.isAdditive = true) : EndsTerm k := by
  cases k <;> simp_all [EndsTerm, Token.Kind.isAdditive, Token.Kind.isMultiplicative]

theorem endsExpression_of_isComparison {k : Token.Kind} (h : k.isComparison = true) :
    EndsExpression k := by
  cases k <;> simp_all [EndsExpression, EndsTerm, Token.Kind.isComparison,
    Token.Kind.isAdditive, Token.Kind.isMultiplicative]

theorem recognizes_term : term.Recognizes Term.tokens Term.actions EndsTerm :=
  (recognizes_series .term recognizes_unary rfl fun _ _ => trivial).mono fun _ h => ⟨trivial, h⟩

theorem recognizes_expression :
    expression.Recognizes Expression.tokens Expression.actions EndsExpression :=
  recognizes_series .expression recognizes_term rfl fun _ => endsTerm_of_isAdditive

theorem recognizes_comparison :
    comparison.Recognizes Comparison.tokens Comparison.actions EndsComparison where
  sound {w} hw h := by
    have hrecord := takes_perform hw (.record .comparison)
    have h := hrecord.rest_ok h
    obtain ⟨⟨⟩, ho, -⟩ := exists_of_bind h
    obtain ⟨x, w₁, hx⟩ := recognizes_expression.sound hw ho
    have hcurrent := takes_current hx.settled
    have h := hcurrent.rest_ok (hx.rest_ok h)
    by_cases hc : w₁.current.value.kind.isComparison = true
    · rw [if_pos hc] at h
      obtain ⟨later, w', hlater, hne⟩ :=
        takes_operations_of_ok recognizes_expression rfl hx.settled h
      refine ⟨⟨⟨x, later⟩, hne hc⟩, w', hrecord.bind (hx.bind (hcurrent.bind ?_))⟩
      rw [if_pos hc]
      exact hlater
    · rw [if_neg hc] at h
      simp at h
  complete {w} c {rest} hw hi hrest := by
    have hrecord := takes_perform hw (.record .comparison)
    obtain ⟨⟨x, later⟩, hne⟩ := c
    simp only [Comparison.tokens, Series.tokens, List.append_assoc] at hi
    obtain ⟨w₁, hx⟩ := recognizes_expression.complete x hw hi
      (follows_later (fun _ => endsExpression_of_isComparison) later (hrest.mono fun _ h => h.1))
    have hi₁ := hx.items_of hi
    obtain ⟨w', hlater⟩ := takes_operations_of_items recognizes_expression rfl
      (fun _ => endsExpression_of_isComparison) later hx.settled hi₁ hrest
    refine ⟨w', hrecord.bind (hx.bind ((takes_current hx.settled).bind ?_))⟩
    obtain ⟨y, later, rfl⟩ := List.exists_cons_of_ne_nil hne
    rw [if_pos (by rw [current_of_items hi₁]; exact y.1.fits)]
    exact hlater

/-! ### Lines -/

theorem recognizes_blankLines :
    blankLines.Recognizes (X := List (Exactly .newline)) (·.map Leaf.token)
      (·.map fun _ => .pull) (· ≠ .newline) where
  sound {w} hw h := by
    have hround : ∀ {w : Window}, w.Settled → decide (w.current.value.kind = .newline) = true →
        (advance.run w).result = .ok () →
        ∃ (l : Exactly .newline) (w' : Window), advance.Takes w [l.token] [.pull] () w' := by
      intro w _ hc h
      have hk : w.current.value.kind = .newline := by simpa using hc
      obtain ⟨w', ht⟩ := takes_advance_of_ok (by simp [hk]) h
      exact ⟨⟨w.current, hk⟩, w', ht⟩
    obtain ⟨ls, w', ht, -⟩ := takes_many_of_ok _ hround hw h
    exact ⟨ls, w', ht.congr List.map_eq_flatMap.symm List.map_eq_flatMap.symm⟩
  complete {w} ls {rest} hw hi hrest := by
    have hround : ∀ {w : Window} (l : Exactly .newline) {rest : List (Located Token)}, w.Settled →
        w.items = ([l.token] ++ rest).map .ok → Follows (fun _ => True) rest →
        ∃ w', advance.Takes w [l.token] [.pull] () w' :=
      fun l _ hw hi _ => takes_advance_of_items hw (by simp [l.fits]) hi
    have hi' : w.items = ((ls.flatMap fun l => [l.token]) ++ rest).map .ok := by
      rwa [← List.map_eq_flatMap]
    have htaken : ∃ w', blankLines.Takes w (ls.flatMap fun l => [l.token])
        (ls.flatMap fun _ => [.pull]) () w' :=
      takes_many_of_items _ hround (fun l => ⟨_, _, rfl, decide_eq_true l.fits⟩)
        (fun _ _ => trivial) ls hw hi' (hrest.mono fun _ h => ⟨trivial, decide_eq_false h⟩)
    obtain ⟨w', ht⟩ := htaken
    exact ⟨w', ht.congr List.map_eq_flatMap.symm List.map_eq_flatMap.symm⟩

/-- The end of a line, before whatever comes after it. -/
theorem LineEnd.follows {P : Token.Kind → Prop} (h : P .newline) (n : LineEnd) :
    Follows P (n.tokens ++ rest) := by
  refine follows_cons.2 ?_
  rw [n.first.fits]
  exact h

theorem recognizes_lineEnd :
    lineEnd.Recognizes LineEnd.tokens LineEnd.actions (· ≠ .newline) where
  sound {w} hw h := by
    have hrecord := takes_perform hw (.record .newline)
    have h := hrecord.rest_ok h
    obtain ⟨⟨⟩, he, -⟩ := exists_of_bind h
    obtain ⟨l, w₁, hl⟩ := (recognizes_expect (by decide)).sound hw he
    obtain ⟨ls, w', hls⟩ := recognizes_blankLines.sound hl.settled (hl.rest_ok h)
    exact ⟨⟨l, ls⟩, w', hrecord.bind (hl.bind hls)⟩
  complete {w} n {rest} hw hi hrest := by
    have hrecord := takes_perform hw (.record .newline)
    obtain ⟨w₁, hl⟩ := (recognizes_expect (by decide)).complete n.first hw hi fun _ _ => trivial
    obtain ⟨w', hls⟩ := recognizes_blankLines.complete n.more hl.settled (hl.items_of hi) hrest
    exact ⟨w', hrecord.bind (hl.bind hls)⟩

end Grammar

end TinyBasic
