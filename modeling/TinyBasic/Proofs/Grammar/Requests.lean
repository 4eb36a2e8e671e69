import Mathlib.Data.List.Basic
import TinyBasic.Proofs.Grammar.Derivation
import TinyBasic.Proofs.Grammar.Parallel

/-!
# Asking for tokens

A parser asks for one token whenever it takes one, so what it has taken can be counted.
`Window.Passes w ts v` says that the tokens `ts` are taken from `w` on, and that none of them is the
end of the text.  Whatever a parser of the grammar does, it passes tokens in this way
(`Outcome.Stops`): the relation of being some tokens further on is kept by every step, so it can be
followed through the grammar like two runs of it, with the second run the same as the first.

For a whole source this gives the number of tokens that the grammar asks for, beside the number of
answers that the lexer has (`Script.Asks`).
-/

namespace TinyBasic

open TinyBasic.Parser TinyBasic.Grammar TinyBasic.Action

variable {α σ : Type} {w v v' : Window} {ts : List (Located Token)}
  {items : List Lexer.Item}

namespace Window

/-- From `w` on the tokens `ts` are taken one after the other, none of them the end of the text, and
`v` is the window after them. -/
inductive Passes (w : Window) : List (Located Token) → Window → Prop
  | refl : Passes w [] w
  | step {ts : List (Located Token)} {v v' : Window} (h : Passes w ts v)
    (hc : v.current.value.kind ≠ .eof) (hv : v.advance? = .ok v') :
    Passes w (ts ++ [v.current]) v'

theorem Passes.items_eq (h : w.Passes ts v) : w.items = ts.map .ok ++ v.items := by
  induction h with
  | refl => rfl
  | step _ hc hv ih => rw [ih, items_eq_of_advance? hc hv]; simp

theorem Passes.eq_of_nil (h : w.Passes [] v) : v = w := by
  generalize hts : ([] : List (Located Token)) = ts at h
  cases h with
  | refl => rfl
  | step => simp at hts

theorem Passes.ne_eof (h : w.Passes ts v) : ∀ t ∈ ts, t.value.kind ≠ .eof := by
  induction h with
  | refl => simp
  | step _ hc _ ih => exact List.forall_mem_append.2 ⟨ih, List.forall_mem_singleton.2 hc⟩

theorem Passes.settled (h : w.Passes ts v) (hw : w.Settled) : v.Settled := by
  cases h with
  | refl => exact hw
  | step _ _ hv => exact settled_of_advance? hv

theorem items_ne_nil (w : Window) : w.items ≠ [] := by
  intro h
  have := w.head_items
  simp [h] at this

/-- An error stands after the two tokens that are looked at. -/
theorem two_lt_length_items {e : Located LexicalError} (h : w.items.getLast? = some (.error e)) :
    2 < w.items.length := by
  unfold items at h ⊢
  split
  · rename_i hc
    simp [hc] at h
  · rename_i hc
    split
    · rename_i ha
      simp [hc, ha] at h
    · rw [Lexer.items_eq]
      simp

/-- A token that cannot be read is the last item, after the two tokens that are looked at. -/
theorem items_of_advance?_eq_error {e : Located LexicalError} (hw : w.Settled)
    (hc : w.current.value.kind ≠ .eof) (he : w.advance? = .error e) :
    w.items = [.ok w.current, .ok w.ahead, .error e] ∧ w.ahead.value.kind ≠ .eof := by
  have hnext : w.lexer.next.1 = .error e := by
    unfold advance? at he
    split at he
    · cases he
    · rename_i e' l hn
      rw [hn, Except.error.inj he]
  -- with the end of the text ahead, the lexer would give it once more
  have ha : w.ahead.value.kind ≠ .eof := fun ha => by
    rw [Lexer.next_of_rest_eq_nil (hw ha)] at hnext
    cases hnext
  refine ⟨?_, ha⟩
  rw [items, if_neg hc, if_neg ha, Lexer.items_eq, hnext]
  rfl

/-- Both windows are the one that is `n` tokens after `w`. -/
def After (w : Window) (n : ℕ) (v v' : Window) : Prop :=
  v' = v ∧ ∃ ts, w.Passes ts v ∧ ts.length = n

theorem After.current ⦃n : ℕ⦄ ⦃v v' : Window⦄ (h : w.After n v v') :
    v.current.Alike (fun _ => ()) v'.current := by
  rw [h.1]
  exact ⟨rfl, rfl⟩

theorem After.advance {k : Token.Kind} (hk : k ≠ .eof) :
    Parser.advance.Parallel (fun _ => ()) w.After (· = k) Parser.advance := by
  rintro n v v' ⟨hv', ts, hts, hn⟩ hkind
  subst hv'
  rw [← hkind] at hk
  cases ha : v'.advance? with
  | ok u => exact related_advance ha ha ⟨rfl, _, hts.step hk ha, by simp [hn]⟩
  | error e => exact related_advance_of_error ⟨rfl, ts, hts, hn⟩ hk ha

end Window

/-! ### Outcomes -/

/-- What a parser has asked for in front of `w`: a token for each one that it took, and one more if
that could not be read. -/
inductive Outcome.Stops (w : Window) : Outcome α → Prop
  | ok {as : List Action} {ts : List (Located Token)} {v : Window} (a : α) (h : w.Passes ts v)
    (hn : pulls as = ts.length) : Stops w ⟨as, .ok a, v⟩
  | syntactic {as : List Action} {ts : List (Located Token)} {v : Window} (e : Located SyntaxError)
    (h : w.Passes ts v) (hn : pulls as = ts.length) : Stops w ⟨as, .error (.syntactic e), v⟩
  | lexical {as : List Action} {ts : List (Located Token)} {v : Window} {e : Located LexicalError}
    (h : w.Passes ts v) (hn : pulls as = ts.length) (hc : v.current.value.kind ≠ .eof)
    (he : v.advance? = .error e) : Stops w ⟨as ++ [.pull], .error (.lexical e), v⟩

theorem Outcome.Stops.exists_passes {o : Outcome α} (h : o.Stops w) :
    ∃ ts, w.Passes ts o.window := by
  cases h with
  | ok _ h _ => exact ⟨_, h⟩
  | syntactic _ h _ => exact ⟨_, h⟩
  | lexical h _ _ _ => exact ⟨_, h⟩

/-- A run beside itself, each of them as far after `w` as it has asked for tokens. -/
theorem Outcome.Related.stops {o o' : Outcome α}
    (h : o.Related (fun _ => ()) w.After 0 o') : o.Stops w := by
  cases h with
  | ok a _ h =>
    obtain ⟨-, ts, hts, hn⟩ := h
    exact .ok a hts (by rw [hn, Nat.zero_add])
  | syntactic e _ h =>
    obtain ⟨-, ts, hts, hn⟩ := h
    exact .syntactic _ hts (by rw [hn, Nat.zero_add])
  | lexical _ h hc he _ =>
    obtain ⟨-, ts, hts, hn⟩ := h
    exact .lexical hts (by rw [hn, Nat.zero_add]) hc he

namespace Parser

theorem Parallel.stops {p : Parser α} {P : Token.Kind → Prop}
    (hp : p.Parallel (fun _ => ()) w.After P p) (hP : P w.current.value.kind) :
    (p.run w).Stops w :=
  (hp ⟨rfl, [], .refl, rfl⟩ hP).stops

/-- An answer that asks to go on comes after at least one token was taken. -/
def Advances (p : Parser (Option σ)) : Prop :=
  ∀ w s, (p.run w).result = .ok (some s) → ∃ ts, ts ≠ [] ∧ w.Passes ts (p.run w).window

/-- What leaves less than there was has taken a token. -/
theorem Progresses.advances {p : Parser (Option σ)} (h : p.Progresses)
    (hp : ∀ w : Window, p.Parallel (fun _ => ()) w.After (fun _ => True) p) : p.Advances := by
  intro w s hs
  have hlt := h w s hs
  obtain ⟨ts, hpasses⟩ := ((hp w).stops trivial).exists_passes
  refine ⟨ts, ?_, hpasses⟩
  rintro rfl
  rw [hpasses.eq_of_nil] at hlt
  exact Nat.lt_irrefl _ hlt

theorem advances_round {continues : Token.Kind → Bool} {body : Parser Unit}
    (h : ∀ w, continues w.current.value.kind = true → body.Consumes w)
    (hbody : ∀ w k, continues k = true →
      body.Parallel (fun _ => ()) (Window.After w) (· = k) body) :
    (round continues body).Advances :=
  (progresses_round h).advances fun w => parallel_round Window.After.current (hbody w)

end Parser

namespace Grammar

theorem simulation_after (w : Window) : Simulation (fun _ => ()) w.After :=
  .of_advance Window.After.current fun _ hk => Window.After.advance hk

theorem advances_blankLine : (round (· = .newline) advance).Advances :=
  advances_round (fun _ h => consumes_advance (by simp_all)) fun _ _ hk =>
    Window.After.advance (by simp_all)

theorem advances_operation {isOperator : Token.Kind → Bool} {operand : Parser Unit}
    (heof : isOperator .eof = false) (hnewline : isOperator .newline = false)
    (hoperand : ∀ w : Window, operand.Parallel (fun _ => ()) w.After (fun _ => True) operand) :
    (round isOperator (do operator; operand)).Advances := by
  refine advances_round (fun w hw => ?_) fun w k hk => ?_
  · exact (consumes_operator fun h => by simp [h, heof] at hw).bind_left _
  · exact parallel_operation (simulation_after w) (fun h => by simp [h, heof] at hk)
      (fun h => by simp [h, hnewline] at hk) (hoperand w)

theorem advances_step (blocks : List Block) : (step blocks).Advances :=
  (progresses_step blocks).advances fun w => parallel_step (simulation_after w) blocks

end Grammar

/-! ### Scripts -/

/-- How many tokens a script asks for, beside the answers `items` of the lexer: two more than it
takes, none of which is the end of the text, or one for each answer if it comes to a lexical
error. -/
inductive Script.Asks (items : List Lexer.Item) : Script → Prop
  | accepted {as : List Action} {ts : List (Located Token)} {e : Located Token}
    (hi : items = ts.map .ok ++ [.ok e]) (hts : ∀ t ∈ ts, t.value.kind ≠ .eof)
    (hn : pulls as = ts.length + 2) : Asks items ⟨as, .ok ()⟩
  | rejected {as : List Action} {ts : List (Located Token)} {v : Window} {e : Located SyntaxError}
    (hi : items = ts.map .ok ++ v.items) (hts : ∀ t ∈ ts, t.value.kind ≠ .eof)
    (hn : pulls as = ts.length + 2) : Asks items ⟨as, .error (.syntactic e)⟩
  | refused {front : List Action} {ts : List (Located Token)} {e : Located LexicalError}
    (hi : items = ts.map .ok ++ [.error e]) (hts : ∀ t ∈ ts, t.value.kind ≠ .eof)
    (hn : pulls front = ts.length) : Asks items ⟨front ++ [.pull], .error (.lexical e)⟩

namespace Script

/-- What the grammar asks for after the first two tokens. -/
theorem asks_of_stops {o : Outcome Unit} (hw : w.Settled) (h : o.Stops w)
    (hok : o.result = .ok () → o.window.current.value.kind = .eof) :
    Asks w.items ⟨.pull :: .pull :: o.actions, o.result⟩ := by
  have hpulls (as : List Action) : pulls (.pull :: .pull :: as) = pulls as + 2 := by simp [isPull]
  cases h with
  | @ok as ts v _ h hn =>
    have hitems : w.items = ts.map .ok ++ [.ok v.current] := by
      rw [h.items_eq, Window.items_of_eof (hok rfl)]
    exact .accepted hitems h.ne_eof (by rw [hpulls, hn])
  | syntactic e h hn => exact .rejected h.items_eq h.ne_eof (by rw [hpulls, hn])
  | @lexical as ts v e h hn hc he =>
    -- the two tokens that are looked at have been asked for as well
    obtain ⟨hlast, ha⟩ := Window.items_of_advance?_eq_error (h.settled hw) hc he
    have hitems : w.items = (ts ++ [v.current, v.ahead]).map .ok ++ [.error e] := by
      simp [h.items_eq, hlast]
    have hne : ∀ t ∈ ts ++ [v.current, v.ahead], t.value.kind ≠ .eof :=
      List.forall_mem_append.2 ⟨h.ne_eof, by simp [hc, ha]⟩
    show Asks w.items ⟨(.pull :: .pull :: as) ++ [.pull], .error (.lexical e)⟩
    exact .refused hitems hne (by rw [hpulls, hn]; simp)

theorem asks_ofLexer (l : Lexer) : Asks l.items (ofLexer l) := by
  unfold ofLexer
  split
  · rename_i e l₁ he
    have hitems : l.items = [].map .ok ++ [.error e] := by
      rw [Lexer.items_eq, he]
      rfl
    show Asks l.items ⟨[] ++ [.pull], .error (.lexical e)⟩
    exact .refused hitems (by simp) rfl
  · rename_i c l₁ hc
    split
    · rename_i e l₂ he
      -- after the end of the text the lexer would give it once more
      have hk : c.value.kind ≠ .eof := fun hk => by
        have hrest := Lexer.next_rest_of_eof (l := l) (t := c) (by rw [hc]) hk
        rw [hc] at hrest
        rw [Lexer.next_of_rest_eq_nil hrest] at he
        cases he
      have hitems : l.items = [c].map .ok ++ [.error e] := by
        rw [Window.items_of_next hc, if_neg hk, Lexer.items_eq, he]
        rfl
      show Asks l.items ⟨[.pull] ++ [.pull], .error (.lexical e)⟩
      exact .refused hitems (by simpa using hk) rfl
    · rename_i a l₂ ha
      obtain ⟨hw, hitems⟩ := items_window hc ha
      rw [← hitems]
      have hprogram := parallel_program (R := (⟨l₂, c, a⟩ : Window).After) Window.After.current
        fun _ hk => Window.After.advance hk
      refine asks_of_stops hw (hprogram.stops trivial) fun hok => ?_
      obtain ⟨p, w', hp, heof⟩ := Grammar.takes_program_of_ok hw hok
      rwa [hp.run_eq]

/-- The tokens that a script takes, with something left after them. -/
theorem Asks.exists_taken {x : Script} (h : x.Asks items) :
    ∃ (ts : List (Located Token)) (rest : List Lexer.Item), items = ts.map .ok ++ rest ∧
      rest ≠ [] ∧ (∀ t ∈ ts, t.value.kind ≠ .eof) ∧ pulls x.actions ≤ ts.length + 2 := by
  cases h with
  | accepted hi hts hn => exact ⟨_, _, hi, by simp, hts, hn.le⟩
  | rejected hi hts hn => exact ⟨_, _, hi, Window.items_ne_nil _, hts, hn.le⟩
  | refused hi hts hn => exact ⟨_, _, hi, by simp, hts, by simp [isPull, hn]⟩

theorem Asks.pulls_le {x : Script} (h : x.Asks items) : pulls x.actions ≤ items.length + 1 := by
  obtain ⟨ts, rest, rfl, hrest, -, hle⟩ := h.exists_taken
  have hpos := List.length_pos_iff.2 hrest
  simp only [List.length_append, List.length_map]
  omega

theorem Asks.pulls_of_ok {x : Script} (h : x.Asks items) (hx : x.ending = .ok ()) :
    pulls x.actions = items.length + 1 := by
  cases h with
  | accepted hi _ hn => simp [hi, hn]
  | rejected => cases hx
  | refused => cases hx

theorem Asks.pulls_of_lexical {x : Script} {e : Located LexicalError} (h : x.Asks items)
    (hx : x.ending = .error (.lexical e)) : pulls x.actions = items.length := by
  cases h with
  | accepted => cases hx
  | rejected => cases hx
  | refused hi _ hn => simp [hi, hn, isPull]

/-- A text that is read to its end has no lexical error. -/
theorem Asks.items_of_ok {x : Script} (h : x.Asks items) (hx : x.ending = .ok ()) :
    ∃ ts : List (Located Token), items = ts.map .ok := by
  cases h with
  | @accepted as ts e hi => exact ⟨ts ++ [e], by rw [hi, List.map_append]; rfl⟩
  | rejected => cases hx
  | refused => cases hx

theorem Asks.items_of_lexical {x : Script} {e : Located LexicalError} (h : x.Asks items)
    (hx : x.ending = .error (.lexical e)) :
    ∃ ts : List (Located Token), items = ts.map .ok ++ [.error e] := by
  cases h with
  | accepted => cases hx
  | rejected => cases hx
  | refused hi =>
    obtain rfl := Failure.lexical.inj (Except.error.inj hx)
    exact ⟨_, hi⟩

theorem Asks.ending_ne_semantic {x : Script} (h : x.Asks items) (e : Located ScopeError) :
    x.ending ≠ .error (.semantic e) := by
  cases h <;> simp

/-- **After the first two, a token is asked for only in place of one that is not the end of the
text.** -/
theorem Asks.exists_current {x : Script} (h : x.Asks items) {front back : List Action}
    (hx : x.actions = front ++ .pull :: back) (hfront : 2 ≤ pulls front) :
    ∃ t : Located Token, items[pulls front - 2]? = some (.ok t) ∧ t.value.kind ≠ .eof := by
  obtain ⟨ts, rest, rfl, -, hts, hle⟩ := h.exists_taken
  have hlt : pulls front - 2 < ts.length := by
    simp only [hx, pulls_append, pulls_cons, isPull, if_true] at hle
    omega
  refine ⟨ts[pulls front - 2], ?_, hts _ (List.getElem_mem hlt)⟩
  rw [List.getElem?_append_left (by simpa using hlt)]
  simp [hlt]

/-! ### Before a lexical error -/

variable {us : List (Located Token)} {e : Located LexicalError}

/-- A text with a lexical error is not read to its end. -/
theorem Asks.ending_ne_ok {x : Script} (h : x.Asks (us.map .ok ++ [.error e])) :
    x.ending ≠ .ok () := by
  intro hx
  obtain ⟨ts, hi⟩ := h.items_of_ok hx
  have hmem : .error e ∈ ts.map (Except.ok (ε := Located LexicalError)) := by simp [← hi]
  simp at hmem

theorem Asks.eq_of_lexical {x : Script} {e' : Located LexicalError}
    (h : x.Asks (us.map .ok ++ [.error e])) (hx : x.ending = .error (.lexical e')) : e' = e := by
  obtain ⟨ts, hi⟩ := h.items_of_lexical hx
  have hlast := congrArg List.getLast? hi
  simp only [List.getLast?_concat, Option.some.injEq, Except.error.injEq] at hlast
  exact hlast.symm

/-- A syntax error in front of a lexical error is raised at a token that another one stands between
it and the lexical error. -/
theorem Asks.exists_of_syntactic {x : Script} {e' : Located SyntaxError}
    (h : x.Asks (us.map .ok ++ [.error e])) (hx : x.ending = .error (.syntactic e')) :
    ∃ j, pulls x.actions = j + 2 ∧ j + 2 ≤ us.length := by
  cases h with
  | accepted => cases hx
  | refused => cases hx
  | @rejected as ts v e' hi _ hn =>
    refine ⟨ts.length, hn, ?_⟩
    have hlast : v.items.getLast? = some (.error e) := by
      have h := congrArg List.getLast? hi
      rw [List.getLast?_concat, List.getLast?_append_of_ne_nil _ (Window.items_ne_nil v)] at h
      exact h.symm
    have hlength := congrArg List.length hi
    have hlt := Window.two_lt_length_items hlast
    simp only [List.length_append, List.length_map, List.length_singleton] at hlength
    omega

/-- Before an action in front of a lexical error that asks for something else than a token, no more
tokens are asked for than there are. -/
theorem Asks.pulls_le_of_error {x : Script} (h : x.Asks (us.map .ok ++ [.error e]))
    {front back : List Action} {a : Action} (hx : x.actions = front ++ a :: back)
    (ha : a.isPull = false) : pulls front ≤ us.length := by
  have htotal : pulls x.actions = pulls front + pulls back := by simp [hx, ha]
  cases h with
  | accepted hi hts hn => exact absurd rfl (ending_ne_ok (.accepted hi hts hn))
  | rejected hi hts hn =>
    obtain ⟨j, hj, hle⟩ := exists_of_syntactic (.rejected hi hts hn) rfl
    exact (Nat.le_of_add_right_le htotal.ge).trans (hj.trans_le hle)
  | @refused front' ts e' hi _ hn =>
    have hlength := congrArg List.length hi
    simp only [List.length_append, List.length_map, List.length_singleton] at hlength
    -- the last token is asked for after the action
    obtain rfl | ⟨back, b, rfl⟩ := List.eq_nil_or_concat' back
    · obtain ⟨-, h⟩ := List.append_inj' hx rfl
      obtain rfl := (List.cons.inj h).1
      cases ha
    · rw [← List.cons_append, ← List.append_assoc] at hx
      obtain ⟨hfront, -⟩ := List.append_inj' hx rfl
      rw [hfront, pulls_append] at hn
      omega

end Script

end TinyBasic
