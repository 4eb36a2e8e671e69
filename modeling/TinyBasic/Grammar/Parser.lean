import TinyBasic.Action
import TinyBasic.Failure

/-!
# Parsers

A `Parser` reads tokens through a `Window`: the current token, the token ahead of it, and the
lexer that gives the ones after.  What it answers with (`Outcome`) is a value or a failure, the
window after it, and the actions it asks for, in order, those before a failure included.  A parser
does not carry its actions out, so what it asks for depends on the tokens alone.

* `Parser.advance` is the only parser that asks the lexer for a token.  A lexical error is thus
  met one token before the faulty lexeme would become current.
* Every parser leaves at most as much as it found: this is the field `Parser.run_remaining_le`.
* `Parser.loop` repeats a step for as long as it asks to go on.  A step must leave less whenever it
  does (`Parser.Progresses`), so the repetition ends.  `Parser.Consumes` says that a parser leaves
  less whenever it succeeds; taking a token other than `eof` does (`Parser.consumes_advance`).
-/

namespace TinyBasic

/-- The two tokens that are looked at, and the lexer that stands after them. -/
structure Window where
  /-- Gives the tokens after the two. -/
  lexer : Lexer
  /-- The token to be recognised next. -/
  current : Located Token
  /-- The token after it. -/
  ahead : Located Token

namespace Window

/-- `1` for a token, `0` for the end of the text. -/
def weight (t : Located Token) : Nat := if t.value.kind = .eof then 0 else 1

/-- What is still to be read: the characters that the lexer has left, and the two tokens. -/
def remaining (w : Window) : Nat := w.lexer.rest.length + weight w.ahead + weight w.current

/-- The window one token further on, unless the lexer cannot read one. -/
def advance? (w : Window) : Except (Located LexicalError) Window :=
  match w.lexer.next with
  | (.ok t, lexer) => .ok ⟨lexer, w.ahead, t⟩
  | (.error e, _) => .error e

theorem remaining_of_advance? {w w' : Window} (h : w.advance? = .ok w') :
    w'.remaining + weight w.current ≤ w.remaining := by
  unfold advance? at h
  cases hn : w.lexer.next with
  | mk item lexer =>
    cases item with
    | error e => simp [hn] at h
    | ok t =>
      simp only [hn, Except.ok.injEq] at h
      subst h
      have hle := Lexer.next_rest_length_le w.lexer
      have hlt := @Lexer.next_rest_length_lt w.lexer t (by rw [hn])
      rw [hn] at hle hlt
      simp only [remaining]
      by_cases ht : t.value.kind = .eof
      · simp only [weight, ht] at hle ⊢
        simp only [if_true]
        omega
      · have := hlt ht
        simp only [weight, ht, if_false] at this ⊢
        omega

end Window

/-- What a parser answers with. -/
structure Outcome (α : Type) where
  /-- The actions asked for, in order. -/
  actions : List Action
  /-- The value, or why there is none. -/
  result : Except Failure α
  /-- The window after the tokens that were taken. -/
  window : Window

/-- Goes on with `f` after an outcome, if that is a value. -/
def Outcome.andThen {α β : Type} (o : Outcome α) (f : α → Window → Outcome β) : Outcome β :=
  match o.result with
  | .ok a =>
    let o' := f a o.window
    ⟨o.actions ++ o'.actions, o'.result, o'.window⟩
  | .error e => ⟨o.actions, .error e, o.window⟩

/-- A function of the tokens in front of it that takes some of them. -/
structure Parser (α : Type) where
  /-- Reads from a window. -/
  run : Window → Outcome α
  /-- No token is put back. -/
  run_remaining_le : ∀ w, (run w).window.remaining ≤ w.remaining

namespace Parser

variable {α β γ σ : Type}

@[ext] theorem ext {p q : Parser α} (h : ∀ w, p.run w = q.run w) : p = q := by
  obtain ⟨f, _⟩ := p
  obtain ⟨g, _⟩ := q
  obtain rfl : f = g := funext h
  rfl

/-! ### Sequences -/

instance : Monad Parser where
  pure a := ⟨fun w => ⟨[], .ok a, w⟩, fun _ => Nat.le_refl _⟩
  bind p f :=
    { run := fun w => (p.run w).andThen fun a => (f a).run
      run_remaining_le := fun w => by
        unfold Outcome.andThen
        split
        · exact Nat.le_trans ((f _).run_remaining_le _) (p.run_remaining_le w)
        · exact p.run_remaining_le w }

@[simp] theorem run_pure (a : α) (w : Window) : (pure a : Parser α).run w = ⟨[], .ok a, w⟩ := rfl

theorem run_bind (p : Parser α) (f : α → Parser β) (w : Window) :
    (p >>= f).run w = (p.run w).andThen fun a => (f a).run := rfl

theorem run_bind_of_ok {p : Parser α} {f : α → Parser β} {w : Window} {a : α}
    (h : (p.run w).result = .ok a) :
    (p >>= f).run w =
      ⟨(p.run w).actions ++ ((f a).run (p.run w).window).actions,
        ((f a).run (p.run w).window).result, ((f a).run (p.run w).window).window⟩ := by
  simp [run_bind, Outcome.andThen, h]

theorem run_bind_of_error {p : Parser α} {f : α → Parser β} {w : Window} {e : Failure}
    (h : (p.run w).result = .error e) :
    (p >>= f).run w = ⟨(p.run w).actions, .error e, (p.run w).window⟩ := by
  simp [run_bind, Outcome.andThen, h]

instance : LawfulMonad Parser :=
  LawfulMonad.mk' Parser
    (fun p => ext fun w => by
      change (p.run w).andThen (fun a w => ⟨[], .ok a, w⟩) = p.run w
      obtain ⟨as, r, w'⟩ := p.run w
      cases r <;> simp [Outcome.andThen])
    (fun a f => ext fun w => by simp [run_bind, Outcome.andThen])
    (fun p f g => ext fun w => by
      simp only [run_bind]
      obtain ⟨as, r, w'⟩ := p.run w
      cases r with
      | error e => rfl
      | ok a =>
        simp only [Outcome.andThen, run_bind]
        obtain ⟨bs, r', w''⟩ := (f a).run w'
        cases r' <;> simp)

/-! ### Single steps -/

/-- Asks for an action. -/
def perform (a : Action) : Parser Unit := ⟨fun w => ⟨[a], .ok (), w⟩, fun _ => Nat.le_refl _⟩

/-- The current token, which stays where it is. -/
def current : Parser (Located Token) := ⟨fun w => ⟨[], .ok w.current, w⟩, fun _ => Nat.le_refl _⟩

/-- Fails at the current token. -/
def fail (e : SyntaxError) : Parser α :=
  ⟨fun w => ⟨[], .error (.syntactic ⟨e, w.current.location⟩), w⟩, fun _ => Nat.le_refl _⟩

/-- Takes the current token: the one ahead becomes current, and the lexer is asked for another. -/
def advance : Parser Unit where
  run w :=
    match w.advance? with
    | .ok w' => ⟨[.pull], .ok (), w'⟩
    | .error e => ⟨[.pull], .error (.lexical e), w⟩
  run_remaining_le w := by
    cases h : w.advance? with
    | ok w' => exact Nat.le_of_add_right_le (Window.remaining_of_advance? h)
    | error e => exact Nat.le_refl _

@[simp] theorem run_perform (a : Action) (w : Window) : (perform a).run w = ⟨[a], .ok (), w⟩ := rfl

@[simp] theorem run_current (w : Window) : current.run w = ⟨[], .ok w.current, w⟩ := rfl

@[simp] theorem run_fail (e : SyntaxError) (w : Window) :
    (fail e : Parser α).run w = ⟨[], .error (.syntactic ⟨e, w.current.location⟩), w⟩ := rfl

theorem run_advance_of_ok {w w' : Window} (h : w.advance? = .ok w') :
    advance.run w = ⟨[.pull], .ok (), w'⟩ := by
  simp [advance, h]

theorem run_advance_of_error {w : Window} {e : Located LexicalError}
    (h : w.advance? = .error e) : advance.run w = ⟨[.pull], .error (.lexical e), w⟩ := by
  simp [advance, h]

/-- Takes the current token, which has to be of the given kind. -/
def expect (kind : Token.Kind) : Parser Unit := do
  let t ← current
  if t.value.kind = kind then advance else fail (.expected kind t.value.kind)

/-- Takes a name. -/
def ident : Parser Name := do
  let t ← current
  expect .ident
  return t.map Token.text

/-! ### What leaves less than it found -/

/-- A success leaves less than there was in the window. -/
def Consumes (p : Parser α) (w : Window) : Prop :=
  ∀ a, (p.run w).result = .ok a → (p.run w).window.remaining < w.remaining

theorem consumes_advance {w : Window} (h : w.current.value.kind ≠ .eof) : advance.Consumes w := by
  intro a ha
  cases hw : w.advance? with
  | error e => simp [run_advance_of_error hw] at ha
  | ok w' =>
    have := Window.remaining_of_advance? hw
    simp only [Window.weight, h, if_false] at this
    simp only [run_advance_of_ok hw]
    omega

theorem consumes_fail (e : SyntaxError) (w : Window) : (fail e : Parser α).Consumes w := by
  intro a ha
  simp at ha

theorem Consumes.bind_left {p : Parser α} {w : Window} (h : p.Consumes w) (f : α → Parser β) :
    (p >>= f).Consumes w := by
  intro b hb
  cases hp : (p.run w).result with
  | error e => simp [run_bind_of_error hp] at hb
  | ok a =>
    rw [run_bind_of_ok hp]
    exact Nat.lt_of_le_of_lt ((f a).run_remaining_le _) (h a hp)

theorem Consumes.bind_right {p : Parser α} {w : Window} {f : α → Parser β}
    (h : ∀ a, (p.run w).result = .ok a → (f a).Consumes (p.run w).window) :
    (p >>= f).Consumes w := by
  intro b hb
  cases hp : (p.run w).result with
  | error e => simp [run_bind_of_error hp] at hb
  | ok a =>
    rw [run_bind_of_ok hp] at hb ⊢
    exact Nat.lt_of_lt_of_le (h a hp b hb) (p.run_remaining_le w)

theorem Consumes.perform_bind {a : Action} {w : Window} {f : Unit → Parser β}
    (h : (f ()).Consumes w) : (perform a >>= f).Consumes w :=
  .bind_right fun _ _ => h

theorem Consumes.current_bind {w : Window} {f : Located Token → Parser β}
    (h : (f w.current).Consumes w) : (current >>= f).Consumes w :=
  .bind_right fun t ht => by
    obtain rfl : w.current = t := Except.ok.inj ht
    exact h

/-! ### Repetition -/

/-- An answer that asks to go on leaves less than there was. -/
def Progresses (p : Parser (Option σ)) : Prop :=
  ∀ w s, (p.run w).result = .ok (some s) → (p.run w).window.remaining < w.remaining

/-- The outcome of repeating a step: it goes on with `some` and ends with `none`. -/
def runLoop (step : σ → Parser (Option σ)) (h : ∀ s, (step s).Progresses) (s : σ) (w : Window) :
    Outcome Unit :=
  let o := (step s).run w
  match _hr : o.result with
  | .ok (some s') =>
    let o' := runLoop step h s' o.window
    ⟨o.actions ++ o'.actions, o'.result, o'.window⟩
  | .ok none => ⟨o.actions, .ok (), o.window⟩
  | .error e => ⟨o.actions, .error e, o.window⟩
termination_by w.remaining
decreasing_by exact h s w s' _hr

theorem runLoop_eq (step : σ → Parser (Option σ)) (h : ∀ s, (step s).Progresses) (s : σ)
    (w : Window) :
    runLoop step h s w =
      ((step s).run w).andThen fun
        | some s' => runLoop step h s'
        | none => fun w => ⟨[], .ok (), w⟩ := by
  rw [runLoop]
  unfold Outcome.andThen
  split <;> rename_i heq <;> simp [heq]

theorem runLoop_remaining_le (step : σ → Parser (Option σ)) (h : ∀ s, (step s).Progresses) (s : σ)
    (w : Window) : (runLoop step h s w).window.remaining ≤ w.remaining := by
  rw [runLoop_eq]
  have hle := (step s).run_remaining_le w
  unfold Outcome.andThen
  split
  · rename_i a ha
    cases a with
    | none => exact hle
    | some s' => exact Nat.le_trans (runLoop_remaining_le step h s' _) hle
  · exact hle
termination_by w.remaining
decreasing_by exact h s w s' ha

/-- Repeats a step for as long as it asks to go on. -/
def loop (step : σ → Parser (Option σ)) (h : ∀ s, (step s).Progresses) (s : σ) : Parser Unit :=
  ⟨runLoop step h s, runLoop_remaining_le step h s⟩

/-- **A repetition is one step and, if that asks to go on, the rest of the repetition.** -/
theorem loop_eq (step : σ → Parser (Option σ)) (h : ∀ s, (step s).Progresses) (s : σ) :
    loop step h s = step s >>= fun
      | some s' => loop step h s'
      | none => pure () := by
  apply ext
  intro w
  rw [run_bind]
  change runLoop step h s w = _
  rw [runLoop_eq]
  congr 1
  funext a
  cases a <;> rfl

/-- One round of `body` if the kind of the current token `continues`, and else the end. -/
def round (continues : Token.Kind → Bool) (body : Parser Unit) : Parser (Option Unit) := do
  let t ← current
  if continues t.value.kind then
    body
    pure (some ())
  else
    pure none

theorem progresses_round {continues : Token.Kind → Bool} {body : Parser Unit}
    (h : ∀ w, continues w.current.value.kind = true → body.Consumes w) :
    (round continues body).Progresses := by
  intro w s hs
  by_cases hc : continues w.current.value.kind = true
  · have : (round continues body).Consumes w :=
      .current_bind (by rw [if_pos hc]; exact (h w hc).bind_left _)
    exact this _ hs
  · simp [round, run_bind, Outcome.andThen, hc] at hs

/-- Takes rounds of `body` for as long as the kind of the current token `continues`. -/
def many (continues : Token.Kind → Bool) (body : Parser Unit)
    (h : ∀ w, continues w.current.value.kind = true → body.Consumes w) : Parser Unit :=
  loop (fun _ => round continues body) (fun _ => progresses_round h) ()

end Parser

end TinyBasic
