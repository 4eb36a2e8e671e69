import TinyBasic.Proofs.Grammar.Statements

/-!
# Two runs of the grammar side by side

What the grammar does depends on its tokens and not on where they stand.  To say so, two runs are
followed at once, under a relation `R n v w` between their windows, where `n` counts the tokens that
the first run has asked for.  A `Simulation` is a relation under which the current tokens are alike
and which is kept when both runs take a token, or the end of a line.  Under it the two runs ask for
actions that are alike (`Action.AllAlike`) and answer with the same, until the first run meets a
lexical error, if it does (`Outcome.Related`).

`Parser.Parallel` carries this over to parsers.  It is kept by sequences (`Parser.Parallel.bind`)
and repetitions (`Parser.parallel_loop`), and so it holds of every parser of the grammar
(`Grammar.parallel_statements`).  A relation that is kept whenever both runs take any token but the
end of the text is a simulation (`Simulation.of_advance`), and under it whole programs are parallel
(`Grammar.parallel_program`).
-/

namespace TinyBasic

variable {κ α β σ : Type} {key : Location → κ}

/-! ### Alike but for their places -/

/-- The same value, at places of which `key` is the same. -/
structure Located.Alike (key : Location → κ) (x y : Located α) : Prop where
  value : x.value = y.value
  place : key x.location = key y.location

theorem Located.Alike.map {x y : Located α} (h : x.Alike key y) (f : α → β) :
    (x.map f).Alike key (y.map f) :=
  ⟨congrArg f h.value, h.place⟩

namespace Action

/-- The same action, of names that are alike. -/
inductive Alike (key : Location → κ) : Action → Action → Prop
  | same (a : Action) : Alike key a a
  | introduce {m n : Name} (h : m.Alike key n) : Alike key (.introduce m) (.introduce n)
  | read {m n : Name} (h : m.Alike key n) : Alike key (.read m) (.read n)
  | declare {m n : Name} (h : m.Alike key n) : Alike key (.declare m) (.declare n)
  | jump {m n : Name} (h : m.Alike key n) : Alike key (.jump m) (.jump n)

/-- The same actions in the same order, but for the tokens that are asked for. -/
inductive AllAlike (key : Location → κ) : List Action → List Action → Prop
  | nil : AllAlike key [] []
  | cons {a b : Action} {as bs : List Action} (h : a.Alike key b) (hs : AllAlike key as bs) :
    AllAlike key (a :: as) (b :: bs)
  | pull_left {as bs : List Action} (hs : AllAlike key as bs) : AllAlike key (.pull :: as) bs
  | pull_right {as bs : List Action} (hs : AllAlike key as bs) : AllAlike key as (.pull :: bs)

variable {as as' bs bs' : List Action}

theorem AllAlike.append (h : AllAlike key as bs) (h' : AllAlike key as' bs') :
    AllAlike key (as ++ as') (bs ++ bs') := by
  induction h with
  | nil => exact h'
  | cons h _ ih => exact .cons h ih
  | pull_left _ ih => exact .pull_left ih
  | pull_right _ ih => exact .pull_right ih

theorem AllAlike.pull (h : AllAlike key as bs) : AllAlike key (.pull :: as) (.pull :: bs) :=
  .cons (.same _) h

theorem AllAlike.single {a b : Action} (h : a.Alike key b) : AllAlike key [a] [b] := .cons h .nil

/-- Whether an action asks for a token. -/
def isPull : Action → Bool
  | .pull => true
  | _ => false

/-- The number of tokens that are asked for. -/
def pulls (as : List Action) : ℕ := as.countP isPull

@[simp] theorem pulls_nil : pulls [] = 0 := rfl

@[simp] theorem pulls_cons (a : Action) (as : List Action) :
    pulls (a :: as) = pulls as + if a.isPull then 1 else 0 :=
  List.countP_cons

@[simp] theorem pulls_append (as bs : List Action) : pulls (as ++ bs) = pulls as + pulls bs :=
  List.countP_append

end Action

open TinyBasic.Action

/-! ### Outcomes -/

variable {R : ℕ → Window → Window → Prop} {n : ℕ} {v w v' w' : Window} {P : Token.Kind → Prop}
  {p q : Parser α} {f g : α → Parser β}

/-- What two runs answer with, of which the first one had asked for `n` tokens before.  A lexical
error of the first run is met in place of the token that it asks for, and then nothing is said of
the second run after that. -/
inductive Outcome.Related (key : Location → κ) (R : ℕ → Window → Window → Prop) (n : ℕ) :
    Outcome α → Outcome α → Prop
  | ok {as bs : List Action} {v w : Window} (a : α) (hs : AllAlike key as bs)
    (h : R (n + pulls as) v w) : Related key R n ⟨as, .ok a, v⟩ ⟨bs, .ok a, w⟩
  | syntactic {as bs : List Action} {v w : Window} (e : SyntaxError) (hs : AllAlike key as bs)
    (h : R (n + pulls as) v w) :
    Related key R n ⟨as, .error (.syntactic ⟨e, v.current.location⟩), v⟩
      ⟨bs, .error (.syntactic ⟨e, w.current.location⟩), w⟩
  | lexical {as bs cs : List Action} {v w : Window} {e : Located LexicalError} {o : Outcome α}
    (hs : AllAlike key as bs) (h : R (n + pulls as) v w) (hc : v.current.value.kind ≠ .eof)
    (he : v.advance? = .error e) (ho : o.actions = bs ++ .pull :: cs) :
    Related key R n ⟨as ++ [.pull], .error (.lexical e), v⟩ o

namespace Outcome

/-- Outcomes after actions that are alike. -/
theorem Related.prepend {as bs : List Action} {o o' : Outcome α} (hs : AllAlike key as bs)
    (h : o.Related key R (n + pulls as) o') :
    Related key R n ⟨as ++ o.actions, o.result, o.window⟩
      ⟨bs ++ o'.actions, o'.result, o'.window⟩ := by
  cases h with
  | ok a hs' h => exact .ok a (hs.append hs') (by rwa [pulls_append, ← Nat.add_assoc])
  | syntactic e hs' h => exact .syntactic e (hs.append hs') (by rwa [pulls_append, ← Nat.add_assoc])
  | @lexical as' bs' cs v w e o hs' h hc he ho =>
    have hactions : bs ++ o'.actions = (bs ++ bs') ++ .pull :: cs := by simp [ho]
    have hall : Related key R n ⟨(as ++ as') ++ [.pull], .error (.lexical e), v⟩
        ⟨bs ++ o'.actions, o'.result, o'.window⟩ :=
      .lexical (hs.append hs') (by rwa [pulls_append, ← Nat.add_assoc]) hc he hactions
    rwa [List.append_assoc] at hall

theorem Related.andThen {o o' : Outcome α} {f g : α → Window → Outcome β}
    (h : o.Related key R n o')
    (hf : ∀ a w, o.result = .ok a → R (n + pulls o.actions) o.window w →
      (f a o.window).Related key R (n + pulls o.actions) (g a w)) :
    (o.andThen f).Related key R n (o'.andThen g) := by
  cases h with
  | ok a hs h => exact (hf a _ rfl h).prepend hs
  | syntactic e hs h => exact .syntactic e hs h
  | @lexical as bs cs v w e o hs h hc he ho =>
    have hmore : ∃ ds, (o'.andThen g).actions = o'.actions ++ ds := by
      unfold Outcome.andThen
      split
      · exact ⟨_, rfl⟩
      · exact ⟨[], (List.append_nil _).symm⟩
    obtain ⟨ds, hds⟩ := hmore
    have hactions : (o'.andThen g).actions = bs ++ .pull :: (cs ++ ds) := by simp [hds, ho]
    exact .lexical hs h hc he hactions

end Outcome

/-! ### Parsers -/

namespace Parser

/-- In front of windows that `R` relates, with a current token of a kind that satisfies `P`, the two
parsers answer with the same. -/
def Parallel (key : Location → κ) (R : ℕ → Window → Window → Prop) (P : Token.Kind → Prop)
    (p q : Parser α) : Prop :=
  ∀ ⦃n v w⦄, R n v w → P v.current.value.kind → (p.run v).Related key R n (q.run w)

theorem related_advance (hv : v.advance? = .ok v') (hw : w.advance? = .ok w')
    (h : R (n + 1) v' w') : (advance.run v).Related key R n (advance.run w) := by
  rw [run_advance_of_ok hv, run_advance_of_ok hw]
  exact .ok () (.single (.same _)) h

theorem related_advance_of_error {e : Located LexicalError} (h : R n v w)
    (hc : v.current.value.kind ≠ .eof) (he : v.advance? = .error e) :
    (advance.run v).Related key R n (advance.run w) := by
  have hactions : (advance.run w).actions = [] ++ .pull :: [] := by
    cases hw : w.advance? with
    | ok w' => rw [run_advance_of_ok hw]; rfl
    | error e' => rw [run_advance_of_error hw]; rfl
  rw [run_advance_of_error he]
  exact .lexical .nil h hc he hactions

theorem parallel_pure (a : α) : (pure a : Parser α).Parallel key R P (pure a) :=
  fun _ _ _ h _ => .ok a .nil h

theorem Parallel.bind (hp : p.Parallel key R P q)
    (hf : ∀ a, (f a).Parallel key R (fun _ => True) (g a)) :
    (p >>= f).Parallel key R P (q >>= g) := by
  intro n v w h hP
  rw [run_bind, run_bind]
  exact (hp h hP).andThen fun a w' _ h' => hf a h' trivial

theorem Parallel.andThen {p' q' : Parser β} (hp : p.Parallel key R P q)
    (hp' : p'.Parallel key R (fun _ => True) q') :
    (p >>= fun _ => p').Parallel key R P (q >>= fun _ => q') :=
  hp.bind fun _ => hp'

/-- Asking for an action leaves the window as it is. -/
theorem Parallel.after_perform {a b : Action} (ha : a.Alike key b) (hpull : a.isPull = false)
    (hp : p.Parallel key R P q) :
    (perform a >>= fun _ => p).Parallel key R P (perform b >>= fun _ => q) := by
  intro n v w h hP
  have hn : n + pulls [a] = n := by simp [hpull]
  have hrun : (p.run v).Related key R (n + pulls [a]) (q.run w) := by
    rw [hn]
    exact hp h hP
  exact hrun.prepend (.single ha)

theorem parallel_perform {a b : Action} (ha : a.Alike key b) (hpull : a.isPull = false) :
    (perform a).Parallel key R P (perform b) := by
  have h := Parallel.after_perform (P := P) (R := R) ha hpull (parallel_pure ())
  simpa using h

/-- **A repetition is parallel when its steps are.** -/
theorem parallel_loop {step step' : σ → Parser (Option σ)} {hs : ∀ s, (step s).Progresses}
    {hs' : ∀ s, (step' s).Progresses}
    (h : ∀ s, (step s).Parallel key R (fun _ => True) (step' s)) (s : σ) :
    (loop step hs s).Parallel key R (fun _ => True) (loop step' hs' s) := by
  -- by induction on what the first run has left to read, which every step but the last makes less
  intro n v w hR _
  induction hn : v.remaining using Nat.strong_induction_on generalizing n v w s with
  | _ m ih =>
    subst hn
    rw [loop_eq, loop_eq, run_bind, run_bind]
    refine (h s hR trivial).andThen fun a w' ha hR' => ?_
    cases a with
    | none => exact parallel_pure (P := fun _ => True) () hR' trivial
    | some s' => exact ih _ (hs s v s' ha) s' hR' rfl

theorem parallel_fail (e : SyntaxError) : (fail e : Parser α).Parallel key R P (fail e) :=
  fun _ _ _ h _ => .syntactic e .nil h

/-- **The current tokens are alike**, so what comes after looking at them need be parallel only for
tokens that are alike. -/
theorem parallel_current (hcurrent : ∀ ⦃n v w⦄, R n v w → v.current.Alike key w.current)
    {f g : Located Token → Parser β}
    (hf : ∀ (t : Token) (l m : Location), key l = key m → P t.kind →
      (f ⟨t, l⟩).Parallel key R (· = t.kind) (g ⟨t, m⟩)) :
    (current >>= f).Parallel key R P (current >>= g) := by
  intro n v w h hP
  have hc := hcurrent h
  have hw : w.current = ⟨v.current.value, w.current.location⟩ := by rw [hc.value]
  have hrun := hf v.current.value v.current.location w.current.location hc.place hP h rfl
  rw [← hw] at hrun
  exact hrun

theorem parallel_expect (hcurrent : ∀ ⦃n v w⦄, R n v w → v.current.Alike key w.current)
    {k : Token.Kind} (hk : advance.Parallel key R (· = k) advance) :
    (expect k).Parallel key R P (expect k) := by
  refine parallel_current hcurrent fun t l m _ _ => ?_
  dsimp only
  split
  · rename_i h
    exact h ▸ hk
  · exact parallel_fail _

theorem parallel_round (hcurrent : ∀ ⦃n v w⦄, R n v w → v.current.Alike key w.current)
    {continues : Token.Kind → Bool} {body : Parser Unit}
    (hbody : ∀ k, continues k = true → body.Parallel key R (· = k) body) :
    (round continues body).Parallel key R P (round continues body) := by
  refine parallel_current hcurrent fun t l m _ _ => ?_
  dsimp only
  split
  · rename_i hc
    exact (hbody _ hc).andThen (parallel_pure _)
  · exact parallel_pure _

theorem parallel_many (hcurrent : ∀ ⦃n v w⦄, R n v w → v.current.Alike key w.current)
    {continues : Token.Kind → Bool} {body : Parser Unit}
    {h : ∀ w : Window, continues w.current.value.kind = true → body.Consumes w}
    (hbody : ∀ k, continues k = true → body.Parallel key R (· = k) body) :
    (many continues body h).Parallel key R (fun _ => True) (many continues body h) :=
  parallel_loop (fun _ => parallel_round hcurrent hbody) ()

end Parser

/-! ### The grammar -/

open TinyBasic.Parser TinyBasic.Grammar

/-- A relation between windows under which the current tokens are alike, and which is kept when both
runs take a token, or the end of a line. -/
structure Simulation (key : Location → κ) (R : ℕ → Window → Window → Prop) : Prop where
  current : ∀ ⦃n v w⦄, R n v w → v.current.Alike key w.current
  advance : ∀ k, k ≠ .eof → k ≠ .newline → advance.Parallel key R (· = k) advance
  lineEnd : lineEnd.Parallel key R (fun _ => True) lineEnd

theorem parallel_blankLines (hcurrent : ∀ ⦃n v w⦄, R n v w → v.current.Alike key w.current)
    (hadvance : ∀ k, k ≠ .eof → advance.Parallel key R (· = k) advance) :
    blankLines.Parallel key R (fun _ => True) blankLines := by
  refine parallel_many hcurrent fun k hk => hadvance k ?_
  rintro rfl
  simp at hk

/-- **A relation that is kept whenever both runs take a token** but the end of the text is a
simulation. -/
theorem Simulation.of_advance (hcurrent : ∀ ⦃n v w⦄, R n v w → v.current.Alike key w.current)
    (hadvance : ∀ k, k ≠ .eof → Parser.advance.Parallel key R (· = k) Parser.advance) :
    Simulation key R where
  current := hcurrent
  advance := fun k hk _ => hadvance k hk
  lineEnd := Parallel.after_perform (.same _) rfl <|
    (Parser.parallel_expect hcurrent (hadvance .newline (by simp))).andThen
      (parallel_blankLines hcurrent hadvance)

namespace Grammar

/-- The rest of a program after the blank lines in front. -/
def statements : Parser Unit := do
  loop step progresses_step []
  perform (.writeLine "return 0;")
  perform (.writeLine "\x7d")

variable (hR : Simulation key R)
include hR

theorem parallel_expect {k : Token.Kind} (hk : k ≠ .eof) (hk' : k ≠ .newline) :
    (expect k).Parallel key R P (expect k) :=
  Parser.parallel_expect hR.current (hR.advance k hk hk')

theorem parallel_ident {f g : Name → Parser β}
    (hf : ∀ m n : Name, m.Alike key n → (f m).Parallel key R (fun _ => True) (g n)) :
    (ident >>= f).Parallel key R P (ident >>= g) := by
  simp only [ident, bind_assoc, pure_bind]
  refine parallel_current hR.current fun t l m hplace _ => ?_
  exact (parallel_expect hR (by simp) (by simp)).andThen (hf _ _ ⟨rfl, hplace⟩)

theorem parallel_paste (hP : ∀ k, P k → k ≠ .eof ∧ k ≠ .newline) :
    paste.Parallel key R P paste := by
  refine parallel_current hR.current fun t l m _ ht => ?_
  exact .after_perform (.same _) rfl (hR.advance _ (hP _ ht).1 (hP _ ht).2)

/-- An operator and what comes after it. -/
theorem parallel_operation {k : Token.Kind} {operand : Parser Unit} (heof : k ≠ .eof)
    (hnewline : k ≠ .newline) (hoperand : operand.Parallel key R (fun _ => True) operand) :
    (do operator; operand : Parser Unit).Parallel key R (· = k) (do operator; operand) := by
  have hpaste : paste.Parallel key R (· = k) paste :=
    parallel_paste hR fun k' hk' => hk' ▸ ⟨heof, hnewline⟩
  have hoperator : operator.Parallel key R (· = k) operator :=
    .after_perform (.same _) rfl (hpaste.andThen (parallel_perform (.same _) rfl))
  exact hoperator.andThen hoperand

theorem parallel_operations {isOperator : Token.Kind → Bool} {operand : Parser Unit}
    (heof : isOperator .eof = false) (hnewline : isOperator .newline = false)
    (hoperand : operand.Parallel key R (fun _ => True) operand) :
    (operations isOperator operand heof).Parallel key R (fun _ => True)
      (operations isOperator operand heof) :=
  parallel_many hR.current fun k hk => parallel_operation hR
    (fun h => by simp [h, heof] at hk) (fun h => by simp [h, hnewline] at hk) hoperand

theorem parallel_primary : primary.Parallel key R P primary := by
  refine parallel_current hR.current fun t l m hplace _ => .after_perform (.same _) rfl ?_
  dsimp only
  split
  · rename_i hk
    exact parallel_paste hR fun k h => by simp [h, hk]
  · rename_i hk
    exact .after_perform (.read ⟨rfl, hplace⟩) rfl (parallel_paste hR fun k h => by simp [h, hk])
  · exact parallel_fail _

theorem parallel_unary : unary.Parallel key R P unary := by
  refine .after_perform (.same _) rfl (parallel_current hR.current fun t l m _ _ => ?_)
  dsimp only
  split
  · rename_i hk
    have hpaste : paste.Parallel key R (· = t.kind) paste := by
      refine parallel_paste hR ?_
      rintro k rfl
      constructor <;> intro h <;> simp [h, Token.Kind.isAdditive] at hk
    exact hpaste.andThen (parallel_primary hR)
  · exact parallel_primary hR

theorem parallel_term : term.Parallel key R P term :=
  .after_perform (.same _) rfl <|
    (parallel_unary hR).andThen (parallel_operations hR rfl rfl (parallel_unary hR))

theorem parallel_expression : expression.Parallel key R P expression :=
  .after_perform (.same _) rfl <|
    (parallel_term hR).andThen (parallel_operations hR rfl rfl (parallel_term hR))

theorem parallel_comparison : comparison.Parallel key R P comparison := by
  refine .after_perform (.same _) rfl ((parallel_expression hR).andThen ?_)
  refine parallel_current hR.current fun t l m _ _ => ?_
  dsimp only
  split
  · exact fun n v w h _ => parallel_operations hR rfl rfl (parallel_expression hR) h trivial
  · exact parallel_fail _

theorem parallel_printBody : printBody.Parallel key R P printBody := by
  refine parallel_current hR.current fun t l m _ _ => ?_
  dsimp only
  split
  · rename_i hk
    exact .after_perform (.same _) rfl (hk ▸ hR.advance .string (by simp) (by simp))
  · exact .after_perform (.same _) rfl <|
      (parallel_expression hR).andThen (parallel_perform (.same _) rfl)

theorem parallel_labelBody : labelBody.Parallel key R P labelBody := by
  refine parallel_ident hR fun m n hname => ?_
  rw [hname.value]
  exact .after_perform (.declare hname) rfl (parallel_perform (.same _) rfl)

theorem parallel_gotoBody : gotoBody.Parallel key R P gotoBody := by
  refine parallel_ident hR fun m n hname => ?_
  rw [hname.value]
  exact .after_perform (.same _) rfl (parallel_perform (.jump hname) rfl)

theorem parallel_letBody : letBody.Parallel key R P letBody := by
  refine parallel_ident hR fun m n hname => ?_
  rw [hname.value]
  exact .after_perform (.same _) rfl <| (parallel_expect hR (by simp) (by simp)).andThen <|
    (parallel_expression hR).andThen <|
      .after_perform (.introduce hname) rfl (parallel_perform (.same _) rfl)

theorem parallel_inputBody : inputBody.Parallel key R P inputBody := by
  refine parallel_ident hR fun m n hname => ?_
  rw [hname.value]
  exact .after_perform (.introduce hname) rfl <| .after_perform (.same _) rfl <|
    .after_perform (.same _) rfl <|
      .after_perform (.same _) rfl (parallel_perform (.same _) rfl)

theorem parallel_blockHead (b : Block) : (blockHead b).Parallel key R P (blockHead b) :=
  .after_perform (.same _) rfl <| (parallel_comparison hR).andThen <|
    (parallel_expect hR (by simp) (by simp)).andThen <|
      hR.lineEnd.andThen (parallel_perform (.same _) rfl)

theorem parallel_statementBody (blocks : List Block) (s : Statement) :
    (statementBody blocks s).Parallel key R P (statementBody blocks s) := by
  have hline {body : Parser Unit} (h : body.Parallel key R P body) :
      (do body; lineEnd; return blocks : Parser (List Block)).Parallel key R P
        (do body; lineEnd; return blocks) :=
    h.andThen (hR.lineEnd.andThen (parallel_pure _))
  cases s with
  | print => exact hline (parallel_printBody hR)
  | label => exact hline (parallel_labelBody hR)
  | goto => exact hline (parallel_gotoBody hR)
  | «let» => exact hline (parallel_letBody hR)
  | input => exact hline (parallel_inputBody hR)
  | block b => exact (parallel_blockHead hR b).andThen (parallel_pure _)

theorem parallel_statement (blocks : List Block) :
    (statement blocks).Parallel key R P (statement blocks) := by
  refine parallel_current hR.current fun t l m _ _ => ?_
  dsimp only
  split
  · rename_i s hs
    have hk := ofKind?_eq_some_iff.1 hs
    have hadvance : advance.Parallel key R (· = t.kind) advance :=
      hR.advance _ (by simp [hk]) (by simp [hk])
    exact .after_perform (.same _) rfl (hadvance.andThen (parallel_statementBody hR blocks s))
  · exact parallel_fail _

theorem parallel_step (blocks : List Block) :
    (step blocks).Parallel key R (fun _ => True) (step blocks) := by
  have hsome {P : Token.Kind → Prop} {p : Parser (List Block)} (h : p.Parallel key R P p) :
      (some <$> p).Parallel key R P (some <$> p) := by
    rw [← bind_pure_comp]
    exact h.bind fun _ => parallel_pure _
  refine parallel_current hR.current fun t l m _ _ => ?_
  cases blocks with
  | nil =>
    dsimp only
    split
    · exact parallel_pure _
    · exact hsome (parallel_statement hR [])
  | cons b outer =>
    dsimp only
    split
    · rename_i hk
      have hadvance : advance.Parallel key R (· = t.kind) advance :=
        hR.advance _ (by simp [hk]) (by simp [hk])
      exact hsome <| hadvance.andThen <| .after_perform (.same _) rfl <|
        hR.lineEnd.andThen (parallel_pure _)
    · split
      · exact parallel_fail _
      · exact hsome (parallel_statement hR (b :: outer))

/-- **What comes after the blank lines in front of a program is parallel** to itself under every
simulation. -/
theorem parallel_statements : statements.Parallel key R (fun _ => True) statements :=
  (parallel_loop (parallel_step hR) []).andThen <|
    .after_perform (.same _) rfl (parallel_perform (.same _) rfl)

end Grammar

/-- **Programs are parallel** to themselves under a relation that is kept whenever both runs take a
token. -/
theorem parallel_program (hcurrent : ∀ ⦃n v w⦄, R n v w → v.current.Alike key w.current)
    (hadvance : ∀ k, k ≠ .eof → advance.Parallel key R (· = k) advance) :
    program.Parallel key R (fun _ => True) program :=
  .after_perform (.same _) rfl <| .after_perform (.same _) rfl <| .after_perform (.same _) rfl <|
    (parallel_blankLines hcurrent hadvance).andThen
      (Grammar.parallel_statements (.of_advance hcurrent hadvance))

end TinyBasic
