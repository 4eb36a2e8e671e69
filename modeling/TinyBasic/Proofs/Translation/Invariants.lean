import TinyBasic.Grammar.Program
import TinyBasic.Proofs.Translation.Violations

/-!
# Invariants of a translation

What a translation comes across is made of what its lexer gives: the tokens that become current, the
names that are checked, and the failure.  An `Invariant` says what is to hold of each of these, and
why it goes from a lexer to the next and from a token to what is made of it.

A parser `Parser.Keeps` an invariant if what it answers with satisfies it in front of every window
that does, and every parser of the grammar does (`Grammar.keeps_program`).  So the failure of a
translation satisfies every invariant of its lexer (`Invariant.failure_of_translate`).
-/

namespace TinyBasic

/-- What is to hold of the lexers, of the tokens that they give, of the names that are checked, and
of failures. -/
structure Invariant where
  lexer : Lexer → Prop
  token : Located Token → Prop
  check : Located Use → Prop
  failure : Failure → Prop
  next : ∀ {l t l'}, lexer l → l.next = (.ok t, l') → token t ∧ lexer l'
  lexical : ∀ {l e l'}, lexer l → l.next = (.error e, l') → failure (.lexical e)
  /-- Whatever is wrong with a token, it is reported at its place. -/
  syntactic : ∀ {t}, token t → ∀ e, failure (.syntactic ⟨e, t.location⟩)
  /-- Only names are checked, whatever is done with them. -/
  checks : ∀ {t}, token t → t.value.kind = .ident → ∀ use : Use, use.name = t.value.text →
    check ⟨use, t.location⟩
  /-- Whatever is wrong with a name, it is reported with the name, at its place. -/
  semantic : ∀ {c}, check c → ∀ e : ScopeError, e.name = c.value.name →
    failure (.semantic ⟨e, c.location⟩)

variable {α β σ : Type} {I : Invariant}

/-- The lexer of the window and its two tokens satisfy the invariant. -/
structure Window.Satisfies (w : Window) (I : Invariant) : Prop where
  lexer : I.lexer w.lexer
  current : I.token w.current
  ahead : I.token w.ahead

theorem Window.Satisfies.advance? {w : Window} (h : w.Satisfies I) :
    match w.advance? with
    | .ok w' => w'.Satisfies I
    | .error e => I.failure (.lexical e) := by
  unfold Window.advance?
  cases hl : w.lexer.next with
  | mk item l' =>
    cases item with
    | ok t => exact ⟨(I.next h.lexer hl).2, h.ahead, (I.next h.lexer hl).1⟩
    | error e => exact I.lexical h.lexer hl

/-- What an outcome checks, its failure and its window satisfy the invariant. -/
structure Outcome.Satisfies (o : Outcome α) (I : Invariant) : Prop where
  checks : ∀ c ∈ Action.checksAll o.actions, I.check c
  failure : ∀ f, o.result = .error f → I.failure f
  window : o.window.Satisfies I

theorem Outcome.Satisfies.andThen {o : Outcome α} {f : α → Window → Outcome β}
    (ho : o.Satisfies I) (hf : ∀ a, o.result = .ok a → (f a o.window).Satisfies I) :
    (o.andThen f).Satisfies I := by
  unfold Outcome.andThen
  split
  · rename_i a ha
    have h := hf a ha
    refine ⟨?_, h.failure, h.window⟩
    rw [Action.checksAll_append]
    exact List.forall_mem_append.2 ⟨ho.checks, h.checks⟩
  · rename_i e he
    exact ⟨ho.checks, fun f hf => ho.failure f (he.trans (Except.error.inj hf ▸ rfl)), ho.window⟩

/-! ### Parsers -/

namespace Parser

variable {p : Parser α} {q : Parser β}

/-- In front of a window that satisfies the invariant, so does what the parser answers with. -/
def Keeps (p : Parser α) (I : Invariant) : Prop :=
  ∀ w : Window, w.Satisfies I → (p.run w).Satisfies I

theorem Keeps.bind {f : α → Parser β} (hp : p.Keeps I) (hf : ∀ a, (f a).Keeps I) :
    (p >>= f).Keeps I := by
  intro w hw
  rw [run_bind]
  exact (hp w hw).andThen fun a _ => hf a _ (hp w hw).window

theorem Keeps.andThen (hp : p.Keeps I) (hq : q.Keeps I) : (p >>= fun _ => q).Keeps I :=
  hp.bind fun _ => hq

theorem keeps_pure (a : α) : (pure a : Parser α).Keeps I := fun _ hw => ⟨by simp, by simp, hw⟩

theorem keeps_current {f : Located Token → Parser β} (hf : ∀ t, I.token t → (f t).Keeps I) :
    (current >>= f).Keeps I :=
  fun w hw => hf w.current hw.current w hw

theorem keeps_fail (e : SyntaxError) : (fail e : Parser α).Keeps I :=
  fun _ hw => ⟨by simp, fun _ hf => Except.error.inj hf ▸ I.syntactic hw.current e, hw⟩

/-- An action that checks nothing. -/
theorem keeps_perform {a : Action} (h : a.check? = none) : (perform a).Keeps I :=
  fun _ hw => ⟨by simp [h], by simp, hw⟩

/-- An action that checks a name. -/
theorem keeps_check {a : Action} {t : Located Token} (use : Use) (ht : I.token t)
    (hk : t.value.kind = .ident) (hname : use.name = t.value.text)
    (ha : a.check? = some ⟨use, t.location⟩) : (perform a).Keeps I :=
  fun _ hw => ⟨by simpa [ha] using I.checks ht hk use hname, by simp, hw⟩

theorem keeps_advance : advance.Keeps I := by
  intro w hw
  have h := hw.advance?
  cases ha : w.advance? with
  | ok w' =>
    rw [ha] at h
    rw [run_advance_of_ok ha]
    exact ⟨by simp [Action.check?], by simp, h⟩
  | error e =>
    rw [ha] at h
    rw [run_advance_of_error ha]
    exact ⟨by simp [Action.check?], fun _ hf => Except.error.inj hf ▸ h, hw⟩

/-- **A repetition keeps what its steps keep.** -/
theorem keeps_loop {step : σ → Parser (Option σ)} {h : ∀ x, (step x).Progresses}
    (hstep : ∀ x, (step x).Keeps I) (x : σ) : (loop step h x).Keeps I := by
  -- by induction on what is left to be read, which every step but the last makes less
  intro w
  induction hn : w.remaining using Nat.strong_induction_on generalizing w x with
  | h n ih =>
    intro hw
    rw [loop_eq, run_bind]
    refine (hstep x w hw).andThen fun a ha => ?_
    cases a with
    | none => exact keeps_pure () _ (hstep x w hw).window
    | some y => exact ih _ (hn ▸ h x w y ha) y _ rfl (hstep x w hw).window

theorem keeps_many {continues : Token.Kind → Bool} {body : Parser Unit}
    {h : ∀ w : Window, continues w.current.value.kind = true → body.Consumes w}
    (hbody : body.Keeps I) : (many continues body h).Keeps I := by
  refine keeps_loop (fun _ => keeps_current fun t _ => ?_) ()
  split
  · exact hbody.andThen (keeps_pure _)
  · exact keeps_pure _

theorem keeps_expect (k : Token.Kind) : (expect k).Keeps I := by
  refine keeps_current fun t _ => ?_
  split
  · exact keeps_advance
  · exact keeps_fail _

/-- A name is taken from a token that is one. -/
theorem eq_of_result_ident {w : Window} {n : Name} (h : (ident.run w).result = .ok n) :
    w.current.value.kind = .ident ∧ n = w.current.map Token.text := by
  obtain ⟨t, ht, h⟩ := exists_of_bind h
  obtain rfl : w.current = t := Except.ok.inj ht
  obtain ⟨⟨⟩, hexpect, h⟩ := exists_of_bind h
  refine ⟨?_, (Except.ok.inj h).symm⟩
  obtain ⟨t, ht, hkind⟩ := exists_of_bind hexpect
  obtain rfl : w.current = t := Except.ok.inj ht
  split at hkind
  · assumption
  · cases hkind

/-- What comes after a name need keep the invariant only for tokens that are names. -/
theorem keeps_ident {f : Name → Parser β}
    (hf : ∀ t, I.token t → t.value.kind = .ident → (f (t.map Token.text)).Keeps I) :
    (ident >>= f).Keeps I := by
  have hident : ident.Keeps I := keeps_current fun t _ => (keeps_expect _).andThen (keeps_pure _)
  intro w hw
  rw [run_bind]
  refine (hident w hw).andThen fun n hn => ?_
  obtain ⟨hk, rfl⟩ := eq_of_result_ident hn
  exact hf w.current hw.current hk _ (hident w hw).window

end Parser

open TinyBasic.Parser

/-! ### The grammar -/

namespace Grammar

theorem keeps_paste : paste.Keeps I :=
  keeps_current fun _ _ => (keeps_perform rfl).andThen keeps_advance

theorem keeps_operations {isOperator : Token.Kind → Bool} {operand : Parser Unit}
    {h : isOperator .eof = false} (hoperand : operand.Keeps I) :
    (operations isOperator operand h).Keeps I := by
  have hoperator : operator.Keeps I :=
    (keeps_perform rfl).andThen (keeps_paste.andThen (keeps_perform rfl))
  exact keeps_many (hoperator.andThen hoperand)

theorem keeps_primary : primary.Keeps I := by
  refine keeps_current fun t ht => (keeps_perform rfl).andThen ?_
  split
  · exact keeps_paste
  · rename_i hk
    exact (keeps_check (.read _) ht hk rfl rfl).andThen keeps_paste
  · exact keeps_fail _

theorem keeps_unary : unary.Keeps I := by
  refine (keeps_perform rfl).andThen (keeps_current fun t _ => ?_)
  split
  · exact keeps_paste.andThen keeps_primary
  · exact keeps_primary

theorem keeps_term : term.Keeps I :=
  (keeps_perform rfl).andThen (keeps_unary.andThen (keeps_operations keeps_unary))

theorem keeps_expression : expression.Keeps I :=
  (keeps_perform rfl).andThen (keeps_term.andThen (keeps_operations keeps_term))

theorem keeps_comparison : comparison.Keeps I := by
  refine (keeps_perform rfl).andThen (keeps_expression.andThen (keeps_current fun t _ => ?_))
  split
  · exact keeps_operations keeps_expression
  · exact keeps_fail _

theorem keeps_blankLines : blankLines.Keeps I := keeps_many keeps_advance

theorem keeps_lineEnd : lineEnd.Keeps I :=
  (keeps_perform rfl).andThen ((keeps_expect _).andThen keeps_blankLines)

theorem keeps_printBody : printBody.Keeps I := by
  refine keeps_current fun t _ => ?_
  split
  · exact (keeps_perform rfl).andThen keeps_advance
  · exact (keeps_perform rfl).andThen (keeps_expression.andThen (keeps_perform rfl))

theorem keeps_labelBody : labelBody.Keeps I :=
  keeps_ident fun _ ht hk => (keeps_check (.label _) ht hk rfl rfl).andThen (keeps_perform rfl)

theorem keeps_gotoBody : gotoBody.Keeps I :=
  keeps_ident fun _ ht hk => (keeps_perform rfl).andThen (keeps_check (.goto _) ht hk rfl rfl)

theorem keeps_letBody : letBody.Keeps I :=
  keeps_ident fun _ ht hk =>
    (keeps_perform rfl).andThen <| (keeps_expect _).andThen <| keeps_expression.andThen <|
      (keeps_check (.assign _) ht hk rfl rfl).andThen (keeps_perform rfl)

theorem keeps_inputBody : inputBody.Keeps I :=
  keeps_ident fun _ ht hk =>
    (keeps_check (.assign _) ht hk rfl rfl).andThen <| (keeps_perform rfl).andThen <|
      (keeps_perform rfl).andThen <| (keeps_perform rfl).andThen (keeps_perform rfl)

theorem keeps_blockHead (b : Block) : (blockHead b).Keeps I :=
  (keeps_perform rfl).andThen <| keeps_comparison.andThen <| (keeps_expect _).andThen <|
    keeps_lineEnd.andThen (keeps_perform rfl)

theorem keeps_statementBody (blocks : List Block) (x : Statement) :
    (statementBody blocks x).Keeps I := by
  have hline {body : Parser Unit} (h : body.Keeps I) :
      (do body; lineEnd; return blocks : Parser (List Block)).Keeps I :=
    h.andThen (keeps_lineEnd.andThen (keeps_pure _))
  cases x with
  | print => exact hline keeps_printBody
  | label => exact hline keeps_labelBody
  | goto => exact hline keeps_gotoBody
  | «let» => exact hline keeps_letBody
  | input => exact hline keeps_inputBody
  | block b => exact (keeps_blockHead b).andThen (keeps_pure _)

theorem keeps_statement (blocks : List Block) : (statement blocks).Keeps I := by
  refine keeps_current fun t _ => ?_
  split
  · exact (keeps_perform rfl).andThen (keeps_advance.andThen (keeps_statementBody _ _))
  · exact keeps_fail _

theorem keeps_step (blocks : List Block) : (step blocks).Keeps I := by
  have hsome {p : Parser (List Block)} (h : p.Keeps I) : (some <$> p).Keeps I := by
    rw [← bind_pure_comp]
    exact h.bind fun _ => keeps_pure _
  refine keeps_current fun t _ => ?_
  cases blocks with
  | nil =>
    dsimp only
    split
    · exact keeps_pure _
    · exact hsome (keeps_statement _)
  | cons b outer =>
    dsimp only
    split
    · exact hsome <| keeps_advance.andThen <| (keeps_perform rfl).andThen <|
        keeps_lineEnd.andThen (keeps_pure _)
    · split
      · exact keeps_fail _
      · exact hsome (keeps_statement _)

/-- **The grammar keeps every invariant.** -/
theorem keeps_program : program.Keeps I :=
  (keeps_perform rfl).andThen <| (keeps_perform rfl).andThen <| (keeps_perform rfl).andThen <|
    keeps_blankLines.andThen <| (keeps_loop keeps_step []).andThen <|
      (keeps_perform rfl).andThen (keeps_perform rfl)

end Grammar

/-! ### Translations -/

/-- What a script checks and its failure satisfy the invariant. -/
structure Script.Satisfies (x : Script) (I : Invariant) : Prop where
  checks : ∀ c ∈ Action.checksAll x.actions, I.check c
  ending : ∀ f, x.ending = .error f → I.failure f

theorem Script.satisfies_ofLexer {l : Lexer} (hl : I.lexer l) : (ofLexer l).Satisfies I := by
  unfold ofLexer
  split
  · rename_i e l₁ he
    exact ⟨by simp [Action.check?], fun f hf => Except.error.inj hf ▸ I.lexical hl he⟩
  · rename_i c l₁ hc
    obtain ⟨hcurrent, hl₁⟩ := I.next hl hc
    split
    · rename_i e l₂ he
      exact ⟨by simp [Action.check?], fun f hf => Except.error.inj hf ▸ I.lexical hl₁ he⟩
    · rename_i a l₂ ha
      obtain ⟨hahead, hl₂⟩ := I.next hl₁ ha
      have h := Grammar.keeps_program ⟨l₂, c, a⟩ ⟨hl₂, hcurrent, hahead⟩
      exact ⟨by simpa [Action.check?] using h.checks, h.failure⟩

/-- A jump that cannot be settled is one of those recorded. -/
theorem Scope.exists_jump_of_finish {scope : Scope} {e : Located ScopeError}
    (h : scope.finish = .error e) :
    ∃ n ∈ scope.jumps.reverse, e.value.name = n.value ∧ e.location = n.location := by
  unfold finish at h
  split at h
  · rename_i n hn
    obtain rfl := Except.error.inj h
    exact ⟨n, List.mem_of_find?_eq_some hn, rfl, rfl⟩
  · cases h

/-- What is wrong with a name is wrong with one that is checked. -/
theorem Translation.exists_check_of_semantic {x : Script} {base : CUnit} {e : Located ScopeError}
    (h : (ofScript x (.onto base)).result = .error (.semantic e)) :
    x.ending = .error (.semantic e) ∨
      ∃ c ∈ Action.checksAll x.actions, e.value.name = c.value.name ∧ e.location = c.location := by
  obtain ⟨w, err, hw, herr⟩ | ⟨w, hw, hending | ⟨-, err, hfinish, herr⟩⟩ := error_cases h
  · obtain rfl := Failure.semantic.inj herr
    obtain ⟨front, a, back, hx, -, ha⟩ := Workspace.exists_of_performAll_error hw
    obtain ⟨c, hc, hlocation, hname, -⟩ := Workspace.exists_check_of_perform ha
    exact .inr ⟨c, by simp [hx, hc], hname, hlocation⟩
  · exact .inl hending
  · -- the jumps that are left are those that the actions have recorded
    obtain rfl := Failure.semantic.inj herr
    obtain ⟨n, hn, hname, hlocation⟩ := Scope.exists_jump_of_finish hfinish
    rw [Workspace.jumps_of_performAll hw] at hn
    obtain ⟨c, hc, hjump⟩ := List.mem_filterMap.1 hn
    obtain ⟨x, hx, rfl⟩ := Option.map_eq_some_iff.1 hjump
    refine .inr ⟨c, hc, ?_, hlocation⟩
    rw [hname, Use.goto?_eq_some_iff.1 hx]
    rfl

/-- **The failure of a translation satisfies every invariant** that the lexer of its source does. -/
theorem Invariant.failure_of_translate (I : Invariant) {s : Source} {base : CUnit} {f : Failure}
    (hs : I.lexer (.ofSource s)) (h : (translateOnto base s).result = .error f) : I.failure f := by
  have hscript : (Script.ofSource s).Satisfies I := Script.satisfies_ofLexer hs
  cases f with
  | lexical e => exact hscript.ending _ (Translation.ending_of_error h (by simp))
  | syntactic e => exact hscript.ending _ (Translation.ending_of_error h (by simp))
  | semantic e =>
    obtain hending | ⟨c, hc, hname, hlocation⟩ := Translation.exists_check_of_semantic h
    · exact hscript.ending _ hending
    · have hfailure := I.semantic (hscript.checks c hc) e.value hname
      rwa [← hlocation] at hfailure

end TinyBasic
