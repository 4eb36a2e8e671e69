import TinyBasic.Proofs.Grammar.Prediction
import TinyBasic.Proofs.Grammar.Sentence

/-!
# Syntax errors stand where the text stops being a program

The tokens before a syntax error begin a program, and with the token it is reported at they do not
(`Tree.ViablePrefix`, `reports_at_viablePrefix`).  So an error is never reported late, whichever
blocks are open around it, and never where the text could still go on.

A step of the parser predicts the piece that its keyword opens (`Grammar.predicts_step`).  Where no
piece can begin it rejects what is left of the program as a whole (`Grammar.rejectsIn_step`), and so
does the repetition of the steps (`Grammar.predicts_loop`) and with it the parser of programs
(`Grammar.predicts_program`).
-/

namespace TinyBasic

open TinyBasic.Tree TinyBasic.Parser
open scoped Computability

namespace Grammar

variable {bs bs' bs₁ bs₂ : List Block} {b : Block} {s : TinyBasic.Statement} {k : Keyword}
  {w : Window} {K : Language (Located Token)}

/-! ### Pieces -/

/-- The pieces with a keyword, by the blocks that are open before and after. -/
def pieces (bs bs' : List Block) (k : Keyword) : Language (Located Token) :=
  yields fun m : {m : Piece bs bs' // m.keyword = k} => m.1.tokens

/-- The blocks that are open after a piece are those that its keyword says. -/
theorem Piece.blocks_eq (m : Piece bs bs₁) (m' : Piece bs bs₂) (h : m.keyword = m'.keyword) :
    bs₁ = bs₂ := by
  cases m with
  | line s kw l n =>
    cases m' with
    | line s' kw' l' n' => rfl
    | head h' =>
      obtain rfl := keyword_injective h
      cases l
    | foot f => exact absurd h (keyword_ne_closing _ _)
  | head h' =>
    cases m' with
    | line s' kw' l' n' =>
      obtain rfl := keyword_injective h
      cases l'
    | head h'' => rw [TinyBasic.Statement.block.inj (keyword_injective h)]
    | foot f => exact absurd h (keyword_ne_closing _ _)
  | foot f =>
    cases m' with
    | line s' kw' l' n' => exact absurd h.symm (keyword_ne_closing _ _)
    | head h' => exact absurd h.symm (keyword_ne_closing _ _)
    | foot f' => rfl

theorem pieces_line (l : Line s) :
    pieces bs bs s.keyword = one (· = .keyword s.keyword) * afterKeyword s := by
  have hafter : afterKeyword s = yields (Line.tokens (s := s)) * yields LineEnd.tokens := by
    cases l <;> rfl
  rw [hafter, ← yields_prod]
  refine yields_eq_mul (fun kw x => ⟨.line s kw x.1 x.2, rfl⟩) (fun m => ?_) fun kw x => ?_
  · obtain ⟨m, hm⟩ := m
    cases m with
    | line s' kw l' n' =>
      obtain rfl := keyword_injective hm
      exact ⟨kw, (l', n'), rfl⟩
  · simp [Piece.tokens]

theorem pieces_head :
    pieces bs (b :: bs) (TinyBasic.Statement.block b).keyword =
      one (· = .keyword (TinyBasic.Statement.block b).keyword) * afterKeyword (.block b) := by
  rw [afterKeyword, ← yields_cons, ← yields_prod]
  refine yields_eq_mul (fun kw x => ⟨.head ⟨kw, x.1, x.2.1, x.2.2⟩, rfl⟩) (fun m => ?_)
    fun kw x => ?_
  · obtain ⟨m, hm⟩ := m
    cases m with
    | head h => exact ⟨h.keyword, (h.condition, h.divider, h.ending), rfl⟩
  · simp [Piece.tokens, Head.tokens]

theorem pieces_foot : pieces (b :: bs) bs b.closing = yields (Foot.tokens (b := b)) := by
  refine Language.ext fun us => ⟨?_, ?_⟩
  · rintro ⟨⟨m, hm⟩, rfl⟩
    cases m with
    | foot f => exact ⟨f, rfl⟩
  · rintro ⟨f, rfl⟩
    exact ⟨⟨.foot f, rfl⟩, rfl⟩

/-- **A step predicts the pieces** that begin with the keyword in front. -/
theorem predicts_step (m : Piece bs bs') (hw : w.Settled)
    (hk : w.current.value.kind = .keyword m.keyword) :
    (step bs).Predicts w (pieces bs bs' m.keyword) (· ≠ .newline) := by
  have opens : ∀ s : TinyBasic.Statement, w.current.value.kind = .keyword s.keyword →
      (step bs).Predicts w (one (· = .keyword s.keyword) * afterKeyword s) (· ≠ .newline) := by
    intro s hs
    have hrun : (step bs).run w = (some <$> statement bs).run w :=
      run_step_of_statement (by simp [hs]) fun b _ => by simp [hs, keyword_ne_closing]
    rw [← bind_pure_comp] at hrun
    exact ((predicts_statement hw hs).bind_idle fun _ => idle_pure _).of_run_eq hrun
  cases m with
  | line s kw l n =>
    rw [Piece.keyword, pieces_line l]
    exact opens s hk
  | head h =>
    rw [Piece.keyword, pieces_head]
    exact opens _ hk
  | @foot b _ f =>
    rw [Piece.keyword, pieces_foot]
    have hclosing : w.current.value.kind = .keyword b.closing := hk
    have hrun : (step (b :: bs')).run w = (some <$> blockEnd bs').run w := by
      rw [run_step_cons, if_pos hclosing]
    rw [← bind_pure_comp] at hrun
    exact ((predicts_blockEnd hclosing).bind_idle fun _ => idle_pure _).of_run_eq hrun

/-! ### What is left of a program -/

/-- What is left of a program inside the open blocks. -/
def pending (bs : List Block) : Language (Located Token) := yields (X := Pending bs) Pending.tokens

instance : Nonempty (Foot b) := ⟨⟨Classical.arbitrary _, Classical.arbitrary _⟩⟩

theorem nonempty_pending : (bs : List Block) → Nonempty (Pending bs)
  | [] => ⟨.outside []⟩
  | _ :: outer => (nonempty_pending outer).map (.inside [] (Classical.arbitrary _))

/-- The kinds that what is left of a program can begin with. -/
def Resumes (bs : List Block) (k : Token.Kind) : Prop :=
  (bs = [] ∧ k = .eof) ∨ ∃ (bs' : List Block) (m : Piece bs bs'), k = .keyword m.keyword

theorem begins_pending (hK : Begins K (· = .eof)) : Begins (pending bs * K) (Resumes bs) := by
  intro us hus
  obtain ⟨_, ⟨p, rfl⟩, c, hc, rfl⟩ := Language.mem_mul.1 hus
  obtain ⟨rfl, hp⟩ | ⟨bs', m, q, rfl⟩ := p.exists_after
  · obtain rfl := eq_of_heq hp
    exact (hK c hc).mono fun _ hk => .inl ⟨rfl, hk⟩
  · obtain ⟨t, ts, hm, ht⟩ := m.exists_tokens
    rw [Pending.tokens_after, hm]
    exact follows_cons.2 (.inr ⟨bs', m, ht⟩)

theorem Resumes.ne_newline {k : Token.Kind} (h : Resumes bs k) : k ≠ .newline := by
  obtain ⟨-, rfl⟩ | ⟨bs', m, rfl⟩ := h <;> simp

theorem pending_after (m : Piece bs bs') (q : Pending bs') {c : List (Located Token)} (hc : c ∈ K) :
    m.tokens ++ (q.tokens ++ c) ∈ pending bs * K := by
  rw [← List.append_assoc, ← Pending.tokens_after]
  exact Language.append_mem_mul ⟨q.after m, rfl⟩ hc

/-- **After a piece comes what is left after it**, when its end is known. -/
theorem after_piece (m : Piece bs bs') {t : Located Token} (hK : Begins K (· = .eof))
    (ht : t.value.kind ≠ .newline) : After (pending bs * K) m.tokens t (pending bs' * K) where
  append_mem us hus := by
    obtain ⟨_, ⟨q, rfl⟩, c, hc, rfl⟩ := Language.mem_mul.1 hus
    exact pending_after m q hc
  mem us hus h := by
    obtain ⟨u, us, rfl⟩ := List.head?_eq_some_iff.1 hus
    obtain ⟨_, ⟨p, rfl⟩, c, hc, heq⟩ := Language.mem_mul.1 h
    obtain ⟨rfl, hp⟩ | ⟨bs'', m', q, rfl⟩ := p.exists_after
    · -- the end of the text does not begin with a keyword
      obtain rfl := eq_of_heq hp
      obtain ⟨t, ts, hm, hk⟩ := m.exists_tokens
      rw [hm] at heq
      have := hK c hc t (by rw [show c = _ from heq]; rfl)
      simp [hk] at this
    · rw [Pending.tokens_after, List.append_assoc] at heq
      have hrest : Follows (· ≠ .newline) (q.tokens ++ c) :=
        q.follows ((hK c hc).mono fun _ hk => by simp [hk])
      obtain ⟨hm, hq⟩ := @determines_piece bs ⟨bs'', m'⟩ ⟨bs', m⟩ _ _ heq hrest (follows_cons.2 ht)
      cases hm
      exact hq ▸ Language.append_mem_mul ⟨q, rfl⟩ hc

/-- What is left of a program when a piece is in front. -/
theorem after_keyword (m : Piece bs bs') (hK : Begins K (· = .eof))
    (hk : w.current.value.kind = .keyword m.keyword) :
    After (pending bs * K) [] w.current (pieces bs bs' m.keyword * (pending bs' * K)) where
  append_mem us hus := by
    obtain ⟨_, ⟨m', rfl⟩, vs, hvs, rfl⟩ := Language.mem_mul.1 hus
    obtain ⟨_, ⟨q, rfl⟩, c, hc, rfl⟩ := Language.mem_mul.1 hvs
    exact pending_after m'.1 q hc
  mem us hus h := by
    obtain ⟨_, ⟨p, rfl⟩, c, hc, rfl⟩ := Language.mem_mul.1 h
    obtain ⟨rfl, hp⟩ | ⟨bs'', m', q, rfl⟩ := p.exists_after
    · obtain rfl := eq_of_heq hp
      have := hK c hc _ hus
      simp [hk] at this
    · obtain ⟨t, ts, hm, ht⟩ := m'.exists_tokens
      have hkeyword : m'.keyword = m.keyword := by
        rw [Pending.tokens_after, hm] at hus
        obtain rfl := Option.some.inj hus
        simpa [hk] using ht.symm
      obtain rfl := Piece.blocks_eq m' m hkeyword
      rw [Pending.tokens_after, List.append_assoc]
      exact Language.append_mem_mul ⟨⟨m', hkeyword⟩, rfl⟩ (Language.append_mem_mul ⟨q, rfl⟩ hc)

/-! ### Programs -/

/-- The piece that a keyword of a statement begins. -/
theorem exists_piece (bs : List Block) (s : TinyBasic.Statement) :
    ∃ (bs' : List Block) (m : Piece bs bs'), m.keyword = s.keyword := by
  have hline : ∀ l : Line s, ∃ (bs' : List Block) (m : Piece bs bs'), m.keyword = s.keyword :=
    fun l => ⟨bs, .line s (Classical.arbitrary _) l (Classical.arbitrary _), rfl⟩
  cases s with
  | print => exact hline (.printText (Classical.arbitrary _))
  | label => exact hline (.label (Classical.arbitrary _))
  | goto => exact hline (.goto (Classical.arbitrary _))
  | «let» =>
    exact hline (.assign (Classical.arbitrary _) (Classical.arbitrary _) (Classical.arbitrary _))
  | input => exact hline (.input (Classical.arbitrary _))
  | block b =>
    exact ⟨b :: bs, .head ⟨Classical.arbitrary _, Classical.arbitrary _, Classical.arbitrary _,
      Classical.arbitrary _⟩, rfl⟩

/-- The text ends inside a block, and the end of the block can still come. -/
theorem rejectsIn_step_of_eof (heof : w.current.value.kind = .eof) (hK : Set.Nonempty K)
    (hends : Begins K (· = .eof)) : (step (b :: bs)).RejectsIn w (pending (b :: bs) * K) := by
  obtain ⟨c, hc⟩ := hK
  obtain ⟨f⟩ : Nonempty (Foot b) := inferInstance
  obtain ⟨q⟩ := nonempty_pending bs
  have hfail : (fail (.expected (.keyword b.closing) .eof) :
      Parser (Option (List Block))).RejectsIn w (pending (b :: bs) * K) := by
    refine rejectsIn_fail ⟨heof.symm, Token.Kind.noConfusion⟩
      ⟨f.keyword.token, _, f.keyword.fits, pending_after (.foot f) q hc⟩ (begins_pending hends) ?_
    rintro (⟨h, -⟩ | ⟨bs', m, hm⟩)
    · cases h
    · cases heof.symm.trans hm
  exact hfail.of_run_eq (by rw [run_step_cons, if_neg (by simp [heof]), if_pos heof])

/-- No statement begins with the token in front, and nothing else does that could stand there. -/
theorem rejectsIn_statement (hc : w.current.value.kind ≠ .newline)
    (heof : w.current.value.kind ≠ .eof) (hresumes : ¬ Resumes bs w.current.value.kind)
    (hK : Set.Nonempty K) (hends : Begins K (· = .eof)) :
    (statement bs).RejectsIn w (pending bs * K) := by
  have hkind : TinyBasic.Statement.ofKind? w.current.value.kind = none := by
    cases hs : TinyBasic.Statement.ofKind? w.current.value.kind with
    | none => rfl
    | some s =>
      obtain ⟨bs', m, hm⟩ := exists_piece bs s
      exact absurd (.inr ⟨bs', m, hm ▸ ofKind?_eq_some_iff.1 hs⟩) hresumes
  have hrun : (statement bs).run w =
      (fail (.invalidStatement w.current.value.text) : Parser (List Block)).run w := by
    simp [statement, run_bind, Outcome.andThen, hkind]
  -- what is left could at least begin with some statement
  obtain ⟨bs', m, -⟩ := exists_piece bs .print
  obtain ⟨t, ts, hm, -⟩ := m.exists_tokens
  obtain ⟨⟨q⟩, c, hc'⟩ := And.intro (nonempty_pending bs') hK
  have hmem := pending_after m q hc'
  rw [hm] at hmem
  have hfail : (fail (.invalidStatement w.current.value.text) :
      Parser (List Block)).RejectsIn w (pending bs * K) :=
    rejectsIn_fail ⟨rfl, hc, heof⟩ ⟨t, _, trivial, hmem⟩ (begins_pending hends) hresumes
  exact hfail.of_run_eq hrun

/-- **A step rejects what is left of a program** when its first token does not fit. -/
theorem rejectsIn_step (hw : w.Settled) (hc : w.current.value.kind ≠ .newline)
    (hK : Set.Nonempty K) (hends : Begins K (· = .eof)) :
    (step bs).RejectsIn w (pending bs * K) := by
  have := nonempty_pending
  by_cases hpiece : ∃ (bs' : List Block) (m : Piece bs bs'),
      w.current.value.kind = .keyword m.keyword
  · obtain ⟨bs', m, hk⟩ := hpiece
    have hbegins : Begins (pending bs' * K) (· ≠ .newline) :=
      (begins_pending hends).mono fun _ hk => hk.ne_newline
    exact ((predicts_step m hw hk).rejects (nonempty_mul (nonempty_yields _) hK) hbegins).mono
      (after_keyword m hends hk)
  by_cases heof : w.current.value.kind = .eof
  · cases bs with
    | nil =>
      intro e he
      rw [(takes_step_end hw heof).run_eq] at he
      cases he
    | cons b outer => exact rejectsIn_step_of_eof heof hK hends
  · have hclosing : ∀ b ∈ bs.head?, w.current.value.kind ≠ .keyword b.closing := by
      intro b hb hk
      obtain ⟨outer, rfl⟩ := List.head?_eq_some_iff.1 hb
      exact hpiece ⟨outer, .foot (Classical.arbitrary _), hk⟩
    have hresumes : ¬ Resumes bs w.current.value.kind :=
      fun h => h.elim (fun h => heof h.2) hpiece
    exact ((rejectsIn_statement hc heof hresumes hK hends).map some).of_run_eq
      (run_step_of_statement heof hclosing)

/-- A step that has read a piece stops in front of something else than a line feed. -/
theorem ne_newline_of_step {m : Piece bs bs'} {as : List Action} {r : Option (List Block)}
    {w' : Window} (hw : w.Settled) (hm : (step bs).Takes w m.tokens as r w') :
    w'.current.value.kind ≠ .newline := by
  obtain ⟨t, ts, hts, hk⟩ := m.exists_tokens
  have hcurrent : w.current = t := (hts ▸ hm).current_eq
  obtain ⟨_, _, _, w₁, ht, hne⟩ :=
    (predicts_step m hw (hcurrent ▸ hk)).takes (a := r) (by rw [hm.run_eq])
  obtain rfl : w' = w₁ := congrArg Outcome.window (hm.run_eq.symm.trans ht.run_eq)
  exact hne

theorem rejectsIn_loop (hw : w.Settled) (hc : w.current.value.kind ≠ .newline)
    (hK : Set.Nonempty K) (hends : Begins K (· = .eof)) :
    (loop step progresses_step bs).RejectsIn w (pending bs * K) := by
  induction hn : w.remaining using Nat.strong_induction_on generalizing bs w with
  | _ n ih =>
    subst hn
    rw [loop_eq]
    refine (rejectsIn_step hw hc hK hends).bind fun r hr => ?_
    obtain ⟨rfl, rfl, heof⟩ | ⟨bs', m, w₁, rfl, hm⟩ := takes_step_of_ok hw hr
    · exact ⟨[], [], w, pending [] * K, takes_step_end hw heof, (silent_pure ()).rejectsIn,
        fun _ h => h, fun _ _ h => h⟩
    · have hlt : w₁.remaining < w.remaining := by
        have := progresses_step bs w bs' hr
        rwa [hm.run_eq] at this
      have hne := ne_newline_of_step hw hm
      exact ⟨m.tokens, _, w₁, pending bs' * K, hm, ih _ hlt hm.settled hne rfl,
        after_piece m hends hne⟩

/-- **What is left of a program is predicted.** -/
theorem predicts_loop (hw : w.Settled) (hc : w.current.value.kind ≠ .newline) :
    (loop step progresses_step bs).Predicts w (pending bs) (· = .eof) where
  takes h := by
    obtain ⟨p, w', hp, heof⟩ := takes_loop_of_ok hw h
    exact ⟨p.tokens, ⟨p, rfl⟩, _, w', hp, heof⟩
  rejects hK hends := rejectsIn_loop hw hc hK hends

theorem yields_program : yields Program.tokens = (one (· = .newline))∗ * pending [] := by
  rw [← yields_newlines]
  refine yields_eq_mul (fun blank p => match p with | .outside ss => ⟨blank, ss⟩)
    (fun p => ⟨p.blank, .outside p.statements, rfl⟩) fun blank p => ?_
  cases p with
  | outside ss => rfl

/-- **Programs are predicted.** -/
theorem predicts_program (hw : w.Settled) :
    program.Predicts w (yields Program.tokens) (· = .eof) := by
  have hdelimited : Delimited (one (· = .newline))∗ (· ≠ .newline) :=
    yields_newlines ▸ delimited_yields determines_newlines
  have := nonempty_pending []
  rw [yields_program]
  refine (takes_perform hw _).predicts_bind ((takes_perform hw _).predicts_bind
    ((takes_perform hw _).predicts_bind ?_))
  refine (predicts_blankLines hw).bind hdelimited (nonempty_yields _)
    (fun hK => (begins_pending hK).mono fun _ hk => hk.ne_newline) fun ht hne => ?_
  exact (predicts_loop ht.settled hne).bind_idle fun _ =>
    (idle_perform _).bind fun _ => idle_perform _

end Grammar

/-! ### Errors -/

namespace Tree

/-- The kinds begin a sentence, or a sentence with the end of the text after it. -/
def ViablePrefix (ks : List Token.Kind) : Prop :=
  ∃ sentence, Sentence sentence ∧ ks <+: sentence ++ [.eof]

variable {ts us : List (Located Token)}

theorem ViablePrefix.of_append {ks ls : List Token.Kind} (h : ViablePrefix (ks ++ ls)) :
    ViablePrefix ks := by
  obtain ⟨sentence, hs, hprefix⟩ := h
  exact ⟨sentence, hs, (List.prefix_append ks ls).trans hprefix⟩

/-- The kinds of tokens begin a sentence exactly when tokens can be added to make a program. -/
theorem viablePrefix_kinds_iff :
    ViablePrefix (kinds ts) ↔ ∃ us, ts ++ us ∈ yields Program.tokens * one (· = .eof) := by
  constructor
  · rintro ⟨-, ⟨p, rfl⟩, ks, hks⟩
    refine ⟨ks.map sample, ?_⟩
    have hsample : kinds (ks.map sample) = ks := by simp [kinds, sample, Function.comp_def]
    have hkinds : kinds (ts ++ ks.map sample) = kinds (p.tokens ++ [sample .eof]) := by
      rw [kinds, List.map_append, ← kinds, ← kinds, hsample, hks]
      simp [kinds, sample]
    obtain ⟨us, vs, heq, hus, hvs⟩ := exists_append_of_kinds hkinds
    obtain ⟨q, rfl⟩ := sentence_iff.1 ⟨p, hus.symm⟩
    obtain ⟨l, rfl⟩ := relabels_leaf (p := (· = .eof)) ⟨sample .eof, rfl⟩ vs hvs
    rw [heq]
    exact Language.append_mem_mul ⟨q, rfl⟩ ⟨l, rfl⟩
  · rintro ⟨us, h⟩
    obtain ⟨_, ⟨p, rfl⟩, _, ⟨l, rfl⟩, heq⟩ := Language.mem_mul.1 h
    refine ⟨kinds p.tokens, ⟨p, rfl⟩, kinds us, ?_⟩
    rw [kinds, kinds, ← List.map_append, ← heq, List.map_append, kinds]
    simp [l.fits]

end Tree

/-- A syntax error in what a lexer gives. -/
theorem Script.exists_rejection {l : Lexer} {e : Located SyntaxError}
    (h : (ofLexer l).ending = .error (.syntactic e)) :
    ∃ (w : Window) (ts : List (Located Token)) (t : Located Token), w.items = l.items ∧
      Rejection (yields Program.tokens * one (· = .eof)) w e ts t := by
  unfold ofLexer at h
  split at h
  case h_1 => cases h
  case h_2 c l₁ hc =>
    split at h
    case h_1 => cases h
    case h_2 a l₂ ha =>
      obtain ⟨hw, hitems⟩ := items_window hc ha
      obtain ⟨ts, t, hr⟩ := (Grammar.predicts_program hw).rejects (nonempty_yields _)
        opens_one.begins e h
      exact ⟨_, ts, t, hitems, hr⟩

/-- A translation that ends with a syntax error was read up to that error. -/
theorem Translation.ending_of_syntactic {script : Script} {w : Workspace}
    {e : Located SyntaxError} (h : (ofScript script w).result = .error (.syntactic e)) :
    script.ending = .error (.syntactic e) :=
  ending_of_error h (by simp)

/-- **A syntax error is reported where the text stops being a program**: at a token such that the
tokens before it begin a program and with it they do not.  What the error says of the token is
true, and the kind that it names, if it names one, could stand there. -/
theorem reports_at_viablePrefix {base : CUnit} {s : Source} {e : Located SyntaxError}
    (h : (translateOnto base s).result = .error (.syntactic e)) :
    ∃ (ts : List (Located Token)) (t : Located Token) (later : List Lexer.Item),
      (Lexer.ofSource s).items = ts.map .ok ++ .ok t :: later ∧ e.location = t.location ∧
      ViablePrefix (kinds ts) ∧ ¬ ViablePrefix (kinds (ts ++ [t])) ∧
      match e.value with
      | .expected wanted found =>
        found = t.value.kind ∧ wanted ≠ found ∧ ViablePrefix (kinds ts ++ [wanted])
      | .invalidStatement text =>
        text = t.value.text ∧ t.value.kind ≠ .newline ∧ t.value.kind ≠ .eof
      | .expectedComparison text => text = t.value.text
      | .unexpectedToken text => text = t.value.text := by
  obtain ⟨w, ts, t, hitems, hr⟩ := Script.exists_rejection (Translation.ending_of_syntactic h)
  obtain ⟨later, hi⟩ := hr.items
  obtain ⟨t', us, hallows, hmem⟩ := hr.viable
  have hviable : ViablePrefix (kinds ts ++ [t'.value.kind]) := by
    have hprefix : ViablePrefix (kinds (ts ++ [t'])) :=
      viablePrefix_kinds_iff.2 ⟨us, by simpa using hmem⟩
    rwa [kinds, List.map_append] at hprefix
  refine ⟨ts, t, later, hitems ▸ hi, hr.location, hviable.of_append, fun hstuck => ?_, ?_⟩
  · obtain ⟨vs, hvs⟩ := viablePrefix_kinds_iff.1 hstuck
    exact hr.stuck _ hvs (List.prefix_append _ _)
  · have hdescribes := hr.describes
    obtain ⟨e, loc⟩ := e
    cases e with
    | expected wanted found =>
      obtain rfl : t'.value.kind = wanted := hallows
      exact ⟨hdescribes.1, hdescribes.2, hviable⟩
    | invalidStatement text => exact hdescribes
    | expectedComparison text => exact hdescribes
    | unexpectedToken text => exact hdescribes

/-- A program whose text ends inside a block inside a block. -/
def unclosed : Source where
  name := "unclosed"
  body := "WHILE 1 < 2 REPEAT\nIF 3 > 2 THEN\nPRINT -1\n"

theorem translateOnto_unclosed :
    (translateOnto .empty unclosed).result =
      .error (.syntactic ⟨.expected (.keyword .endIf) .eof, .single unclosed ⟨5, 1⟩⟩) := by
  decide +kernel

theorem reports_at_viablePrefix_unclosed :
    (translateOnto .empty unclosed).result =
      .error (.syntactic ⟨.expected (.keyword .endIf) .eof, .single unclosed ⟨5, 1⟩⟩) ∧
    ∃ (ts : List (Located Token)) (t : Located Token) (later : List Lexer.Item),
      (Lexer.ofSource unclosed).items = ts.map .ok ++ .ok t :: later ∧
      .single unclosed ⟨5, 1⟩ = t.location ∧
      ViablePrefix (kinds ts) ∧ ¬ ViablePrefix (kinds (ts ++ [t])) ∧
      .eof = t.value.kind ∧ .keyword .endIf ≠ Token.Kind.eof ∧
        ViablePrefix (kinds ts ++ [.keyword .endIf]) :=
  ⟨translateOnto_unclosed, reports_at_viablePrefix translateOnto_unclosed⟩

end TinyBasic
