import TinyBasic.Command.Session
import TinyBasic.Proofs.Translation.Agreement
import TinyBasic.Proofs.Translation.Termination
import TinyBasic.Proofs.Translation.Violations

/-!
# Lexical errors and what comes before them

The grammar looks one token ahead, so it learns of a lexical error while the token before the last
one in front of the error is current.  Up to there nothing depends on what the error is: a source
with the same tokens before it is read in the same way (`Window.SameBefore`).  So either a
translation ends with the lexical error, or with a failure that every such source has
(`lexical_errors_agree`).
-/

namespace TinyBasic

open TinyBasic.Parser TinyBasic.Grammar

variable {us vs : List (Located Token)} {later : List Lexer.Item} {n i : ℕ}
  {e : Located LexicalError}

/-- Where a range lies, whatever the text of its source is. -/
def Location.place (l : Location) : String × Position × Position := (l.source.name, l.start, l.stop)

/-- An error is the last answer of a lexer. -/
theorem Lexer.eq_append_of_getElem? {l : Lexer} (h : l.items[i]? = some (.error e)) :
    ∃ us : List (Located Token), us.length = i ∧ l.items = us.map .ok ++ [.error e] := by
  induction i generalizing l with
  | zero =>
    rw [items_eq] at h ⊢
    have hnext : l.next.1 = .error e := by simpa using h
    exact ⟨[], rfl, by simp [hnext, TokenStream.isLast]⟩
  | succ i ih =>
    rw [items_eq] at h ⊢
    cases hnext : l.next.1 with
    | error e' => simp [hnext, TokenStream.isLast] at h
    | ok t =>
      by_cases hk : t.value.kind = .eof
      · simp [hnext, TokenStream.isLast, hk] at h
      · simp only [hnext, TokenStream.isLast, hk, decide_false, Bool.false_eq_true, if_false,
          List.getElem?_cons_succ] at h ⊢
        obtain ⟨us, hlength, hitems⟩ := ih h
        exact ⟨t :: us, by simp [hlength], by simp [hitems]⟩

namespace Window

variable {v w v' w' : Window} {t : Located Token}

/-- The third item in front of a window is the next answer of its lexer. -/
theorem next_of_items {x y z : Lexer.Item} (h : w.items = x :: y :: z :: later) :
    w.current.value.kind ≠ .eof ∧ w.lexer.next.1 = z := by
  unfold items at h
  split at h
  · cases h
  · rename_i hc
    split at h
    · cases h
    · rw [Lexer.items_eq] at h
      exact ⟨hc, (List.cons.inj (List.cons.inj (List.cons.inj h).2).2).1⟩

theorem exists_advance?_of_items {x y : Lexer.Item} {t : Located Token}
    (h : w.items = x :: y :: .ok t :: later) :
    ∃ w', w.advance? = .ok w' ∧ w'.items = y :: .ok t :: later := by
  obtain ⟨hc, hnext⟩ := next_of_items h
  have ha : w.advance? = .ok ⟨w.lexer.next.2, w.ahead, t⟩ := by
    unfold advance?
    rw [show w.lexer.next = (.ok t, w.lexer.next.2) from Prod.ext hnext rfl]
  have hitems := items_eq_of_advance? hc ha
  rw [h] at hitems
  exact ⟨_, ha, (List.cons.inj hitems).2.symm⟩

theorem advance?_eq_error_of_items {x y : Lexer.Item} (h : w.items = x :: y :: .error e :: later) :
    w.advance? = .error e := by
  unfold advance?
  rw [show w.lexer.next = (.error e, w.lexer.next.2) from Prod.ext (next_of_items h).2 rfl]

/-- The same tokens in front, of which the first window has two at least, and then `e`. -/
def SameBefore (e : Located LexicalError) (_ : ℕ) (v w : Window) : Prop :=
  ∃ (us vs : List (Located Token)) (later : List Lexer.Item), 2 ≤ us.length ∧
    List.Forall₂ (Located.Alike Location.place) us vs ∧
    v.items = us.map .ok ++ [.error e] ∧ w.items = vs.map .ok ++ later

theorem SameBefore.current ⦃n : ℕ⦄ ⦃v w : Window⦄ (h : SameBefore e n v w) :
    v.current.Alike Location.place w.current := by
  obtain ⟨us, vs, later, hlength, hall, hv, hw⟩ := h
  have hhead := v.head_items
  have hhead' := w.head_items
  rw [hv] at hhead
  rw [hw] at hhead'
  cases hall with
  | nil => simp at hlength
  | cons h _ =>
    obtain rfl := Except.ok.inj (Option.some.inj hhead)
    obtain rfl := Except.ok.inj (Option.some.inj hhead')
    exact h

/-- **Both runs take the current token**, unless the error is next. -/
theorem SameBefore.advance_cases (h : SameBefore e n v w) :
    v.advance? = .error e ∨ ∃ v' w', v.advance? = .ok v' ∧ w.advance? = .ok w' ∧
      SameBefore e (n + 1) v' w' := by
  obtain ⟨us, vs, later, hlength, hall, hv, hw⟩ := h
  -- the current token, the one ahead, and what comes after them
  cases hall with
  | nil => simp at hlength
  | cons _ hahead =>
    cases hahead with
    | nil => simp at hlength
    | cons ha hlater =>
      cases hlater with
      | nil => exact .inl (advance?_eq_error_of_items hv)
      | cons ht hlater =>
        obtain ⟨v', hav, hv'⟩ := exists_advance?_of_items hv
        obtain ⟨w', haw, hw'⟩ := exists_advance?_of_items hw
        exact .inr ⟨v', w', hav, haw, _, _, later, by simp, .cons ha (.cons ht hlater), hv', hw'⟩

theorem SameBefore.advance {k : Token.Kind} (hk : k ≠ .eof) :
    Parser.advance.Parallel Location.place (SameBefore e) (· = k) Parser.advance := by
  rintro n v w h rfl
  obtain he | ⟨v', w', hv, hw, h'⟩ := h.advance_cases
  · exact related_advance_of_error h hk he
  · exact related_advance hv hw h'

theorem SameBefore.eq_of_advance? {e' : Located LexicalError} (h : SameBefore e n v w)
    (he : v.advance? = .error e') : e' = e := by
  obtain he' | ⟨v', w', hv, -, -⟩ := h.advance_cases
  · exact Except.error.inj (he.symm.trans he')
  · cases hv.symm.trans he

end Window

/-! ### Scripts -/

/-- The first answer of a lexer, and the others. -/
theorem Lexer.next_of_items {l : Lexer} {x : Lexer.Item} (h : l.items = x :: later) :
    l.next = (x, l.next.2) ∧ (later ≠ [] → l.next.2.items = later) := by
  rw [items_eq] at h
  obtain ⟨hnext, hlater⟩ := List.cons.inj h
  refine ⟨Prod.ext hnext rfl, fun hne => ?_⟩
  split at hlater
  · exact absurd hlater.symm hne
  · exact hlater

namespace Script

variable {l l' : Lexer}

/-- The script of a text that goes on after its first two tokens. -/
theorem exists_ofLexer_eq {c a : Located Token} (h : l.items = .ok c :: .ok a :: later) :
    ∃ w : Window, w.items = l.items ∧
      ofLexer l = ⟨.pull :: .pull :: (program.run w).actions, (program.run w).result⟩ := by
  obtain ⟨hc, hitems⟩ := Lexer.next_of_items h
  obtain ⟨ha, -⟩ := Lexer.next_of_items (hitems (by simp))
  refine ⟨_, (items_window hc ha).2, ?_⟩
  rw [ofLexer, hc]
  dsimp only
  rw [ha]

/-- **A text that comes to an error, beside one with the same tokens before that**: the second is
read in the same way until the error is met, or to the same syntax error. -/
theorem before_error (h : l.items = us.map .ok ++ [.error e]) (h' : l'.items = vs.map .ok ++ later)
    (hall : List.Forall₂ (Located.Alike Location.place) us vs) :
    (∃ as bs cs, Action.AllAlike Location.place as bs ∧
        ofLexer l = ⟨as ++ [.pull], .error (.lexical e)⟩ ∧ (ofLexer l').actions = bs ++ cs) ∨
      (ofLexer l).Alike Location.place (ofLexer l') ∧
        ∃ e', (ofLexer l).ending = .error (.syntactic e') := by
  cases hall with
  | nil =>
    obtain ⟨hnext, -⟩ := Lexer.next_of_items h
    exact .inl ⟨[], [], _, .nil, by rw [ofLexer, hnext]; rfl, rfl⟩
  | cons hc hahead =>
    cases hahead with
    | nil =>
      obtain ⟨hc, hitems⟩ := Lexer.next_of_items h
      obtain ⟨he, -⟩ := Lexer.next_of_items (hitems (by simp))
      refine .inl ⟨[.pull], [], _, .pull_left .nil, ?_, rfl⟩
      rw [ofLexer, hc]
      dsimp only
      rw [he]
      rfl
    | cons ha hlater =>
      obtain ⟨w, hw, hl⟩ := exists_ofLexer_eq h
      obtain ⟨w', hw', hl'⟩ := exists_ofLexer_eq h'
      have hbefore : Window.SameBefore e 0 w w' :=
        ⟨_, _, later, by simp, .cons hc (.cons ha hlater), hw.trans h, hw'.trans h'⟩
      have hrun := parallel_program Window.SameBefore.current (fun _ => Window.SameBefore.advance)
        hbefore trivial
      have hasks := asks_ofLexer l
      rw [h, hl] at hasks
      rw [hl, hl']
      generalize program.run w = o at hrun hasks ⊢
      generalize program.run w' = o' at hrun ⊢
      cases hrun with
      | ok => exact absurd rfl hasks.ending_ne_ok
      | @syntactic as bs v v' e' hs hR =>
        exact .inr ⟨.rejected hs.pull.pull (.syntactic ⟨rfl, (Window.SameBefore.current hR).place⟩),
          _, rfl⟩
      | @lexical as bs cs v v' e' o' hs hR _ he ho =>
        obtain rfl := hR.eq_of_advance? he
        refine .inl ⟨.pull :: .pull :: as, .pull :: .pull :: bs, .pull :: cs, hs.pull.pull, rfl, ?_⟩
        simp [ho]

/-- An action that asks for no token comes after one that does. -/
theorem exists_of_pull_cons {as front back : List Action} {a : Action}
    (h : .pull :: as = front ++ a :: back) (ha : a.isPull = false) :
    ∃ front', front = .pull :: front' ∧ as = front' ++ a :: back := by
  obtain ⟨rfl, hcons⟩ | hcons := List.cons_eq_append_iff.1 h
  · obtain rfl := (List.cons.inj hcons).1
    cases ha
  · exact hcons

theorem two_le_pulls {front back : List Action} {a : Action}
    (h : (ofLexer l).actions = front ++ a :: back) (ha : a.isPull = false) :
    2 ≤ Action.pulls front := by
  have htwo {as : List Action} (h : .pull :: .pull :: as = front ++ a :: back) :
      2 ≤ Action.pulls front := by
    obtain ⟨front₁, hfront, h₁⟩ := exists_of_pull_cons h ha
    obtain ⟨front₂, rfl, -⟩ := exists_of_pull_cons h₁ ha
    simp [hfront, Action.isPull]
  unfold ofLexer at h
  split at h
  · obtain ⟨_, _, hnil⟩ := exists_of_pull_cons h ha
    simp at hnil
  · split at h
    · exact htwo h
    · exact htwo h

end Script

/-! ### Translations -/

namespace Workspace

variable {w w' : Workspace} {as : List Action} {err : Located ScopeError}

/-- That a jump goes nowhere is found only after all actions. -/
theorem ne_danglingGoto_of_performAll (h : w.performAll as = (w', some err)) (x : String) :
    err.value ≠ .danglingGoto x := by
  obtain ⟨-, a, -, -, -, ha⟩ := exists_of_performAll_error h
  obtain ⟨-, -, -, -, hvalue⟩ := exists_check_of_perform ha
  exact hvalue x

end Workspace

namespace Translation

variable {s s' : Source} {base : CUnit} {f : Failure}

/-- A failure about a name is met by an action, unless the whole text could be read. -/
theorem exists_performAll_of_semantic {x : Script} {w : Workspace} {err : Located ScopeError}
    (h : (ofScript x w).result = .error (.semantic err)) (hok : x.ending ≠ .ok ())
    (hsemantic : x.ending ≠ .error (.semantic err)) :
    ∃ w', w.performAll x.actions = (w', some err) := by
  obtain ⟨w', err', hw, herr⟩ | ⟨-, -, hending | ⟨hending, -⟩⟩ := error_cases h
  · obtain rfl := Failure.semantic.inj herr
    exact ⟨w', hw⟩
  · exact absurd hending hsemantic
  · exact absurd hending hok

/-- What comes before a lexical error: a failure that is not about jumps, at a current token that
another one stands between it and the error. -/
theorem before_error (h : (Lexer.ofSource s).items = us.map .ok ++ [.error e])
    (hf : (translateOnto base s).result = .error f) (hne : f ≠ .lexical e) :
    (∀ e', f ≠ .lexical e') ∧ (∀ x location, f ≠ .semantic ⟨.danglingGoto x, location⟩) ∧
      ∃ j, (translateOnto base s).pulls = j + 2 ∧ j + 2 ≤ us.length := by
  have hasks : (Script.ofSource s).Asks (us.map .ok ++ [.error e]) := h ▸ Script.asks_ofLexer _
  have hlexical : ∀ e', f ≠ .lexical e' := by
    rintro e' rfl
    exact hne (congrArg _ (hasks.eq_of_lexical (ending_of_error hf (by simp))))
  refine ⟨hlexical, ?_, ?_⟩
  · rintro x location rfl
    obtain ⟨w', hw⟩ := exists_performAll_of_semantic hf hasks.ending_ne_ok
      (hasks.ending_ne_semantic _)
    exact Workspace.ne_danglingGoto_of_performAll hw x rfl
  · obtain ⟨hpulls, hresult⟩ | ⟨front, a, back, hx, ha, hpulls, -⟩ :=
      ofScript_pulls (Script.ofSource s) base
    · cases hend : (Script.ofSource s).ending with
      | ok => exact absurd hend hasks.ending_ne_ok
      | error f' =>
        obtain rfl := Except.error.inj (hf.symm.trans (hresult f' hend))
        cases f with
        | lexical e' => exact absurd rfl (hlexical e')
        | semantic e' => exact absurd hend (hasks.ending_ne_semantic e')
        | syntactic e' =>
          obtain ⟨j, hj, hle⟩ := hasks.exists_of_syntactic hend
          exact ⟨j, hpulls.trans hj, hle⟩
    · have hfirst := Script.two_le_pulls hx ha
      have hle := hasks.pulls_le_of_error hx ha
      refine ⟨Action.pulls front - 2, ?_, by omega⟩
      exact hpulls.trans (Nat.sub_add_cancel hfirst).symm

/-- Every source with the same tokens before the error has the same failure. -/
theorem exists_alike (base : CUnit) (h : (Lexer.ofSource s).items = us.map .ok ++ [.error e])
    (h' : (Lexer.ofSource s').items = vs.map .ok ++ later)
    (hall : List.Forall₂ (Located.Alike Location.place) us vs) :
    (translateOnto base s).result = .error (.lexical e) ∨
      ∃ f g, (translateOnto base s).result = .error f ∧ f ≠ .lexical e ∧
        (translateOnto base s').result = .error g ∧ f.Alike Location.place g := by
  obtain ⟨as, bs, cs, hs, hx, hy⟩ | ⟨halike, e', hend⟩ := Script.before_error h h' hall
  · obtain hlexical | ⟨e₁, e₂, h₁, h₂, he⟩ :=
      alike_ofScript_of_lexical (Workspace.alike_onto base) hs hx hy
    · exact .inl hlexical
    · exact .inr ⟨_, _, h₁, by simp, h₂, .semantic he⟩
  · obtain ⟨u, hu, -⟩ | ⟨f, g, hf, hg, hfg⟩ := alike_ofScript (Workspace.alike_onto base) halike
    · cases hend.symm.trans (ofScript_eq_ok_iff.1 hu).1
    · refine .inr ⟨f, g, hf, ?_, hg, hfg⟩
      rintro rfl
      cases hend.symm.trans (ending_of_error hf (by simp))

/-- A failure before the error is that of every source with the same tokens there. -/
theorem exists_same_failure (h : (Lexer.ofSource s).items = us.map .ok ++ [.error e])
    (hf : (translateOnto base s).result = .error f) (hne : f ≠ .lexical e)
    (hvs : (Lexer.ofSource s').items.take us.length = vs.map .ok)
    (hall : List.Forall₂ (Located.Alike Location.place) us vs) :
    ∃ g, (translateOnto base s').result = .error g ∧ f.Alike Location.place g := by
  have h' := (List.take_append_drop us.length (Lexer.ofSource s').items).symm
  rw [hvs] at h'
  obtain hlexical | ⟨f', g, hf', -, hg, hfg⟩ := exists_alike base h h' hall
  · exact absurd (Except.error.inj (hf.symm.trans hlexical)) hne
  · obtain rfl := Except.error.inj (hf.symm.trans hf')
    exact ⟨g, hg, hfg⟩

end Translation

/-! ### Listing tokens -/

namespace Session

variable {s : Source} {ts : List (Located Token)}

theorem ofSource_tokens (o : Options) (s : Source) :
    ofSource { o with tokens := true } s = .finished (listTokens s) := by
  simp only [ofSource, if_true]

theorem firstError?_map_ok (ts : List (Located Token)) : firstError? (ts.map .ok) = none := by
  simp [firstError?, List.findSome?_eq_none_iff]

theorem listTokens_of_ok (h : (Lexer.ofSource s).items = ts.map .ok) :
    listTokens s = ⟨0, tokenLines (Lexer.ofSource s).items, ""⟩ := by
  rw [listTokens, h, firstError?_map_ok]

theorem listTokens_of_error (h : (Lexer.ofSource s).items = ts.map .ok ++ [.error e]) :
    listTokens s =
      ⟨1, tokenLines (Lexer.ofSource s).items, (Failure.lexical e).report.render⟩ := by
  have herror : firstError? (ts.map .ok ++ [.error e]) = some e := by
    rw [firstError?, List.findSome?_append, ← firstError?, firstError?_map_ok]
    rfl
  rw [listTokens, h, herror]

/-- A lexical error of a translation is what is reported where the tokens are listed. -/
theorem exists_listing_of_lexical (o : Options)
    (h : (translate s).result = .error (.lexical e)) :
    ∃ r, ofSource { o with tokens := true } s = .finished r ∧ r.code = 1 ∧
      r.stderr = (Failure.lexical e).report.render := by
  obtain ⟨ts, hitems⟩ :=
    (Script.asks_ofLexer _).items_of_lexical (Translation.ending_of_error h (by simp))
  refine ⟨_, ofSource_tokens o s, ?_⟩
  rw [listTokens_of_error hitems]
  exact ⟨rfl, rfl⟩

/-- The tokens of a source that is translated are listed without an error. -/
theorem exists_listing_of_ok (o : Options) {u : CUnit} (h : (translate s).result = .ok u) :
    ∃ r, ofSource { o with tokens := true } s = .finished r ∧ r.code = 0 := by
  obtain ⟨ts, hitems⟩ := (Script.asks_ofLexer _).items_of_ok (Translation.ofScript_eq_ok_iff.1 h).1
  refine ⟨_, ofSource_tokens o s, ?_⟩
  rw [listTokens_of_ok hitems]

end Session

/-- **Compiling and listing the tokens agree on lexical errors**, but for failures that come before.
A translation has no lexical failure if the lexer has none.  If answer `i` of the lexer is the error
`e`, either the translation fails with `e`, or it fails otherwise while the token at `i - 2` or one
before that is current, and so does every translation of a source whose first `i` tokens are the
same, at the same places.  So a run that compiles a source and fails for a lexical error reports the
same as one that lists its tokens, and where a source is translated the tokens are listed without an
error. -/
theorem lexical_errors_agree (s : Source) :
    ((∀ e, .error e ∉ (Lexer.ofSource s).items) →
      ∀ e, (translate s).result ≠ .error (.lexical e)) ∧
    (∀ i e, (Lexer.ofSource s).items[i]? = some (.error e) →
      (translate s).result = .error (.lexical e) ∨
        ∃ f, (translate s).result = .error f ∧
          (∀ e', f ≠ .lexical e') ∧ (∀ x location, f ≠ .semantic ⟨.danglingGoto x, location⟩) ∧
          (∃ j, (translate s).pulls = j + 2 ∧ j + 2 ≤ i) ∧
          ∀ (s' : Source) (us vs : List (Located Token)),
            (Lexer.ofSource s).items.take i = us.map .ok →
            (Lexer.ofSource s').items.take i = vs.map .ok →
            List.Forall₂ (Located.Alike Location.place) us vs →
            ∃ g, (translate s').result = .error g ∧ f.Alike Location.place g) ∧
    (∀ (o : Options) (d : Destination) (e : Located LexicalError),
      (translate s).result = .error (.lexical e) →
      ∃ r, Session.ofSource { o with tokens := true } s = .finished r ∧ r.code = 1 ∧
        r.stderr = (Failure.lexical e).report.render ∧
        Session.compile o d s = .finished ⟨1, "",
          Log.render o.verbosity (Session.openingRecord o d :: (translate s).log) ++ r.stderr⟩) ∧
    (∀ (o : Options) (u : CUnit), (translate s).result = .ok u →
      ∃ r, Session.ofSource { o with tokens := true } s = .finished r ∧ r.code = 0) := by
  refine ⟨fun hnone e he => ?_, fun i e hi => ?_, fun o d e he => ?_, fun o u hu =>
    Session.exists_listing_of_ok o hu⟩
  · obtain ⟨ts, hitems⟩ :=
      (Script.asks_ofLexer _).items_of_lexical (Translation.ending_of_error he (by simp))
    exact hnone e (by simp [hitems])
  · obtain ⟨us, rfl, hitems⟩ := Lexer.eq_append_of_getElem? hi
    obtain hlexical | ⟨f, -, hf, hne, -, -⟩ := Translation.exists_alike .empty hitems hitems
      (List.forall₂_same.2 fun _ _ => ⟨rfl, rfl⟩)
    · exact .inl hlexical
    · obtain ⟨hlexical, hjump, hcurrent⟩ := Translation.before_error hitems hf hne
      refine .inr ⟨f, hf, hlexical, hjump, hcurrent, fun s' us' vs hus hvs hall => ?_⟩
      have htake : us.map (Except.ok (ε := Located LexicalError)) = us'.map .ok := by
        rw [← hus, hitems, List.take_left' (by simp)]
      obtain rfl := List.map_injective_iff.2 (fun _ _ => Except.ok.inj) htake
      exact Translation.exists_same_failure hitems hf hne hvs hall
  · obtain ⟨r, hr, hcode, hstderr⟩ := Session.exists_listing_of_lexical o he
    exact ⟨r, hr, hcode, hstderr, by rw [Session.compile, he, hstderr]⟩

/-- A program that breaks the grammar in front of a character that no token begins with. -/
def early : Source := ⟨"early", "PRINT PRINT 1 $"⟩

/-- Another program with the same tokens in front. -/
def earlier : Source := ⟨"early", "PRINT PRINT 1\nGOTO there"⟩

/-- The tokens that both programs begin with. -/
def earlyTokens (s : Source) : List (Located Token) :=
  [⟨⟨.keyword .print, "PRINT"⟩, s, ⟨1, 1⟩, ⟨1, 6⟩⟩,
    ⟨⟨.keyword .print, "PRINT"⟩, s, ⟨1, 7⟩, ⟨1, 12⟩⟩, ⟨⟨.number, "1"⟩, s, ⟨1, 13⟩, ⟨1, 14⟩⟩]

theorem lexical_errors_agree_early :
    ∃ e, (Lexer.ofSource early).items[3]? = some (.error e) ∧
      (Lexer.ofSource early).items.take 3 = (earlyTokens early).map .ok ∧
      (Lexer.ofSource earlier).items.take 3 = (earlyTokens earlier).map .ok ∧
      List.Forall₂ (Located.Alike Location.place) (earlyTokens early) (earlyTokens earlier) ∧
      ∃ f g, (translate early).result = .error f ∧ (∀ e', f ≠ .lexical e') ∧
        (translate earlier).result = .error g ∧ f.Alike Location.place g := by
  have herror : (Lexer.ofSource early).items[3]? =
      some (.error ⟨.unknownChar '$', ⟨early, ⟨1, 15⟩, ⟨1, 16⟩⟩⟩) := by decide +kernel
  have htokens : (Lexer.ofSource early).items.take 3 = (earlyTokens early).map .ok := by
    decide +kernel
  have htokens' : (Lexer.ofSource earlier).items.take 3 = (earlyTokens earlier).map .ok := by
    decide +kernel
  have hall : List.Forall₂ (Located.Alike Location.place) (earlyTokens early)
      (earlyTokens earlier) :=
    .cons ⟨rfl, rfl⟩ (.cons ⟨rfl, rfl⟩ (.cons ⟨rfl, rfl⟩ .nil))
  have hkind : (translate early).result.mapError Failure.kind = .error "Syntax error" := by
    decide +kernel
  refine ⟨_, herror, htokens, htokens', hall, ?_⟩
  obtain ⟨-, hearly, -⟩ := lexical_errors_agree early
  obtain hlexical | ⟨f, hf, hne, -, -, hsame⟩ := hearly 3 _ herror
  · rw [hlexical] at hkind
    exact absurd hkind (by decide)
  · obtain ⟨g, hg, hfg⟩ := hsame earlier _ _ htokens htokens' hall
    exact ⟨f, g, hf, hne, hg, hfg⟩

-- Without the numeral the character is read before the second keyword is current.
example : (translate ⟨"early", "PRINT PRINT $"⟩).result.mapError Failure.kind =
    .error "Lexical error" := by
  decide +kernel

end TinyBasic
