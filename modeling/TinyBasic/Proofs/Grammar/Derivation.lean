import TinyBasic.Proofs.Grammar.Statements
import TinyBasic.Translation

/-!
# Sources and their derivations

`Tree.Program.IsOf p s` says that the lexer reads the source `s` to its end and that the tokens in
front of the end are those of the tree `p`.

* `Script.exists_isOf`: a source that is read without a failure has a derivation.
* `Script.ofSource_eq`: a source with a derivation is read without a failure, and what is asked for
  while it is read depends on the derivation alone.
-/

namespace TinyBasic

open TinyBasic.Tree TinyBasic.Parser

namespace Grammar

variable {bs : List Block} {w : Window} {e : Located Token}

/-! ### Programs -/

theorem takes_loop_of_ok (hw : w.Settled)
    (h : ((loop step progresses_step bs).run w).result = .ok ()) :
    ∃ (p : Pending bs) (w' : Window),
      (loop step progresses_step bs).Takes w p.tokens p.actions () w' ∧
        w'.current.value.kind = .eof := by
  induction hn : w.remaining using Nat.strong_induction_on generalizing bs w with
  | _ n ih =>
    subst hn
    rw [loop_eq] at h ⊢
    obtain ⟨r, hr, -⟩ := exists_of_bind h
    obtain ⟨rfl, rfl, heof⟩ | ⟨bs', m, w₁, rfl, hm⟩ := takes_step_of_ok hw hr
    · exact ⟨.outside [], w, (takes_step_end hw heof).bind (takes_pure hw ()), heof⟩
    · -- a piece takes tokens, so less is in front of the steps after it
      have hlt : w₁.remaining < w.remaining := by
        have := progresses_step bs w bs' hr
        rwa [hm.run_eq] at this
      obtain ⟨p, w', hp, heof⟩ := ih _ hlt hm.settled (hm.rest_ok h) rfl
      exact ⟨p.after m, w', (hm.bind hp).congr (by simp) (by simp), heof⟩

theorem follows_end (he : e.value.kind = .eof) : Follows (· ≠ .newline) [e] := by
  simp [he]

theorem takes_loop_of_items (p : Pending bs) (he : e.value.kind = .eof) (hw : w.Settled)
    (hi : w.items = (p.tokens ++ [e]).map .ok) :
    ∃ w', (loop step progresses_step bs).Takes w p.tokens p.actions () w' := by
  induction hn : w.remaining using Nat.strong_induction_on generalizing bs w with
  | _ n ih =>
    subst hn
    rw [loop_eq]
    obtain ⟨rfl, hp⟩ | ⟨bs', m, q, rfl⟩ := p.exists_after
    · obtain rfl := eq_of_heq hp
      have heof : w.current.value.kind = .eof := by rw [current_of_items hi, he]
      exact ⟨w, (takes_step_end hw heof).bind (takes_pure hw ())⟩
    · rw [Pending.tokens_after, List.append_assoc] at hi
      obtain ⟨w₁, hm⟩ := takes_step_of_items m hw hi (q.follows (follows_end he))
      have hlt : w₁.remaining < w.remaining := by
        have := progresses_step bs w bs' (by rw [hm.run_eq])
        rwa [hm.run_eq] at this
      obtain ⟨w', hq⟩ := ih _ hlt q hm.settled (hm.items_of hi) rfl
      exact ⟨w', (hm.bind hq).congr (by simp) (by simp)⟩

/-- The parts of a program in their order. -/
theorem takes_program {blank : List (Exactly .newline)} {ss : List Tree.Statement} {w₁ w' : Window}
    (hw : w.Settled)
    (hblank : blankLines.Takes w (blank.map Leaf.token) (blank.map fun _ => .pull) () w₁)
    (hbody : (loop step progresses_step []).Takes w₁ (tokensAll ss) (actionsAll ss) () w') :
    program.Takes w (Program.tokens ⟨blank, ss⟩) (Program.actions ⟨blank, ss⟩) () w' := by
  have hend := (takes_perform hbody.settled (.writeLine "return 0;")).andThen
    (takes_perform hbody.settled (.writeLine "\x7d"))
  have hdo := takes_perform hw
  have hall := (hdo (.record .program)).andThen ((hdo (.headerLine "#include <stdio.h>")).andThen
    ((hdo (.headerLine "int main(void)\x7b")).andThen (hblank.andThen (hbody.andThen hend))))
  exact hall.congr (by simp [Program.tokens]) (by simp [Program.actions])

theorem takes_program_of_ok (hw : w.Settled) (h : (program.run w).result = .ok ()) :
    ∃ (p : Program) (w' : Window),
      program.Takes w p.tokens p.actions () w' ∧ w'.current.value.kind = .eof := by
  have h := ok_of_perform (ok_of_perform (ok_of_perform h))
  obtain ⟨⟨⟩, hb, -⟩ := exists_of_bind h
  obtain ⟨blank, w₁, hblank⟩ := recognizes_blankLines.sound hw hb
  have h := hblank.rest_ok h
  obtain ⟨⟨⟩, hl, -⟩ := exists_of_bind h
  obtain ⟨⟨ss⟩, w', hbody, heof⟩ := takes_loop_of_ok hblank.settled hl
  exact ⟨⟨blank, ss⟩, w', takes_program hw hblank hbody, heof⟩

theorem takes_program_of_items (p : Program) (he : e.value.kind = .eof) (hw : w.Settled)
    (hi : w.items = (p.tokens ++ [e]).map .ok) :
    ∃ w', program.Takes w p.tokens p.actions () w' := by
  obtain ⟨blank, ss⟩ := p
  rw [Program.tokens, List.append_assoc] at hi
  obtain ⟨w₁, hblank⟩ := recognizes_blankLines.complete blank hw hi
    ((Pending.outside ss).follows (follows_end he))
  obtain ⟨w', hbody⟩ := takes_loop_of_items (.outside ss) he hblank.settled (hblank.items_of hi)
  exact ⟨w', takes_program hw hblank hbody⟩

end Grammar

/-! ### Scripts -/

/-- The lexer reads the source to its end, and the tokens in front of the end are those of `p`. -/
def Tree.Program.IsOf (p : Program) (s : Source) : Prop :=
  ∃ e : Located Token, e.value.kind = .eof ∧
    (Lexer.ofSource s).items = (p.tokens ++ [e]).map .ok

namespace Script

variable {l l₁ l₂ : Lexer} {c a e : Located Token}

/-- The window on the first two tokens has all of the lexer's answers in front of it. -/
theorem items_window (hc : l.next = (.ok c, l₁)) (ha : l₁.next = (.ok a, l₂)) :
    (⟨l₂, c, a⟩ : Window).Settled ∧ (⟨l₂, c, a⟩ : Window).items = l.items := by
  constructor
  · intro hk
    have := Lexer.next_rest_of_eof (l := l₁) (t := a) (by rw [ha]) hk
    rwa [ha] at this
  · rw [Window.items_of_next hc, Window.items_of_next ha]
    unfold Window.items
    by_cases hk : c.value.kind = .eof
    · rw [if_pos hk, if_pos hk]
    · rw [if_neg hk, if_neg hk]
      split <;> rfl

theorem exists_of_ofLexer (h : (ofLexer l).ending = .ok ()) :
    ∃ (p : Program) (e : Located Token), e.value.kind = .eof ∧
      l.items = (p.tokens ++ [e]).map .ok := by
  unfold ofLexer at h
  split at h
  case h_1 => cases h
  case h_2 c l₁ hc =>
    split at h
    case h_1 => cases h
    case h_2 a l₂ ha =>
      obtain ⟨hw, hitems⟩ := items_window hc ha
      obtain ⟨p, w', hp, heof⟩ := Grammar.takes_program_of_ok hw h
      -- after the program only the end of the text is in front
      refine ⟨p, w'.current, heof, ?_⟩
      rw [← hitems, hp.items_eq, Window.items_of_eof heof, List.map_append]
      rfl

/-- The first two tokens of a text without lexical errors. -/
theorem exists_next_next {ts : List (Located Token)} (h : l.items = ts.map .ok) :
    ∃ c l₁ a l₂, l.next = (.ok c, l₁) ∧ l₁.next = (.ok a, l₂) := by
  have hfirst : ∀ {l : Lexer} {ts : List (Located Token)}, l.items = ts.map .ok →
      ∃ t l', l.next = (.ok t, l') := by
    intro l ts h
    rw [Lexer.items_eq] at h
    cases ts with
    | nil => cases h
    | cons t ts => exact ⟨t, l.next.2, Prod.ext (List.cons.inj h).1 rfl⟩
  obtain ⟨c, l₁, hc⟩ := hfirst h
  have hsecond : ∃ a l₂, l₁.next = (.ok a, l₂) := by
    by_cases hk : c.value.kind = .eof
    · have hrest := Lexer.next_rest_of_eof (l := l) (t := c) (by rw [hc]) hk
      rw [hc] at hrest
      exact ⟨_, _, Lexer.next_of_rest_eq_nil hrest⟩
    · rw [Window.items_of_next hc, if_neg hk] at h
      cases ts with
      | nil => cases h
      | cons t ts => exact hfirst (List.cons.inj h).2
  obtain ⟨a, l₂, ha⟩ := hsecond
  exact ⟨c, l₁, a, l₂, hc, ha⟩

theorem ofLexer_eq {p : Program} (he : e.value.kind = .eof)
    (h : l.items = (p.tokens ++ [e]).map .ok) :
    ofLexer l = ⟨.pull :: .pull :: p.actions, .ok ()⟩ := by
  obtain ⟨c, l₁, a, l₂, hc, ha⟩ := exists_next_next h
  obtain ⟨hw, hitems⟩ := items_window hc ha
  obtain ⟨w', hp⟩ := Grammar.takes_program_of_items p he hw (hitems.trans h)
  simp only [ofLexer, hc, ha, hp.run_eq]

/-- **A source that is read without a failure has a derivation.** -/
theorem exists_isOf {s : Source} (h : (ofSource s).ending = .ok ()) : ∃ p : Program, p.IsOf s :=
  exists_of_ofLexer h

/-- **A source with a derivation is read without a failure**, and what is asked for is what the
derivation says. -/
theorem ofSource_eq {s : Source} {p : Program} (h : p.IsOf s) :
    ofSource s = ⟨.pull :: .pull :: p.actions, .ok ()⟩ := by
  obtain ⟨e, he, h⟩ := h
  exact ofLexer_eq he h

end Script

namespace Translation

variable {script : Script} {w : Workspace} {f : Failure}

/-- **How a translation fails**: an action cannot be carried out, or all of them are and the text is
read up to the failure, or it is read to its end and a jump is left that cannot be settled. -/
theorem error_cases (h : (ofScript script w).result = .error f) :
    (∃ w' e, w.performAll script.actions = (w', some e) ∧ f = .semantic e) ∨
      ∃ w', w.performAll script.actions = (w', none) ∧
        (script.ending = .error f ∨
          script.ending = .ok () ∧ ∃ e, w'.scope.finish = .error e ∧ f = .semantic e) := by
  unfold ofScript at h
  split at h
  · rename_i w' e hw
    exact .inl ⟨w', e, hw, (Except.error.inj h).symm⟩
  · rename_i w' hw
    refine .inr ⟨w', hw, ?_⟩
    cases hending : script.ending with
    | error f' =>
      simp only [hending] at h
      exact .inl (congrArg Except.error (Except.error.inj h))
    | ok =>
      cases hfinish : w'.scope.finish with
      | ok => simp [hending, hfinish] at h
      | error e =>
        simp only [hending, hfinish] at h
        exact .inr ⟨rfl, e, rfl, (Except.error.inj h).symm⟩

/-- A translation whose failure is not about a name was read up to that failure. -/
theorem ending_of_error (h : (ofScript script w).result = .error f) (hf : ∀ e, f ≠ .semantic e) :
    script.ending = .error f := by
  obtain ⟨-, e, -, hsemantic⟩ | ⟨-, -, hending | ⟨-, e, -, hsemantic⟩⟩ := error_cases h
  · exact absurd hsemantic (hf e)
  · exact hending
  · exact absurd hsemantic (hf e)

end Translation

end TinyBasic
