import TinyBasic.Proofs.Grammar.Requests
import TinyBasic.Proofs.Translation.Correctness

/-!
# Translations end

A translation carries out the actions of a script in their order and counts the tokens that it asks
for.  It stops before an action that fails (`Workspace.exists_of_performAll_error`), so it asks for
as many tokens as the actions before that do (`Translation.ofScript_pulls`).  With what is known of
scripts, a translation ends after at most one token more than the lexer has answers, and no loop of
the grammar goes on without a token (`translation_ends`).
-/

namespace TinyBasic

open TinyBasic.Parser TinyBasic.Grammar

namespace Workspace

variable {w w' : Workspace} {a : Action} {as : List Action} {e : Located ScopeError}

/-- Only asking for a token counts as asking for a token. -/
theorem pulls_of_perform (h : a.perform w = .ok w') : w'.pulls = w.pulls + Action.pulls [a] := by
  cases a with
  | introduce n =>
    obtain ⟨-, rfl⟩ := perform_introduce_eq_ok_iff.1 h
    split <;> rfl
  | read n =>
    obtain ⟨-, rfl⟩ := perform_read_eq_ok_iff.1 h
    rfl
  | declare n =>
    obtain ⟨-, rfl⟩ := perform_declare_eq_ok_iff.1 h
    rfl
  | jump n =>
    obtain ⟨-, rfl⟩ := perform_jump_eq_ok_iff.1 h
    rfl
  | _ =>
    obtain rfl := Except.ok.inj h
    rfl

theorem pulls_of_performAll (h : w.performAll as = (w', none)) :
    w'.pulls = w.pulls + Action.pulls as := by
  induction as generalizing w with
  | nil =>
    obtain rfl := (Prod.mk.inj h).1
    rfl
  | cons a as ih =>
    obtain ⟨w₁, ha, h⟩ := performAll_cons_eq_none_iff.1 h
    have h₁ := pulls_of_perform ha
    rw [ih h, h₁, Action.pulls_cons, Action.pulls_cons, Action.pulls_nil]
    omega

theorem isPull_of_perform_error (h : a.perform w = .error e) : a.isPull = false := by
  cases a with
  | pull => cases h
  | _ => rfl

end Workspace

/-- **A translation carries its script out to the end**, or up to an action that fails. -/
theorem Translation.ofScript_pulls (x : Script) (base : CUnit) :
    ((ofScript x (.onto base)).pulls = Action.pulls x.actions ∧
        ∀ f, x.ending = .error f → (ofScript x (.onto base)).result = .error f) ∨
      ∃ front a back, x.actions = front ++ a :: back ∧ a.isPull = false ∧
        (ofScript x (.onto base)).pulls = Action.pulls front ∧
          ∃ e, (ofScript x (.onto base)).result = .error (.semantic e) := by
  unfold ofScript
  rcases hw : (Workspace.onto base).performAll x.actions with ⟨w, _ | e⟩
  · left
    exact ⟨(Workspace.pulls_of_performAll hw).trans (Nat.zero_add _), fun f hf => by simp [hf]⟩
  · right
    obtain ⟨front, a, back, hx, hfront, ha⟩ := Workspace.exists_of_performAll_error hw
    refine ⟨front, a, back, hx, Workspace.isPull_of_perform_error ha, ?_, e, rfl⟩
    exact (Workspace.pulls_of_performAll hfront).trans (Nat.zero_add _)

/-- **Translations end.**  Beside the answers of the lexer, a translation asks for at most one token
more, for exactly one more when it succeeds, and for none more when it comes to a lexical error.
After the first two, each token is asked for in place of a current token that is not the end of the
text, and a loop of the grammar goes on only after it has taken a token: those over statements and
blocks, over the operators of conditions, expressions and terms, and over line feeds. -/
theorem translation_ends (base : CUnit) (s : Source) :
    (translateOnto base s).pulls ≤ (Lexer.ofSource s).items.length + 1 ∧
    (∀ u, (translateOnto base s).result = .ok u →
      (translateOnto base s).pulls = (Lexer.ofSource s).items.length + 1) ∧
    (∀ e, (translateOnto base s).result = .error (.lexical e) →
      (translateOnto base s).pulls = (Lexer.ofSource s).items.length) ∧
    (∀ front back, (Script.ofSource s).actions = front ++ .pull :: back → 2 ≤ Action.pulls front →
      ∃ t : Located Token, (Lexer.ofSource s).items[Action.pulls front - 2]? = some (.ok t) ∧
        t.value.kind ≠ .eof) ∧
    (∀ blocks, (step blocks).Advances) ∧
    (round Token.Kind.isComparison (do operator; expression)).Advances ∧
    (round Token.Kind.isAdditive (do operator; term)).Advances ∧
    (round Token.Kind.isMultiplicative (do operator; unary)).Advances ∧
    (round (· = .newline) advance).Advances := by
  have hasks : (Script.ofSource s).Asks (Lexer.ofSource s).items := Script.asks_ofLexer _
  have hrun := Translation.ofScript_pulls (Script.ofSource s) base
  refine ⟨?_, fun u hu => ?_, fun e he => ?_, fun _ _ h => hasks.exists_current h, advances_step,
    advances_operation rfl rfl fun w => parallel_expression (simulation_after w),
    advances_operation rfl rfl fun w => parallel_term (simulation_after w),
    advances_operation rfl rfl fun w => parallel_unary (simulation_after w), advances_blankLine⟩
  · refine le_trans ?_ hasks.pulls_le
    obtain ⟨hpulls, -⟩ | ⟨front, a, back, hx, -, hpulls, -⟩ := hrun
    · exact hpulls.le
    · rw [hx, Action.pulls_append]
      exact hpulls.le.trans (Nat.le_add_right _ _)
  · have hend := (Translation.ofScript_eq_ok_iff.1 hu).1
    obtain ⟨hpulls, -⟩ | ⟨-, -, -, -, -, -, e, he⟩ := hrun
    · exact hpulls.trans (hasks.pulls_of_ok hend)
    · cases hu.symm.trans he
  · have hend := Translation.ending_of_error he (by simp)
    obtain ⟨hpulls, -⟩ | ⟨-, -, -, -, -, -, e', he'⟩ := hrun
    · exact hpulls.trans (hasks.pulls_of_lexical hend)
    · cases he.symm.trans he'

end TinyBasic
