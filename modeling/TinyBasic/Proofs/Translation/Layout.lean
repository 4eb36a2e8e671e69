import TinyBasic.Proofs.Grammar.Derivation
import TinyBasic.Proofs.Token.Normalization
import TinyBasic.Proofs.Translation.Agreement

/-!
# Layout does not matter

Two sources whose tokens are the same without their layout (`Token.normalize`) are read side by
side.  What is in front of the two runs is the same but for the number of line feeds where there are
any (`Window.SameLines`).  The grammar takes line feeds only in front of a program and at the end of
a line, and takes all that are there, so both runs get to the same token again
(`Window.simulation_sameLines`).  Hence the two sources are translated to the same text or rejected
with the same error (`layout_is_irrelevant`).
-/

namespace TinyBasic

open TinyBasic.Tree TinyBasic.Parser TinyBasic.Grammar

variable {ts us rest : List (Located Token)} {t : Located Token} {n : ℕ}

/-- Line feeds in front, and what comes after them. -/
theorem exists_blank (ts : List (Located Token)) :
    ∃ (ls : List (Exactly .newline)) (rest : List (Located Token)),
      ts = ls.map Leaf.token ++ rest ∧ Follows (· ≠ .newline) rest := by
  induction ts with
  | nil => exact ⟨[], [], rfl, follows_nil⟩
  | cons t ts ih =>
    by_cases hk : t.value.kind = .newline
    · obtain ⟨ls, rest, rfl, hrest⟩ := ih
      exact ⟨⟨t, hk⟩ :: ls, rest, rfl, hrest⟩
    · exact ⟨[], t :: ts, rfl, follows_cons.2 hk⟩

theorem startsLine_eq_false (h : Follows (· ≠ .newline) rest) :
    Token.startsLine (rest.map (·.value)) = false := by
  cases rest with
  | nil => rfl
  | cons t rest => simpa [Token.startsLine] using h

theorem Tree.LineEnd.kind_eq_newline (m : LineEnd) (ht : t ∈ m.tokens) :
    t.value.kind = .newline := by
  rcases List.mem_cons.1 ht with rfl | ht
  · exact m.first.fits
  · obtain ⟨l, -, rfl⟩ := List.mem_map.1 ht
    exact l.fits

theorem allAlike_pulls {κ X Y : Type} {key : Location → κ} (xs : List X) (ys : List Y) :
    Action.AllAlike key (xs.map fun _ => .pull) (ys.map fun _ => .pull) := by
  induction xs with
  | cons x xs ih => exact .pull_left ih
  | nil =>
    induction ys with
    | nil => exact .nil
    | cons y ys ih => exact .pull_right ih

namespace Window

variable {v w : Window}

/-- The tokens in front, of which all line feeds have the same text. -/
structure Reads (w : Window) (ts : List (Located Token)) : Prop where
  settled : w.Settled
  items_eq : w.items = ts.map .ok
  newline : ∀ t ∈ ts, t.value.kind = .newline → t.value = .newline

theorem Reads.of_takes {p : Parser Unit} {as : List Action} (h : w.Reads (ts ++ rest))
    (hp : p.Takes w ts as () v) : v.Reads rest :=
  ⟨hp.settled, hp.items_of h.items_eq, fun t ht => h.newline t (List.mem_append_right _ ht)⟩

/-- What is in front is the same but for line feeds in the place of one. -/
def SameLines (_ : ℕ) (v w : Window) : Prop :=
  ∃ ts us, v.Reads ts ∧ w.Reads us ∧
    Token.collapse (ts.map (·.value)) = Token.collapse (us.map (·.value))

theorem SameLines.current (h : SameLines n v w) : v.current.Alike (fun _ => ()) w.current := by
  obtain ⟨ts, us, hv, hw, heq⟩ := h
  obtain ⟨ts, rfl⟩ := exists_of_items hv.items_eq
  obtain ⟨us, rfl⟩ := exists_of_items hw.items_eq
  have hhead := congrArg List.head? heq
  rw [Token.head?_collapse (List.forall_mem_map.2 hv.newline),
    Token.head?_collapse (List.forall_mem_map.2 hw.newline)] at hhead
  exact ⟨Option.some.inj hhead, rfl⟩

theorem SameLines.advance {k : Token.Kind} (heof : k ≠ .eof) (hnewline : k ≠ .newline) :
    Parser.advance.Parallel (fun _ => ()) SameLines (· = k) Parser.advance := by
  intro n v w h hk
  have hcurrent := h.current.value
  obtain ⟨ts, us, hv, hw, heq⟩ := h
  obtain ⟨ts, rfl⟩ := exists_of_items hv.items_eq
  obtain ⟨us, rfl⟩ := exists_of_items hw.items_eq
  obtain ⟨v', htv⟩ := takes_advance_of_items hv.settled (hk ▸ heof) hv.items_eq
  obtain ⟨w', htw⟩ := takes_advance_of_items hw.settled (hcurrent ▸ hk ▸ heof) hw.items_eq
  rw [htv.run_eq, htw.run_eq]
  refine .ok () (.single (.same _)) ⟨ts, us, hv.of_takes htv, hw.of_takes htw, ?_⟩
  rw [List.map_cons, List.map_cons, Token.collapse_cons (hk ▸ hnewline),
    Token.collapse_cons (hcurrent ▸ hk ▸ hnewline)] at heq
  exact (List.cons.inj heq).2

/-- At the end of a line all of its line feeds are taken. -/
theorem Reads.exists_lineEnd (h : v.Reads ts) (hk : v.current.value.kind = .newline) :
    ∃ (m : LineEnd) (rest : List (Located Token)) (v' : Window),
      Grammar.lineEnd.Takes v m.tokens m.actions () v' ∧ v'.Reads rest ∧
        Token.collapse (ts.map (·.value)) =
          .newline :: Token.collapse (rest.map (·.value)) := by
  obtain ⟨ts, rfl⟩ := exists_of_items h.items_eq
  obtain ⟨ls, rest, rfl, hrest⟩ := exists_blank ts
  let m : LineEnd := ⟨⟨v.current, hk⟩, ls⟩
  have hi : v.Reads (m.tokens ++ rest) := h
  obtain ⟨v', ht⟩ := recognizes_lineEnd.complete m hi.settled hi.items_eq hrest
  refine ⟨m, rest, v', ht, hi.of_takes ht, ?_⟩
  have hrun : ∀ x ∈ v.current.value :: (ls.map Leaf.token).map (·.value), x = .newline := by
    intro x hx
    obtain ⟨t, htm, rfl⟩ : ∃ t ∈ m.tokens, t.value = x := List.mem_map.1 hx
    exact hi.newline t (List.mem_append_left _ htm) (m.kind_eq_newline htm)
  have hcollapse := Token.collapse_run hrun (startsLine_eq_false hrest)
  rwa [← List.map_cons, ← List.map_append] at hcollapse

theorem SameLines.lineEnd :
    Grammar.lineEnd.Parallel (fun _ => ()) SameLines (fun _ => True) Grammar.lineEnd := by
  intro n v w h _
  have hcurrent := h.current.value
  by_cases hk : v.current.value.kind = .newline
  · obtain ⟨ts, us, hv, hw, heq⟩ := h
    obtain ⟨m, rest, v', htv, hv', hcv⟩ := hv.exists_lineEnd hk
    obtain ⟨m', rest', w', htw, hw', hcw⟩ := hw.exists_lineEnd (hcurrent ▸ hk)
    rw [htv.run_eq, htw.run_eq]
    rw [hcv, hcw] at heq
    refine .ok () ?_ ⟨rest, rest', hv', hw', (List.cons.inj heq).2⟩
    exact .cons (.same _) (.cons (.same _) (allAlike_pulls _ _))
  · -- the end of the line is expected, and there is none
    have hfail {u : Window} (hu : u.current.value = v.current.value) :
        Grammar.lineEnd.run u = ⟨[.record .newline], .error (.syntactic
          ⟨.expected .newline v.current.value.kind, u.current.location⟩), u⟩ := by
      simp [Grammar.lineEnd, expect, run_bind, Outcome.andThen, hu, hk]
    rw [hfail rfl, hfail hcurrent.symm]
    exact .syntactic _ (.single (.same _)) h

/-- **Taking a token, or all line feeds at the end of a line**, leaves the same in front of both
runs. -/
theorem simulation_sameLines : Simulation (fun _ => ()) SameLines where
  current _ _ _ h := h.current
  advance _ := SameLines.advance
  lineEnd := SameLines.lineEnd

/-- Line feeds in front of a program are taken before its first statement. -/
theorem Reads.exists_statements (h : v.Reads ts) :
    ∃ (ls : List (Exactly .newline)) (rest : List (Located Token)) (v' : Window),
      v'.Reads rest ∧
      Token.normalize (ts.map (·.value)) = Token.collapse (rest.map (·.value)) ∧
      program.run v = ⟨(.record .program :: .headerLine "#include <stdio.h>" ::
          .headerLine "int main(void)\x7b" :: ls.map fun _ => .pull) ++ (statements.run v').actions,
        (statements.run v').result, (statements.run v').window⟩ := by
  obtain ⟨ls, rest, rfl, hrest⟩ := exists_blank ts
  obtain ⟨v', ht⟩ := recognizes_blankLines.complete ls h.settled h.items_eq hrest
  refine ⟨ls, rest, v', h.of_takes ht, ?_, ?_⟩
  · rw [List.map_append]
    refine Token.normalize_append (List.forall_mem_map.2 fun t htm => ?_)
      (startsLine_eq_false hrest)
    obtain ⟨l, -, rfl⟩ := List.mem_map.1 htm
    exact h.newline _ (List.mem_append_left _ htm) l.fits
  · have hdo := takes_perform h.settled
    have hfront := (hdo (.record .program)).andThen
      ((hdo (.headerLine "#include <stdio.h>")).andThen
        ((hdo (.headerLine "int main(void)\x7b")).andThen ht))
    have hprogram : program = (do
        perform (.record .program)
        perform (.headerLine "#include <stdio.h>")
        perform (.headerLine "int main(void)\x7b")
        blankLines) >>= fun _ => statements := by
      simp only [program, statements, bind_assoc]
    rw [hprogram, run_bind, hfront.run_eq]
    rfl

/-- Whole programs that are the same without their layout. -/
theorem related_program (hv : v.Reads ts) (hw : w.Reads us)
    (heq : Token.normalize (ts.map (·.value)) = Token.normalize (us.map (·.value))) :
    (program.run v).Related (fun _ => ()) SameLines n (program.run w) := by
  obtain ⟨ls, rest, v', hv', hnormal, hrun⟩ := hv.exists_statements
  obtain ⟨ls', rest', w', hw', hnormal', hrun'⟩ := hw.exists_statements
  rw [hnormal, hnormal'] at heq
  rw [hrun, hrun']
  refine Outcome.Related.prepend ?_
    (parallel_statements simulation_sameLines ⟨rest, rest', hv', hw', heq⟩ trivial)
  exact .cons (.same _) (.cons (.same _) (.cons (.same _) (allAlike_pulls _ _)))

end Window

/-- The scripts of two texts that are the same without their layout. -/
theorem Script.alike_ofLexer {l l' : Lexer} (h : l.items = ts.map .ok) (h' : l'.items = us.map .ok)
    (heq : Token.normalize (ts.map (·.value)) = Token.normalize (us.map (·.value))) :
    (ofLexer l).Alike (fun _ => ()) (ofLexer l') := by
  obtain ⟨c, l₁, a, l₂, hc, ha⟩ := exists_next_next h
  obtain ⟨c', l₁', a', l₂', hc', ha'⟩ := exists_next_next h'
  obtain ⟨hsettled, hitems⟩ := items_window hc ha
  obtain ⟨hsettled', hitems'⟩ := items_window hc' ha'
  have hreads : (⟨l₂, c, a⟩ : Window).Reads ts :=
    ⟨hsettled, hitems.trans h, fun _ ht => Lexer.eq_newline_of_items h ht⟩
  have hreads' : (⟨l₂', c', a'⟩ : Window).Reads us :=
    ⟨hsettled', hitems'.trans h', fun _ ht => Lexer.eq_newline_of_items h' ht⟩
  have hrun := Window.related_program (n := 0) hreads hreads' heq
  simp only [ofLexer, hc, ha, hc', ha']
  generalize program.run ⟨l₂, c, a⟩ = o at hrun ⊢
  generalize program.run ⟨l₂', c', a'⟩ = o' at hrun ⊢
  cases hrun with
  | ok _ hs _ => exact .accepted hs.pull.pull
  | syntactic e hs _ => exact .rejected hs.pull.pull (.syntactic ⟨rfl, rfl⟩)
  | lexical _ hR hk he _ =>
    -- all that is in front can be read
    obtain ⟨ts, -, hv, -, -⟩ := hR
    obtain ⟨v', hv'⟩ := Window.exists_advance? hv.settled hk hv.items_eq
    cases hv'.symm.trans he

/-- **Layout does not matter.**  Of two sources that are read without lexical errors, and whose
tokens are the same but for line feeds in front and for several in the place of one, either both are
translated to the same text, or both are rejected with the same error, which may be at another
place. -/
theorem layout_is_irrelevant (base : CUnit) {s s' : Source}
    (h : (Lexer.ofSource s).items = ts.map .ok) (h' : (Lexer.ofSource s').items = us.map .ok)
    (heq : Token.normalize (ts.map (·.value)) = Token.normalize (us.map (·.value))) :
    (∃ u, (translateOnto base s).result = .ok u ∧ (translateOnto base s').result = .ok u) ∨
      ∃ f g, (translateOnto base s).result = .error f ∧
        (translateOnto base s').result = .error g ∧
        f.Alike (fun _ => ()) g ∧ f.kind = g.kind ∧ f.message = g.message := by
  obtain haccepted | ⟨f, g, hf, hg, hfg⟩ :=
    Translation.alike_ofScript (Workspace.alike_onto base) (Script.alike_ofLexer h h' heq)
  · exact .inl haccepted
  · exact .inr ⟨f, g, hf, hg, hfg, hfg.kind_eq, hfg.message_eq⟩

/-- A program that reads a variable without a value. -/
def unset : Source := ⟨"unset", "LET x = 1\nIF x > 0 THEN\nPRINT y\nENDIF"⟩

/-- The same program with blank lines, a comment and other blanks. -/
def unsetSpaced : Source :=
  ⟨"unset", "\n\nLET x=1 # one\n\n\tIF x>0 THEN\r\n\n  PRINT y\nENDIF\n\n"⟩

theorem layout_is_irrelevant_unset :
    ∃ ts us : List (Located Token), (Lexer.ofSource unset).items = ts.map .ok ∧
      (Lexer.ofSource unsetSpaced).items = us.map .ok ∧
      Token.normalize (ts.map (·.value)) = Token.normalize (us.map (·.value)) ∧
      ((∃ u, (translateOnto .empty unset).result = .ok u ∧
          (translateOnto .empty unsetSpaced).result = .ok u) ∨
        ∃ f g, (translateOnto .empty unset).result = .error f ∧
          (translateOnto .empty unsetSpaced).result = .error g ∧
          f.Alike (fun _ => ()) g ∧ f.kind = g.kind ∧ f.message = g.message) := by
  have h : (Lexer.ofSource unset).items =
      ((Lexer.ofSource unset).items.filterMap Except.toOption).map .ok := by decide +kernel
  have h' : (Lexer.ofSource unsetSpaced).items =
      ((Lexer.ofSource unsetSpaced).items.filterMap Except.toOption).map .ok := by decide +kernel
  refine ⟨_, _, h, h', ?_, layout_is_irrelevant .empty h h' ?_⟩ <;> decide +kernel

end TinyBasic
