import TinyBasic.Proofs.Token.Compact
import TinyBasic.Proofs.Translation.Ranges

/-!
# Translating with 32-bit counters

* `counters_stay_in_range`: in a text of fewer than `2 ^ 30` characters no counter is out of range,
  neither while it is read nor in what is made of the answers, up to the report of a failure.
* `counters_run_out`: a text that starts with `2 ^ 30` tabs is too long.
-/

namespace TinyBasic

open Lexeme

namespace CompactLexer

variable {s : Source} {n : ℕ} {x : Item}

/-! ### What is made of the answers -/

/-- The lexer of the source gives an answer in this place. -/
def Gives (s : Source) (place : CompactLocation) : Prop :=
  ∃ n items l, (ofSource s).run? n = some (items, l) ∧ place ∈ items.map Prod.snd

/-- To be a place that the lexer of the source has come to. -/
def IsGiven (s : Source) (place : Location) : Prop :=
  ∃ l, Gives s l ∧ l.toLocation = place

/-- The lexer is meant by one that some readings of the source lead to. -/
def IsReached (s : Source) (l : Lexer) : Prop :=
  (∃ i, l.StandsAt s i) ∧ ∃ n items l', (ofSource s).run? n = some (items, l') ∧ l'.toLexer = l

/-- The next answer of a lexer that has been reached is one of those given. -/
theorem IsReached.next {l : Lexer} (hs : s.body.length < 2 ^ 30) (h : IsReached s l) :
    ∃ x : Item, x.toItem = l.next.1 ∧ Gives s x.2 ∧ IsReached s l.next.2 := by
  obtain ⟨⟨i, hstands⟩, n, items, l', hrun, rfl⟩ := h
  obtain ⟨x, l'', hnext, -, hstands'⟩ := exists_next? hs hstands
  have hrun' := run?_concat hrun hnext
  rw [next_of_next? hnext]
  exact ⟨x, rfl, ⟨n + 1, _, l'', hrun', by simp⟩, hstands', n + 1, _, l'', hrun', rfl⟩

/-- Whatever an answer is, it is meant to have its place. -/
theorem isGiven_of_toItem {item : Lexer.Item} (h : x.toItem = item) (hx : Gives s x.2) :
    match item with
    | .ok t => IsGiven s t.location
    | .error e => IsGiven s e.location := by
  subst h
  obtain ⟨outcome, place⟩ := x
  cases outcome with
  | ok t => exact ⟨place, hx, rfl⟩
  | error e => exact ⟨place, hx, rfl⟩

/-- To have a place that the lexer has come to is an invariant of translations. -/
def invariant (hs : s.body.length < 2 ^ 30) : Invariant where
  lexer := IsReached s
  token t := IsGiven s t.location
  check c := IsGiven s c.location
  failure f := IsGiven s f.location
  next {l t l'} h hl := by
    obtain ⟨x, hitem, hgives, hreached⟩ := h.next hs
    rw [hl] at hitem hreached
    exact ⟨isGiven_of_toItem hitem hgives, hreached⟩
  lexical {l e l'} h hl := by
    obtain ⟨x, hitem, hgives, -⟩ := h.next hs
    rw [hl] at hitem
    exact isGiven_of_toItem hitem hgives
  syntactic ht _ := ht
  checks ht _ _ _ := ht
  semantic hc _ _ := hc

end CompactLexer

open CompactLexer

variable {s : Source}

/-- **Counters of 32 bits stay in range** for every text of fewer than `2 ^ 30` characters.  With
them, reading the characters up to any index comes to the position of that index, whose column is at
least one.  Any number of readings of the lexer, also after errors and after the end of the text,
give the answers that are meant, and leave the lexer at a position of the text; the columns of the
answers are at least one, and reports can be made of them.  If the text is rejected, then the place
of the failure is one that the lexer has given, and the report of the failure can be made. -/
theorem counters_stay_in_range (hs : s.body.length < 2 ^ 30) :
    (∀ i ≤ s.chars.length, ∃ p, CompactPosition.origin.afterAll? (s.chars.take i) = some p ∧
      p.toPosition = s.positionAt i ∧ 1 ≤ p.column) ∧
    (∀ n, ∃ items l, (CompactLexer.ofSource s).run? n = some (items, l) ∧
      items.map Item.toItem = (Lexer.ofSource s).take n ∧ (∀ x ∈ items, x.2.Shown) ∧
      ∃ i ≤ s.chars.length, l.position.toPosition = s.positionAt i) ∧
    ∀ base f, (translateOnto base s).result = .error f →
      ∃ l, Gives s l ∧ l.toLocation = f.location ∧
        l.report? f.kind f.message = some f.report.render := by
  have hstart := CompactLexer.standsAt_ofSource s
  refine ⟨fun i _ => ?_, fun n => ?_, fun base f hf => ?_⟩
  · obtain ⟨p, hp, hposition⟩ := CompactPosition.exists_afterAll? fun front hfront =>
      fits_of_isPrefix hs hstart (hfront.trans (List.take_prefix i s.chars))
    refine ⟨p, hp, hposition, UInt32.le_iff_toNat_le.2 ?_⟩
    have hcolumn : p.column.toNat = (s.positionAt i).column := congrArg Position.column hposition
    rw [hcolumn]
    exact (Source.fits_positionAt hs i).one_le_column
  · obtain ⟨items, l, hrun, hshown, i, hstands⟩ := exists_run? hs hstart n
    exact ⟨items, l, hrun, (take_of_run? hrun).symm, hshown, i, hstands.bound, hstands.position⟩
  · have hreached : IsReached s (Lexer.ofSource s) := ⟨⟨0, hstart⟩, 0, [], _, rfl, rfl⟩
    obtain ⟨l, hgives, hlocation⟩ := (CompactLexer.invariant hs).failure_of_translate hreached hf
    refine ⟨l, hgives, hlocation, ?_⟩
    -- what the lexer gives can be shown
    obtain ⟨n, items, l', hrun, hmem⟩ := hgives
    obtain ⟨items', l'', hrun', hshown, -⟩ := exists_run? hs hstart n
    obtain ⟨rfl, rfl⟩ := Prod.mk.inj (Option.some.inj (hrun.symm.trans hrun'))
    obtain ⟨x, hx, rfl⟩ := List.mem_map.1 hmem
    rw [(hshown x hx).report, hlocation]
    rfl

/-- A string literal that its line does not close, behind tabs. -/
def tabbed : Source := ⟨"tabbed", "# no end\n\t\tPRINT \"a\n"⟩

/-- Where the string literal should have been closed. -/
def tabbedFailure : Failure := .lexical ⟨.unterminatedString, .single tabbed ⟨2, 17⟩⟩

theorem translate_tabbed : (translateOnto .empty tabbed).result = .error tabbedFailure := by
  decide +kernel

theorem counters_stay_in_range_tabbed :
    tabbed.body.length < 2 ^ 30 ∧
    (∃ p, CompactPosition.origin.afterAll? (tabbed.chars.take 11) = some p ∧
      p.toPosition = ⟨2, 9⟩ ∧ 1 ≤ p.column) ∧
    (∃ items l, (CompactLexer.ofSource tabbed).run? 5 = some (items, l) ∧
      items.map Item.toItem = (Lexer.ofSource tabbed).take 5 ∧ (∀ x ∈ items, x.2.Shown) ∧
      ∃ i ≤ tabbed.chars.length, l.position.toPosition = tabbed.positionAt i) ∧
    (translateOnto .empty tabbed).result = .error tabbedFailure ∧
    ∃ l, Gives tabbed l ∧ l.toLocation = .single tabbed ⟨2, 17⟩ ∧
      l.report? "Lexical error" "Lexing error. Unterminated string." =
        some tabbedFailure.report.render := by
  have hlength : tabbed.body.length < 2 ^ 30 := by decide
  obtain ⟨hpositions, hruns, hfailures⟩ := counters_stay_in_range hlength
  exact ⟨hlength, hpositions 11 (by decide), hruns 5, translate_tabbed,
    hfailures .empty tabbedFailure translate_tabbed⟩

/-! ### Too many tabs -/

theorem Position.afterAll_replicate_tab {p : Position} (h : p.column % tabStop = 1) (n : ℕ) :
    p.afterAll (List.replicate n '\t') = ⟨p.line, p.column + 4 * n⟩ := by
  induction n generalizing p with
  | zero => rfl
  | succ n ih =>
    have htab : p.after '\t' = ⟨p.line, p.column + 4⟩ := by
      simp only [after, tab, tabStop] at h ⊢
      simp only [Char.reduceEq, if_false, if_true, mk.injEq, true_and]
      omega
    have hmod : (⟨p.line, p.column + 4⟩ : Position).column % tabStop = 1 := by
      simp only [tabStop] at h ⊢
      omega
    rw [List.replicate_succ, afterAll_cons, htab, ih hmod]
    simp only [mk.injEq, true_and]
    omega

theorem Lexeme.isPrefix_layout_of_blanks {blanks cs : List Char} (h : blanks <+: cs)
    (hblank : ∀ c ∈ blanks, isBlank c = true) : blanks <+: layout cs := by
  obtain ⟨rest, rfl⟩ := h
  have htake : blanks <+: (blanks ++ rest).takeWhile isBlank := by
    rw [List.takeWhile_append_of_pos hblank]
    exact List.prefix_append _ _
  unfold layout
  dsimp only
  split
  · exact htake.trans (List.prefix_append _ _)
  · exact htake

/-- **Counters run out** at the last of `2 ^ 30` tabs. -/
theorem counters_run_out (h : List.replicate (2 ^ 30) '\t' <+: s.chars) :
    (CompactLexer.ofSource s).next? = none := by
  obtain ⟨rest, hlayout⟩ := Lexeme.isPrefix_layout_of_blanks h fun c hc => by
    rw [List.eq_of_mem_replicate hc]
    decide
  have htabs : CompactPosition.origin.afterAll? (List.replicate (2 ^ 30) '\t') = none := by
    refine Option.eq_none_iff_forall_ne_some.2 fun p hp => ?_
    have hone : CompactPosition.origin.toPosition.column = 1 := rfl
    have hposition := CompactPosition.toPosition_of_afterAll? hp
    rw [Position.afterAll_replicate_tab (by rw [hone]; rfl), hone] at hposition
    have hcolumn := congrArg Position.column hposition
    have hlt : p.toPosition.column < 2 ^ 32 := p.column.toNat_lt
    dsimp only at hcolumn
    omega
  have hpass : (CompactLexer.ofSource s).pass? (layout s.chars) (afterLayout s.chars) = none := by
    rw [← hlayout, CompactLexer.pass?, CompactLexer.ofSource, CompactPosition.afterAll?_append,
      htabs]
    rfl
  rw [CompactLexer.next?]
  exact congrArg (· >>= _) hpass

end TinyBasic
