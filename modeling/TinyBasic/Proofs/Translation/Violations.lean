import TinyBasic.Proofs.Translation.Correctness

/-!
# The first violation is reported

A program is checked while it is read, and only the end of the text settles its jumps.  What is
reported can still be told from the derivation alone.

* `Use.error?`: what is wrong with a use after those before it, if anything is.
* `reports_first_violation`: the first use with which something is wrong is reported at its place;
  if there is none, the first jump to a label that is declared nowhere; and if there is none of
  these either, the program is translated.

A list of actions stops at the first violation because up to there it is carried out
(`Workspace.performAll_of_error?`).  The jumps of the scope at the end are those of the program in
their order (`Workspace.jumps_of_performAll`).
-/

namespace TinyBasic

open TinyBasic.Tree

/-! ### What is wrong with a use -/

/-- The name that the error is about. -/
def ScopeError.name : ScopeError → String
  | .undefined x | .duplicateLabel x | .danglingGoto x | .reserved x => x

namespace Use

variable {us : List Use} {u : Use}

/-- The name that is used. -/
def name : Use → String
  | assign x | read x | label x | goto x => x

/-- What is wrong with a use after the uses `us`.  Of a label, the name is checked before whether it
is new. -/
def error? (us : List Use) : Use → Option ScopeError
  | assign x =>
    if x ∈ Reserved.words ∨ x ∈ Reserved.functions then some (.reserved x) else none
  | read x => if assign x ∈ us then none else some (.undefined x)
  | label x =>
    if x ∈ Reserved.words then some (.reserved x)
    else if label x ∈ us then some (.duplicateLabel x)
    else none
  | goto x => if x ∈ Reserved.words then some (.reserved x) else none

/-- Nothing is wrong with a use exactly when it is allowed. -/
theorem error?_eq_none_iff : u.error? us = none ↔ u.Allowed us := by
  cases u with
  | assign x => simp [error?, Allowed]
  | read x => simp [error?, Allowed]
  | label x =>
    by_cases hw : x ∈ Reserved.words
    · simp [error?, Allowed, hw]
    · simp [error?, Allowed, hw]
  | goto x => simp [error?, Allowed]

end Use

/-! ### Jumps -/

/-- The jump that a use is, with its place. -/
def Use.jump? (c : Located Use) : Option Name := c.value.goto?.map (⟨·, c.location⟩)

/-- The jumps of a program in order. -/
def Tree.Program.jumps (p : Program) : List Name := p.checks.filterMap Use.jump?

/-! ### Failures of actions -/

namespace Scope

variable {s : Scope} {us : List Use} {n : Name} {err : ScopeError}

theorem Tracks.introduce_of_error? (h : (Use.assign n.value).error? us = some err) :
    s.introduce n = .error ⟨err, n.location⟩ := by
  by_cases hn : n.value ∈ Reserved.words ∨ n.value ∈ Reserved.functions
  · obtain rfl : ScopeError.reserved n.value = err := by simpa [Use.error?, hn] using h
    have hr : Reserved.forVariable n.value = true := by simpa [Reserved.forVariable] using hn
    simp [introduce, hr, failure, Located.map]
  · simp [Use.error?, hn] at h

theorem Tracks.read_of_error? (hs : s.Tracks us) (h : (Use.read n.value).error? us = some err) :
    s.read n = .error ⟨err, n.location⟩ := by
  by_cases hn : .assign n.value ∈ us
  · simp [Use.error?, hn] at h
  · obtain rfl : ScopeError.undefined n.value = err := by simpa [Use.error?, hn] using h
    have hunknown := mt hs.mem_assigned.1 hn
    simp [Scope.read, hunknown, failure, Located.map]

theorem Tracks.declare_of_error? (hs : s.Tracks us)
    (h : (Use.label n.value).error? us = some err) :
    s.declare n = .error ⟨err, n.location⟩ := by
  by_cases hw : n.value ∈ Reserved.words
  · obtain rfl : ScopeError.reserved n.value = err := by simpa [Use.error?, hw] using h
    simp [declare, Reserved.forLabel, hw, failure, Located.map]
  · by_cases hn : .label n.value ∈ us
    · obtain rfl : ScopeError.duplicateLabel n.value = err := by
        simpa [Use.error?, hw, hn] using h
      have hknown := hs.mem_labels.2 hn
      simp [declare, Reserved.forLabel, hw, hknown, failure, Located.map]
    · simp [Use.error?, hw, hn] at h

theorem Tracks.jump_of_error? (h : (Use.goto n.value).error? us = some err) :
    s.jump n = .error ⟨err, n.location⟩ := by
  by_cases hw : n.value ∈ Reserved.words
  · obtain rfl : ScopeError.reserved n.value = err := by simpa [Use.error?, hw] using h
    simp [jump, Reserved.forLabel, hw, failure, Located.map]
  · simp [Use.error?, hw] at h

end Scope

namespace Workspace

variable {w w' : Workspace} {base : CUnit} {opening : List String} {us : List Use} {code : String}
  {a : Action} {as : List Action} {c : Located Use} {err : ScopeError}

/-- An action fails with what is wrong with its use, at the place of the name. -/
theorem perform_of_error? (hw : w.scope.Tracks us) (ha : a.check? = some c)
    (h : c.value.error? us = some err) : a.perform w = .error ⟨err, c.location⟩ := by
  cases a with
  | introduce n =>
    obtain rfl := Option.some.inj ha
    rw [Action.perform, Scope.Tracks.introduce_of_error? h]
    rfl
  | read n =>
    obtain rfl := Option.some.inj ha
    rw [Action.perform, hw.read_of_error? h]
    rfl
  | declare n =>
    obtain rfl := Option.some.inj ha
    rw [Action.perform, hw.declare_of_error? h]
    rfl
  | jump n =>
    obtain rfl := Option.some.inj ha
    rw [Action.perform, Scope.Tracks.jump_of_error? h]
    rfl
  | _ => cases ha

/-- **An action fails at the name that it checks**, and never for a jump that goes nowhere, which is
found only after all actions. -/
theorem exists_check_of_perform {e : Located ScopeError} (h : a.perform w = .error e) :
    ∃ c, a.check? = some c ∧ e.location = c.location ∧ e.value.name = c.value.name ∧
      ∀ x, e.value ≠ .danglingGoto x := by
  cases a with
  | introduce n =>
    have hn : w.scope.introduce n = .error e := by
      simp only [Action.perform] at h
      split at h
      · rename_i e' he
        rw [he, Except.error.inj h]
      · cases h
      · cases h
    obtain rfl := Scope.error_of_introduce hn
    exact ⟨_, rfl, rfl, rfl, by simp⟩
  | read n =>
    obtain rfl := Scope.error_of_read (map_eq_error_iff.1 h)
    exact ⟨_, rfl, rfl, rfl, by simp⟩
  | declare n =>
    obtain rfl | rfl := Scope.error_of_declare (map_eq_error_iff.1 h)
    · exact ⟨_, rfl, rfl, rfl, by simp⟩
    · exact ⟨_, rfl, rfl, rfl, by simp⟩
  | jump n =>
    obtain rfl := Scope.error_of_jump (map_eq_error_iff.1 h)
    exact ⟨_, rfl, rfl, rfl, by simp⟩
  | _ => cases h

/-- **A list of actions stops at the first violation.** -/
theorem performAll_of_error? {before later : List (Located Use)}
    (hw : w.Shows base opening us code) (has : ∀ a ∈ as, a.isHeaderLine = false)
    (hchecks : Action.checksAll as = before ++ c :: later)
    (hbefore : Use.AllAllowed (us ++ before.map Located.value)) (hus : Use.AllAllowed us)
    (h : c.value.error? (us ++ before.map Located.value) = some err) :
    ∃ w', w.performAll as = (w', some ⟨err, c.location⟩) := by
  obtain ⟨front, back, rfl, hfront, hback⟩ := List.filterMap_eq_append_iff.1 hchecks
  obtain ⟨idle, a, rest, rfl, hidle, ha, -⟩ := List.filterMap_eq_cons_iff.1 hback
  -- everything in front of the violation is carried out
  have hchecked : Action.checksAll (front ++ idle) = before := by
    rw [Action.checksAll_append, Action.checksAll, hfront, Action.checksAll,
      List.filterMap_eq_nil_iff.2 hidle, List.append_nil]
  have huses : Action.usesAll (front ++ idle) = before.map Located.value :=
    congrArg (List.map Located.value) hchecked
  have hheader : ∀ a ∈ front ++ idle, a.isHeaderLine = false := fun a ha => has a (by
    rcases List.mem_append.1 ha with ha | ha <;> simp [ha])
  obtain ⟨w₁, hw₁⟩ := (exists_performAll_iff hw hheader hus).2 (huses ▸ hbefore)
  have hshows := (hw.performAll hheader hw₁).scope
  rw [huses] at hshows
  have hfail := perform_of_error? hshows ha h
  refine ⟨w₁, ?_⟩
  rw [← List.append_assoc, performAll_append, hw₁]
  exact performAll_cons_of_error hfail rest

/-- An action that is carried out adds its jump to those recorded. -/
theorem jumps_of_perform (h : a.perform w = .ok w') :
    w'.scope.jumps.reverse =
      w.scope.jumps.reverse ++ (a.check?.bind Use.jump?).toList := by
  cases a with
  | introduce n =>
    obtain ⟨-, rfl⟩ := perform_introduce_eq_ok_iff.1 h
    by_cases hn : n.value ∈ w.scope.assigned <;> simp [hn, Action.check?, Use.jump?, Use.goto?,
      mapOutput, note]
  | read n =>
    obtain ⟨-, rfl⟩ := perform_read_eq_ok_iff.1 h
    simp [Action.check?, Use.jump?, Use.goto?]
  | declare n =>
    obtain ⟨-, rfl⟩ := perform_declare_eq_ok_iff.1 h
    simp [Action.check?, Use.jump?, Use.goto?, note]
  | jump n =>
    obtain ⟨-, rfl⟩ := perform_jump_eq_ok_iff.1 h
    simp [Action.check?, Use.jump?, Use.goto?]
  | _ =>
    obtain rfl := Except.ok.inj h
    exact (List.append_nil _).symm

/-- **The jumps that are recorded** are those of the actions, in their order. -/
theorem jumps_of_performAll (h : w.performAll as = (w', none)) :
    w'.scope.jumps.reverse =
      w.scope.jumps.reverse ++ (Action.checksAll as).filterMap Use.jump? := by
  induction as generalizing w with
  | nil =>
    obtain rfl : w = w' := (Prod.mk.inj h).1
    exact (List.append_nil _).symm
  | cons a as ih =>
    obtain ⟨w₁, ha, h⟩ := performAll_cons_eq_none_iff.1 h
    rw [ih h, jumps_of_perform ha, List.append_assoc, Action.checksAll_cons,
      List.filterMap_append]
    cases a.check? with
    | none => rfl
    | some c => cases hc : Use.jump? c <;> simp [hc]

end Workspace

/-! ### Programs -/

section Program

variable {s : Source} {base : CUnit} {p : Program}

theorem result_of_error? {before later : List (Located Use)} {c : Located Use} {err : ScopeError}
    (hp : p.IsOf s) (hchecks : p.checks = before ++ c :: later)
    (hbefore : Use.AllAllowed (before.map Located.value))
    (h : c.value.error? (before.map Located.value) = some err) :
    (translateOnto base s).result = .error (.semantic ⟨err, c.location⟩) := by
  obtain ⟨w, hw⟩ := Workspace.performAll_of_error? (Workspace.shows_opened base) p.emits.inner
    (p.emits.checks.trans hchecks) hbefore Use.allAllowed_nil h
  rw [← Workspace.performAll_onto] at hw
  rw [translateOnto, Script.ofSource_eq hp, Translation.ofScript, hw]

/-- A program without violations is carried out, and what comes of it hangs on its jumps. -/
theorem exists_result_of_allAllowed (base : CUnit) (hp : p.IsOf s) (h : Use.AllAllowed p.uses) :
    ∃ w : Workspace, w.scope.Tracks p.uses ∧ w.scope.jumps.reverse = p.jumps ∧
      (translateOnto base s).result = match w.scope.finish with
        | .error e => .error (.semantic e)
        | .ok () => .ok w.output := by
  obtain ⟨w, hw⟩ := (Workspace.exists_performAll_program_iff base p).2 h
  refine ⟨w, (Workspace.shows_of_performAll_program hw).scope, ?_, ?_⟩
  · rw [Workspace.performAll_onto] at hw
    rw [Workspace.jumps_of_performAll hw, p.emits.checks]
    rfl
  · rw [translateOnto, Script.ofSource_eq hp, Translation.ofScript, hw]
    cases hfinish : w.scope.finish <;> simp [hfinish]

theorem result_of_dangling {before later : List Name} {n : Name} (hp : p.IsOf s)
    (h : Use.AllAllowed p.uses) (hjumps : p.jumps = before ++ n :: later)
    (hbefore : ∀ m ∈ before, .label m.value ∈ p.uses) (hn : .label n.value ∉ p.uses) :
    (translateOnto base s).result = .error (.semantic ⟨.danglingGoto n.value, n.location⟩) := by
  obtain ⟨w, hscope, hw, hresult⟩ := exists_result_of_allAllowed base hp h
  have hfind : w.scope.jumps.reverse.find? (fun m => !w.scope.labels.contains m.value) =
      some n := by
    rw [hw, hjumps, List.find?_eq_some_iff_append]
    refine ⟨by simpa using mt hscope.mem_labels.1 hn, before, later, rfl, fun m hm => ?_⟩
    simpa using hscope.mem_labels.2 (hbefore m hm)
  have hfinish : w.scope.finish = .error ⟨.danglingGoto n.value, n.location⟩ := by
    rw [Scope.finish, hfind]
    rfl
  rw [hresult, hfinish]

theorem exists_result_of_declared (hp : p.IsOf s) (h : Use.AllAllowed p.uses)
    (hjumps : ∀ n ∈ p.jumps, .label n.value ∈ p.uses) :
    ∃ u, (translateOnto base s).result = .ok u := by
  obtain ⟨w, hscope, hw, hresult⟩ := exists_result_of_allAllowed base hp h
  have hfinish : w.scope.finish = .ok () := by
    rw [Scope.finish_eq_ok_iff]
    intro n hn
    rw [← List.mem_reverse, hw] at hn
    exact hscope.mem_labels.2 (hjumps n hn)
  rw [hfinish] at hresult
  exact ⟨w.output, hresult⟩

/-- What the result for a program has to be: the first check that fails, if one does, and else the
first jump to a label that is declared nowhere, if there is one. -/
structure Tree.Program.Reports (p : Program) (result : Except Failure CUnit) : Prop where
  /-- The first check that fails is reported at its name. -/
  violation : ∀ before c later err, p.checks = before ++ c :: later →
    Use.AllAllowed (before.map Located.value) →
    c.value.error? (before.map Located.value) = some err →
    result = .error (.semantic ⟨err, c.location⟩)
  /-- If no check fails, the first jump that leads nowhere is reported at its name. -/
  dangling : Use.AllAllowed (p.checks.map Located.value) →
    ∀ before n later, p.jumps = before ++ n :: later →
    (∀ m ∈ before, .label m.value ∈ p.checks.map Located.value) →
    .label n.value ∉ p.checks.map Located.value →
    result = .error (.semantic ⟨.danglingGoto n.value, n.location⟩)
  /-- If every jump leads to a label as well, there is a text. -/
  translated : Use.AllAllowed (p.checks.map Located.value) →
    (∀ n ∈ p.jumps, .label n.value ∈ p.checks.map Located.value) → ∃ u, result = .ok u

/-- **The first violation is reported.**  Let the lexer read a source to its end, and let the kinds
of its tokens be a sentence.  The first check of its derivation that fails is reported at its name;
if none fails, the first jump to a label that is declared nowhere; and if there is no such jump, the
source is translated. -/
theorem reports_first_violation {ts : List (Located Token)} {e : Located Token}
    (hitems : (Lexer.ofSource s).items = (ts ++ [e]).map .ok) (he : e.value.kind = .eof)
    (hts : Sentence (kinds ts)) (base : CUnit) :
    ∃ p : Program, (∀ q : Program, q.tokens = ts ↔ q = p) ∧
      p.Reports (translateOnto base s).result := by
  obtain ⟨p, rfl⟩ := sentence_iff.1 hts
  have hp : p.IsOf s := ⟨e, he, hitems⟩
  refine ⟨p, fun q => ⟨fun hq => Program.tokens_injective hq, fun hq => hq ▸ rfl⟩, ?_, ?_, ?_⟩
  · exact fun before c later err => result_of_error? hp
  · exact fun h before n later => result_of_dangling hp h
  · exact exists_result_of_declared hp

/-- A program in which a jump leads nowhere, a variable without a value is given to a reserved name,
and a label is declared twice. -/
def tangled : Source where
  name := "tangled"
  body := "GOTO nowhere\nLABEL a\nIF 1 < 2 THEN\nLET int = y\nENDIF\nLABEL a\n"

theorem reports_first_violation_tangled :
    ∃ (ts : List (Located Token)) (e : Located Token),
      (Lexer.ofSource tangled).items = (ts ++ [e]).map .ok ∧ e.value.kind = .eof ∧
      Sentence (kinds ts) ∧
      (translateOnto .empty tangled).result =
        .error (.semantic ⟨.undefined "y", ⟨tangled, ⟨4, 11⟩, ⟨4, 12⟩⟩⟩) ∧
      ∃ p : Program, (∀ q : Program, q.tokens = ts ↔ q = p) ∧
        p.Reports (translateOnto .empty tangled).result := by
  obtain ⟨p, e, he, hitems⟩ := Script.exists_isOf (s := tangled) (by decide +kernel)
  exact ⟨p.tokens, e, hitems, he, ⟨p, rfl⟩, by decide +kernel,
    reports_first_violation hitems he ⟨p, rfl⟩ .empty⟩

end Program

end TinyBasic
