import Mathlib.Data.List.Forall2
import TinyBasic.Translation

/-!
# Translations only append

A translation adds to the header and to the body of the unit that it is given, and takes no notice
of what they hold.

* `Workspace.behind`: the workspace with a unit in front of what it has written.  Carrying out an
  action commutes with it (`Action.perform_behind`), and so does carrying out a list of them
  (`Workspace.performAll_behind`).
* `Translation.ofScript_behind`: so a script makes the same records, asks for the same tokens and
  ends the same whatever was written before it.
* `translateEach`: several sources translated into one unit, each of them as if it were alone
  (`translation_only_appends`).
-/

namespace TinyBasic

variable {base u : CUnit}

/-! ### Units -/

namespace CUnit

/-- The text of a unit behind the text of another one, region by region. -/
def append (base u : CUnit) : CUnit := ⟨base.header ++ u.header, base.body ++ u.body⟩

/-- The text of several units one behind the other, region by region. -/
def join (us : List CUnit) : CUnit :=
  ⟨String.join (us.map header), String.join (us.map body)⟩

theorem append_write (base u : CUnit) (code : String) :
    base.append (u.write code) = (base.append u).write code := by
  simp [append, write, String.append_assoc]

theorem append_writeLine (base u : CUnit) (code : String) :
    base.append (u.writeLine code) = (base.append u).writeLine code := by
  simp [append, writeLine, String.append_assoc]

theorem append_headerLine (base u : CUnit) (code : String) :
    base.append (u.headerLine code) = (base.append u).headerLine code := by
  simp [append, headerLine, String.append_assoc]

theorem append_empty (base : CUnit) : base.append empty = base := by
  simp [append, empty]

theorem empty_append (u : CUnit) : empty.append u = u := by
  simp [append, empty]

theorem append_join_nil (base : CUnit) : base.append (join []) = base := by
  simp [append, join]

theorem append_join_cons (base u : CUnit) (us : List CUnit) :
    base.append (join (u :: us)) = (base.append u).append (join us) := by
  simp [append, join, String.append_assoc]

end CUnit

/-! ### Workspaces -/

namespace Workspace

/-- The workspace when what it has written stands behind `base`. -/
def behind (base : CUnit) (w : Workspace) : Workspace := w.mapOutput base.append

theorem onto_eq_behind (base : CUnit) : onto base = (onto .empty).behind base := by
  simp [onto, behind, mapOutput, CUnit.append_empty]

end Workspace

/-- **What an action checks, records and writes** does not depend on what was written before. -/
theorem Action.perform_behind (base : CUnit) (w : Workspace) (a : Action) :
    a.perform (w.behind base) = (a.perform w).map (·.behind base) := by
  have hscope : (w.behind base).scope = w.scope := rfl
  cases a with
  | pull | record c => rfl
  | write code =>
    simp [perform, Except.map, Workspace.behind, Workspace.mapOutput, CUnit.append_write]
  | writeLine code =>
    simp [perform, Except.map, Workspace.behind, Workspace.mapOutput, CUnit.append_writeLine]
  | headerLine code =>
    simp [perform, Except.map, Workspace.behind, Workspace.mapOutput, CUnit.append_headerLine]
  | introduce n =>
    simp only [perform, hscope]
    cases hn : w.scope.introduce n with
    | error e => rfl
    | ok r =>
      obtain ⟨isNew, scope⟩ := r
      cases isNew with
      | false => rfl
      | true =>
        simp [Except.map, Workspace.behind, Workspace.mapOutput, Workspace.note,
          CUnit.append_headerLine]
  | read n =>
    simp only [perform, hscope]
    cases w.scope.read n <;> rfl
  | declare n =>
    simp only [perform, hscope]
    cases w.scope.declare n <;> rfl
  | jump n =>
    simp only [perform, hscope]
    cases w.scope.jump n <;> rfl

namespace Workspace

/-- **What a list of actions does** does not depend on what was written before. -/
theorem performAll_behind (base : CUnit) (w : Workspace) (as : List Action) :
    (w.behind base).performAll as = ((w.performAll as).1.behind base, (w.performAll as).2) := by
  induction as generalizing w with
  | nil => rfl
  | cons a as ih =>
    have hperform := Action.perform_behind base w a
    cases ha : a.perform w with
    | error e =>
      rw [ha] at hperform
      rw [performAll_cons_of_error hperform, performAll_cons_of_error ha]
    | ok w' =>
      rw [ha] at hperform
      rw [performAll_cons_of_ok hperform, performAll_cons_of_ok ha, ih]

end Workspace

/-! ### Translations -/

/-- A script carried out behind a unit. -/
theorem Translation.ofScript_behind (base : CUnit) (script : Script) (w : Workspace) :
    Translation.ofScript script (w.behind base) =
      { Translation.ofScript script w with
        result := (Translation.ofScript script w).result.map base.append } := by
  simp only [Translation.ofScript, Workspace.performAll_behind]
  rcases w.performAll script.actions with ⟨w', _ | e⟩
  · have hscope : (w'.behind base).scope = w'.scope := rfl
    simp only [hscope]
    cases script.ending with
    | error e => rfl
    | ok a => cases w'.scope.finish <;> rfl
  · rfl

theorem translateOnto_eq (base : CUnit) (s : Source) :
    translateOnto base s =
      { translate s with result := (translate s).result.map base.append } := by
  simp only [translate, translateOnto, Workspace.onto_eq_behind base,
    Translation.ofScript_behind]

/-- Translates sources one after the other into one unit, up to the first that fails. -/
def translateEach (base : CUnit) (sources : List Source) : Except Failure CUnit :=
  sources.foldlM (fun u s => (translateOnto u s).result) base

theorem translateEach_cons (base : CUnit) (s : Source) (sources : List Source) :
    translateEach base (s :: sources) =
      (translate s).result >>= fun u => translateEach (base.append u) sources := by
  have hfirst : (translateOnto base s).result = (translate s).result.map base.append := by
    rw [translateOnto_eq]
  simp only [translateEach, List.foldlM_cons, hfirst]
  cases (translate s).result <;> rfl

theorem translateEach_eq_ok_iff {sources : List Source} :
    translateEach base sources = .ok u ↔
      ∃ us, List.Forall₂ (fun s v => (translate s).result = .ok v) sources us ∧
        u = base.append (.join us) := by
  induction sources generalizing base with
  | nil =>
    have hnil : translateEach base [] = .ok base := rfl
    simp [hnil, CUnit.append_join_nil, eq_comm]
  | cons s sources ih =>
    rw [translateEach_cons]
    cases hs : (translate s).result with
    | error e => simp [bind, Except.bind, List.forall₂_cons_left_iff, hs]
    | ok v =>
      refine ih.trans ⟨?_, ?_⟩
      · rintro ⟨us, hus, rfl⟩
        exact ⟨v :: us, .cons hs hus, (CUnit.append_join_cons base v us).symm⟩
      · rintro ⟨vs, hvs, rfl⟩
        obtain ⟨w, us, hw, hus, rfl⟩ := List.forall₂_cons_left_iff.1 hvs
        obtain rfl := Except.ok.inj (hs.symm.trans hw)
        exact ⟨us, hus, CUnit.append_join_cons base v us⟩

theorem translateEach_eq_error_iff {sources : List Source} {f : Failure} :
    translateEach base sources = .error f ↔
      ∃ front s back, sources = front ++ s :: back ∧
        (∀ t ∈ front, ∃ v, (translate t).result = .ok v) ∧ (translate s).result = .error f := by
  induction sources generalizing base with
  | nil =>
    have hnil : translateEach base [] = .ok base := rfl
    simp [hnil]
  | cons s sources ih =>
    rw [translateEach_cons]
    cases hs : (translate s).result with
    | error g =>
      constructor
      · rintro ⟨⟩
        exact ⟨[], s, sources, rfl, by simp, hs⟩
      · rintro ⟨front, t, back, hsplit, hfront, ht⟩
        cases front with
        | nil =>
          obtain ⟨rfl, -⟩ := List.cons.inj hsplit
          exact hs.symm.trans ht
        | cons t' front =>
          -- the first source fails, so it is not among those that are translated
          obtain ⟨rfl, -⟩ := List.cons.inj hsplit
          obtain ⟨v, hv⟩ := hfront s List.mem_cons_self
          cases hs.symm.trans hv
    | ok v =>
      refine ih.trans ⟨?_, ?_⟩
      · rintro ⟨front, t, back, rfl, hfront, ht⟩
        exact ⟨s :: front, t, back, rfl, List.forall_mem_cons.2 ⟨⟨v, hs⟩, hfront⟩, ht⟩
      · rintro ⟨front, t, back, hsplit, hfront, ht⟩
        cases front with
        | nil =>
          obtain ⟨rfl, -⟩ := List.cons.inj hsplit
          cases hs.symm.trans ht
        | cons t' front =>
          obtain ⟨rfl, rfl⟩ := List.cons.inj hsplit
          exact ⟨front, t, back, rfl, (List.forall_mem_cons.1 hfront).2, ht⟩

/-- **A translation only appends**: it makes the same records, asks for the same tokens and ends the
same whatever the unit holds that it adds to, and what it adds to the two regions is what it writes
into an empty unit.  So several sources in turn are translated each as if it were alone, and the
text is that of their headers followed by that of their bodies. -/
theorem translation_only_appends (base : CUnit) (s : Source) (sources : List Source) :
    (translateOnto base s).log = (translate s).log ∧
    (translateOnto base s).pulls = (translate s).pulls ∧
    (∀ u, (translate s).result = .ok u →
      (translateOnto base s).result =
        .ok ⟨base.header ++ u.header, base.body ++ u.body⟩) ∧
    (∀ f, (translate s).result = .error f → (translateOnto base s).result = .error f) ∧
    (∀ u, translateEach base sources = .ok u ↔
      ∃ us, List.Forall₂ (fun t v => (translate t).result = .ok v) sources us ∧
        u.header = base.header ++ String.join (us.map CUnit.header) ∧
        u.body = base.body ++ String.join (us.map CUnit.body)) ∧
    (∀ f, translateEach base sources = .error f ↔
      ∃ front t back, sources = front ++ t :: back ∧
        (∀ t' ∈ front, ∃ v, (translate t').result = .ok v) ∧ (translate t).result = .error f) ∧
    ∀ us, List.Forall₂ (fun t v => (translate t).result = .ok v) sources us →
      ∃ u, translateEach .empty sources = .ok u ∧
        u.text = String.join (us.map CUnit.header) ++ String.join (us.map CUnit.body) := by
  rw [translateOnto_eq]
  refine ⟨rfl, rfl, fun u hu => ?_, fun f hf => ?_, fun u => ?_,
    fun f => translateEach_eq_error_iff, fun us hus => ?_⟩
  · simp [hu, Except.map, CUnit.append]
  · simp [hf, Except.map]
  · rw [translateEach_eq_ok_iff]
    refine exists_congr fun us => and_congr_right fun _ => ?_
    cases u
    simp [CUnit.append, CUnit.join]
  · refine ⟨_, translateEach_eq_ok_iff.2 ⟨us, hus, rfl⟩, ?_⟩
    rw [CUnit.empty_append]
    rfl

end TinyBasic
