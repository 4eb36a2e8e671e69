import Mathlib.Data.List.Induction
import TinyBasic.Action
import TinyBasic.Text.Lines

/-!
# What a program does with its names

The uses of names in the order of the program text decide whether a program is accepted, and they
decide what is declared in the header.

* `Use.Allowed us u`: after the uses `us`, the use `u` passes its check.
* `WellScoped us`: the static rules, stated for a whole program at once.
* `Workspace.Shows`: what a workspace holds after some uses: the scope, the header with its
  declarations, and the body.  Carrying out an action keeps it (`Workspace.Shows.perform`), and so
  does carrying out a list of them (`Workspace.Shows.performAll`).
* `Workspace.exists_performAll_iff`: a list of actions is carried out to its end exactly when each
  use is allowed after those before it.
-/

namespace TinyBasic

/-- What a program does with a name. -/
inductive Use where
  /-- A variable gets a value. -/
  | assign (name : String)
  /-- A variable is read. -/
  | read (name : String)
  /-- A label is declared. -/
  | label (name : String)
  /-- A jump goes to a label. -/
  | goto (name : String)
  deriving DecidableEq

namespace Use

def target? : Use → Option String
  | assign x => some x
  | _ => none

def label? : Use → Option String
  | label x => some x
  | _ => none

def goto? : Use → Option String
  | goto x => some x
  | _ => none

@[simp] theorem target?_eq_some_iff {u : Use} {x : String} : u.target? = some x ↔ u = assign x := by
  cases u <;> simp [target?]

@[simp] theorem label?_eq_some_iff {u : Use} {x : String} : u.label? = some x ↔ u = label x := by
  cases u <;> simp [label?]

@[simp] theorem goto?_eq_some_iff {u : Use} {x : String} : u.goto? = some x ↔ u = goto x := by
  cases u <;> simp [goto?]

/-- The variables that get a value, in order and as often as they do. -/
def targets (us : List Use) : List String := us.filterMap target?

/-- The labels that are declared, in order. -/
def labels (us : List Use) : List String := us.filterMap label?

/-- The labels that are jumped to, in order. -/
def gotos (us : List Use) : List String := us.filterMap goto?

@[simp] theorem mem_targets {us : List Use} {x : String} : x ∈ targets us ↔ assign x ∈ us := by
  simp [targets]

@[simp] theorem mem_labels {us : List Use} {x : String} : x ∈ labels us ↔ label x ∈ us := by
  simp [labels]

@[simp] theorem mem_gotos {us : List Use} {x : String} : x ∈ gotos us ↔ goto x ∈ us := by
  simp [gotos]

@[simp] theorem targets_nil : targets [] = [] := rfl

@[simp] theorem labels_nil : labels [] = [] := rfl

@[simp] theorem gotos_nil : gotos [] = [] := rfl

@[simp] theorem targets_cons (u : Use) (us : List Use) :
    targets (u :: us) = u.target?.toList ++ targets us := by
  cases u <;> rfl

@[simp] theorem labels_cons (u : Use) (us : List Use) :
    labels (u :: us) = u.label?.toList ++ labels us := by
  cases u <;> rfl

@[simp] theorem gotos_cons (u : Use) (us : List Use) :
    gotos (u :: us) = u.goto?.toList ++ gotos us := by
  cases u <;> rfl

@[simp] theorem targets_append (us vs : List Use) :
    targets (us ++ vs) = targets us ++ targets vs :=
  List.filterMap_append

@[simp] theorem labels_append (us vs : List Use) : labels (us ++ vs) = labels us ++ labels vs :=
  List.filterMap_append

@[simp] theorem gotos_append (us vs : List Use) : gotos (us ++ vs) = gotos us ++ gotos vs :=
  List.filterMap_append

/-- A variable that gets a value is new unless it got one before. -/
theorem eraseDups_targets_append (us : List Use) (x : String) :
    (targets (us ++ [assign x])).eraseDups =
      (targets us).eraseDups ++ if assign x ∈ us then [] else [x] := by
  have htargets : targets [assign x] = [x] := rfl
  rw [targets_append, htargets, List.eraseDups_append]
  congr 1
  by_cases hx : assign x ∈ us
  · simp [List.removeAll, hx]
  · simp [List.removeAll, hx, List.eraseDups_cons]

/-- After the uses `us`, the use passes its check. -/
def Allowed (us : List Use) : Use → Prop
  | assign x => x ∉ Reserved.words ∧ x ∉ Reserved.functions
  | read x => assign x ∈ us
  | label x => x ∉ Reserved.words ∧ label x ∉ us
  | goto x => x ∉ Reserved.words

end Use

/-- **The static rules** for the uses of names of a whole program, in the order of its text. -/
structure WellScoped (us : List Use) : Prop where
  /-- A variable is read only after it got a value. -/
  read : ∀ before x later, us = before ++ .read x :: later → .assign x ∈ before
  /-- No variable has a name that the generated text takes. -/
  target : ∀ x, .assign x ∈ us → x ∉ Reserved.words ∧ x ∉ Reserved.functions
  /-- No label that is declared has a name that C takes. -/
  label : ∀ x, .label x ∈ us → x ∉ Reserved.words
  /-- No label that is jumped to has a name that C takes. -/
  goto : ∀ x, .goto x ∈ us → x ∉ Reserved.words
  /-- No label is declared twice. -/
  nodup : (Use.labels us).Nodup
  /-- Every label that is jumped to is declared, before or after. -/
  declared : ∀ x, .goto x ∈ us → .label x ∈ us

namespace Use

variable {us : List Use}

/-- Each use is allowed after those in front of it. -/
def AllAllowed (us : List Use) : Prop :=
  ∀ before u later, us = before ++ u :: later → Allowed before u

theorem allAllowed_nil : AllAllowed [] := by
  intro before u later h
  simp at h

theorem allAllowed_append_iff (us : List Use) (u : Use) :
    AllAllowed (us ++ [u]) ↔ AllAllowed us ∧ Allowed us u := by
  constructor
  · intro h
    refine ⟨fun before v later hv => h before v (later ++ [u]) (by simp [hv]), ?_⟩
    exact h us u [] rfl
  · rintro ⟨h, hu⟩ before v later hv
    rcases List.eq_nil_or_concat later with rfl | ⟨later, x, rfl⟩
    · obtain ⟨rfl, hvu⟩ := List.append_inj' hv rfl
      obtain rfl := List.singleton_inj.1 hvu
      exact hu
    · rw [List.concat_eq_append, ← List.cons_append, ← List.append_assoc] at hv
      exact h before v later (List.append_inj' hv rfl).1

end Use

theorem wellScoped_iff {us : List Use} :
    WellScoped us ↔ Use.AllAllowed us ∧ ∀ x, Use.goto x ∈ us → Use.label x ∈ us := by
  constructor
  · intro h
    refine ⟨?_, h.declared⟩
    rintro before u later rfl
    cases u with
    | assign x => exact h.target x (by simp)
    | read x => exact h.read before x later rfl
    | label x =>
      refine ⟨h.label x (by simp), fun hx => ?_⟩
      have := h.nodup
      simp only [Use.labels, List.filterMap_append, List.nodup_append] at this
      exact this.2.2 x (Use.mem_labels.2 hx) x (by simp [Use.label?]) rfl
    | goto x => exact h.goto x (by simp)
  · rintro ⟨h, hdeclared⟩
    have split : ∀ {u : Use}, u ∈ us → ∃ before, Use.Allowed before u := fun hu => by
      obtain ⟨before, later, rfl⟩ := List.append_of_mem hu
      exact ⟨before, h before _ later rfl⟩
    refine ⟨fun before x later hx => h before _ later hx, fun x hx => ?_, fun x hx => ?_,
      fun x hx => ?_, ?_, hdeclared⟩
    · exact (split hx).elim fun _ hu => hu
    · exact (split hx).elim fun _ hu => hu.1
    · exact (split hx).elim fun _ hu => hu
    · -- a label that is declared twice would not have been allowed the second time
      clear hdeclared split
      induction us using List.reverseRecOn with
      | nil => exact List.nodup_nil
      | append_singleton us u ih =>
        obtain ⟨hus, hu⟩ := (Use.allAllowed_append_iff us u).1 h
        simp only [Use.labels, List.filterMap_append]
        refine List.nodup_append.2 ⟨ih hus, ?_, ?_⟩
        · cases hl : u.label? <;> simp [hl]
        · rintro x hx y hy rfl
          obtain rfl : u = .label x := by simpa using hy
          exact hu.2 (Use.mem_labels.1 hx)

/-! ### Scopes -/

/-- The scope after the uses `us`. -/
structure Scope.Tracks (s : Scope) (us : List Use) : Prop where
  assigned : s.assigned.reverse = (Use.targets us).eraseDups
  labels : s.labels.reverse = Use.labels us
  jumps : s.jumps.reverse.map Located.value = Use.gotos us

namespace Scope

variable {s s' : Scope} {us : List Use} {n : Name} {e : Located ScopeError}

theorem tracks_empty : empty.Tracks [] := ⟨rfl, rfl, rfl⟩

theorem Tracks.mem_assigned (h : s.Tracks us) {x : String} : x ∈ s.assigned ↔ .assign x ∈ us := by
  rw [← List.mem_reverse, h.assigned, List.mem_eraseDups, Use.mem_targets]

theorem Tracks.mem_labels (h : s.Tracks us) {x : String} : x ∈ s.labels ↔ .label x ∈ us := by
  rw [← List.mem_reverse, h.labels, Use.mem_labels]

/-- A variable gets a value. -/
theorem Tracks.assign (h : s.Tracks us) (x : String) :
    (if x ∈ s.assigned then s else { s with assigned := x :: s.assigned }).Tracks
      (us ++ [.assign x]) := by
  have hdistinct := Use.eraseDups_targets_append us x
  by_cases hx : x ∈ s.assigned
  · -- a variable that has a value keeps its place among the variables
    rw [if_pos (h.mem_assigned.1 hx), List.append_nil, ← h.assigned] at hdistinct
    rw [if_pos hx]
    refine ⟨hdistinct.symm, ?_, ?_⟩
    · simp [h.labels, Use.label?]
    · simp [h.jumps, Use.goto?]
  · rw [if_neg (mt h.mem_assigned.2 hx), ← h.assigned] at hdistinct
    rw [if_neg hx]
    refine ⟨?_, ?_, ?_⟩
    · rw [hdistinct, List.reverse_cons]
    · simp [h.labels, Use.label?]
    · simp [h.jumps, Use.goto?]

theorem Tracks.read (h : s.Tracks us) (x : String) : s.Tracks (us ++ [.read x]) := by
  obtain ⟨hassigned, hlabels, hjumps⟩ := h
  refine ⟨?_, ?_, ?_⟩
  · simp [hassigned, Use.target?]
  · simp [hlabels, Use.label?]
  · simp [hjumps, Use.goto?]

theorem Tracks.label (h : s.Tracks us) (x : String) :
    Tracks { s with labels := x :: s.labels } (us ++ [Use.label x]) := by
  obtain ⟨hassigned, hlabels, hjumps⟩ := h
  refine ⟨?_, ?_, ?_⟩
  · simp [hassigned, Use.target?]
  · simp [hlabels, Use.label?]
  · simp [hjumps, Use.goto?]

theorem Tracks.goto (h : s.Tracks us) (n : Name) :
    Tracks { s with jumps := n :: s.jumps } (us ++ [.goto n.value]) := by
  obtain ⟨hassigned, hlabels, hjumps⟩ := h
  refine ⟨?_, ?_, ?_⟩
  · simp [hassigned, Use.target?]
  · simp [hlabels, Use.label?]
  · simp [← hjumps, Use.goto?]

theorem introduce_eq_ok_iff {r : Bool × Scope} :
    s.introduce n = .ok r ↔ (n.value ∉ Reserved.words ∧ n.value ∉ Reserved.functions) ∧
      r = if n.value ∈ s.assigned then (false, s)
        else (true, { s with assigned := n.value :: s.assigned }) := by
  unfold introduce failure
  by_cases h : Reserved.forVariable n.value = true
  · rw [if_pos h]
    simp only [reduceCtorEq, false_iff]
    rintro ⟨hn, -⟩
    simp [Reserved.forVariable, hn] at h
  · rw [if_neg h]
    have hn : n.value ∉ Reserved.words ∧ n.value ∉ Reserved.functions := by
      simpa [Reserved.forVariable] using h
    by_cases hs : n.value ∈ s.assigned <;> simp [hn, hs, eq_comm]

theorem read_eq_ok_iff : s.read n = .ok () ↔ n.value ∈ s.assigned := by
  unfold read failure
  by_cases hs : n.value ∈ s.assigned <;> simp [hs]

theorem declare_eq_ok_iff :
    s.declare n = .ok s' ↔ (n.value ∉ Reserved.words ∧ n.value ∉ s.labels) ∧
      s' = { s with labels := n.value :: s.labels } := by
  unfold declare failure Reserved.forLabel
  by_cases hw : n.value ∈ Reserved.words
  · simp [hw]
  · by_cases hs : n.value ∈ s.labels <;> simp [hw, hs, eq_comm]

theorem jump_eq_ok_iff :
    s.jump n = .ok s' ↔ n.value ∉ Reserved.words ∧ s' = { s with jumps := n :: s.jumps } := by
  unfold jump failure Reserved.forLabel
  by_cases hw : n.value ∈ Reserved.words <;> simp [hw, eq_comm]

theorem error_of_introduce (h : s.introduce n = .error e) : e = n.map .reserved := by
  unfold introduce at h
  split at h
  · exact (Except.error.inj h).symm
  · split at h <;> cases h

theorem error_of_read (h : s.read n = .error e) : e = n.map .undefined := by
  unfold read at h
  split at h
  · cases h
  · exact (Except.error.inj h).symm

theorem error_of_declare (h : s.declare n = .error e) :
    e = n.map .reserved ∨ e = n.map .duplicateLabel := by
  unfold declare at h
  split at h
  · exact .inl (Except.error.inj h).symm
  · split at h
    · exact .inr (Except.error.inj h).symm
    · cases h

theorem error_of_jump (h : s.jump n = .error e) : e = n.map .reserved := by
  unfold jump at h
  split at h
  · exact (Except.error.inj h).symm
  · cases h

/-- **All jumps are settled when every label that is jumped to is declared.** -/
theorem Tracks.finish_eq_ok_iff (h : s.Tracks us) :
    s.finish = .ok () ↔ ∀ x, .goto x ∈ us → Use.label x ∈ us := by
  have hjumps : ∀ x, .goto x ∈ us ↔ ∃ n ∈ s.jumps, n.value = x := fun x => by
    rw [← Use.mem_gotos, ← h.jumps]
    simp
  rw [Scope.finish_eq_ok_iff]
  constructor
  · intro hall x hx
    obtain ⟨n, hn, rfl⟩ := (hjumps x).1 hx
    exact h.mem_labels.1 (hall n hn)
  · intro hall n hn
    exact h.mem_labels.2 (hall _ ((hjumps _).2 ⟨n, hn, rfl⟩))

end Scope

/-! ### Actions -/

namespace Action

/-- The use of a name that an action checks, at the place of the name. -/
def check? : Action → Option (Located Use)
  | .introduce n => some (n.map .assign)
  | .read n => some (n.map .read)
  | .declare n => some (n.map .label)
  | .jump n => some (n.map .goto)
  | _ => none

/-- The use of a name that an action checks. -/
def use? (a : Action) : Option Use := a.check?.map Located.value

/-- The text that an action adds to the body. -/
def written : Action → String
  | .write code => code
  | .writeLine code => code ++ "\n"
  | _ => ""

/-- Whether an action adds a line of its own to the header. -/
def isHeaderLine : Action → Bool
  | .headerLine _ => true
  | _ => false

/-- The uses of names that a list of actions checks, in order and each at its place. -/
def checksAll (as : List Action) : List (Located Use) := as.filterMap check?

/-- The uses of names that a list of actions checks, in order. -/
def usesAll (as : List Action) : List Use := (checksAll as).map Located.value

/-- The text that a list of actions adds to the body. -/
def writtenAll (as : List Action) : String := String.join (as.map written)

@[simp] theorem checksAll_nil : checksAll [] = [] := rfl

@[simp] theorem usesAll_nil : usesAll [] = [] := rfl

@[simp] theorem writtenAll_nil : writtenAll [] = "" := by simp [writtenAll]

@[simp] theorem checksAll_cons (a : Action) (as : List Action) :
    checksAll (a :: as) = a.check?.toList ++ checksAll as := by
  rw [checksAll, List.filterMap_cons]
  cases a.check? <;> rfl

@[simp] theorem usesAll_cons (a : Action) (as : List Action) :
    usesAll (a :: as) = a.use?.toList ++ usesAll as := by
  rw [usesAll, checksAll_cons, use?]
  cases a.check? <;> rfl

@[simp] theorem writtenAll_cons (a : Action) (as : List Action) :
    writtenAll (a :: as) = a.written ++ writtenAll as := by
  simp [writtenAll]

@[simp] theorem checksAll_append (as bs : List Action) :
    checksAll (as ++ bs) = checksAll as ++ checksAll bs :=
  List.filterMap_append

@[simp] theorem usesAll_append (as bs : List Action) :
    usesAll (as ++ bs) = usesAll as ++ usesAll bs := by
  simp [usesAll]

@[simp] theorem writtenAll_append (as bs : List Action) :
    writtenAll (as ++ bs) = writtenAll as ++ writtenAll bs := by
  simp [writtenAll]

end Action

/-- The line of the header that declares a variable. -/
def declaration (x : String) : String := "float " ++ x ++ ";"

namespace Workspace

variable {w w' : Workspace} {base : CUnit} {opening : List String} {us : List Use} {code : String}
  {a : Action} {as : List Action} {e : Located ScopeError}

/-- What a workspace that began with `base` holds after the uses `us`: they are in its scope, the
header has the lines `opening` and a declaration of each variable in the order in which they first
got a value, and `code` was added to the body. -/
structure Shows (w : Workspace) (base : CUnit) (opening : List String) (us : List Use)
    (code : String) : Prop where
  scope : w.scope.Tracks us
  header : w.output.header =
    base.header ++ unlines (opening ++ (Use.targets us).eraseDups.map declaration)
  body : w.output.body = base.body ++ code

theorem map_eq_ok_iff {ε α β : Type} {f : α → β} {x : Except ε α} {b : β} :
    x.map f = .ok b ↔ ∃ a, x = .ok a ∧ b = f a := by
  cases x with
  | error e => simp [Except.map]
  | ok a => simp [Except.map, eq_comm]

theorem map_eq_error_iff {ε α β : Type} {f : α → β} {x : Except ε α} {e : ε} :
    x.map f = .error e ↔ x = .error e := by
  cases x <;> simp [Except.map]

theorem perform_introduce_eq_ok_iff {n : Name} :
    (Action.introduce n).perform w = .ok w' ↔
      (n.value ∉ Reserved.words ∧ n.value ∉ Reserved.functions) ∧
        w' = if n.value ∈ w.scope.assigned then w
          else ({ w with scope := { w.scope with assigned := n.value :: w.scope.assigned } }.note
            .debug s!"Variable `{n.value}` introduced at {n.location}").mapOutput
              (·.headerLine (declaration n.value)) := by
  have hscope := @Scope.introduce_eq_ok_iff w.scope n
  cases hi : w.scope.introduce n with
  | error e =>
    simp only [hi, reduceCtorEq, false_iff] at hscope
    simp only [Action.perform, hi, reduceCtorEq, false_iff]
    exact fun h => hscope ⟨h.1, rfl⟩
  | ok r =>
    obtain ⟨hn, rfl⟩ := hscope.1 hi
    by_cases hs : n.value ∈ w.scope.assigned
    · rw [if_pos hs] at hi
      simp only [Action.perform, hi, if_pos hs, Except.ok.injEq]
      exact ⟨fun h => ⟨hn, h.symm⟩, fun h => h.2.symm⟩
    · rw [if_neg hs] at hi
      simp only [Action.perform, hi, if_neg hs, Except.ok.injEq]
      exact ⟨fun h => ⟨hn, h.symm⟩, fun h => h.2.symm⟩

theorem perform_read_eq_ok_iff {n : Name} :
    (Action.read n).perform w = .ok w' ↔ n.value ∈ w.scope.assigned ∧ w' = w := by
  refine map_eq_ok_iff.trans ?_
  constructor
  · rintro ⟨⟨⟩, h, rfl⟩
    exact ⟨Scope.read_eq_ok_iff.1 h, rfl⟩
  · rintro ⟨h, rfl⟩
    exact ⟨(), Scope.read_eq_ok_iff.2 h, rfl⟩

theorem perform_declare_eq_ok_iff {n : Name} :
    (Action.declare n).perform w = .ok w' ↔
      (n.value ∉ Reserved.words ∧ n.value ∉ w.scope.labels) ∧
        w' = { w with scope := { w.scope with labels := n.value :: w.scope.labels } }.note
          .debug s!"Label `{n.value}` declared at {n.location}" := by
  refine map_eq_ok_iff.trans ?_
  simp [Scope.declare_eq_ok_iff, and_assoc]

theorem perform_jump_eq_ok_iff {n : Name} :
    (Action.jump n).perform w = .ok w' ↔
      n.value ∉ Reserved.words ∧
        w' = { w with scope := { w.scope with jumps := n :: w.scope.jumps } } := by
  refine map_eq_ok_iff.trans ?_
  simp [Scope.jump_eq_ok_iff, and_assoc]

/-- **An action is carried out exactly when its use of a name is allowed.** -/
theorem exists_perform_iff (hw : w.scope.Tracks us) :
    (∃ w', a.perform w = .ok w') ↔ ∀ u ∈ a.use?, u.Allowed us := by
  cases a with
  | pull | record | write | writeLine | headerLine =>
    simp [Action.perform, Action.use?, Action.check?]
  | introduce n => simp [perform_introduce_eq_ok_iff, Action.use?, Action.check?, Use.Allowed]
  | read n =>
    simp [perform_read_eq_ok_iff, Action.use?, Action.check?, Use.Allowed, hw.mem_assigned]
  | declare n =>
    simp [perform_declare_eq_ok_iff, Action.use?, Action.check?, Use.Allowed, hw.mem_labels]
  | jump n => simp [perform_jump_eq_ok_iff, Action.use?, Action.check?, Use.Allowed]

/-- **An action that is carried out** adds its use to the scope and its text to the body, and
declares a variable where it first gets a value. -/
theorem Shows.perform (hw : w.Shows base opening us code) (ha : a.isHeaderLine = false)
    (h : a.perform w = .ok w') :
    w'.Shows base opening (us ++ a.use?.toList) (code ++ a.written) := by
  obtain ⟨hscope, hheader, hbody⟩ := hw
  cases a with
  | headerLine code => cases ha
  | pull | record =>
    obtain rfl := Except.ok.inj h
    simp only [Action.use?, Action.check?, Action.written, Option.map_none, Option.toList_none,
      List.append_nil, String.append_empty]
    exact ⟨hscope, hheader, hbody⟩
  | write c | writeLine c =>
    obtain rfl := Except.ok.inj h
    simp only [Action.use?, Action.check?, Option.map_none, Option.toList_none, List.append_nil]
    refine ⟨hscope, hheader, ?_⟩
    simp [mapOutput, CUnit.write, CUnit.writeLine, hbody, Action.written, String.append_assoc]
  | introduce n =>
    -- a line is added to the header exactly when the variable is new among the targets
    obtain ⟨-, rfl⟩ := perform_introduce_eq_ok_iff.1 h
    have hassign := hscope.assign n.value
    have hdistinct := Use.eraseDups_targets_append us n.value
    by_cases hn : n.value ∈ w.scope.assigned
    · rw [if_pos hn] at hassign ⊢
      rw [if_pos (hscope.mem_assigned.1 hn), List.append_nil] at hdistinct
      refine ⟨hassign, hheader.trans ?_, hbody.trans (by simp [Action.written])⟩
      rw [← hdistinct]
      rfl
    · rw [if_neg hn] at hassign ⊢
      rw [if_neg (mt hscope.mem_assigned.2 hn)] at hdistinct
      refine ⟨hassign, ?_, hbody.trans (by simp [Action.written])⟩
      simp only [Action.use?, Action.check?, Option.map_some, Located.map_value, Option.toList_some,
        hdistinct, mapOutput, note, CUnit.headerLine, hheader]
      simp [String.append_assoc]
  | read n =>
    obtain ⟨-, rfl⟩ := perform_read_eq_ok_iff.1 h
    exact ⟨hscope.read n.value, hheader.trans (by simp [Action.use?, Action.check?, Use.target?]),
      hbody.trans (by simp [Action.written])⟩
  | declare n =>
    obtain ⟨-, rfl⟩ := perform_declare_eq_ok_iff.1 h
    exact ⟨hscope.label n.value, hheader.trans (by simp [Action.use?, Action.check?, Use.target?]),
      hbody.trans (by simp [Action.written])⟩
  | jump n =>
    obtain ⟨-, rfl⟩ := perform_jump_eq_ok_iff.1 h
    exact ⟨hscope.goto n, hheader.trans (by simp [Action.use?, Action.check?, Use.target?]),
      hbody.trans (by simp [Action.written])⟩

theorem performAll_cons_eq_none_iff :
    w.performAll (a :: as) = (w', none) ↔
      ∃ w₁, a.perform w = .ok w₁ ∧ w₁.performAll as = (w', none) := by
  cases ha : a.perform w with
  | error e => simp [performAll_cons_of_error ha]
  | ok w₁ => simp [performAll_cons_of_ok ha]

/-- **What was carried out before the action that failed.** -/
theorem exists_of_performAll_error (h : w.performAll as = (w', some e)) :
    ∃ front a back, as = front ++ a :: back ∧ w.performAll front = (w', none) ∧
      a.perform w' = .error e := by
  induction as generalizing w with
  | nil => cases h
  | cons a as ih =>
    cases ha : a.perform w with
    | error e' =>
      rw [performAll_cons_of_error ha] at h
      obtain ⟨rfl, he⟩ := Prod.mk.inj h
      exact ⟨[], a, as, rfl, rfl, by rw [ha, Option.some.inj he]⟩
    | ok w₁ =>
      rw [performAll_cons_of_ok ha] at h
      obtain ⟨front, b, back, rfl, hfront, hb⟩ := ih h
      exact ⟨a :: front, b, back, rfl, performAll_cons_eq_none_iff.2 ⟨w₁, ha, hfront⟩, hb⟩

/-- **A list of actions that is carried out to its end** keeps what the workspace shows. -/
theorem Shows.performAll (hw : w.Shows base opening us code)
    (has : ∀ a ∈ as, a.isHeaderLine = false) (h : w.performAll as = (w', none)) :
    w'.Shows base opening (us ++ Action.usesAll as) (code ++ Action.writtenAll as) := by
  induction as generalizing w us code with
  | nil =>
    obtain rfl : w = w' := (Prod.mk.inj h).1
    simpa using hw
  | cons a as ih =>
    obtain ⟨w₁, ha, h⟩ := performAll_cons_eq_none_iff.1 h
    have hw₁ := hw.perform (has a List.mem_cons_self) ha
    have := ih hw₁ (fun b hb => has b (List.mem_cons_of_mem a hb)) h
    simpa [String.append_assoc] using this

/-- **A list of actions is carried out to its end exactly when every use is allowed** after the
uses before it. -/
theorem exists_performAll_iff (hw : w.Shows base opening us code)
    (has : ∀ a ∈ as, a.isHeaderLine = false) (hus : Use.AllAllowed us) :
    (∃ w', w.performAll as = (w', none)) ↔ Use.AllAllowed (us ++ Action.usesAll as) := by
  induction as generalizing w us code with
  | nil => simpa using hus
  | cons a as ih =>
    have hperform := exists_perform_iff (a := a) hw.scope
    cases ha : a.perform w with
    | error e =>
      -- the use that fails is not allowed, whatever comes after it
      simp only [ha, reduceCtorEq, exists_false, false_iff] at hperform
      simp only [performAll_cons_of_error ha, Prod.mk.injEq, reduceCtorEq, and_false, exists_false,
        false_iff]
      cases hu : a.use? with
      | none => simp [hu] at hperform
      | some u =>
        simp only [hu, Option.mem_some_iff, forall_eq'] at hperform
        exact fun h => hperform (h us u (Action.usesAll as) (by simp [hu]))
    | ok w₁ =>
      have hallowed := hperform.1 ⟨w₁, ha⟩
      have hus₁ : Use.AllAllowed (us ++ a.use?.toList) := by
        cases hu : a.use? with
        | none => simpa using hus
        | some u => exact (Use.allAllowed_append_iff us u).2 ⟨hus, hallowed u hu⟩
      rw [performAll_cons_of_ok ha, Action.usesAll_cons, ← List.append_assoc]
      exact ih (hw.perform (has a List.mem_cons_self) ha)
        (fun b hb => has b (List.mem_cons_of_mem a hb)) hus₁

end Workspace

end TinyBasic
