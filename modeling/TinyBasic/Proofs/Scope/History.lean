import TinyBasic.Scope

/-!
# A scope and the calls made on it

A program uses its scope one call after the other, and a call that fails does not end the others.
A `Scope.History` is what was called and what was answered; it is all that one can see of a scope.

* `Scope.call`: one call, with its answer and the scope it leaves; `Scope.record`: the history of
  a list of calls.
* `Scope.History.answer`: the answer to a call, in terms of the calls and answers before it.
* `Scope.Remembers`: the scope holds what succeeded in a history.  Each call keeps it
  (`Scope.Remembers.call`), and so does a list of them (`Scope.Remembers.record`).
* `Scope.SameIn`: two scopes hold the same names of one name space.  A call of that name space
  answers the same in both (`Scope.SameIn.call`), a call of the other one changes nothing there
  (`Scope.sameIn_call`).
-/

namespace TinyBasic

namespace Scope

/-- What can be asked of a scope while a program is read. -/
inductive Operation where
  | introduce
  | read
  | declare
  | jump
  deriving DecidableEq

/-- Variables and labels have a name space each. -/
inductive NameSpace where
  /-- The names of the variables, which have values. -/
  | values
  /-- The names of the labels. -/
  | labels
  deriving DecidableEq

/-- The name space of the names that an operation is about. -/
def Operation.space : Operation → NameSpace
  | .introduce | .read => .values
  | .declare | .jump => .labels

/-- An operation on a name. -/
structure Call where
  /-- The operation. -/
  operation : Operation
  /-- The name it is given. -/
  name : Name

/-- The name space of a call. -/
abbrev Call.space (c : Call) : NameSpace := c.operation.space

/-- What a call answers.  Only an introduction has something to say, which is whether the name is
new. -/
abbrev Answer := Except (Located ScopeError) (Option Bool)

@[simp] theorem isOk_ok (r : Option Bool) : (.ok r : Answer).isOk = true := rfl

@[simp] theorem isOk_error (e : Located ScopeError) : (.error e : Answer).isOk = false := rfl

/-- The answer of an operation and the scope it leaves, which is the old one after a failure. -/
def keep (s : Scope) : Except (Located ScopeError) (Option Bool × Scope) → Answer × Scope
  | .ok (isNew, s') => (.ok isNew, s')
  | .error e => (.error e, s)

/-- Makes a call. -/
def call (s : Scope) (c : Call) : Answer × Scope :=
  match c.operation with
  | .introduce => s.keep ((s.introduce c.name).map fun r => (some r.1, r.2))
  | .read => s.keep ((s.read c.name).map fun _ => (none, s))
  | .declare => s.keep ((s.declare c.name).map fun s' => (none, s'))
  | .jump => s.keep ((s.jump c.name).map fun s' => (none, s'))

/-- The scope that a list of calls leaves. -/
def after (s : Scope) : List Call → Scope
  | [] => s
  | c :: cs => (s.call c).2.after cs

/-- Calls with their answers, the earliest first. -/
abbrev History := List (Call × Answer)

/-- The history of a list of calls. -/
def record (s : Scope) : List Call → History
  | [] => []
  | c :: cs => (c, (s.call c).1) :: (s.call c).2.record cs

@[simp] theorem after_nil (s : Scope) : s.after [] = s := rfl

@[simp] theorem after_cons (s : Scope) (c : Call) (cs : List Call) :
    s.after (c :: cs) = (s.call c).2.after cs :=
  rfl

@[simp] theorem record_nil (s : Scope) : s.record [] = [] := rfl

@[simp] theorem record_cons (s : Scope) (c : Call) (cs : List Call) :
    s.record (c :: cs) = (c, (s.call c).1) :: (s.call c).2.record cs :=
  rfl

@[simp] theorem after_append (s : Scope) (cs ds : List Call) :
    s.after (cs ++ ds) = (s.after cs).after ds := by
  induction cs generalizing s with
  | nil => rfl
  | cons c cs ih => exact ih _

@[simp] theorem record_append (s : Scope) (cs ds : List Call) :
    s.record (cs ++ ds) = s.record cs ++ (s.after cs).record ds := by
  induction cs generalizing s with
  | nil => rfl
  | cons c cs ih => simp [ih]

namespace History

/-- The operation was called on the name. -/
def asked (past : History) (o : Operation) (x : String) : Bool :=
  past.any fun r => r.1.operation = o && r.1.name.value = x

/-- The operation succeeded on the name. -/
def done (past : History) (o : Operation) (x : String) : Bool :=
  past.any fun r => r.1.operation = o && r.1.name.value = x && r.2.isOk

/-- The jumps that were recorded. -/
def jumps (past : History) : List Name :=
  (past.filter fun r => r.1.operation = .jump && r.2.isOk).map fun r => r.1.name

/-- **The answer to a call, given those before it.** -/
def answer (past : History) (c : Call) : Answer :=
  match c.operation with
  | .introduce =>
    if c.name.value ∈ Reserved.words ∨ c.name.value ∈ Reserved.functions then
      .error (c.name.map .reserved)
    else .ok (some !past.asked .introduce c.name.value)
  | .read =>
    if past.done .introduce c.name.value then .ok none else .error (c.name.map .undefined)
  | .declare =>
    if c.name.value ∈ Reserved.words then .error (c.name.map .reserved)
    else if past.done .declare c.name.value then .error (c.name.map .duplicateLabel)
    else .ok none
  | .jump => if c.name.value ∈ Reserved.words then .error (c.name.map .reserved) else .ok none

variable (past : History) (c : Call) (a : Answer)

theorem asked_concat (o : Operation) (x : String) :
    asked (past ++ [(c, a)]) o x =
      (past.asked o x || (c.operation = o && c.name.value = x : Bool)) := by
  simp [asked]

theorem done_concat (o : Operation) (x : String) :
    done (past ++ [(c, a)]) o x =
      (past.done o x || (c.operation = o && c.name.value = x && a.isOk : Bool)) := by
  simp [done]

theorem jumps_concat :
    jumps (past ++ [(c, a)]) =
      past.jumps ++ if c.operation = .jump && a.isOk then [c.name] else [] := by
  by_cases h : (c.operation = .jump && a.isOk : Bool) <;> simp [jumps, h]

variable {past c} {e : Located ScopeError}

/-- An error is about the name of the call, and located there. -/
theorem error_of_answer (h : past.answer c = .error e) :
    e.value ∈ [.reserved c.name.value, .undefined c.name.value, .duplicateLabel c.name.value] ∧
      e.location = c.name.location := by
  obtain ⟨o, n⟩ := c
  cases o with
  | introduce | read | jump =>
    simp only [answer] at h
    split at h <;> cases h
    simp
  | declare =>
    simp only [answer] at h
    split at h
    · cases h
      simp
    · split at h <;> cases h
      simp

end History

/-! ### What a call does -/

variable {s t : Scope} {past : History} {c : Call} {cs : List Call} {n : Name} {k : NameSpace}
  {e : Located ScopeError}

theorem call_introduce (s : Scope) (n : Name) :
    s.call ⟨.introduce, n⟩ =
      if n.value ∈ Reserved.words ∨ n.value ∈ Reserved.functions then
        (.error (n.map .reserved), s)
      else if n.value ∈ s.assigned then (.ok (some false), s)
      else (.ok (some true), { s with assigned := n.value :: s.assigned }) := by
  have hreserved : Reserved.forVariable n.value = true ↔
      n.value ∈ Reserved.words ∨ n.value ∈ Reserved.functions := by
    simp [Reserved.forVariable]
  simp only [call, introduce, failure, hreserved, List.contains_iff_mem]
  split
  · rfl
  · split <;> rfl

theorem call_read (s : Scope) (n : Name) :
    s.call ⟨.read, n⟩ =
      if n.value ∈ s.assigned then (.ok none, s) else (.error (n.map .undefined), s) := by
  simp only [call, read, failure, List.contains_iff_mem]
  split <;> rfl

theorem call_declare (s : Scope) (n : Name) :
    s.call ⟨.declare, n⟩ =
      if n.value ∈ Reserved.words then (.error (n.map .reserved), s)
      else if n.value ∈ s.labels then (.error (n.map .duplicateLabel), s)
      else (.ok none, { s with labels := n.value :: s.labels }) := by
  simp only [call, declare, failure, Reserved.forLabel, List.contains_iff_mem]
  split
  · rfl
  · split <;> rfl

theorem call_jump (s : Scope) (n : Name) :
    s.call ⟨.jump, n⟩ =
      if n.value ∈ Reserved.words then (.error (n.map .reserved), s)
      else (.ok none, { s with jumps := n :: s.jumps }) := by
  simp only [call, jump, failure, Reserved.forLabel, List.contains_iff_mem]
  split <;> rfl

theorem keep_of_error {r : Except (Located ScopeError) (Option Bool × Scope)}
    (h : (s.keep r).1 = .error e) : (s.keep r).2 = s := by
  cases r with
  | ok r => cases h
  | error e' => rfl

/-- **A call that fails leaves the scope as it was.** -/
theorem call_of_error (h : (s.call c).1 = .error e) : (s.call c).2 = s := by
  obtain ⟨o, n⟩ := c
  cases o <;> exact keep_of_error h

/-! ### What a scope remembers -/

/-- A scope holds the names that succeeded in a history. -/
structure Remembers (s : Scope) (past : History) : Prop where
  assigned : ∀ x, x ∈ s.assigned ↔ past.done .introduce x
  /-- Only a reserved name can be introduced without success. -/
  introduced : ∀ x, x ∉ Reserved.words → x ∉ Reserved.functions →
    past.asked .introduce x = past.done .introduce x
  labels : ∀ x, x ∈ s.labels ↔ past.done .declare x
  jumps : s.jumps.reverse = past.jumps

theorem remembers_empty : empty.Remembers [] :=
  ⟨by simp [empty, History.done], fun _ _ _ => rfl, by simp [empty, History.done], rfl⟩

/-- **The answer to a call follows from the history.** -/
theorem Remembers.answer (h : s.Remembers past) (c : Call) : (s.call c).1 = past.answer c := by
  obtain ⟨o, n⟩ := c
  cases o with
  | introduce =>
    rw [call_introduce]
    simp only [History.answer]
    split
    · rfl
    · rename_i hn
      rw [not_or] at hn
      rw [h.introduced _ hn.1 hn.2]
      by_cases hx : n.value ∈ s.assigned
      · simp [hx, (h.assigned _).1 hx]
      · simp [hx, Bool.eq_false_iff.2 (mt (h.assigned _).2 hx)]
  | read =>
    rw [call_read]
    simp only [History.answer, h.assigned]
    split <;> rfl
  | declare =>
    rw [call_declare]
    simp only [History.answer, h.labels]
    split
    · rfl
    · split <;> rfl
  | jump =>
    rw [call_jump]
    simp only [History.answer]
    split <;> rfl

/-- **What a scope remembers** if it has gained the name of a call that succeeded, and no other. -/
theorem Remembers.concat {a : Answer} (h : s.Remembers past)
    (hassigned : ∀ x, x ∈ t.assigned ↔
      x ∈ s.assigned ∨ c.operation = .introduce ∧ c.name.value = x ∧ a.isOk)
    (hreserved : c.operation = .introduce → a.isOk = false →
      c.name.value ∈ Reserved.words ∨ c.name.value ∈ Reserved.functions)
    (hlabels : ∀ x, x ∈ t.labels ↔
      x ∈ s.labels ∨ c.operation = .declare ∧ c.name.value = x ∧ a.isOk)
    (hjumps : t.jumps = (if c.operation = .jump && a.isOk then [c.name] else []) ++ s.jumps) :
    t.Remembers (past ++ [(c, a)]) := by
  refine ⟨fun x => ?_, fun x hw hf => ?_, fun x => ?_, ?_⟩
  · simp [History.done_concat, hassigned, h.assigned, and_assoc]
  · rw [History.asked_concat, History.done_concat, h.introduced x hw hf]
    cases ha : a.isOk with
    | true => simp
    | false =>
      have hx : ¬ (c.operation = .introduce ∧ c.name.value = x) := by
        rintro ⟨ho, rfl⟩
        exact (hreserved ho ha).elim hw hf
      simp [hx]
  · simp [History.done_concat, hlabels, h.labels, and_assoc]
  · rw [History.jumps_concat, hjumps, List.reverse_append, h.jumps]
    split <;> rfl

/-- A call that fails leaves nothing to remember.  An introduction fails at a reserved name. -/
theorem Remembers.concat_of_error (h : s.Remembers past) (e : Located ScopeError)
    (hc : c.operation = .introduce →
      c.name.value ∈ Reserved.words ∨ c.name.value ∈ Reserved.functions) :
    s.Remembers (past ++ [(c, .error e)]) :=
  h.concat (by simp) (fun ho _ => hc ho) (by simp) (by simp)

/-- **What a scope remembers** after a call is what it remembered and the call with its answer. -/
theorem Remembers.call (h : s.Remembers past) (c : Call) :
    (s.call c).2.Remembers (past ++ [(c, (s.call c).1)]) := by
  obtain ⟨o, n⟩ := c
  cases o with
  | introduce =>
    rw [call_introduce]
    split
    · rename_i hn
      exact h.concat_of_error _ fun _ => hn
    · -- the name is among the variables afterwards, whether it was there before or not
      split
      · rename_i hs
        refine h.concat (fun x => ?_) nofun (by simp) (by simp)
        have hx : n.value = x → x ∈ s.assigned := fun hx => hx ▸ hs
        simpa using hx
      · refine h.concat (fun x => ?_) nofun (by simp) (by simp)
        simp [or_comm, eq_comm]
  | read =>
    rw [call_read]
    split
    · exact h.concat (by simp) nofun (by simp) (by simp)
    · exact h.concat_of_error _ nofun
  | declare =>
    rw [call_declare]
    split
    · exact h.concat_of_error _ nofun
    · split
      · exact h.concat_of_error _ nofun
      · refine h.concat (by simp) nofun (fun x => ?_) (by simp)
        simp [or_comm, eq_comm]
  | jump =>
    rw [call_jump]
    split
    · exact h.concat_of_error _ nofun
    · exact h.concat (by simp) nofun (by simp) (by simp)

/-- What a scope remembers after a list of calls. -/
theorem Remembers.record (h : s.Remembers past) (cs : List Call) :
    (s.after cs).Remembers (past ++ s.record cs) := by
  induction cs generalizing s past with
  | nil => simpa using h
  | cons c cs ih => simpa using ih (h.call c)

theorem remembers_record (cs : List Call) : (empty.after cs).Remembers (empty.record cs) := by
  simpa using remembers_empty.record cs

/-! ### Name spaces -/

/-- Two scopes hold the same names of a name space. -/
def SameIn (k : NameSpace) (s t : Scope) : Prop :=
  match k with
  | .values => s.assigned = t.assigned
  | .labels => s.labels = t.labels ∧ s.jumps = t.jumps

theorem SameIn.refl (k : NameSpace) (s : Scope) : SameIn k s s := by
  cases k with
  | values => exact rfl
  | labels => exact ⟨rfl, rfl⟩

theorem SameIn.trans {u : Scope} (hst : SameIn k s t) (htu : SameIn k t u) : SameIn k s u := by
  cases k with
  | values => exact Eq.trans hst htu
  | labels => exact ⟨hst.1.trans htu.1, hst.2.trans htu.2⟩

/-- **A call of one name space changes nothing in the other.** -/
theorem sameIn_call (hc : c.space ≠ k) : SameIn k (s.call c).2 s := by
  obtain ⟨o, n⟩ := c
  cases o with
  | introduce =>
    cases k with
    | values => exact absurd rfl hc
    | labels =>
      rw [call_introduce]
      repeat' split
      all_goals exact ⟨rfl, rfl⟩
  | read =>
    rw [call_read]
    split <;> exact SameIn.refl k s
  | declare =>
    cases k with
    | labels => exact absurd rfl hc
    | values =>
      rw [call_declare]
      repeat' split
      all_goals exact rfl
  | jump =>
    cases k with
    | labels => exact absurd rfl hc
    | values =>
      rw [call_jump]
      split <;> exact rfl

/-- **A call answers the same in scopes that hold the same names of its name space**, and leaves
the same names there. -/
theorem SameIn.call (h : SameIn k s t) (hc : c.space = k) :
    (s.call c).1 = (t.call c).1 ∧ SameIn k (s.call c).2 (t.call c).2 := by
  obtain ⟨o, n⟩ := c
  subst hc
  cases o with
  | introduce =>
    have h : s.assigned = t.assigned := h
    simp only [call_introduce, h]
    split
    · exact ⟨rfl, h⟩
    · split
      · exact ⟨rfl, h⟩
      · exact ⟨rfl, rfl⟩
  | read =>
    have h : s.assigned = t.assigned := h
    simp only [call_read, h]
    split <;> exact ⟨rfl, h⟩
  | declare =>
    obtain ⟨hlabels, hjumps⟩ : s.labels = t.labels ∧ s.jumps = t.jumps := h
    simp only [call_declare, hlabels]
    split
    · exact ⟨rfl, hlabels, hjumps⟩
    · split
      · exact ⟨rfl, hlabels, hjumps⟩
      · exact ⟨rfl, rfl, hjumps⟩
  | jump =>
    obtain ⟨hlabels, hjumps⟩ : s.labels = t.labels ∧ s.jumps = t.jumps := h
    simp only [call_jump, hjumps]
    split
    · exact ⟨rfl, hlabels, hjumps⟩
    · exact ⟨rfl, hlabels, rfl⟩

/-- **The calls of one name space** have the history that they have without the others. -/
theorem SameIn.record (h : SameIn k s t) (cs : List Call) :
    (s.record cs).filter (·.1.space = k) = t.record (cs.filter (·.space = k)) ∧
      SameIn k (s.after cs) (t.after (cs.filter (·.space = k))) := by
  induction cs generalizing s t with
  | nil => exact ⟨rfl, h⟩
  | cons c cs ih =>
    by_cases hc : c.space = k
    · obtain ⟨hanswer, hafter⟩ := h.call hc
      obtain ⟨ihrecord, ihafter⟩ := ih hafter
      simp [hc, hanswer, ihrecord, ihafter]
    · obtain ⟨ihrecord, ihafter⟩ := ih ((sameIn_call hc).trans h)
      simp [hc, ihrecord, ihafter]

/-! ### The end of a program -/

theorem finish_of_sameIn (h : SameIn .labels s t) : s.finish = t.finish := by
  obtain ⟨hlabels, hjumps⟩ : s.labels = t.labels ∧ s.jumps = t.jumps := h
  simp only [finish, hlabels, hjumps]

/-- A jump that fails at the end is the first one to a label that is not declared. -/
theorem exists_of_finish_eq_error (h : s.finish = .error e) :
    ∃ front n back, s.jumps.reverse = front ++ n :: back ∧ e = n.map .danglingGoto ∧
      n.value ∉ s.labels ∧ ∀ m ∈ front, m.value ∈ s.labels := by
  unfold finish at h
  split at h
  · rename_i n hfind
    obtain ⟨hn, front, back, hjumps, hfront⟩ := List.find?_eq_some_iff_append.1 hfind
    refine ⟨front, n, back, hjumps, (Except.error.inj h).symm, by simpa using hn, fun m hm => ?_⟩
    simpa using hfront m hm
  · cases h

/-- **A scope is determined by the history of the calls made on it.** -/
theorem determined_by_history (calls : List Call) :
    (∀ before c later, calls = before ++ c :: later →
      ∃ rest, empty.record calls =
          empty.record before ++ (c, (empty.record before).answer c) :: rest ∧
        ∀ e, (empty.record before).answer c = .error e →
          e.value ∈ [.reserved c.name.value, .undefined c.name.value,
              .duplicateLabel c.name.value] ∧ e.location = c.name.location ∧
            empty.record (before ++ later) = empty.record before ++ rest ∧
            (empty.after (before ++ later)).finish = (empty.after calls).finish) ∧
    (∀ k, (empty.record calls).filter (·.1.space = k) =
      empty.record (calls.filter (·.space = k))) ∧
    (empty.after (calls.filter (·.space = .labels))).finish = (empty.after calls).finish ∧
    ((empty.after calls).finish = .ok () ↔
      ∀ n ∈ (empty.record calls).jumps, (empty.record calls).done .declare n.value) ∧
    ∀ e, (empty.after calls).finish = .error e →
      ∃ front n back, (empty.record calls).jumps = front ++ n :: back ∧
        e.value = .danglingGoto n.value ∧ e.location = n.location ∧
        (empty.record calls).done .declare n.value = false ∧
        ∀ m ∈ front, (empty.record calls).done .declare m.value := by
  refine ⟨?_, fun k => ((SameIn.refl k empty).record calls).1,
    (finish_of_sameIn ((SameIn.refl .labels empty).record calls).2).symm, ?_, fun e he => ?_⟩
  · rintro before c later rfl
    have hanswer := (remembers_record before).answer c
    refine ⟨((empty.after before).call c).2.record later, by simp [hanswer], fun e he => ?_⟩
    have hsame := call_of_error (hanswer.trans he)
    obtain ⟨hvalue, hlocation⟩ := History.error_of_answer he
    exact ⟨hvalue, hlocation, by simp [hsame], by simp [hsame]⟩
  · rw [finish_eq_ok_iff, ← (remembers_record calls).jumps]
    simp [(remembers_record calls).labels]
  · obtain ⟨front, n, back, hjumps, rfl, hn, hfront⟩ := exists_of_finish_eq_error he
    rw [(remembers_record calls).jumps] at hjumps
    rw [(remembers_record calls).labels, Bool.not_eq_true] at hn
    refine ⟨front, n, back, hjumps, rfl, rfl, hn, fun m hm => ?_⟩
    exact ((remembers_record calls).labels _).1 (hfront m hm)

end Scope

end TinyBasic
