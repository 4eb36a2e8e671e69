import TinyBasic.Proofs.Command.Overwriting

/-!
# All or nothing

A run on a file ends in one of six ways (`Session.Ends`), and `Session.ends_run` says that there is
no other.  In all of them but one nothing is written.  In that one the translation has succeeded,
and its whole text has gone to the destination and nowhere else (`Session.IsDelivered`).

* `FileTree.read_put`: what is written to a path is what is read back from it, since writing to a
  place changes no directory on the way to it.
* `Session.AllOrNothing`: what a run that fails leaves behind, and what a run that succeeds does.
* `Session.run_all_or_nothing`: every run is one of the two, and runs on the same source that
  succeed deliver the same text, wherever it goes.
-/

namespace TinyBasic

namespace FileTree

variable {t : FileTree} {p : Path} {place above q : List String} {qs : List String}
  {bytes : ByteArray} {text : String}

/-- What is found after writing to a place that is no directory was there before, or is the file. -/
theorem find?_put_of_directory (hplace : place ≠ []) (hfile : t.find? place ≠ some .directory)
    (h : t.find? q = some .directory) : (t.put place bytes).find? q = some .directory := by
  have hne : q ≠ place := by
    rintro rfl
    exact hfile h
  rw [find?_put _ _ _ _ hplace, if_neg hne, h]

/-- Writing to a place that is no directory bars no way. -/
theorem foldlM_descend_put (hplace : place ≠ []) (hfile : t.find? place ≠ some .directory)
    (h : qs.foldlM t.descend above = .ok q) :
    qs.foldlM (t.put place bytes).descend above = .ok q := by
  induction qs generalizing above with
  | nil => exact h
  | cons piece qs ih =>
    rw [List.foldlM_cons] at h ⊢
    obtain ⟨next, hstep, hrest⟩ := bind_eq_ok_iff.1 h
    refine bind_eq_ok_iff.2 ⟨next, ?_, ih hrest⟩
    obtain ⟨⟨⟩, hcheck, hstep⟩ := bind_eq_ok_iff.1 hstep
    have hcheck' : (t.put place bytes).checkDirectory above = .ok () :=
      checkDirectory_eq_ok_iff.2
        (find?_put_of_directory hplace hfile (checkDirectory_eq_ok_iff.1 hcheck))
    refine bind_eq_ok_iff.2 ⟨(), hcheck', ?_⟩
    split_ifs at hstep with hidle hup hsome
    · rw [if_pos hidle]
      exact hstep
    · rw [if_neg hidle, if_pos hup]
      exact hstep
    · have hsome' : ((t.put place bytes).find? (above ++ [piece])).isSome = true := by
        rw [find?_put _ _ _ _ hplace]
        split
        · rfl
        · exact hsome
      rw [if_neg hidle, if_neg hup, if_pos hsome']
      exact hstep

/-- A path that can be written to leads to the place of the file when it is read. -/
theorem resolve_put (h : t.resolveTarget p = .ok place) :
    (t.put place bytes).resolve p = .ok place := by
  obtain ⟨inner, last, above, hempty, hpieces, hname, hwalk, hdirectory, rfl, hfile⟩ :=
    resolveTarget_eq_ok h
  have hplace : above ++ [last] ≠ [] := by simp
  have habove : inner.foldlM (t.put (above ++ [last]) bytes).descend (t.origin p) = .ok above :=
    foldlM_descend_put hplace hfile hwalk
  have hstep : (t.put (above ++ [last]) bytes).descend above last = .ok (above ++ [last]) := by
    have hcheck : (t.put (above ++ [last]) bytes).checkDirectory above = .ok () :=
      checkDirectory_eq_ok_iff.2 (find?_put_of_directory hplace hfile hdirectory)
    refine bind_eq_ok_iff.2 ⟨(), hcheck, ?_⟩
    obtain ⟨hidle, hup⟩ : ¬ Path.isIdle last = true ∧ last ≠ ".." := by
      simpa [Path.isName] using hname
    rw [if_neg hidle, if_neg hup, if_pos (by rw [find?_put _ _ _ _ hplace, if_pos rfl]; rfl)]
    rfl
  rw [resolve, if_neg hempty, hpieces, List.foldlM_append]
  refine bind_eq_ok_iff.2 ⟨above, habove, ?_⟩
  rw [List.foldlM_cons]
  exact bind_eq_ok_iff.2 ⟨_, hstep, rfl⟩

/-- **What is written to a path is what is read back from it.** -/
theorem read_put (h : t.resolveTarget p = .ok place) :
    (t.put place text.toUTF8).read p = .ok text := by
  obtain ⟨inner, last, above, -, -, -, -, -, rfl, -⟩ := resolveTarget_eq_ok h
  have hplace : above ++ [last] ≠ [] := by simp
  have htext : String.fromUTF8? text.toUTF8 = some text := by
    have hvalid : text.toUTF8.IsValidUTF8 := text.isValidUTF8
    rw [String.fromUTF8?, dif_pos hvalid]
    rfl
  rw [read]
  refine bind_eq_ok_iff.2 ⟨_, resolve_put h, ?_⟩
  rw [find?_put _ _ _ _ hplace, if_pos rfl]
  simp only [htext]
  rfl

end FileTree

namespace Session

variable {t t' : FileTree} {o : Options} {d : Destination} {r : Response} {log text : String}

/-! ### How a run on a file ends -/

/-- The text has gone to the destination, and nowhere else.  A file that it has gone to holds the
text and nothing else, and every other place of the tree is as it was. -/
def IsDelivered (text : String) (t t' : FileTree) (stdout : String) : Destination → Prop
  | .stdout => stdout = text ∧ t' = t
  | .file path =>
    stdout = "" ∧ t'.read path = .ok text ∧
      ∃ place, t.resolveTarget path = .ok place ∧
        t'.workingDirectory = t.workingDirectory ∧
        ∀ other, t'.find? other =
          if other = place then some (.file text.toUTF8) else t.find? other

/-- The ways in which a run on a file can end. -/
inductive Ends (t : FileTree) (o : Options) : Response → FileTree → Prop
  /-- There is no text to work on. -/
  | unreadable {r : Response} {e : FileError} : t.read ⟨o.file⟩ = .error e → r.code = 1 →
      r.stdout = "" → Ends t o r t
  /-- The tokens have been listed. -/
  | listed {r : Response} {body : String} : t.read ⟨o.file⟩ = .ok body → o.tokens = true →
      r = listTokens ⟨o.file, body⟩ → Ends t o r t
  /-- The destination looks like the source. -/
  | refused {r : Response} : o.tokens = false → isSource o (destination o) = true → r.code = 1 →
      r.stdout = "" → Ends t o r t
  /-- The program is rejected. -/
  | rejected {r : Response} {body log : String} {f : Failure} : t.read ⟨o.file⟩ = .ok body →
      o.tokens = false → (translate ⟨o.file, body⟩).result = .error f → r.code = 1 →
      r.stdout = "" → r.stderr = log ++ f.report.render → Ends t o r t
  /-- The destination cannot be written to. -/
  | unwritten {r : Response} {body : String} {u : CUnit} : t.read ⟨o.file⟩ = .ok body →
      o.tokens = false → (translate ⟨o.file, body⟩).result = .ok u → r.code = 1 → r.stdout = "" →
      Ends t o r t
  /-- The C text has been written. -/
  | delivered {r : Response} {t' : FileTree} {body log : String} {u : CUnit} :
      t.read ⟨o.file⟩ = .ok body → o.tokens = false →
      (translate ⟨o.file, body⟩).result = .ok u → r.code = 0 →
      IsDelivered u.text t t' r.stdout (destination o) →
      r.stderr = log ++ Log.render o.verbosity [closingRecord u.text (destination o)] →
      Ends t o r t'

/-- The text of a translation is written to its destination, or not at all. -/
theorem run_emit (o : Options) (d : Destination) (log text : String) (t : FileTree) :
    (((emit o d log text).run t).1.code = 1 ∧ ((emit o d log text).run t).1.stdout = "" ∧
      ((emit o d log text).run t).2 = t) ∨
    (((emit o d log text).run t).1.code = 0 ∧
      IsDelivered text t ((emit o d log text).run t).2 ((emit o d log text).run t).1.stdout d ∧
      ((emit o d log text).run t).1.stderr =
        log ++ Log.render o.verbosity [closingRecord text d]) := by
  cases d with
  | stdout => exact .inr ⟨rfl, ⟨rfl, rfl⟩, rfl⟩
  | file path =>
    simp only [emit, run]
    cases hw : t.write path text with
    | error e => exact .inl ⟨rfl, rfl, rfl⟩
    | ok t' =>
      obtain ⟨place, hplace, rfl⟩ := FileTree.write_eq_ok hw
      obtain ⟨above, last, -, rfl⟩ := FileTree.exists_getLast?_of_resolveTarget hplace
      exact .inr ⟨rfl, ⟨rfl, FileTree.read_put hplace, _, hplace, rfl,
        fun other => FileTree.find?_put t _ other _ (by simp)⟩, rfl⟩

theorem ends_run_compile {body : String} (hread : t.read ⟨o.file⟩ = .ok body)
    (htokens : o.tokens = false) :
    Ends t o ((compile o (destination o) ⟨o.file, body⟩).run t).1
      ((compile o (destination o) ⟨o.file, body⟩).run t).2 := by
  rw [compile]
  cases hresult : (translate ⟨o.file, body⟩).result with
  | error f => exact .rejected hread htokens hresult rfl rfl rfl
  | ok u =>
    obtain ⟨hcode, hstdout, htree⟩ | ⟨hcode, hdelivered, hstderr⟩ := run_emit o (destination o)
      (Log.render o.verbosity (openingRecord o (destination o) ::
        (translate ⟨o.file, body⟩).log)) u.text t
    · simp only [htree]
      exact .unwritten hread htokens hresult hcode hstdout
    · exact .delivered hread htokens hresult hcode hdelivered hstderr

/-- **A run on a file ends in one of these ways.** -/
theorem ends_run (t : FileTree) (o : Options) :
    Ends t o ((ofOptions o).run t).1 ((ofOptions o).run t).2 := by
  rw [ofOptions, run]
  cases hread : t.read ⟨o.file⟩ with
  | error e => exact .unreadable hread rfl rfl
  | ok body =>
    simp only [ofSource]
    split_ifs with htokens hrefused
    · exact .listed hread htokens rfl
    · exact .refused (Bool.eq_false_iff.2 htokens) hrefused rfl rfl
    · exact ends_run_compile hread (Bool.eq_false_iff.2 htokens)

/-- A run on a file that fails changes nothing. -/
theorem Ends.of_code_ne_zero (h : Ends t o r t') (hcode : r.code ≠ 0) :
    t' = t ∧ (o.tokens = false → r.stdout = "") := by
  cases h with
  | listed _ htokens _ => exact ⟨rfl, fun hcompiles => nomatch htokens.symm.trans hcompiles⟩
  | delivered _ _ _ hzero => exact absurd hzero hcode
  | unreadable _ _ hstdout | refused _ _ _ hstdout | rejected _ _ _ _ hstdout
    | unwritten _ _ _ _ hstdout => exact ⟨rfl, fun _ => hstdout⟩

/-- A run that lists tokens changes nothing. -/
theorem Ends.tree_eq (h : Ends t o r t') (htokens : o.tokens = true) : t' = t := by
  cases h with
  | delivered _ hcompiles => cases htokens.symm.trans hcompiles
  | _ => rfl

/-- A compiling run succeeds only by delivering the text. -/
theorem Ends.of_code_eq_zero (h : Ends t o r t') (htokens : o.tokens = false)
    (hcode : r.code = 0) :
    ∃ body log u, t.read ⟨o.file⟩ = .ok body ∧ (translate ⟨o.file, body⟩).result = .ok u ∧
      IsDelivered u.text t t' r.stdout (destination o) ∧
      r.stderr = log ++ Log.render o.verbosity [closingRecord u.text (destination o)] := by
  cases h with
  | listed _ hlists _ => cases htokens.symm.trans hlists
  | delivered hread _ hresult _ hdelivered hstderr =>
    exact ⟨_, _, _, hread, hresult, hdelivered, hstderr⟩
  | unreadable _ hone | refused _ _ hone | rejected _ _ _ hone | unwritten _ _ _ hone =>
    cases hcode.symm.trans hone

/-- A compiling run whose program is rejected reports why, unless the destination is refused. -/
theorem Ends.of_error {body : String} {f : Failure} (h : Ends t o r t') (htokens : o.tokens = false)
    (hread : t.read ⟨o.file⟩ = .ok body) (hresult : (translate ⟨o.file, body⟩).result = .error f)
    (hpasses : isSource o (destination o) = false) :
    r.code = 1 ∧ ∃ log, r.stderr = log ++ f.report.render := by
  cases h with
  | unreadable hread' => cases hread.symm.trans hread'
  | listed _ hlists _ => cases htokens.symm.trans hlists
  | refused _ hrefused => cases hpasses.symm.trans hrefused
  | rejected hread' _ hresult' hcode _ hstderr =>
    obtain rfl := Except.ok.inj (hread.symm.trans hread')
    obtain rfl := Except.error.inj (hresult.symm.trans hresult')
    exact ⟨hcode, _, hstderr⟩
  | unwritten hread' _ hresult' | delivered hread' _ hresult' =>
    obtain rfl := Except.ok.inj (hread.symm.trans hread')
    cases hresult.symm.trans hresult'

/-! ### Every run -/

/-- What the run of an invocation owes: it leaves everything as it was, or it does what it was
asked for. -/
structure AllOrNothing (i : Invocation) (t : FileTree) (r : Response) (t' : FileTree) : Prop where
  /-- A run that fails changes no file, and puts nothing on standard output unless it lists
  tokens. -/
  failure : r.code ≠ 0 →
    t' = t ∧ ((∀ o, i = .run o → o.tokens = false) → r.stdout = "")
  /-- A run that lists tokens changes no file. -/
  listing : ∀ o, i = .run o → o.tokens = true → t' = t
  /-- A compiling run that succeeds has translated its source and delivered the text.  If it reports
  how many bytes it has written, it reports the number of bytes of the text. -/
  success : ∀ o, i = .run o → o.tokens = false → r.code = 0 →
    ∃ body u, t.read ⟨o.file⟩ = .ok body ∧ (translate ⟨o.file, body⟩).result = .ok u ∧
      IsDelivered u.text t t' r.stdout (destination o) ∧
      u.text.toUTF8 = u.header.toUTF8 ++ u.body.toUTF8 ∧
      (0 < o.verbosity → ∃ log, r.stderr =
        log ++ s!"Wrote {u.text.toUTF8.size} bytes to {(destination o).name}" ++ "\n")
  /-- A compiling run whose program is rejected fails, and ends with the report of the failure,
  unless the destination is refused. -/
  rejection : ∀ o body f, i = .run o → o.tokens = false → t.read ⟨o.file⟩ = .ok body →
    (translate ⟨o.file, body⟩).result = .error f → isSource o (destination o) = false →
    r.code = 1 ∧ ∃ log, r.stderr = log ++ f.report.render

/-- The last record of a run that shows records. -/
theorem render_closingRecord {verbosity : Nat} (h : 0 < verbosity) (text : String)
    (d : Destination) :
    Log.render verbosity [closingRecord text d] =
      s!"Wrote {text.toUTF8.size} bytes to {d.name}" ++ "\n" := by
  have hshown : (closingRecord text d).isShown verbosity = true := decide_eq_true h
  rw [Log.render, List.filter_cons_of_pos hshown, List.filter_nil, List.map_singleton,
    String.join_cons, String.join_nil, String.append_empty]
  rfl

theorem allOrNothing_of_ne_run {i : Invocation} (h : ∀ o, i ≠ .run o)
    (hstdout : r.code ≠ 0 → r.stdout = "") : AllOrNothing i t r t where
  failure hcode := ⟨rfl, fun _ => hstdout hcode⟩
  listing o ho := absurd ho (h o)
  success o ho := absurd ho (h o)
  rejection o _ _ ho := absurd ho (h o)

/-- The run of any command line leaves everything as it was, or does what it was asked for. -/
theorem allOrNothing_run (reader : OptionReader) (args : List String) (t : FileTree) :
    AllOrNothing (reader.read args) t ((reader.session args).run t).1
      ((reader.session args).run t).2 := by
  rw [OptionReader.session]
  cases reader.read args with
  | run o =>
    have hends := ends_run t o
    refine ⟨fun hcode => ?_, ?_, ?_, ?_⟩
    · exact (hends.of_code_ne_zero hcode).imp_right fun h hnone => h (hnone o rfl)
    · intro o' ho htokens
      obtain rfl := Invocation.run.inj ho
      exact hends.tree_eq htokens
    · intro o' ho htokens hcode
      obtain rfl := Invocation.run.inj ho
      obtain ⟨body, log, u, hread, hresult, hdelivered, hstderr⟩ :=
        hends.of_code_eq_zero htokens hcode
      refine ⟨body, u, hread, hresult, hdelivered, String.toByteArray_append, fun hshown => ?_⟩
      exact ⟨log, by rw [String.append_assoc, ← render_closingRecord hshown]; exact hstderr⟩
    · intro o' body f ho htokens hread hresult hpasses
      obtain rfl := Invocation.run.inj ho
      exact hends.of_error htokens hread hresult hpasses
  | misuse => exact allOrNothing_of_ne_run (by simp) fun _ => rfl
  | help => exact allOrNothing_of_ne_run (by simp) fun hcode => absurd rfl hcode
  | version => exact allOrNothing_of_ne_run (by simp) fun hcode => absurd rfl hcode

/-- **A run does all that it was asked for or nothing**, whatever reads its command line.  Runs on
the same source that succeed deliver the same text, whether to a file or to standard output. -/
theorem run_all_or_nothing (reader : OptionReader) :
    (∀ args t, AllOrNothing (reader.read args) t ((reader.session args).run t).1
      ((reader.session args).run t).2) ∧
    ∀ args args' o o' t t' body, reader.read args = .run o →
      reader.read args' = .run o' → o.tokens = false → o'.tokens = false →
      o.file = o'.file → t.read ⟨o.file⟩ = .ok body → t'.read ⟨o'.file⟩ = .ok body →
      ((reader.session args).run t).1.code = 0 → ((reader.session args').run t').1.code = 0 →
      ∃ text,
        IsDelivered text t ((reader.session args).run t).2 ((reader.session args).run t).1.stdout
          (destination o) ∧
        IsDelivered text t' ((reader.session args').run t').2
          ((reader.session args').run t').1.stdout (destination o') := by
  have hall := allOrNothing_run reader
  refine ⟨hall, ?_⟩
  intro args args' o o' t t' body hargs hargs' htokens htokens' hfile hread hread' hcode hcode'
  obtain ⟨body₁, u, hbody, hresult, hdelivered, -, -⟩ :=
    (hall args t).success o hargs htokens hcode
  obtain ⟨body₂, u', hbody', hresult', hdelivered', -, -⟩ :=
    (hall args' t').success o' hargs' htokens' hcode'
  obtain rfl := Except.ok.inj (hread.symm.trans hbody)
  obtain rfl := Except.ok.inj (hread'.symm.trans hbody')
  rw [hfile] at hresult
  obtain rfl := Except.ok.inj (hresult.symm.trans hresult')
  exact ⟨u.text, hdelivered, hdelivered'⟩

/-! ### A directory with a program, a faulty one and an old output -/

def workshop : FileTree :=
  ⟨[], [(["p.bas"], .file "PRINT 1\n".toUTF8), (["jump.bas"], .file "GOTO a\n".toUTF8),
    (["out.c"], .file "int main(void);\n".toUTF8)]⟩

/-- Where the faulty program jumps to. -/
def nowhere : Location := ⟨⟨"jump.bas", "GOTO a\n"⟩, ⟨1, 6⟩, ⟨1, 7⟩⟩

/-- The program is compiled into the file and onto standard output; the faulty one is rejected. -/
theorem run_all_or_nothing_workshop :
    (Invocation.ofArguments ["p.bas", "-v"] = .run ⟨"p.bas", none, false, 1⟩ ∧
      Invocation.ofArguments ["p.bas", "-o", "-"] = .run ⟨"p.bas", some "-", false, 0⟩ ∧
      workshop.read ⟨"p.bas"⟩ = .ok "PRINT 1\n" ∧
      ((ofArguments ["p.bas", "-v"]).run workshop).1.code = 0 ∧
      ((ofArguments ["p.bas", "-o", "-"]).run workshop).1.code = 0 ∧
      ∃ text,
        IsDelivered text workshop ((ofArguments ["p.bas", "-v"]).run workshop).2
          ((ofArguments ["p.bas", "-v"]).run workshop).1.stdout (.file ⟨"out.c"⟩) ∧
        IsDelivered text workshop ((ofArguments ["p.bas", "-o", "-"]).run workshop).2
          ((ofArguments ["p.bas", "-o", "-"]).run workshop).1.stdout .stdout) ∧
    workshop.read ⟨"jump.bas"⟩ = .ok "GOTO a\n" ∧
    (translate ⟨"jump.bas", "GOTO a\n"⟩).result =
      .error (.semantic ⟨.danglingGoto "a", nowhere⟩) ∧
    ((ofArguments ["jump.bas"]).run workshop).1.code = 1 ∧
    ((ofArguments ["jump.bas"]).run workshop).2 = workshop ∧
    ∃ log, ((ofArguments ["jump.bas"]).run workshop).1.stderr =
      log ++ (Failure.semantic ⟨.danglingGoto "a", nowhere⟩).report.render := by
  obtain ⟨hall, hsame⟩ := run_all_or_nothing .standard
  have hfile : Invocation.ofArguments ["p.bas", "-v"] = .run ⟨"p.bas", none, false, 1⟩ := by
    decide +kernel
  have hstdout : Invocation.ofArguments ["p.bas", "-o", "-"] =
      .run ⟨"p.bas", some "-", false, 0⟩ := by decide +kernel
  have hjump : Invocation.ofArguments ["jump.bas"] = .run ⟨"jump.bas", none, false, 0⟩ := by
    decide +kernel
  have hread : workshop.read ⟨"p.bas"⟩ = .ok "PRINT 1\n" := by decide +kernel
  have hread' : workshop.read ⟨"jump.bas"⟩ = .ok "GOTO a\n" := by decide +kernel
  have hcode : ((ofArguments ["p.bas", "-v"]).run workshop).1.code = 0 := by decide +kernel
  have hcode' : ((ofArguments ["p.bas", "-o", "-"]).run workshop).1.code = 0 := by decide +kernel
  have hresult : (translate ⟨"jump.bas", "GOTO a\n"⟩).result =
      .error (.semantic ⟨.danglingGoto "a", nowhere⟩) := by decide +kernel
  have hrejected := (hall ["jump.bas"] workshop).rejection _ _ _ hjump rfl hread' hresult
    (by decide +kernel)
  have hfails : ((ofArguments ["jump.bas"]).run workshop).1.code ≠ 0 := fun hzero =>
    Nat.one_ne_zero (hrejected.1.symm.trans hzero)
  refine ⟨⟨hfile, hstdout, hread, hcode, hcode', ?_⟩, hread', hresult, hrejected.1,
    ((hall ["jump.bas"] workshop).failure hfails).1, hrejected.2⟩
  exact hsame ["p.bas", "-v"] ["p.bas", "-o", "-"] _ _ workshop workshop _ hfile hstdout rfl rfl rfl
    hread hread hcode hcode'

end Session

end TinyBasic
