import TinyBasic.Command.Session
import TinyBasic.Proofs.Command.Paths

/-!
# What becomes of the source file

A run can change one place of the file tree: the one its output leads to.  The source is at that
place exactly if the output is another spelling of the source's path (`Session.Replaces`), as the
refusal goes by the components of the two paths only (`Path.resembles`).

* A path that leads to a regular file ends with its name (`FileTree.exists_getLast?_of_resolve`),
  because only directories stand above a place (`FileTree.WellFormed`).  A path that can be written
  to ends with a name, too (`FileTree.exists_getLast?_of_resolveTarget`).
* So the output next to the source that a run chooses by itself leads to the source only if the two
  paths resemble each other, which is refused (`Session.destination_ne_source`).
* `Session.source_after_run`: a run leaves the source file as it was, unless it replaces it, and
  then the file holds the C text.
-/

namespace TinyBasic

namespace FileTree

/-- Only directories stand above what there is, and relative paths start at a directory. -/
structure WellFormed (t : FileTree) : Prop where
  workingDirectory : t.find? t.workingDirectory = some .directory
  above : ∀ place, (t.find? place).isSome → t.find? place.dropLast = some .directory

variable {t : FileTree} {p : Path} {place q : List String} {piece : String} {bytes : ByteArray}

theorem bind_eq_ok_iff {α β : Type} {x : Except FileError α} {f : α → Except FileError β} {b : β} :
    x >>= f = .ok b ↔ ∃ a, x = .ok a ∧ f a = .ok b := by
  cases x <;> simp [bind, Except.bind]

theorem checkDirectory_eq_ok_iff :
    t.checkDirectory place = .ok () ↔ t.find? place = some .directory := by
  unfold checkDirectory
  split <;> simp_all

/-- What a step along a path can do. -/
theorem descend_eq_ok (h : t.descend place piece = .ok q) :
    t.find? place = some .directory ∧
      ((Path.isIdle piece = true ∧ q = place) ∨ (piece = ".." ∧ q = place.dropLast) ∨
        (Path.isName piece = true ∧ q = place ++ [piece])) := by
  obtain ⟨⟨⟩, hcheck, hstep⟩ := bind_eq_ok_iff.1 h
  refine ⟨checkDirectory_eq_ok_iff.1 hcheck, ?_⟩
  split_ifs at hstep with hidle hup hsome
  · exact .inl ⟨hidle, (Except.ok.inj hstep).symm⟩
  · exact .inr (.inl ⟨hup, (Except.ok.inj hstep).symm⟩)
  · refine .inr (.inr ⟨?_, (Except.ok.inj hstep).symm⟩)
    simp [Path.isName, hidle, hup]

/-- **A path that leads to a regular file ends with the name of the file.** -/
theorem exists_getLast?_of_resolve (ht : t.WellFormed) (hr : t.resolve p = .ok place)
    (hf : t.find? place = some (.file bytes)) :
    ∃ inner last above, p.pieces = inner ++ [last] ∧ Path.isName last = true ∧
      place = above ++ [last] := by
  rw [resolve] at hr
  split_ifs at hr with hempty
  obtain ⟨inner, last, hpieces⟩ :=
    (List.eq_nil_or_concat' p.pieces).resolve_left (Path.pieces_ne_nil p)
  rw [hpieces, List.foldlM_append] at hr
  obtain ⟨above, -, hlast⟩ := bind_eq_ok_iff.1 hr
  obtain ⟨_, hdescend, hplace⟩ := bind_eq_ok_iff.1 (List.foldlM_cons.symm.trans hlast)
  obtain rfl := Except.ok.inj hplace
  obtain ⟨hdirectory, ⟨-, rfl⟩ | ⟨-, rfl⟩ | ⟨hname, rfl⟩⟩ := descend_eq_ok hdescend
  · simp [hdirectory] at hf
  · rw [ht.above above (by simp [hdirectory])] at hf
    simp at hf
  · exact ⟨inner, last, above, hpieces, hname, rfl⟩

/-- **A path that can be written to** ends with a name that is looked up in a directory, and the
name is not that of another directory. -/
theorem resolveTarget_eq_ok (h : t.resolveTarget p = .ok place) :
    ∃ inner last above, p.text ≠ "" ∧ p.pieces = inner ++ [last] ∧ Path.isName last = true ∧
      inner.foldlM t.descend (t.origin p) = .ok above ∧ t.find? above = some .directory ∧
      place = above ++ [last] ∧ t.find? place ≠ some .directory := by
  rw [resolveTarget] at h
  split_ifs at h with hempty
  · cases h
  simp only at h
  split at h
  · cases h
  case h_2 last hlast =>
    split_ifs at h with hname hlength
    · obtain ⟨above, -, h⟩ := bind_eq_ok_iff.1 h
      obtain ⟨⟨⟩, -, h⟩ := bind_eq_ok_iff.1 h
      cases h
    · obtain ⟨above, hwalk, h⟩ := bind_eq_ok_iff.1 h
      obtain ⟨⟨⟩, hcheck, h⟩ := bind_eq_ok_iff.1 h
      -- No slash was taken away after the last piece.
      have hsolid : (p.pieces.reverse.dropWhile (· == "")).reverse = p.pieces :=
        (List.rdropWhile_prefix (· == "") p.pieces).eq_of_length_le (not_lt.1 hlength)
      rw [hsolid] at hlast hwalk
      obtain ⟨inner, hpieces⟩ := List.getLast?_eq_some_iff.1 hlast
      rw [hpieces, List.dropLast_concat] at hwalk
      refine ⟨inner, last, above, hempty, hpieces, hname, hwalk,
        checkDirectory_eq_ok_iff.1 hcheck, ?_⟩
      split at h
      · cases h
      case h_2 hfile => exact ⟨(Except.ok.inj h).symm, Except.ok.inj h ▸ hfile⟩
    · obtain ⟨_, -, h⟩ := bind_eq_ok_iff.1 h
      cases h

/-- A path that can be written to ends with the name of the file. -/
theorem exists_getLast?_of_resolveTarget (h : t.resolveTarget p = .ok place) :
    ∃ above last, p.pieces.getLast? = some last ∧ place = above ++ [last] := by
  obtain ⟨inner, last, above, -, hpieces, -, -, -, hplace, -⟩ := resolveTarget_eq_ok h
  exact ⟨above, last, hpieces ▸ List.getLast?_concat, hplace⟩

theorem write_eq_ok {text : String} {t' : FileTree} (h : t.write p text = .ok t') :
    ∃ place, t.resolveTarget p = .ok place ∧ t' = t.put place text.toUTF8 := by
  rw [write] at h
  cases hr : t.resolveTarget p with
  | error e => cases hr ▸ h
  | ok place => exact ⟨place, rfl, (Except.ok.inj (hr ▸ h)).symm⟩

end FileTree

namespace Session

variable {t t' : FileTree} {o : Options} {s : Source} {d : Destination} {u : CUnit}
  {log text : String} {place : List String} {bytes : ByteArray}

/-! ### What a run writes -/

/-- The run of `o` puts the C text of `u` in the place of its source. -/
structure Replaces (t : FileTree) (o : Options) (place : List String) (bytes : ByteArray)
    (u : CUnit) : Prop where
  /-- The source is compiled. -/
  compiles : o.tokens = false
  /-- The source holds a text that is translated to `u`. -/
  translates : ∃ text, String.fromUTF8? bytes = some text ∧
    (translate ⟨o.file, text⟩).result = .ok u
  /-- The output is a file whose path does not resemble that of the source, but leads to its
  place. -/
  reaches : ∃ path, o.output = some path ∧ path ≠ "-" ∧
    (Path.mk path).resembles ⟨o.file⟩ = false ∧ t.resolveTarget ⟨path⟩ = .ok place

/-- Only a run on a file can change anything. -/
theorem run_of_ne_run {reader : OptionReader} {args : List String}
    (h : ∀ o, reader.read args ≠ .run o) (t : FileTree) :
    ((reader.session args).run t).2 = t := by
  rw [OptionReader.session]
  cases hargs : reader.read args with
  | run o => exact absurd hargs (h o)
  | _ => rfl

theorem read_of_file (hr : t.resolve ⟨o.file⟩ = .ok place)
    (hf : t.find? place = some (.file bytes)) :
    t.read ⟨o.file⟩ =
      match String.fromUTF8? bytes with
      | some text => .ok text
      | none => .error .invalidText := by
  rw [FileTree.read, hr]
  simp only [bind, Except.bind, hf]
  rfl

/-- What is written stands at the place its path leads to. -/
theorem find?_run_emit_self {path : Path} (h : t.resolveTarget path = .ok place) (o : Options)
    (log text : String) :
    ((emit o (.file path) log text).run t).2.find? place = some (.file text.toUTF8) := by
  obtain ⟨above, last, -, rfl⟩ := FileTree.exists_getLast?_of_resolveTarget h
  simp only [emit, run, FileTree.write, h, Except.map]
  rw [FileTree.find?_put _ _ _ _ (by simp), if_pos rfl]

/-- Nothing else changes. -/
theorem find?_run_emit_of_ne
    (h : ∀ path, d = .file path → t.resolveTarget path ≠ .ok place) (o : Options)
    (log text : String) : ((emit o d log text).run t).2.find? place = t.find? place := by
  cases d with
  | stdout => rfl
  | file path =>
    have hne := h path rfl
    simp only [emit, run]
    cases hw : t.write path text with
    | error e => rfl
    | ok t' =>
      obtain ⟨other, hother, rfl⟩ := FileTree.write_eq_ok hw
      have hplace : place ≠ other := by
        rintro rfl
        exact hne hother
      obtain ⟨above, last, -, rfl⟩ := FileTree.exists_getLast?_of_resolveTarget hother
      simp only
      rw [FileTree.find?_put _ _ _ _ (by simp), if_neg hplace]

/-- **The output that a run chooses by itself is never its source**, unless it is refused. -/
theorem not_reaches_of_default (ht : t.WellFormed) (hr : t.resolve ⟨o.file⟩ = .ok place)
    (hf : t.find? place = some (.file bytes))
    (hrefused : ((Path.mk o.file).sibling defaultOutput).resembles ⟨o.file⟩ = false) :
    t.resolveTarget ((Path.mk o.file).sibling defaultOutput) ≠ .ok place := by
  intro htarget
  obtain ⟨inner, last, above, hpieces, hname, rfl⟩ := FileTree.exists_getLast?_of_resolve ht hr hf
  obtain ⟨above', last', hlast', hplace⟩ := FileTree.exists_getLast?_of_resolveTarget htarget
  rw [Path.getLast?_pieces_sibling hpieces hname (by decide), Option.some_inj] at hlast'
  obtain rfl : last = last' := by simpa using (List.append_inj' hplace rfl).2
  rw [hlast', Path.resembles_sibling hpieces hname] at hrefused
  cases hrefused

/-- A destination that is not refused and leads to the source was asked for. -/
theorem exists_output_of_reaches (ht : t.WellFormed) (hr : t.resolve ⟨o.file⟩ = .ok place)
    (hf : t.find? place = some (.file bytes)) (hrefused : isSource o (destination o) = false)
    {path : Path} (hd : destination o = .file path) (hreach : t.resolveTarget path = .ok place) :
    ∃ text, o.output = some text ∧ text ≠ "-" ∧ path = ⟨text⟩ ∧
      path.resembles ⟨o.file⟩ = false := by
  rw [hd, isSource] at hrefused
  rw [destination] at hd
  split at hd
  · obtain rfl := Destination.file.inj hd
    exact absurd hreach (not_reaches_of_default ht hr hf hrefused)
  case h_2 text houtput =>
    split_ifs at hd with hdash
    obtain rfl := Destination.file.inj hd
    exact ⟨text, houtput, hdash, rfl, hrefused⟩

/-- What compiling a source whose destination is not refused does to it. -/
theorem find?_run_compile (ht : t.WellFormed) (hr : t.resolve ⟨o.file⟩ = .ok place)
    (hf : t.find? place = some (.file bytes)) (htext : String.fromUTF8? bytes = some text)
    (htokens : o.tokens = false) (hrefused : isSource o (destination o) = false) :
    (∀ u, Replaces t o place bytes u →
      ((compile o (destination o) ⟨o.file, text⟩).run t).2.find? place =
        some (.file u.text.toUTF8)) ∧
    ((∀ u, ¬ Replaces t o place bytes u) →
      ((compile o (destination o) ⟨o.file, text⟩).run t).2.find? place =
        some (.file bytes)) := by
  rw [compile]
  cases hresult : (translate ⟨o.file, text⟩).result with
  | error e =>
    refine ⟨fun u hu => ?_, fun _ => hf⟩
    obtain ⟨text', htext', hok⟩ := hu.translates
    obtain rfl := Option.some.inj (htext.symm.trans htext')
    cases hresult.symm.trans hok
  | ok unit =>
    constructor
    · intro u hu
      obtain ⟨text', htext', hok⟩ := hu.translates
      obtain rfl := Option.some.inj (htext.symm.trans htext')
      obtain rfl := Except.ok.inj (hresult.symm.trans hok)
      obtain ⟨path, houtput, hdash, -, hreach⟩ := hu.reaches
      have hd : destination o = .file ⟨path⟩ := by simp [destination, houtput, hdash]
      rw [hd]
      exact find?_run_emit_self hreach o _ _
    · intro hkept
      refine (find?_run_emit_of_ne (fun path hd hreach => ?_) o _ _).trans hf
      obtain ⟨output, houtput, hdash, rfl, hresembles⟩ :=
        exists_output_of_reaches ht hr hf hrefused hd hreach
      exact hkept unit ⟨htokens, ⟨text, htext, hresult⟩, output, houtput, hdash, hresembles, hreach⟩

/-- **A run leaves its source file as it was, unless it replaces it**, whatever reads its command
line.  In a tree of files and directories, a run whose file is a regular file replaces it with C text
if the output is a path that does not resemble the source's path but leads to the same place, and
keeps it otherwise. -/
theorem source_after_run (ht : t.WellFormed) (reader : OptionReader) (args : List String) :
    ((∀ o, reader.read args ≠ .run o) → ((reader.session args).run t).2 = t) ∧
    ∀ o place bytes, reader.read args = .run o → t.resolve ⟨o.file⟩ = .ok place →
      t.find? place = some (.file bytes) →
      (∀ u, Replaces t o place bytes u →
        ((reader.session args).run t).2.find? place = some (.file u.text.toUTF8)) ∧
      ((∀ u, ¬ Replaces t o place bytes u) →
        ((reader.session args).run t).2.find? place = some (.file bytes)) := by
  refine ⟨fun hrun => run_of_ne_run hrun t, fun o place bytes hargs hr hf => ?_⟩
  rw [OptionReader.session_of_run hargs, ofOptions, run, read_of_file hr hf]
  cases htext : String.fromUTF8? bytes with
  | none =>
    refine ⟨fun u hu => ?_, fun _ => hf⟩
    obtain ⟨text, htext', -⟩ := hu.translates
    cases htext.symm.trans htext'
  | some text =>
    simp only [ofSource]
    split_ifs with htokens hrefused
    · refine ⟨fun u hu => ?_, fun _ => hf⟩
      cases htokens.symm.trans hu.compiles
    · refine ⟨fun u hu => ?_, fun _ => hf⟩
      obtain ⟨path, houtput, hdash, hresembles, -⟩ := hu.reaches
      simp [destination, houtput, hdash, isSource, hresembles] at hrefused
    · exact find?_run_compile ht hr hf htext (Bool.eq_false_iff.2 htokens)
        (Bool.eq_false_iff.2 hrefused)

/-! ### A source that is replaced -/

/-- A directory with a source file and nothing else. -/
def lonelySource : FileTree := ⟨[], [(["p.bas"], .file "PRINT 1\n".toUTF8)]⟩

theorem lonelySource_wellFormed : lonelySource.WellFormed := by
  refine ⟨rfl, fun place hsome => ?_⟩
  by_cases hroot : place = []
  · rw [hroot]
    rfl
  · by_cases hfile : place = ["p.bas"]
    · rw [hfile]
      rfl
    · simp [FileTree.find?, lonelySource, List.lookup_cons, hroot, beq_false_of_ne hfile] at hsome

/-- Compile `p.bas` into `./p.bas`. -/
def detour : Options := ⟨"p.bas", some "./p.bas", false, 0⟩

def detourOutput : CUnit :=
  ⟨"#include <stdio.h>\nint main(void)\x7b\n",
    "printf(\"%.2f\\n\", (float)(1));\nreturn 0;\n\x7d\n"⟩

theorem detour_replaces :
    Replaces lonelySource detour ["p.bas"] "PRINT 1\n".toUTF8 detourOutput where
  compiles := rfl
  translates := ⟨"PRINT 1\n", by decide +kernel, by decide +kernel⟩
  reaches := ⟨"./p.bas", rfl, by decide, by decide, rfl⟩

/-- With a dot in front, the path of the source is not recognised. -/
theorem source_after_run_detour :
    lonelySource.WellFormed ∧
    Invocation.ofArguments ["p.bas", "-o", "./p.bas"] = .run detour ∧
    lonelySource.resolve ⟨"p.bas"⟩ = .ok ["p.bas"] ∧
    lonelySource.find? ["p.bas"] = some (.file "PRINT 1\n".toUTF8) ∧
    ((ofArguments ["p.bas", "-o", "./p.bas"]).run lonelySource).2.find? ["p.bas"] =
      some (.file detourOutput.text.toUTF8) := by
  have hargs : Invocation.ofArguments ["p.bas", "-o", "./p.bas"] = .run detour := by decide +kernel
  obtain ⟨-, hrun⟩ := source_after_run lonelySource_wellFormed .standard ["p.bas", "-o", "./p.bas"]
  exact ⟨lonelySource_wellFormed, hargs, rfl, rfl,
    (hrun detour ["p.bas"] "PRINT 1\n".toUTF8 hargs rfl rfl).1 detourOutput detour_replaces⟩

/-- The number of bytes of a file.  Anything else has none. -/
def fileSize : Option Entry → ℕ
  | some (.file bytes) => bytes.size
  | some .directory | none => 0

/-- The same run again: the source held eight bytes, and the C text is longer. -/
theorem source_not_always_kept :
    ¬ ∀ t : FileTree, t.WellFormed → ∀ args o place bytes, Invocation.ofArguments args = .run o →
      t.resolve ⟨o.file⟩ = .ok place → t.find? place = some (.file bytes) →
      ((ofArguments args).run t).2.find? place = some (.file bytes) := by
  intro hkept
  have hsource := hkept lonelySource lonelySource_wellFormed ["p.bas", "-o", "./p.bas"] detour
    ["p.bas"] "PRINT 1\n".toUTF8 (by decide +kernel) rfl rfl
  have hsize : fileSize
      (((ofArguments ["p.bas", "-o", "./p.bas"]).run lonelySource).2.find? ["p.bas"]) = 77 := by
    decide +kernel
  rw [hsource] at hsize
  exact absurd hsize (by decide)

end Session

end TinyBasic
