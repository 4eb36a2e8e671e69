import TinyBasic.Proofs.Token.Joining
import TinyBasic.Proofs.Translation.Correctness
import TinyBasic.Proofs.Translation.Relocation

/-!
# Programs one below the other

Two programs can be put one below the other.  The line feeds in front of the second one then end the
last line of the first (`Tree.Program.exists_append`), and the static rules are kept if both keep
them and no label is declared in both (`WellScoped.append`).  Hence what two sources are translated
to is put together from what each of them is translated to (`translation_composes`).
-/

namespace TinyBasic

/-! ### Uses of names -/

section Scopes

variable {us vs : List Use}

/-- **The rules are kept by two programs together**, if no label is declared by both. -/
theorem WellScoped.append (hu : WellScoped us) (hv : WellScoped vs)
    (h : ∀ x, .label x ∈ us → .label x ∉ vs) : WellScoped (us ++ vs) where
  read before x later heq := by
    obtain ⟨front, rfl, hvs⟩ | ⟨back, rfl, hback⟩ := List.append_eq_append_iff.1 heq
    · exact List.mem_append_right _ (hv.read front x later hvs)
    · cases back with
      | nil => exact absurd (hv.read [] x later hback.symm) List.not_mem_nil
      | cons u back =>
        obtain ⟨rfl, -⟩ := List.cons.inj hback
        exact hu.read before x back rfl
  target x hx := (List.mem_append.1 hx).elim (hu.target x) (hv.target x)
  label x hx := (List.mem_append.1 hx).elim (hu.label x) (hv.label x)
  goto x hx := (List.mem_append.1 hx).elim (hu.goto x) (hv.goto x)
  nodup := by
    rw [Use.labels_append]
    refine List.nodup_append.2 ⟨hu.nodup, hv.nodup, ?_⟩
    rintro x hx y hy rfl
    exact h x (Use.mem_labels.1 hx) (Use.mem_labels.1 hy)
  declared x hx := List.mem_append.2 ((List.mem_append.1 hx).imp (hu.declared x) (hv.declared x))

/-- It makes no difference whether elements are left out before or after their repetitions. -/
theorem eraseDups_filter (p : String → Bool) (xs : List String) :
    (xs.filter p).eraseDups = xs.eraseDups.filter p := by
  induction hn : xs.length using Nat.strong_induction_on generalizing xs with
  | _ n ih =>
    cases xs with
    | nil => rfl
    | cons x xs =>
      have hlength : (xs.filter (!· == x)).length < n := by
        rw [← hn]
        exact Nat.lt_succ_of_le (List.length_filter_le _ _)
      have hlater := ih _ hlength _ rfl
      rw [List.eraseDups_cons, List.filter_cons, List.filter_cons]
      by_cases hx : p x = true
      · rw [if_pos hx, if_pos hx, List.eraseDups_cons, List.filter_comm, hlater]
      · -- what is left out for being `x` would be left out anyway
        have hall : (xs.filter (!· == x)).filter p = xs.filter p := by
          rw [List.filter_filter]
          refine List.filter_congr fun y _ => ?_
          by_cases hy : y = x
          · simp [hy, hx]
          · simp [hy]
        rw [if_neg hx, if_neg hx, ← hlater, hall]

/-- The variables of two programs together: those of the second that the first does not have come
after those of the first. -/
theorem eraseDups_targets_append_all (us vs : List Use) :
    (Use.targets (us ++ vs)).eraseDups = (Use.targets us).eraseDups ++
      (Use.targets vs).eraseDups.filter (· ∉ (Use.targets us).eraseDups) := by
  rw [Use.targets_append, List.eraseDups_append, List.removeAll, eraseDups_filter]
  congr 2
  funext x
  simp [List.mem_eraseDups]

end Scopes

namespace Tree

/-! ### Trees -/

@[simp] theorem tokensAll_append (xs ys : List Statement) :
    tokensAll (xs ++ ys) = tokensAll xs ++ tokensAll ys := by
  induction xs with
  | nil => rfl
  | cons x xs ih => simp [tokensAll, ih]

@[simp] theorem linesAll_append (xs ys : List Statement) :
    linesAll (xs ++ ys) = linesAll xs ++ linesAll ys := by
  induction xs with
  | nil => rfl
  | cons x xs ih => simp [linesAll, ih]

@[simp] theorem usesAll_append (xs ys : List Statement) :
    usesAll (xs ++ ys) = usesAll xs ++ usesAll ys := by
  induction xs with
  | nil => rfl
  | cons x xs ih => simp [ih]

/-- More line feeds at the end of a statement. -/
theorem Statement.exists_append (x : Statement) (ls : List (Exactly .newline)) :
    ∃ y : Statement, y.tokens = x.tokens ++ ls.map Leaf.token ∧ y.lines = x.lines ∧
      y.uses = x.uses := by
  cases x with
  | line s k l n =>
    exact ⟨.line s k l ⟨n.first, n.more ++ ls⟩, by simp [tokens, LineEnd.tokens], rfl, rfl⟩
  | block b head body foot =>
    exact ⟨.block b head body ⟨foot.keyword, ⟨foot.ending.first, foot.ending.more ++ ls⟩⟩,
      by simp [tokens, Foot.tokens, LineEnd.tokens], rfl, rfl⟩

/-- **Two programs one below the other are a program.** -/
theorem Program.exists_append (p q : Program) :
    ∃ r : Program, r.tokens = p.tokens ++ q.tokens ∧ r.lines = p.lines ++ q.lines ∧
      r.uses = p.uses ++ q.uses := by
  obtain ⟨blank, ss⟩ := p
  obtain ⟨blank', ss'⟩ := q
  obtain rfl | ⟨ss, x, rfl⟩ := List.eq_nil_or_concat' ss
  · exact ⟨⟨blank ++ blank', ss'⟩, by simp [tokens, tokensAll], rfl, rfl⟩
  · -- the line feeds in front of the second program end the last line of the first
    obtain ⟨y, htokens, hlines, huses⟩ := x.exists_append blank'
    refine ⟨⟨blank, ss ++ y :: ss'⟩, ?_, ?_, ?_⟩
    · simp [tokens, tokensAll, htokens]
    · simp [lines, linesAll, hlines]
    · simp [Program.uses_eq, huses]

end Tree

/-! ### Sources -/

open TinyBasic.Tree

variable {s s' : Source} {p q : Program}

/-- The labels that are declared while a source is read. -/
def Source.labels (s : Source) : List String :=
  Use.labels (Action.usesAll (Script.ofSource s).actions)

theorem Tree.Program.IsOf.labels_eq (hp : p.IsOf s) : s.labels = Use.labels p.uses := by
  have huses : Action.usesAll (.pull :: .pull :: p.actions) = Action.usesAll p.inner := rfl
  rw [Source.labels, Script.ofSource_eq hp, huses, p.usesAll_inner]

/-- The derivation of two sources, one below the other. -/
theorem Tree.Program.IsOf.exists_joined (hp : p.IsOf s) (hq : q.IsOf s') (name : String) :
    ∃ r : Program, r.IsOf (.joined name s s') ∧ r.lines = p.lines ++ q.lines ∧
      r.uses = p.uses ++ q.uses := by
  obtain ⟨e, he, hitems⟩ := hp
  obtain ⟨e', he', hitems'⟩ := hq
  obtain ⟨r, htokens, hlines, huses⟩ := p.exists_append q
  have hcontent : (Lexer.ofSource (.joined name s s')).items.map Lexer.content =
      (values (r.tokens ++ [e'])).map .ok := by
    rw [Lexer.map_content_joined name hitems he, hitems', htokens]
    simp [values, Lexer.content, Function.comp_def]
  obtain ⟨us, hus, hvalues⟩ := Lexer.exists_of_map_content hcontent
  obtain ⟨ts, vs, rfl, hts, hvs⟩ := exists_append_of_values hvalues
  -- the same tokens, at their places in the whole source
  obtain ⟨r', rfl, hlines', huses'⟩ := relocates_program r ts hts
  obtain ⟨l, rfl, -⟩ := exists_leaf_of_values_singleton (⟨e', he'⟩ : Exactly .eof) hvs
  exact ⟨r', ⟨l.token, l.fits, hus⟩, hlines'.trans hlines, huses'.trans huses⟩

/-- **Translation is compositional.**  Of two sources that are translated and declare no label in
common, the second can be put below the first, and the text of both together is: the lines that
every text begins with, the declarations of the first, those of the second for variables that the
first does not have, the statements of the first, those of the second, and the lines that every text
ends with. -/
theorem translation_composes (name : String) {u u' : CUnit} (h : (translate s).result = .ok u)
    (h' : (translate s').result = .ok u') (hlabels : ∀ x ∈ s.labels, x ∉ s'.labels) :
    ∃ p q : Program, p.IsOf s ∧ q.IsOf s' ∧
      u.text = unlines (opening ++ p.variables.map declaration ++ p.lines ++ ending) ∧
      u'.text = unlines (opening ++ q.variables.map declaration ++ q.lines ++ ending) ∧
      ∃ v, (translate (.joined name s s')).result = .ok v ∧
        v.text = unlines (opening ++ p.variables.map declaration ++
          (q.variables.filter (· ∉ p.variables)).map declaration ++ p.lines ++ q.lines ++
            ending) := by
  obtain ⟨p, hp, hscoped, rfl⟩ := translate_eq_ok_iff.1 h
  obtain ⟨q, hq, hscoped', rfl⟩ := translate_eq_ok_iff.1 h'
  obtain ⟨r, hr, hlines, huses⟩ := hp.exists_joined hq name
  have hwell : WellScoped r.uses := by
    rw [huses]
    refine hscoped.append hscoped' fun x hx hx' => ?_
    refine hlabels x ?_ ?_
    · rw [hp.labels_eq]
      exact Use.mem_labels.2 hx
    · rw [hq.labels_eq]
      exact Use.mem_labels.2 hx'
  have hvariables : r.variables = p.variables ++ q.variables.filter (· ∉ p.variables) := by
    rw [Program.variables, huses]
    exact eraseDups_targets_append_all p.uses q.uses
  refine ⟨p, q, hp, hq, ?_, ?_, r.output, translate_eq_ok_iff.2 ⟨r, hr, hwell, rfl⟩, ?_⟩
  · simp [CUnit.text, Program.output, String.append_assoc]
  · simp [CUnit.text, Program.output, String.append_assoc]
  · simp [CUnit.text, Program.output, hlines, hvariables, String.append_assoc]

/-- A program that ends with a comment. -/
def counter : Source := ⟨"counter", "LET n = 3\nLET m = n\nLABEL first\nPRINT m + n # both"⟩

/-- A program that begins with a blank line. -/
def echoed : Source := ⟨"echoed", "\nINPUT k\nLET n = k\nLABEL again\nPRINT n\nGOTO again"⟩

/-- The text of the first program. -/
def counterOutput : CUnit where
  header := "#include <stdio.h>\nint main(void)\x7b\nfloat n;\nfloat m;\n"
  body := "n = 3;\nm = n;\nfirst:;\nprintf(\"%.2f\\n\", (float)(m + n));\nreturn 0;\n\x7d\n"

/-- The text of the second program. -/
def echoedOutput : CUnit where
  header := "#include <stdio.h>\nint main(void)\x7b\nfloat k;\nfloat n;\n"
  body := "if (0 == scanf(\"%f\", &k)) \x7b\nk = 0;\nscanf(\"%*s\");\n\x7d\nn = k;\nagain:;\n" ++
    "printf(\"%.2f\\n\", (float)(n));\ngoto again;\nreturn 0;\n\x7d\n"

theorem translation_composes_counter :
    (translate counter).result = .ok counterOutput ∧
    (translate echoed).result = .ok echoedOutput ∧
    (∀ x ∈ counter.labels, x ∉ echoed.labels) ∧
    ∃ p q : Program, p.IsOf counter ∧ q.IsOf echoed ∧
      counterOutput.text =
        unlines (opening ++ p.variables.map declaration ++ p.lines ++ ending) ∧
      echoedOutput.text =
        unlines (opening ++ q.variables.map declaration ++ q.lines ++ ending) ∧
      ∃ v, (translate (.joined "both" counter echoed)).result = .ok v ∧
        v.text = unlines (opening ++ p.variables.map declaration ++
          (q.variables.filter (· ∉ p.variables)).map declaration ++ p.lines ++ q.lines ++
            ending) :=
  ⟨by decide +kernel, by decide +kernel, by decide +kernel,
    translation_composes "both" (by decide +kernel) (by decide +kernel) (by decide +kernel)⟩

end TinyBasic
