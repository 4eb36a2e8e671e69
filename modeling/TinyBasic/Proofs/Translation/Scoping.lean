import TinyBasic.Proofs.Translation.Correctness
import TinyBasic.Proofs.Translation.Lines

/-!
# The generated text is well scoped

`CUnit.WellScoped u vars` says of a C text alone what C demands of the names in it: it reads them
off the lines of the text.  The lines that declare a label are as many as the labels of the program
(`Tree.Program.count_label`), the other lines do with names what the uses of the program say, and
the static rules do the rest (`output_is_wellScoped`).
-/

namespace TinyBasic

open TinyBasic.Tree CText Lexeme

variable {us : List Use}

/-! ### Labels -/

theorem Tree.Series.labels_uses {X : Type} {isOperator : Token.Kind → Bool} {uses : X → List Use}
    (h : ∀ x, Use.labels (uses x) = []) (x : Series isOperator X) :
    Use.labels (x.gather uses) = [] := by
  obtain ⟨first, later⟩ := x
  rw [Series.gather, Use.labels_append, h, List.nil_append]
  induction later with
  | nil => rfl
  | cons y later ih => rw [List.flatMap_cons, Use.labels_append, h, ih, List.nil_append]

theorem Tree.Expression.labels_uses (x : Expression) : Use.labels x.uses = [] := by
  have hprimary : ∀ p : Primary, Use.labels p.uses = [] := fun p => by cases p <;> rfl
  rw [x.uses_eq]
  exact Series.labels_uses (Series.labels_uses fun u : Unary => hprimary u.operand) x

theorem Tree.Comparison.labels_uses (c : Comparison) : Use.labels c.uses = [] := by
  rw [c.uses_eq]
  exact c.chain.labels_uses Expression.labels_uses

/-- Lines that come from uses without labels declare no label. -/
theorem count_label_eq_zero {ls : List String} (hfits : ∀ l ∈ ls, Fits us l)
    (hus : Use.labels us = []) (x : String) : ls.count (x ++ ":;") = 0 := by
  refine List.count_eq_zero.2 fun hmem => ?_
  have := Use.mem_labels.2 (hfits _ hmem).label_mem
  rw [hus] at this
  cases this

theorem Tree.Line.count_label {s : TinyBasic.Statement} (line : Line s)
    (h : ∀ t ∈ line.tokens, IsSpelled t) (x : String) :
    line.lines.count (x ++ ":;") = (Use.labels line.uses).count x := by
  have none : Use.labels line.uses = [] →
      line.lines.count (x ++ ":;") = (Use.labels line.uses).count x := fun hus => by
    rw [count_label_eq_zero (line.fits h) hus, hus, List.count_nil]
  cases line with
  | label name =>
    have hlabels : Use.labels (Line.label name).uses = [name.text] := rfl
    rw [hlabels, lines, List.count_singleton, List.count_singleton]
    by_cases hx : name.text = x <;> simp [hx]
  | printText text => exact none rfl
  | printValue value => exact none value.labels_uses
  | goto name => exact none rfl
  | assign name equals value =>
    refine none ?_
    rw [uses_assign, Use.labels_append, value.labels_uses]
    rfl
  | input name => exact none rfl

mutual

theorem Tree.Statement.count_label (s : Tree.Statement) (h : ∀ t ∈ s.tokens, IsSpelled t)
    (x : String) : s.lines.count (x ++ ":;") = (Use.labels s.uses).count x :=
  match s with
  | .line _ _ line _ => line.count_label (fun t ht => h t (by simp [Statement.tokens, ht])) x
  | .block b head body _ => by
    have hhead := reads_comparison head.condition fun t ht =>
      h t (by simp [Statement.tokens, Head.tokens, ht])
    have hbody := count_label_all body (fun t ht => h t (by simp [Statement.tokens, ht])) x
    have hstart := List.forall_mem_singleton.2 ((Frame.block b).fits_of_reads hhead)
    have hfirst := count_label_eq_zero hstart head.condition.labels_uses x
    have hend : ∀ l ∈ ["\x7d"], Fits [] l := List.forall_mem_singleton.2 (.closing (by simp))
    have hlast := count_label_eq_zero hend rfl x
    rw [Statement.lines, Statement.uses_block, Use.labels_append, head.condition.labels_uses,
      List.nil_append, List.cons_append, ← List.singleton_append, List.count_append,
      List.count_append, hfirst, hlast, hbody]
    omega

theorem Tree.count_label_all (ss : List Tree.Statement) (h : ∀ t ∈ tokensAll ss, IsSpelled t)
    (x : String) : (linesAll ss).count (x ++ ":;") = (Use.labels (usesAll ss)).count x :=
  match ss with
  | [] => rfl
  | s :: ss => by
    have hs := s.count_label (fun t ht => h t (List.mem_append_left _ ht)) x
    have hss := count_label_all ss (fun t ht => h t (List.mem_append_right _ ht)) x
    rw [linesAll, usesAll_cons, List.count_append, Use.labels_append, List.count_append, hs, hss]

end

/-! ### Programs -/

theorem Tree.Program.IsOf.isSpelled {p : Program} {s : Source} (h : p.IsOf s) :
    ∀ t ∈ p.tokens, IsSpelled t := by
  obtain ⟨e, -, hitems⟩ := h
  exact fun t ht => Lexer.spells_of_items_eq hitems ht

theorem isSpelled_statements {p : Program} (h : ∀ t ∈ p.tokens, IsSpelled t) :
    ∀ t ∈ tokensAll p.statements, IsSpelled t :=
  fun t ht => h t (List.mem_append_right _ ht)

theorem Tree.Program.fits (p : Program) (h : ∀ t ∈ p.tokens, IsSpelled t) :
    ∀ l ∈ p.lines ++ ending, Fits p.uses l := by
  intro l hl
  rcases List.mem_append.1 hl with hl | hl
  · exact fitsAll p.statements (isSpelled_statements h) l hl
  · exact .closing (List.mem_cons_of_mem _ hl)

theorem Tree.Program.lines_body (p : Program) (h : ∀ t ∈ p.tokens, IsSpelled t) :
    CText.lines p.output.body = p.lines ++ ending ++ [""] :=
  lines_unlines fun l hl => (p.fits h l hl).newline_notMem

theorem Tree.Program.fits_body (p : Program) (h : ∀ t ∈ p.tokens, IsSpelled t) :
    ∀ l ∈ CText.lines p.output.body, Fits p.uses l := by
  rw [p.lines_body h]
  intro l hl
  rcases List.mem_append.1 hl with hl | hl
  · exact p.fits h l hl
  · obtain rfl := List.mem_singleton.1 hl
    exact .empty

/-- **The lines that declare a label are as many as its declarations.** -/
theorem Tree.Program.count_label (p : Program) (h : ∀ t ∈ p.tokens, IsSpelled t) (x : String) :
    (CText.lines p.output.body).count (x ++ ":;") = (Use.labels p.uses).count x := by
  have hlast : (ending ++ [""]).count (x ++ ":;") = 0 := by
    have hfits : ∀ l ∈ ending ++ [""], Fits [] l := by
      intro l hl
      rcases List.mem_append.1 hl with hl | hl
      · exact .closing (List.mem_cons_of_mem _ hl)
      · obtain rfl := List.mem_singleton.1 hl
        exact .empty
    exact count_label_eq_zero hfits rfl x
  rw [p.lines_body h, List.append_assoc, List.count_append, hlast, Nat.add_zero]
  exact count_label_all p.statements (isSpelled_statements h) x

theorem nodup_eraseDups (xs : List String) : xs.eraseDups.Nodup := by
  induction hn : xs.length using Nat.strong_induction_on generalizing xs with
  | _ n ih =>
    subst hn
    cases xs with
    | nil => exact List.nodup_nil
    | cons x xs =>
      rw [List.eraseDups_cons, List.nodup_cons, List.mem_eraseDups]
      refine ⟨by simp, ih _ ?_ _ rfl⟩
      have := List.length_filter_le (fun y => !y == x) xs
      rw [List.length_cons]
      omega

/-- What C demands of the names in a text: the header declares the variables, each once, and the
body uses no other; each label is declared once, and so is each that is jumped to; and no name is
taken from C. -/
structure CUnit.WellScoped (u : CUnit) (vars : List String) : Prop where
  /-- The header declares the variables. -/
  header : u.header = unlines (["#include <stdio.h>", "int main(void)\x7b"] ++
    vars.map fun x => "float " ++ x ++ ";")
  /-- No variable is declared twice. -/
  nodup : vars.Nodup
  /-- An identifier in the body that is no label belongs to C or is declared. -/
  declared : ∀ l ∈ CText.lines u.body, (∀ x, l ≠ x ++ ":;") → (∀ x, l ≠ "goto " ++ x ++ ";") →
    ∀ x ∈ identifiers l, x ∈ Reserved.words ∨ x ∈ Reserved.functions ∨ x ∈ vars
  /-- No label is declared twice. -/
  label : ∀ x, (CText.lines u.body).count (x ++ ":;") ≤ 1
  /-- Every label that is jumped to is declared. -/
  goto : ∀ x, "goto " ++ x ++ ";" ∈ CText.lines u.body → x ++ ":;" ∈ CText.lines u.body
  /-- No variable has a name that the text takes for something else. -/
  variable_free : ∀ x ∈ vars, x ∉ Reserved.words ∧ x ∉ Reserved.functions
  /-- No label has a name that C takes. -/
  label_free : ∀ x, x ++ ":;" ∈ CText.lines u.body → x ∉ Reserved.words

/-- A variable that is read got a value before. -/
theorem WellScoped.mem_variables {p : Program} (h : WellScoped p.uses) {x : String}
    (hx : .read x ∈ p.uses ∨ .assign x ∈ p.uses) : x ∈ p.variables := by
  rw [Program.variables, List.mem_eraseDups, Use.mem_targets]
  rcases hx with hx | hx
  · obtain ⟨before, later, huses⟩ := List.append_of_mem hx
    rw [huses]
    exact List.mem_append_left _ (h.read before x later huses)
  · exact hx

theorem wellScoped_output {p : Program} (h : WellScoped p.uses)
    (hspelled : ∀ t ∈ p.tokens, IsSpelled t) : p.output.WellScoped p.variables := by
  have hfits := p.fits_body hspelled
  have hcount := p.count_label hspelled
  refine ⟨rfl, nodup_eraseDups _, ?_, ?_, ?_, ?_, ?_⟩
  · intro l hl hlabel hgoto x hx
    rcases (hfits l hl).isKnown hlabel hgoto hx with hx | hx | hx
    · exact .inl hx
    · exact .inr (.inl hx)
    · exact .inr (.inr (h.mem_variables hx))
  · intro x
    rw [hcount]
    exact List.nodup_iff_count.1 h.nodup x
  · intro x hx
    -- a variable cannot be called like the word for jumps, because C takes it
    have hgoto : .goto x ∈ p.uses := (hfits _ hx).goto_mem.resolve_right fun hassign =>
      (h.target _ hassign).1 (by decide)
    have hlabel := Use.mem_labels.2 (h.declared x hgoto)
    rw [← List.count_pos_iff, ← hcount] at hlabel
    exact List.count_pos_iff.1 hlabel
  · intro x hx
    rw [Program.variables, List.mem_eraseDups, Use.mem_targets] at hx
    exact h.target x hx
  · exact fun x hx => h.label x (hfits _ hx).label_mem

/-- **The text is well scoped.**  The variables that its header declares are the targets of the
program, in the order in which they first occur. -/
theorem output_is_wellScoped {s : Source} {u : CUnit} (h : (translate s).result = .ok u) :
    ∃ p : Program, (∀ q : Program, q.IsOf s ↔ q = p) ∧
      u.WellScoped (Use.targets p.uses).eraseDups ∧
      ∀ x, .read x ∈ p.uses ∨ .assign x ∈ p.uses → x ∈ Use.targets p.uses := by
  obtain ⟨p, hp, hscoped, rfl⟩ := translate_eq_ok_iff.1 h
  have hunique : ∀ q : Program, q.IsOf s ↔ q = p :=
    fun q => ⟨fun hq => hq.unique hp, fun hq => hq ▸ hp⟩
  refine ⟨p, hunique, wellScoped_output hscoped hp.isSpelled, fun x hx => ?_⟩
  exact List.mem_eraseDups.1 (hscoped.mem_variables hx)

/-- A program that jumps back, with targets inside a block and a target that occurs twice. -/
def jumpBack : Source where
  name := "jump-back"
  body := "LABEL top\nINPUT b\nLET a = b\nIF a < 3 THEN\nLET c = a\nLET b = c + 1\n" ++
    "GOTO top\nENDIF\n"

/-- Its text in C. -/
def jumpBackOutput : CUnit where
  header := "#include <stdio.h>\nint main(void)\x7b\nfloat b;\nfloat a;\nfloat c;\n"
  body := "top:;\nif (0 == scanf(\"%f\", &b)) \x7b\nb = 0;\nscanf(\"%*s\");\n\x7d\na = b;\n" ++
    "if(a < 3)\x7b\nc = a;\nb = c + 1;\ngoto top;\n\x7d\nreturn 0;\n\x7d\n"

theorem output_is_wellScoped_jumpBack :
    (translate jumpBack).result = .ok jumpBackOutput ∧
    ∃ p : Program, (∀ q : Program, q.IsOf jumpBack ↔ q = p) ∧
      jumpBackOutput.WellScoped (Use.targets p.uses).eraseDups ∧
      ∀ x, .read x ∈ p.uses ∨ .assign x ∈ p.uses → x ∈ Use.targets p.uses :=
  ⟨by decide +kernel, output_is_wellScoped (by decide +kernel)⟩

end TinyBasic
