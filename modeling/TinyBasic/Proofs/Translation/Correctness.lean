import TinyBasic.Proofs.Grammar.Sentence
import TinyBasic.Proofs.Grammar.Unambiguity
import TinyBasic.Proofs.Translation.Rendering

/-!
# Translations and derivations

A translation carries out what the grammar asks for while it reads a source.  What comes of that
can be told from the derivation of the source alone: `translate_eq_ok_iff` says that a source is
translated exactly when it has a derivation that keeps the static rules, and that the text is the
one that is rendered from the derivation.
-/

namespace TinyBasic

open TinyBasic.Tree

variable {s : Source} {u base : CUnit} {p : Program} {w : Workspace}

/-- What is asked for after the first lines of the header. -/
def Tree.Program.inner (p : Program) : List Action :=
  p.blank.map (fun _ => .pull) ++ actionsAll p.statements ++ ending.map .writeLine

theorem Tree.Program.emits (p : Program) :
    Emits p.inner p.checks (unlines (p.lines ++ ending)) := by
  have hend : Emits (ending.map .writeLine) [] (unlines ending) :=
    ((Emits.nil.cons rfl).cons rfl).congr rfl (by simp [Action.written, ending])
  exact (((emits_pulls p.blank).append (emitsAll p.statements)).append hend).congr
    (by simp [checks]) (by simp [lines])

theorem Tree.Program.usesAll_inner (p : Program) : Action.usesAll p.inner = p.uses := p.emits.uses

namespace Workspace

/-- The workspace when the lines of the header that every text begins with have been written. -/
def opened (base : CUnit) : Workspace where
  scope := .empty
  output := (base.headerLine "#include <stdio.h>").headerLine "int main(void)\x7b"
  log := #[⟨.trace, Construct.program.name⟩]
  pulls := 2

theorem performAll_onto (base : CUnit) (p : Program) :
    (onto base).performAll (.pull :: .pull :: p.actions) = (opened base).performAll p.inner := rfl

theorem shows_opened (base : CUnit) : (opened base).Shows base opening [] "" where
  scope := Scope.tracks_empty
  header := by simp [opened, CUnit.headerLine, opening, String.append_assoc]
  body := by simp [opened, CUnit.headerLine]

theorem exists_performAll_program_iff (base : CUnit) (p : Program) :
    (∃ w', (onto base).performAll (.pull :: .pull :: p.actions) = (w', none)) ↔
      Use.AllAllowed p.uses := by
  rw [performAll_onto, exists_performAll_iff (shows_opened base) p.emits.inner Use.allAllowed_nil,
    p.usesAll_inner, List.nil_append]

theorem shows_of_performAll_program
    (h : (onto base).performAll (.pull :: .pull :: p.actions) = (w, none)) :
    w.Shows base opening p.uses (unlines (p.lines ++ ending)) := by
  rw [performAll_onto] at h
  have := (shows_opened base).performAll p.emits.inner h
  rwa [p.usesAll_inner, p.emits.written, List.nil_append, String.empty_append] at this

/-- What a workspace that began without any text has written. -/
theorem Shows.output_eq (hw : w.Shows .empty opening p.uses (unlines (p.lines ++ ending))) :
    p.output = w.output := by
  have hheader := hw.header
  have hbody := hw.body
  rw [CUnit.empty, String.empty_append] at hheader hbody
  simp only [Program.output, Program.variables, ← hheader, ← hbody]

end Workspace

/-- A script that is carried out to its end, and whose jumps are settled. -/
theorem Translation.ofScript_eq_ok_iff {script : Script} {w : Workspace} :
    (Translation.ofScript script w).result = .ok u ↔
      script.ending = .ok () ∧ ∃ w', w.performAll script.actions = (w', none) ∧
        w'.scope.finish = .ok () ∧ w'.output = u := by
  unfold Translation.ofScript
  rcases hw : w.performAll script.actions with ⟨w', _ | e⟩
  · cases script.ending with
    | error e => simp
    | ok a => cases hf : w'.scope.finish <;> simp [hf]
  · simp

/-- **A source is translated exactly when it has a derivation that keeps the static rules**, and
its text is the one that is rendered from the derivation. -/
theorem translate_eq_ok_iff :
    (translate s).result = .ok u ↔
      ∃ p : Program, p.IsOf s ∧ WellScoped p.uses ∧ p.output = u := by
  unfold translate translateOnto
  rw [Translation.ofScript_eq_ok_iff]
  constructor
  · rintro ⟨hread, w, hw, hfinish, rfl⟩
    obtain ⟨p, hp⟩ := Script.exists_isOf hread
    rw [Script.ofSource_eq hp] at hw
    have hshows := Workspace.shows_of_performAll_program hw
    have hallowed := (Workspace.exists_performAll_program_iff .empty p).1 ⟨w, hw⟩
    exact ⟨p, hp, wellScoped_iff.2 ⟨hallowed, hshows.scope.finish_eq_ok_iff.1 hfinish⟩,
      hshows.output_eq⟩
  · rintro ⟨p, hp, hscoped, rfl⟩
    obtain ⟨hallowed, hjumps⟩ := wellScoped_iff.1 hscoped
    obtain ⟨w, hw⟩ := (Workspace.exists_performAll_program_iff .empty p).2 hallowed
    have hshows := Workspace.shows_of_performAll_program hw
    rw [Script.ofSource_eq hp]
    exact ⟨rfl, w, hw, hshows.scope.finish_eq_ok_iff.2 hjumps,
      hshows.output_eq.symm⟩

/-- **The text is rendered from the derivation of the source**: the source has exactly one
derivation, the header holds the opening lines and the declarations, and the body is the rendering
of the derivation and the ending lines. -/
theorem text_is_rendered (h : (translate s).result = .ok u) :
    ∃ p : Program, (∀ q : Program, q.IsOf s ↔ q = p) ∧
      u.text = u.header ++ u.body ∧
      u.header = unlines (["#include <stdio.h>", "int main(void)\x7b"] ++
        p.variables.map fun x => "float " ++ x ++ ";") ∧
      u.body = unlines p.lines ++ unlines ["return 0;", "\x7d"] := by
  obtain ⟨p, hp, -, rfl⟩ := translate_eq_ok_iff.1 h
  have hunique : ∀ q : Program, q.IsOf s ↔ q = p :=
    fun q => ⟨fun hq => hq.unique hp, fun hq => hq ▸ hp⟩
  exact ⟨p, hunique, rfl, rfl, unlines_append _ _⟩

/-- A program with a block inside a block. -/
def nested : Source where
  name := "nested"
  body := "INPUT x\nWHILE x < 3 REPEAT\nIF x == -2 THEN\nPRINT \"low\"\nENDIF\n" ++
    "LET x = x + 1\nENDWHILE\n"

/-- Its text in C. -/
def nestedOutput : CUnit where
  header := "#include <stdio.h>\nint main(void)\x7b\nfloat x;\n"
  body := "if (0 == scanf(\"%f\", &x)) \x7b\nx = 0;\nscanf(\"%*s\");\n\x7d\n" ++
    "while(x < 3)\x7b\nif(x == -2)\x7b\nprintf(\"low\\n\");\n\x7d\nx = x + 1;\n\x7d\n" ++
    "return 0;\n\x7d\n"

theorem text_is_rendered_nested :
    (translate nested).result = .ok nestedOutput ∧
    ∃ p : Program, (∀ q : Program, q.IsOf nested ↔ q = p) ∧
      nestedOutput.text = nestedOutput.header ++ nestedOutput.body ∧
      nestedOutput.header = unlines (["#include <stdio.h>", "int main(void)\x7b"] ++
        p.variables.map fun x => "float " ++ x ++ ";") ∧
      nestedOutput.body = unlines p.lines ++ unlines ["return 0;", "\x7d"] :=
  ⟨by decide +kernel, text_is_rendered (by decide +kernel)⟩

/-- **The compiler accepts exactly its language**: the lexer reaches the end of the text without an
error, the kinds of the tokens before the end are a sentence of the grammar, and the uses of names
in the derivation keep the static rules. -/
theorem accepts_iff (s : Source) :
    (∃ u, (translate s).result = .ok u) ↔
      ∃ (ts : List (Located Token)) (e : Located Token),
        (Lexer.ofSource s).items = (ts ++ [e]).map .ok ∧ e.value.kind = .eof ∧
          Sentence (kinds ts) ∧ ∀ p : Program, p.tokens = ts → WellScoped p.uses := by
  simp only [translate_eq_ok_iff]
  constructor
  · rintro ⟨-, p, ⟨e, he, hitems⟩, hscoped, -⟩
    -- no other tree has these tokens
    refine ⟨p.tokens, e, hitems, he, ⟨p, rfl⟩, fun q hq => ?_⟩
    rwa [Program.tokens_injective hq]
  · rintro ⟨ts, e, hitems, he, hsentence, hscoped⟩
    obtain ⟨p, rfl⟩ := sentence_iff.1 hsentence
    exact ⟨p.output, p, ⟨e, he, hitems⟩, hscoped p rfl, rfl⟩

end TinyBasic
