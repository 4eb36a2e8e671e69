import TinyBasic.Proofs.C.Literal
import TinyBasic.Proofs.Translation.Numerals

/-!
# Printed texts in C

A string literal is written between the quotes of a literal of C as it stands in the source, and
the literal is then a format.  The language keeps the characters out of its string literals that
the literals and the formats of C read otherwise, but two things get through: trigraphs, which are
made of characters that are harmless on their own, and zero characters, which end a format.  A text
comes out as it stands exactly when it has neither of them (`printed_texts`).
-/

namespace TinyBasic

open TinyBasic.Tree C

variable {s : Source} {u : CUnit}

/-- **Printed texts in C.**  Every text that a translated program prints is on a line of the body
that calls `printf` for it.  What C99 prints there is the text and a line feed, and nothing else,
exactly when the text has neither a trigraph nor a zero character. -/
theorem printed_texts (h : (translate s).result = .ok u) :
    ∃ p : Program, (∀ q : Program, q.IsOf s ↔ q = p) ∧
      ∀ t : Exactly .string, .line (.printText t) ∈ p.parts →
        "printf(\"" ++ t.text ++ "\\n\");" ∈ CText.lines u.body ∧
        ((∀ out, Prints ("printf(\"" ++ t.text ++ "\\n\");") out ↔
            out = utf8 (t.text.toList ++ ['\n'])) ↔
          '\x00' ∉ t.text.toList ∧ ¬ HasTrigraph t.text.toList) := by
  obtain ⟨p, hp, hspelled, -, rfl⟩ := exists_derivation h
  refine ⟨p, hp, fun t ht => ?_⟩
  have hisIn := p.part_isIn _ ht
  obtain ⟨raw, hraw⟩ := hspelled t.token (hisIn.tokens (by simp [Part.tokens, Line.tokens]))
  rw [t.fits] at hraw
  exact ⟨p.lines_subset_body hspelled (hisIn.lines (by simp [Part.lines, Line.lines])),
    prints_text_iff hraw.isStringText⟩

/-- A program that prints question marks, letters beyond ASCII, and what would be a comment. -/
def greeting : Source := ⟨"greeting", "PRINT \"¿Qué? /* ?! */ #1\"\n"⟩

/-- Its text in C. -/
def greetingOutput : CUnit where
  header := "#include <stdio.h>\nint main(void)\x7b\n"
  body := "printf(\"¿Qué? /* ?! */ #1\\n\");\nreturn 0;\n\x7d\n"

theorem printed_texts_greeting :
    (translate greeting).result = .ok greetingOutput ∧
    ∃ p : Program, (∀ q : Program, q.IsOf greeting ↔ q = p) ∧
      ∀ t : Exactly .string, .line (.printText t) ∈ p.parts →
        "printf(\"" ++ t.text ++ "\\n\");" ∈ CText.lines greetingOutput.body ∧
        ((∀ out, Prints ("printf(\"" ++ t.text ++ "\\n\");") out ↔
            out = utf8 (t.text.toList ++ ['\n'])) ↔
          '\x00' ∉ t.text.toList ∧ ¬ HasTrigraph t.text.toList) :=
  ⟨by decide +kernel, printed_texts (by decide +kernel)⟩

/-- A program that prints a trigraph. -/
def surprised : Source := ⟨"surprised", "PRINT \"what??!\"\n"⟩

/-- Its text in C. -/
def surprisedOutput : CUnit where
  header := "#include <stdio.h>\nint main(void)\x7b\n"
  body := "printf(\"what??!\\n\");\nreturn 0;\n\x7d\n"

/-- **C replaces trigraphs** in a text as anywhere else, so another text comes out. -/
theorem trigraph_is_replaced :
    (translate surprised).result = .ok surprisedOutput ∧
    (∃ p : Program, (∀ q : Program, q.IsOf surprised ↔ q = p) ∧
      ⟨.string, "what??!"⟩ ∈ p.tokens.map Located.value) ∧
    "printf(\"what??!\\n\");" ∈ CText.lines surprisedOutput.body ∧
    (∀ out, Prints "printf(\"what??!\\n\");" out ↔ out = utf8 "what|\n".toList) ∧
    utf8 "what|\n".toList ≠ utf8 "what??!\n".toList := by
  have hresult : (translate surprised).result = .ok surprisedOutput := by decide +kernel
  obtain ⟨p, hp, -⟩ := exists_derivation hresult
  refine ⟨hresult, ⟨p, hp, ((hp p).2 rfl).mem_tokens (by decide +kernel) (by decide)⟩,
    by decide +kernel, fun out => ?_, by decide⟩
  have hline : "printf(\"what??!\\n\");" = "printf(\"" ++ "what??!" ++ "\\n\");" := by decide
  have hverbatim : IsVerbatim "what|".toList := by simp [IsVerbatim]
  have hprints : Prints ("printf(\"" ++ "what??!" ++ "\\n\");") (utf8 "what|\n".toList) :=
    prints_verbatim (by decide) hverbatim
  rw [hline]
  exact ⟨fun hout => hout.unique hprints, fun hout => hout ▸ hprints⟩

end TinyBasic
