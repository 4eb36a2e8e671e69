import Mathlib.Tactic.FieldSimp
import TinyBasic.Proofs.C.Constant
import TinyBasic.Proofs.Translation.Arithmetic

/-!
# Numerals in C

A numeral is written as it stands in the source, and C takes it for a constant.

* `decimal`: the number that a numeral denotes in decimal notation.
* `constant_decimal_iff`: as a constant of C it denotes that number, unless it has a leading zero
  and no point.  Such a numeral is octal in C: it is no constant if it has an eight or a nine, and
  it denotes another number if it is eight or more (`isConstant_iff`).
* `numeral_constants`: so it is for every numeral in the text of a program.
-/

namespace TinyBasic

open TinyBasic.Tree Lexeme C

variable {cs ds fs raw : List Char} {s : Source} {u : CUnit}

/-! ### Values of numerals -/

/-- The number that a numeral denotes: the digits in front of the point count whole numbers, those
after it tenths, hundredths and so on. -/
def decimal (cs : List Char) : ℚ :=
  let fraction := (cs.dropWhile Char.isDigit).tail
  digits 10 (cs.takeWhile Char.isDigit) + digits 10 fraction / 10 ^ fraction.length

theorem decimal_of_isDigits (h : ∀ d ∈ cs, d.isDigit = true) : decimal cs = digits 10 cs := by
  have htake : cs.takeWhile Char.isDigit = cs := List.takeWhile_eq_self_iff.2 h
  have hdrop : cs.dropWhile Char.isDigit = [] := List.dropWhile_eq_nil_iff.2 h
  simp [decimal, htake, hdrop, digits]

theorem decimal_of_point (h : ∀ d ∈ ds, d.isDigit = true) :
    decimal (ds ++ '.' :: fs) = digits 10 (ds ++ fs) / 10 ^ fs.length := by
  obtain ⟨htake, hdrop⟩ := span_point h fs
  simp only [decimal, htake, hdrop, List.tail_cons, digits_append]
  push_cast
  field_simp

/-- The numeral is an integer with a zero in front. -/
def IsPadded (cs : List Char) : Prop := cs.head? = some '0' ∧ '.' ∉ cs

instance : DecidablePred IsPadded :=
  fun cs => inferInstanceAs (Decidable (cs.head? = some '0' ∧ '.' ∉ cs))

/-- A numeral of the language is made of digits, or has a point between digits. -/
theorem Lexeme.Spells.cases_point (h : Spells .number cs raw) :
    (cs ≠ [] ∧ ∀ d ∈ cs, d.isDigit = true) ∨
      ∃ ds fs, cs = ds ++ '.' :: fs ∧ ds ≠ [] ∧ ∀ d ∈ ds ++ fs, d.isDigit = true := by
  rcases h.isNumeral with hd | ⟨ds, fs, hcs, ⟨hne, hd⟩, ⟨-, hf⟩⟩
  · exact .inl hd
  · exact .inr ⟨ds, fs, hcs, hne, List.forall_mem_append.2 ⟨hd, hf⟩⟩

theorem point_notMem (h : ∀ d ∈ cs, d.isDigit = true) : '.' ∉ cs :=
  fun hmem => by simpa using h '.' hmem

/-- **A numeral without a leading zero, or with a point, denotes in C what it denotes in the
language.** -/
theorem constant_decimal (h : Spells .number cs raw) (hpadded : ¬ IsPadded cs) :
    Constant cs (decimal cs) := by
  rcases h.cases_point with ⟨hne, hd⟩ | ⟨ds, fs, rfl, hne, hd⟩
  · obtain ⟨c, cs, rfl⟩ := List.exists_cons_of_ne_nil hne
    have hzero : c ≠ '0' := by
      rintro rfl
      exact hpadded ⟨rfl, point_notMem hd⟩
    rw [decimal_of_isDigits hd]
    exact .decimal hzero hd
  · rw [decimal_of_point fun d hds => hd d (List.mem_append_left _ hds)]
    exact .floating hd (List.append_ne_nil_of_left_ne_nil hne fs)

/-- A numeral with a leading zero and no point is made of digits. -/
theorem isDigit_of_isPadded (h : Spells .number cs raw) (hpadded : IsPadded cs) :
    ∀ d ∈ cs, d.isDigit = true := by
  rcases h.cases_point with ⟨-, hd⟩ | ⟨ds, fs, rfl, -⟩
  · exact hd
  · exact absurd (by simp) hpadded.2

/-- A numeral with a leading zero and no point is octal in C. -/
theorem constant_iff_of_isPadded (hpadded : IsPadded cs) {v : ℚ} :
    Constant cs v ↔ (∀ d ∈ cs, isOctal d = true) ∧ v = digits 8 cs := by
  constructor
  · intro hv
    rcases hv.of_notMem hpadded.2 with ⟨hzero, -⟩ | ⟨-, hoctal⟩
    · exact absurd hpadded.1 hzero
    · exact hoctal
  · rintro ⟨hoctal, rfl⟩
    obtain ⟨cs, rfl⟩ := List.head?_eq_some_iff.1 hpadded.1
    exact .octal (List.forall_mem_cons.1 hoctal).2

/-- **A numeral is a constant of C** unless it has a leading zero, no point, and an eight or a
nine. -/
theorem isConstant_iff (h : Spells .number cs raw) :
    (∃ v, Constant cs v) ↔ (IsPadded cs → ∀ d ∈ cs, isOctal d = true) := by
  by_cases hpadded : IsPadded cs
  · simp [constant_iff_of_isPadded hpadded, hpadded]
  · exact iff_of_true ⟨_, constant_decimal h hpadded⟩ fun hp => absurd hp hpadded

/-- **A numeral denotes in C what it denotes in the language** unless it has a leading zero, no
point, and is eight or more. -/
theorem constant_decimal_iff (h : Spells .number cs raw) :
    Constant cs (decimal cs) ↔ (IsPadded cs → decimal cs < 8) := by
  by_cases hpadded : IsPadded cs
  · have hd := isDigit_of_isPadded h hpadded
    rw [constant_iff_of_isPadded hpadded, decimal_of_isDigits hd]
    have hlt : ((digits 10 cs : ℚ) < 8) ↔ digits 10 cs < 8 := by norm_cast
    have heq : ((digits 10 cs : ℚ) = digits 8 cs) ↔ digits 8 cs = digits 10 cs := by
      rw [Nat.cast_inj, eq_comm]
    rw [hlt, heq]
    constructor
    · rintro ⟨hoctal, hvalue⟩ -
      exact (digits_eight_eq_iff fun d hd => (isOctal_iff.1 (hoctal d hd)).2).1 hvalue
    · intro hvalue
      have hsmall : ∀ d ∈ cs, digit d < 8 :=
        fun d hd => (digit_le_digits hd).trans_lt (hvalue hpadded)
      exact ⟨fun d hmem => isOctal_iff.2 ⟨hd d hmem, hsmall d hmem⟩,
        (digits_eight_eq_iff hsmall).2 (hvalue hpadded)⟩
  · exact iff_of_true (constant_decimal h hpadded) fun hp => absurd hp hpadded

/-! ### The numerals of a program -/

/-- **Numerals in C.**  Every numeral of a program that is translated is in an expression that
stands on a line of the body, where it is one of the tokens of C.  It is a constant of C unless it
has a leading zero, no point, and an eight or a nine; and it denotes the same number there as in
decimal notation, and no other, unless it has a leading zero, no point, and is eight or more. -/
theorem numeral_constants (h : (translate s).result = .ok u) :
    ∃ p : Program, (∀ q : Program, q.IsOf s ↔ q = p) ∧
      ∀ t ∈ p.tokens, t.value.kind = .number →
        (∃ x ∈ p.expressions, t ∈ x.tokens ∧ StandsOn x.render (CText.lines u.body) ∧
          ∀ ts : List String, C.Splits x.render.toList ts ↔ ts = lexemes x.tokens) ∧
        ((∃ v, Constant t.value.text.toList v) ↔
          (IsPadded t.value.text.toList → ∀ d ∈ t.value.text.toList, isOctal d = true)) ∧
        ((∀ v, Constant t.value.text.toList v ↔ v = decimal t.value.text.toList) ↔
          (IsPadded t.value.text.toList → decimal t.value.text.toList < 8)) := by
  obtain ⟨p, hp, hspelled, hscoped, rfl⟩ := exists_derivation h
  refine ⟨p, hp, fun t ht hk => ?_⟩
  obtain ⟨raw, hraw⟩ := hspelled t ht
  rw [hk] at hraw
  refine ⟨?_, isConstant_iff hraw, ?_⟩
  · obtain ⟨x, hx, htx⟩ := p.exists_expression_of_number ht hk
    have hsplits := (x.transcribes (Program.expression_isPlain hspelled hscoped hx)).splits
    refine ⟨x, hx, htx, Program.expression_standsOn hspelled hx, fun ts => ?_⟩
    have hall : Splits (x.render.toList ++ []) ts ↔ ts = lexemes x.tokens ++ [] :=
      hsplits.splits_iff stops_nil .nil
    rwa [List.append_nil, List.append_nil] at hall
  · rw [← constant_decimal_iff hraw]
    exact ⟨fun hall => (hall _).2 rfl,
      fun hdecimal v => ⟨fun hv => hv.unique hdecimal, fun hv => hv ▸ hdecimal⟩⟩

/-- A program with an integer, a zero, and a numeral that has leading zeros and a point. -/
def counts : Source := ⟨"counts", "LET x = 12\nPRINT 007.50 * x - 0\n"⟩

/-- Its text in C. -/
def countsOutput : CUnit where
  header := "#include <stdio.h>\nint main(void)\x7b\nfloat x;\n"
  body := "x = 12;\nprintf(\"%.2f\\n\", (float)(007.50 * x - 0));\nreturn 0;\n\x7d\n"

theorem numeral_constants_counts :
    (translate counts).result = .ok countsOutput ∧
    ∃ p : Program, (∀ q : Program, q.IsOf counts ↔ q = p) ∧
      ∀ t ∈ p.tokens, t.value.kind = .number →
        (∃ x ∈ p.expressions, t ∈ x.tokens ∧ StandsOn x.render (CText.lines countsOutput.body) ∧
          ∀ ts : List String, C.Splits x.render.toList ts ↔ ts = lexemes x.tokens) ∧
        ((∃ v, Constant t.value.text.toList v) ↔
          (IsPadded t.value.text.toList → ∀ d ∈ t.value.text.toList, isOctal d = true)) ∧
        ((∀ v, Constant t.value.text.toList v ↔ v = decimal t.value.text.toList) ↔
          (IsPadded t.value.text.toList → decimal t.value.text.toList < 8)) :=
  ⟨by decide +kernel, numeral_constants (by decide +kernel)⟩

/-- What the lexer answers in front of the end is a token of the program. -/
theorem Tree.Program.IsOf.mem_tokens {p : Program} (hp : p.IsOf s) {t : Token}
    (ht : .ok t ∈ (Lexer.ofSource s).items.map Lexer.content) (hk : t.kind ≠ .eof) :
    t ∈ p.tokens.map Located.value := by
  obtain ⟨e, he, hitems⟩ := hp
  rw [hitems] at ht
  obtain ⟨_, hitem, hok⟩ := List.mem_map.1 ht
  obtain ⟨l, hl, rfl⟩ := List.mem_map.1 hitem
  obtain rfl : l.value = t := Except.ok.inj hok
  rcases List.mem_append.1 hl with hl | hl
  · exact List.mem_map_of_mem hl
  · obtain rfl := List.mem_singleton.1 hl
    exact absurd he hk

/-- A program with two integers that have a leading zero. -/
def padded : Source := ⟨"padded", "PRINT 08\nPRINT 010\n"⟩

/-- Its text in C. -/
def paddedOutput : CUnit where
  header := "#include <stdio.h>\nint main(void)\x7b\n"
  body := "printf(\"%.2f\\n\", (float)(08));\nprintf(\"%.2f\\n\", (float)(010));\n" ++
    "return 0;\n\x7d\n"

/-- **C takes leading zeros for octal.**  One of the two integers is no constant of C, and the other
one denotes eight there and ten in the language. -/
theorem padded_is_octal :
    (translate padded).result = .ok paddedOutput ∧
    ∃ p : Program, (∀ q : Program, q.IsOf padded ↔ q = p) ∧
      ⟨.number, "08"⟩ ∈ p.tokens.map Located.value ∧ (∀ v, ¬ Constant "08".toList v) ∧
      ⟨.number, "010"⟩ ∈ p.tokens.map Located.value ∧ decimal "010".toList = 10 ∧
      ∀ v, Constant "010".toList v ↔ v = 8 := by
  have hresult : (translate padded).result = .ok paddedOutput := by decide +kernel
  obtain ⟨p, hp, -⟩ := exists_derivation hresult
  have hself := (hp p).2 rfl
  refine ⟨hresult, p, hp, hself.mem_tokens (by decide +kernel) (by decide), fun v hv => ?_,
    hself.mem_tokens (by decide +kernel) (by decide), by decide +kernel, fun v => ?_⟩
  · have hoctal := ((constant_iff_of_isPadded (by decide)).1 hv).1
    simpa [isOctal, digit] using hoctal '8' (by simp)
  · rw [constant_iff_of_isPadded (by decide)]
    exact and_iff_right (List.all_eq_true.1 (by decide))

end TinyBasic
