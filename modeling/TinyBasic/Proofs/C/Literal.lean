import TinyBasic.Proofs.C.Constant

/-!
# Printing a string literal in C

What a line prints that calls `printf` with nothing but a string literal.  C99 reads it in three
steps.

* `C.replaceTrigraphs`: two question marks and one of nine characters stand for another character,
  wherever they are.
* `C.Denotes cs bs`: the characters between the quotes denote the bytes `bs`.  A backslash begins
  an escape (`C.Escape`), which is as long as it can be.
* `C.Formats bs out`: as a format without arguments, the bytes up to the first zero print `out`.

`C.Prints line out` puts the steps together, and a line prints one sequence of bytes
(`C.Prints.unique`).  Characters are encoded in UTF-8, in the text as well as in the output.  A text
of the language comes out as it stands exactly when it has neither a trigraph nor a zero character
(`C.prints_text_iff`).
-/

namespace TinyBasic.C

open Lexeme

variable {c : Char} {b : UInt8} {cs ds : List Char} {bs out : List UInt8}

/-! ### Trigraphs -/

/-- What stands after two question marks, and what the three stand for. -/
def trigraphs : List (Char × Char) :=
  [('=', '#'), ('(', '['), ('/', '\\'), (')', ']'), ('\'', '^'), ('<', '\x7b'), ('!', '|'),
    ('>', '\x7d'), ('-', '~')]

/-- The character that two question marks and this character stand for. -/
def trigraph? (c : Char) : Option Char := trigraphs.lookup c

/-- The text with every trigraph replaced, from left to right. -/
def replaceTrigraphs : List Char → List Char
  | '?' :: '?' :: c :: cs =>
    match trigraph? c with
    | some d => d :: replaceTrigraphs cs
    | none => '?' :: replaceTrigraphs ('?' :: c :: cs)
  | c :: cs => c :: replaceTrigraphs cs
  | [] => []

/-- Some trigraph stands in the text. -/
def HasTrigraph (cs : List Char) : Prop := ∃ c, (trigraph? c).isSome ∧ ['?', '?', c] <:+: cs

example : replaceTrigraphs "what???!??-?".toList = "what?|~?".toList := by decide

theorem replaceTrigraphs_trigraph {d : Char} (h : trigraph? c = some d) (cs : List Char) :
    replaceTrigraphs ('?' :: '?' :: c :: cs) = d :: replaceTrigraphs cs := by
  rw [replaceTrigraphs, h]

/-- Without a trigraph at its front, a text keeps its first character. -/
theorem replaceTrigraphs_cons
    (h : ∀ d ds, c :: cs = '?' :: '?' :: d :: ds → trigraph? d = none) :
    replaceTrigraphs (c :: cs) = c :: replaceTrigraphs cs := by
  by_cases hfront : ∃ d ds, c = '?' ∧ cs = '?' :: d :: ds
  · obtain ⟨d, ds, rfl, rfl⟩ := hfront
    rw [replaceTrigraphs, h d ds rfl]
  · rw [replaceTrigraphs]
    exact fun d ds hc hcs => hfront ⟨d, ds, hc, hcs⟩

/-- What is true of a text if it is true of what comes after a trigraph at its front, or else of
what comes after its first character. -/
@[elab_as_elim]
theorem trigraph_induction {P : List Char → Prop} (nil : P [])
    (trigraph : ∀ c d cs, trigraph? c = some d → P cs → P ('?' :: '?' :: c :: cs))
    (cons : ∀ c cs, (∀ d ds, c :: cs = '?' :: '?' :: d :: ds → trigraph? d = none) → P cs →
      P (c :: cs)) (cs : List Char) : P cs := by
  induction cs using replaceTrigraphs.induct with
  | case1 c cs d hd ih => exact trigraph c d cs hd ih
  | case2 c cs hnone ih =>
    refine cons '?' _ (fun d ds heq => ?_) ih
    obtain ⟨rfl, -⟩ : c = d ∧ cs = ds := by simpa using heq
    exact hnone
  | case3 c cs hfront ih =>
    refine cons c cs (fun d ds heq => ?_) ih
    exact absurd (List.cons.inj heq).2 fun hcs => hfront d ds (List.cons.inj heq).1 hcs
  | case4 => exact nil

/-- **A character that is in no trigraph** divides a text. -/
theorem replaceTrigraphs_append (hc : c ≠ '?') (hnone : trigraph? c = none) (cs ds : List Char) :
    replaceTrigraphs (cs ++ c :: ds) = replaceTrigraphs cs ++ c :: replaceTrigraphs ds := by
  induction cs using trigraph_induction with
  | nil => exact replaceTrigraphs_cons fun d es heq => absurd (List.cons.inj heq).1 hc
  | trigraph x y cs hx ih => simp only [List.cons_append, replaceTrigraphs_trigraph hx, ih]
  | cons x cs hx ih =>
    have hfront : ∀ d es, x :: (cs ++ c :: ds) = '?' :: '?' :: d :: es → trigraph? d = none := by
      intro d es heq
      -- the third character is one of the front part, or the one that divides
      match cs with
      | [] =>
        simp only [List.nil_append, List.cons.injEq] at heq
        exact absurd heq.2.1 hc
      | [_] =>
        simp only [List.cons_append, List.nil_append, List.cons.injEq] at heq
        exact heq.2.2.1 ▸ hnone
      | _ :: z :: cs =>
        simp only [List.cons_append, List.cons.injEq] at heq
        obtain ⟨rfl, rfl, rfl, -⟩ := heq
        exact hx z cs rfl
    rw [List.cons_append, replaceTrigraphs_cons hfront, replaceTrigraphs_cons hx, ih,
      List.cons_append]

theorem replaceTrigraphs_of_not_hasTrigraph (h : ¬ HasTrigraph cs) : replaceTrigraphs cs = cs := by
  induction cs with
  | nil => rfl
  | cons c cs ih =>
    rw [replaceTrigraphs_cons, ih]
    · rintro ⟨d, hd, hinfix⟩
      exact h ⟨d, hd, hinfix.trans (List.suffix_cons c cs).isInfix⟩
    · rintro d ds heq
      by_contra hd
      refine h ⟨d, Option.isSome_iff_ne_none.2 hd, ?_⟩
      rw [heq]
      exact (List.prefix_append ['?', '?', d] ds).isInfix

/-! ### Bytes -/

/-- The bytes of a text. -/
def utf8 (cs : List Char) : List UInt8 := cs.flatMap String.utf8EncodeChar

@[simp] theorem utf8_nil : utf8 [] = [] := rfl

@[simp] theorem utf8_cons (c : Char) (cs : List Char) :
    utf8 (c :: cs) = String.utf8EncodeChar c ++ utf8 cs := rfl

@[simp] theorem utf8_append (cs ds : List Char) : utf8 (cs ++ ds) = utf8 cs ++ utf8 ds :=
  List.flatMap_append

/-- Only an ASCII character has a byte below 128, and that byte is its number. -/
theorem toNat_of_mem_utf8EncodeChar (h : b ∈ String.utf8EncodeChar c) (hb : b.toNat < 128) :
    c.toNat = b.toNat := by
  change c.val.toNat = b.toNat
  unfold String.utf8EncodeChar at h
  generalize c.val.toNat = v at h ⊢
  dsimp only at h
  split at h
  · rw [List.mem_singleton.1 h, UInt8.toNat_ofNat']
    omega
  · split at h
    · simp only [List.mem_cons, List.not_mem_nil, or_false] at h
      rcases h with rfl | rfl <;> simp only [UInt8.toNat_ofNat'] at hb <;> omega
    · split at h
      · simp only [List.mem_cons, List.not_mem_nil, or_false] at h
        rcases h with rfl | rfl | rfl <;> simp only [UInt8.toNat_ofNat'] at hb <;> omega
      · simp only [List.mem_cons, List.not_mem_nil, or_false] at h
        rcases h with rfl | rfl | rfl | rfl <;> simp only [UInt8.toNat_ofNat'] at hb <;> omega

theorem one_le_length_utf8EncodeChar (c : Char) : 1 ≤ (String.utf8EncodeChar c).length := by
  rw [String.length_utf8EncodeChar]
  exact c.utf8Size_pos

/-- A text is at most as long as its bytes. -/
theorem length_le_length_utf8 (cs : List Char) : cs.length ≤ (utf8 cs).length := by
  induction cs with
  | nil => exact Nat.le_refl 0
  | cons c cs ih =>
    have := one_le_length_utf8EncodeChar c
    simp only [utf8_cons, List.length_append, List.length_cons]
    omega

/-- What a trigraph stands for is one byte. -/
theorem length_utf8EncodeChar_of_trigraph? {d : Char} (h : trigraph? c = some d) :
    (String.utf8EncodeChar d).length = 1 := by
  have hall : ∀ x ∈ trigraphs, (String.utf8EncodeChar x.2).length = 1 := by decide
  exact hall _ (mem_of_lookup_eq_some h)

/-- Replacing trigraphs does not make a text longer. -/
theorem length_utf8_replaceTrigraphs_le (cs : List Char) :
    (utf8 (replaceTrigraphs cs)).length ≤ (utf8 cs).length := by
  induction cs using trigraph_induction with
  | nil => exact Nat.le_refl 0
  | trigraph c d cs hd ih =>
    have hone := length_utf8EncodeChar_of_trigraph? hd
    have hpos := one_le_length_utf8EncodeChar c
    simp only [replaceTrigraphs_trigraph hd, utf8_cons, List.length_append] at ih ⊢
    omega
  | cons c cs hc ih =>
    simp only [replaceTrigraphs_cons hc, utf8_cons, List.length_append]
    omega

/-- **A trigraph is two bytes longer than what it stands for.** -/
theorem HasTrigraph.length_utf8_le (h : HasTrigraph cs) :
    (utf8 (replaceTrigraphs cs)).length + 2 ≤ (utf8 cs).length := by
  induction cs using trigraph_induction with
  | nil =>
    obtain ⟨c, -, hinfix⟩ := h
    simp at hinfix
  | trigraph c d cs hd _ =>
    have hone := length_utf8EncodeChar_of_trigraph? hd
    have hpos := one_le_length_utf8EncodeChar c
    have hmark : (String.utf8EncodeChar '?').length = 1 := by decide
    have hrest := length_utf8_replaceTrigraphs_le cs
    simp only [replaceTrigraphs_trigraph hd, utf8_cons, List.length_append]
    omega
  | cons c cs hc ih =>
    have htail : HasTrigraph cs := by
      obtain ⟨d, hd, hinfix⟩ := h
      rcases List.infix_cons_iff.1 hinfix with ⟨ds, heq⟩ | hinfix
      · simp [hc d ds heq.symm] at hd
      · exact ⟨d, hd, hinfix⟩
    have := ih htail
    simp only [replaceTrigraphs_cons hc, utf8_cons, List.length_append]
    omega

/-! ### Escapes -/

/-- The escapes of one character and the bytes that they denote. -/
def simpleEscapes : List (Char × UInt8) :=
  [('\'', 39), ('"', 34), ('?', 63), ('\\', 92), ('a', 7), ('b', 8), ('f', 12), ('n', 10), ('r', 13),
    ('t', 9), ('v', 11)]

/-- Whether a character is a hexadecimal digit. -/
def isHex (c : Char) : Bool := c ∈ "0123456789abcdefABCDEF".toList

/-- The value of a hexadecimal digit. -/
def hexDigit (c : Char) : ℕ :=
  if c.isDigit then digit c else if c.isUpper then c.toNat - 55 else c.toNat - 87

/-- The number that hexadecimal digits denote. -/
def hexDigits (cs : List Char) : ℕ := Nat.ofDigits 16 (cs.reverse.map hexDigit)

example : hexDigits "3fA".toList = 1018 := by decide

/-- The form of an escape, after its backslash. -/
inductive IsEscape : List Char → Prop
  | simple {c : Char} {b : UInt8} : (c, b) ∈ simpleEscapes → IsEscape [c]
  | octal {ds : List Char} : ds ≠ [] → ds.length ≤ 3 → (∀ d ∈ ds, isOctal d = true) → IsEscape ds
  | hex {ds : List Char} : ds ≠ [] → (∀ d ∈ ds, isHex d = true) → IsEscape ('x' :: ds)
  | short {ds : List Char} : ds.length = 4 → (∀ d ∈ ds, isHex d = true) → IsEscape ('u' :: ds)
  | long {ds : List Char} : ds.length = 8 → (∀ d ∈ ds, isHex d = true) → IsEscape ('U' :: ds)

/-- `Escape e bs`: after its backslash, the escape `e` denotes the bytes `bs`.  A number has to fit
in a byte, and the number of a character must not be that of a basic one. -/
inductive Escape : List Char → List UInt8 → Prop
  | simple {c : Char} {b : UInt8} : (c, b) ∈ simpleEscapes → Escape [c] [b]
  | octal {ds : List Char} : ds ≠ [] → ds.length ≤ 3 → (∀ d ∈ ds, isOctal d = true) →
      digits 8 ds < 256 → Escape ds [UInt8.ofNat (digits 8 ds)]
  | hex {ds : List Char} : ds ≠ [] → (∀ d ∈ ds, isHex d = true) → hexDigits ds < 256 →
      Escape ('x' :: ds) [UInt8.ofNat (hexDigits ds)]
  | universal {u c : Char} {ds : List Char} : u = 'u' ∧ ds.length = 4 ∨ u = 'U' ∧ ds.length = 8 →
      (∀ d ∈ ds, isHex d = true) → hexDigits ds = c.toNat →
      160 ≤ c.toNat ∨ c.toNat ∈ [36, 64, 96] → Escape (u :: ds) (String.utf8EncodeChar c)

/-- `Denotes cs bs`: between the quotes of a literal, the characters `cs` denote the bytes `bs`. -/
inductive Denotes : List Char → List UInt8 → Prop
  | nil : Denotes [] []
  | char {c : Char} {cs : List Char} {bs : List UInt8} : c ∉ ['"', '\\', '\n'] → Denotes cs bs →
      Denotes (c :: cs) (String.utf8EncodeChar c ++ bs)
  | escape {e cs : List Char} {bs bs' : List UInt8} : IsLongestPrefix IsEscape e (e ++ cs) →
      Escape e bs → Denotes cs bs' → Denotes ('\\' :: (e ++ cs)) (bs ++ bs')

/-- An escape denotes at most as many bytes as it has characters. -/
theorem Escape.length_le {e : List Char} (h : Escape e bs) : bs.length ≤ e.length := by
  cases h with
  | simple => exact Nat.le_refl 1
  | octal hne => exact List.length_pos_iff.2 hne
  | hex => exact Nat.le_add_left 1 _
  | @universal u c ds hu =>
    have hfour := c.utf8Size_le_four
    rw [String.length_utf8EncodeChar, List.length_cons]
    omega

/-- What an escape denotes, which its first character tells how to find. -/
def escapeBytes : List Char → List UInt8
  | [] => []
  | c :: ds =>
    if c = 'x' then [UInt8.ofNat (hexDigits ds)]
    else if c = 'u' ∨ c = 'U' then String.utf8EncodeChar (Char.ofNat (hexDigits ds))
    else if isOctal c then [UInt8.ofNat (digits 8 (c :: ds))]
    else (simpleEscapes.lookup c).toList

theorem Escape.eq_escapeBytes (h : Escape cs bs) : bs = escapeBytes cs := by
  cases h with
  | @simple c b hmem =>
    have hall : ∀ x ∈ simpleEscapes, [x.2] = escapeBytes [x.1] := by decide
    exact hall _ hmem
  | octal hne _ hoctal _ =>
    obtain ⟨c, ds, rfl⟩ := List.exists_cons_of_ne_nil hne
    have hc := hoctal c List.mem_cons_self
    have hletter : c ≠ 'x' ∧ c ≠ 'u' ∧ c ≠ 'U' := by
      refine ⟨?_, ?_, ?_⟩ <;> rintro rfl <;> exact absurd hc (by decide)
    simp [escapeBytes, hletter, hc]
  | hex => rfl
  | universal hu _ hvalue _ =>
    rcases hu with ⟨rfl, -⟩ | ⟨rfl, -⟩ <;> simp [escapeBytes, hvalue]

/-- **A literal denotes one sequence of bytes.** -/
theorem Denotes.unique (h : Denotes cs bs) : ∀ {bs'}, Denotes cs bs' → bs = bs' := by
  induction h with
  | nil =>
    intro bs' h'
    cases h'
    rfl
  | @char c cs bs hc _ ih =>
    intro bs' h'
    generalize hds : c :: cs = ds at h'
    cases h' with
    | nil => cases hds
    | char _ h' =>
      obtain ⟨rfl, rfl⟩ := List.cons.inj hds
      rw [ih h']
    | escape =>
      obtain ⟨rfl, -⟩ := List.cons.inj hds
      exact absurd (by decide) hc
  | @escape e cs bs₁ bs₂ hlongest he _ ih =>
    intro bs' h'
    generalize hds : '\\' :: (e ++ cs) = ds at h'
    cases h' with
    | nil => cases hds
    | char hc =>
      obtain ⟨rfl, -⟩ := List.cons.inj hds
      exact absurd (by decide) hc
    | escape hlongest' he' h' =>
      -- both take the longest escape
      have heq := (List.cons.inj hds).2
      obtain rfl := hlongest.eq (heq ▸ hlongest')
      obtain rfl := List.append_cancel_left heq
      rw [he.eq_escapeBytes, he'.eq_escapeBytes, ih h']

/-- **A literal denotes at most as many bytes as it has.** -/
theorem Denotes.length_le (h : Denotes cs bs) : bs.length ≤ (utf8 cs).length := by
  induction h with
  | nil => exact Nat.le_refl 0
  | char _ _ ih =>
    simp only [utf8_cons, List.length_append]
    omega
  | @escape e cs bs bs' _ he _ ih =>
    have hescape := he.length_le
    have hlength := length_le_length_utf8 e
    simp only [utf8_cons, utf8_append, List.length_append]
    omega

/-- The characters that are no more than themselves in a literal. -/
def IsVerbatim (cs : List Char) : Prop := ∀ c ∈ cs, c ∉ ['"', '\\', '\n', '%', '\x00']

/-- **Such characters denote themselves**, and an escaped `n` after them is a line feed. -/
theorem denotes_verbatim (h : IsVerbatim cs) :
    Denotes (cs ++ ['\\', 'n']) (utf8 (cs ++ ['\n'])) := by
  induction cs with
  | nil =>
    have hn : IsEscape ['n'] := .simple (b := 10) (by decide)
    have hlongest : IsLongestPrefix IsEscape ['n'] (['n'] ++ []) := .of_append hn (by simp)
    exact .escape hlongest (.simple (by decide)) .nil
  | cons c cs ih =>
    obtain ⟨hc, hcs⟩ := List.forall_mem_cons.1 h
    simp only [List.mem_cons, List.not_mem_nil, or_false, not_or] at hc
    exact .char (by simp [hc]) (ih hcs)

/-! ### Formats -/

/-- `Formats bs out`: as a format without arguments, the bytes `bs` print `out`.  A zero ends the
format, and a percent sign has to be doubled. -/
inductive Formats : List UInt8 → List UInt8 → Prop
  | stop (bs : List UInt8) : Formats (0 :: bs) []
  | percent {bs out : List UInt8} : Formats bs out → Formats (37 :: 37 :: bs) (37 :: out)
  | byte {b : UInt8} {bs out : List UInt8} : b ≠ 0 → b ≠ 37 → Formats bs out →
      Formats (b :: bs) (b :: out)

/-- A format prints fewer bytes than it has. -/
theorem Formats.length_lt (h : Formats bs out) : out.length < bs.length := by
  induction h with
  | stop => exact Nat.succ_pos _
  | percent _ ih =>
    simp only [List.length_cons]
    omega
  | byte _ _ _ ih => exact Nat.succ_lt_succ ih

/-- A format does not print a zero. -/
theorem Formats.zero_notMem (h : Formats bs out) : 0 ∉ out := by
  induction h with
  | stop => exact List.not_mem_nil
  | percent _ ih => simpa using ih
  | byte hb _ _ ih => simpa [Ne.symm hb] using ih

/-- **A format prints one sequence of bytes.** -/
theorem Formats.unique (h : Formats bs out) : ∀ {out'}, Formats bs out' → out = out' := by
  induction h with
  | stop =>
    intro out' h'
    cases h' with
    | stop => rfl
    | byte hb => exact absurd rfl hb
  | percent _ ih =>
    intro out' h'
    cases h' with
    | percent h' => rw [ih h']
    | byte _ hb => exact absurd rfl hb
  | byte hzero hpercent _ ih =>
    intro out' h'
    cases h' with
    | stop => exact absurd rfl hzero
    | percent => exact absurd rfl hpercent
    | byte _ _ h' => rw [ih h']

/-- Without percent signs and zeros a format prints itself. -/
theorem formats_self (h : ∀ b ∈ bs, b ≠ 0 ∧ b ≠ 37) : Formats (bs ++ [0]) bs := by
  induction bs with
  | nil => exact .stop []
  | cons b bs ih =>
    obtain ⟨⟨hzero, hpercent⟩, hbs⟩ := List.forall_mem_cons.1 h
    exact .byte hzero hpercent (ih hbs)

/-! ### Calls of `printf` -/

/-- `Prints line out`: the line is a call of `printf` with a string literal for its only argument,
and it prints the bytes `out`. -/
def Prints (line : String) (out : List UInt8) : Prop :=
  ∃ inside bs, replaceTrigraphs line.toList = "printf(\"".toList ++ inside ++ "\");".toList ∧
    Denotes inside bs ∧ Formats (bs ++ [0]) out

variable {text : String}

/-- **A line prints one sequence of bytes.** -/
theorem Prints.unique {line : String} {out' : List UInt8} (h : Prints line out)
    (h' : Prints line out') : out = out' := by
  obtain ⟨inside, bs, hline, hdenotes, hformats⟩ := h
  obtain ⟨inside', bs', hline', hdenotes', hformats'⟩ := h'
  obtain rfl := List.append_cancel_left (List.append_cancel_right (hline.symm.trans hline'))
  obtain rfl := hdenotes.unique hdenotes'
  exact hformats.unique hformats'

/-- **What the call that is written for a text prints**: what the text and the line feed after it
denote once the trigraphs of the text have been replaced. -/
theorem prints_iff :
    Prints ("printf(\"" ++ text ++ "\\n\");") out ↔
      ∃ bs, Denotes (replaceTrigraphs text.toList ++ ['\\', 'n']) bs ∧ Formats (bs ++ [0]) out := by
  have hline : replaceTrigraphs ("printf(\"" ++ text ++ "\\n\");").toList =
      "printf(\"".toList ++ (replaceTrigraphs text.toList ++ ['\\', 'n']) ++ "\");".toList := by
    -- the quotes and the backslash divide the line
    have hchars : ("printf(\"" ++ text ++ "\\n\");").toList =
        "printf(".toList ++ '"' :: (text.toList ++ '\\' :: "n\");".toList) := by simp
    have hfront : replaceTrigraphs "printf(".toList = "printf(".toList := by decide
    have hback : replaceTrigraphs "n\");".toList = "n\");".toList := by decide
    rw [hchars, replaceTrigraphs_append (by decide) (by decide),
      replaceTrigraphs_append (by decide) (by decide), hfront, hback]
    simp
  unfold Prints
  rw [hline]
  constructor
  · rintro ⟨inside, bs, heq, hdenotes, hformats⟩
    obtain rfl := List.append_cancel_left (List.append_cancel_right heq)
    exact ⟨bs, hdenotes, hformats⟩
  · rintro ⟨bs, hdenotes, hformats⟩
    exact ⟨_, bs, rfl, hdenotes, hformats⟩

/-- The bytes of such characters are neither a zero nor a percent sign. -/
theorem IsVerbatim.bytes (h : IsVerbatim cs) : ∀ b ∈ utf8 (cs ++ ['\n']), b ≠ 0 ∧ b ≠ 37 := by
  intro b hb
  obtain ⟨c, hc, hb⟩ := List.mem_flatMap.1 hb
  have hother : c ∉ ['%', '\x00'] := by
    rcases List.mem_append.1 hc with hc | hc
    · exact fun hmem => h c hc (List.mem_append_right ['"', '\\', '\n'] hmem)
    · rw [List.mem_singleton.1 hc]
      decide
  constructor <;> rintro rfl <;> refine hother ?_ <;>
    rw [← c.ofNat_toNat, toNat_of_mem_utf8EncodeChar hb (by decide)] <;> decide

/-- A text of such characters comes out as it stands. -/
theorem prints_verbatim {cs : List Char} (hcs : replaceTrigraphs text.toList = cs)
    (h : IsVerbatim cs) :
    Prints ("printf(\"" ++ text ++ "\\n\");") (utf8 (cs ++ ['\n'])) := by
  subst hcs
  exact prints_iff.2 ⟨_, denotes_verbatim h, formats_self h.bytes⟩

/-- **A text of the language comes out as it stands**, with a line feed after it, exactly when it
has neither a trigraph nor a zero character. -/
theorem prints_text_iff (h : IsStringText text.toList) :
    (∀ out, Prints ("printf(\"" ++ text ++ "\\n\");") out ↔ out = utf8 (text.toList ++ ['\n'])) ↔
      '\x00' ∉ text.toList ∧ ¬ HasTrigraph text.toList := by
  constructor
  · intro hall
    obtain ⟨bs, hdenotes, hformats⟩ := prints_iff.1 ((hall _).2 rfl)
    refine ⟨fun hzero => hformats.zero_notMem ?_, fun htrigraph => ?_⟩
    · exact List.mem_flatMap.2 ⟨'\x00', List.mem_append_left _ hzero, by decide⟩
    · -- the literal is too short for the text
      have hshort := htrigraph.length_utf8_le
      have hbytes := hdenotes.length_le
      have hout := hformats.length_lt
      have hescape : (utf8 ['\\', 'n']).length = 2 := by decide
      have hnewline : (utf8 ['\n']).length = 1 := by decide
      simp only [utf8_append, List.length_append, List.length_cons, List.length_nil] at *
      omega
  · rintro ⟨hzero, htrigraph⟩ out
    have hverbatim : IsVerbatim text.toList := by
      intro c hc
      have htext := h c hc
      have hne : c ≠ '\x00' := fun heq => hzero (heq ▸ hc)
      simp only [List.mem_cons, List.not_mem_nil, or_false, not_or] at htext ⊢
      exact ⟨htext.1, htext.2.2.2.2.1, htext.2.1, htext.2.2.2.2.2, hne⟩
    have hprints := prints_verbatim (replaceTrigraphs_of_not_hasTrigraph htrigraph) hverbatim
    exact ⟨fun hout => hout.unique hprints, fun hout => hout ▸ hprints⟩

end TinyBasic.C
