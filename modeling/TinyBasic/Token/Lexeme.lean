import TinyBasic.Token

/-!
# Reading one lexeme

`Lexeme.read` reads the lexeme at the front of a text that starts with neither a blank nor a
comment.  It always says which characters it took and which remain (`Lexeme.taken_append_rest`),
and what they are: a token, which takes at least one character (`Lexeme.taken_ne_nil`), or a
`LexicalError`, which leaves the text standing where the fault was noticed.

Letters and digits are those of ASCII.  `layout` is what stands between lexemes.
-/

namespace TinyBasic

/-- Why no lexeme can be read. -/
inductive LexicalError where
  /-- No lexeme starts with this character. -/
  | unknownChar (c : Char)
  /-- An exclamation mark that `next` follows, and not an equals sign. -/
  | badBang (next : Option Char)
  /-- A character that a string literal must not hold. -/
  | badString
  /-- A string literal that its line does not close. -/
  | unterminatedString
  /-- A point in a numeral with no digit after it. -/
  | badNumber
  deriving DecidableEq

namespace LexicalError

/-- The text of the error. -/
def message : LexicalError → String
  | .unknownChar c => "Lexing error. Unknown token: " ++ String.singleton c
  | .badBang next =>
    "Lexing error. Expected !=, got !" ++ String.ofList (next.toList.flatMap Text.escapeChar)
  | .badString => "Lexing error. Illegal character in string."
  | .unterminatedString => "Lexing error. Unterminated string."
  | .badNumber => "Lexing error. Illegal character in number."

end LexicalError

/-- What was read at the front of a text. -/
structure Lexeme where
  /-- The token, or why there is none. -/
  outcome : Except LexicalError Token
  /-- The characters that were read. -/
  taken : List Char
  /-- The characters that remain. -/
  rest : List Char

namespace Lexeme

/-! ### Layout -/

/-- The blanks between lexemes.  A line feed is none of them. -/
def isBlank (c : Char) : Bool := c == ' ' || c == '\t' || c == '\r'

/-- The blanks at the front of a text, and after them a comment up to the end of its line. -/
def layout (cs : List Char) : List Char :=
  let blanks := cs.takeWhile isBlank
  match cs.dropWhile isBlank with
  | '#' :: rest => blanks ++ '#' :: rest.takeWhile (· != '\n')
  | _ => blanks

/-- The text after its `layout`. -/
def afterLayout (cs : List Char) : List Char :=
  match cs.dropWhile isBlank with
  | '#' :: rest => rest.dropWhile (· != '\n')
  | rest => rest

/-! ### Lexemes -/

/-- The characters `taken`, read as a token of the given kind. -/
def token (kind : Token.Kind) (taken rest : List Char) : Lexeme :=
  ⟨.ok ⟨kind, String.ofList taken⟩, taken, rest⟩

/-- The kinds of the lexemes of one character. -/
def single? (c : Char) : Option Token.Kind :=
  [('\n', .newline), ('+', .plus), ('-', .minus), ('*', .asterisk), ('/', .slash), ('=', .eq),
    ('<', .lt), ('>', .gt)].lookup c

/-- The kinds of the lexemes of one character and an equals sign. -/
def withEquals? (c : Char) : Option Token.Kind :=
  [('=', .eqEq), ('<', .ltEq), ('>', .gtEq), ('!', .notEq)].lookup c

/-- The operator or line feed that starts with `c`: the longer one where both exist. -/
def operator? (c : Char) (rest : List Char) : Option Lexeme :=
  match rest with
  | '=' :: rest' =>
    match withEquals? c with
    | some kind => some (token kind [c, '='] rest')
    | none => (single? c).map (token · [c] rest)
  | _ => (single? c).map (token · [c] rest)

/-- A numeral: digits, and if a point follows them, the point and more digits. -/
def number (cs : List Char) : Lexeme :=
  let digits := cs.takeWhile Char.isDigit
  match cs.dropWhile Char.isDigit with
  | '.' :: rest =>
    if (rest.takeWhile Char.isDigit).isEmpty then ⟨.error .badNumber, digits ++ ['.'], rest⟩
    else
      token .number (digits ++ '.' :: rest.takeWhile Char.isDigit) (rest.dropWhile Char.isDigit)
  | rest => token .number digits rest

/-- A word: letters and digits.  It is a name unless it is the spelling of a keyword. -/
def word (cs : List Char) : Lexeme :=
  let letters := cs.takeWhile Char.isAlphanum
  let kind := ((Keyword.ofSpelling? (String.ofList letters)).map Token.Kind.keyword).getD .ident
  token kind letters (cs.dropWhile Char.isAlphanum)

/-- The characters that a string literal cannot hold. -/
def outsideStrings : List Char := ['"', '\n', '\r', '\t', '\\', '%']

/-- The characters that a string literal holds. -/
def isStringChar (c : Char) : Bool := !outsideStrings.contains c

/-- A string literal whose opening quote stands before `cs`.  It has to be closed on its line. -/
def string (cs : List Char) : Lexeme :=
  let inside := cs.takeWhile isStringChar
  match cs.dropWhile isStringChar with
  | '"' :: rest => ⟨.ok ⟨.string, String.ofList inside⟩, '"' :: inside ++ ['"'], rest⟩
  | [] => ⟨.error .unterminatedString, '"' :: inside, []⟩
  | c :: rest =>
    if c = '\n' then ⟨.error .unterminatedString, '"' :: inside, c :: rest⟩
    else ⟨.error .badString, '"' :: inside, c :: rest⟩

/-- The lexeme of a text that starts with the character `c`. -/
def read (c : Char) (rest : List Char) : Lexeme :=
  match operator? c rest with
  | some lexeme => lexeme
  | none =>
    if c = '"' then string rest
    else if c.isDigit then number (c :: rest)
    else if c.isAlpha then word (c :: rest)
    else if c = '!' then ⟨.error (.badBang rest.head?), [], c :: rest⟩
    else ⟨.error (.unknownChar c), [], c :: rest⟩

/-! ### Nothing is lost -/

theorem layout_append_afterLayout (cs : List Char) : layout cs ++ afterLayout cs = cs := by
  have h := List.takeWhile_append_dropWhile (p := isBlank) (l := cs)
  unfold layout afterLayout
  cases hr : cs.dropWhile isBlank with
  | nil => simpa [hr] using h
  | cons c rest =>
    rw [hr] at h
    by_cases hc : c = '#'
    · subst hc
      simpa using h
    · split
      · simp_all
      · exact h

theorem length_afterLayout_le (cs : List Char) : (afterLayout cs).length ≤ cs.length := by
  have := congrArg List.length (layout_append_afterLayout cs)
  simp only [List.length_append] at this
  omega

@[simp] theorem token_taken (k : Token.Kind) (cs ds : List Char) : (token k cs ds).taken = cs := rfl

@[simp] theorem token_rest (k : Token.Kind) (cs ds : List Char) : (token k cs ds).rest = ds := rfl

theorem operator?_taken_append_rest {c : Char} {rest : List Char} {l : Lexeme}
    (h : operator? c rest = some l) : l.taken ++ l.rest = c :: rest ∧ l.taken ≠ [] := by
  unfold operator? at h
  split at h
  · split at h
    · obtain rfl := Option.some.inj h
      simp
    · obtain ⟨k, _, rfl⟩ := Option.map_eq_some_iff.1 h
      simp
  · obtain ⟨k, _, rfl⟩ := Option.map_eq_some_iff.1 h
    simp

theorem number_taken_append_rest (cs : List Char) : (number cs).taken ++ (number cs).rest = cs := by
  have h := List.takeWhile_append_dropWhile (p := Char.isDigit) (l := cs)
  unfold number
  split
  · rename_i rest heq
    rw [heq] at h
    have h' := List.takeWhile_append_dropWhile (p := Char.isDigit) (l := rest)
    split
    · simpa using h
    · simpa [h'] using h
  · simp

theorem word_taken_append_rest (cs : List Char) : (word cs).taken ++ (word cs).rest = cs :=
  List.takeWhile_append_dropWhile

theorem string_taken_append_rest (cs : List Char) :
    (string cs).taken ++ (string cs).rest = '"' :: cs := by
  have h := List.takeWhile_append_dropWhile (p := isStringChar) (l := cs)
  unfold string
  split
  · rename_i heq
    simpa [heq] using h
  · rename_i heq
    rw [heq] at h
    simpa using h
  · rename_i heq
    split <;> simpa [heq] using h

/-- **A lexeme and the text after it are the text before it.** -/
theorem read_taken_append_rest (c : Char) (rest : List Char) :
    (read c rest).taken ++ (read c rest).rest = c :: rest := by
  unfold read
  split
  · rename_i heq
    exact (operator?_taken_append_rest heq).1
  · split
    · rename_i hc
      rw [hc]
      exact string_taken_append_rest rest
    · split
      · exact number_taken_append_rest _
      · split
        · exact word_taken_append_rest _
        · split <;> rfl

/-- **A token takes at least one character.** -/
theorem read_taken_ne_nil {c : Char} {rest : List Char} {t : Token}
    (h : (read c rest).outcome = .ok t) : (read c rest).taken ≠ [] := by
  unfold read at h ⊢
  cases ho : operator? c rest with
  | some l => simpa [ho] using (operator?_taken_append_rest ho).2
  | none =>
    simp only [ho] at h ⊢
    split
    · unfold string
      split
      · simp
      · simp
      · split <;> simp
    · split
      · rename_i hd
        unfold number
        split
        · split <;> simp
        · simp [hd]
      · split
        · rename_i ha
          simp [word, Char.isAlphanum, ha]
        · by_cases hb : c = '!' <;> simp [*] at h

theorem read_rest_length_lt {c : Char} {rest : List Char} {t : Token}
    (h : (read c rest).outcome = .ok t) : (read c rest).rest.length < (c :: rest).length := by
  rw [← read_taken_append_rest c rest, List.length_append]
  have := List.length_pos_iff.2 (read_taken_ne_nil h)
  omega

end Lexeme

end TinyBasic
