import TinyBasic.Proofs.Token.Locations

/-!
# Scanning by index

A `Scanner` is a lexer as a machine: a cursor into the characters of a source, the character under
it, the position that the cursor has reached and the one before it.  It moves by single steps, looks
one character ahead, and cuts the text of a token out of the source by its indices, which need not
be in range.  Its answers are therefore `Option`s: `none` stands for a loop that does not end and
for indices that are out of range.

* `Scanner.next`: reads the next lexeme.
* `Scanner.placed`: the scanner at an index of a source that holds the right character and position.
* `Scanner.next_placed`: from there the scanner answers what `Lexer.next` answers, and is left where
  that lexer stands.
-/

namespace TinyBasic

/-- A lexer that works on the indices of its source. -/
structure Scanner where
  /-- The source being read. -/
  source : Source
  /-- The index of the next character. -/
  cursor : ℕ
  /-- The next character. -/
  current : Option Char
  /-- The position of the next character. -/
  position : Position
  /-- The position of the character before, which is only meant within a lexeme. -/
  last : Position

namespace Scanner

/-- What a part of a lexeme comes to, and the scanner after it. -/
abbrev Outcome (α : Type) := Except LexicalError α × Scanner

/-- The scanner at the start of a source. -/
def ofSource (s : Source) : Scanner := ⟨s, 0, s.chars.head?, .origin, .origin⟩

/-- Goes one character on, unless there is none. -/
def step (m : Scanner) : Scanner :=
  match m.current with
  | some c =>
    { m with
      last := m.position
      position := m.position.after c
      cursor := m.cursor + 1
      current := m.source.chars[m.cursor + 1]? }
  | none => m

/-- The character after the next one. -/
def peek (m : Scanner) : Option Char := m.source.chars[m.cursor + 1]?

/-- The characters from the index `i` up to the index `j`. -/
def slice (m : Scanner) (i j : ℕ) : Option String :=
  if i ≤ j ∧ j ≤ m.source.chars.length then
    some (String.ofList ((m.source.chars.take j).drop i))
  else none

/-- How many steps there are to the end of the source. -/
def remaining (m : Scanner) : ℕ :=
  if m.current.isSome then m.source.chars.length - m.cursor + 1 else 0

theorem remaining_step_lt {m : Scanner} (h : m.current.isSome) :
    m.step.remaining < m.remaining := by
  obtain ⟨c, hc⟩ := Option.isSome_iff_exists.1 h
  simp only [remaining, step, hc, Option.isSome_some, if_true]
  split
  · rename_i hnext
    obtain ⟨d, hd⟩ := Option.isSome_iff_exists.1 hnext
    obtain ⟨hlt, -⟩ := List.getElem?_eq_some_iff.1 hd
    omega
  · exact Nat.succ_pos _

/-- Goes on as long as a test holds.  A loop that is still on at the end of the source does not end,
since a step changes nothing there. -/
def stepWhile (test : Scanner → Bool) (m : Scanner) : Option Scanner :=
  if test m then
    if m.current.isSome then stepWhile test m.step else none
  else some m
termination_by m.remaining
decreasing_by exact remaining_step_lt ‹_›

/-- Passes the blanks and a comment. -/
def skip (m : Scanner) : Option Scanner := do
  let m ← m.stepWhile fun m => m.current.any Lexeme.isBlank
  if m.current = some '#' then m.stepWhile fun m => m.current.any (· != '\n') else some m

/-- An operator of two characters if an equals sign follows, else of one. -/
def pair (m : Scanner) (withEquals alone : Token.Kind) : Option (Outcome Token.Kind) :=
  if m.peek = some '=' then some (.ok withEquals, m.step) else some (.ok alone, m)

/-- A numeral, up to its last digit. -/
def number (m : Scanner) : Option (Outcome Token.Kind) := do
  let m ← m.stepWhile fun m => m.peek.any Char.isDigit
  if m.peek = some '.' then
    let m := m.step
    if m.peek.any Char.isDigit then
      let m ← m.stepWhile fun m => m.peek.any Char.isDigit
      some (.ok .number, m)
    else some (.error .badNumber, m.step)
  else some (.ok .number, m)

/-- A word, up to its last character. -/
def word (m : Scanner) : Option (Outcome Token.Kind) := do
  let start := m.cursor
  let m ← m.stepWhile fun m => m.peek.any Char.isAlphanum
  let text ← m.slice start (m.cursor + 1)
  some (.ok (((Keyword.ofSpelling? text).map Token.Kind.keyword).getD .ident), m)

/-- The kind of the lexeme that starts with `c`, up to its last character. -/
def kind (m : Scanner) (c : Char) : Option (Outcome Token.Kind) :=
  match c with
  | '+' => some (.ok .plus, m)
  | '-' => some (.ok .minus, m)
  | '*' => some (.ok .asterisk, m)
  | '/' => some (.ok .slash, m)
  | '\n' => some (.ok .newline, m)
  | '=' => m.pair .eqEq .eq
  | '<' => m.pair .ltEq .lt
  | '>' => m.pair .gtEq .gt
  | '!' =>
    if m.peek = some '=' then some (.ok .notEq, m.step) else some (.error (.badBang m.peek), m)
  | c =>
    if c.isDigit then m.number
    else if c.isAlpha then m.word
    else some (.error (.unknownChar c), m)

/-- A string literal, from its opening quote to beyond its closing one.  Its text is what is
inside. -/
def string (m : Scanner) : Option (Outcome Token) := do
  let m := m.step
  let start := m.cursor
  let m ← m.stepWhile fun m => m.current.any Lexeme.isStringChar
  match m.current with
  | some '"' =>
    let text ← m.slice start m.cursor
    some (.ok ⟨.string, text⟩, m.step)
  | none | some '\n' => some (.error .unterminatedString, m)
  | some _ => some (.error .badString, m)

/-- The lexeme that starts with `c`, to beyond its last character. -/
def lexeme (m : Scanner) (c : Char) : Option (Outcome Token) := do
  if c = '"' then m.string
  else
    let start := m.cursor
    match ← m.kind c with
    | (.ok kind, m) =>
      let text ← m.slice start (m.cursor + 1)
      some (.ok ⟨kind, text⟩, m.step)
    | (.error e, m) => some (.error e, m)

/-- A token that lies from `start` to the character that was read last. -/
def located (m : Scanner) (start : Position) (t : Token) : Lexer.Item :=
  let stop := if m.last.line = start.line then m.last.advance else start.advance
  .ok ⟨t, ⟨m.source, start, stop⟩⟩

/-- An error where the scanner stands. -/
def fail (m : Scanner) (e : LexicalError) : Lexer.Item := .error ⟨e, .single m.source m.position⟩

/-- Reads the next lexeme. -/
def next (m : Scanner) : Option (Lexer.Item × Scanner) := do
  let m ← m.skip
  let start := m.position
  match m.current with
  | none => some (.ok ⟨⟨.eof, ""⟩, .single m.source start⟩, m)
  | some c =>
    match ← m.lexeme c with
    | (.ok t, m) => some (m.located start t, m)
    | (.error e, m) => some (m.fail e, m)

/-- The answers of the next `n` readings, whatever they are, and the scanner after them. -/
def run : ℕ → Scanner → Option (List Lexer.Item × Scanner)
  | 0, m => some ([], m)
  | n + 1, m => do
    let (item, m) ← m.next
    let (items, m) ← m.run n
    some (item :: items, m)

/-! ### Scanners in their place -/

/-- The scanner at an index of a source, with the character and the position of that place. -/
def placed (s : Source) (i : ℕ) (last : Position) : Scanner :=
  ⟨s, i, s.chars[i]?, s.positionAt i, last⟩

variable {s : Source} {i j : ℕ} {last : Position} {c : Char} {cs taken rest : List Char}

/-! What is under the cursor is told by the characters that remain. -/

theorem getElem?_of_drop (h : s.chars.drop i = cs) : s.chars[i]? = cs.head? := by
  rw [← h, List.head?_drop]

theorem drop_add_of_drop (h : s.chars.drop i = taken ++ rest) :
    s.chars.drop (i + taken.length) = rest := by
  rw [← List.drop_drop, h, List.drop_left]

theorem drop_succ_of_drop (h : s.chars.drop i = c :: cs) : s.chars.drop (i + 1) = cs :=
  drop_add_of_drop (show s.chars.drop i = [c] ++ cs from h)

theorem current_placed (h : s.chars.drop i = cs) : (placed s i last).current = cs.head? :=
  getElem?_of_drop h

theorem peek_placed (h : s.chars.drop i = c :: cs) : (placed s i last).peek = cs.head? :=
  getElem?_of_drop (drop_succ_of_drop h)

theorem lt_length_of_drop (h : s.chars.drop i = c :: cs) : i < s.chars.length := by
  by_contra hle
  rw [List.drop_eq_nil_of_le (Nat.le_of_not_lt hle)] at h
  cases h

theorem step_placed (h : s.chars.drop i = c :: cs) :
    (placed s i last).step = placed s (i + 1) (s.positionAt i) := by
  have hc : s.chars[i]? = some c := getElem?_of_drop h
  have hnext : s.positionAt (i + 1) = (s.positionAt i).after c := Source.positionAt_succ hc
  simp [step, placed, hc, hnext]

theorem slice_placed (hi : i ≤ s.chars.length) (h : s.chars.drop i = taken ++ rest) (j : ℕ)
    (last : Position) :
    (placed s j last).slice i (i + taken.length) = some (String.ofList taken) := by
  have htake : (s.chars.take (i + taken.length)).drop i = taken := by
    rw [List.drop_take, h, Nat.add_sub_cancel_left, List.take_left]
  have hlen : taken.length ≤ s.chars.length - i := by
    rw [← List.length_drop, h, List.length_append]
    omega
  rw [slice, if_pos ⟨by omega, by dsimp only [placed]; omega⟩]
  exact congrArg (some ∘ String.ofList) htake

/-! ### Loops -/

/-- **What a loop does**, also at the end of the source. -/
theorem stepWhile_eq (test : Scanner → Bool) (m : Scanner) :
    m.stepWhile test = if test m then m.step.stepWhile test else some m := by
  rw [stepWhile]
  split
  · rename_i htest
    split
    · rfl
    · rename_i hend
      have hstep : m.step = m := by simp_all [step]
      rw [hstep, stepWhile, if_pos htest, if_neg hend]
  · rfl

theorem stepWhile_of_true {test : Scanner → Bool} {m : Scanner} (h : test m = true) :
    m.stepWhile test = m.step.stepWhile test := by
  rw [stepWhile_eq, if_pos h]

theorem stepWhile_of_false {test : Scanner → Bool} {m : Scanner} (h : test m = false) :
    m.stepWhile test = some m := by
  rw [stepWhile_eq, if_neg (by simp [h])]

/-- A loop over the next character ends at the first one that fails its test. -/
theorem stepWhile_current (p : Char → Bool) (h : s.chars.drop i = cs) (last : Position) :
    ∃ last', (placed s i last).stepWhile (fun m => m.current.any p) =
        some (placed s (i + (cs.takeWhile p).length) last') ∧
      s.chars.drop (i + (cs.takeWhile p).length) = cs.dropWhile p := by
  induction cs generalizing i last with
  | nil =>
    rw [stepWhile_of_false (by rw [current_placed h]; rfl)]
    exact ⟨last, rfl, h⟩
  | cons c cs ih =>
    cases hc : p c with
    | false =>
      rw [stepWhile_of_false (by rw [current_placed h]; exact hc),
        List.takeWhile_cons_of_neg (by simp [hc]), List.dropWhile_cons_of_neg (by simp [hc])]
      exact ⟨last, rfl, h⟩
    | true =>
      obtain ⟨last', hloop, hdrop⟩ := ih (drop_succ_of_drop h) (s.positionAt i)
      rw [Nat.add_assoc, Nat.add_comm 1] at hloop hdrop
      rw [stepWhile_of_true (by rw [current_placed h]; exact hc), step_placed h, hloop,
        List.takeWhile_cons_of_pos hc, List.dropWhile_cons_of_pos hc]
      exact ⟨last', rfl, hdrop⟩

/-- A loop over the character after the next one ends right before the first one that fails its
test. -/
theorem stepWhile_peek (p : Char → Bool) (h : s.chars.drop i = c :: cs) (last : Position) :
    ∃ last' d, (placed s i last).stepWhile (fun m => m.peek.any p) =
        some (placed s (i + (cs.takeWhile p).length) last') ∧
      s.chars.drop (i + (cs.takeWhile p).length) = d :: cs.dropWhile p := by
  induction cs generalizing i last c with
  | nil =>
    rw [stepWhile_of_false (by rw [peek_placed h]; rfl)]
    exact ⟨last, c, rfl, h⟩
  | cons d cs ih =>
    cases hd : p d with
    | false =>
      rw [stepWhile_of_false (by rw [peek_placed h]; exact hd),
        List.takeWhile_cons_of_neg (by simp [hd]), List.dropWhile_cons_of_neg (by simp [hd])]
      exact ⟨last, c, rfl, h⟩
    | true =>
      obtain ⟨last', e, hloop, hdrop⟩ := ih (drop_succ_of_drop h) (s.positionAt i)
      rw [Nat.add_assoc, Nat.add_comm 1] at hloop hdrop
      rw [stepWhile_of_true (by rw [peek_placed h]; exact hd), step_placed h, hloop,
        List.takeWhile_cons_of_pos hd, List.dropWhile_cons_of_pos hd]
      exact ⟨last', e, rfl, hdrop⟩

/-- **The layout is passed.** -/
theorem skip_placed (s : Source) (i : ℕ) (last : Position) :
    ∃ last', (placed s i last).skip =
      some (placed s (i + (Lexeme.layout (s.chars.drop i)).length) last') := by
  obtain ⟨last₁, hblanks, hdrop⟩ := stepWhile_current Lexeme.isBlank (rfl : s.chars.drop i = _) last
  simp only [skip, hblanks, Option.bind_eq_bind, Option.bind_some, current_placed hdrop,
    Lexeme.layout]
  generalize (s.chars.drop i).takeWhile Lexeme.isBlank = blanks at hdrop
  generalize (s.chars.drop i).dropWhile Lexeme.isBlank = rest at hdrop
  split
  · rename_i hc
    obtain ⟨remark, rfl⟩ := List.head?_eq_some_iff.1 hc
    obtain ⟨last₂, hremark, -⟩ := stepWhile_current (· != '\n') hdrop last₁
    refine ⟨last₂, hremark.trans ?_⟩
    simp [Nat.add_assoc]
  · rename_i hc
    refine ⟨last₁, ?_⟩
    split
    · exact absurd rfl hc
    · rfl

/-! ### Lexemes -/

/-- A part of a lexeme that was read from index `j` on, up to the last character of a token or to
where an error was noticed. -/
inductive Scans (s : Source) (j : ℕ) : Outcome Token.Kind → Lexeme → Prop
  | token {k : Token.Kind} {taken rest : List Char} {i : ℕ} {last : Position} :
    i + 1 = j + taken.length → Scans s j (.ok k, placed s i last) (.token k taken rest)
  | error {e : LexicalError} {taken rest : List Char} {i : ℕ} {last : Position} :
    i = j + taken.length → Scans s j (.error e, placed s i last) ⟨.error e, taken, rest⟩

theorem number_placed (h : s.chars.drop j = c :: cs) (hc : c.isDigit = true) (last : Position) :
    ∃ r, (placed s j last).number = some r ∧ Scans s j r (Lexeme.number (c :: cs)) := by
  obtain ⟨last₁, d, hdigits, hdrop⟩ := stepWhile_peek Char.isDigit h last
  simp only [number, hdigits, Option.bind_eq_bind, Option.bind_some, peek_placed hdrop,
    Lexeme.number, List.takeWhile_cons_of_pos hc, List.dropWhile_cons_of_pos hc]
  generalize cs.takeWhile Char.isDigit = digits at hdrop
  generalize cs.dropWhile Char.isDigit = rest at hdrop
  split
  · rename_i hpoint
    obtain ⟨rest, rfl⟩ := List.head?_eq_some_iff.1 hpoint
    have hrest := drop_succ_of_drop hdrop
    simp only [step_placed hdrop, peek_placed hrest, step_placed hrest]
    split
    · rename_i hdigit
      obtain ⟨last₂, e, hfraction, -⟩ :=
        stepWhile_peek Char.isDigit hrest (s.positionAt (j + digits.length))
      have hne : (rest.takeWhile Char.isDigit).isEmpty = false := by
        cases rest with
        | nil => cases hdigit
        | cons e rest => simp [show e.isDigit = true from hdigit]
      rw [hfraction, hne]
      exact ⟨_, rfl, .token (by simp; omega)⟩
    · rename_i hdigit
      have hempty : (rest.takeWhile Char.isDigit).isEmpty = true := by
        cases rest with
        | nil => rfl
        | cons e rest => simp [show ¬ e.isDigit = true from hdigit]
      rw [if_pos hempty]
      exact ⟨_, rfl, .error (by simp; omega)⟩
  · rename_i hpoint
    refine ⟨_, rfl, ?_⟩
    split
    · exact absurd rfl hpoint
    · exact .token (by simp [Nat.add_assoc])

theorem word_placed (h : s.chars.drop j = c :: cs) (hc : c.isAlpha = true) (last : Position) :
    ∃ r, (placed s j last).word = some r ∧ Scans s j r (Lexeme.word (c :: cs)) := by
  have hc : c.isAlphanum = true := by simp [Char.isAlphanum, hc]
  obtain ⟨last₁, d, hletters, -⟩ := stepWhile_peek Char.isAlphanum h last
  have hsplit := (List.takeWhile_append_dropWhile (p := Char.isAlphanum) (l := c :: cs)).symm
  have hslice := slice_placed (lt_length_of_drop h).le (h.trans hsplit)
    (j + (cs.takeWhile Char.isAlphanum).length) last₁
  have hlen : ((c :: cs).takeWhile Char.isAlphanum).length =
      (cs.takeWhile Char.isAlphanum).length + 1 := by simp [hc]
  rw [hlen] at hslice
  refine ⟨(_, placed s _ last₁), ?_, .token (by rw [hlen]; rfl)⟩
  simp only [word, hletters, Option.bind_eq_bind, Option.bind_some]
  exact congrArg (Option.bind · _) hslice

theorem pair_placed {alone withEquals : Token.Kind} (h : s.chars.drop j = c :: cs)
    (halone : Lexeme.single? c = some alone) (hequals : Lexeme.withEquals? c = some withEquals)
    (last : Position) :
    ∃ r x, (placed s j last).pair withEquals alone = some r ∧ Lexeme.operator? c cs = some x ∧
      Scans s j r x := by
  simp only [pair, peek_placed h]
  split
  · rename_i heq
    obtain ⟨rest, rfl⟩ := List.head?_eq_some_iff.1 heq
    refine ⟨_, .token withEquals [c, '='] rest, rfl, by simp [Lexeme.operator?, hequals], ?_⟩
    rw [step_placed h]
    exact .token rfl
  · rename_i heq
    refine ⟨_, .token alone [c] cs, rfl, ?_, .token rfl⟩
    unfold Lexeme.operator?
    split
    · exact absurd rfl heq
    · simp [halone]

theorem operator?_of_single? {k : Token.Kind} (hk : Lexeme.single? c = some k)
    (hno : Lexeme.withEquals? c = none) : Lexeme.operator? c cs = some (.token k [c] cs) := by
  unfold Lexeme.operator?
  split
  · simp [hno, hk]
  · simp [hk]

theorem operator?_eq_none (halone : Lexeme.single? c = none)
    (hequals : Lexeme.withEquals? c = none) : Lexeme.operator? c cs = none := by
  unfold Lexeme.operator?
  split <;> simp [halone, hequals]

theorem read_of_operator? {x : Lexeme} (h : Lexeme.operator? c cs = some x) :
    Lexeme.read c cs = x := by
  simp [Lexeme.read, h]

/-- **The lexeme that starts under the cursor**, unless it is a string literal. -/
theorem kind_placed (h : s.chars.drop j = c :: cs) (hc : c ≠ '"') (last : Position) :
    ∃ r, (placed s j last).kind c = some r ∧ Scans s j r (Lexeme.read c cs) := by
  have hsingle : ∀ {k : Token.Kind}, Lexeme.single? c = some k → Lexeme.withEquals? c = none →
      Scans s j (.ok k, placed s j last) (Lexeme.read c cs) := fun hk hno => by
    rw [read_of_operator? (operator?_of_single? hk hno)]
    exact .token rfl
  have hpair : ∀ {alone withEquals : Token.Kind}, Lexeme.single? c = some alone →
      Lexeme.withEquals? c = some withEquals →
        ∃ r, (placed s j last).pair withEquals alone = some r ∧
          Scans s j r (Lexeme.read c cs) := fun halone hequals => by
    obtain ⟨r, x, hr, hx, hscans⟩ := pair_placed h halone hequals last
    exact ⟨r, hr, by rwa [read_of_operator? hx]⟩
  unfold kind
  split
  · exact ⟨_, rfl, hsingle rfl rfl⟩
  · exact ⟨_, rfl, hsingle rfl rfl⟩
  · exact ⟨_, rfl, hsingle rfl rfl⟩
  · exact ⟨_, rfl, hsingle rfl rfl⟩
  · exact ⟨_, rfl, hsingle rfl rfl⟩
  · exact hpair rfl rfl
  · exact hpair rfl rfl
  · exact hpair rfl rfl
  · rw [peek_placed h]
    split
    · rename_i heq
      obtain ⟨rest, rfl⟩ := List.head?_eq_some_iff.1 heq
      rw [step_placed h]
      exact ⟨_, rfl, .token rfl⟩
    · rename_i heq
      refine ⟨_, rfl, ?_⟩
      have hno : Lexeme.operator? '!' cs = none := by
        unfold Lexeme.operator?
        split
        · exact absurd rfl heq
        · rfl
      have hread : Lexeme.read '!' cs = ⟨.error (.badBang cs.head?), [], '!' :: cs⟩ := by
        simp [Lexeme.read, hno]
      rw [hread]
      exact .error rfl
  · rename_i hplus hminus hasterisk hslash hnewline heq hlt hgt hbang
    have hequals : Lexeme.withEquals? c = none := by
      simpa [Lexeme.withEquals?, List.lookup_eq_none_iff] using ⟨heq, hlt, hgt, hbang⟩
    have halone : Lexeme.single? c = none := by
      simpa [Lexeme.single?, List.lookup_eq_none_iff] using
        ⟨hnewline, hplus, hminus, hasterisk, hslash, heq, hlt, hgt⟩
    simp only [Lexeme.read, operator?_eq_none halone hequals, if_neg hc]
    split
    · rename_i hdigit
      exact number_placed h hdigit last
    · split
      · rename_i halpha
        exact word_placed h halpha last
      · exact ⟨_, rfl, .error rfl⟩

/-- What a whole lexeme that was read from index `j` on comes to: a token, and the scanner beyond
it, with the position of its last character; or an error, and the scanner where it was noticed. -/
inductive Reads (s : Source) (j : ℕ) : Outcome Token → Lexeme → Prop
  | token {t : Token} {taken rest : List Char} {i : ℕ} : i + 1 = j + taken.length →
    Reads s j (.ok t, placed s (i + 1) (s.positionAt i)) ⟨.ok t, taken, rest⟩
  | error {e : LexicalError} {taken rest : List Char} {i : ℕ} {last : Position} :
    i = j + taken.length → Reads s j (.error e, placed s i last) ⟨.error e, taken, rest⟩

theorem string_placed (h : s.chars.drop j = '"' :: cs) (last : Position) :
    ∃ r, (placed s j last).string = some r ∧ Reads s j r (Lexeme.string cs) := by
  obtain ⟨last₁, hinside, hdrop⟩ :=
    stepWhile_current Lexeme.isStringChar (drop_succ_of_drop h) (s.positionAt j)
  have hsplit := (List.takeWhile_append_dropWhile (p := Lexeme.isStringChar) (l := cs)).symm
  have hslice := slice_placed (lt_length_of_drop h) ((drop_succ_of_drop h).trans hsplit)
    (j + 1 + (cs.takeWhile Lexeme.isStringChar).length) last₁
  simp only [string, step_placed h, hinside, Option.bind_eq_bind, Option.bind_some,
    current_placed hdrop, Lexeme.string]
  generalize cs.takeWhile Lexeme.isStringChar = inside at hdrop hslice
  generalize cs.dropWhile Lexeme.isStringChar = rest at hdrop
  have hlen : j + 1 + inside.length = j + ('"' :: inside).length := by
    rw [List.length_cons]
    omega
  split
  · rename_i hquote
    obtain ⟨rest, rfl⟩ := List.head?_eq_some_iff.1 hquote
    rw [step_placed hdrop]
    exact ⟨_, congrArg (Option.bind · _) hslice, .token (by rw [List.length_append, hlen]; rfl)⟩
  · rename_i hnone
    obtain rfl := List.head?_eq_none_iff.1 hnone
    exact ⟨_, rfl, .error hlen⟩
  · rename_i hnewline
    obtain ⟨rest, rfl⟩ := List.head?_eq_some_iff.1 hnewline
    exact ⟨_, rfl, .error hlen⟩
  · rename_i c hquote hnewline hc
    obtain ⟨rest, rfl⟩ := List.head?_eq_some_iff.1 hc
    refine ⟨_, rfl, ?_⟩
    split
    · rename_i hcons
      exact absurd (List.cons.inj hcons).1 hquote
    · rename_i hnil
      cases hnil
    · rename_i hcons
      obtain ⟨rfl, rfl⟩ := List.cons.inj hcons
      rw [if_neg hnewline]
      exact .error hlen

/-- **The lexeme that starts under the cursor.** -/
theorem lexeme_placed (h : s.chars.drop j = c :: cs) (last : Position) :
    ∃ r, (placed s j last).lexeme c = some r ∧ Reads s j r (Lexeme.read c cs) := by
  unfold lexeme
  split
  · rename_i hc
    subst hc
    have hno : Lexeme.operator? '"' cs = none := operator?_eq_none rfl rfl
    have hread : Lexeme.read '"' cs = Lexeme.string cs := by simp [Lexeme.read, hno]
    rw [hread]
    exact string_placed h last
  · rename_i hc
    obtain ⟨r, hkind, hscans⟩ := kind_placed h hc last
    have hsplit := Lexeme.read_taken_append_rest c cs
    simp only [hkind, Option.bind_eq_bind, Option.bind_some]
    generalize Lexeme.read c cs = x at hscans hsplit
    cases hscans with
    | error hi => exact ⟨_, rfl, .error hi⟩
    | @token k taken rest i last hi =>
      have hsplit := h.trans hsplit.symm
      have hslice := slice_placed (lt_length_of_drop h).le hsplit i last
      have hlt : i < s.chars.length := by
        have hlen := congrArg List.length hsplit
        have hpos := lt_length_of_drop h
        simp only [Lexeme.token_taken, List.length_drop, List.length_append] at hlen
        omega
      simp only [step_placed (List.drop_eq_getElem_cons hlt)]
      refine ⟨_, ?_, .token hi⟩
      rw [Lexeme.token_taken, ← hi] at hslice
      exact congrArg (Option.bind · _) hslice

/-! ### Answers -/

/-- The range of a token ends where its last character does. -/
theorem located_placed (h : s.chars.drop j = taken ++ rest) (hne : taken ≠ [])
    (hi : i + 1 = j + taken.length) (t : Token) :
    (placed s (i + 1) (s.positionAt i)).located (s.positionAt j) t =
      .ok ⟨t, .spanning s (s.positionAt j) taken⟩ := by
  have hbefore : taken.dropLast <+: s.chars.drop j :=
    h ▸ (List.dropLast_prefix taken).trans (List.prefix_append taken rest)
  have hlen : j + taken.dropLast.length = i := by
    have hle := List.length_pos_iff.2 hne
    rw [List.length_dropLast]
    omega
  have hlast : s.positionAt i = (s.positionAt j).afterAll taken.dropLast := by
    rw [← hlen, Source.positionAt_add hbefore]
  rw [located, Location.spanning, ← hlast]
  rfl

/-- **From its place in a source, a scanner answers what the lexer does**, and is left in its place
where the lexer stands. -/
theorem next_placed {l : Lexer} (h : l.StandsAt s i) (last : Position) :
    ∃ j last', (placed s i last).next = some (l.next.1, placed s j last') ∧
      l.next.2.StandsAt s j ∧ i ≤ j := by
  obtain ⟨last₁, hskip⟩ := skip_placed s i last
  have hlayout := h.passLayout
  rw [← h.rest] at hskip
  have hle : i ≤ i + (Lexeme.layout l.rest).length := Nat.le_add_right i _
  simp only [next, hskip, Option.bind_eq_bind, Option.bind_some]
  generalize i + (Lexeme.layout l.rest).length = j at hlayout hle
  have hdrop := hlayout.rest.symm
  rw [Lexer.passLayout_rest] at hdrop
  cases hrest : Lexeme.afterLayout l.rest with
  | nil =>
    rw [hrest] at hdrop
    rw [current_placed hdrop, Lexer.next_of_nil hrest]
    refine ⟨j, last₁, ?_, hlayout, hle⟩
    rw [Lexer.eofItem, hlayout.source, hlayout.position]
    rfl
  | cons c cs =>
    rw [hrest] at hdrop
    have hsplit := Lexeme.read_taken_append_rest c cs
    have hafter := hlayout.pass (hrest.trans hsplit.symm)
    obtain ⟨r, hlexeme, hreads⟩ := lexeme_placed hdrop last₁
    rw [current_placed hdrop, Lexer.next_eq_of_cons hrest]
    simp only [List.head?_cons, hlexeme, Option.bind_some]
    generalize hread : Lexeme.read c cs = x at hreads hsplit hafter
    cases hreads with
    | @token t taken rest k hk =>
      have hne := Lexeme.read_taken_ne_nil (congrArg Lexeme.outcome hread)
      rw [hread] at hne
      have hitem := located_placed (hdrop.trans hsplit.symm) hne hk t
      have hanswer : Lexer.item l.passLayout.position ⟨.ok t, taken, rest⟩
          (l.passLayout.pass taken rest) =
            (placed s (k + 1) (s.positionAt k)).located (s.positionAt j) t := by
        rw [hitem, Lexer.item, Lexer.pass_source, hlayout.source, hlayout.position]
      refine ⟨j + taken.length, s.positionAt k, ?_, hafter, by omega⟩
      rw [hanswer, ← hk]
      rfl
    | @error e taken rest k last' hk =>
      have hanswer : Lexer.item l.passLayout.position ⟨.error e, taken, rest⟩
          (l.passLayout.pass taken rest) = (placed s k last').fail e := by
        rw [fail, Lexer.item, hafter.source, hafter.position, ← hk]
        rfl
      refine ⟨j + taken.length, last', ?_, hafter, by omega⟩
      rw [hanswer, ← hk]

end Scanner

end TinyBasic
