import TinyBasic.Proofs.Source.Compact
import TinyBasic.Proofs.Token.Locations
import TinyBasic.Token.Stream

/-!
# Reading with 32-bit counters

A `CompactLexer` is a lexer whose position is made of 32-bit counters, and which gives up with
`none` when one of them is out of range.

* `CompactLexer.next_of_next?`: whenever it answers, in whatever text, it answers what the lexer
  answers whose place it takes, and so do any number of readings (`CompactLexer.take_of_run?`).
* `CompactLexer.exists_next?`: in a text of fewer than `2 ^ 30` characters it answers, wherever it
  stands, and so do any number of readings (`CompactLexer.exists_run?`).
-/

namespace TinyBasic

open Lexeme

/-- A lexer whose position is counted in 32 bits. -/
structure CompactLexer where
  /-- The source being read. -/
  source : Source
  /-- The characters that remain. -/
  rest : List Char
  /-- The position of the first of them. -/
  position : CompactPosition

namespace CompactLexer

/-- One answer: a token or an error, and its range. -/
abbrev Item := Except LexicalError Token × CompactLocation

/-- The answer that is meant. -/
def Item.toItem (x : Item) : Lexer.Item :=
  match x.1 with
  | .ok t => .ok ⟨t, x.2.toLocation⟩
  | .error e => .error ⟨e, x.2.toLocation⟩

/-- The lexer at the start of a source. -/
def ofSource (s : Source) : CompactLexer := ⟨s, s.chars, .origin⟩

/-- The lexer that is meant. -/
def toLexer (l : CompactLexer) : Lexer := ⟨l.source, l.rest, l.position.toPosition⟩

/-- The lexer after the characters `taken`, where `rest` remains. -/
def pass? (l : CompactLexer) (taken rest : List Char) : Option CompactLexer := do
  some ⟨l.source, rest, ← l.position.afterAll? taken⟩

/-- The range of a lexeme that starts at `start` and after which the lexer is `l`. -/
def place? (start : CompactPosition) (lexeme : Lexeme) (l : CompactLexer) :
    Option CompactLocation :=
  match lexeme.outcome with
  | .ok _ => CompactLocation.spanning? l.source start lexeme.taken
  | .error _ => CompactLocation.single? l.source l.position

/-- Reads the next lexeme. -/
def next? (l : CompactLexer) : Option (Item × CompactLexer) := do
  let l ← l.pass? (layout l.rest) (afterLayout l.rest)
  match l.rest with
  | [] => some ((.ok .eof, ← CompactLocation.single? l.source l.position), l)
  | c :: rest =>
    let lexeme := read c rest
    let after ← l.pass? lexeme.taken lexeme.rest
    some ((lexeme.outcome, ← place? l.position lexeme after), after)

/-- The answers of the next `n` readings, whatever they are, and the lexer after them. -/
def run? : ℕ → CompactLexer → Option (List Item × CompactLexer)
  | 0, l => some ([], l)
  | n + 1, l => do
    let (x, l) ← l.next?
    let (items, l) ← l.run? n
    some (x :: items, l)

variable {s : Source} {i n : ℕ} {l l' l'' : CompactLexer} {x : Item} {items : List Item}
  {taken rest : List Char} {lexeme : Lexeme} {place : CompactLocation}

/-! ### What a reading answers -/

theorem toLexer_of_pass? (h : l.pass? taken rest = some l') :
    l'.toLexer = l.toLexer.pass taken rest := by
  obtain ⟨p, hp, h⟩ := Option.bind_eq_some_iff.1 h
  obtain rfl := Option.some.inj h
  rw [toLexer, CompactPosition.toPosition_of_afterAll? hp]
  rfl

theorem toItem_of_place? (h : place? l.position lexeme l' = some place) :
    Item.toItem (lexeme.outcome, place) = Lexer.item l.toLexer.position lexeme l'.toLexer := by
  unfold place? at h
  unfold Item.toItem Lexer.item
  cases houtcome : lexeme.outcome with
  | ok t =>
    rw [houtcome] at h
    simp only [CompactLocation.toLocation_of_spanning? h]
    rfl
  | error e =>
    rw [houtcome] at h
    simp only [CompactLocation.toLocation_of_single? h]
    rfl

/-- **Whenever it answers, it answers what the lexer answers**, and is left where that one is. -/
theorem next_of_next? (h : l.next? = some (x, l')) :
    l.toLexer.next = (x.toItem, l'.toLexer) := by
  obtain ⟨l₁, hlayout, h⟩ := Option.bind_eq_some_iff.1 h
  have hpassed : l.toLexer.passLayout = l₁.toLexer := (toLexer_of_pass? hlayout).symm
  have hrest : afterLayout l.rest = l₁.rest := congrArg Lexer.rest hpassed
  dsimp only at h
  split at h
  · rename_i hnil
    obtain ⟨place, hplace, h⟩ := Option.bind_eq_some_iff.1 h
    obtain ⟨rfl, rfl⟩ := Prod.mk.inj (Option.some.inj h)
    rw [Lexer.next_of_nil (hrest.trans hnil), hpassed, Item.toItem,
      CompactLocation.toLocation_of_single? hplace]
    rfl
  · rename_i c cs hcons
    obtain ⟨l₂, hafter, h⟩ := Option.bind_eq_some_iff.1 h
    obtain ⟨place, hplace, h⟩ := Option.bind_eq_some_iff.1 h
    obtain ⟨rfl, rfl⟩ := Prod.mk.inj (Option.some.inj h)
    rw [Lexer.next_eq_of_cons (hrest.trans hcons), hpassed, ← toLexer_of_pass? hafter,
      toItem_of_place? hplace]

theorem run?_succ_eq_some_iff :
    l.run? (n + 1) = some (items, l') ↔
      ∃ x l₁ later, l.next? = some (x, l₁) ∧ l₁.run? n = some (later, l') ∧ items = x :: later := by
  constructor
  · intro h
    obtain ⟨⟨x, l₁⟩, hnext, h⟩ := Option.bind_eq_some_iff.1 h
    obtain ⟨⟨later, l₂⟩, hlater, h⟩ := Option.bind_eq_some_iff.1 h
    obtain ⟨rfl, rfl⟩ := Prod.mk.inj (Option.some.inj h)
    exact ⟨x, l₁, later, hnext, hlater, rfl⟩
  · rintro ⟨x, l₁, later, hnext, hlater, rfl⟩
    simp [run?, hnext, hlater]

/-- **Any number of readings**, if they come to an end, give the answers of the lexer. -/
theorem take_of_run? (h : l.run? n = some (items, l')) :
    l.toLexer.take n = items.map Item.toItem := by
  induction n generalizing l items with
  | zero =>
    obtain ⟨rfl, -⟩ := Prod.mk.inj (Option.some.inj h)
    rfl
  | succ n ih =>
    obtain ⟨x, l₁, later, hnext, hlater, rfl⟩ := run?_succ_eq_some_iff.1 h
    rw [Lexer.take, next_of_next? hnext, ih hlater, List.map_cons]

/-- One more reading. -/
theorem run?_concat (h : l.run? n = some (items, l')) (hnext : l'.next? = some (x, l'')) :
    l.run? (n + 1) = some (items ++ [x], l'') := by
  induction n generalizing l items with
  | zero =>
    obtain ⟨rfl, rfl⟩ := Prod.mk.inj (Option.some.inj h)
    exact run?_succ_eq_some_iff.2 ⟨x, l'', [], hnext, rfl, rfl⟩
  | succ n ih =>
    obtain ⟨y, l₁, later, hy, hlater, rfl⟩ := run?_succ_eq_some_iff.1 h
    exact run?_succ_eq_some_iff.2 ⟨y, l₁, later ++ [x], hy, ih hlater, rfl⟩

/-! ### Short texts -/

theorem standsAt_ofSource (s : Source) : (ofSource s).toLexer.StandsAt s 0 :=
  Lexer.standsAt_ofSource s

/-- What remains of a short text has positions in range. -/
theorem fits_of_isPrefix (hs : s.body.length < 2 ^ 30) (h : l.toLexer.StandsAt s i)
    (htaken : taken <+: l.rest) : (l.position.toPosition.afterAll taken).Fits := by
  have hposition : l.position.toPosition = s.positionAt i := h.position
  have hrest : l.rest = s.chars.drop i := h.rest
  rw [hposition, ← Source.positionAt_add (hrest ▸ htaken)]
  exact Source.fits_positionAt hs _

theorem exists_pass? (hs : s.body.length < 2 ^ 30) (h : l.toLexer.StandsAt s i)
    (hrest : l.rest = taken ++ rest) :
    ∃ l', l.pass? taken rest = some l' ∧ l'.toLexer.StandsAt s (i + taken.length) := by
  obtain ⟨p, hp, -⟩ := CompactPosition.exists_afterAll? fun front hf =>
    fits_of_isPrefix hs h (hf.trans ⟨rest, hrest.symm⟩)
  have hpass : l.pass? taken rest = some ⟨l.source, rest, p⟩ := by simp [pass?, hp]
  refine ⟨_, hpass, ?_⟩
  rw [toLexer_of_pass? hpass]
  exact h.pass hrest

/-- The range of a lexeme in front of a lexer. -/
theorem exists_place? (hs : s.body.length < 2 ^ 30) (h : l.toLexer.StandsAt s i)
    (hrest : l.rest = lexeme.taken ++ lexeme.rest)
    (h' : l'.toLexer.StandsAt s (i + lexeme.taken.length)) :
    ∃ place, place? l.position lexeme l' = some place ∧ place.Shown := by
  have hstart : l.position.toPosition.Fits := fits_of_isPrefix hs h List.nil_prefix
  unfold place?
  cases lexeme.outcome with
  | ok t =>
    obtain ⟨place, hplace⟩ := CompactLocation.exists_spanning? l'.source fun front hf =>
      fits_of_isPrefix hs h (hf.trans ⟨lexeme.rest, hrest.symm⟩)
    exact ⟨place, hplace, CompactLocation.shown_of_spanning hstart
      (CompactLocation.toLocation_of_spanning? hplace)⟩
  | error e =>
    have hstop : l'.position.toPosition.Fits := fits_of_isPrefix hs h' List.nil_prefix
    obtain ⟨place, hplace⟩ := CompactLocation.exists_single? l'.source hstop
    exact ⟨place, hplace, CompactLocation.shown_of_single hstop
      (CompactLocation.toLocation_of_single? hplace)⟩

/-- **A reading in a short text** answers, and is left at an index of the text. -/
theorem exists_next? (hs : s.body.length < 2 ^ 30) (h : l.toLexer.StandsAt s i) :
    ∃ x l', l.next? = some (x, l') ∧ x.2.Shown ∧ ∃ j, l'.toLexer.StandsAt s j := by
  obtain ⟨l₁, hlayout, hstands⟩ := exists_pass? hs h (layout_append_afterLayout l.rest).symm
  simp only [next?, hlayout, Option.bind_eq_bind, Option.bind_some]
  split
  · have hfits : l₁.position.toPosition.Fits := fits_of_isPrefix hs hstands List.nil_prefix
    obtain ⟨place, hplace⟩ := CompactLocation.exists_single? l₁.source hfits
    rw [hplace]
    exact ⟨_, l₁, rfl, CompactLocation.shown_of_single hfits
      (CompactLocation.toLocation_of_single? hplace), _, hstands⟩
  · rename_i c cs hcons
    have hsplit : l₁.rest = (read c cs).taken ++ (read c cs).rest :=
      hcons.trans (read_taken_append_rest c cs).symm
    obtain ⟨l₂, hafter, hstands₂⟩ := exists_pass? hs hstands hsplit
    obtain ⟨place, hplace, hshown⟩ := exists_place? hs hstands hsplit hstands₂
    rw [hafter, Option.bind_some, hplace]
    exact ⟨_, l₂, rfl, hshown, _, hstands₂⟩

/-- **Any number of readings in a short text.** -/
theorem exists_run? (hs : s.body.length < 2 ^ 30) (h : l.toLexer.StandsAt s i) (n : ℕ) :
    ∃ items l', l.run? n = some (items, l') ∧ (∀ x ∈ items, x.2.Shown) ∧
      ∃ j, l'.toLexer.StandsAt s j := by
  induction n generalizing l i with
  | zero => exact ⟨[], l, rfl, by simp, i, h⟩
  | succ n ih =>
    obtain ⟨x, l₁, hnext, hshown, j, hstands⟩ := exists_next? hs h
    obtain ⟨items, l₂, hrun, hall, hstands'⟩ := ih hstands
    exact ⟨x :: items, l₂, run?_succ_eq_some_iff.2 ⟨x, l₁, items, hnext, hrun, rfl⟩,
      List.forall_mem_cons.2 ⟨hshown, hall⟩, hstands'⟩

end CompactLexer

end TinyBasic
