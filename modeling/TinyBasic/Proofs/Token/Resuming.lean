import TinyBasic.Proofs.Token.Scanner

/-!
# Reading on after any answer

A lexer can be asked again after every answer, also after an error and after the end of the text.

* `Lexer.next_of_takesNothing`: an error at a character that starts no lexeme is given again.
* `Lexer.next_alike`: what is answered depends on the characters that remain and on their position,
  up to the source in which it is located.
* `Scanner.InPlace`: the cursor is in range, and the character and the position are those of the
  cursor.  A reading keeps this (`Scanner.InPlace.next`), and so do any number of them
  (`Scanner.InPlace.run`).
* `Scanner.keeps_its_place`: what holds in every state that a scanner reaches.
-/

namespace TinyBasic

open Lexeme

/-! ### Layout -/

namespace Lexeme

variable {c : Char} {cs : List Char} {e : LexicalError}

theorem head_afterLayout (h : (afterLayout cs).head? = some c) : isBlank c = false ∧ c ≠ '#' := by
  unfold afterLayout at h
  split at h
  · rename_i rest _
    have hstop := List.head?_dropWhile_not (· != '\n') rest
    rw [h] at hstop
    obtain rfl : c = '\n' := by simpa using hstop
    exact ⟨by decide, by decide⟩
  · rename_i hcomment
    have hstop := List.head?_dropWhile_not isBlank cs
    rw [h] at hstop
    refine ⟨hstop, ?_⟩
    rintro rfl
    obtain ⟨rest, hrest⟩ := List.head?_eq_some_iff.1 h
    exact hcomment rest hrest

/-- **After the layout there is no more layout.** -/
theorem layout_afterLayout (cs : List Char) : layout (afterLayout cs) = [] := by
  cases h : afterLayout cs with
  | nil => rfl
  | cons c rest =>
    have hhead : (afterLayout cs).head? = some c := by
      rw [h]
      rfl
    obtain ⟨hblank, hcomment⟩ := head_afterLayout hhead
    simp [layout, hblank, hcomment]

theorem afterLayout_afterLayout (cs : List Char) :
    afterLayout (afterLayout cs) = afterLayout cs := by
  have h := layout_append_afterLayout (afterLayout cs)
  rwa [layout_afterLayout, List.nil_append] at h

end Lexeme

/-- The errors at a character that starts no lexeme. -/
def LexicalError.takesNothing : LexicalError → Bool
  | .unknownChar _ | .badBang _ => true
  | _ => false

namespace Lexeme

variable {c : Char} {cs : List Char} {e : LexicalError}

theorem operator?_outcome {l : Lexeme} (h : operator? c cs = some l) : ∃ t, l.outcome = .ok t := by
  unfold operator? at h
  split at h
  · split at h
    · obtain rfl := Option.some.inj h
      exact ⟨_, rfl⟩
    · obtain ⟨k, _, rfl⟩ := Option.map_eq_some_iff.1 h
      exact ⟨_, rfl⟩
  · obtain ⟨k, _, rfl⟩ := Option.map_eq_some_iff.1 h
    exact ⟨_, rfl⟩

theorem string_taken_of_error (h : (string cs).outcome = .error e) :
    e.takesNothing = false ∧ (string cs).taken ≠ [] := by
  revert h
  unfold string
  split
  · nofun
  · rintro ⟨⟩
    exact ⟨rfl, List.cons_ne_nil _ _⟩
  · dsimp only
    split
    all_goals
      rintro ⟨⟩
      exact ⟨rfl, List.cons_ne_nil _ _⟩

theorem number_taken_of_error (h : (number cs).outcome = .error e) :
    e.takesNothing = false ∧ (number cs).taken ≠ [] := by
  revert h
  unfold number
  split
  · dsimp only
    split
    · rintro ⟨⟩
      exact ⟨rfl, List.append_ne_nil_of_right_ne_nil _ (List.cons_ne_nil _ _)⟩
    · nofun
  · nofun

/-- **What an error takes**: nothing at a character that starts no lexeme, else the front of a
string literal or of a numeral. -/
theorem read_taken_of_error (h : (read c cs).outcome = .error e) :
    (e.takesNothing = true ∧ (read c cs).taken = []) ∨
      e.takesNothing = false ∧ (read c cs).taken ≠ [] ∧ (c = '"' ∨ c.isDigit = true) := by
  revert h
  unfold read
  split
  · rename_i l ho
    obtain ⟨t, ht⟩ := operator?_outcome ho
    intro h
    cases ht.symm.trans h
  · split
    · rename_i hc
      intro h
      obtain ⟨he, hne⟩ := string_taken_of_error h
      exact .inr ⟨he, hne, .inl hc⟩
    · split
      · rename_i hc
        intro h
        obtain ⟨he, hne⟩ := number_taken_of_error h
        exact .inr ⟨he, hne, .inr hc⟩
      · split
        · nofun
        · split
          all_goals
            rintro ⟨⟩
            exact .inl ⟨rfl, rfl⟩

end Lexeme

/-! ### Answers -/

namespace Lexer

variable {l l' : Lexer} {e : Located LexicalError} {item : Item}

theorem passLayout_passLayout (l : Lexer) : l.passLayout.passLayout = l.passLayout := by
  simp only [passLayout, pass_rest, layout_afterLayout, afterLayout_afterLayout]
  rfl

theorem next_passLayout (l : Lexer) : l.passLayout.next = l.next := by
  simp only [next, passLayout_passLayout]

/-- An error is located where the lexer is left. -/
theorem location_of_error (h : l.next.1 = .error e) :
    e.location = .single l.source l.next.2.position := by
  cases hrest : afterLayout l.rest with
  | nil =>
    rw [next_of_nil hrest] at h
    cases h
  | cons c cs =>
    rw [next_eq_of_cons hrest] at h ⊢
    unfold item at h
    split at h <;> cases h
    rfl

/-- The lexeme that an error is about. -/
theorem exists_read_of_error (h : l.next.1 = .error e) :
    ∃ c cs, afterLayout l.rest = c :: cs ∧ (read c cs).outcome = .error e.value ∧
      l.next.2 = l.passLayout.pass (read c cs).taken (read c cs).rest := by
  cases hrest : afterLayout l.rest with
  | nil =>
    rw [next_of_nil hrest] at h
    cases h
  | cons c cs =>
    refine ⟨c, cs, rfl, ?_, by rw [next_eq_of_cons hrest]⟩
    have hcontent := (next_of_cons hrest).2
    rw [h] at hcontent
    exact hcontent.symm

/-- **An error that takes nothing is given again**, and the lexer stays where it is. -/
theorem next_of_takesNothing (h : l.next.1 = .error e) (he : e.value.takesNothing = true) :
    l.next.2.next = l.next := by
  obtain ⟨c, cs, hrest, houtcome, hnext⟩ := exists_read_of_error h
  obtain ⟨-, htaken⟩ | ⟨he', -⟩ := read_taken_of_error houtcome
  · have hsplit := read_taken_append_rest c cs
    rw [htaken, List.nil_append] at hsplit
    have hstays : l.next.2 = l.passLayout := by
      rw [hnext, htaken, hsplit, ← hrest]
      rfl
    rw [hstays, next_passLayout]
  · cases he.symm.trans he'

/-- **Any other error** leaves the lexer beyond the first character of a string literal or of a
numeral. -/
theorem exists_start_of_error (h : l.next.1 = .error e) (he : e.value.takesNothing = false) :
    ∃ c cs, afterLayout l.rest = c :: cs ∧ (c = '"' ∨ c.isDigit = true) ∧
      l.next.2.rest.length ≤ cs.length := by
  obtain ⟨c, cs, hrest, houtcome, hnext⟩ := exists_read_of_error h
  obtain ⟨he', -⟩ | ⟨-, hne, hc⟩ := read_taken_of_error houtcome
  · cases he.symm.trans he'
  · refine ⟨c, cs, hrest, hc, ?_⟩
    have hlen := congrArg List.length (read_taken_append_rest c cs)
    have hpos := List.length_pos_iff.2 hne
    rw [List.length_append, List.length_cons] at hlen
    rw [hnext, pass_rest]
    omega

/-- The same answer in another source. -/
def Item.inSource (s : Source) : Item → Item
  | .ok t => .ok ⟨t.value, { t.location with source := s }⟩
  | .error e => .error ⟨e.value, { e.location with source := s }⟩

/-- **What a lexer answers depends on the characters that remain and on their position**, up to the
source in which the answer is located. -/
theorem next_alike (hrest : l'.rest = l.rest) (hposition : l'.position = l.position) :
    l'.next.1 = l.next.1.inSource l'.source ∧ l'.next.2.rest = l.next.2.rest ∧
      l'.next.2.position = l.next.2.position := by
  obtain ⟨s, rest, p⟩ := l
  obtain ⟨s', rest', p'⟩ := l'
  obtain rfl : rest' = rest := hrest
  obtain rfl : p' = p := hposition
  cases hlayout : afterLayout rest' with
  | nil =>
    rw [next_of_nil (l := ⟨s, rest', p'⟩) hlayout, next_of_nil (l := ⟨s', rest', p'⟩) hlayout]
    exact ⟨rfl, rfl, rfl⟩
  | cons c cs =>
    rw [next_eq_of_cons (l := ⟨s, rest', p'⟩) hlayout,
      next_eq_of_cons (l := ⟨s', rest', p'⟩) hlayout]
    refine ⟨?_, rfl, rfl⟩
    unfold item
    cases (read c cs).outcome <;> rfl

end Lexer

/-! ### Scanners -/

namespace Scanner

variable {m m' : Scanner} {item : Lexer.Item} {s : Source}

/-- The cursor is in range, and the character and the position are those of the cursor. -/
structure InPlace (m : Scanner) : Prop where
  cursor_le : m.cursor ≤ m.source.chars.length
  current : m.current = m.source.chars[m.cursor]?
  position : m.position = (m.source.chars.take m.cursor).foldl Position.after .origin

/-- The lexer that starts where the scanner stands. -/
def lexer (m : Scanner) : Lexer := ⟨m.source, m.source.chars.drop m.cursor, m.position⟩

theorem inPlace_ofSource (s : Source) : (ofSource s).InPlace :=
  ⟨Nat.zero_le _, List.head?_eq_getElem?, rfl⟩

theorem InPlace.eq_placed (h : m.InPlace) : m = placed m.source m.cursor m.last := by
  rw [placed, Source.positionAt, Position.afterAll, ← h.current, ← h.position]

theorem InPlace.standsAt (h : m.InPlace) : m.lexer.StandsAt m.source m.cursor :=
  ⟨rfl, rfl, h.position, h.cursor_le⟩

/-- **A reading keeps a scanner in its place**, and answers what the lexer there does. -/
theorem InPlace.next (h : m.InPlace) :
    ∃ m', m.next = some (m.lexer.next.1, m') ∧ m'.lexer = m.lexer.next.2 ∧ m'.InPlace ∧
      m'.source = m.source ∧ m.cursor ≤ m'.cursor := by
  obtain ⟨j, last', hnext, hstands, hle⟩ := next_placed h.standsAt m.last
  rw [← h.eq_placed] at hnext
  refine ⟨_, hnext, ?_, ⟨hstands.bound, rfl, rfl⟩, rfl, hle⟩
  generalize m.lexer.next.2 = l at hstands
  obtain ⟨s, rest, p⟩ := l
  obtain ⟨rfl, rfl, rfl, -⟩ := hstands
  rfl

/-- **Any number of readings** keep a scanner in its place. -/
theorem InPlace.run (h : m.InPlace) (n : ℕ) :
    ∃ m', m.run n = some (m.lexer.take n, m') ∧ m'.InPlace ∧ m'.source = m.source ∧
      m.cursor ≤ m'.cursor := by
  induction n generalizing m with
  | zero => exact ⟨m, rfl, h, rfl, Nat.le_refl _⟩
  | succ n ih =>
    obtain ⟨m₁, hnext, hlexer, hplace, hsource, hle⟩ := h.next
    obtain ⟨m₂, hrun, hplace', hsource', hle'⟩ := ih hplace
    refine ⟨m₂, ?_, hplace', hsource'.trans hsource, hle.trans hle'⟩
    rw [hlexer] at hrun
    simp [Scanner.run, hnext, hrun, Lexer.take]

/-- What is read and what remains are the whole text. -/
theorem InPlace.cursor_add_length (h : m.InPlace) :
    m.cursor + m.lexer.rest.length = m.source.chars.length := by
  have := h.cursor_le
  simp only [lexer, List.length_drop]
  omega

/-- Readings that leave the lexer where it is leave the scanner where it is. -/
theorem InPlace.run_of_next_eq (h : m.InPlace) (hnext : m.lexer.next = (item, m.lexer)) (n : ℕ) :
    ∃ m', m.run n = some (List.replicate n item, m') ∧ m'.cursor = m.cursor := by
  induction n generalizing m with
  | zero => exact ⟨m, rfl, rfl⟩
  | succ n ih =>
    obtain ⟨m₁, hfirst, hlexer, hplace, hsource, -⟩ := h.next
    have hlexer : m₁.lexer = m.lexer := hlexer.trans (congrArg Prod.snd hnext)
    rw [hnext] at hfirst
    obtain ⟨m₂, hrun, hcursor⟩ := ih hplace (by rw [hlexer, hnext])
    have hstays : m₁.cursor = m.cursor := by
      have hlen := hplace.cursor_add_length
      rw [hlexer, hsource, ← h.cursor_add_length] at hlen
      omega
    refine ⟨m₂, ?_, hcursor.trans hstays⟩
    simp [Scanner.run, hfirst, hrun, List.replicate_succ]

/-- **The end of the text is given over and over.** -/
theorem InPlace.run_at_end (h : m.InPlace) (hend : m.cursor = m.source.chars.length) (n : ℕ) :
    ∃ m', m.run n = some (List.replicate n (.ok m.source.endToken), m') ∧
      m'.cursor = m.cursor := by
  have hrest : m.lexer.rest = [] := List.drop_eq_nil_of_le hend.ge
  refine h.run_of_next_eq ?_ n
  have hposition : m.position = Position.origin.afterAll m.source.chars := by
    rw [h.position, hend, List.take_length]
    rfl
  rw [Lexer.next_of_rest_eq_nil hrest, Lexer.eofItem, Source.endToken, ← hposition]
  rfl

/-- What a reading that answers `item` does to a scanner. -/
structure Reading (m : Scanner) (item : Lexer.Item) (m' : Scanner) : Prop where
  /-- No index is out of range, and every loop ends. -/
  next : m.next = some (item, m')
  source : m'.source = m.source
  inPlace : m'.InPlace
  /-- The answer is that of a lexer that starts where the scanner stands. -/
  answer : item = m.lexer.next.1
  lexer : m'.lexer = m.lexer.next.2
  cursor_le : m.cursor ≤ m'.cursor
  cursor_lt : ∀ t, item = .ok t → t.value.kind ≠ .eof → m.cursor < m'.cursor
  /-- The end of the text is given only when all characters have been read. -/
  cursor_of_eof : ∀ t, item = .ok t → t.value.kind = .eof → m.cursor = m.source.chars.length
  location : ∀ e, item = .error e → e.location = .single m.source m'.position
  /-- An error at a character that starts no lexeme is all that is answered from then on. -/
  again : ∀ e, item = .error e → e.value.takesNothing = true →
    ∀ n, ∃ m'', m'.run n = some (List.replicate n item, m'') ∧ m''.cursor = m'.cursor
  /-- Any other error leaves the cursor beyond the start of the lexeme that it is about. -/
  beyond : ∀ e, item = .error e → e.value.takesNothing = false →
    ∃ i c, m.source.GapBetween m.cursor i ∧ m.source.chars[i]? = some c ∧
      (c = '"' ∨ c.isDigit = true) ∧ i < m'.cursor
  /-- A scanner that stands before the same characters at the same position answers the same, up to
  its source, and moves as far. -/
  alike : ∀ m₁ : Scanner, m₁.InPlace → m₁.lexer.rest = m.lexer.rest → m₁.position = m.position →
    ∃ m₂, m₁.next = some (item.inSource m₁.source, m₂) ∧ m₂.position = m'.position ∧
      m₂.cursor + m.cursor = m'.cursor + m₁.cursor

theorem InPlace.exists_reading (h : m.InPlace) : ∃ item m', m.Reading item m' := by
  obtain ⟨m', hnext, hlexer, hplace, hsource, hle⟩ := h.next
  have hlen := h.cursor_add_length
  have hlen' := hplace.cursor_add_length
  rw [hlexer, hsource] at hlen'
  have hposition : m'.position = m.lexer.next.2.position := congrArg Lexer.position hlexer
  refine ⟨m.lexer.next.1, m', hnext, hsource, hplace, rfl, hlexer, hle, fun t ht hk => ?_,
    fun t ht hk => ?_, fun e he => ?_, fun e he hnothing n => ?_, fun e he hsome => ?_,
    fun m₁ h₁ hrest hpos => ?_⟩
  · have := Lexer.next_rest_length_lt ht hk
    omega
  · obtain ⟨t', -, ht', hk', -⟩ | ⟨-, hend⟩ | ⟨e, -, he, -⟩ := h.standsAt.next_cases
    · obtain rfl := Except.ok.inj (ht.symm.trans ht')
      exact absurd hk hk'
    · exact hend
    · cases ht.symm.trans he
  · rw [Lexer.location_of_error he, ← hposition]
    rfl
  · refine hplace.run_of_next_eq ?_ n
    rw [hlexer, Lexer.next_of_takesNothing he hnothing]
  · obtain ⟨c, cs, hrest, hc, hlt⟩ := Lexer.exists_start_of_error he hsome
    have hstart := h.standsAt.passLayout
    have hdrop : m.source.chars.drop _ = c :: cs := hstart.rest.symm.trans hrest
    refine ⟨_, c, h.standsAt.gapBetween hrest, ?_, hc, ?_⟩
    · rw [← List.head?_drop, hdrop]
      rfl
    · have hsplit := congrArg List.length (Lexeme.layout_append_afterLayout m.lexer.rest)
      rw [hrest, List.length_append, List.length_cons] at hsplit
      omega
  · obtain ⟨m₂, hnext₂, hlexer₂, hplace₂, hsource₂, -⟩ := h₁.next
    obtain ⟨hitem, hrest', hpos'⟩ := Lexer.next_alike hrest hpos
    have hlen₁ := h₁.cursor_add_length
    have hlen₂ := hplace₂.cursor_add_length
    rw [hlexer₂, hsource₂, hrest'] at hlen₂
    rw [hrest] at hlen₁
    refine ⟨m₂, by rw [hnext₂, hitem]; rfl, ?_, by omega⟩
    rw [hposition, ← hpos', ← hlexer₂]
    rfl

end Scanner

/-! ### The iterator -/

/-- A stream that is drained gives nothing more. -/
theorem TokenStream.next?_drain (s : TokenStream) : s.drain.2.next? = none := by
  rw [drain]
  split
  · assumption
  · exact next?_drain _
termination_by s.size
decreasing_by exact size_lt_of_next? ‹_›

namespace Lexer

/-- **What a lexer gives up to the end or the first error**: no more answers than there are
characters, and one; only the last is the end or an error; and they are the first of all answers. -/
theorem items_cases (l : Lexer) :
    l.items.length ≤ l.rest.length + 1 ∧ l.items = take l.items.length l ∧
      ∃ front last, l.items = front ++ [last] ∧
        (∀ i ∈ front, ∃ t, i = .ok t ∧ t.value.kind ≠ .eof) ∧
        ((∃ t, last = .ok t ∧ t.value.kind = .eof) ∨ ∃ e, last = .error e) := by
  -- by induction on the characters that are left, of which every token takes some
  rw [items_eq]
  cases hnext : l.next.1 with
  | error e =>
    rw [if_pos (show TokenStream.isLast (.error e) = true from rfl)]
    refine ⟨Nat.le_add_left 1 _, ?_, [], .error e, rfl, by simp, .inr ⟨e, rfl⟩⟩
    simp [take, hnext]
  | ok t =>
    by_cases ht : t.value.kind = .eof
    · rw [if_pos (by simp [TokenStream.isLast, ht])]
      refine ⟨Nat.le_add_left 1 _, ?_, [], .ok t, rfl, by simp, .inl ⟨t, rfl, ht⟩⟩
      simp [take, hnext]
    · rw [if_neg (by simp [TokenStream.isLast, ht])]
      have hlt := next_rest_length_lt hnext ht
      obtain ⟨hlen, htake, front, last, hitems, hfront, hlast⟩ := items_cases l.next.2
      refine ⟨?_, ?_, .ok t :: front, last, by rw [hitems]; rfl, ?_, hlast⟩
      · rw [List.length_cons]
        omega
      · rw [List.length_cons, take, hnext, ← htake]
      · exact List.forall_mem_cons.2 ⟨⟨t, rfl, ht⟩, hfront⟩
termination_by l.rest.length

end Lexer

/-- **A scanner keeps its place through any number of readings**, and these are the readings of the
lexer.  In every state that it reaches, the cursor is in range, and the character and the position
are those of the cursor; the next reading is a `Reading`; and at the end of the text all readings
give the end.  The iterator gives at most one answer for every character, and one more; it ends
after the first error or the end of the text, and gives nothing then. -/
theorem Scanner.keeps_its_place (s : Source) :
    (∀ n, ∃ m, (Scanner.ofSource s).run n = some ((Lexer.ofSource s).take n, m) ∧ m.source = s ∧
      m.InPlace ∧ (∃ item m', m.Reading item m') ∧
      (m.cursor = s.chars.length → ∀ k, ∃ m',
        m.run k = some (List.replicate k (.ok s.endToken), m') ∧ m'.cursor = m.cursor)) ∧
    (Lexer.ofSource s).items.length ≤ s.chars.length + 1 ∧
    (Lexer.ofSource s).items = (Lexer.ofSource s).take (Lexer.ofSource s).items.length ∧
    (∃ front last, (Lexer.ofSource s).items = front ++ [last] ∧
      (∀ i ∈ front, ∃ t, i = .ok t ∧ t.value.kind ≠ .eof) ∧
      ((∃ t, last = .ok t ∧ t.value.kind = .eof) ∨ ∃ e, last = .error e)) ∧
    (Lexer.ofSource s).stream.drain.2.next? = none := by
  obtain ⟨hlen, htake, hitems⟩ := Lexer.items_cases (Lexer.ofSource s)
  refine ⟨fun n => ?_, hlen, htake, hitems, TokenStream.next?_drain _⟩
  obtain ⟨m, hrun, hplace, rfl, -⟩ := (Scanner.inPlace_ofSource s).run n
  exact ⟨m, hrun, rfl, hplace, hplace.exists_reading, fun hend k => hplace.run_at_end hend k⟩

end TinyBasic
