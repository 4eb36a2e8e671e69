import Mathlib.Data.List.TakeWhile
import TinyBasic.Text.Escape

/-!
# Escaped text can be read back

`Text.unescape?` reads escaped text from left to right.  Whatever has been escaped is read back as
it was (`Text.unescape?_escape`), so no two texts have the same escaped form, and the escaped form
is printable (`Text.isPrintable_of_mem_escape`).

A backslash decides how far one escaped character goes: to the letter after it, or, behind `u`, to
the closing brace.  So escaped characters are told apart in whatever they stand in front of
(`Text.readChar?_escapeChar`).
-/

namespace TinyBasic.Text

variable {c : Char} {cs rest : List Char}

/-! ### Hexadecimal digits -/

/-- The value of a hexadecimal digit in lower case. -/
def hexDigit? (c : Char) : Option ℕ := (List.range 16).find? fun d => Nat.digitChar d == c

/-- The value of hexadecimal digits. -/
def hexNumber? (cs : List Char) : Option ℕ :=
  cs.foldlM (fun n c => (hexDigit? c).map (16 * n + ·)) 0

theorem hexDigit?_digitChar : ∀ d < 16, hexDigit? (Nat.digitChar d) = some d := by
  decide

/-- **The hexadecimal digits of a number are read as that number.** -/
theorem hexNumber?_toDigits (n : ℕ) : hexNumber? (Nat.toDigits 16 n) = some n := by
  induction n using Nat.strong_induction_on with
  | _ n ih =>
    rw [Nat.toDigits_eq_if (by decide)]
    split
    · rename_i h
      simp [hexNumber?, hexDigit?_digitChar n h]
    · rename_i h
      have ih := ih (n / 16) (by omega)
      have hdigit := hexDigit?_digitChar (n % 16) (Nat.mod_lt _ (by decide))
      rw [hexNumber?] at ih ⊢
      simp only [List.foldlM_append, ih, List.foldlM_cons, List.foldlM_nil, hdigit,
        Option.bind_eq_bind, Option.bind_some, Option.map_some, Option.pure_def]
      rw [Nat.div_add_mod]

/-- What holds of all digits holds of the digits of a number. -/
theorem forall_mem_toDigits {P : Char → Prop} (h : ∀ d < 16, P (Nat.digitChar d)) (n : ℕ) :
    ∀ c ∈ Nat.toDigits 16 n, P c := by
  induction n using Nat.strong_induction_on with
  | _ n ih =>
    rw [Nat.toDigits_eq_if (by decide)]
    split
    · rename_i hn
      simpa using h n hn
    · have hlast := h (n % 16) (Nat.mod_lt _ (by decide))
      exact List.forall_mem_append.2 ⟨ih (n / 16) (by omega), by simpa using hlast⟩

/-! ### Reading -/

/-- The character with the code point between braces at the front of a text, the opening brace
being gone, and what comes after the closing one. -/
def readCodePoint? (cs : List Char) : Option (Char × List Char) :=
  (hexNumber? (cs.takeWhile (· != '\x7d'))).map fun n =>
    (Char.ofNat n, (cs.dropWhile (· != '\x7d')).tail)

/-- The escaped character at the front of a text, and what comes after it. -/
def readChar? : List Char → Option (Char × List Char)
  | '\\' :: 't' :: rest => some ('\t', rest)
  | '\\' :: 'r' :: rest => some ('\r', rest)
  | '\\' :: 'n' :: rest => some ('\n', rest)
  | '\\' :: 'u' :: '\x7b' :: rest => readCodePoint? rest
  | '\\' :: c :: rest => if c ∈ ['\'', '"', '\\'] then some (c, rest) else none
  | '\\' :: [] => none
  | c :: rest => some (c, rest)
  | [] => none

theorem readCodePoint?_append (c : Char) (rest : List Char) :
    readCodePoint? (Nat.toDigits 16 c.toNat ++ '\x7d' :: rest) = some (c, rest) := by
  have hbrace : ∀ d ∈ Nat.toDigits 16 c.toNat, (d != '\x7d') = true :=
    forall_mem_toDigits (by decide) c.toNat
  simp [readCodePoint?, List.takeWhile_append_of_pos hbrace, List.dropWhile_append_of_pos hbrace,
    hexNumber?_toDigits]

/-- **The escaped form of a character can be read off a text that begins with it.** -/
theorem readChar?_escapeChar (c : Char) (rest : List Char) :
    readChar? (escapeChar c ++ rest) = some (c, rest) := by
  unfold escapeChar
  split_ifs with htab hreturn hfeed hquoted hprintable
  · rw [htab]
    rfl
  · rw [hreturn]
    rfl
  · rw [hfeed]
    rfl
  · rcases hquoted with rfl | rfl | rfl <;> rfl
  · have hslash : c ≠ '\\' := fun h => hquoted (.inr (.inr h))
    simp [readChar?, hslash]
  · have key := readCodePoint?_append c rest
    simpa [escapeCodePoint, readChar?] using key

/-- Reading a character takes at least one. -/
theorem length_lt_of_readChar? (h : readChar? cs = some (c, rest)) : rest.length < cs.length := by
  have hshort (tl : List Char) : (tl.dropWhile (· != '\x7d')).tail.length ≤ tl.length := by
    have hle := (List.dropWhile_suffix (l := tl) (· != '\x7d')).length_le
    rw [List.length_tail]
    omega
  unfold readChar? at h
  split at h
  case h_4 after =>
    obtain ⟨n, -, hn⟩ := Option.map_eq_some_iff.1 h
    obtain ⟨-, rfl⟩ := Prod.mk.inj hn
    have hle := hshort after
    simp only [List.length_cons]
    omega
  all_goals grind

/-- Reads escaped characters up to the end of the text. -/
def readAll? (cs : List Char) : Option (List Char) :=
  if cs = [] then some []
  else
    match _h : readChar? cs with
    | none => none
    | some (c, rest) => (readAll? rest).map (c :: ·)
termination_by cs.length
decreasing_by exact length_lt_of_readChar? _h

theorem readAll?_of_readChar? (h : readChar? cs = some (c, rest)) :
    readAll? cs = (readAll? rest).map (c :: ·) := by
  have hne : cs ≠ [] := by
    rintro rfl
    cases h
  rw [readAll?, if_neg hne]
  split
  · rename_i hnone
    rw [h] at hnone
    cases hnone
  · rename_i hsome
    rw [h] at hsome
    cases hsome
    rfl

theorem readAll?_flatMap (cs : List Char) : readAll? (cs.flatMap escapeChar) = some cs := by
  induction cs with
  | nil => rw [List.flatMap_nil, readAll?, if_pos rfl]
  | cons c cs ih =>
    rw [List.flatMap_cons, readAll?_of_readChar? (readChar?_escapeChar c _), ih]
    rfl

/-- The text whose escaped form this is. -/
def unescape? (s : String) : Option String := (readAll? s.toList).map String.ofList

/-- **Escaping loses nothing.** -/
theorem unescape?_escape (s : String) : unescape? (escape s) = some s := by
  rw [unescape?, toList_escape, readAll?_flatMap, Option.map_some, String.ofList_toList]

/-! ### The escaped form -/

theorem isPrintable_of_mem_escapeChar {d : Char} (h : d ∈ escapeChar c) : isPrintable d = true := by
  unfold escapeChar at h
  split_ifs at h with htab hreturn hfeed hquoted hprintable
  · exact List.all_eq_true.1 (by decide) d h
  · exact List.all_eq_true.1 (by decide) d h
  · exact List.all_eq_true.1 (by decide) d h
  · rcases hquoted with rfl | rfl | rfl <;> exact List.all_eq_true.1 (by decide) d h
  · obtain rfl := List.mem_singleton.1 h
    exact hprintable
  · have hdigits : ∀ d ∈ Nat.toDigits 16 c.toNat, isPrintable d = true :=
      forall_mem_toDigits (by decide) c.toNat
    rw [escapeCodePoint, List.mem_append, List.mem_append] at h
    rcases h with (hopen | hd) | hclose
    · exact List.all_eq_true.1 (by decide) d hopen
    · exact hdigits d hd
    · obtain rfl := List.mem_singleton.1 hclose
      rfl

/-- **An escaped text is printable.** -/
theorem isPrintable_of_mem_escape {s : String} {d : Char} (h : d ∈ (escape s).toList) :
    isPrintable d = true := by
  rw [toList_escape] at h
  obtain ⟨c, -, hd⟩ := List.mem_flatMap.1 h
  exact isPrintable_of_mem_escapeChar hd

end TinyBasic.Text
