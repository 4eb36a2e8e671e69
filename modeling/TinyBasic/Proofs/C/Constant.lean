import Mathlib.Data.List.Induction
import Mathlib.Data.Nat.Digits.Defs
import Mathlib.Data.Rat.Defs
import Mathlib.Algebra.Field.Rat
import TinyBasic.Proofs.Token.Spelling

/-!
# Constants of C

* `C.Constant cs v`: the characters `cs` are an integer or a floating constant with the value `v`.
  A constant has one value (`C.Constant.unique`).
* `C.digits base cs`: the number that digits denote.  In the bases eight and ten they denote the
  same number exactly when it is less than eight (`C.digits_eight_eq_iff`).

Hexadecimal constants, exponents and suffixes are left out, since each of them holds a letter.  So
are the limits of the types.
-/

namespace TinyBasic.C

open Lexeme

variable {c : Char} {cs ds fs : List Char} {v w : ℚ}

/-! ### Digits -/

/-- The value of a digit. -/
def digit (c : Char) : ℕ := c.toNat - '0'.toNat

/-- The number that digits denote in a base.  The last digit counts the ones. -/
def digits (base : ℕ) (cs : List Char) : ℕ := Nat.ofDigits base (cs.reverse.map digit)

example : digits 10 "010".toList = 10 ∧ digits 8 "010".toList = 8 := by decide

/-- Whether a character is a digit, but neither an eight nor a nine. -/
def isOctal (c : Char) : Bool := c.isDigit && digit c < 8

theorem isOctal_iff : isOctal c = true ↔ c.isDigit = true ∧ digit c < 8 := by simp [isOctal]

theorem digits_append (base : ℕ) (ds fs : List Char) :
    digits base (ds ++ fs) = digits base ds * base ^ fs.length + digits base fs := by
  simp [digits, Nat.ofDigits_append]
  ring

theorem digits_concat (base : ℕ) (cs : List Char) (c : Char) :
    digits base (cs ++ [c]) = base * digits base cs + digit c := by
  simp [digits, Nat.ofDigits_cons]
  ring

/-- No digit is greater than the number. -/
theorem digit_le_digits (hc : c ∈ cs) : digit c ≤ digits 10 cs := by
  induction cs using List.reverseRecOn with
  | nil => cases hc
  | append_singleton cs d ih =>
    rw [digits_concat]
    rcases List.mem_append.1 hc with hc | hc
    · have := ih hc
      omega
    · obtain rfl := List.mem_singleton.1 hc
      omega

/-- **Octal digits denote in base eight what they denote in base ten** exactly when that is less
than eight. -/
theorem digits_eight_eq_iff (h : ∀ c ∈ cs, digit c < 8) :
    digits 8 cs = digits 10 cs ↔ digits 10 cs < 8 := by
  have hle : ∀ cs : List Char, digits 8 cs ≤ digits 10 cs :=
    fun cs => Nat.ofDigits_monotone _ (by decide)
  rcases List.eq_nil_or_concat cs with rfl | ⟨cs, d, rfl⟩
  · decide
  · have hd := h d (by simp)
    have := hle cs
    simp only [List.concat_eq_append, digits_concat] at *
    omega

/-! ### Constants -/

/-- `Constant cs v`: the characters are a constant with the value `v`.  A leading zero makes an
integer constant octal. -/
inductive Constant : List Char → ℚ → Prop
  | decimal {c : Char} {cs : List Char} : c ≠ '0' → (∀ d ∈ c :: cs, d.isDigit = true) →
      Constant (c :: cs) (digits 10 (c :: cs))
  | octal {cs : List Char} : (∀ d ∈ cs, isOctal d = true) →
      Constant ('0' :: cs) (digits 8 ('0' :: cs))
  | floating {ds fs : List Char} : (∀ d ∈ ds ++ fs, d.isDigit = true) → ds ++ fs ≠ [] →
      Constant (ds ++ '.' :: fs) (digits 10 (ds ++ fs) / 10 ^ fs.length)

/-- A constant without a point is an integer constant. -/
theorem Constant.of_notMem (h : Constant cs v) (hpoint : '.' ∉ cs) :
    (cs.head? ≠ some '0' ∧ v = digits 10 cs) ∨
      (cs.head? = some '0' ∧ (∀ d ∈ cs, isOctal d = true) ∧ v = digits 8 cs) := by
  cases h with
  | decimal hc => exact .inl ⟨by simpa using hc, rfl⟩
  | octal hd => exact .inr ⟨rfl, List.forall_mem_cons.2 ⟨rfl, hd⟩, rfl⟩
  | floating => simp at hpoint

/-- The digits in front of the point and after it. -/
theorem span_point (hds : ∀ d ∈ ds, d.isDigit = true) (fs : List Char) :
    (ds ++ '.' :: fs).takeWhile Char.isDigit = ds ∧
      (ds ++ '.' :: fs).dropWhile Char.isDigit = '.' :: fs := by
  constructor
  · rw [List.takeWhile_append_of_pos hds]
    simp
  · rw [List.dropWhile_append_of_pos hds]
    simp

/-- A constant with a point is a floating constant. -/
theorem Constant.of_point (h : Constant (ds ++ '.' :: fs) v) (hds : ∀ d ∈ ds, d.isDigit = true) :
    v = digits 10 (ds ++ fs) / 10 ^ fs.length := by
  generalize hcs : ds ++ '.' :: fs = cs at h
  have hpoint : '.' ∈ cs := by simp [← hcs]
  cases h with
  | decimal _ hd => simpa using hd '.' hpoint
  | octal hd => simpa using (isOctal_iff.1 (hd '.' (List.mem_of_ne_of_mem (by decide) hpoint))).1
  | floating hd _ =>
    have hsplit := span_point hds fs
    rw [hcs] at hsplit
    obtain ⟨hds', hfs'⟩ := span_point (fun d h => hd d (List.mem_append_left _ h)) _
    obtain rfl := hsplit.1.symm.trans hds'
    obtain ⟨-, rfl⟩ := List.cons.inj (hsplit.2.symm.trans hfs')
    rfl

/-- **A constant has one value.** -/
theorem Constant.unique (h : Constant cs v) (h' : Constant cs w) : v = w := by
  by_cases hpoint : '.' ∈ cs
  · cases h with
    | decimal _ hd => simpa using hd '.' hpoint
    | octal hd => simpa using (isOctal_iff.1 (hd '.' (List.mem_of_ne_of_mem (by decide) hpoint))).1
    | floating hd _ => exact (h'.of_point fun d hds => hd d (List.mem_append_left _ hds)).symm
  · rcases h.of_notMem hpoint with ⟨hzero, rfl⟩ | ⟨hzero, -, rfl⟩ <;>
      rcases h'.of_notMem hpoint with ⟨hzero', rfl⟩ | ⟨hzero', -, rfl⟩
    · rfl
    · exact absurd hzero' hzero
    · exact absurd hzero hzero'
    · rfl

end TinyBasic.C
