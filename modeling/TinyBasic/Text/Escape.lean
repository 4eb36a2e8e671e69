/-!
# Escaped text

`escape` writes any text with printable ASCII characters only.  Both quotes and the backslash
follow a backslash, tab, carriage return and line feed have their letters, and every other
character outside the printable range is written as its code point between braces.
-/

namespace TinyBasic.Text

/-- Whether a character is printable ASCII, the space included. -/
def isPrintable (c : Char) : Bool := 0x20 ≤ c.toNat && c.toNat ≤ 0x7e

/-- The code point in lower case hexadecimal digits, between braces after a backslash and `u`. -/
def escapeCodePoint (c : Char) : List Char :=
  ['\\', 'u', '\x7b'] ++ Nat.toDigits 16 c.toNat ++ ['\x7d']

/-- The escaped form of one character. -/
def escapeChar (c : Char) : List Char :=
  if c = '\t' then ['\\', 't']
  else if c = '\r' then ['\\', 'r']
  else if c = '\n' then ['\\', 'n']
  else if c = '\'' ∨ c = '"' ∨ c = '\\' then ['\\', c]
  else if isPrintable c then [c]
  else escapeCodePoint c

/-- The escaped form of a text: its characters one after the other. -/
def escape (s : String) : String := String.ofList (s.toList.flatMap escapeChar)

theorem toList_escape (s : String) : (escape s).toList = s.toList.flatMap escapeChar := by
  simp [escape]

end TinyBasic.Text
