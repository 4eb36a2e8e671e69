import TinyBasic.Token.Lexer

/-!
# The stream of a lexer's answers

A `TokenStream` gives a lexer's answers one after the other and is finished after the `eof` token
or the first error.  `TokenStream.drain` is all that a stream still gives, together with the
finished stream, and `Lexer.items` is all that a lexer gives from where it stands.
-/

namespace TinyBasic

/-- A lexer whose answers are taken one after the other. -/
structure TokenStream where
  /-- The lexer that gives the next answer. -/
  lexer : Lexer
  /-- Whether the last answer has been given. -/
  finished : Bool

namespace TokenStream

/-- Whether nothing is given after this answer. -/
def isLast : Lexer.Item → Bool
  | .ok t => t.value.kind = .eof
  | .error _ => true

/-- The next answer and the stream after it. -/
def next? (s : TokenStream) : Option (Lexer.Item × TokenStream) :=
  if s.finished then none else some (s.lexer.next.1, ⟨s.lexer.next.2, isLast s.lexer.next.1⟩)

/-- A bound on the number of answers that are left. -/
def size (s : TokenStream) : Nat := if s.finished then 0 else s.lexer.rest.length + 1

theorem size_lt_of_next? {s s' : TokenStream} {i : Lexer.Item} (h : s.next? = some (i, s')) :
    s'.size < s.size := by
  unfold next? at h
  split at h
  · cases h
  · rename_i hf
    simp only [Option.some.injEq, Prod.mk.injEq] at h
    obtain ⟨rfl, rfl⟩ := h
    simp only [size, hf]
    cases hi : s.lexer.next.1 with
    | error e => simp [isLast]
    | ok t =>
      by_cases ht : t.value.kind = .eof
      · simp [isLast, ht]
      · simpa [isLast, ht] using Lexer.next_rest_length_lt hi ht

/-- All that a stream still gives, and the stream after that. -/
def drain (s : TokenStream) : List Lexer.Item × TokenStream :=
  match _h : s.next? with
  | none => ([], s)
  | some (i, s') =>
    let later := s'.drain
    (i :: later.1, later.2)
termination_by s.size
decreasing_by exact size_lt_of_next? _h

end TokenStream

namespace Lexer

/-- The stream of a lexer's answers. -/
def stream (l : Lexer) : TokenStream := ⟨l, false⟩

/-- The answers of a lexer up to and including the `eof` token or the first error. -/
def items (l : Lexer) : List Item := l.stream.drain.1

/-- The answers of the next `n` readings, whatever they are. -/
def take : Nat → Lexer → List Item
  | 0, _ => []
  | n + 1, l => l.next.1 :: take n l.next.2

end Lexer

end TinyBasic
