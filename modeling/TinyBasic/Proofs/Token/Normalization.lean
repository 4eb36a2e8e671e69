import TinyBasic.Proofs.Token.Tokenization

/-!
# Tokens without their layout

How many line feeds end a line says nothing, and neither do those in front of the first line.
`Token.normalize` leaves the latter out, and one of each run of the former: what is left is what a
program is made of.  Line feeds all have the same text (`Lexeme.Spells.eq_newline`), so it makes no
difference which of a run is kept.
-/

namespace TinyBasic

namespace Token

variable {t : Token} {ts us : List Token}

/-- The token of a line feed. -/
def newline : Token := ⟨.newline, "\n"⟩

/-- The token of a keyword. -/
def keyword (k : Keyword) : Token := ⟨.keyword k, k.spelling⟩

/-- The token between a variable and its value. -/
def equals : Token := ⟨.eq, "="⟩

/-- The token at the end of the text. -/
def eof : Token := ⟨.eof, ""⟩

/-- Whether the tokens begin with a line feed. -/
def startsLine (ts : List Token) : Bool := ts.head?.map kind == some .newline

/-- Leaves one line feed of each run. -/
def collapse : List Token → List Token
  | [] => []
  | t :: ts => if t.kind = .newline ∧ startsLine ts then collapse ts else t :: collapse ts

/-- Leaves out line feeds in front, and all but one of each run. -/
def normalize (ts : List Token) : List Token := collapse (ts.dropWhile (·.kind = .newline))

theorem collapse_cons (h : t.kind ≠ .newline) (ts : List Token) :
    collapse (t :: ts) = t :: collapse ts := by
  rw [collapse, if_neg fun hc => h hc.1]

/-- What comes first is kept, or a line feed in its place. -/
theorem head?_collapse (h : ∀ t ∈ ts, t.kind = .newline → t = newline) :
    (collapse ts).head? = ts.head? := by
  induction ts with
  | nil => rfl
  | cons t ts ih =>
    by_cases hc : t.kind = .newline ∧ startsLine ts
    · have ht := h t List.mem_cons_self hc.1
      rw [collapse, if_pos hc, ih fun t' ht' => h t' (List.mem_cons_of_mem t ht')]
      cases ts with
      | nil => simp [startsLine] at hc
      | cons t' ts =>
        have hk : t'.kind = .newline := by simpa [startsLine] using hc.2
        rw [List.head?_cons, List.head?_cons, ht, h t' (by simp) hk]
    · rw [collapse, if_neg hc]
      rfl

/-- What is between line feeds is kept. -/
theorem collapse_append (h : ∀ t ∈ ts, t.kind ≠ .newline) (us : List Token) :
    collapse (ts ++ us) = ts ++ collapse us := by
  induction ts with
  | nil => rfl
  | cons t ts ih =>
    rw [List.cons_append, collapse_cons (h t List.mem_cons_self),
      ih fun t' ht' => h t' (List.mem_cons_of_mem t ht'), List.cons_append]

/-- One of a run is kept. -/
theorem collapse_run {t : Token} (h : ∀ n ∈ t :: ts, n = newline) (hus : startsLine us = false) :
    collapse (t :: ts ++ us) = newline :: collapse us := by
  induction ts generalizing t with
  | nil =>
    obtain rfl := h t List.mem_cons_self
    rw [List.singleton_append, collapse, if_neg (by simp [hus])]
  | cons t' ts ih =>
    obtain rfl := h t List.mem_cons_self
    obtain rfl := h t' (by simp)
    have hstep : collapse (newline :: newline :: ts ++ us) = collapse (newline :: ts ++ us) :=
      if_pos ⟨rfl, rfl⟩
    rw [hstep, ih fun n hn => h n (List.mem_cons_of_mem _ hn)]

/-- Line feeds in front are left out. -/
theorem normalize_append (h : ∀ n ∈ ts, n = newline) (hus : startsLine us = false) :
    normalize (ts ++ us) = collapse us := by
  have hfront : ∀ t ∈ ts, decide (t.kind = .newline) = true := by
    intro t ht
    rw [h t ht]
    rfl
  rw [normalize, List.dropWhile_append_of_pos hfront]
  cases us with
  | nil => rfl
  | cons u us =>
    have hu : u.kind ≠ .newline := by simpa [startsLine] using hus
    rw [List.dropWhile_cons_of_neg (by simpa using hu)]

example : normalize [newline, keyword .print, ⟨.number, "1"⟩, newline, newline, eof] =
    [keyword .print, ⟨.number, "1"⟩, newline, eof] := by
  decide

end Token

namespace Lexeme

variable {k : Token.Kind} {text raw : List Char}

/-! ### Kinds with a single spelling -/

/-- Only a string literal is written otherwise than its text. -/
theorem Spells.raw_eq (h : Spells k text raw) (hk : k ≠ .string) : raw = text := by
  cases h with
  | string => exact absurd rfl hk
  | _ => rfl

theorem Spells.eq_newline (h : Spells .newline text raw) : text = ['\n'] := by
  cases h with
  | newline => rfl
  | operator hs => simp [operators] at hs

theorem Spells.eq_keyword {k : Keyword} (h : Spells (.keyword k) text raw) :
    text = k.spelling.toList := by
  cases h with
  | operator hs => simp [operators] at hs
  | keyword => rfl

theorem Spells.eq_equals (h : Spells .eq text raw) : text = ['='] := by
  cases h with
  | operator hs =>
    simp only [operators, List.mem_cons, Prod.mk.injEq, reduceCtorEq, and_false, and_true,
      List.not_mem_nil, or_false, false_or] at hs
    rw [hs]
    rfl

end Lexeme

namespace Lexer

/-- The end of the text has no text of its own. -/
theorem eq_eof_of_tokenizes {cs : List Char} {out : List (Except LexicalError Token)} {t : Token}
    (h : Tokenizes cs out) (ht : .ok t ∈ out) (hk : t.kind = .eof) : t = .eof := by
  obtain rfl | ⟨raw, hs⟩ := eof_or_spells_of_mem h ht
  · rfl
  · exact absurd hk hs.kind_ne_eof

theorem eq_eof_of_items {l : Lexer} {ts : List (Located Token)} {e : Located Token}
    (h : l.items = (ts ++ [e]).map .ok) (he : e.value.kind = .eof) : e.value = .eof := by
  refine eq_eof_of_tokenizes (tokenizes_items l) ?_ he
  rw [h, List.map_map]
  exact List.mem_map.2 ⟨e, by simp, rfl⟩

/-- All line feeds are the same token. -/
theorem eq_newline_of_tokenizes {cs : List Char} {out : List (Except LexicalError Token)}
    {t : Token} (h : Tokenizes cs out) (ht : .ok t ∈ out) (hk : t.kind = .newline) : t = .newline := by
  obtain rfl | ⟨raw, hs⟩ := eof_or_spells_of_mem h ht
  · cases hk
  · obtain ⟨kind, text⟩ := t
    obtain rfl : kind = .newline := hk
    rw [← String.ofList_toList (s := text), hs.eq_newline]
    rfl

theorem eq_newline_of_items {l : Lexer} {ts : List (Located Token)} {t : Located Token}
    (h : l.items = ts.map .ok) (ht : t ∈ ts) (hk : t.value.kind = .newline) :
    t.value = .newline := by
  refine eq_newline_of_tokenizes (tokenizes_items l) ?_ hk
  rw [h, List.map_map]
  exact List.mem_map.2 ⟨t, ht, rfl⟩

end Lexer

end TinyBasic
