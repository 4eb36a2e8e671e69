import TinyBasic.Proofs.Token.Reading
import TinyBasic.Token.Stream

/-!
# The lexer is a longest-match tokenisation

`Tokenizes cs out` says, without a reader, which tokens the characters `cs` are made of: a longest
gap is dropped, a longest lexeme becomes a token, and so on until the text ends or no token can be
taken.  `Lexer.tokenizes_iff` proves that the answers of a lexer are exactly these tokens, and the
fault where there is one.

`Lexer.items_eq` opens the list of a lexer's answers one answer at a time, and
`Lexer.spells_of_items_eq` gives the spelling of every token in it.
-/

namespace TinyBasic

open Lexeme

/-- `Tokenizes cs out`: the characters `cs` are made of the tokens in `out`, of which the last is
the end of the text, unless a fault takes its place. -/
inductive Tokenizes : List Char → List (Except LexicalError Token) → Prop
  | eof {gap : List Char} : IsLongestPrefix IsGap gap gap → Tokenizes gap [.ok ⟨.eof, ""⟩]
  | token {gap raw rest text : List Char} {kind : Token.Kind}
      {out : List (Except LexicalError Token)} :
      IsLongestPrefix IsGap gap (gap ++ (raw ++ rest)) →
      ¬ IsBrokenNumeral (raw ++ rest) → IsLongestPrefix IsLexeme raw (raw ++ rest) →
      Spells kind text raw → Tokenizes rest out →
      Tokenizes (gap ++ (raw ++ rest)) (.ok ⟨kind, String.ofList text⟩ :: out)
  | fault {gap rest : List Char} {e : LexicalError} :
      IsLongestPrefix IsGap gap (gap ++ rest) → rest ≠ [] → NoLexeme rest ∨ IsBrokenNumeral rest →
      Fault rest e → Tokenizes (gap ++ rest) [.error e]

namespace Lexeme

variable {c : Char} {raw text rest rest' : List Char} {k : Token.Kind} {e e' : LexicalError}

theorem Spells.kind_ne_eof (h : Spells k text raw) : k ≠ .eof := by
  rintro rfl
  cases h with
  | operator hs => simp [operators] at hs

/-- The fault at the front of a text from which no token can be taken. -/
def faultAt : List Char → LexicalError
  | '!' :: rest => .badBang rest.head?
  | '"' :: rest =>
    if (rest.dropWhile isStringChar).head?.all (· = '\n') then .unterminatedString else .badString
  | c :: _ => if c.isDigit then .badNumber else .unknownChar c
  | [] => .badNumber

theorem faultAt_cons (h : c ≠ '!') (h' : c ≠ '"') :
    faultAt (c :: rest) = if c.isDigit then .badNumber else .unknownChar c := by
  unfold faultAt
  split <;> simp_all

theorem dropWhile_isStringChar_append {cs : List Char} (h : IsStringText cs)
    (hr : ∀ c, rest.head? = some c → isStringChar c = false) :
    (cs ++ rest).dropWhile isStringChar = rest := by
  have hcs : ∀ c ∈ cs, isStringChar c = true := fun c hc => isStringChar_iff.2 (h c hc)
  rw [List.dropWhile_append_of_pos hcs]
  cases rest with
  | nil => rfl
  | cons c rest => simp [hr c rfl]

theorem Fault.eq_faultAt {cs : List Char} (h : Fault cs e) : e = faultAt cs := by
  cases h with
  | badBang => rfl
  | badNumber hb =>
    obtain ⟨ds, rest, rfl, ⟨hne, hd⟩, -⟩ := hb
    cases ds with
    | nil => exact absurd rfl hne
    | cons d ds =>
      have hd := hd d List.mem_cons_self
      rw [List.cons_append, faultAt_cons (by rintro rfl; simp at hd) (by rintro rfl; simp at hd),
        if_pos hd]
  | @badString inside rest c hin hc =>
    have hend : ∀ d, (c :: rest).head? = some d → isStringChar d = false := by
      rintro d hd
      obtain rfl := Option.some.inj hd
      simp only [List.mem_cons, List.not_mem_nil, or_false] at hc
      rcases hc with rfl | rfl | rfl | rfl <;> decide
    have hn : c ≠ '\n' := by
      rintro rfl
      simp at hc
    simp [faultAt, dropWhile_isStringChar_append hin hend, hn]
  | @unterminatedString inside rest hin hr =>
    have hend : ∀ c, rest.head? = some c → isStringChar c = false := by
      rintro c hc
      obtain rfl : c = '\n' := by simpa [hc] using hr
      decide
    rcases hr with hr | hr <;> simp [faultAt, dropWhile_isStringChar_append hin hend, hr]
  | @unknownChar c rest hno hbang hquote =>
    rw [faultAt_cons hbang hquote, if_neg]
    intro hd
    exact hno [c] ⟨_, _, .integer ⟨by simp, by simpa using hd⟩⟩ ⟨rest, rfl⟩

/-- **A text has one fault.** -/
theorem Fault.unique {cs : List Char} (h : Fault cs e) (h' : Fault cs e') : e = e' :=
  h.eq_faultAt.trans h'.eq_faultAt.symm

end Lexeme

theorem Tokenizes.ne_nil {cs : List Char} {out : List (Except LexicalError Token)}
    (h : Tokenizes cs out) : out ≠ [] := by
  cases h <;> simp

namespace Lexer

variable {l : Lexer} {c : Char} {cs : List Char} {t : Token} {e : LexicalError}

/-- **The answers of a lexer** are the next one and, unless that is the last, the answers of the
lexer after it. -/
theorem items_eq (l : Lexer) :
    l.items = l.next.1 :: if TokenStream.isLast l.next.1 then [] else l.next.2.items := by
  have hfinished : (⟨l.next.2, true⟩ : TokenStream).drain.1 = [] := by
    rw [TokenStream.drain]
    rfl
  have hstep : l.items =
      l.next.1 :: (⟨l.next.2, TokenStream.isLast l.next.1⟩ : TokenStream).drain.1 := by
    unfold items stream
    rw [TokenStream.drain]
    rfl
  rw [hstep]
  cases TokenStream.isLast l.next.1 with
  | false => rfl
  | true => rw [hfinished, if_pos rfl]

/-- An answer without its place. -/
def content : Item → Except LexicalError Token
  | .ok t => .ok t.value
  | .error e => .error e.value

theorem next_of_nil (h : afterLayout l.rest = []) :
    l.next = (l.passLayout.eofItem, l.passLayout) := by
  simp [next, h]

theorem next_of_cons (h : afterLayout l.rest = c :: cs) :
    l.next.2.rest = (read c cs).rest ∧ content l.next.1 = (read c cs).outcome := by
  simp only [next, passLayout_rest, h, pass_rest, item, true_and]
  split <;> simp_all [content]

theorem items_of_nil (h : afterLayout l.rest = []) :
    l.items.map content = [.ok ⟨.eof, ""⟩] := by
  rw [items_eq, next_of_nil h]
  simp [TokenStream.isLast, eofItem, content]

theorem items_of_error (h : afterLayout l.rest = c :: cs)
    (he : (read c cs).outcome = .error e) : l.items.map content = [.error e] := by
  have hc := (next_of_cons h).2
  rw [he] at hc
  rw [items_eq]
  cases hn : l.next.1 with
  | ok t => simp [hn, content] at hc
  | error e' => simpa [hn, content, TokenStream.isLast] using hc

theorem items_of_ok (h : afterLayout l.rest = c :: cs) (ht : (read c cs).outcome = .ok t)
    (hk : t.kind ≠ .eof) :
    l.items.map content = .ok t :: l.next.2.items.map content := by
  have hc := (next_of_cons h).2
  rw [ht] at hc
  rw [items_eq]
  cases hn : l.next.1 with
  | error e => simp [hn, content] at hc
  | ok t' =>
    obtain rfl : t'.value = t := by simpa [hn, content] using hc
    simp [content, TokenStream.isLast, hk]

/-- Once the end of the text has been given, nothing is left to read. -/
theorem next_rest_of_eof {t : Located Token} (h : l.next.1 = .ok t) (ht : t.value.kind = .eof) :
    l.next.2.rest = [] := by
  cases hl : afterLayout l.rest with
  | nil => rw [next_of_nil hl, passLayout_rest, hl]
  | cons c cs =>
    have hanswer := isAnswer_read c cs
    have hc := (next_of_cons hl).2
    rw [h] at hc
    unfold IsAnswer at hanswer
    rw [← hc] at hanswer
    exact absurd ht hanswer.1.kind_ne_eof

/-! ### The tokenisation -/

theorem tokenizes_items (l : Lexer) : Tokenizes l.rest (l.items.map content) := by
  -- by induction on the characters that are left, of which every token takes some
  have hgap := isLongestPrefix_layout l.rest
  have hrest := layout_append_afterLayout l.rest
  generalize layout l.rest = gap at hgap hrest
  cases h : afterLayout l.rest with
  | nil =>
    rw [h, List.append_nil] at hrest
    rw [hrest] at hgap
    rw [items_of_nil h]
    exact .eof hgap
  | cons c cs =>
    have hanswer := isAnswer_read c cs
    rw [h] at hrest
    unfold IsAnswer at hanswer
    cases ho : (read c cs).outcome with
    | error e =>
      rw [ho] at hanswer
      rw [items_of_error h ho]
      have key := Tokenizes.fault (hrest.symm ▸ hgap) (List.cons_ne_nil c cs) hanswer.2 hanswer.1
      rwa [hrest] at key
    | ok t =>
      rw [ho] at hanswer
      obtain ⟨hs, hlong, hb⟩ := hanswer
      have hread := read_taken_append_rest c cs
      have hnext := (next_of_cons h).1
      have hlt : l.next.2.rest.length < l.rest.length := by
        have := read_rest_length_lt ho
        rw [← hrest, List.length_append, hnext]
        omega
      have ih := tokenizes_items l.next.2
      rw [hnext] at ih
      rw [← hread] at hrest hlong hb
      have key := Tokenizes.token (hrest.symm ▸ hgap) hb hlong hs ih
      rw [hrest, String.ofList_toList] at key
      rwa [items_of_ok h ho hs.kind_ne_eof]
termination_by l.rest.length

/-- The characters after the longest gap are those that the lexer reads next. -/
theorem afterLayout_eq {gap rest : List Char} (hl : l.rest = gap ++ rest)
    (hgap : IsLongestPrefix IsGap gap (gap ++ rest)) : afterLayout l.rest = rest := by
  have hlayout := (isLongestPrefix_layout l.rest).eq (hl ▸ hgap)
  have hrest := layout_append_afterLayout l.rest
  rw [hlayout] at hrest
  exact List.append_cancel_left (hrest.trans hl)

theorem map_content_of_tokenizes {out : List (Except LexicalError Token)}
    (h : Tokenizes cs out) : ∀ l : Lexer, l.rest = cs → l.items.map content = out := by
  induction h with
  | @eof gap hgap =>
    intro l hl
    have hnothing := List.append_nil gap
    exact items_of_nil (afterLayout_eq (hl.trans hnothing.symm) (hnothing.symm ▸ hgap))
  | @fault gap rest e hgap hne hnone hfault =>
    intro l hl
    have h := afterLayout_eq hl hgap
    obtain ⟨c, cs, rfl⟩ := List.exists_cons_of_ne_nil hne
    have hanswer := isAnswer_read c cs
    unfold IsAnswer at hanswer
    cases ho : (read c cs).outcome with
    | error e' =>
      rw [ho] at hanswer
      rw [items_of_error h ho, hanswer.1.unique hfault]
    | ok t =>
      rw [ho] at hanswer
      obtain ⟨-, hlong, hb⟩ := hanswer
      rcases hnone with hnone | hbroken
      · exact absurd hlong.isPrefix (hnone _ hlong.holds)
      · exact absurd hbroken hb
  | @token gap raw rest text kind out hgap hb hlong hs _ ih =>
    intro l hl
    have h := afterLayout_eq hl hgap
    obtain ⟨c, cs, hcs⟩ := List.exists_cons_of_ne_nil (l := raw ++ rest) (by simp [hs.ne_nil])
    rw [hcs] at h hlong hb
    have hanswer := isAnswer_read c cs
    unfold IsAnswer at hanswer
    cases ho : (read c cs).outcome with
    | error e' =>
      -- the lexer refuses no text at whose front a lexeme stands
      rw [ho] at hanswer
      rcases hanswer.2 with hnone | hbroken
      · exact absurd hlong.isPrefix (hnone _ hlong.holds)
      · exact absurd hbroken hb
    | ok t =>
      rw [ho] at hanswer
      obtain ⟨hs', hlong', -⟩ := hanswer
      have htaken := hlong'.eq hlong
      rw [htaken] at hs'
      obtain ⟨hkind, htext⟩ := hs'.unique hs
      have hrest : l.next.2.rest = rest := by
        have hread := read_taken_append_rest c cs
        rw [htaken, ← hcs] at hread
        exact (next_of_cons h).1.trans (List.append_cancel_left hread)
      rw [items_of_ok h ho hs'.kind_ne_eof, ih _ hrest, ← hkind, ← htext, String.ofList_toList]

/-- **The answers of a lexer are the longest-match tokenisation of its text**, up to the end of
the text or to the first fault. -/
theorem tokenizes_iff (s : Source) (out : List (Except LexicalError Token)) :
    Tokenizes s.chars out ↔ (ofSource s).items.map content = out :=
  ⟨fun h => map_content_of_tokenizes h _ rfl, fun h => h ▸ tokenizes_items (ofSource s)⟩

/-- **What a token of a tokenisation is**: the end of the text, or spelled as its kind demands. -/
theorem eof_or_spells_of_mem {out : List (Except LexicalError Token)} {t : Token}
    (h : Tokenizes cs out) (ht : .ok t ∈ out) :
    t = ⟨.eof, ""⟩ ∨ ∃ raw, Spells t.kind t.text.toList raw := by
  induction h with
  | eof => exact .inl (Except.ok.inj (List.mem_singleton.1 ht))
  | fault => cases List.mem_singleton.1 ht
  | @token _ raw _ text kind _ _ _ _ hs _ ih =>
    rcases List.mem_cons.1 ht with heq | ht
    · obtain rfl := Except.ok.inj heq
      exact .inr ⟨raw, by simpa using hs⟩
    · exact ih ht

/-- An error of a tokenisation names a fault. -/
theorem exists_fault_of_mem {out : List (Except LexicalError Token)} {e : LexicalError}
    (h : Tokenizes cs out) (he : .error e ∈ out) : ∃ ds, Fault ds e := by
  induction h with
  | eof => cases List.mem_singleton.1 he
  | fault _ _ _ hfault =>
    obtain rfl := Except.error.inj (List.mem_singleton.1 he)
    exact ⟨_, hfault⟩
  | token _ _ _ _ _ ih =>
    rcases List.mem_cons.1 he with heq | he
    · cases heq
    · exact ih he

/-- The next answer is one of all. -/
theorem content_next_mem (l : Lexer) : content l.next.1 ∈ l.items.map content := by
  rw [items_eq]
  exact List.mem_map_of_mem List.mem_cons_self

theorem spells_of_mem_tokenizes {out : List (Except LexicalError Token)} {t : Token}
    (h : Tokenizes cs out) (ht : .ok t ∈ out.dropLast) :
    ∃ raw, Spells t.kind t.text.toList raw := by
  induction h with
  | eof => cases ht
  | fault => cases ht
  | @token gap raw rest text kind out _ _ _ hs hout ih =>
    rw [List.dropLast_cons_of_ne_nil hout.ne_nil] at ht
    rcases List.mem_cons.1 ht with heq | ht
    · obtain rfl := Except.ok.inj heq
      exact ⟨raw, by simpa using hs⟩
    · exact ih ht

/-- Every token in front of the last one is spelled as its kind demands. -/
theorem spells_of_items_eq {ts : List (Located Token)} {e t : Located Token}
    (h : l.items = (ts ++ [e]).map .ok) (ht : t ∈ ts) :
    ∃ raw, Spells t.value.kind t.value.text.toList raw := by
  refine spells_of_mem_tokenizes (tokenizes_items l) ?_
  rw [h, ← List.map_dropLast, ← List.map_dropLast, List.dropLast_concat, List.map_map]
  exact List.mem_map.2 ⟨t, ht, rfl⟩

end Lexer

end TinyBasic
