import TinyBasic.Proofs.Token.Spelling
import TinyBasic.Proofs.Translation.Uses

/-!
# Reading C text back

What the generated text says about names is read off the text itself, line by line.

* `CText.lines`: the lines of a text.  They are the lines that the text was made of
  (`CText.lines_unlines`).
* `CText.identifiers`: the identifiers on a line, outside of string literals.  They can be told from
  the parts of the line: a character that no identifier holds divides a line into two that can be
  read on their own (`CText.names_append_cons`), and a string literal is passed over
  (`CText.outside_literal`).
-/

namespace TinyBasic.CText

variable {c : Char} {cs ds : List Char}

/-- The lines of a text.  What comes after the last line feed is a line too. -/
def lines (text : String) : List String := (text.toList.splitOn '\n').map String.ofList

theorem lines_unlines {ls : List String} (h : ∀ l ∈ ls, '\n' ∉ l.toList) :
    lines (unlines ls) = ls ++ [""] := by
  induction ls with
  | nil => rfl
  | cons l ls ih =>
    have hl := h l List.mem_cons_self
    have ih := ih fun l' hl' => h l' (List.mem_cons_of_mem l hl')
    have hsplit : (unlines (l :: ls)).toList.splitOn '\n' =
        l.toList :: (unlines ls).toList.splitOn '\n' := by
      have hchars : (unlines (l :: ls)).toList = l.toList ++ '\n' :: (unlines ls).toList := by
        simp
      rw [hchars, List.splitOn_eq_splitOnP]
      refine List.splitOnP_append_cons_of_forall_mem (fun c hc => ?_) '\n' (by simp) _
      rw [beq_eq_false_iff_ne]
      rintro rfl
      exact hl hc
    rw [lines, hsplit, List.map_cons, String.ofList_toList]
    exact congrArg (l :: ·) ih

/-! ### Identifiers -/

/-- The characters of identifiers. -/
def isNameChar (c : Char) : Bool := c.isAlphanum || c == '_'

/-- Whether characters that belong together are an identifier and not a part of a numeral. -/
def isName : List Char → Bool
  | [] => false
  | c :: _ => !c.isDigit

/-- The identifiers in a text without string literals. -/
def names (cs : List Char) : List (List Char) :=
  (cs.splitOnP fun c => !isNameChar c).filter isName

/-- The text with a blank in the place of every string literal. -/
def outside : List Char → List Char
  | [] => []
  | c :: cs => if c = '"' then ' ' :: inside cs else c :: outside cs
where
  /-- What comes after the end of the literal. -/
  inside : List Char → List Char
    | [] => []
    | ['\\'] => []
    | '\\' :: _ :: cs => inside cs
    | c :: cs => if c = '"' then outside cs else inside cs

/-- The identifiers on a line of C, outside of string literals. -/
def identifiers (line : String) : List String := (names (outside line.toList)).map String.ofList

example : identifiers "printf(\"%.2f\\n\", (float)(x + y1 * 1.5));" =
    ["printf", "float", "x", "y1"] := by
  decide

/-- **A character that no identifier holds divides a text** into two that can be read on their
own. -/
theorem names_append_cons (hc : isNameChar c = false) (cs ds : List Char) :
    names (cs ++ c :: ds) = names cs ++ names ds := by
  rw [names, List.splitOnP_append_cons cs ds (by simp [hc]), List.filter_append]
  rfl

theorem names_cons (hc : isNameChar c = false) (ds : List Char) : names (c :: ds) = names ds :=
  names_append_cons hc [] ds

/-- A text of letters and digits that begins with a letter is an identifier. -/
theorem names_of_isWord (h : Lexeme.IsWord cs) : names cs = [cs] := by
  obtain ⟨c, rest, rfl, hc, hrest⟩ := h
  have hall : ∀ d ∈ c :: rest, (!isNameChar d) = false := by
    intro d hd
    rcases List.mem_cons.1 hd with rfl | hd
    · simp [isNameChar, Char.isAlphanum, hc]
    · simp [isNameChar, hrest d hd]
  rw [names, List.splitOnP_eq_singleton hall]
  simp [isName, Lexeme.isDigit_eq_false_of_isAlpha hc]

theorem names_of_isDigits (h : ∀ d ∈ cs, d.isDigit = true) : names cs = [] := by
  have hall : ∀ d ∈ cs, (!isNameChar d) = false := by
    intro d hd
    simp [isNameChar, Char.isAlphanum, h d hd]
  rw [names, List.splitOnP_eq_singleton hall]
  cases cs with
  | nil => rfl
  | cons d ds => simp [isName, h d List.mem_cons_self]

/-- A text without a quote is passed as it is. -/
theorem outside_append (h : '"' ∉ cs) (ds : List Char) : outside (cs ++ ds) = cs ++ outside ds := by
  induction cs with
  | nil => rfl
  | cons c cs ih =>
    obtain ⟨hc, hcs⟩ := not_or.1 (mt List.mem_cons.2 h)
    rw [List.cons_append, outside, if_neg (Ne.symm hc), ih hcs, List.cons_append]

theorem outside_of_notMem (h : '"' ∉ cs) : outside cs = cs := by
  have := outside_append h []
  rwa [List.append_nil, outside, List.append_nil] at this

theorem inside_cons (hc : c ≠ '\\') (ds : List Char) :
    outside.inside (c :: ds) = if c = '"' then outside ds else outside.inside ds := by
  rw [outside.inside.eq_def]
  split <;> simp_all

/-- **A string literal is passed over.** -/
theorem outside_literal (hquote : '"' ∉ cs) (hescape : '\\' ∉ cs) (ds : List Char) :
    outside.inside (cs ++ ds) = outside.inside ds := by
  induction cs with
  | nil => rfl
  | cons c cs ih =>
    obtain ⟨hq, hquote⟩ := not_or.1 (mt List.mem_cons.2 hquote)
    obtain ⟨he, hescape⟩ := not_or.1 (mt List.mem_cons.2 hescape)
    rw [List.cons_append, inside_cons (Ne.symm he), if_neg (Ne.symm hq), ih hquote hescape]

end TinyBasic.CText
