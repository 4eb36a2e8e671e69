import TinyBasic.Proofs.Token.Tokenization
import TinyBasic.Proofs.Translation.Identifiers
import TinyBasic.Proofs.Translation.Rendering

/-!
# The lines of the body

The lines that are rendered from a tree can be told apart by their characters, because these come
from tokens and so are spelled as the kinds of the tokens demand.

* `Reads us code`: the text `code` is an expression that reads variables as the uses `us` say.
* `Fits us l`: what the line `l` does with names is in the uses `us`.  A line that declares a label
  comes from a label (`Fits.label_mem`), a line that jumps from a jump (`Fits.goto_mem`), and the
  identifiers on any other line are variables or belong to C (`Fits.isKnown`).
* `Frame front back`: what stands around an expression on a line.
* `Tree.fitsAll`: the lines of statements fit their uses.
-/

namespace TinyBasic

open TinyBasic.Tree CText Lexeme

variable {us vs : List Use} {l : String}

/-- The text of a token is spelled as its kind demands. -/
def IsSpelled (t : Located Token) : Prop := ∃ raw, Spells t.value.kind t.value.text.toList raw

/-! ### Expressions -/

/-- The characters of expressions. -/
def isExpressionChar (c : Char) : Bool :=
  c.isAlphanum || c == ' ' || c == '.' || operatorChars.contains c

/-- The text is made of characters of expressions, and every identifier in it is read. -/
structure Reads (us : List Use) (code : String) : Prop where
  chars : ∀ c ∈ code.toList, isExpressionChar c = true
  names : ∀ x ∈ names code.toList, .read (String.ofList x) ∈ us

theorem Reads.mono {code : String} (h : Reads us code) (hus : us ⊆ vs) : Reads vs code :=
  ⟨h.chars, fun x hx => hus (h.names x hx)⟩

theorem reads_primary (p : Primary) (h : IsSpelled p.token) : Reads p.uses p.render := by
  obtain ⟨raw, h⟩ := h
  cases p with
  | number t =>
    change Spells t.token.value.kind t.token.value.text.toList raw at h
    rw [t.fits] at h
    change Reads [] t.token.value.text
    rcases h.isNumeral with ⟨-, hd⟩ | ⟨ds, fs, htext, ⟨-, hd⟩, ⟨-, hf⟩⟩
    · refine ⟨fun c hc => ?_, ?_⟩
      · simp [isExpressionChar, Char.isAlphanum, hd c hc]
      · simp [names_of_isDigits hd]
    · refine ⟨fun c hc => ?_, ?_⟩
      · rw [htext] at hc
        rcases List.mem_append.1 hc with hc | hc
        · simp [isExpressionChar, Char.isAlphanum, hd c hc]
        · rcases List.mem_cons.1 hc with rfl | hc
          · rfl
          · simp [isExpressionChar, Char.isAlphanum, hf c hc]
      · rw [htext, names_append_cons rfl, names_of_isDigits hd, names_of_isDigits hf]
        simp
  | «variable» t =>
    change Spells t.token.value.kind t.token.value.text.toList raw at h
    rw [t.fits] at h
    change Reads [.read t.token.value.text] t.token.value.text
    refine ⟨?_, ?_⟩
    · obtain ⟨c, rest, htext, hc, hrest⟩ := h.isWord
      rw [htext]
      intro d hd
      rcases List.mem_cons.1 hd with rfl | hd
      · simp [isExpressionChar, Char.isAlphanum, hc]
      · simp [isExpressionChar, hrest d hd]
    · simp [names_of_isWord h.isWord]

/-- An operator holds no identifier. -/
theorem names_operator {op : List Char} (h : ∀ c ∈ op, c ∈ operatorChars) (ds : List Char) :
    names (op ++ ds) = names ds := by
  induction op with
  | nil => rfl
  | cons c op ih =>
    have hc : isNameChar c = false := by
      have := h c List.mem_cons_self
      simp only [operatorChars, List.mem_cons, List.not_mem_nil, or_false] at this
      rcases this with rfl | rfl | rfl | rfl | rfl | rfl | rfl | rfl <;> rfl
    rw [List.cons_append, names_cons hc]
    exact ih fun d hd => h d (List.mem_cons_of_mem c hd)

theorem isExpressionChar_of_mem_operatorChars {c : Char} (h : c ∈ operatorChars) :
    isExpressionChar c = true := by
  simp [isExpressionChar, h]

/-- Two operands with an operator between them. -/
theorem Reads.operation {a b op : String} (ha : Reads us a) (hb : Reads vs b)
    (hop : ∀ c ∈ op.toList, c ∈ operatorChars) :
    Reads (us ++ vs) (a ++ (" " ++ op ++ " " ++ b)) := by
  have hchars : (a ++ (" " ++ op ++ " " ++ b)).toList =
      a.toList ++ ' ' :: (op.toList ++ ' ' :: b.toList) := by simp
  refine ⟨fun c hc => ?_, fun x hx => ?_⟩
  · rw [hchars] at hc
    simp only [List.mem_append, List.mem_cons] at hc
    rcases hc with hc | rfl | hc | rfl | hc
    · exact ha.chars c hc
    · rfl
    · exact isExpressionChar_of_mem_operatorChars (hop c hc)
    · rfl
    · exact hb.chars c hc
  · rw [hchars, names_append_cons rfl, names_operator hop, names_cons rfl] at hx
    rcases List.mem_append.1 hx with hx | hx
    · exact List.mem_append_left vs (ha.names x hx)
    · exact List.mem_append_right us (hb.names x hx)

theorem reads_unary (u : Unary) (h : ∀ t ∈ u.tokens, IsSpelled t) : Reads u.uses u.render := by
  obtain ⟨sign, p⟩ := u
  cases sign with
  | none =>
    have hp := reads_primary p (h p.token (by simp [Unary.tokens]))
    simpa [Unary.render] using hp
  | some l =>
    have hp := reads_primary p (h p.token (by simp [Unary.tokens]))
    obtain ⟨raw, hl⟩ := h l.token (by simp [Unary.tokens])
    have hop : ∀ c ∈ l.text.toList, c ∈ operatorChars := hl.mem_operatorChars (.inl l.fits)
    have hchars : (Unary.render ⟨some l, p⟩).toList = l.text.toList ++ p.render.toList := by
      simp [Unary.render]
    refine ⟨fun c hc => ?_, fun x hx => ?_⟩
    · rw [hchars] at hc
      rcases List.mem_append.1 hc with hc | hc
      · exact isExpressionChar_of_mem_operatorChars (hop c hc)
      · exact hp.chars c hc
    · rw [hchars, names_operator hop] at hx
      exact hp.names x hx

section Series

variable {X : Type} {isOperator : Token.Kind → Bool} {tokens : X → List (Located Token)}
  {uses : X → List Use} {code : X → String}

theorem reads_series
    (hop : ∀ k : Token.Kind, isOperator k = true →
      k.isAdditive = true ∨ k.isMultiplicative = true ∨ k.isComparison = true)
    (hoperand : ∀ x, (∀ t ∈ tokens x, IsSpelled t) → Reads (uses x) (code x))
    (x : Series isOperator X) (h : ∀ t ∈ x.tokens tokens, IsSpelled t) :
    Reads (x.gather uses) (x.render code) := by
  obtain ⟨hfirst, hlater⟩ := Series.forall_mem h
  have huses : x.gather uses = x.later.foldl (fun us y => us ++ uses y.2) (uses x.first) := by
    rw [List.foldl_append_eq_append]
    rfl
  rw [huses]
  refine x.foldl_induction tokens _ (fun c _ us => Reads us c) (hoperand _ hfirst) ?_
  intro y hy c _ us hc
  obtain ⟨⟨raw, hl⟩, hoperands⟩ := hlater y hy
  exact hc.operation (hoperand y.2 hoperands) (hl.mem_operatorChars (hop _ y.1.fits))

end Series

theorem reads_expression (x : Expression) (h : ∀ t ∈ x.tokens, IsSpelled t) :
    Reads x.uses x.render := by
  rw [x.uses_eq]
  exact reads_series (fun _ => .inl) (reads_series (fun _ h => .inr (.inl h)) reads_unary) x h

theorem reads_comparison (c : Comparison) (h : ∀ t ∈ c.tokens, IsSpelled t) :
    Reads c.uses c.render := by
  rw [c.uses_eq]
  exact reads_series (fun _ h => .inr (.inr h)) reads_expression c.chain h

/-! ### Lines -/

/-- The identifier belongs to C, or it is a variable of the program. -/
def IsKnown (us : List Use) (x : String) : Prop :=
  x ∈ Reserved.words ∨ x ∈ Reserved.functions ∨ .read x ∈ us ∨ .assign x ∈ us

/-- A line of the body is a label, a jump, an assignment, or none of these. -/
inductive Fits (us : List Use) : String → Prop
  | label {x : String} : IsWord x.toList → .label x ∈ us → Fits us (x ++ ":;")
  | goto {x : String} : IsWord x.toList → .goto x ∈ us → Fits us ("goto " ++ x ++ ";")
  | assign {x code : String} : IsWord x.toList → .assign x ∈ us → Reads us code →
      Fits us (x ++ " = " ++ code ++ ";")
  | other {l : String} : '\n' ∉ l.toList → (∀ x, l ≠ x ++ ":;") → (∀ x, l ≠ "goto " ++ x ++ ";") →
      (∀ x ∈ identifiers l, IsKnown us x) → Fits us l

namespace Fits

theorem mono (h : Fits us l) (hus : us ⊆ vs) : Fits vs l := by
  cases h with
  | label hw hx => exact .label hw (hus hx)
  | goto hw hx => exact .goto hw (hus hx)
  | assign hw hx hr => exact .assign hw (hus hx) (hr.mono hus)
  | other hn hl hg hk =>
    refine .other hn hl hg fun x hx => ?_
    rcases hk x hx with hx | hx | hx | hx
    · exact .inl hx
    · exact .inr (.inl hx)
    · exact .inr (.inr (.inl (hus hx)))
    · exact .inr (.inr (.inr (hus hx)))

/-- A character that words do not have. -/
theorem notMem_of_isWord {cs : List Char} (h : IsWord cs) {c : Char} (hc : c.isAlphanum = false) :
    c ∉ cs := by
  obtain ⟨d, rest, rfl, hd, hrest⟩ := h
  intro hmem
  rcases List.mem_cons.1 hmem with rfl | hmem
  · simp [Char.isAlphanum, hd] at hc
  · simp [hrest c hmem] at hc

theorem notMem_of_reads {code : String} (h : Reads us code) {c : Char}
    (hc : isExpressionChar c = false) : c ∉ code.toList := by
  intro hmem
  simp [h.chars c hmem] at hc

theorem newline_notMem (h : Fits us l) : '\n' ∉ l.toList := by
  cases h with
  | label hw => simpa using notMem_of_isWord hw rfl
  | goto hw => simpa using notMem_of_isWord hw rfl
  | assign hw _ hr => simpa using ⟨notMem_of_isWord hw rfl, notMem_of_reads hr rfl⟩
  | other hn => exact hn

/-- A word and a blank at the front of a text. -/
theorem eq_of_append_blank {xs ys as bs : List Char} (hx : ' ' ∉ xs) (hy : ' ' ∉ ys)
    (h : xs ++ ' ' :: as = ys ++ ' ' :: bs) : xs = ys := by
  have hfront : ∀ {zs cs : List Char}, ' ' ∉ zs →
      (zs ++ ' ' :: cs).takeWhile (· != ' ') = zs := by
    intro zs cs hz
    rw [List.takeWhile_append_of_pos fun c hc => bne_iff_ne.2 (ne_of_mem_of_not_mem hc hz)]
    simp
  rw [← hfront hx, h, hfront hy]

/-- **A line that declares a label** comes from a label of the program. -/
theorem label_mem {x : String} (h : Fits us (x ++ ":;")) : .label x ∈ us := by
  generalize hl : x ++ ":;" = l at h
  have hcolon : ':' ∈ l.toList := by simp [← hl]
  cases h with
  | label hw hx =>
    obtain rfl : x = _ := by simpa using hl
    exact hx
  | goto hw => simp [notMem_of_isWord hw (c := ':') rfl] at hcolon
  | assign hw _ hr =>
    simp [notMem_of_isWord hw (c := ':') rfl, notMem_of_reads hr (c := ':') rfl] at hcolon
  | other _ hlabel => exact absurd hl.symm (hlabel x)

/-- **A line that jumps** comes from a jump of the program, unless a variable is called as the word
for jumps. -/
theorem goto_mem {x : String} (h : Fits us ("goto " ++ x ++ ";")) :
    .goto x ∈ us ∨ .assign "goto" ∈ us := by
  generalize hl : "goto " ++ x ++ ";" = l at h
  cases h with
  | label hw =>
    have hblank := congrArg (' ' ∈ ·.toList) hl
    simp [notMem_of_isWord hw (c := ' ') rfl] at hblank
  | goto hw hx =>
    obtain rfl : x = _ := by simpa using hl
    exact .inl hx
  | @assign y code hw hx =>
    -- both begin with a word and a blank, so the variable is called like the word for jumps
    have hchars : "goto".toList ++ ' ' :: (x.toList ++ [';']) =
        y.toList ++ ' ' :: ("= ".toList ++ code.toList ++ [';']) := by
      simpa using congrArg String.toList hl
    have hy := eq_of_append_blank (by decide) (notMem_of_isWord hw rfl) hchars
    rw [String.toList_inj.1 hy]
    exact .inr hx
  | other _ _ hgoto => exact absurd hl.symm (hgoto x)

/-- **An identifier on a line that neither declares a label nor jumps** belongs to C or is a
variable. -/
theorem isKnown (h : Fits us l) (hlabel : ∀ x, l ≠ x ++ ":;") (hgoto : ∀ x, l ≠ "goto " ++ x ++ ";")
    {x : String} (hx : x ∈ identifiers l) : IsKnown us x := by
  cases h with
  | label => exact absurd rfl (hlabel _)
  | goto => exact absurd rfl (hgoto _)
  | @assign y code hw hy hr =>
    have hchars : (y ++ " = " ++ code ++ ";").toList =
        y.toList ++ ' ' :: '=' :: ' ' :: (code.toList ++ ';' :: []) := by simp
    have hquote : '"' ∉ (y ++ " = " ++ code ++ ";").toList := by
      simpa using ⟨notMem_of_isWord hw rfl, notMem_of_reads hr rfl⟩
    obtain ⟨z, hz, rfl⟩ := List.mem_map.1 hx
    rw [outside_of_notMem hquote, hchars, names_append_cons rfl, names_cons rfl, names_cons rfl,
      names_append_cons rfl, names_of_isWord hw] at hz
    simp only [List.mem_append, List.mem_singleton] at hz
    rcases hz with rfl | hz | hz
    · rw [String.ofList_toList]
      exact .inr (.inr (.inr hy))
    · exact .inr (.inr (.inl (hr.names z hz)))
    · cases hz
  | other _ _ _ hk => exact hk x hx

theorem ne_label (h : ¬ ":;".toList <:+ l.toList) (x : String) : l ≠ x ++ ":;" := by
  rintro rfl
  exact h (by simp)

theorem ne_goto (h : ¬ "goto ".toList <+: l.toList) (x : String) : l ≠ "goto " ++ x ++ ";" := by
  rintro rfl
  exact h (by simp)

theorem not_suffix_append {label front back : List Char} (hlength : label.length ≤ back.length)
    (h : ¬ label <:+ back) : ¬ label <:+ front ++ back :=
  fun hsuffix => h (List.suffix_of_suffix_length_le hsuffix (List.suffix_append front back) hlength)

theorem notMem_of_isStringText {cs : List Char} (h : IsStringText cs) {c : Char}
    (hc : c ∈ ['"', '\n', '\r', '\t', '\\', '%']) : c ∉ cs :=
  fun hmem => h c hmem hc

/-- Identifiers that belong to C. -/
theorem isKnown_of_mem {cs : List Char}
    (h : ∀ x ∈ names cs, String.ofList x ∈ Reserved.words ++ Reserved.functions) {x : List Char}
    (hx : x ∈ names cs) : IsKnown us (String.ofList x) :=
  (List.mem_append.1 (h x hx)).elim .inl fun h => .inr (.inl h)

theorem printText {text : String} (h : IsStringText text.toList) :
    Fits us ("printf(\"" ++ text ++ "\\n\");") := by
  have hchars : ("printf(\"" ++ text ++ "\\n\");").toList =
      ("printf(\"".toList ++ text.toList) ++ "\\n\");".toList := by simp
  have hquote := notMem_of_isStringText h (c := '"') (by simp)
  have hescape := notMem_of_isStringText h (c := '\\') (by simp)
  have houtside : outside ("printf(\"" ++ text ++ "\\n\");").toList = "printf( );".toList := by
    rw [hchars, List.append_assoc]
    change "printf( ".toList ++ outside.inside (text.toList ++ "\\n\");".toList) = _
    rw [outside_literal hquote hescape]
    rfl
  refine .other ?_ (ne_label ?_) (ne_goto ?_) fun x hx => ?_
  · simpa using notMem_of_isStringText h (c := '\n') (by simp)
  · rw [hchars]
    exact not_suffix_append (by decide) (by decide)
  · simp
  · rw [identifiers, houtside] at hx
    obtain ⟨z, hz, rfl⟩ := List.mem_map.1 hx
    exact isKnown_of_mem (by decide) hz

end Fits

/-- What stands around an expression on a line of C that neither declares a label nor jumps. -/
structure Frame (front back : String) : Prop where
  newline : '\n' ∉ front.toList ++ back.toList
  label : ":;".toList.length ≤ back.toList.length ∧ ¬ ":;".toList <:+ back.toList
  goto : ∃ c cs, front.toList = c :: cs ∧ c ≠ 'g'
  /-- The literals in front are closed. -/
  closed : ∀ cs, outside (front.toList ++ cs) = outside front.toList ++ outside cs
  /-- No identifier reaches from the front into the expression, nor from there to the back. -/
  apart : (outside front.toList).getLast?.map isNameChar = some false ∧
    (outside back.toList).head?.map isNameChar = some false
  /-- Every identifier around the expression belongs to C. -/
  known : ∀ x ∈ names (outside front.toList) ++ names (outside back.toList),
    String.ofList x ∈ Reserved.words ++ Reserved.functions

namespace Frame

variable {front back code : String}

/-- The identifiers are those in front, those of the expression, and those at the back. -/
theorem names_outside (hf : Frame front back) (hquote : '"' ∉ code.toList) :
    names (outside (front ++ code ++ back).toList) =
      names (outside front.toList) ++ (names code.toList ++ names (outside back.toList)) := by
  have hchars : (front ++ code ++ back).toList =
      front.toList ++ (code.toList ++ back.toList) := by simp
  obtain ⟨c, hfront, hc⟩ := Option.map_eq_some_iff.1 hf.apart.1
  obtain ⟨d, hback, hd⟩ := Option.map_eq_some_iff.1 hf.apart.2
  obtain ⟨cs, hcs⟩ := List.getLast?_eq_some_iff.1 hfront
  obtain ⟨ds, hds⟩ := List.head?_eq_some_iff.1 hback
  rw [hchars, hf.closed, outside_append hquote, hcs, hds, List.append_assoc, List.singleton_append,
    names_append_cons hc, names_append_cons hd, names_append_cons hc, names_cons hd]
  exact congrArg (· ++ _) (List.append_nil _).symm

theorem fits (hf : Frame front back) (hquote : '"' ∉ code.toList) (hnewline : '\n' ∉ code.toList)
    (hcode : ∀ x ∈ names code.toList, IsKnown us (String.ofList x)) :
    Fits us (front ++ code ++ back) := by
  refine .other ?_ (Fits.ne_label ?_) (Fits.ne_goto ?_) fun x hx => ?_
  · have hframe := hf.newline
    rw [List.mem_append, not_or] at hframe
    simpa using ⟨hframe.1, hnewline, hframe.2⟩
  · rw [String.toList_append]
    exact Fits.not_suffix_append hf.label.1 hf.label.2
  · obtain ⟨c, cs, hfirst, hc⟩ := hf.goto
    simp [hfirst, hc.symm]
  · obtain ⟨z, hz, rfl⟩ := List.mem_map.1 hx
    have hknown := hf.known
    rw [hf.names_outside hquote] at hz
    rcases List.mem_append.1 hz with hz | hz
    · exact Fits.isKnown_of_mem (fun x hx => hknown x (List.mem_append_left _ hx)) hz
    rcases List.mem_append.1 hz with hz | hz
    · exact hcode z hz
    · exact Fits.isKnown_of_mem (fun x hx => hknown x (List.mem_append_right _ hx)) hz

theorem fits_of_reads (hf : Frame front back) (h : Reads us code) :
    Fits us (front ++ code ++ back) :=
  hf.fits (Fits.notMem_of_reads h rfl) (Fits.notMem_of_reads h rfl)
    fun x hx => .inr (.inr (.inl (h.names x hx)))

theorem print : Frame "printf(\"%.2f\\n\", (float)(" "));" where
  newline := by decide
  label := by decide
  goto := ⟨'p', _, rfl, by decide⟩
  closed _ := rfl
  apart := by decide
  known := by decide

theorem scan : Frame "if (0 == scanf(\"%f\", &" ")) \x7b" where
  newline := by decide
  label := by decide
  goto := ⟨'i', _, rfl, by decide⟩
  closed _ := rfl
  apart := by decide
  known := by decide

theorem block (b : Block) : Frame (b.word ++ "(") ")\x7b" where
  newline := by cases b <;> decide
  label := by decide
  goto := by
    cases b
    · exact ⟨'i', _, rfl, by decide⟩
    · exact ⟨'w', _, rfl, by decide⟩
  closed _ := by cases b <;> rfl
  apart := by cases b <;> decide
  known := by cases b <;> decide

end Frame

namespace Fits

theorem scanf {x : String} (hw : IsWord x.toList) (hx : .assign x ∈ us) :
    Fits us ("if (0 == scanf(\"%f\", &" ++ x ++ ")) \x7b") := by
  refine Frame.scan.fits (notMem_of_isWord hw rfl) (notMem_of_isWord hw rfl) fun y hy => ?_
  rw [names_of_isWord hw] at hy
  obtain rfl := List.mem_singleton.1 hy
  rw [String.ofList_toList]
  exact .inr (.inr (.inr hx))

/-- A line that is the same for all programs. -/
theorem closing {l : String} (h : l ∈ ["scanf(\"%*s\");", "return 0;", "\x7d"]) : Fits us l := by
  have hknown : ∀ x ∈ names (outside l.toList),
      String.ofList x ∈ Reserved.words ++ Reserved.functions := by
    revert l
    decide
  refine .other ?_ (ne_label ?_) (ne_goto ?_) fun x hx => ?_
  · revert l
    decide
  · revert l
    decide
  · revert l
    decide
  · obtain ⟨z, hz, rfl⟩ := List.mem_map.1 hx
    exact isKnown_of_mem hknown hz

theorem empty : Fits us "" := by
  refine .other (by decide) (fun x hx => ?_) (fun x hx => ?_) (fun x hx => by cases hx)
  · simpa using congrArg String.toList hx
  · simpa using congrArg String.toList hx

end Fits

/-! ### Statements -/

theorem reads_zero : Reads us "0" where
  chars := List.all_eq_true.1 rfl
  names := by
    have hzero : ∀ d ∈ "0".toList, d.isDigit = true := List.all_eq_true.1 rfl
    rw [names_of_isDigits hzero]
    simp

theorem isWord_text {l : Exactly .ident} (h : IsSpelled l.token) : IsWord l.text.toList := by
  obtain ⟨raw, h⟩ := h
  rw [l.fits] at h
  exact h.isWord

theorem Tree.Line.fits {s : TinyBasic.Statement} (line : Line s)
    (h : ∀ t ∈ line.tokens, IsSpelled t) : ∀ l ∈ line.lines, Fits line.uses l := by
  cases line with
  | printText text =>
    obtain ⟨raw, ht⟩ := h text.token (by simp [tokens])
    rw [text.fits] at ht
    exact List.forall_mem_singleton.2 (.printText ht.isStringText)
  | printValue x =>
    have hx := reads_expression x h
    exact List.forall_mem_singleton.2 (Frame.print.fits_of_reads hx)
  | label name =>
    have hw := isWord_text (h name.token (by simp [tokens]))
    exact List.forall_mem_singleton.2 (.label hw (by simp))
  | goto name =>
    have hw := isWord_text (h name.token (by simp [tokens]))
    exact List.forall_mem_singleton.2 (.goto hw (by simp))
  | assign name equals x =>
    have hw := isWord_text (h name.token (by simp [tokens]))
    have hx := reads_expression x fun t ht => h t (by simp [tokens, ht])
    rw [uses_assign]
    exact List.forall_mem_singleton.2 (.assign hw (by simp)
      (hx.mono (List.subset_append_left _ _)))
  | input name =>
    have hw := isWord_text (h name.token (by simp [tokens]))
    have hassign : .assign name.text ∈ [Use.assign name.text] := by simp
    have hzero : Fits [.assign name.text] (name.text ++ " = 0;") := by
      simpa [String.append_assoc] using Fits.assign hw hassign reads_zero
    intro l hl
    simp only [lines, List.mem_cons, List.not_mem_nil, or_false] at hl
    rcases hl with rfl | rfl | rfl | rfl
    · exact .scanf hw hassign
    · exact hzero
    · exact .closing (by simp)
    · exact .closing (by simp)

mutual

theorem Tree.Statement.fits (x : Tree.Statement) (h : ∀ t ∈ x.tokens, IsSpelled t) :
    ∀ l ∈ x.lines, Fits x.uses l :=
  match x with
  | .line _ _ line _ => line.fits fun t ht => h t (by simp [Statement.tokens, ht])
  | .block b head body _ => by
    have hhead := reads_comparison head.condition fun t ht =>
      h t (by simp [Statement.tokens, Head.tokens, ht])
    have hbody := fitsAll body fun t ht => h t (by simp [Statement.tokens, ht])
    intro l hl
    rw [Statement.uses_block]
    simp only [Statement.lines, List.cons_append, List.mem_cons, List.mem_append, List.not_mem_nil,
      or_false] at hl
    rcases hl with rfl | hl | rfl
    · exact (Frame.block b).fits_of_reads (hhead.mono (List.subset_append_left _ _))
    · exact (hbody l hl).mono (List.subset_append_right _ _)
    · exact .closing (by simp)

theorem Tree.fitsAll (xs : List Tree.Statement) (h : ∀ t ∈ tokensAll xs, IsSpelled t) :
    ∀ l ∈ linesAll xs, Fits (usesAll xs) l :=
  match xs with
  | [] => by simp [linesAll]
  | x :: xs => by
    have hx := x.fits fun t ht => h t (List.mem_append_left _ ht)
    have hxs := fitsAll xs fun t ht => h t (List.mem_append_right _ ht)
    intro l hl
    rw [usesAll_cons]
    rcases List.mem_append.1 hl with hl | hl
    · exact (hx l hl).mono (List.subset_append_left _ _)
    · exact (hxs l hl).mono (List.subset_append_right _ _)

end

end TinyBasic
