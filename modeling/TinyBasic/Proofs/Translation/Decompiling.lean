import Mathlib.Data.List.DropRight
import TinyBasic.Proofs.Token.Normalization
import TinyBasic.Proofs.Translation.Scoping

/-!
# Tokens read back from C text

No two programs have the same C text, because the tokens of a program can be read back from it.
`CText.decompile` does so line by line, and knows of the lines before only which blocks are open and
how many lines still belong to an `INPUT`.

* `CText.expression`: an expression is divided at its blanks.  What is between two of them is an
  operator or an operand, which may have a sign.
* `CText.form`: what the first characters after the first word say about a line.
* `CText.step`, `CText.run`: the tokens that come back from a line, and from several.
* `Tree.Statement.decompiles`: from the lines of a statement its tokens come back, with one line
  feed where it has several (`Tree.Statement.content`).
* `translate_injective`: equal texts come from equal tokens, but for line feeds.
-/

namespace TinyBasic

open TinyBasic.Tree Lexeme

/-! ### Reading tokens back -/

namespace CText

/-- The token whose lexeme is `cs`. -/
def lexed (cs : List Char) : Token :=
  ⟨(kindAndText cs).1, String.ofList (kindAndText cs).2⟩

/-- An operator or an operand, which may have a sign. -/
def signed : List Char → List Token
  | c :: d :: cs =>
    if c = '+' ∨ c = '-' then [lexed [c], lexed (d :: cs)] else [lexed (c :: d :: cs)]
  | cs => [lexed cs]

/-- The tokens of an expression. -/
def expression (code : List Char) : List Token := (code.splitOn ' ').flatMap signed

/-- What a line says about the statement it comes from. -/
inductive Form where
  | label
  | assign
  | input
  /-- A word and a blank: a jump or a declaration. -/
  | word
  | printText
  | printValue
  | block
  /-- The end of a block, or a line that no statement is translated to. -/
  | closing
  deriving DecidableEq

/-- What comes after the first word of a line tells its form. -/
def form (line : String) : Form :=
  match line.toList.dropWhile Char.isAlphanum with
  | ':' :: _ => .label
  | ' ' :: cs =>
    if cs.head? = some '=' then .assign else if cs.head? = some '(' then .input else .word
  | '(' :: cs =>
    if cs.head? ≠ some '"' then .block
    else if cs.tail.head? = some '%' then .printValue else .printText
  | _ => .closing

/-- The first word of a line. -/
def firstWord (line : String) : List Char := line.toList.takeWhile Char.isAlphanum

/-- What is on a line between a front and a back. -/
def between (front back line : String) : List Char :=
  (line.toList.drop front.toList.length).rdrop back.toList.length

/-- The tokens of a statement on one line. -/
def statement (s : TinyBasic.Statement) (ts : List Token) : List Token :=
  .keyword s.keyword :: ts ++ [.newline]

/-- What is known of the lines before. -/
structure State where
  /-- How many of the next lines say nothing new. -/
  passed : Nat
  /-- The blocks that are open, the innermost first. -/
  opened : List Block
  deriving DecidableEq

/-- Ends the innermost block, if there is one. -/
def close : List Block → State × List Token
  | [] => (⟨0, []⟩, [])
  | b :: bs => (⟨0, bs⟩, [.keyword b.closing, .newline])

/-- Reads a line that says something new. -/
def read (bs : List Block) (line : String) : State × List Token :=
  match form line with
  | .label => (⟨0, bs⟩, statement .label [lexed (firstWord line)])
  | .assign =>
    let name := String.ofList (firstWord line)
    (⟨0, bs⟩, statement .«let» (lexed name.toList :: .equals ::
      expression (between (name ++ " = ") ";" line)))
  | .input =>
    (⟨3, bs⟩, statement .input [lexed (between "if (0 == scanf(\"%f\", &" ")) \x7b" line)])
  | .word =>
    (⟨0, bs⟩,
      if firstWord line = "goto".toList then statement .goto [lexed (between "goto " ";" line)]
      else [])
  | .printText => (⟨0, bs⟩,
    statement .print [⟨.string, String.ofList (between "printf(\"" "\\n\");" line)⟩])
  | .printValue => (⟨0, bs⟩,
    statement .print (expression (between "printf(\"%.2f\\n\", (float)(" "));" line)))
  | .block =>
    let b := if firstWord line = "if".toList then Block.conditional else Block.repetition
    (⟨0, b :: bs⟩, statement (.block b)
      (expression (between (b.word ++ "(") ")\x7b" line) ++ [.keyword b.divider]))
  | .closing => close bs

/-- Reads a line. -/
def step : State → String → State × List Token
  | ⟨0, bs⟩, line => read bs line
  | ⟨n + 1, bs⟩, _ => (⟨n, bs⟩, [])

/-- Reads several lines. -/
def run : State → List String → State × List Token
  | σ, [] => (σ, [])
  | σ, l :: ls =>
    let first := step σ l
    let later := run first.1 ls
    (later.1, first.2 ++ later.2)

/-- The tokens that a C text was made from. -/
def decompile (text : String) : List Token := (run ⟨0, []⟩ (lines text)).2

/-! ### Expressions -/

theorem expression_append (a b : List Char) :
    expression (a ++ ' ' :: b) = expression a ++ expression b := by
  rw [expression, List.splitOn_append_cons_self, List.flatMap_append]
  rfl

theorem expression_of_notMem {cs : List Char} (h : ' ' ∉ cs) : expression cs = signed cs := by
  have hsplit : cs.splitOn ' ' = [cs] := by
    rw [List.splitOn_eq_splitOnP]
    refine List.splitOnP_eq_singleton fun c hc => ?_
    rw [beq_eq_false_iff_ne]
    exact ne_of_mem_of_not_mem hc h
  rw [expression, hsplit, List.flatMap_singleton]

/-- The token of any lexeme but a string literal comes back. -/
theorem lexed_text {t : Located Token} (h : IsSpelled t) (hk : t.value.kind ≠ .string) :
    lexed t.value.text.toList = t.value := by
  obtain ⟨raw, h⟩ := h
  have hkt := h.eq_kindAndText
  rw [h.raw_eq hk] at hkt
  rw [lexed, ← hkt, String.ofList_toList]

theorem signed_of_mem_operators : ∀ o ∈ operators, signed o.1.toList = [lexed o.1.toList] := by
  simp [operators, signed]

/-- The token of an operator comes back. -/
theorem expression_operator {t : Located Token} (h : IsSpelled t)
    (hk : t.value.kind.isAdditive = true ∨ t.value.kind.isMultiplicative = true ∨
      t.value.kind.isComparison = true) :
    expression t.value.text.toList = [t.value] := by
  have hstring : t.value.kind ≠ .string := by
    intro hs
    simp [hs, Token.Kind.isAdditive, Token.Kind.isMultiplicative, Token.Kind.isComparison] at hk
  have hlexed := lexed_text h hstring
  obtain ⟨raw, h⟩ := h
  have hblank : ' ' ∉ t.value.text.toList := by
    intro hmem
    exact absurd (h.mem_operatorChars hk _ hmem) (by decide)
  rw [expression_of_notMem hblank]
  generalize ht : t.value.text.toList = text at h hlexed ⊢
  generalize hkind : t.value.kind = k at h hk
  cases h with
  | operator hs => rw [signed_of_mem_operators _ hs, hlexed]
  | _ => simp [Token.Kind.isAdditive, Token.Kind.isMultiplicative, Token.Kind.isComparison] at hk

/-- An operand begins with a letter or a digit and holds no blank. -/
theorem text_primary (p : Primary) (h : IsSpelled p.token) :
    ∃ c cs, p.render.toList = c :: cs ∧ c.isAlphanum = true ∧ ' ' ∉ p.render.toList := by
  obtain ⟨raw, h⟩ := h
  cases p with
  | number t =>
    change Spells t.token.value.kind t.token.value.text.toList raw at h
    rw [t.fits] at h
    change ∃ c cs, t.token.value.text.toList = c :: cs ∧ _ ∧ ' ' ∉ t.token.value.text.toList
    obtain ⟨c, cs, htext, hc, hcs⟩ := h.exists_digit
    refine ⟨c, cs, htext, by simp [Char.isAlphanum, hc], fun hmem => ?_⟩
    rw [htext] at hmem
    rcases List.mem_cons.1 hmem with rfl | hmem
    · simp at hc
    · simpa using hcs ' ' hmem
  | «variable» t =>
    change Spells t.token.value.kind t.token.value.text.toList raw at h
    rw [t.fits] at h
    obtain ⟨c, cs, htext, hc, -⟩ := h.isWord
    refine ⟨c, cs, htext, by simp [Char.isAlphanum, hc], Fits.notMem_of_isWord h.isWord rfl⟩

theorem signed_of_isAlphanum {c : Char} (hc : c.isAlphanum = true) (cs : List Char) :
    signed (c :: cs) = [lexed (c :: cs)] := by
  cases cs with
  | nil => rfl
  | cons d cs =>
    have hsign : ¬ (c = '+' ∨ c = '-') := by
      rintro (rfl | rfl) <;> exact absurd hc (by decide)
    rw [signed, if_neg hsign]

theorem text_of_isAdditive {k : Token.Kind} {text raw : List Char} (h : Spells k text raw)
    (hk : k.isAdditive = true) : text = ['+'] ∨ text = ['-'] := by
  obtain ⟨s, hs, rfl⟩ := h.exists_operator (.inl hk)
  have hall : ∀ o ∈ operators, o.2.isAdditive = true → o.1 = "+" ∨ o.1 = "-" := by decide
  rcases hall _ hs hk with rfl | rfl
  · exact .inl rfl
  · exact .inr rfl

theorem expression_unary (u : Unary) (h : ∀ t ∈ u.tokens, IsSpelled t) :
    expression u.render.toList = u.tokens.map (·.value) := by
  obtain ⟨sign, p⟩ := u
  have hp : IsSpelled p.token := h p.token (by simp [Unary.tokens])
  obtain ⟨c, cs, htext, hc, hblank⟩ := text_primary p hp
  have hstring : p.token.value.kind ≠ .string := by
    cases p with
    | number t => simp [Primary.token, t.fits]
    | «variable» t => simp [Primary.token, t.fits]
  have hlexed : lexed (c :: cs) = p.token.value := htext ▸ lexed_text hp hstring
  rw [htext] at hblank
  cases sign with
  | none =>
    have hchars : (Unary.render ⟨none, p⟩).toList = c :: cs := by simp [Unary.render, htext]
    rw [hchars, expression_of_notMem hblank, signed_of_isAlphanum hc, hlexed]
    rfl
  | some l =>
    have hl : IsSpelled l.token := h l.token (by simp [Unary.tokens])
    have hsign : l.token.value.kind ≠ .string := by
      intro hs
      have hadditive := l.fits
      simp [hs, Token.Kind.isAdditive] at hadditive
    have hlexed' := lexed_text hl hsign
    obtain ⟨raw, hl⟩ := hl
    have hchars : (Unary.render ⟨some l, p⟩).toList = l.token.value.text.toList ++ c :: cs := by
      simp [Unary.render, Leaf.text, htext]
    rw [hchars]
    rcases text_of_isAdditive hl l.fits with ha | ha <;>
    · rw [ha] at hlexed' ⊢
      rw [List.singleton_append, expression_of_notMem (by simpa using hblank), signed,
        if_pos (by decide), hlexed, hlexed']
      rfl

section Series

variable {X : Type} {isOperator : Token.Kind → Bool} {tokens : X → List (Located Token)}
  {code : X → String}

theorem expression_series
    (hop : ∀ k : Token.Kind, isOperator k = true →
      k.isAdditive = true ∨ k.isMultiplicative = true ∨ k.isComparison = true)
    (hoperand : ∀ x, (∀ t ∈ tokens x, IsSpelled t) →
      expression (code x).toList = (tokens x).map (·.value))
    (x : Series isOperator X) (h : ∀ t ∈ x.tokens tokens, IsSpelled t) :
    expression (x.render code).toList = (x.tokens tokens).map (·.value) := by
  obtain ⟨hfirst, hlater⟩ := Series.forall_mem h
  refine x.foldl_induction (b := ()) tokens (fun b _ => b)
    (fun c ts _ => expression c.toList = ts.map (·.value)) (hoperand _ hfirst) ?_
  intro y hy c ts _ hc
  have hl := expression_operator (hlater y hy).1 (hop _ y.1.fits)
  have hy := hoperand y.2 (hlater y hy).2
  have hchars : (c ++ (" " ++ y.1.text ++ " " ++ code y.2)).toList =
      c.toList ++ ' ' :: (y.1.text.toList ++ ' ' :: (code y.2).toList) := by simp
  rw [hchars, expression_append, expression_append, hc, Leaf.text, hl, hy, List.map_append]
  rfl

end Series

theorem expression_expression (x : Expression) (h : ∀ t ∈ x.tokens, IsSpelled t) :
    expression x.render.toList = x.tokens.map (·.value) :=
  expression_series (fun _ => .inl)
    (expression_series (fun _ h => .inr (.inl h)) expression_unary) x h

theorem expression_comparison (c : Comparison) (h : ∀ t ∈ c.tokens, IsSpelled t) :
    expression c.render.toList = c.tokens.map (·.value) :=
  expression_series (fun _ h => .inr (.inr h)) expression_expression c.chain h

/-! ### Lines -/

section Lines

variable {x code line front back : String} {c : Char} {w cs : List Char} {bs : List Block}

theorem isAlphanum_of_isWord (h : IsWord w) : ∀ d ∈ w, d.isAlphanum = true := by
  obtain ⟨c, rest, rfl, hc, hrest⟩ := h
  intro d hd
  rcases List.mem_cons.1 hd with rfl | hd
  · simp [Char.isAlphanum, hc]
  · exact hrest d hd

theorem between_append (front back x : String) :
    between front back (front ++ x ++ back) = x.toList := by
  rw [between, String.toList_append, String.toList_append, List.append_assoc, List.drop_left,
    List.rdrop_append_length]

/-- A line is divided after its first word. -/
theorem dropWhile_word (hline : line.toList = w ++ c :: cs) (hw : ∀ d ∈ w, d.isAlphanum = true)
    (hc : c.isAlphanum = false) : line.toList.dropWhile Char.isAlphanum = c :: cs := by
  rw [hline, List.dropWhile_append_of_pos hw, List.dropWhile_cons_of_neg (by simp [hc])]

theorem firstWord_eq (hline : line.toList = w ++ c :: cs) (hw : ∀ d ∈ w, d.isAlphanum = true)
    (hc : c.isAlphanum = false) : firstWord line = w := by
  rw [firstWord, hline, List.takeWhile_append_of_pos hw, List.takeWhile_cons_of_neg (by simp [hc]),
    List.append_nil]

theorem read_label (hw : IsWord x.toList) :
    read bs (x ++ ":;") = (⟨0, bs⟩, statement .label [lexed x.toList]) := by
  have hline : (x ++ ":;").toList = x.toList ++ ':' :: [';'] := by simp
  have hform : form (x ++ ":;") = .label := by
    rw [form, dropWhile_word hline (isAlphanum_of_isWord hw) rfl]
    rfl
  rw [read, hform, firstWord_eq hline (isAlphanum_of_isWord hw) rfl]

theorem read_assign (hw : IsWord x.toList) :
    read bs (x ++ " = " ++ code ++ ";") =
      (⟨0, bs⟩, statement .«let» (lexed x.toList :: .equals :: expression code.toList)) := by
  have hline : (x ++ " = " ++ code ++ ";").toList =
      x.toList ++ ' ' :: ('=' :: ' ' :: (code.toList ++ [';'])) := by simp
  have hform : form (x ++ " = " ++ code ++ ";") = .assign := by
    rw [form, dropWhile_word hline (isAlphanum_of_isWord hw) rfl]
    rfl
  rw [read, hform, firstWord_eq hline (isAlphanum_of_isWord hw) rfl]
  simp only [String.ofList_toList, between_append]

theorem read_input (bs : List Block) (x : String) :
    read bs ("if (0 == scanf(\"%f\", &" ++ x ++ ")) \x7b") =
      (⟨3, bs⟩, statement .input [lexed x.toList]) := by
  have hform : form ("if (0 == scanf(\"%f\", &" ++ x ++ ")) \x7b") = .input := by
    have hline : ("if (0 == scanf(\"%f\", &" ++ x ++ ")) \x7b").toList = "if".toList ++
        ' ' :: ('(' :: ("0 == scanf(\"%f\", &".toList ++ x.toList ++ ")) \x7b".toList)) := by simp
    rw [form, dropWhile_word hline (List.all_eq_true.1 (by decide)) rfl]
    rfl
  rw [read, hform, between_append]

/-- A word, a blank and another word. -/
theorem form_word (hw : ∀ d ∈ w, d.isAlphanum = true) (hx : IsWord x.toList)
    (hline : line.toList = w ++ ' ' :: (x.toList ++ [';'])) : form line = .word := by
  obtain ⟨c, cs, hchars, hc, -⟩ := hx
  have hequals : c ≠ '=' := by rintro rfl; exact absurd hc (by decide)
  have hparen : c ≠ '(' := by rintro rfl; exact absurd hc (by decide)
  rw [form, dropWhile_word hline hw rfl, hchars]
  simp [hequals, hparen]

theorem read_goto (hx : IsWord x.toList) :
    read bs ("goto " ++ x ++ ";") = (⟨0, bs⟩, statement .goto [lexed x.toList]) := by
  have hline : ("goto " ++ x ++ ";").toList = "goto".toList ++ ' ' :: (x.toList ++ [';']) := by
    simp
  have hword : ∀ d ∈ "goto".toList, d.isAlphanum = true := List.all_eq_true.1 (by decide)
  rw [read, form_word hword hx hline, firstWord_eq hline hword rfl, between_append]
  rfl

theorem read_declaration (hx : IsWord x.toList) : read bs (declaration x) = (⟨0, bs⟩, []) := by
  have hline : (declaration x).toList = "float".toList ++ ' ' :: (x.toList ++ [';']) := by
    simp [declaration]
  have hword : ∀ d ∈ "float".toList, d.isAlphanum = true := List.all_eq_true.1 (by decide)
  rw [read, form_word hword hx hline, firstWord_eq hline hword rfl]
  rfl

theorem read_printText (h : IsStringText x.toList) :
    read bs ("printf(\"" ++ x ++ "\\n\");") = (⟨0, bs⟩, statement .print [⟨.string, x⟩]) := by
  have hline : ("printf(\"" ++ x ++ "\\n\");").toList =
      "printf".toList ++ '(' :: ('"' :: (x.toList ++ "\\n\");".toList)) := by simp
  have hpercent : (x.toList ++ "\\n\");".toList).head? ≠ some '%' := by
    intro hhead
    cases hx : x.toList with
    | nil =>
      rw [hx] at hhead
      cases hhead
    | cons c cs =>
      rw [hx, List.cons_append, List.head?_cons, Option.some_inj] at hhead
      exact Fits.notMem_of_isStringText h (c := '%') (by simp) (by simp [hx, hhead])
  have hform : form ("printf(\"" ++ x ++ "\\n\");") = .printText := by
    rw [form, dropWhile_word hline (List.all_eq_true.1 (by decide)) rfl]
    simp only [List.head?_cons, List.tail_cons, hpercent]
    rfl
  rw [read, hform, between_append, String.ofList_toList]

theorem read_printValue (bs : List Block) (code : String) :
    read bs ("printf(\"%.2f\\n\", (float)(" ++ code ++ "));") =
      (⟨0, bs⟩, statement .print (expression code.toList)) := by
  have hform : form ("printf(\"%.2f\\n\", (float)(" ++ code ++ "));") = .printValue := by
    have hline : ("printf(\"%.2f\\n\", (float)(" ++ code ++ "));").toList = "printf".toList ++
        '(' :: ('"' :: '%' :: (".2f\\n\", (float)(".toList ++ code.toList ++ "));".toList)) := by
      simp
    rw [form, dropWhile_word hline (List.all_eq_true.1 (by decide)) rfl]
    rfl
  rw [read, hform, between_append]

theorem read_block (b : Block) (hquote : '"' ∉ code.toList) :
    read bs (b.word ++ "(" ++ code ++ ")\x7b") =
      (⟨0, b :: bs⟩, statement (.block b) (expression code.toList ++ [.keyword b.divider])) := by
  have hline : (b.word ++ "(" ++ code ++ ")\x7b").toList =
      b.word.toList ++ '(' :: (code.toList ++ ")\x7b".toList) := by simp
  have hword : ∀ d ∈ b.word.toList, d.isAlphanum = true :=
    List.all_eq_true.1 (by cases b <;> decide)
  have hhead : (code.toList ++ ")\x7b".toList).head? ≠ some '"' := by
    intro hhead
    refine hquote ?_
    cases hcode : code.toList with
    | nil =>
      rw [hcode] at hhead
      cases hhead
    | cons c cs =>
      rw [hcode, List.cons_append, List.head?_cons, Option.some_inj] at hhead
      simp [hhead]
  have hform : form (b.word ++ "(" ++ code ++ ")\x7b") = .block := by
    rw [form, dropWhile_word hline hword rfl]
    simp only [ne_eq, hhead, not_false_eq_true, if_true]
  have hblock : (if b.word.toList = "if".toList then Block.conditional else .repetition) = b := by
    cases b <;> rfl
  rw [read, hform, firstWord_eq hline hword rfl]
  simp only [hblock, between_append]

end Lines

/-! ### Runs -/

theorem run_append (σ : State) (ls ls' : List String) :
    run σ (ls ++ ls') =
      ((run (run σ ls).1 ls').1, (run σ ls).2 ++ (run (run σ ls).1 ls').2) := by
  induction ls generalizing σ with
  | nil => rfl
  | cons l ls ih =>
    simp only [List.cons_append, run, ih, List.append_assoc]

/-- From the lines come back the tokens, and the blocks that are open stay open. -/
def Gives (ls : List String) (ts : List Token) : Prop := ∀ bs, run ⟨0, bs⟩ ls = (⟨0, bs⟩, ts)

theorem Gives.nil : Gives [] [] := fun _ => rfl

theorem Gives.append {ls ls' : List String} {ts ts' : List Token} (h : Gives ls ts)
    (h' : Gives ls' ts') : Gives (ls ++ ls') (ts ++ ts') := by
  intro bs
  rw [run_append, h, h']

theorem Gives.single {l : String} {ts : List Token} (h : ∀ bs, read bs l = (⟨0, bs⟩, ts)) :
    Gives [l] ts := by
  intro bs
  rw [run, step, h, run, List.append_nil]

/-- A block gives the tokens of its head, of its body and of its end. -/
theorem Gives.block {b : Block} {l : String} {ls : List String} {ts us : List Token}
    (hl : ∀ bs, read bs l = (⟨0, b :: bs⟩, ts)) (h : Gives ls us) :
    Gives (l :: ls ++ ["\x7d"]) (ts ++ us ++ [.keyword b.closing, .newline]) := by
  intro bs
  have hclose : run ⟨0, b :: bs⟩ ["\x7d"] = (⟨0, bs⟩, [.keyword b.closing, .newline]) := rfl
  rw [List.cons_append, run, step, hl, run_append, h, hclose, List.append_assoc]

end CText

/-! ### Statements -/

namespace Tree

open CText Fits

variable {s : TinyBasic.Statement}

mutual

/-- The tokens of a statement, with one line feed where it has several. -/
def Statement.content : Statement → List Token
  | .line s _ l _ => statement s (values l.tokens)
  | .block b head body _ =>
    statement (.block b) (values head.condition.tokens ++ [.keyword b.divider]) ++
      contentAll body ++ [.keyword b.closing, .newline]

def contentAll : List Statement → List Token
  | [] => []
  | x :: xs => x.content ++ contentAll xs

end

theorem lexed_name {l : Exactly .ident} (h : IsSpelled l.token) :
    lexed l.text.toList = l.token.value :=
  lexed_text h (by simp [l.fits])

theorem Leaf.value_eq {k : Token.Kind} (l : Exactly k) : l.token.value = ⟨k, l.text⟩ := by
  obtain ⟨t, rfl⟩ := l
  rfl

theorem value_keyword {k : Keyword} {l : Exactly (.keyword k)} (h : IsSpelled l.token) :
    l.token.value = .keyword k := by
  obtain ⟨raw, h⟩ := h
  rw [l.fits] at h
  have htext : l.text = k.spelling := String.toList_inj.1 h.eq_keyword
  rw [l.value_eq, htext]
  rfl

theorem value_equals {l : Exactly .eq} (h : IsSpelled l.token) : l.token.value = .equals := by
  obtain ⟨raw, h⟩ := h
  rw [l.fits] at h
  have htext : l.text = "=" := String.toList_inj.1 h.eq_equals
  rw [l.value_eq, htext]
  rfl

theorem value_newline {l : Exactly .newline} (h : IsSpelled l.token) :
    l.token.value = .newline := by
  obtain ⟨raw, h⟩ := h
  rw [l.fits] at h
  have htext : l.text = "\n" := String.toList_inj.1 h.eq_newline
  rw [l.value_eq, htext]
  rfl

/-- The tokens of a statement come back from its line or lines. -/
theorem Line.gives (line : Line s) (h : ∀ t ∈ line.tokens, IsSpelled t) :
    Gives line.lines (statement s (values line.tokens)) := by
  cases line with
  | printText text =>
    obtain ⟨raw, ht⟩ := h text.token (by simp [tokens])
    rw [text.fits] at ht
    refine .single fun bs => ?_
    exact (read_printText ht.isStringText).trans (text.value_eq ▸ rfl)
  | printValue x =>
    refine .single fun bs => ?_
    rw [read_printValue, expression_expression x h]
    rfl
  | label name =>
    have hname := h name.token (by simp [tokens])
    refine .single fun bs => ?_
    rw [read_label (isWord_text hname), lexed_name hname]
    rfl
  | goto name =>
    have hname := h name.token (by simp [tokens])
    refine .single fun bs => ?_
    rw [read_goto (isWord_text hname), lexed_name hname]
    rfl
  | assign name equals x =>
    have hname := h name.token (by simp [tokens])
    have hx := expression_expression x fun t ht => h t (by simp [tokens, ht])
    refine .single fun bs => ?_
    rw [read_assign (isWord_text hname), lexed_name hname, hx,
      ← value_equals (h equals.token (by simp [tokens]))]
    rfl
  | input name =>
    have hname := h name.token (by simp [tokens])
    intro bs
    -- the other three lines are passed over
    have hpassed : ∀ l₁ l₂ l₃, run ⟨3, bs⟩ [l₁, l₂, l₃] = (⟨0, bs⟩, []) := fun _ _ _ => rfl
    rw [lines, run, step, read_input, hpassed, lexed_name hname, List.append_nil]
    rfl

mutual

theorem Statement.gives (x : Statement) (h : ∀ t ∈ x.tokens, IsSpelled t) :
    Gives x.lines x.content :=
  match x with
  | .line _ _ line _ => line.gives fun t ht => h t (by simp [Statement.tokens, ht])
  | .block b head body _ => by
    have hcondition : ∀ t ∈ head.condition.tokens, IsSpelled t :=
      fun t ht => h t (by simp [Statement.tokens, Head.tokens, ht])
    have hquote := notMem_of_reads (reads_comparison head.condition hcondition) (c := '"') rfl
    have hbody := givesAll body fun t ht => h t (by simp [Statement.tokens, ht])
    refine .block (fun bs => ?_) hbody
    rw [read_block b hquote, expression_comparison head.condition hcondition]
    rfl

theorem givesAll (xs : List Statement) (h : ∀ t ∈ tokensAll xs, IsSpelled t) :
    Gives (linesAll xs) (contentAll xs) :=
  match xs with
  | [] => .nil
  | x :: xs =>
    (x.gives fun t ht => h t (List.mem_append_left _ ht)).append
      (givesAll xs fun t ht => h t (List.mem_append_right _ ht))

end

/-! ### Line feeds -/

theorem Series.forall_mem_tokens {X : Type} {isOperator : Token.Kind → Bool}
    {tokens : X → List (Located Token)} {P : Located Token → Prop}
    (hop : ∀ l : Leaf (isOperator ·), P l.token) (hoperand : ∀ x, ∀ t ∈ tokens x, P t)
    (x : Series isOperator X) : ∀ t ∈ x.tokens tokens, P t := by
  intro t ht
  rcases List.mem_append.1 ht with ht | ht
  · exact hoperand _ t ht
  · obtain ⟨y, -, ht⟩ := List.mem_flatMap.1 ht
    rcases List.mem_cons.1 ht with rfl | ht
    · exact hop y.1
    · exact hoperand _ t ht

/-- An operator is no line feed. -/
theorem Leaf.ne_newline {isOperator : Token.Kind → Bool} (h : isOperator .newline = false)
    (l : Leaf (isOperator ·)) : l.token.value.kind ≠ .newline := by
  intro hk
  have hfits := l.fits
  rw [hk, h] at hfits
  cases hfits

theorem Unary.ne_newline (u : Unary) : ∀ t ∈ u.tokens, t.value.kind ≠ .newline := by
  obtain ⟨sign, p⟩ := u
  have hp : p.token.value.kind ≠ .newline := by
    cases p with
    | number t => simp [Primary.token, t.fits]
    | «variable» t => simp [Primary.token, t.fits]
  intro t ht
  rcases List.mem_append.1 ht with ht | ht
  · obtain ⟨l, -, rfl⟩ := List.mem_map.1 ht
    exact l.ne_newline rfl
  · obtain rfl := List.mem_singleton.1 ht
    exact hp

theorem Expression.ne_newline (x : Expression) : ∀ t ∈ x.tokens, t.value.kind ≠ .newline :=
  Series.forall_mem_tokens (Leaf.ne_newline rfl)
    (Series.forall_mem_tokens (Leaf.ne_newline rfl) Unary.ne_newline) x

theorem Comparison.ne_newline (c : Comparison) : ∀ t ∈ c.tokens, t.value.kind ≠ .newline :=
  Series.forall_mem_tokens (Leaf.ne_newline rfl) Expression.ne_newline c.chain

theorem Line.ne_newline (l : Line s) : ∀ t ∈ l.tokens, t.value.kind ≠ .newline := by
  cases l with
  | printValue x => exact x.ne_newline
  | assign name equals x =>
    intro t ht
    rcases List.mem_cons.1 ht with rfl | ht
    · simp [name.fits]
    rcases List.mem_cons.1 ht with rfl | ht
    · simp [equals.fits]
    · exact x.ne_newline t ht
  | printText l | label l | goto l | input l =>
    refine List.forall_mem_singleton.2 ?_
    rw [l.fits]
    exact nofun

/-- The line feeds at the end of a line are as good as one. -/
theorem LineEnd.collapse (n : LineEnd) (h : ∀ t ∈ n.tokens, IsSpelled t) {us : List Token}
    (hus : Token.startsLine us = false) :
    Token.collapse (values n.tokens ++ us) = .newline :: Token.collapse us := by
  refine Token.collapse_run (fun v hv => ?_) hus
  obtain ⟨t, ht, rfl⟩ := List.mem_map.1 (show v ∈ values n.tokens from hv)
  rcases List.mem_cons.1 ht with rfl | hmore
  · exact value_newline (h _ ht)
  · obtain ⟨l, -, rfl⟩ := List.mem_map.1 hmore
    exact value_newline (h _ ht)

theorem Head.collapse {b : Block} (head : Head b) (h : ∀ t ∈ head.tokens, IsSpelled t)
    {us : List Token} (hus : Token.startsLine us = false) :
    Token.collapse (values head.tokens ++ us) =
      statement (.block b) (values head.condition.tokens ++ [.keyword b.divider]) ++
        Token.collapse us := by
  have hkeyword := value_keyword (h head.keyword.token (by simp [tokens]))
  have hdivider := value_keyword (h head.divider.token (by simp [tokens]))
  have hending := head.ending.collapse (fun t ht => h t (by simp [tokens, ht])) hus
  have hline : ∀ v ∈ values (head.keyword.token :: head.condition.tokens ++ [head.divider.token]),
      v.kind ≠ .newline := by
    refine List.forall_mem_map.2 fun t ht => ?_
    simp only [List.cons_append, List.mem_cons, List.mem_append, List.not_mem_nil, or_false] at ht
    rcases ht with rfl | ht | rfl
    · simp [head.keyword.fits]
    · exact head.condition.ne_newline t ht
    · simp [head.divider.fits]
  have htokens : values head.tokens ++ us =
      values (head.keyword.token :: head.condition.tokens ++ [head.divider.token]) ++
        (values head.ending.tokens ++ us) := by
    simp [tokens, values]
  rw [htokens, Token.collapse_append hline, hending]
  simp [statement, values, hkeyword, hdivider]

theorem Foot.collapse {b : Block} (foot : Foot b) (h : ∀ t ∈ foot.tokens, IsSpelled t)
    {us : List Token} (hus : Token.startsLine us = false) :
    Token.collapse (values foot.tokens ++ us) =
      [.keyword b.closing, .newline] ++ Token.collapse us := by
  have hclosing := value_keyword (h foot.keyword.token (by simp [tokens]))
  have hending := foot.ending.collapse (fun t ht => h t (by simp [tokens, ht])) hus
  have htokens : values foot.tokens ++ us =
      .keyword b.closing :: (values foot.ending.tokens ++ us) := by
    simp [tokens, values, hclosing]
  rw [htokens, Token.collapse_cons (by simp [Token.keyword]), hending]
  rfl

/-- A statement begins with its keyword. -/
theorem startsLine_tokensAll (xs : List Statement) {us : List Token}
    (hus : Token.startsLine us = false) :
    Token.startsLine (values (tokensAll xs) ++ us) = false := by
  cases xs with
  | nil => exact hus
  | cons x xs =>
    cases x with
    | line s keyword _ _ =>
      simp [tokensAll, Statement.tokens, values, Token.startsLine, keyword.fits]
    | block b head _ _ =>
      simp [tokensAll, Statement.tokens, Head.tokens, values, Token.startsLine, head.keyword.fits]

mutual

/-- Without its layout a statement is its content. -/
theorem Statement.collapse (x : Statement) (h : ∀ t ∈ x.tokens, IsSpelled t) {us : List Token}
    (hus : Token.startsLine us = false) :
    Token.collapse (values x.tokens ++ us) = x.content ++ Token.collapse us :=
  match x with
  | .line s keyword l ending => by
    have hkeyword := value_keyword (h keyword.token (by simp [Statement.tokens]))
    have hending := ending.collapse (fun t ht => h t (by simp [Statement.tokens, ht])) hus
    have hline : ∀ v ∈ values (keyword.token :: l.tokens), v.kind ≠ .newline := by
      refine List.forall_mem_map.2 (List.forall_mem_cons.2 ⟨?_, l.ne_newline⟩)
      simp [keyword.fits]
    have htokens : values (Statement.line s keyword l ending).tokens ++ us =
        values (keyword.token :: l.tokens) ++ (values ending.tokens ++ us) := by
      simp [Statement.tokens, values]
    rw [htokens, Token.collapse_append hline, hending]
    simp [Statement.content, statement, values, hkeyword]
  | .block b head body foot => by
    have hfoot := foot.collapse (fun t ht => h t (by simp [Statement.tokens, ht])) hus
    have hend : Token.startsLine (values foot.tokens ++ us) = false := by
      simp [Foot.tokens, values, Token.startsLine, foot.keyword.fits]
    have hbody := collapse_tokensAll body (fun t ht => h t (by simp [Statement.tokens, ht])) hend
    have hhead := head.collapse (fun t ht => h t (by simp [Statement.tokens, ht]))
      (startsLine_tokensAll body hend)
    have htokens : values (Statement.block b head body foot).tokens ++ us =
        values head.tokens ++ (values (tokensAll body) ++ (values foot.tokens ++ us)) := by
      simp [Statement.tokens, values]
    rw [htokens, hhead, hbody, hfoot, Statement.content, List.append_assoc, List.append_assoc]

theorem collapse_tokensAll (xs : List Statement) (h : ∀ t ∈ tokensAll xs, IsSpelled t)
    {us : List Token} (hus : Token.startsLine us = false) :
    Token.collapse (values (tokensAll xs) ++ us) = contentAll xs ++ Token.collapse us :=
  match xs with
  | [] => rfl
  | x :: xs => by
    have hx := x.collapse (fun t ht => h t (List.mem_append_left _ ht))
      (startsLine_tokensAll xs hus)
    have hxs := collapse_tokensAll xs (fun t ht => h t (List.mem_append_right _ ht)) hus
    have htokens : values (tokensAll (x :: xs)) ++ us =
        values x.tokens ++ (values (tokensAll xs) ++ us) := by
      simp [tokensAll, values]
    rw [htokens, hx, hxs, contentAll, List.append_assoc]

end

/-- Without its layout a program is the content of its statements. -/
theorem Program.normalize (p : Program) (h : ∀ t ∈ p.tokens, IsSpelled t) :
    Token.normalize (values p.tokens ++ [.eof]) = contentAll p.statements ++ [.eof] := by
  have hblank : ∀ v ∈ values (p.blank.map Leaf.token), v = .newline := by
    refine List.forall_mem_map.2 fun t ht => ?_
    obtain ⟨l, -, rfl⟩ := List.mem_map.1 ht
    exact value_newline (h _ (List.mem_append_left _ ht))
  have htokens : values p.tokens ++ [.eof] =
      values (p.blank.map Leaf.token) ++ (values (tokensAll p.statements) ++ [.eof]) := by
    simp [tokens, values]
  rw [htokens, Token.normalize_append hblank (startsLine_tokensAll p.statements rfl),
    collapse_tokensAll p.statements (isSpelled_statements h) rfl]
  rfl

/-! ### The whole text -/

theorem Series.forall_mem_uses {X : Type} {isOperator : Token.Kind → Bool} {uses : X → List Use}
    {P : Use → Prop} (h : ∀ x, ∀ u ∈ uses x, P u) (x : Series isOperator X) :
    ∀ u ∈ x.gather uses, P u := by
  intro u hu
  rcases List.mem_append.1 hu with hu | hu
  · exact h _ u hu
  · obtain ⟨y, -, hu⟩ := List.mem_flatMap.1 hu
    exact h _ u hu

/-- Expressions assign nothing. -/
theorem Expression.ne_assign (x : Expression) (n : String) : ∀ u ∈ x.uses, u ≠ .assign n := by
  have hprimary : ∀ p : Primary, ∀ u ∈ p.uses, u ≠ .assign n := by
    intro p u hu
    cases p with
    | number t => cases hu
    | «variable» t =>
      obtain rfl := List.mem_singleton.1 hu
      exact nofun
  rw [x.uses_eq]
  exact Series.forall_mem_uses (Series.forall_mem_uses fun u : Unary => hprimary u.operand) x

theorem Comparison.ne_assign (c : Comparison) (n : String) : ∀ u ∈ c.uses, u ≠ .assign n := by
  rw [c.uses_eq]
  exact c.chain.forall_mem_uses fun x => x.ne_assign n

theorem Line.isWord_of_assign (l : Line s) (h : ∀ t ∈ l.tokens, IsSpelled t) {n : String}
    (hn : .assign n ∈ l.uses) : IsWord n.toList := by
  cases l with
  | printText text => cases hn
  | printValue x => exact absurd rfl (x.ne_assign n _ hn)
  | label name => simp at hn
  | goto name => simp at hn
  | assign name equals x =>
    rw [uses_assign] at hn
    rcases List.mem_append.1 hn with hn | hn
    · exact absurd rfl (x.ne_assign n _ hn)
    · obtain rfl := Use.assign.inj (List.mem_singleton.1 hn)
      exact isWord_text (h name.token (by simp [tokens]))
  | input name =>
    obtain rfl := Use.assign.inj (List.mem_singleton.1 hn)
    exact isWord_text (h name.token (by simp [tokens]))

mutual

theorem Statement.isWord_of_assign (x : Statement) (h : ∀ t ∈ x.tokens, IsSpelled t) {n : String}
    (hn : .assign n ∈ x.uses) : IsWord n.toList :=
  match x with
  | .line _ _ l _ => l.isWord_of_assign (fun t ht => h t (by simp [Statement.tokens, ht])) hn
  | .block _ head body _ => by
    rw [Statement.uses_block] at hn
    exact (List.mem_append.1 hn).elim (fun hn => absurd rfl (head.condition.ne_assign n _ hn))
      (isWord_of_assign_usesAll body fun t ht => h t (by simp [Statement.tokens, ht]))

theorem isWord_of_assign_usesAll (xs : List Statement) (h : ∀ t ∈ tokensAll xs, IsSpelled t)
    {n : String} (hn : .assign n ∈ usesAll xs) : IsWord n.toList :=
  match xs with
  | [] => nomatch hn
  | x :: xs => by
    rw [usesAll_cons] at hn
    exact (List.mem_append.1 hn).elim
      (x.isWord_of_assign fun t ht => h t (List.mem_append_left _ ht))
      (isWord_of_assign_usesAll xs fun t ht => h t (List.mem_append_right _ ht))

end

theorem Program.isWord_of_mem_variables (p : Program) (h : ∀ t ∈ p.tokens, IsSpelled t)
    {n : String} (hn : n ∈ p.variables) : IsWord n.toList := by
  rw [Program.variables, List.mem_eraseDups, Use.mem_targets] at hn
  exact isWord_of_assign_usesAll p.statements (isSpelled_statements h) hn

theorem gives_declarations {vars : List String} (h : ∀ x ∈ vars, IsWord x.toList) :
    Gives (vars.map declaration) [] := by
  induction vars with
  | nil => exact .nil
  | cons x vars ih =>
    have hx : Gives [declaration x] [] := .single fun bs => read_declaration (h x (by simp))
    exact hx.append (ih fun y hy => h y (List.mem_cons_of_mem x hy))

/-- **The tokens of a program come back from its text.** -/
theorem Program.decompile_text (p : Program) (h : ∀ t ∈ p.tokens, IsSpelled t) :
    decompile p.output.text = contentAll p.statements := by
  have hvariables := fun x hx => p.isWord_of_mem_variables h (n := x) hx
  have hnewline : ∀ l ∈ opening ++ p.variables.map declaration ++ (p.lines ++ ending),
      '\n' ∉ l.toList := by
    intro l hl
    rcases List.mem_append.1 hl with hl | hl
    · rcases List.mem_append.1 hl with hl | hl
      · exact (by decide : ∀ l ∈ opening, '\n' ∉ l.toList) l hl
      · obtain ⟨x, hx, rfl⟩ := List.mem_map.1 hl
        simpa [declaration] using notMem_of_isWord (hvariables x hx) (c := '\n') rfl
    · exact (p.fits h l hl).newline_notMem
  have hlines : CText.lines p.output.text = opening ++ (p.variables.map declaration ++
      (p.lines ++ (ending ++ [""]))) := by
    have htext : p.output.text =
        unlines (opening ++ p.variables.map declaration ++ (p.lines ++ ending)) :=
      (unlines_append _ _).symm
    rw [htext, lines_unlines hnewline]
    simp only [List.append_assoc]
  -- no block is open at the beginning and at the end
  have hopening : run ⟨0, []⟩ opening = (⟨0, []⟩, []) := by decide +kernel
  have hending : run ⟨0, []⟩ (ending ++ [""]) = (⟨0, []⟩, []) := by decide +kernel
  have hdeclarations := gives_declarations hvariables []
  have hstatements := givesAll p.statements (isSpelled_statements h) []
  rw [decompile, hlines, run_append, hopening, run_append, hdeclarations, run_append, Program.lines,
    hstatements, hending]
  simp

example : decompile ("int main(void)\x7b\nfloat x;\nx = 1 + -2;\n" ++
      "if(x < 0)\x7b\ngoto l;\n\x7d\nreturn 0;\n") =
    [.keyword .«let», ⟨.ident, "x"⟩, .equals, ⟨.number, "1"⟩, ⟨.plus, "+"⟩, ⟨.minus, "-"⟩,
      ⟨.number, "2"⟩, .newline, .keyword .«if», ⟨.ident, "x"⟩, ⟨.lt, "<"⟩, ⟨.number, "0"⟩,
      .keyword .«then», .newline, .keyword .goto, ⟨.ident, "l"⟩, .newline, .keyword .endIf,
      .newline] := by
  decide +kernel

end Tree

/-- The tokens of a source that is translated, without their layout, come back from the text. -/
theorem normalize_of_translate {s : Source} {u : CUnit} (h : (translate s).result = .ok u) :
    ∃ ts, (Lexer.ofSource s).items = ts.map .ok ∧
      Token.normalize (values ts) = CText.decompile u.text ++ [.eof] := by
  obtain ⟨p, hp, -, rfl⟩ := translate_eq_ok_iff.1 h
  have hspelled := hp.isSpelled
  obtain ⟨e, he, hitems⟩ := hp
  have heof := Lexer.eq_eof_of_items hitems he
  have htokens : values (p.tokens ++ [e]) = values p.tokens ++ [.eof] := by
    simp [values, heof]
  exact ⟨p.tokens ++ [e], hitems,
    by rw [htokens, p.normalize hspelled, p.decompile_text hspelled]⟩

/-- **Compilation loses nothing**: sources with the same C text have the same tokens, but for line
feeds in front and for several in the place of one. -/
theorem translate_injective {s s' : Source} {u u' : CUnit} (h : (translate s).result = .ok u)
    (h' : (translate s').result = .ok u') (htext : u.text = u'.text) :
    ∃ ts ts' : List (Located Token), (Lexer.ofSource s).items = ts.map .ok ∧
      (Lexer.ofSource s').items = ts'.map .ok ∧
      Token.normalize (ts.map Located.value) = Token.normalize (ts'.map Located.value) := by
  obtain ⟨ts, hts, hnormal⟩ := normalize_of_translate h
  obtain ⟨ts', hts', hnormal'⟩ := normalize_of_translate h'
  refine ⟨ts, ts', hts, hts', ?_⟩
  rw [← htext] at hnormal'
  exact hnormal.trans hnormal'.symm

/-- A program. -/
def plain : Source := ⟨"plain", "INPUT n\nWHILE n > 0 REPEAT\nPRINT -n\nLET n = n - 1\nENDWHILE"⟩

/-- The same program with blank lines, a comment and other blanks. -/
def spaced : Source where
  name := "spaced"
  body := "\n\nINPUT n # how often\n\nWHILE n>0 REPEAT\n\n  PRINT - n\n  LET n=n-1\nENDWHILE\n\n"

/-- The text of both. -/
def countdown : CUnit where
  header := "#include <stdio.h>\nint main(void)\x7b\nfloat n;\n"
  body := "if (0 == scanf(\"%f\", &n)) \x7b\nn = 0;\nscanf(\"%*s\");\n\x7d\nwhile(n > 0)\x7b\n" ++
    "printf(\"%.2f\\n\", (float)(-n));\nn = n - 1;\n\x7d\nreturn 0;\n\x7d\n"

theorem translate_injective_countdown :
    (translate plain).result = .ok countdown ∧ (translate spaced).result = .ok countdown ∧
    ∃ ts ts' : List (Located Token), (Lexer.ofSource plain).items = ts.map .ok ∧
      (Lexer.ofSource spaced).items = ts'.map .ok ∧
      Token.normalize (ts.map Located.value) = Token.normalize (ts'.map Located.value) :=
  ⟨by decide +kernel, by decide +kernel,
    translate_injective (by decide +kernel) (by decide +kernel) (rfl : countdown.text = _)⟩

end TinyBasic
