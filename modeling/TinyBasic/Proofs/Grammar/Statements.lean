import TinyBasic.Proofs.Grammar.Nesting

/-!
# Statements are read piece by piece

The body of each line is recognised as such (`Grammar.recognizes_letBody` and the lemmas beside
it), and with the keyword and the end of the line around it makes up a statement.  A step of the
parser, which knows the open blocks, reads one `Tree.Piece`: what a successful step has read is a
piece (`Grammar.takes_step_of_ok`), and every piece is read (`Grammar.takes_step_of_items`).
-/

namespace TinyBasic

open TinyBasic.Tree TinyBasic.Parser

namespace Grammar

variable {α : Type} {bs bs' : List Block} {b : Block} {s : TinyBasic.Statement}
  {w w' : Window} {t : Located Token} {ts rest : List (Located Token)}

/-! ### Lines -/

/-- The kinds that an expression starts with. -/
def StartsExpression (k : Token.Kind) : Prop := k.isAdditive = true ∨ k = .number ∨ k = .ident

theorem Unary.exists_tokens (u : Unary) :
    ∃ t ts, u.tokens = t :: ts ∧ StartsExpression t.value.kind := by
  obtain ⟨sign, p⟩ := u
  cases sign with
  | some l => exact ⟨_, _, rfl, .inl l.fits⟩
  | none =>
    refine ⟨_, _, rfl, .inr ?_⟩
    cases p with
    | number l => exact .inl l.fits
    | «variable» l => exact .inr l.fits

theorem Series.exists_tokens {X : Type} {isOperator : Token.Kind → Bool} {P : Token.Kind → Prop}
    {tokens : X → List (Located Token)}
    (h : ∀ x, ∃ t ts, tokens x = t :: ts ∧ P t.value.kind) (x : Series isOperator X) :
    ∃ t ts, x.tokens tokens = t :: ts ∧ P t.value.kind := by
  obtain ⟨t, ts, hx, ht⟩ := h x.first
  exact ⟨t, _, by rw [Series.tokens, hx]; rfl, ht⟩

theorem Expression.exists_tokens (x : Expression) :
    ∃ t ts, x.tokens = t :: ts ∧ StartsExpression t.value.kind :=
  Series.exists_tokens (Series.exists_tokens Unary.exists_tokens) x

theorem recognizes_printBody :
    printBody.Recognizes (X := Line .print) Line.tokens Line.actions EndsExpression where
  sound {w} hw h := by
    have h := (takes_current hw).rest_ok h
    by_cases hc : w.current.value.kind = .string
    · rw [if_pos hc] at h
      have hwrite := takes_perform hw
        (.writeLine ("printf(\"" ++ w.current.value.text ++ "\\n\");"))
      obtain ⟨w', ht⟩ := takes_advance_of_ok (by simp [hc]) (hwrite.rest_ok h)
      refine ⟨.printText ⟨w.current, hc⟩, w', (takes_current hw).bind ?_⟩
      rw [if_pos hc]
      exact hwrite.bind ht
    · rw [if_neg hc] at h
      have hwrite := takes_perform hw (.write "printf(\"%.2f\\n\", (float)(")
      have h := hwrite.rest_ok h
      obtain ⟨⟨⟩, he, -⟩ := exists_of_bind h
      obtain ⟨x, w', hx⟩ := recognizes_expression.sound hw he
      have hprint := hwrite.andThen (hx.andThen (takes_perform hx.settled (.writeLine "));")))
      refine ⟨.printValue x, w', (takes_current hw).bind ?_⟩
      rw [if_neg hc]
      exact hprint.congr (List.append_nil x.tokens) rfl
  complete {w} l {rest} hw hi hrest := by
    cases l with
    | printText text =>
      obtain ⟨t, hc⟩ := text
      obtain rfl := current_of_items hi
      obtain ⟨w', ht⟩ := takes_advance_of_items hw (by simp [hc]) hi
      refine ⟨w', (takes_current hw).bind ?_⟩
      rw [if_pos hc]
      exact (takes_perform hw _).bind ht
    | printValue x =>
      obtain ⟨w', hx⟩ := recognizes_expression.complete x hw hi hrest
      have hprint := (takes_perform hw (.write "printf(\"%.2f\\n\", (float)(")).andThen
        (hx.andThen (takes_perform hx.settled (.writeLine "));")))
      -- no expression starts with a string, so the other branch is taken
      have hc : w.current.value.kind ≠ .string := by
        obtain ⟨t, ts, ht, hstart⟩ := Expression.exists_tokens x
        rw [current_of_items (t := t) (by rw [hi, Line.tokens, ht]; rfl)]
        rintro hs
        simp [StartsExpression, hs, Token.Kind.isAdditive] at hstart
      refine ⟨w', (takes_current hw).bind ?_⟩
      rw [if_neg hc]
      exact hprint.congr (List.append_nil x.tokens) rfl

/-- A name that a line starts with, before what the line does with the name. -/
theorem takes_name_of_ok {body : Name → Parser α} {a : α} (hw : w.Settled)
    (h : ((ident >>= body).run w).result = .ok a) :
    ∃ (l : Exactly .ident) (w' : Window), ident.Takes w [l.token] [.pull] l.name w' ∧
      ((body l.name).run w').result = .ok a := by
  obtain ⟨n, hn, -⟩ := exists_of_bind h
  obtain ⟨l, w', rfl, ht⟩ := takes_ident_of_ok hw hn
  exact ⟨l, w', ht, ht.rest_ok h⟩

theorem recognizes_labelBody :
    labelBody.Recognizes (X := Line .label) Line.tokens Line.actions fun _ => True where
  sound {w} hw h := by
    obtain ⟨l, w', ht, -⟩ := takes_name_of_ok hw h
    exact ⟨.label l, w', ht.bind ((takes_perform ht.settled _).bind (takes_perform ht.settled _))⟩
  complete {w} l {rest} hw hi _ := by
    cases l with
    | label l =>
      obtain ⟨w', ht⟩ := takes_ident_of_items l hw hi
      exact ⟨w', ht.bind ((takes_perform ht.settled _).bind (takes_perform ht.settled _))⟩

theorem recognizes_gotoBody :
    gotoBody.Recognizes (X := Line .goto) Line.tokens Line.actions fun _ => True where
  sound {w} hw h := by
    obtain ⟨l, w', ht, -⟩ := takes_name_of_ok hw h
    exact ⟨.goto l, w', ht.bind ((takes_perform ht.settled _).bind (takes_perform ht.settled _))⟩
  complete {w} l {rest} hw hi _ := by
    cases l with
    | goto l =>
      obtain ⟨w', ht⟩ := takes_ident_of_items l hw hi
      exact ⟨w', ht.bind ((takes_perform ht.settled _).bind (takes_perform ht.settled _))⟩

theorem recognizes_inputBody :
    inputBody.Recognizes (X := Line .input) Line.tokens Line.actions fun _ => True where
  sound {w} hw h := by
    obtain ⟨l, w', ht, -⟩ := takes_name_of_ok hw h
    have hdo := takes_perform ht.settled
    exact ⟨.input l, w',
      ht.bind ((hdo _).bind ((hdo _).bind ((hdo _).bind ((hdo _).bind (hdo _)))))⟩
  complete {w} l {rest} hw hi _ := by
    cases l with
    | input l =>
      obtain ⟨w', ht⟩ := takes_ident_of_items l hw hi
      have hdo := takes_perform ht.settled
      exact ⟨w', ht.bind ((hdo _).bind ((hdo _).bind ((hdo _).bind ((hdo _).bind (hdo _)))))⟩

/-- A value that is assigned, from the name on. -/
theorem takes_letBody {l : Exactly .ident} {e : Exactly .eq} {x : Expression} {w₁ w₂ : Window}
    (hname : ident.Takes w [l.token] [.pull] l.name w₁)
    (hequals : (expect .eq).Takes w₁ [e.token] [.pull] () w₂)
    (hvalue : expression.Takes w₂ x.tokens x.actions () w') :
    letBody.Takes w (Line.assign l e x).tokens (Line.assign l e x).actions () w' := by
  have hwrite := takes_perform hname.settled (.write (l.name.value ++ " = "))
  have hend := (takes_perform hvalue.settled (.introduce l.name)).andThen
    (takes_perform hvalue.settled (.writeLine ";"))
  have hline := hwrite.andThen (hequals.andThen (hvalue.andThen hend))
  refine Takes.congr (p := letBody) (hname.bind hline) ?_ ?_
  · simp [Line.tokens]
  · simp [Line.actions]

theorem recognizes_letBody :
    letBody.Recognizes (X := Line .«let») Line.tokens Line.actions EndsExpression where
  sound {w} hw h := by
    obtain ⟨l, w₁, hname, h⟩ := takes_name_of_ok hw h
    have h := (takes_perform hname.settled _).rest_ok h
    obtain ⟨⟨⟩, he, -⟩ := exists_of_bind h
    obtain ⟨e, w₂, hequals⟩ := (recognizes_expect (by decide)).sound hname.settled he
    have h := hequals.rest_ok h
    obtain ⟨⟨⟩, hx, -⟩ := exists_of_bind h
    obtain ⟨x, w', hvalue⟩ := recognizes_expression.sound hequals.settled hx
    exact ⟨.assign l e x, w', takes_letBody hname hequals hvalue⟩
  complete {w} l {rest} hw hi hrest := by
    cases l with
    | assign l e x =>
      obtain ⟨w₁, hname⟩ := takes_ident_of_items l hw hi
      have hi₁ := hname.items_of hi
      obtain ⟨w₂, hequals⟩ := (recognizes_expect (by decide)).complete e hname.settled hi₁
        fun _ _ => trivial
      obtain ⟨w', hvalue⟩ := recognizes_expression.complete x hequals.settled
        (hequals.items_of hi₁) hrest
      exact ⟨w', takes_letBody hname hequals hvalue⟩

/-! ### Pieces -/

/-- A line without its keyword, with its end. -/
theorem takes_line_of_ok {body : Parser Unit} {follow : Token.Kind → Prop}
    (hbody : body.Recognizes (X := Line s) Line.tokens Line.actions follow) (hw : w.Settled)
    (h : ((do body; lineEnd; return bs : Parser (List Block)).run w).result = .ok bs') :
    bs' = bs ∧ ∃ (l : Line s) (n : LineEnd) (w' : Window),
      (do body; lineEnd; return bs : Parser (List Block)).Takes w (l.tokens ++ n.tokens)
        (l.actions ++ n.actions) bs w' := by
  obtain ⟨⟨⟩, hl, -⟩ := exists_of_bind h
  obtain ⟨l, w₁, hl⟩ := hbody.sound hw hl
  have h := hl.rest_ok h
  obtain ⟨⟨⟩, hn, -⟩ := exists_of_bind h
  obtain ⟨n, w', hn⟩ := recognizes_lineEnd.sound hl.settled hn
  have hend := hn.andThen (takes_pure hn.settled bs)
  refine ⟨(Except.ok.inj (hn.rest_ok h)).symm, l, n, w', ?_⟩
  exact (hl.andThen hend).congr (by simp) (by simp)

theorem takes_line_of_items {body : Parser Unit} {follow : Token.Kind → Prop}
    (hbody : body.Recognizes (X := Line s) Line.tokens Line.actions follow)
    (hfollow : follow .newline) (l : Line s) (n : LineEnd) (hw : w.Settled)
    (hi : w.items = (l.tokens ++ n.tokens ++ rest).map .ok)
    (hrest : Follows (· ≠ .newline) rest) :
    ∃ w', (do body; lineEnd; return bs : Parser (List Block)).Takes w (l.tokens ++ n.tokens)
      (l.actions ++ n.actions) bs w' := by
  rw [List.append_assoc] at hi
  obtain ⟨w₁, hl⟩ := hbody.complete l hw hi (LineEnd.follows hfollow n)
  obtain ⟨w', hn⟩ := recognizes_lineEnd.complete n hl.settled (hl.items_of hi) hrest
  have hend := hn.andThen (takes_pure hn.settled bs)
  exact ⟨w', (hl.andThen hend).congr (by simp) (by simp)⟩

/-- What comes after a condition does not go on with it. -/
theorem endsComparison_of_divider (d : Exactly (.keyword b.divider)) :
    Follows EndsComparison (d.token :: ts) := by
  rw [follows_cons, d.fits]
  exact ⟨⟨rfl, rfl⟩, rfl⟩

/-- The first line of a block without its keyword. -/
theorem takes_blockHead {c : Comparison} {d : Exactly (.keyword b.divider)} {n : LineEnd}
    {w₁ w₂ : Window} (hw : w.Settled) (hc : comparison.Takes w c.tokens c.actions () w₁)
    (hd : (expect (.keyword b.divider)).Takes w₁ [d.token] [.pull] () w₂)
    (hn : lineEnd.Takes w₂ n.tokens n.actions () w') :
    (blockHead b).Takes w (c.tokens ++ d.token :: n.tokens)
      (.write (b.word ++ "(") :: c.actions ++ .pull :: n.actions ++ [.writeLine ")\x7b"]) ()
        w' := by
  have hend := hn.andThen (takes_perform hn.settled (.writeLine ")\x7b"))
  have hline := (takes_perform hw (.write (b.word ++ "("))).andThen (hc.andThen (hd.andThen hend))
  exact hline.congr (by simp) (by simp)

theorem takes_blockHead_of_ok (hw : w.Settled) (h : ((blockHead b).run w).result = .ok ()) :
    ∃ (c : Comparison) (d : Exactly (.keyword b.divider)) (n : LineEnd) (w' : Window),
      (blockHead b).Takes w (c.tokens ++ d.token :: n.tokens)
        (.write (b.word ++ "(") :: c.actions ++ .pull :: n.actions ++ [.writeLine ")\x7b"]) ()
        w' := by
  have h := (takes_perform hw _).rest_ok h
  obtain ⟨⟨⟩, hc, -⟩ := exists_of_bind h
  obtain ⟨c, w₁, hc⟩ := recognizes_comparison.sound hw hc
  have h := hc.rest_ok h
  obtain ⟨⟨⟩, hd, -⟩ := exists_of_bind h
  obtain ⟨d, w₂, hd⟩ := (recognizes_expect (by simp)).sound hc.settled hd
  have h := hd.rest_ok h
  obtain ⟨⟨⟩, hn, -⟩ := exists_of_bind h
  obtain ⟨n, w', hn⟩ := recognizes_lineEnd.sound hd.settled hn
  exact ⟨c, d, n, w', takes_blockHead hw hc hd hn⟩

theorem takes_blockHead_of_items (c : Comparison) (d : Exactly (.keyword b.divider)) (n : LineEnd)
    (hw : w.Settled) (hi : w.items = (c.tokens ++ d.token :: n.tokens ++ rest).map .ok)
    (hrest : Follows (· ≠ .newline) rest) :
    ∃ w', (blockHead b).Takes w (c.tokens ++ d.token :: n.tokens)
      (.write (b.word ++ "(") :: c.actions ++ .pull :: n.actions ++ [.writeLine ")\x7b"]) ()
        w' := by
  rw [List.append_assoc] at hi
  obtain ⟨w₁, hc⟩ := recognizes_comparison.complete c hw hi (endsComparison_of_divider d)
  have hi₁ := hc.items_of hi
  obtain ⟨w₂, hd⟩ := (recognizes_expect (by simp)).complete d hc.settled hi₁ fun _ _ => trivial
  obtain ⟨w', hn⟩ := recognizes_lineEnd.complete n hd.settled (hd.items_of hi₁) hrest
  exact ⟨w', takes_blockHead hw hc hd hn⟩

theorem ofKind?_eq_some_iff {k : Token.Kind} {s : TinyBasic.Statement} :
    TinyBasic.Statement.ofKind? k = some s ↔ k = .keyword s.keyword := by
  cases k <;> simp [TinyBasic.Statement.ofKind?, TinyBasic.Statement.ofKeyword?_eq_some_iff]

/-- A keyword and what comes after it. -/
theorem takes_statement {as : List Action} {w₁ : Window} (hw : w.Settled)
    (hk : w.current.value.kind = .keyword s.keyword)
    (hadvance : advance.Takes w [w.current] [.pull] () w₁)
    (hbody : (statementBody bs s).Takes w₁ ts as bs' w') :
    (statement bs).Takes w (w.current :: ts) (.record (.statement s) :: .pull :: as) bs' w' := by
  have hs := ofKind?_eq_some_iff.2 hk
  refine (takes_current hw).bind ?_
  rw [hs]
  exact (takes_perform hw _).andThen (hadvance.andThen hbody)

theorem takes_statement_of_ok (hw : w.Settled) (h : ((statement bs).run w).result = .ok bs') :
    ∃ (m : Piece bs bs') (w' : Window), (statement bs).Takes w m.tokens m.actions bs' w' := by
  have h := (takes_current hw).rest_ok h
  split at h
  case h_2 => simp at h
  case h_1 s hs =>
    have hk := ofKind?_eq_some_iff.1 hs
    have h := (takes_perform hw _).rest_ok h
    obtain ⟨⟨⟩, ha, -⟩ := exists_of_bind h
    obtain ⟨w₁, hadvance⟩ := takes_advance_of_ok (by simp [hk]) ha
    have h := hadvance.rest_ok h
    -- all statements that are no blocks are a line
    have line : ∀ {body : Parser Unit} {follow : Token.Kind → Prop},
        body.Recognizes (X := Line s) Line.tokens Line.actions follow →
        statementBody bs s = (do body; lineEnd; return bs) →
        ∃ (m : Piece bs bs') (w' : Window), (statement bs).Takes w m.tokens m.actions bs' w' := by
      intro body follow hbody heq
      rw [heq] at h
      obtain ⟨rfl, l, n, w', hline⟩ := takes_line_of_ok hbody hadvance.settled h
      exact ⟨.line s ⟨w.current, hk⟩ l n, w',
        takes_statement hw hk hadvance (heq ▸ hline)⟩
    cases s with
    | print => exact line recognizes_printBody rfl
    | label => exact line recognizes_labelBody rfl
    | goto => exact line recognizes_gotoBody rfl
    | «let» => exact line recognizes_letBody rfl
    | input => exact line recognizes_inputBody rfl
    | block b =>
      obtain ⟨⟨⟩, hb, -⟩ := exists_of_bind h
      obtain ⟨c, d, n, w', hhead⟩ := takes_blockHead_of_ok hadvance.settled hb
      obtain rfl := Except.ok.inj (hhead.rest_ok h)
      refine ⟨.head ⟨⟨w.current, hk⟩, c, d, n⟩, w', ?_⟩
      have hblock := hhead.andThen (takes_pure hhead.settled (b :: bs))
      exact (takes_statement hw hk hadvance hblock).congr (by simp [Piece.tokens, Head.tokens])
        (by simp [Piece.actions, Head.actions])

theorem takes_statement_of_line (keyword : Exactly (.keyword s.keyword)) (l : Line s) (n : LineEnd)
    (hw : w.Settled) (hi : w.items = (keyword.token :: l.tokens ++ n.tokens ++ rest).map .ok)
    (hrest : Follows (· ≠ .newline) rest) :
    ∃ w', (statement bs).Takes w (keyword.token :: l.tokens ++ n.tokens)
      (.record (.statement s) :: .pull :: l.actions ++ n.actions) bs w' := by
  obtain ⟨t, hk⟩ := keyword
  obtain rfl := current_of_items hi
  obtain ⟨w₁, hadvance⟩ := takes_advance_of_items hw (by simp [hk]) hi
  have hi₁ := hadvance.items_of hi
  have line : ∀ {body : Parser Unit} {follow : Token.Kind → Prop},
      body.Recognizes (X := Line s) Line.tokens Line.actions follow → follow .newline →
      statementBody bs s = (do body; lineEnd; return bs) →
      ∃ w', (statementBody bs s).Takes w₁ (l.tokens ++ n.tokens) (l.actions ++ n.actions) bs
        w' := by
    intro body follow hbody hfollow heq
    rw [heq]
    exact takes_line_of_items hbody hfollow l n hadvance.settled hi₁ hrest
  have hline : ∃ w', (statementBody bs s).Takes w₁ (l.tokens ++ n.tokens)
      (l.actions ++ n.actions) bs w' := by
    cases s with
    | print => exact line recognizes_printBody ⟨rfl, rfl⟩ rfl
    | label => exact line recognizes_labelBody trivial rfl
    | goto => exact line recognizes_gotoBody trivial rfl
    | «let» => exact line recognizes_letBody ⟨rfl, rfl⟩ rfl
    | input => exact line recognizes_inputBody trivial rfl
    | block b => cases l
  obtain ⟨w', hline⟩ := hline
  exact ⟨w', takes_statement hw hk hadvance hline⟩

theorem takes_statement_of_head (h : Head b) (hw : w.Settled)
    (hi : w.items = (h.tokens ++ rest).map .ok) (hrest : Follows (· ≠ .newline) rest) :
    ∃ w', (statement bs).Takes w h.tokens h.actions (b :: bs) w' := by
  obtain ⟨⟨t, hk⟩, c, d, n⟩ := h
  obtain rfl := current_of_items hi
  obtain ⟨w₁, hadvance⟩ := takes_advance_of_items hw (by simp [hk]) hi
  obtain ⟨w', hhead⟩ := takes_blockHead_of_items c d n hadvance.settled (hadvance.items_of hi) hrest
  have hblock := hhead.andThen (takes_pure hhead.settled (b :: bs))
  have hall : (statement bs).Takes w _ _ (b :: bs) w' := takes_statement hw hk hadvance hblock
  exact ⟨w', hall.congr (by simp [Head.tokens]) (by simp [Head.actions])⟩

theorem takes_blockEnd {f : Foot b} {w₁ : Window}
    (hadvance : advance.Takes w [f.keyword.token] [.pull] () w₁)
    (hn : lineEnd.Takes w₁ f.ending.tokens f.ending.actions () w') :
    (blockEnd bs).Takes w f.tokens f.actions bs w' := by
  have hend := hn.andThen (takes_pure hn.settled bs)
  have hfoot := hadvance.andThen
    ((takes_perform hadvance.settled (.writeLine "\x7d")).andThen hend)
  exact hfoot.congr (by simp [Foot.tokens]) (by simp [Foot.actions])

theorem takes_blockEnd_of_ok (hk : w.current.value.kind = .keyword b.closing)
    (h : ((blockEnd bs).run w).result = .ok bs') :
    bs' = bs ∧ ∃ (f : Foot b) (w' : Window), (blockEnd bs).Takes w f.tokens f.actions bs w' := by
  obtain ⟨⟨⟩, ha, -⟩ := exists_of_bind h
  obtain ⟨w₁, hadvance⟩ := takes_advance_of_ok (by simp [hk]) ha
  have h := hadvance.rest_ok h
  have h := (takes_perform hadvance.settled (.writeLine "\x7d")).rest_ok h
  obtain ⟨⟨⟩, hn, -⟩ := exists_of_bind h
  obtain ⟨n, w', hn⟩ := recognizes_lineEnd.sound hadvance.settled hn
  exact ⟨(Except.ok.inj (hn.rest_ok h)).symm, ⟨⟨w.current, hk⟩, n⟩, w', takes_blockEnd hadvance hn⟩

theorem takes_blockEnd_of_items (f : Foot b) (hw : w.Settled)
    (hi : w.items = (f.tokens ++ rest).map .ok) (hrest : Follows (· ≠ .newline) rest) :
    ∃ w', (blockEnd bs).Takes w f.tokens f.actions bs w' := by
  obtain ⟨w₁, hadvance⟩ := takes_advance_of_items hw (by simp [f.keyword.fits]) hi
  obtain ⟨w', hn⟩ := recognizes_lineEnd.complete f.ending hadvance.settled (hadvance.items_of hi)
    hrest
  exact ⟨w', takes_blockEnd hadvance hn⟩

/-! ### Steps -/

theorem run_step_nil (w : Window) :
    (step []).run w =
      (if w.current.value.kind = .eof then pure none else some <$> statement []).run w :=
  rfl

theorem run_step_cons (b : Block) (outer : List Block) (w : Window) :
    (step (b :: outer)).run w =
      (if w.current.value.kind = .keyword b.closing then some <$> blockEnd outer
        else if w.current.value.kind = .eof then fail (.expected (.keyword b.closing) .eof)
        else some <$> statement (b :: outer)).run w :=
  rfl

theorem run_step_of_statement (heof : w.current.value.kind ≠ .eof)
    (hclosing : ∀ b ∈ bs.head?, w.current.value.kind ≠ .keyword b.closing) :
    (step bs).run w = (some <$> statement bs).run w := by
  cases bs with
  | nil => rw [run_step_nil, if_neg heof]
  | cons b outer => rw [run_step_cons, if_neg (hclosing b rfl), if_neg heof]

/-- The step that ends a program takes nothing. -/
theorem takes_step_end (hw : w.Settled) (heof : w.current.value.kind = .eof) :
    (step []).Takes w [] [] none w :=
  (takes_pure hw none).of_run_eq (by rw [run_step_nil, if_pos heof])

/-- **A successful step** ends the program outside of all blocks, or reads a piece. -/
theorem takes_step_of_ok (hw : w.Settled) {r : Option (List Block)}
    (h : ((step bs).run w).result = .ok r) :
    (bs = [] ∧ r = none ∧ w.current.value.kind = .eof) ∨
      ∃ (bs' : List Block) (m : Piece bs bs') (w' : Window), r = some bs' ∧
        (step bs).Takes w m.tokens m.actions (some bs') w' := by
  by_cases hclosing : ∀ b ∈ bs.head?, w.current.value.kind ≠ .keyword b.closing
  · by_cases heof : w.current.value.kind = .eof
    · left
      cases bs with
      | nil =>
        rw [run_step_nil, if_pos heof] at h
        exact ⟨rfl, (Except.ok.inj h).symm, heof⟩
      | cons b outer =>
        rw [run_step_cons, if_neg (hclosing b rfl), if_pos heof] at h
        simp at h
    · right
      have hrun := run_step_of_statement heof hclosing
      rw [hrun] at h
      obtain ⟨bs', rfl, hs⟩ := exists_of_map h
      obtain ⟨m, w', ht⟩ := takes_statement_of_ok hw hs
      exact ⟨bs', m, w', rfl, (ht.map some).of_run_eq hrun⟩
  · -- the end of the innermost block is in front
    right
    obtain ⟨b, hb, hk⟩ : ∃ b ∈ bs.head?, w.current.value.kind = .keyword b.closing := by
      simpa using hclosing
    obtain ⟨outer, rfl⟩ : ∃ outer, bs = b :: outer := by
      cases bs with
      | nil => cases hb
      | cons b' outer => exact ⟨outer, by rw [Option.some.inj hb]⟩
    have hrun : (step (b :: outer)).run w = (some <$> blockEnd outer).run w := by
      rw [run_step_cons, if_pos hk]
    rw [hrun] at h
    obtain ⟨bs', rfl, hs⟩ := exists_of_map h
    obtain ⟨rfl, f, w', ht⟩ := takes_blockEnd_of_ok hk hs
    exact ⟨_, .foot f, w', rfl, (ht.map some).of_run_eq hrun⟩

/-- No block is closed by a keyword that opens a statement. -/
theorem keyword_ne_closing (s : TinyBasic.Statement) (b : Block) : s.keyword ≠ b.closing := by
  cases s with
  | block b' => cases b' <;> cases b <;> exact Keyword.noConfusion
  | _ => cases b <;> exact Keyword.noConfusion

/-- **A step reads every piece** that no further line feed comes after. -/
theorem takes_step_of_items (m : Piece bs bs') (hw : w.Settled)
    (hi : w.items = (m.tokens ++ rest).map .ok) (hrest : Follows (· ≠ .newline) rest) :
    ∃ w', (step bs).Takes w m.tokens m.actions (some bs') w' := by
  have opens : ∀ s : TinyBasic.Statement, w.current.value.kind = .keyword s.keyword →
      (step bs).run w = (some <$> statement bs).run w := fun s hk =>
    run_step_of_statement (by simp [hk]) fun b _ => by simp [hk, keyword_ne_closing]
  cases m with
  | line s keyword l n =>
    have hk : w.current.value.kind = .keyword s.keyword := by
      rw [current_of_items hi, keyword.fits]
    obtain ⟨w', ht⟩ := takes_statement_of_line keyword l n hw hi hrest
    exact ⟨w', (ht.map some).of_run_eq (opens s hk)⟩
  | head h =>
    have hk := h.keyword.fits
    rw [← current_of_items hi] at hk
    obtain ⟨w', ht⟩ := takes_statement_of_head h hw hi hrest
    exact ⟨w', (ht.map some).of_run_eq (opens _ hk)⟩
  | foot f =>
    have hk := f.keyword.fits
    rw [← current_of_items hi] at hk
    obtain ⟨w', ht⟩ := takes_blockEnd_of_items f hw hi hrest
    exact ⟨w', (ht.map some).of_run_eq (by rw [run_step_cons, if_pos hk])⟩

end Grammar

end TinyBasic
