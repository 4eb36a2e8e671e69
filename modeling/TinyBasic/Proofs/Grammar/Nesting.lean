import TinyBasic.Proofs.Grammar.Recognition

/-!
# Statements and the blocks around them

The grammar nests statements in trees, while the parser reads them off one after the other with
the open blocks on a stack.  Between the two stand

* `Tree.Piece bs bs'`: what the parser reads in one step, a line or the first or the last line of a
  block, with `bs` the blocks that are open before it and `bs'` those after it;
* `Tree.Pending bs`: what is left of a program inside the open blocks `bs`.

A piece in front of what is left after it is what is left before it (`Tree.Pending.after`), and
everything that is left is made up in this way (`Tree.Pending.exists_after`).  So a step of the
parser recognises the pieces, and its repetition recognises what is left (`takes_loop_of_ok`,
`takes_loop_of_items`).
-/

namespace TinyBasic

open TinyBasic.Parser

namespace Tree

variable {b : Block} {bs bs' outer : List Block}

/-- A part of a program that is read in one step, by the blocks that are open before and after. -/
inductive Piece : List Block → List Block → Type where
  | line {bs : List Block} (s : TinyBasic.Statement) (keyword : Exactly (.keyword s.keyword))
    (line : Line s) (ending : LineEnd) : Piece bs bs
  | head {b : Block} {bs : List Block} (h : Head b) : Piece bs (b :: bs)
  | foot {b : Block} {bs : List Block} (f : Foot b) : Piece (b :: bs) bs

def Piece.tokens : Piece bs bs' → List (Located Token)
  | .line _ keyword l ending => keyword.token :: l.tokens ++ ending.tokens
  | .head h => h.tokens
  | .foot f => f.tokens

def Piece.actions : Piece bs bs' → List Action
  | .line s _ l ending =>
    .record (.statement s) :: .pull :: l.actions ++ ending.actions
  | .head h => h.actions
  | .foot f => f.actions

/-- What is left of a program inside the open blocks: the statements that are left of the innermost
one, its end, and what is left of the others. -/
inductive Pending : List Block → Type where
  | outside (statements : List Statement) : Pending []
  | inside {b : Block} {outer : List Block} (statements : List Statement) (foot : Foot b)
    (rest : Pending outer) : Pending (b :: outer)

namespace Pending

def tokens : {bs : List Block} → Pending bs → List (Located Token)
  | _, outside statements => tokensAll statements
  | _, inside statements foot rest => tokensAll statements ++ foot.tokens ++ rest.tokens

def actions : {bs : List Block} → Pending bs → List Action
  | _, outside statements => actionsAll statements
  | _, inside statements foot rest => actionsAll statements ++ foot.actions ++ rest.actions

/-- A statement in front of what is left. -/
def cons (s : Statement) : Pending bs → Pending bs
  | outside statements => outside (s :: statements)
  | inside statements foot rest => inside (s :: statements) foot rest

@[simp] theorem tokens_cons (s : Statement) (p : Pending bs) :
    (p.cons s).tokens = s.tokens ++ p.tokens := by
  cases p <;> simp [cons, tokens, tokensAll]

@[simp] theorem actions_cons (s : Statement) (p : Pending bs) :
    (p.cons s).actions = s.actions ++ p.actions := by
  cases p <;> simp [cons, actions, actionsAll]

/-- A piece in front of what is left after it. -/
def after : Piece bs bs' → Pending bs' → Pending bs
  | .line s keyword l ending, p => p.cons (.line s keyword l ending)
  | .head h, inside statements foot rest => rest.cons (.block _ h statements foot)
  | .foot f, p => inside [] f p

@[simp] theorem tokens_after (m : Piece bs bs') (p : Pending bs') :
    (p.after m).tokens = m.tokens ++ p.tokens := by
  cases m with
  | line s keyword line ending => simp [after, Piece.tokens, Statement.tokens]
  | head h =>
    cases p with
    | inside statements foot rest => simp [after, Piece.tokens, Statement.tokens, tokens]
  | foot f => simp [after, Piece.tokens, tokens, tokensAll]

@[simp] theorem actions_after (m : Piece bs bs') (p : Pending bs') :
    (p.after m).actions = m.actions ++ p.actions := by
  cases m with
  | line s keyword line ending => simp [after, Piece.actions, Statement.actions]
  | head h =>
    cases p with
    | inside statements foot rest => simp [after, Piece.actions, Statement.actions, actions]
  | foot f => simp [after, Piece.actions, actions, actionsAll]

/-- **What is left starts with a piece**, unless it is nothing at all. -/
theorem exists_after (p : Pending bs) :
    (bs = [] ∧ HEq p (outside [])) ∨
      ∃ (bs' : List Block) (m : Piece bs bs') (q : Pending bs'), p = q.after m := by
  cases p with
  | outside statements =>
    cases statements with
    | nil => exact .inl ⟨rfl, .rfl⟩
    | cons s statements =>
      -- a line is a piece, and a block is its first line before what is left inside of it
      right
      cases s with
      | line s keyword line ending =>
        exact ⟨_, .line s keyword line ending, .outside statements, rfl⟩
      | block b head body foot =>
        exact ⟨_, .head head, .inside body foot (.outside statements), rfl⟩
  | inside statements foot rest =>
    right
    cases statements with
    | nil => exact ⟨_, .foot foot, rest, rfl⟩
    | cons s statements =>
      cases s with
      | line s keyword line ending =>
        exact ⟨_, .line s keyword line ending, .inside statements foot rest, rfl⟩
      | block b head body foot' =>
        exact ⟨_, .head head, .inside body foot' (.inside statements foot rest), rfl⟩

end Pending

/-- The keyword in front of a piece. -/
def Piece.keyword : Piece bs bs' → Keyword
  | .line s .. => s.keyword
  | .head (b := b) _ => (TinyBasic.Statement.block b).keyword
  | .foot (b := b) _ => b.closing

/-- A piece starts with its keyword. -/
theorem Piece.exists_tokens (m : Piece bs bs') :
    ∃ (t : Located Token) (ts : List (Located Token)),
      m.tokens = t :: ts ∧ t.value.kind = .keyword m.keyword := by
  cases m with
  | line s keyword line ending => exact ⟨_, _, rfl, keyword.fits⟩
  | head h => exact ⟨_, _, rfl, h.keyword.fits⟩
  | foot f => exact ⟨_, _, rfl, f.keyword.fits⟩

/-- What comes after a piece does not start with a line feed. -/
theorem Pending.follows (p : Pending bs) {rest : List (Located Token)}
    (hrest : Follows (· ≠ .newline) rest) : Follows (· ≠ .newline) (p.tokens ++ rest) := by
  obtain ⟨rfl, hp⟩ | ⟨bs', m, q, rfl⟩ := p.exists_after
  · obtain rfl := eq_of_heq hp
    exact hrest
  · obtain ⟨t, ts, hm, hk⟩ := m.exists_tokens
    rw [Pending.tokens_after, hm]
    exact follows_cons.2 (by simp [hk])

end Tree

end TinyBasic
