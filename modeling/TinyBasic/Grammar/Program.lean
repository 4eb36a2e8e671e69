import TinyBasic.Grammar.Expression

/-!
# Statements and programs

A program is read statement by statement, with the blocks that are open at that point on a stack.
A statement that opens a block adds it to the stack, and the keyword that closes the innermost
block takes it off.  `program` is the whole grammar.
-/

namespace TinyBasic.Grammar

open TinyBasic.Parser

/-- Takes the line feeds in front. -/
def blankLines : Parser Unit :=
  many (· = .newline) advance fun _ h => consumes_advance (by simp_all)

/-- `nl ::= NEWLINE { NEWLINE }` -/
def lineEnd : Parser Unit := do
  perform (.record .newline)
  expect .newline
  blankLines

/-! ### Statements -/

/-- What follows `PRINT`: a string literal, or an expression whose value is shown with two
decimals. -/
def printBody : Parser Unit := do
  let t ← current
  if t.value.kind = .string then
    perform (.writeLine ("printf(\"" ++ t.value.text ++ "\\n\");"))
    advance
  else
    perform (.write "printf(\"%.2f\\n\", (float)(")
    expression
    perform (.writeLine "));")

/-- What follows `LABEL`. -/
def labelBody : Parser Unit := do
  let name ← ident
  perform (.declare name)
  perform (.writeLine (name.value ++ ":;"))

/-- What follows `GOTO`. -/
def gotoBody : Parser Unit := do
  let name ← ident
  perform (.writeLine ("goto " ++ name.value ++ ";"))
  perform (.jump name)

/-- What follows `LET`.  The variable is introduced after its value has been read, so the value
cannot use a variable that this statement is the first to introduce. -/
def letBody : Parser Unit := do
  let name ← ident
  perform (.write (name.value ++ " = "))
  expect .eq
  expression
  perform (.introduce name)
  perform (.writeLine ";")

/-- What follows `INPUT`.  Input that is no number sets the variable to zero and is skipped. -/
def inputBody : Parser Unit := do
  let name ← ident
  perform (.introduce name)
  perform (.writeLine ("if (0 == scanf(\"%f\", &" ++ name.value ++ ")) \x7b"))
  perform (.writeLine (name.value ++ " = 0;"))
  perform (.writeLine "scanf(\"%*s\");")
  perform (.writeLine "\x7d")

/-- What follows the keyword of a block, up to its first statement. -/
def blockHead (b : Block) : Parser Unit := do
  perform (.write (b.word ++ "("))
  comparison
  expect (.keyword b.divider)
  lineEnd
  perform (.writeLine ")\x7b")

/-- What follows the keyword of a statement, inside the given blocks.  Answers with the blocks
that are open after it. -/
def statementBody (blocks : List Block) : Statement → Parser (List Block)
  | .print => do printBody; lineEnd; return blocks
  | .label => do labelBody; lineEnd; return blocks
  | .goto => do gotoBody; lineEnd; return blocks
  | .«let» => do letBody; lineEnd; return blocks
  | .input => do inputBody; lineEnd; return blocks
  | .block b => do blockHead b; return b :: blocks

/-- A statement that takes up one line, or the first line of a block. -/
def statement (blocks : List Block) : Parser (List Block) := do
  let t ← current
  match Statement.ofKind? t.value.kind with
  | some s =>
    perform (.record (.statement s))
    advance
    statementBody blocks s
  | none => fail (.invalidStatement t.value.text)

/-- The end of the innermost block, after which `blocks` are open. -/
def blockEnd (blocks : List Block) : Parser (List Block) := do
  advance
  perform (.writeLine "\x7d")
  lineEnd
  return blocks

theorem consumes_statement (blocks : List Block) (w : Window) : (statement blocks).Consumes w := by
  refine .current_bind ?_
  cases h : Statement.ofKind? w.current.value.kind with
  | none => exact consumes_fail _ _
  | some s =>
    refine .perform_bind ((consumes_advance fun hk => ?_).bind_left _)
    simp [hk, Statement.ofKind?] at h

theorem consumes_blockEnd (blocks : List Block) {w : Window}
    (h : w.current.value.kind ≠ .eof) : (blockEnd blocks).Consumes w :=
  (consumes_advance h).bind_left _

/-! ### Programs -/

/-- One step through the statements of a program: a statement, or the end of a block, or, outside
of all blocks, the end of the program. -/
def step (blocks : List Block) : Parser (Option (List Block)) := do
  let t ← current
  match blocks with
  | [] => if t.value.kind = .eof then return none else some <$> statement []
  | b :: outer =>
    if t.value.kind = .keyword b.closing then some <$> blockEnd outer
    else if t.value.kind = .eof then fail (.expected (.keyword b.closing) .eof)
    else some <$> statement (b :: outer)

theorem progresses_step (blocks : List Block) : (step blocks).Progresses := by
  have key : ∀ {p : Parser (List Block)} {w : Window}, p.Consumes w →
      (some <$> p).Consumes w := fun {p w} h => by
    rw [← bind_pure_comp]
    exact h.bind_left _
  intro w s hs
  by_cases hend : blocks = [] ∧ w.current.value.kind = .eof
  · obtain ⟨rfl, hk⟩ := hend
    simp [step, run_bind, Outcome.andThen, hk] at hs
  · have : (step blocks).Consumes w := by
      refine .current_bind ?_
      cases blocks with
      | nil =>
        rw [if_neg fun hk => hend ⟨rfl, hk⟩]
        exact key (consumes_statement _ _)
      | cons b outer =>
        dsimp only
        split
        · rename_i hk
          exact key (consumes_blockEnd _ (by simp [hk]))
        · split
          · exact consumes_fail _ _
          · exact key (consumes_statement _ _)
    exact this _ hs

/-- `program ::= { NEWLINE } { statement }` -/
def program : Parser Unit := do
  perform (.record .program)
  perform (.headerLine "#include <stdio.h>")
  perform (.headerLine "int main(void)\x7b")
  blankLines
  loop step progresses_step []
  perform (.writeLine "return 0;")
  perform (.writeLine "\x7d")

end TinyBasic.Grammar
