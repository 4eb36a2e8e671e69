import TinyBasic.Grammar.Parser

/-!
# Expressions and conditions

Expressions go to the body as they stand: operands and signs without a change, and each operator
between two spaces, so that an operator never touches a sign that follows it.  A variable is
checked where it is read, before its token is taken.
-/

namespace TinyBasic.Grammar

open TinyBasic.Parser

/-- Writes the text of the current token to the body and takes the token. -/
def paste : Parser Unit := do
  let t ← current
  perform (.write t.value.text)
  advance

/-- Writes the current token between two spaces and takes it. -/
def operator : Parser Unit := do
  perform (.write " ")
  paste
  perform (.write " ")

theorem consumes_paste {w : Window} (h : w.current.value.kind ≠ .eof) : paste.Consumes w :=
  .current_bind (.perform_bind (consumes_advance h))

theorem consumes_operator {w : Window} (h : w.current.value.kind ≠ .eof) : operator.Consumes w :=
  .perform_bind ((consumes_paste h).bind_left _)

/-- An operator and an operand, as often as the current token is an operator. -/
def operations (isOperator : Token.Kind → Bool) (operand : Parser Unit)
    (h : isOperator .eof = false) : Parser Unit :=
  many isOperator
    (do
      operator
      operand)
    (fun w hw => (consumes_operator fun hk => by simp [hk, h] at hw).bind_left _)

/-- `primary ::= NUMBER | IDENT` -/
def primary : Parser Unit := do
  let t ← current
  perform (.record (.primary t.value.text))
  match t.value.kind with
  | .number => paste
  | .ident =>
    perform (.read (t.map Token.text))
    paste
  | _ => fail (.unexpectedToken t.value.text)

/-- `unary ::= [ "+" | "-" ] primary` -/
def unary : Parser Unit := do
  perform (.record .unary)
  let t ← current
  if t.value.kind.isAdditive then paste
  primary

/-- `term ::= unary { ( "*" | "/" ) unary }` -/
def term : Parser Unit := do
  perform (.record .term)
  unary
  operations Token.Kind.isMultiplicative unary rfl

/-- `expression ::= term { ( "+" | "-" ) term }` -/
def expression : Parser Unit := do
  perform (.record .expression)
  term
  operations Token.Kind.isAdditive term rfl

/-- `comparison ::= expression cmpop expression { cmpop expression }` -/
def comparison : Parser Unit := do
  perform (.record .comparison)
  expression
  let t ← current
  if t.value.kind.isComparison then operations Token.Kind.isComparison expression rfl
  else fail (.expectedComparison t.value.text)

end TinyBasic.Grammar
