import TinyBasic.Token

/-!
# The constructs of the language

The grammar, where braces mean repetition and brackets an optional part:

```text
program    ::= { NEWLINE } { statement }
statement  ::= "PRINT" ( expression | STRING ) nl
            |  "IF" comparison "THEN" nl { statement } "ENDIF" nl
            |  "WHILE" comparison "REPEAT" nl { statement } "ENDWHILE" nl
            |  "LABEL" IDENT nl
            |  "GOTO" IDENT nl
            |  "LET" IDENT "=" expression nl
            |  "INPUT" IDENT nl
comparison ::= expression cmpop expression { cmpop expression }
expression ::= term { ( "+" | "-" ) term }
term       ::= unary { ( "*" | "/" ) unary }
unary      ::= [ "+" | "-" ] primary
primary    ::= NUMBER | IDENT
nl         ::= NEWLINE { NEWLINE }
```

A `Block` is a statement that holds statements, a `Statement` is a kind of statement, and a
`Construct` is anything whose recognition is recorded.
-/

namespace TinyBasic

/-- The statements that hold other statements. -/
inductive Block where
  /-- Its statements run at most once. -/
  | conditional
  /-- Its statements run as long as its condition holds. -/
  | repetition
  deriving DecidableEq

namespace Block

/-- The keyword between the condition and the statements. -/
def divider : Block → Keyword
  | .conditional => .«then»
  | .repetition => .«repeat»

/-- The keyword after the statements. -/
def closing : Block → Keyword
  | .conditional => .endIf
  | .repetition => .endWhile

/-- The word for the block in C. -/
def word : Block → String
  | .conditional => "if"
  | .repetition => "while"

end Block

/-- The kinds of statements. -/
inductive Statement where
  | print
  | block (b : Block)
  | label
  | goto
  | «let»
  | input
  deriving DecidableEq

namespace Statement

/-- The statement that a keyword opens. -/
def ofKeyword? : Keyword → Option Statement
  | .print => some .print
  | .«if» => some (.block .conditional)
  | .«while» => some (.block .repetition)
  | .label => some .label
  | .goto => some .goto
  | .«let» => some .«let»
  | .input => some .input
  | .«then» | .endIf | .«repeat» | .endWhile => none

/-- The statement that a token of the given kind opens. -/
def ofKind? : Token.Kind → Option Statement
  | .keyword k => ofKeyword? k
  | _ => none

/-- The keyword that opens a statement. -/
def keyword : Statement → Keyword
  | .print => .print
  | .block .conditional => .«if»
  | .block .repetition => .«while»
  | .label => .label
  | .goto => .goto
  | .«let» => .«let»
  | .input => .input

theorem ofKeyword?_eq_some_iff {k : Keyword} {s : Statement} :
    ofKeyword? k = some s ↔ k = s.keyword := by
  constructor
  · cases k <;> simp only [ofKeyword?] <;> intro h <;> cases h <;> rfl
  · rintro rfl
    cases s with
    | block b => cases b <;> rfl
    | _ => rfl

end Statement

/-- The constructs whose recognition is recorded. -/
inductive Construct where
  | program
  | statement (s : Statement)
  | comparison
  | expression
  | term
  | unary
  /-- An operand, or what stands in the place of one. -/
  | primary (text : String)
  /-- The end of a line. -/
  | newline

/-- The name of a construct in the log. -/
def Construct.name : Construct → String
  | .program => "PROGRAM"
  | .statement s => "STATEMENT-" ++ s.keyword.spelling
  | .comparison => "COMPARISON"
  | .expression => "EXPRESSION"
  | .term => "TERM"
  | .unary => "UNARY"
  | .primary text => "PRIMARY (" ++ text ++ ")"
  | .newline => "NEWLINE"

end TinyBasic
