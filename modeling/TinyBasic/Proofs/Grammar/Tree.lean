import TinyBasic.Action

/-!
# Derivation trees

The grammar of the language as types of trees, one type for each of its rules.  A tree holds the
tokens it is made of, and its type admits no token of a wrong kind, so every tree is the
derivation of a sentence.

* `Tree.Program.tokens`: the tokens of a tree from left to right, its yield.
* `Tree.Program.actions`: what a parser asks for while it goes through the tree, in order.
* `Tree.Sentence`: the sequences of kinds that have a derivation.

A rule with a repetition between operands is a `Tree.Series`; the levels of an expression are
instances of it.
-/

namespace TinyBasic

namespace Tree

variable {α : Type} {isOperator : Token.Kind → Bool}

/-! ### Trees -/

/-- A token whose kind satisfies `p`. -/
@[ext] structure Leaf (p : Token.Kind → Prop) where
  token : Located Token
  fits : p token.value.kind

/-- A token of one kind. -/
abbrev Exactly (k : Token.Kind) := Leaf (· = k)

/-- The name that a token is, with its place. -/
def Leaf.name {p : Token.Kind → Prop} (l : Leaf p) : Name := l.token.map Token.text

/-- `operand { operator operand }` -/
structure Series (isOperator : Token.Kind → Bool) (α : Type) where
  first : α
  later : List (Leaf (isOperator ·) × α)

/-- `primary ::= NUMBER | IDENT` -/
inductive Primary where
  | number (t : Exactly .number)
  | variable (t : Exactly .ident)

/-- `unary ::= [ "+" | "-" ] primary` -/
structure Unary where
  sign : Option (Leaf (Token.Kind.isAdditive ·))
  operand : Primary

/-- `term ::= unary { ( "*" | "/" ) unary }` -/
abbrev Term := Series Token.Kind.isMultiplicative Unary

/-- `expression ::= term { ( "+" | "-" ) term }` -/
abbrev Expression := Series Token.Kind.isAdditive Term

/-- `comparison ::= expression cmpop expression { cmpop expression }` -/
structure Comparison where
  chain : Series Token.Kind.isComparison Expression
  compares : chain.later ≠ []

/-- `nl ::= NEWLINE { NEWLINE }` -/
structure LineEnd where
  first : Exactly .newline
  more : List (Exactly .newline)

/-- What stands on the line of a statement after its keyword. -/
inductive Line : TinyBasic.Statement → Type where
  | printText (text : Exactly .string) : Line .print
  | printValue (value : Expression) : Line .print
  | label (name : Exactly .ident) : Line .label
  | goto (name : Exactly .ident) : Line .goto
  | assign (name : Exactly .ident) (equals : Exactly .eq) (value : Expression) : Line .«let»
  | input (name : Exactly .ident) : Line .input

/-- The first line of a block. -/
structure Head (b : Block) where
  keyword : Exactly (.keyword (TinyBasic.Statement.block b).keyword)
  condition : Comparison
  divider : Exactly (.keyword b.divider)
  ending : LineEnd

/-- The last line of a block. -/
structure Foot (b : Block) where
  keyword : Exactly (.keyword b.closing)
  ending : LineEnd

/-- A statement: a line, or a block of statements. -/
inductive Statement where
  | line (s : TinyBasic.Statement) (keyword : Exactly (.keyword s.keyword)) (line : Line s)
    (ending : LineEnd)
  | block (b : Block) (head : Head b) (body : List Statement) (foot : Foot b)

/-- `program ::= { NEWLINE } { statement }` -/
structure Program where
  blank : List (Exactly .newline)
  statements : List Statement

/-! ### Yields -/

/-- The tokens of a series whose operands have the given tokens. -/
def Series.tokens (operand : α → List (Located Token)) (s : Series isOperator α) :
    List (Located Token) :=
  operand s.first ++ s.later.flatMap fun x => x.1.token :: operand x.2

def Primary.token : Primary → Located Token
  | .number t => t.token
  | .variable t => t.token

def Unary.tokens (u : Unary) : List (Located Token) :=
  u.sign.toList.map Leaf.token ++ [u.operand.token]

def Term.tokens : Term → List (Located Token) := Series.tokens Unary.tokens

def Expression.tokens : Expression → List (Located Token) := Series.tokens Term.tokens

def Comparison.tokens (c : Comparison) : List (Located Token) :=
  c.chain.tokens Expression.tokens

def LineEnd.tokens (n : LineEnd) : List (Located Token) := n.first.token :: n.more.map Leaf.token

def Line.tokens {s : TinyBasic.Statement} : Line s → List (Located Token)
  | .printText text => [text.token]
  | .printValue value => value.tokens
  | .label name => [name.token]
  | .goto name => [name.token]
  | .assign name equals value => name.token :: equals.token :: value.tokens
  | .input name => [name.token]

def Head.tokens {b : Block} (h : Head b) : List (Located Token) :=
  h.keyword.token :: h.condition.tokens ++ h.divider.token :: h.ending.tokens

def Foot.tokens {b : Block} (f : Foot b) : List (Located Token) :=
  f.keyword.token :: f.ending.tokens

mutual

def Statement.tokens : Statement → List (Located Token)
  | .line _ keyword line ending => keyword.token :: line.tokens ++ ending.tokens
  | .block _ head body foot => head.tokens ++ tokensAll body ++ foot.tokens

def tokensAll : List Statement → List (Located Token)
  | [] => []
  | s :: ss => s.tokens ++ tokensAll ss

end

def Program.tokens (p : Program) : List (Located Token) :=
  p.blank.map Leaf.token ++ tokensAll p.statements

/-! ### What a parser asks for -/

/-- A token that is copied to the body. -/
def pasted (t : Located Token) : List Action := [.write t.value.text, .pull]

def Primary.actions (p : Primary) : List Action :=
  .record (.primary p.token.value.text) ::
    (match p with
      | .number t => pasted t.token
      | .variable t => .read t.name :: pasted t.token)

def Unary.actions (u : Unary) : List Action :=
  .record .unary :: u.sign.toList.flatMap (fun l => pasted l.token) ++ u.operand.actions

/-- What a series asks for, of which the construct `c` is recorded: each operator is copied
between two spaces. -/
def Series.actions (c : Construct) (operand : α → List Action) (s : Series isOperator α) :
    List Action :=
  .record c :: operand s.first ++ s.later.flatMap fun x =>
    .write " " :: pasted x.1.token ++ .write " " :: operand x.2

def Term.actions : Term → List Action := Series.actions .term Unary.actions

def Expression.actions : Expression → List Action := Series.actions .expression Term.actions

def Comparison.actions (c : Comparison) : List Action :=
  c.chain.actions .comparison Expression.actions

def LineEnd.actions (n : LineEnd) : List Action :=
  .record .newline :: .pull :: n.more.map fun _ => .pull

def Line.actions {s : TinyBasic.Statement} : Line s → List Action
  | .printText text => [.writeLine ("printf(\"" ++ text.token.value.text ++ "\\n\");"), .pull]
  | .printValue value =>
    .write "printf(\"%.2f\\n\", (float)(" :: value.actions ++ [.writeLine "));"]
  | .label name => [.pull, .declare name.name, .writeLine (name.name.value ++ ":;")]
  | .goto name => [.pull, .writeLine ("goto " ++ name.name.value ++ ";"), .jump name.name]
  | .assign name _ value =>
    .pull :: .write (name.name.value ++ " = ") :: .pull :: value.actions ++
      [.introduce name.name, .writeLine ";"]
  | .input name =>
    [.pull, .introduce name.name,
      .writeLine ("if (0 == scanf(\"%f\", &" ++ name.name.value ++ ")) \x7b"),
      .writeLine (name.name.value ++ " = 0;"), .writeLine "scanf(\"%*s\");", .writeLine "\x7d"]

def Head.actions {b : Block} (h : Head b) : List Action :=
  .record (.statement (.block b)) :: .pull :: .write (b.word ++ "(") :: h.condition.actions ++
    .pull :: h.ending.actions ++ [.writeLine ")\x7b"]

def Foot.actions {b : Block} (f : Foot b) : List Action :=
  .pull :: .writeLine "\x7d" :: f.ending.actions

mutual

def Statement.actions : Statement → List Action
  | .line s _ line ending =>
    .record (.statement s) :: .pull :: line.actions ++ ending.actions
  | .block _ head body foot => head.actions ++ actionsAll body ++ foot.actions

def actionsAll : List Statement → List Action
  | [] => []
  | s :: ss => s.actions ++ actionsAll ss

end

def Program.actions (p : Program) : List Action :=
  .record .program :: .headerLine "#include <stdio.h>" :: .headerLine "int main(void)\x7b" ::
    p.blank.map (fun _ => .pull) ++ actionsAll p.statements ++
    [.writeLine "return 0;", .writeLine "\x7d"]

/-! ### Sentences -/

/-- The tokens without their places. -/
def values (ts : List (Located Token)) : List Token := ts.map (·.value)

/-- The kinds of tokens. -/
def kinds (ts : List (Located Token)) : List Token.Kind := ts.map (·.value.kind)

/-- The sequence of kinds is a sentence of the grammar. -/
def Sentence (ks : List Token.Kind) : Prop := ∃ p : Program, kinds p.tokens = ks

end Tree

end TinyBasic
