import TinyBasic.Report
import TinyBasic.Scope
import TinyBasic.Token.Lexer

/-!
# Why a program is rejected

A `Failure` is an error of one of three phases, with its range: no token could be read, a token
does not fit the grammar, or a name cannot be used as it is.  `Failure.report` is the report of
the failure.
-/

namespace TinyBasic

/-- Why a token does not fit the grammar. -/
inductive SyntaxError where
  /-- Only a token of kind `wanted` fits, and one of kind `found` stands there. -/
  | expected (wanted found : Token.Kind)
  /-- No statement starts with this text. -/
  | invalidStatement (text : String)
  /-- A condition ends before this text without having compared anything. -/
  | expectedComparison (text : String)
  /-- This text is no operand. -/
  | unexpectedToken (text : String)
  deriving DecidableEq

namespace SyntaxError

/-- The text of the error. -/
def message : SyntaxError → String
  | .expected wanted found => "Expected " ++ wanted.name ++ ", got " ++ found.name ++ "."
  | .invalidStatement text => "Invalid statement at " ++ text
  | .expectedComparison text => "Expected comparison operator at: " ++ text
  | .unexpectedToken text => "Unexpected token at " ++ text

end SyntaxError

/-- Why a program is rejected. -/
inductive Failure where
  | lexical (e : Located LexicalError)
  | syntactic (e : Located SyntaxError)
  | semantic (e : Located ScopeError)
  deriving DecidableEq

namespace Failure

/-- The kind of the failure in reports. -/
def kind : Failure → String
  | .lexical _ => "Lexical error"
  | .syntactic _ => "Syntax error"
  | .semantic _ => "Semantic error"

/-- The message of the error. -/
def message : Failure → String
  | .lexical e => e.value.message
  | .syntactic e => e.value.message
  | .semantic e => e.value.message

/-- The range of the error. -/
def location : Failure → Location
  | .lexical e => e.location
  | .syntactic e => e.location
  | .semantic e => e.location

/-- The report of a failure: its one error, under the kind of the failure. -/
def report (f : Failure) : Report := ⟨f.kind, [⟨f.message, f.location⟩]⟩

end Failure

end TinyBasic
