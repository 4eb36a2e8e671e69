import TinyBasic.Text.Escape

/-!
# Tokens

A `Token` is a kind and a text.  The text is the lexeme itself, except that a string literal
leaves out its quotes.  A `Keyword` is recognised by its exact spelling
(`Keyword.ofSpelling?_eq_some_iff`), and a token of any kind is shown on one line, with its text
escaped (`Token.line`).
-/

namespace TinyBasic

/-- The words that open, divide and close statements. -/
inductive Keyword where
  | label
  | goto
  | print
  | input
  | «let»
  | «if»
  | «then»
  | endIf
  | «while»
  | «repeat»
  | endWhile
  deriving DecidableEq

namespace Keyword

/-- All keywords. -/
def all : List Keyword :=
  [.label, .goto, .print, .input, .«let», .«if», .«then», .endIf, .«while», .«repeat», .endWhile]

/-- How a keyword is written. -/
def spelling : Keyword → String
  | .label => "LABEL"
  | .goto => "GOTO"
  | .print => "PRINT"
  | .input => "INPUT"
  | .«let» => "LET"
  | .«if» => "IF"
  | .«then» => "THEN"
  | .endIf => "ENDIF"
  | .«while» => "WHILE"
  | .«repeat» => "REPEAT"
  | .endWhile => "ENDWHILE"

/-- The keyword written as `s`.  Letter case matters. -/
def ofSpelling? (s : String) : Option Keyword := all.find? fun k => k.spelling == s

instance : ToString Keyword := ⟨spelling⟩

theorem mem_all (k : Keyword) : k ∈ all := by cases k <;> decide

theorem ofSpelling?_spelling (k : Keyword) : ofSpelling? k.spelling = some k := by
  cases k <;> rfl

/-- **A word is a keyword exactly when it is the keyword's spelling.** -/
theorem ofSpelling?_eq_some_iff {s : String} {k : Keyword} :
    ofSpelling? s = some k ↔ s = k.spelling := by
  refine ⟨fun h => ?_, fun h => h ▸ ofSpelling?_spelling k⟩
  have := List.find?_some h
  exact (beq_iff_eq.1 this).symm

end Keyword

namespace Token

/-- What a lexeme is. -/
inductive Kind where
  /-- The end of the text. -/
  | eof
  /-- A line feed. -/
  | newline
  /-- A numeral. -/
  | number
  /-- A name. -/
  | ident
  /-- A string literal. -/
  | string
  /-- A keyword. -/
  | keyword (k : Keyword)
  /-- `=` -/
  | eq
  /-- `+` -/
  | plus
  /-- `-` -/
  | minus
  /-- `*` -/
  | asterisk
  /-- `/` -/
  | slash
  /-- `==` -/
  | eqEq
  /-- `!=` -/
  | notEq
  /-- `<` -/
  | lt
  /-- `<=` -/
  | ltEq
  /-- `>` -/
  | gt
  /-- `>=` -/
  | gtEq
  deriving DecidableEq

namespace Kind

/-- The name of a kind in reports and token lists. -/
def name : Kind → String
  | .eof => "EOF"
  | .newline => "NEWLINE"
  | .number => "NUMBER"
  | .ident => "IDENT"
  | .string => "STRING"
  | .keyword k => k.spelling
  | .eq => "EQ"
  | .plus => "PLUS"
  | .minus => "MINUS"
  | .asterisk => "ASTERISK"
  | .slash => "SLASH"
  | .eqEq => "EQEQ"
  | .notEq => "NOTEQ"
  | .lt => "LT"
  | .ltEq => "LTEQ"
  | .gt => "GT"
  | .gtEq => "GTEQ"

instance : ToString Kind := ⟨name⟩

/-- The operators between the sides of a comparison. -/
def isComparison : Kind → Bool
  | .eqEq | .notEq | .lt | .ltEq | .gt | .gtEq => true
  | _ => false

/-- The operators between the terms of an expression. -/
def isAdditive : Kind → Bool
  | .plus | .minus => true
  | _ => false

/-- The operators between the factors of a term. -/
def isMultiplicative : Kind → Bool
  | .asterisk | .slash => true
  | _ => false

end Kind

end Token

/-- A unit of the language: what a lexeme is, and its text. -/
structure Token where
  /-- What the lexeme is. -/
  kind : Token.Kind
  /-- The lexeme, without the quotes of a string literal. -/
  text : String
  deriving DecidableEq

namespace Token

/-- A token on one line: its text escaped, and the name of its kind. -/
def line (t : Token) : String := Text.escape t.text ++ ": " ++ t.kind.name

end Token

end TinyBasic
