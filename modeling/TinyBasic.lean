import TinyBasic.Token.Stream
import TinyBasic.Scope
import TinyBasic.CUnit
import TinyBasic.Report
import TinyBasic.Failure
import TinyBasic.Action
import TinyBasic.Translation
import TinyBasic.Command.Session
import TinyBasic.Main
import TinyBasic.Proofs.Token.Spelling
import TinyBasic.Proofs.Token.Reading
import TinyBasic.Proofs.Grammar.Tree
import TinyBasic.Proofs.Grammar.Window
import TinyBasic.Proofs.Grammar.Recognition
import TinyBasic.Proofs.Grammar.Statements
import TinyBasic.Proofs.Grammar.Derivation
import TinyBasic.Proofs.Translation.Rendering
import TinyBasic.Proofs.Translation.Correctness
import TinyBasic.Proofs.Grammar.Unambiguity
import TinyBasic.Proofs.Translation.Identifiers
import TinyBasic.Proofs.Translation.Scoping
import TinyBasic.Proofs.Translation.Violations
import TinyBasic.Proofs.Command.Overwriting
import TinyBasic.Proofs.Token.Normalization
import TinyBasic.Proofs.Translation.Decompiling
import TinyBasic.Proofs.Grammar.Prediction
import TinyBasic.Proofs.Grammar.ViablePrefix
import TinyBasic.Proofs.Command.Delivery
import TinyBasic.Proofs.C.Token
import TinyBasic.Proofs.C.Formula
import TinyBasic.Proofs.C.Constant
import TinyBasic.Proofs.Translation.Expressions
import TinyBasic.Proofs.Translation.Arithmetic
import TinyBasic.Proofs.Translation.Conditions
import TinyBasic.Proofs.Translation.Numerals
import TinyBasic.Proofs.Source.Positions
import TinyBasic.Proofs.Source.Lines
import TinyBasic.Proofs.Source.Compact
import TinyBasic.Proofs.Token.Writing
import TinyBasic.Proofs.Token.Locations
import TinyBasic.Proofs.Translation.Ranges
import TinyBasic.Proofs.Translation.Reports
import TinyBasic.Proofs.C.Literal
import TinyBasic.Proofs.Translation.Strings
import TinyBasic.Proofs.Grammar.Parallel
import TinyBasic.Proofs.Grammar.Requests
import TinyBasic.Proofs.Translation.Termination
import TinyBasic.Proofs.Translation.Agreement
import TinyBasic.Proofs.Translation.Layout
import TinyBasic.Proofs.Translation.Lookahead
import TinyBasic.Proofs.Token.Joining
import TinyBasic.Proofs.Translation.Relocation
import TinyBasic.Proofs.Translation.Composition
import TinyBasic.Proofs.Scope.History
import TinyBasic.Proofs.Translation.Appending
import TinyBasic.Proofs.Token.Scanner
import TinyBasic.Proofs.Token.Resuming
import TinyBasic.Proofs.Translation.Values
import TinyBasic.Proofs.Text.Unescape
import TinyBasic.Proofs.Command.Listing
import TinyBasic.Proofs.Command.Verbosity
import TinyBasic.Proofs.Token.Line
import TinyBasic.Proofs.Translation.Invariants
import TinyBasic.Proofs.Translation.Rows
import TinyBasic.Proofs.Translation.Trace
import TinyBasic.Proofs.Translation.Compact
