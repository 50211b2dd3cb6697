import EL.Location
import EL.Text.Blank
import EL.Text.Escape
import EL.Text.Join
import EL.Number.Basic
import EL.Number.Rounding
import EL.Number.Decimal
import EL.Number.Shortest
import EL.Number.Layout
import EL.Token.Kind
import EL.Token.Set
import EL.Token.Word
import EL.Token.Basic
import EL.Operator
import EL.Error
import EL.Lexeme
import EL.Cursor
import EL.Token.Stream
import EL.Expr.Basic
import EL.Expr.Same
import EL.Expr.Variables
import EL.Expr.Worklist
import EL.Expr.Source
import EL.Json
import EL.Expr.Description
import EL.Parser.State
import EL.Parser.Step
import EL.Parser.Ending
import EL.Parser.Run
import EL.Parser.Descent
import EL.Parser.Recorded
import EL.Session
import EL.Command.Manual
import EL.Command.Failure
import EL.Command.Check
import EL.Command.Arguments
import EL.Command.Line
import EL.Main
import EL.Proofs.Acceptance
import EL.Proofs.Grammar
import EL.Proofs.Grammar.Runs
import EL.Proofs.Grammar.Sound
import EL.Proofs.Grammar.Ambiguity
import EL.Proofs.Grammar.Language
import EL.Proofs.Chains
import EL.Proofs.Number.Scaling
import EL.Proofs.Number.Plain
import EL.Proofs.Places
import EL.Proofs.Spelling
import EL.Proofs.Printing
import EL.Proofs.Outline
import EL.Proofs.Grammar.Contexts
import EL.Proofs.Reprint
import EL.Proofs.Brackets
import EL.Proofs.Same
import EL.Proofs.RoundTrip
import EL.Proofs.Lookahead
import EL.Proofs.Passages
import EL.Proofs.Verdicts
import EL.Proofs.Lenient
import EL.Proofs.Descent
import EL.Proofs.Relocation
import EL.Proofs.Resuming
import EL.Proofs.Shapes
import EL.Proofs.Onward
import EL.Proofs.Layout
import EL.Proofs.Embedding
import EL.Proofs.Number.Literal
import EL.Proofs.Refusals
import EL.Proofs.TokenListing
import EL.Proofs.Completion
import EL.Proofs.Expectations
import EL.Proofs.Tiling
import EL.Proofs.Sessions
import EL.Proofs.Depth
import EL.Proofs.Composition
import EL.Proofs.Nesting
import EL.Proofs.Signs
import EL.Proofs.Assembly
import EL.Proofs.Branches
import EL.Proofs.Number.Written
import EL.Proofs.Json.Compact
import EL.Proofs.Json.Indented
import EL.Proofs.Description
import EL.Proofs.Leftover
import EL.Proofs.Lines
import EL.Proofs.Ranges
import EL.Proofs.Parentheses
import EL.Proofs.Entries
import EL.Proofs.Bracketed
import EL.Proofs.Number.Scanned
import EL.Proofs.Quoting
import EL.Proofs.Overwriting
import EL.Proofs.NodeLocations
import EL.Proofs.Words
import EL.Proofs.Wording
import EL.Proofs.Variables
import EL.Proofs.NameTokens
import EL.Proofs.Progress
