import ValueSyntax.Ascending
import ValueSyntax.Catalog
import ValueSyntax.CommandLine.Folder
import ValueSyntax.CommandLine.Options
import ValueSyntax.CommandLine.Report
import ValueSyntax.Definitions.Basic
import ValueSyntax.Definitions.Load
import ValueSyntax.Enumeration.Permutations
import ValueSyntax.Enumeration.Subsets
import ValueSyntax.Failure
import ValueSyntax.Json.Basic
import ValueSyntax.Json.Lexeme
import ValueSyntax.Json.Numeral
import ValueSyntax.Json.Read
import ValueSyntax.Main
import ValueSyntax.Number.Binary64
import ValueSyntax.Number.Digits
import ValueSyntax.Number.Power
import ValueSyntax.Number.Reading
import ValueSyntax.Number.Shortest
import ValueSyntax.Proofs.CommandLine.Exit
import ValueSyntax.Proofs.CommandLine.Grouping
import ValueSyntax.Proofs.CommandLine.Run
import ValueSyntax.Proofs.Definitions.Loading
import ValueSyntax.Proofs.Enumeration.Counters
import ValueSyntax.Proofs.Enumeration.Masks
import ValueSyntax.Proofs.Enumeration.Orders
import ValueSyntax.Proofs.Enumeration.Rounds
import ValueSyntax.Proofs.Enumeration.Turns
import ValueSyntax.Proofs.Number.Canonical
import ValueSyntax.Proofs.Number.Digits
import ValueSyntax.Proofs.Number.RoundTrip
import ValueSyntax.Proofs.Resolve.Afresh
import ValueSyntax.Proofs.Resolve.Approximation
import ValueSyntax.Proofs.Resolve.Blame
import ValueSyntax.Proofs.Resolve.Bookkeeping
import ValueSyntax.Proofs.Resolve.Calls
import ValueSyntax.Proofs.Resolve.Closure
import ValueSyntax.Proofs.Resolve.Consistency
import ValueSyntax.Proofs.Resolve.Declaring
import ValueSyntax.Proofs.Resolve.Ensures
import ValueSyntax.Proofs.Resolve.Enumerating
import ValueSyntax.Proofs.Resolve.Expanding
import ValueSyntax.Proofs.Resolve.Failing
import ValueSyntax.Proofs.Resolve.Fallback
import ValueSyntax.Proofs.Resolve.Faults
import ValueSyntax.Proofs.Resolve.Gathering
import ValueSyntax.Proofs.Resolve.History
import ValueSyntax.Proofs.Resolve.Kept
import ValueSyntax.Proofs.Resolve.Limits
import ValueSyntax.Proofs.Resolve.Lockstep
import ValueSyntax.Proofs.Resolve.Memory
import ValueSyntax.Proofs.Resolve.Named
import ValueSyntax.Proofs.Resolve.Nesting
import ValueSyntax.Proofs.Resolve.Normalized
import ValueSyntax.Proofs.Resolve.OperandOrder
import ValueSyntax.Proofs.Resolve.Origins
import ValueSyntax.Proofs.Resolve.Precedence
import ValueSyntax.Proofs.Resolve.Reach
import ValueSyntax.Proofs.Resolve.References
import ValueSyntax.Proofs.Resolve.Repeating
import ValueSyntax.Proofs.Resolve.Shuffling
import ValueSyntax.Proofs.Resolve.Stacking
import ValueSyntax.Proofs.Resolve.Top
import ValueSyntax.Proofs.Resolve.Values
import ValueSyntax.Proofs.Shapes.Aliases
import ValueSyntax.Proofs.Shapes.Combine
import ValueSyntax.Proofs.Shapes.Loosening
import ValueSyntax.Proofs.Shapes.Order
import ValueSyntax.Proofs.Shapes.Unions
import ValueSyntax.Proofs.Table.Index
import ValueSyntax.Proofs.Table.Inserting
import ValueSyntax.Proofs.Text.Characters
import ValueSyntax.Proofs.Text.Quoting
import ValueSyntax.Proofs.Text.Runs
import ValueSyntax.Proofs.Token.Forms
import ValueSyntax.Proofs.Token.Joining
import ValueSyntax.Proofs.Token.Layout
import ValueSyntax.Proofs.Token.Lexing
import ValueSyntax.Proofs.Token.Locality
import ValueSyntax.Proofs.Token.Pieces
import ValueSyntax.Proofs.Token.Spans
import ValueSyntax.Proofs.Tree.Ambiguity
import ValueSyntax.Proofs.Tree.Binding
import ValueSyntax.Proofs.Tree.Bounds
import ValueSyntax.Proofs.Tree.Brackets
import ValueSyntax.Proofs.Tree.Ending
import ValueSyntax.Proofs.Tree.Faults
import ValueSyntax.Proofs.Tree.Following
import ValueSyntax.Proofs.Tree.Grammar
import ValueSyntax.Proofs.Tree.Intervals
import ValueSyntax.Proofs.Tree.Layout
import ValueSyntax.Proofs.Tree.Leaves
import ValueSyntax.Proofs.Tree.Misprints
import ValueSyntax.Proofs.Tree.Names
import ValueSyntax.Proofs.Tree.Pieces
import ValueSyntax.Proofs.Tree.Proper
import ValueSyntax.Proofs.Tree.Reading
import ValueSyntax.Proofs.Tree.Recognition
import ValueSyntax.Proofs.Tree.RoundTrip
import ValueSyntax.Proofs.Tree.Same
import ValueSyntax.Proofs.Tree.Shortest
import ValueSyntax.Proofs.Tree.Stacking
import ValueSyntax.Proofs.Tree.Walk
import ValueSyntax.Proofs.Tree.Written
import ValueSyntax.Resolve.Combine
import ValueSyntax.Resolve.Evaluate
import ValueSyntax.Resolve.Expand
import ValueSyntax.Resolve.Length
import ValueSyntax.Resolve.Normalize
import ValueSyntax.Resolve.Request
import ValueSyntax.Resolve.Session
import ValueSyntax.Shape.Basic
import ValueSyntax.Shape.Builtin
import ValueSyntax.Shape.Declared
import ValueSyntax.Source
import ValueSyntax.Table
import ValueSyntax.Text.After
import ValueSyntax.Text.Blank
import ValueSyntax.Text.Quoted
import ValueSyntax.Text.Unprintable
import ValueSyntax.Token.Basic
import ValueSyntax.Token.Lexeme
import ValueSyntax.Token.Scan
import ValueSyntax.Tree.Basic
import ValueSyntax.Tree.Leaf
import ValueSyntax.Tree.Multiplied
import ValueSyntax.Tree.Parse
import ValueSyntax.Tree.Print
import ValueSyntax.Tree.Range
import ValueSyntax.Unseen
import ValueSyntax.Warning
