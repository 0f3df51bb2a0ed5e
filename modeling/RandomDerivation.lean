import RandomDerivation.CommandLine.Arguments
import RandomDerivation.CommandLine.Manual
import RandomDerivation.CommandLine.Request
import RandomDerivation.CommandLine.Run
import RandomDerivation.Config.Basic
import RandomDerivation.Config.Example
import RandomDerivation.Config.Field
import RandomDerivation.Config.Producer
import RandomDerivation.Config.Slot
import RandomDerivation.Decimal.Nearest
import RandomDerivation.Decimal.Notation
import RandomDerivation.Decimal.Shortest
import RandomDerivation.Derivation.Engine
import RandomDerivation.Derivation.Generate
import RandomDerivation.Derivation.Resolution
import RandomDerivation.Document
import RandomDerivation.Fault
import RandomDerivation.FileSystem
import RandomDerivation.Generator
import RandomDerivation.Grammar.Basic
import RandomDerivation.Grammar.Builder
import RandomDerivation.Grammar.Grounding
import RandomDerivation.Json.Basic
import RandomDerivation.Json.Literal
import RandomDerivation.Json.Reader
import RandomDerivation.Json.Union
import RandomDerivation.Json.Writer
import RandomDerivation.Log
import RandomDerivation.Main
import RandomDerivation.Producer
import RandomDerivation.Proofs.Action
import RandomDerivation.Proofs.Derivation.Complete
import RandomDerivation.Proofs.Derivation.Filling
import RandomDerivation.Proofs.Derivation.Grounding
import RandomDerivation.Proofs.Derivation.Legal
import RandomDerivation.Proofs.Derivation.Levels
import RandomDerivation.Proofs.Derivation.Recursion
import RandomDerivation.Proofs.Derivation.Safety
import RandomDerivation.Proofs.Derivation.Stack
import RandomDerivation.Proofs.Grammar.Checked
import RandomDerivation.Proofs.Grammar.Grounding
import RandomDerivation.Proofs.Random.Attains
import RandomDerivation.Proofs.Random.Exhausted
import RandomDerivation.Proofs.Slot
import RandomDerivation.Proofs.Tree.Walk
import RandomDerivation.Random.Draw
import RandomDerivation.Random.Source
import RandomDerivation.Random.Twister
import RandomDerivation.Slot
import RandomDerivation.Table
import RandomDerivation.Text.Integer
import RandomDerivation.Text.LineEnd
import RandomDerivation.Text.Printable
import RandomDerivation.Text.Quoted
import RandomDerivation.Text.Utf8
import RandomDerivation.Tree.Basic
import RandomDerivation.Tree.Document
import RandomDerivation.Tree.Outline
import RandomDerivation.Proofs.Position
import RandomDerivation.Proofs.Grammar.FirstFault
import RandomDerivation.Proofs.Constraint
import RandomDerivation.Proofs.Config.Field
import RandomDerivation.Proofs.Config.Producer
import RandomDerivation.Proofs.Config.Slot
import RandomDerivation.Proofs.Json.Distinct
import RandomDerivation.Proofs.Config.Register
import RandomDerivation.Proofs.Config.References
import RandomDerivation.Proofs.Config.Parse
import RandomDerivation.Proofs.Json.Read
import RandomDerivation.Proofs.Grammar.Calls
import RandomDerivation.Proofs.Json.Writable
import RandomDerivation.Proofs.Random.Seeded
import RandomDerivation.Proofs.Random.Seeding
import RandomDerivation.Proofs.Config.Writable
import RandomDerivation.Proofs.CommandLine.Arguments
import RandomDerivation.Proofs.CommandLine.Outcome
import RandomDerivation.Proofs.FileSystem
import RandomDerivation.Proofs.CommandLine.Validate
import RandomDerivation.Proofs.CommandLine.Escapes
import RandomDerivation.Proofs.Text.Utf8
import RandomDerivation.Proofs.Json.Scalar
import RandomDerivation.Proofs.Json.RoundTrip
import RandomDerivation.Proofs.Document
import RandomDerivation.Proofs.Tree.Truncate
import RandomDerivation.Proofs.Derivation.Nesting
import RandomDerivation.Proofs.Derivation.Reachable
import RandomDerivation.Proofs.Derivation.Bound
import RandomDerivation.Proofs.Derivation.Budget
import RandomDerivation.Proofs.Tree.Family
import RandomDerivation.Proofs.Derivation.Order
import RandomDerivation.Proofs.Config.Flaw
import RandomDerivation.Proofs.Grammar.Renaming
import RandomDerivation.Proofs.Derivation.Renaming
import RandomDerivation.Proofs.Decimal.Exact
import RandomDerivation.Proofs.Random.Prefix
import RandomDerivation.Proofs.Random.Normal
import RandomDerivation.Proofs.Producer
import RandomDerivation.Proofs.Tree.Rows
import RandomDerivation.Proofs.Tree.Document
import RandomDerivation.Proofs.Text.Quoted
import RandomDerivation.Proofs.Json.Literal
import RandomDerivation.Proofs.Tree.Outline
import RandomDerivation.Proofs.Tree.Full
import RandomDerivation.Proofs.Derivation.Size
import RandomDerivation.Proofs.Derivation.Prefix
import RandomDerivation.Proofs.Random.Shares
import RandomDerivation.Proofs.Derivation.Shares
import RandomDerivation.Proofs.CommandLine.Numbers
import RandomDerivation.Proofs.CommandLine.Overrides
import RandomDerivation.Proofs.Text.Integer
import RandomDerivation.Proofs.Derivation.Routes
import RandomDerivation.Proofs.Derivation.Lookup
import RandomDerivation.Proofs.CommandLine.Interleaved
import RandomDerivation.Proofs.CommandLine.Options
