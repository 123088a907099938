import MessageKeys.Assoc
import MessageKeys.Check.Config
import MessageKeys.Check.Report
import MessageKeys.Command.Arguments
import MessageKeys.Command.Run
import MessageKeys.Files.FileSystem
import MessageKeys.Files.Path
import MessageKeys.Files.PathBytes
import MessageKeys.Files.PathName
import MessageKeys.Files.Snapshot
import MessageKeys.Files.Wildcard
import MessageKeys.Json.Basic
import MessageKeys.Json.Reader
import MessageKeys.Json.Writer
import MessageKeys.Lint.Level
import MessageKeys.Lint.Options
import MessageKeys.Lint.Rule
import MessageKeys.Lint.Run
import MessageKeys.Main
import MessageKeys.Messages.Cache
import MessageKeys.Messages.Document
import MessageKeys.Messages.Key
import MessageKeys.Messages.KeySet
import MessageKeys.Messages.Locale
import MessageKeys.Messages.Pruning
import MessageKeys.Messages.Reconciliation
import MessageKeys.Messages.Store
import MessageKeys.Number.Binary64
import MessageKeys.Number.Decimal
import MessageKeys.Number.Shortest
import MessageKeys.Project.Basic
import MessageKeys.Project.Sources
import MessageKeys.Proofs.Assoc
import MessageKeys.Proofs.Files.Outline
import MessageKeys.Proofs.Files.Snapshots
import MessageKeys.Proofs.Files.Walking
import MessageKeys.Proofs.Files.WellFormed
import MessageKeys.Proofs.Json.CodePoints
import MessageKeys.Proofs.Json.RoundTrip
import MessageKeys.Proofs.Json.Tokens
import MessageKeys.Proofs.Messages.Addresses
import MessageKeys.Proofs.Messages.Isolation
import MessageKeys.Proofs.Messages.Pruning
import MessageKeys.Proofs.Messages.Storage
import MessageKeys.Proofs.Messages.Survival
import MessageKeys.Proofs.Messages.Terminals
import MessageKeys.Proofs.Messages.Transparency
import MessageKeys.Proofs.Number.Rounding
import MessageKeys.Proofs.Number.Shortest
import MessageKeys.Proofs.Project.Coherence
import MessageKeys.Proofs.Syntax.Declarations
import MessageKeys.Proofs.Syntax.References
import MessageKeys.Proofs.Text.Utf8
import MessageKeys.Proofs.Usage.Forwarding
import MessageKeys.Proofs.Usage.Order
import MessageKeys.Proofs.Usage.Reachability
import MessageKeys.Proofs.Usage.Sessions
import MessageKeys.Proofs.Usage.Worklist
import MessageKeys.Report.Diagnostic
import MessageKeys.Report.Format
import MessageKeys.Report.Notice
import MessageKeys.Syntax.Cursor
import MessageKeys.Syntax.Kind
import MessageKeys.Syntax.Literal
import MessageKeys.Syntax.Module
import MessageKeys.Syntax.Node
import MessageKeys.Syntax.Pattern
import MessageKeys.Syntax.Scope
import MessageKeys.Syntax.Span
import MessageKeys.Text.Basic
import MessageKeys.Text.Digit
import MessageKeys.Text.Printable
import MessageKeys.Text.Quoted
import MessageKeys.Text.Utf8
import MessageKeys.Usage.Callee
import MessageKeys.Usage.Reference
import MessageKeys.Usage.Resolution
import MessageKeys.Usage.Trace
import MessageKeys.Proofs.Messages.Idempotence
import MessageKeys.Proofs.Files.Writing
import MessageKeys.Proofs.Json.Limits
import MessageKeys.Proofs.Messages.RoundTrip
import MessageKeys.Proofs.Check.Source
import MessageKeys.Proofs.Check.Modes
import MessageKeys.Proofs.Files.Patterns
import MessageKeys.Proofs.Check.Convergence
import MessageKeys.Project.Workspace
import MessageKeys.Proofs.Project.Requests
import MessageKeys.Proofs.Usage.Resuming
import MessageKeys.Proofs.Usage.Irrelevance
import MessageKeys.Proofs.Lint.MissingKeys
import MessageKeys.Proofs.Messages.Erasure
import MessageKeys.Proofs.Usage.Termination
import MessageKeys.Proofs.Usage.DepthFirst
import MessageKeys.Proofs.Usage.Namespaces
import MessageKeys.Proofs.Syntax.Shadowing
import MessageKeys.Proofs.Usage.Uniqueness
import MessageKeys.Proofs.Syntax.Spelling
import MessageKeys.Proofs.Syntax.TopLevel
import MessageKeys.Proofs.Usage.Callees
import MessageKeys.Proofs.Usage.Exports
import MessageKeys.Proofs.Usage.HookNames
import MessageKeys.Proofs.Files.NormalForms
import MessageKeys.Proofs.Project.Candidates
import MessageKeys.Proofs.Syntax.Hoisting
import MessageKeys.Proofs.Usage.Members
import MessageKeys.Proofs.Usage.Positions
import MessageKeys.Proofs.Lint.RuleOrder
import MessageKeys.Proofs.Json.OneLine
import MessageKeys.Proofs.Report.Lines
import MessageKeys.Proofs.Syntax.Checks
import MessageKeys.Proofs.Usage.Checks
import MessageKeys.Proofs.Usage.Spans
import MessageKeys.Proofs.Lint.Precedence
import MessageKeys.Proofs.Messages.Accounting
import MessageKeys.Proofs.Usage.Indexed
import MessageKeys.Proofs.Check.Confinement
import MessageKeys.Proofs.Json.Extension
