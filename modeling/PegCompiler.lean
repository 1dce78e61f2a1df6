import PegCompiler.Analysis.Bounds
import PegCompiler.Analysis.Consumption
import PegCompiler.Analysis.EmptyRepetition
import PegCompiler.Analysis.Labels
import PegCompiler.Analysis.LeftRecursion
import PegCompiler.Analysis.Matching
import PegCompiler.Analysis.References
import PegCompiler.CharClass
import PegCompiler.Cli.Arguments
import PegCompiler.Cli.Files
import PegCompiler.Cli.Run
import PegCompiler.Code.Assembly
import PegCompiler.Code.Constants
import PegCompiler.Code.Instr
import PegCompiler.Code.Listing
import PegCompiler.Code.OfExpr
import PegCompiler.Code.Words
import PegCompiler.Compilation
import PegCompiler.Diagnostic
import PegCompiler.Emit.CodeWriter
import PegCompiler.Emit.RuleBody
import PegCompiler.Emit.Source
import PegCompiler.Emit.SourceMap
import PegCompiler.Emit.Statement
import PegCompiler.Expectation
import PegCompiler.Grammar.Basic
import PegCompiler.Grammar.Build
import PegCompiler.Grammar.Draft
import PegCompiler.Grammar.DraftJson
import PegCompiler.Grammar.Printer
import PegCompiler.Grammar.Proxy
import PegCompiler.Grammar.Traversal
import PegCompiler.Json.Basic
import PegCompiler.Json.Magnitude
import PegCompiler.Json.Nesting
import PegCompiler.Json.Printer
import PegCompiler.Json.Reader
import PegCompiler.Machine.Host
import PegCompiler.Machine.HostTerm
import PegCompiler.Machine.Parser
import PegCompiler.Machine.Run
import PegCompiler.Machine.State
import PegCompiler.Machine.Trace
import PegCompiler.Main
import PegCompiler.Options
import PegCompiler.Proofs.Analysis.Matching
import PegCompiler.Proofs.Code.Assembly
import PegCompiler.Proofs.Code.OfExpr
import PegCompiler.Proofs.Code.Words
import PegCompiler.Proofs.Grammar.Basic
import PegCompiler.Proofs.Grammar.Build
import PegCompiler.Proofs.Grammar.Numbering
import PegCompiler.Proofs.Machine.Exec
import PegCompiler.Proofs.Machine.Yields
import PegCompiler.Proofs.Meaning.Basic
import PegCompiler.Proofs.Meaning.Ends
import PegCompiler.Proofs.Meaning.Matching
import PegCompiler.Proofs.Meaning.OfCode
import PegCompiler.Proofs.Stateful
import PegCompiler.Samples
import PegCompiler.Text.Case
import PegCompiler.Text.Decimal
import PegCompiler.Text.Input
import PegCompiler.Text.LineIndex
import PegCompiler.Text.Lines
import PegCompiler.Text.Position
import PegCompiler.Text.Quoted
import PegCompiler.Text.Span
import PegCompiler.Text.Unicode.Blank
import PegCompiler.Text.Unicode.CaseTable
import PegCompiler.Text.Unicode.CodeRanges
import PegCompiler.Text.Unicode.Printable
import PegCompiler.Value
import PegCompiler.Proofs.Grammar.Proxy
import PegCompiler.Proofs.Machine.Linking
import PegCompiler.Proofs.Compilation
import PegCompiler.Proofs.Machine.Parser
import PegCompiler.Proofs.MatchResults
import PegCompiler.Proofs.Text.Input
import PegCompiler.Proofs.Semantics.Basic
import PegCompiler.Proofs.Meaning.Pruning
import PegCompiler.Proofs.Semantics.Acts
import PegCompiler.Proofs.Semantics.Sound
import PegCompiler.Proofs.Semantics.Complete
import PegCompiler.Proofs.Acceptance
import PegCompiler.Proofs.Faithful
import PegCompiler.Proofs.Analysis.Consumption
import PegCompiler.Proofs.Analysis.LeftRecursion
import PegCompiler.Proofs.Analysis.Progress
import PegCompiler.Proofs.Termination.Advances
import PegCompiler.Proofs.Termination.Halts
import PegCompiler.Proofs.Parsers
import PegCompiler.Proofs.Terminating
import PegCompiler.Proofs.Meaning.Simulation
import PegCompiler.Proofs.Memoization
import PegCompiler.Proofs.Bypassing
import PegCompiler.Proofs.Semantics.Logs
import PegCompiler.Proofs.Semantics.Recorded
import PegCompiler.Proofs.Diagnosis
import PegCompiler.Proofs.Emit.RuleBody
import PegCompiler.Proofs.Emit.OfExpr
import PegCompiler.Proofs.Writing
import PegCompiler.Proofs.Machine.Visits
import PegCompiler.Proofs.Emit.Locals
import PegCompiler.Proofs.Emit.Running
import PegCompiler.Proofs.Emit.Verified
import PegCompiler.Proofs.Unmatched
import PegCompiler.Proofs.Meaning.Conduct
import PegCompiler.Proofs.Conduct
import PegCompiler.Proofs.Machine.Rebinding
import PegCompiler.Proofs.Ranges
import PegCompiler.Proofs.Code.Tidy
import PegCompiler.Proofs.Machine.Tidy
import PegCompiler.Proofs.Frames
import PegCompiler.Proofs.Emit.Simulation
import PegCompiler.Proofs.Emit.Methods
import PegCompiler.Proofs.WrittenParsers
import PegCompiler.Proofs.LeftRecursion
import PegCompiler.Proofs.Json.Reading
import PegCompiler.Proofs.Grammar.DraftJson
import PegCompiler.Proofs.Grammar.Links
import PegCompiler.Proofs.ProxyElimination
import PegCompiler.Proofs.Text.Lowercase
import PegCompiler.Proofs.CompiledCode
import PegCompiler.Proofs.AnyCase
import PegCompiler.Proofs.Consuming
import PegCompiler.Proofs.Machine.Meets
import PegCompiler.Proofs.Meaning.Limits
import PegCompiler.Proofs.Limits
import PegCompiler.Proofs.Analysis.Search
import PegCompiler.Proofs.Analysis.Rounds
import PegCompiler.Proofs.MatchTables
import PegCompiler.Proofs.Code.Reading
import PegCompiler.Proofs.Code.Unmapped
import PegCompiler.Proofs.Emit.Unmapped
import PegCompiler.Proofs.Machine.Unmapped
import PegCompiler.Proofs.SourceMaps
import PegCompiler.Proofs.Text.LineIndex
import PegCompiler.Proofs.Grammar.Unfolding
import PegCompiler.Proofs.Building
import PegCompiler.Proofs.Analysis.Scopes
import PegCompiler.Proofs.Code.Scopes
import PegCompiler.Proofs.Scopes
import PegCompiler.Proofs.Machine.Reports
import PegCompiler.Proofs.Machine.Untraced
import PegCompiler.Proofs.Tracing
import PegCompiler.Proofs.Emit.SourceMap
import PegCompiler.Proofs.WrittenLines
import PegCompiler.Proofs.Text.CasePairs
import PegCompiler.Proofs.ClassCase
import PegCompiler.Proofs.Text.Escaping
import PegCompiler.Proofs.ClassNotation
import PegCompiler.Proofs.Cli.Items
import PegCompiler.Proofs.CommandLine
import PegCompiler.Proofs.Spelling
import PegCompiler.Proofs.Text.Visible
import PegCompiler.Proofs.Descriptions
import PegCompiler.Proofs.Grammar.Traversal
import PegCompiler.Proofs.Answers
import PegCompiler.Proofs.Semantics.Reading
import PegCompiler.Proofs.Samples
import PegCompiler.Proofs.Text.Sums
import PegCompiler.Proofs.Sums
