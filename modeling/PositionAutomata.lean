import PositionAutomata.Analysis.Basic
import PositionAutomata.Analysis.Ends
import PositionAutomata.Analysis.Events
import PositionAutomata.Analysis.Follow
import PositionAutomata.Analysis.Laziness
import PositionAutomata.Analysis.Positions
import PositionAutomata.Automaton.Basic
import PositionAutomata.Automaton.Drawing
import PositionAutomata.Automaton.Matching
import PositionAutomata.Automaton.Packed
import PositionAutomata.Automaton.Reachability
import PositionAutomata.Automaton.Trace
import PositionAutomata.CaptureEvent
import PositionAutomata.Charset.Alphabet
import PositionAutomata.Charset.Basic
import PositionAutomata.Charset.Class
import PositionAutomata.Charset.Label
import PositionAutomata.Charset.Normal
import PositionAutomata.Charset.Range
import PositionAutomata.Command
import PositionAutomata.Construction.Build
import PositionAutomata.Construction.Config
import PositionAutomata.Construction.Key
import PositionAutomata.Construction.Worklist
import PositionAutomata.Diagnostic
import PositionAutomata.Document.Fault
import PositionAutomata.Document.Reader
import PositionAutomata.Document.Span
import PositionAutomata.Document.Token
import PositionAutomata.Document.Token.Lexer
import PositionAutomata.Failure
import PositionAutomata.Graph
import PositionAutomata.Index
import PositionAutomata.Main
import PositionAutomata.Proofs.Analysis.Awaiting
import PositionAutomata.Proofs.Analysis.Laziness
import PositionAutomata.Proofs.Analysis.Tables
import PositionAutomata.Proofs.Automaton.Changes
import PositionAutomata.Proofs.Automaton.Renumbering
import PositionAutomata.Proofs.Automaton.Runs
import PositionAutomata.Proofs.Automaton.Traces
import PositionAutomata.Proofs.Charset.Anchors
import PositionAutomata.Proofs.Charset.Letters
import PositionAutomata.Proofs.Charset.Normal
import PositionAutomata.Proofs.Construction.Augmenting
import PositionAutomata.Proofs.Construction.Keys
import PositionAutomata.Proofs.Construction.Recognition
import PositionAutomata.Proofs.Construction.Synthesis
import PositionAutomata.Proofs.Construction.Trimming
import PositionAutomata.Proofs.Construction.Worklist
import PositionAutomata.Proofs.Expr.Local
import PositionAutomata.Proofs.Expr.Matches
import PositionAutomata.Proofs.Expr.Rules
import PositionAutomata.Proofs.Expr.Unrolling
import PositionAutomata.Proofs.Expr.Words
import PositionAutomata.Proofs.FirstMatches
import PositionAutomata.Proofs.Graph
import PositionAutomata.Proofs.Graph.Order
import PositionAutomata.Proofs.Graph.Paths
import PositionAutomata.Proofs.Index
import PositionAutomata.Proofs.Iteration
import PositionAutomata.Proofs.Lexing
import PositionAutomata.Proofs.Recognition
import PositionAutomata.Proofs.Tree.Building
import PositionAutomata.Proofs.Tree.Unfolding
import PositionAutomata.Proofs.Trimming
import PositionAutomata.SortedSet
import PositionAutomata.Table
import PositionAutomata.Text.Category
import PositionAutomata.Text.Escape
import PositionAutomata.Text.Lines
import PositionAutomata.Tree.Basic
import PositionAutomata.Tree.Copy
import PositionAutomata.Tree.Expr
import PositionAutomata.Tree.Node
import PositionAutomata.Tree.Printer
import PositionAutomata.Proofs.Automaton.Grouping
import PositionAutomata.Proofs.Automaton.Records
import PositionAutomata.Proofs.Automaton.Packing
import PositionAutomata.Proofs.Automaton.Decoding
import PositionAutomata.Proofs.Automaton.Labels
import PositionAutomata.Proofs.RoundTrip
import PositionAutomata.Proofs.PackedArrays
import PositionAutomata.Proofs.Expr.Languages
import PositionAutomata.Proofs.Expr.Restarts
import PositionAutomata.Proofs.Construction.Looping
import PositionAutomata.Proofs.LazyLoop
import PositionAutomata.Proofs.Expr.Loosening
import PositionAutomata.Proofs.Loosening
import PositionAutomata.Proofs.Expr.Parses
import PositionAutomata.Proofs.Analysis.Events
import PositionAutomata.Proofs.Construction.States
import PositionAutomata.Proofs.Captures
import PositionAutomata.Proofs.Automaton.Words
import PositionAutomata.Proofs.Automaton.Liveness
import PositionAutomata.Proofs.Construction.Paths
import PositionAutomata.Proofs.Construction.Continuations
import PositionAutomata.Proofs.PositionPaths
import PositionAutomata.Proofs.Determinism
import PositionAutomata.Proofs.Liveness
import PositionAutomata.Proofs.Contagion
import PositionAutomata.Proofs.Histories
import PositionAutomata.Proofs.Expr.Neighbours
import PositionAutomata.Proofs.PositionWords
import PositionAutomata.Proofs.Tree.Renumbering
import PositionAutomata.Proofs.Unfoldings
import PositionAutomata.Construction.Stepwise
import PositionAutomata.Proofs.Construction.StepwiseTables
import PositionAutomata.Proofs.Construction.Stepwise
import PositionAutomata.Proofs.Failures
import PositionAutomata.Proofs.Pruning
import PositionAutomata.Proofs.Alphabets
import PositionAutomata.Proofs.Expansion
import PositionAutomata.Proofs.LongestMatches
import PositionAutomata.Proofs.ReachableParts
import PositionAutomata.Proofs.Document.Scanning
import PositionAutomata.Proofs.Progress
import PositionAutomata.Proofs.Document.Lowering
import PositionAutomata.Proofs.Document.Places
import PositionAutomata.Proofs.Concatenation
import PositionAutomata.Proofs.Document.Escapes
import PositionAutomata.Proofs.WrittenTokens
import PositionAutomata.Proofs.Charset.Canonical
import PositionAutomata.Proofs.Tree.Single
import PositionAutomata.Proofs.Document.Forms
import PositionAutomata.Proofs.Reading
import PositionAutomata.Proofs.Document.Streams
import PositionAutomata.Proofs.InputFaults
import PositionAutomata.Proofs.Document.Slices
import PositionAutomata.Proofs.TokenSpans
import PositionAutomata.Proofs.Charset.Complement
import PositionAutomata.Proofs.RecordLayout
import PositionAutomata.Proofs.Tree.Appending
import PositionAutomata.Proofs.Tree.Numbering
import PositionAutomata.Proofs.Copies
import PositionAutomata.Proofs.Highlights
import PositionAutomata.Proofs.Graph.Preorder
import PositionAutomata.Proofs.Closures
import PositionAutomata.Proofs.Construction.Groups
import PositionAutomata.Proofs.Document.Names
import PositionAutomata.Proofs.Drawing.Statements
import PositionAutomata.Proofs.Drawing.Lines
import PositionAutomata.Proofs.Drawings
