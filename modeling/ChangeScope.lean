import ChangeScope.Abort
import ChangeScope.Binary64
import ChangeScope.Binary64.Decimal
import ChangeScope.Binary64.Shortest
import ChangeScope.Call.Argument
import ChangeScope.Call.Candidate
import ChangeScope.Call.Lexeme
import ChangeScope.Call.Site
import ChangeScope.CallGraph
import ChangeScope.CallGraph.Cycle
import ChangeScope.Change
import ChangeScope.Change.Analysis
import ChangeScope.CommandLine
import ChangeScope.CommandLine.Command
import ChangeScope.CommandLine.Options
import ChangeScope.Failure
import ChangeScope.FileTree
import ChangeScope.FunctionDef
import ChangeScope.FunctionId
import ChangeScope.Git
import ChangeScope.Import
import ChangeScope.Json
import ChangeScope.Json.Decode
import ChangeScope.Json.Fault
import ChangeScope.Json.Number
import ChangeScope.Json.Printer
import ChangeScope.Json.Spot
import ChangeScope.Json.Tagged
import ChangeScope.Json.Tree
import ChangeScope.Main
import ChangeScope.Ordered
import ChangeScope.Patch
import ChangeScope.Patch.Hunk
import ChangeScope.Patch.Signature
import ChangeScope.Path
import ChangeScope.Proofs.Binary64.Nearest
import ChangeScope.Proofs.Binary64.Shortest
import ChangeScope.Proofs.Binary64.Written
import ChangeScope.Proofs.Call.Alike
import ChangeScope.Proofs.Call.Binding
import ChangeScope.Proofs.Call.Boundary
import ChangeScope.Proofs.Call.Comma
import ChangeScope.Proofs.Call.Content
import ChangeScope.Proofs.Call.Covering
import ChangeScope.Proofs.Call.Definition
import ChangeScope.Proofs.Call.Geometry
import ChangeScope.Proofs.Call.Idempotent
import ChangeScope.Proofs.Call.Lexing
import ChangeScope.Proofs.Call.Numeral
import ChangeScope.Proofs.Call.Octets
import ChangeScope.Proofs.Call.Piece
import ChangeScope.Proofs.Call.Place
import ChangeScope.Proofs.Call.Qualifier
import ChangeScope.Proofs.Call.Region
import ChangeScope.Proofs.Call.Rendering
import ChangeScope.Proofs.Call.Reread
import ChangeScope.Proofs.Call.Resolution
import ChangeScope.Proofs.Call.Rewording
import ChangeScope.Proofs.Call.Separation
import ChangeScope.Proofs.Call.Splitting
import ChangeScope.Proofs.Call.Target
import ChangeScope.Proofs.Call.Value
import ChangeScope.Proofs.Call.Walk
import ChangeScope.Proofs.CallGraph.Adding
import ChangeScope.Proofs.CallGraph.Callers
import ChangeScope.Proofs.CallGraph.Cycle
import ChangeScope.Proofs.CallGraph.Discovery
import ChangeScope.Proofs.CallGraph.Edges
import ChangeScope.Proofs.CallGraph.Linking
import ChangeScope.Proofs.CallGraph.Reordering
import ChangeScope.Proofs.CallGraph.Round
import ChangeScope.Proofs.Change.Isolation
import ChangeScope.Proofs.Change.Part
import ChangeScope.Proofs.Change.Told
import ChangeScope.Proofs.FileTree
import ChangeScope.Proofs.FileTree.Ways
import ChangeScope.Proofs.FileTree.Writing
import ChangeScope.Proofs.FunctionId
import ChangeScope.Proofs.Import
import ChangeScope.Proofs.Import.Inside
import ChangeScope.Proofs.Import.Location
import ChangeScope.Proofs.Import.ModuleName
import ChangeScope.Proofs.Json.Decode
import ChangeScope.Proofs.Json.Indented
import ChangeScope.Proofs.Json.Spelling
import ChangeScope.Proofs.Json.Spot
import ChangeScope.Proofs.Json.Tagged
import ChangeScope.Proofs.Json.Value
import ChangeScope.Proofs.Json.Written
import ChangeScope.Proofs.Ordered
import ChangeScope.Proofs.Patch.Cosmetic
import ChangeScope.Proofs.Patch.Declared
import ChangeScope.Proofs.Patch.Filtering
import ChangeScope.Proofs.Patch.Name
import ChangeScope.Proofs.Patch.Naming
import ChangeScope.Proofs.Patch.Reading
import ChangeScope.Proofs.Patch.Written
import ChangeScope.Proofs.Path
import ChangeScope.Proofs.Path.Building
import ChangeScope.Proofs.Path.Tidy
import ChangeScope.Proofs.Python.Definition
import ChangeScope.Proofs.Python.ImportLayout
import ChangeScope.Proofs.Python.ImportLine
import ChangeScope.Proofs.Python.ImportModule
import ChangeScope.Proofs.Python.ImportParts
import ChangeScope.Proofs.Python.ImportReading
import ChangeScope.Proofs.Python.Statements
import ChangeScope.Proofs.Result
import ChangeScope.Proofs.Service
import ChangeScope.Proofs.Settings
import ChangeScope.Proofs.Snapshot.Replacing
import ChangeScope.Proofs.Snapshot.Whole
import ChangeScope.Proofs.Source
import ChangeScope.Proofs.Syntax
import ChangeScope.Proofs.Text
import ChangeScope.Proofs.Text.BegunRow
import ChangeScope.Proofs.Text.Digits
import ChangeScope.Proofs.Text.Fields
import ChangeScope.Proofs.Text.Identifier
import ChangeScope.Proofs.Text.Lines
import ChangeScope.Proofs.Text.Similarity
import ChangeScope.Proofs.Text.Trim
import ChangeScope.Proofs.Text.Utf8
import ChangeScope.Proofs.Text.Words
import ChangeScope.Proofs.Toml.Document
import ChangeScope.Proofs.Toml.Quoted
import ChangeScope.Proofs.Toml.Scalar
import ChangeScope.Proofs.Toml.Value
import ChangeScope.Proofs.Trace.Eviction
import ChangeScope.Proofs.Trace.Kept
import ChangeScope.Proofs.Trace.Key
import ChangeScope.Proofs.Trace.Locals
import ChangeScope.Proofs.Trace.Log
import ChangeScope.Proofs.Trace.Replay
import ChangeScope.Proofs.Trace.Separation
import ChangeScope.Proofs.Trace.Stream
import ChangeScope.Proofs.Trace.Wire
import ChangeScope.Proofs.Workspace
import ChangeScope.Python.Block
import ChangeScope.Python.Extract
import ChangeScope.Python.Grammar
import ChangeScope.Python.ImportText
import ChangeScope.Python.Line
import ChangeScope.Python.Peg
import ChangeScope.Python.Token
import ChangeScope.Python.Tree
import ChangeScope.Qualified
import ChangeScope.Report
import ChangeScope.Service
import ChangeScope.Settings
import ChangeScope.Settings.File
import ChangeScope.Snapshot
import ChangeScope.Source
import ChangeScope.Surroundings
import ChangeScope.Syntax
import ChangeScope.Text
import ChangeScope.Text.Letter
import ChangeScope.Text.Quoted
import ChangeScope.Text.Ranges
import ChangeScope.Text.Similarity
import ChangeScope.Text.Utf8
import ChangeScope.Toml
import ChangeScope.Toml.Document
import ChangeScope.Toml.Draft
import ChangeScope.Toml.Printer
import ChangeScope.Toml.Quoted
import ChangeScope.Toml.Scalar
import ChangeScope.Trace.Arguments
import ChangeScope.Trace.Event
import ChangeScope.Trace.Message
import ChangeScope.Trace.Runtime
import ChangeScope.Trace.Session
import ChangeScope.Trace.Tracer
import ChangeScope.Workspace
