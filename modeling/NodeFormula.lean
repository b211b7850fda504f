import NodeFormula.Catalog
import NodeFormula.Catalog.Geometry
import NodeFormula.Catalog.Overload
import NodeFormula.Catalog.Shader
import NodeFormula.Catalog.Shared
import NodeFormula.CommandLine
import NodeFormula.CommandLine.Folder
import NodeFormula.CommandLine.Help
import NodeFormula.CommandLine.Options
import NodeFormula.Compilation
import NodeFormula.Component
import NodeFormula.Constant
import NodeFormula.Constant.Fold
import NodeFormula.Formula
import NodeFormula.Formula.Expression
import NodeFormula.Formula.Operator
import NodeFormula.Formula.Statement
import NodeFormula.Formula.Step
import NodeFormula.Formula.Token
import NodeFormula.Graph
import NodeFormula.Graph.Build
import NodeFormula.Graph.Csv
import NodeFormula.Graph.Drawing
import NodeFormula.Graph.Json
import NodeFormula.Graph.Layout
import NodeFormula.Graph.Machine
import NodeFormula.Json
import NodeFormula.Main
import NodeFormula.Number.Dyadic
import NodeFormula.Number.Reading
import NodeFormula.Number.Shortest
import NodeFormula.Number.Style
import NodeFormula.Number.Word
import NodeFormula.Op
import NodeFormula.Op.Input
import NodeFormula.Op.Lowering
import NodeFormula.Proofs.Checker.Expression
import NodeFormula.Proofs.Checker.Growth
import NodeFormula.Proofs.Checker.Session
import NodeFormula.Proofs.Checker.Statement
import NodeFormula.Proofs.Graph.Edit
import NodeFormula.Proofs.Graph.Feeding
import NodeFormula.Proofs.Graph.Layout
import NodeFormula.Proofs.Graph.Machine
import NodeFormula.Proofs.Parsing.Expression
import NodeFormula.Proofs.Parsing.Levels
import NodeFormula.Proofs.Parsing.Lexing
import NodeFormula.Proofs.Parsing.Printing
import NodeFormula.Proofs.Parsing.Shape
import NodeFormula.Proofs.Parsing.Statement
import NodeFormula.Proofs.Pipeline
import NodeFormula.Proofs.Running.Expression
import NodeFormula.Proofs.Running.Simulation
import NodeFormula.Proofs.Running.Statement
import NodeFormula.Proofs.Running.Steps
import NodeFormula.Proofs.Running.Widths
import NodeFormula.Proofs.Running.Zone
import NodeFormula.Proofs.Typing
import NodeFormula.Socket
import NodeFormula.Source.Cursor
import NodeFormula.Source.Excerpt
import NodeFormula.Source.Span
import NodeFormula.Table
import NodeFormula.Text.Blank
import NodeFormula.Text.Quoted
import NodeFormula.Text.Shown
import NodeFormula.Typed
import NodeFormula.Typed.Checker
import NodeFormula.Typed.Expression
import NodeFormula.Typed.Problem
import NodeFormula.Typed.Statement
import NodeFormula.Proofs.Graph.Soundness
import NodeFormula.Proofs.Zones.Entries
import NodeFormula.Proofs.Zones.Values
import NodeFormula.Proofs.Zones.Storing
import NodeFormula.Proofs.Zones.Tracing
import NodeFormula.Proofs.Zones.Entering
import NodeFormula.Proofs.Zones.Leftovers
import NodeFormula.Proofs.Zones.Carrying
import NodeFormula.Proofs.Checker.Twins
import NodeFormula.Proofs.Checker.Hygiene
import NodeFormula.Proofs.Checker.Standing
import NodeFormula.Proofs.Groups.Calls
import NodeFormula.Proofs.Groups.Order
import NodeFormula.Proofs.Groups.Renaming
import NodeFormula.Proofs.Groups.Isolation
import NodeFormula.Proofs.Graph.Appending
import NodeFormula.Proofs.Spans.Outline
import NodeFormula.Proofs.Spans.Reading
import NodeFormula.Proofs.Spans.Failing
import NodeFormula.Proofs.Spans.Checking
import NodeFormula.Proofs.Balance.Expressions
import NodeFormula.Proofs.Balance.Statements
import NodeFormula.Proofs.Balance.Neutral
import NodeFormula.Proofs.Destructuring
import NodeFormula.Proofs.Graph.CallFrame
import NodeFormula.Proofs.Graph.Wiring
import NodeFormula.Proofs.Checker.Unrolling
import NodeFormula.Proofs.FreeVariables.Checking
import NodeFormula.Proofs.FreeVariables.Lowering
import NodeFormula.Proofs.FreeVariables.Nodes
import NodeFormula.Proofs.Folding.Integers
import NodeFormula.Proofs.Folding.Nearest
import NodeFormula.Proofs.Folding.Comparisons
import NodeFormula.Proofs.Checker.Resolution
import NodeFormula.Proofs.Graph.Columns
import NodeFormula.Proofs.Graph.Grid
import NodeFormula.Proofs.Running.Replacing
import NodeFormula.Proofs.Spans.Excerpts
import NodeFormula.Proofs.Spans.Expectations
import NodeFormula.Proofs.Parsing.Progress
import NodeFormula.Proofs.Export.Csv
import NodeFormula.Proofs.Export.Shortest
import NodeFormula.Proofs.Export.Digits
import NodeFormula.Proofs.Export.JsonText
import NodeFormula.Proofs.Export.Json
