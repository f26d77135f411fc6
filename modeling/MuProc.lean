import MuProc.Text.ByteString
import MuProc.Text.Printable
import MuProc.Text.Quoted
import MuProc.Text.Integer
import MuProc.Text.Base64
import MuProc.Text.Decimal
import MuProc.Text.LowerCase
import MuProc.Text.Number
import MuProc.Formula.Basic
import MuProc.Formula.Ctl
import MuProc.Formula.Normal
import MuProc.Formula.Index
import MuProc.Formula.Terminal
import MuProc.Process.Step
import MuProc.Process.System
import MuProc.Process.Validity
import MuProc.Process.Graph
import MuProc.Process.Diagram
import MuProc.Transformer.Decision
import MuProc.Transformer.Package
import MuProc.Transformer.Diagram
import MuProc.Transformer.Func
import MuProc.Transformer.Basic
import MuProc.Transformer.Space
import MuProc.Transformer.Substitution
import MuProc.Transformer.Terms
import MuProc.Solver.Fault
import MuProc.Solver.Dependency
import MuProc.Solver.Equation
import MuProc.Solver.Worklist
import MuProc.Solver.Result
import MuProc.Solver.Check
import MuProc.Solver.Metrics
import MuProc.Catalog.Spec
import MuProc.Catalog.Orders
import MuProc.Catalog.Purple
import MuProc.Catalog.Stack
import MuProc.Catalog.Builtin
import MuProc.Yaml.Node
import MuProc.Yaml.Token
import MuProc.Yaml.Source
import MuProc.Yaml.Scalar
import MuProc.Yaml.BlockScalar
import MuProc.Yaml.Comment
import MuProc.Yaml.Directive
import MuProc.Yaml.Layout
import MuProc.Yaml.Timestamp
import MuProc.Yaml.Tag
import MuProc.Yaml.Tree
import MuProc.Formula.Decode
import MuProc.File.Spec
import MuProc.File.TypeError
import MuProc.File.Decoder
import MuProc.File.Record
import MuProc.File.Decode
import MuProc.File.Directory
import MuProc.File.Load
import MuProc.Command.Flag
import MuProc.Command.Suggestion
import MuProc.Command.Line
import MuProc.Command.Run
import MuProc.Command.Demo
import MuProc.Main
import MuProc.Proofs.Denotation
import MuProc.Proofs.NormalForm
import MuProc.Proofs.NodeGraphs
import MuProc.Proofs.Decisions
import MuProc.Proofs.Combination
import MuProc.Proofs.Folds
import MuProc.Proofs.Diagrams
import MuProc.Proofs.Spaces
import MuProc.Proofs.Functions
import MuProc.Proofs.Transformers
import MuProc.Proofs.Substitutions
import MuProc.Proofs.Numbering
import MuProc.Proofs.References
import MuProc.Proofs.Visits
import MuProc.Proofs.Indices
import MuProc.Proofs.Levels
import MuProc.Proofs.Expansion
import MuProc.Proofs.Dependencies
import MuProc.Proofs.Equations
import MuProc.Proofs.Iteration
import MuProc.Proofs.Sweeps
import MuProc.Proofs.Solutions
import MuProc.Proofs.Terminals
import MuProc.Proofs.Totality
import MuProc.Proofs.Configurations
import MuProc.Proofs.Guardedness
import MuProc.Proofs.Stacks
import MuProc.Proofs.Settling
import MuProc.Proofs.Approximation
import MuProc.Proofs.Correctness
import MuProc.Proofs.Variables
import MuProc.Proofs.Branching
import MuProc.Proofs.ByteStrings
import MuProc.Proofs.Acceptance
import MuProc.Proofs.Layouts
import MuProc.Proofs.Verdicts
import MuProc.Proofs.Negation
import MuProc.Proofs.Simulations
import MuProc.Proofs.Weakening
import MuProc.Proofs.Agreement
import MuProc.Proofs.Locality
import MuProc.Proofs.Alternation
import MuProc.Proofs.Softening
import MuProc.Proofs.Canonicity
import MuProc.Proofs.Composition
import MuProc.Proofs.Cycles
import MuProc.Proofs.Polarities
import MuProc.Proofs.PostOrder
import MuProc.Proofs.Lanes
import MuProc.Proofs.ReadBack
import MuProc.Proofs.PathFormulas
import MuProc.Proofs.DeadStates
import MuProc.Proofs.Effort
import MuProc.Proofs.Encoding
import MuProc.Proofs.Aliases
import MuProc.Proofs.AliasKeys
import MuProc.Proofs.ModelFiles
import MuProc.Proofs.StateNames
import MuProc.Proofs.Quoting
import MuProc.Proofs.Readers
import MuProc.Proofs.UniqueReading
import MuProc.Proofs.LoopHeads
import MuProc.Proofs.PlainBlock
