import LoopNest.AccessMap
import LoopNest.Affine.Basic
import LoopNest.Affine.Text
import LoopNest.Command.Arguments
import LoopNest.Command.Files
import LoopNest.Command.Option
import LoopNest.Command.Run
import LoopNest.Constraint
import LoopNest.Evaluation
import LoopNest.Json.Expression
import LoopNest.Json.Reader
import LoopNest.Json.Schedule
import LoopNest.Json.Scop
import LoopNest.Json.Settings
import LoopNest.Json.Text
import LoopNest.Json.Token
import LoopNest.Json.Value
import LoopNest.Machine.Fraction
import LoopNest.Machine.Kernel
import LoopNest.Machine.Target
import LoopNest.Main
import LoopNest.MatMul.Blocking
import LoopNest.MatMul.Shape
import LoopNest.Optimizer.Basic
import LoopNest.Optimizer.Config
import LoopNest.Polyhedron
import LoopNest.Proofs.Algebra
import LoopNest.Proofs.Bands
import LoopNest.Proofs.Blocks
import LoopNest.Proofs.Canonical
import LoopNest.Proofs.Capacity
import LoopNest.Proofs.Comparison
import LoopNest.Proofs.Context
import LoopNest.Proofs.Copies
import LoopNest.Proofs.Coverage
import LoopNest.Proofs.Decisions
import LoopNest.Proofs.Dependence
import LoopNest.Proofs.Detection
import LoopNest.Proofs.Division
import LoopNest.Proofs.Documents
import LoopNest.Proofs.Edits
import LoopNest.Proofs.Enumeration
import LoopNest.Proofs.ExactGuards
import LoopNest.Proofs.ExecutionOrder
import LoopNest.Proofs.Failures
import LoopNest.Proofs.FullGroups
import LoopNest.Proofs.Graft
import LoopNest.Proofs.Guard
import LoopNest.Proofs.Isolation
import LoopNest.Proofs.Iterators
import LoopNest.Proofs.Kernels
import LoopNest.Proofs.Legality
import LoopNest.Proofs.Lexemes
import LoopNest.Proofs.Limits
import LoopNest.Proofs.NormalForm
import LoopNest.Proofs.Optimized
import LoopNest.Proofs.Outcome
import LoopNest.Proofs.Partition
import LoopNest.Proofs.Pieces
import LoopNest.Proofs.Preconditions
import LoopNest.Proofs.Profit
import LoopNest.Proofs.ProperWays
import LoopNest.Proofs.Readability
import LoopNest.Proofs.Readers
import LoopNest.Proofs.Recombination
import LoopNest.Proofs.Recovery
import LoopNest.Proofs.Refusals
import LoopNest.Proofs.RefusedEdits
import LoopNest.Proofs.Regrouping
import LoopNest.Proofs.Rewrite
import LoopNest.Proofs.RoundTrip
import LoopNest.Proofs.Rounding
import LoopNest.Proofs.Sessions
import LoopNest.Proofs.Sink
import LoopNest.Proofs.Spaces
import LoopNest.Proofs.Stamps
import LoopNest.Proofs.Strip
import LoopNest.Proofs.Sums
import LoopNest.Proofs.SunkBands
import LoopNest.Proofs.TightBounds
import LoopNest.Proofs.TileOrder
import LoopNest.Proofs.Trails
import LoopNest.Proofs.TreeShape
import LoopNest.Proofs.VectorLoops
import LoopNest.Proofs.Walks
import LoopNest.Proofs.Way
import LoopNest.Proofs.Yields
import LoopNest.Quasi.Basic
import LoopNest.Quasi.Text
import LoopNest.Schedule.Arena
import LoopNest.Schedule.Band
import LoopNest.Schedule.Edit
import LoopNest.Schedule.Filter
import LoopNest.Schedule.Flat
import LoopNest.Schedule.Layout
import LoopNest.Schedule.Refusal
import LoopNest.Schedule.Timestamp
import LoopNest.Schedule.Tree
import LoopNest.Scop.Basic
import LoopNest.Scop.Builder
import LoopNest.Scop.Valid
import LoopNest.StmtMap
import LoopNest.Text.Hidden
import LoopNest.Text.Mark
import LoopNest.Text.Quoted
import LoopNest.Text.Unassigned
import LoopNest.Tiling.FullTile
import LoopNest.Tiling.Stage
import LoopNest.Tiling.Vector
import LoopNest.Word
