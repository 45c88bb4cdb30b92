import LoopNest.Evaluation
import LoopNest.Schedule.Arena

/-! An edit is refused if the node it is asked for does not exist or does not have the shape that
the edit needs. -/

namespace LoopNest

inductive Operation where
  | insertAbove
  | bandSplit
  | bandTile
  | bandPermute
  | bandSink
  | insertSequence
  | copySubtree
  | child
  | tileNode
  | prevectorize
  | isolate
  | matMul
  deriving DecidableEq, Repr

def Operation.name : Operation → String
  | .insertAbove => "insert_above"
  | .bandSplit => "band_split"
  | .bandTile => "band_tile"
  | .bandPermute => "band_permute"
  | .bandSink => "band_sink"
  | .insertSequence => "insert_sequence"
  | .copySubtree => "copy_subtree"
  | .child => "child"
  | .tileNode => "tile_node"
  | .prevectorize => "prevect_sched_band"
  | .isolate => "isolate_full_partial_tiles"
  | .matMul => "optimize_matmul_pattern"

inductive Cause where
  | noNode (id : Nat)
  | noChild (id position : Nat)
  | childCount (id count : Nat)
  | otherKind (id : Nat) (kind : NodeKind)
  | noBand (id : Nat)
  | noBandToTile (label : String) (id : Nat)
  | splitPosition (members position : Nat)
  | memberPosition (members position : Nat)
  | sizeCount (sizes members : Nat)
  | noPermutation (positions : List Nat) (members : Nat)
  | tileSize (size : Int)
  | labelledTileSize (label : String) (size : Int)
  | vectorWidth (width : Int)
  | fixedOrder (id : Nat)
  | labelledFixedOrder (label : String) (id : Nat)
  | tileChildCount (id count : Nat)
  | childNoBand (child id : Nat)
  | memberCounts (tiles points : Nat)
  | unreachable (id : Nat)
  | noMatMul (id : Nat)
  deriving DecidableEq, Repr

inductive CauseClass where
  | notABand
  | dimensionOutOfRange
  | invalidTileSize
  | notPermutable
  | patternMismatch
  | invalidNode
  deriving DecidableEq, Repr

namespace Cause

def toClass : Cause → CauseClass
  | noNode _ | noChild .. | childCount .. => .invalidNode
  | otherKind .. | noBand _ | noBandToTile .. => .notABand
  | splitPosition .. | memberPosition .. | sizeCount .. | noPermutation .. => .dimensionOutOfRange
  | tileSize _ | labelledTileSize .. | vectorWidth _ => .invalidTileSize
  | fixedOrder _ | labelledFixedOrder .. => .notPermutable
  | tileChildCount .. | childNoBand .. | memberCounts .. | unreachable _ | noMatMul _ =>
    .patternMismatch

def message : Cause → String
  | noNode id => "node " ++ nodeLabel id ++ " does not exist"
  | noChild id position => "node " ++ nodeLabel id ++ s!" has no child {position}"
  | childCount id count => "band " ++ nodeLabel id ++ s!" has {count} children"
  | otherKind id kind =>
    "expected a band at " ++ nodeLabel id ++ ", found a " ++ kind.name ++ " node"
  | noBand id => "node " ++ nodeLabel id ++ " is not a band"
  | noBandToTile label id => label ++ " applied to a non-band node " ++ nodeLabel id
  | splitPosition members position => s!"cannot split a band of {members} members at {position}"
  | memberPosition members position =>
    s!"member {position} out of range for a band of {members} members"
  | sizeCount sizes members => s!"{sizes} tile sizes for a band of {members} members"
  | noPermutation positions members =>
    listText (positions.map toString) ++ s!" is not a permutation of {members} members"
  | tileSize size => s!"tile size {size} is not positive"
  | labelledTileSize label size => label ++ s!": tile size {size} is not positive"
  | vectorWidth width => s!"vector width {width} is not positive"
  | fixedOrder id => "band " ++ nodeLabel id ++ " is not permutable"
  | labelledFixedOrder label id => label ++ ": band " ++ nodeLabel id ++ " is not permutable"
  | tileChildCount id count => "tile band " ++ nodeLabel id ++ s!" has {count} children"
  | childNoBand child id =>
    "child " ++ nodeLabel child ++ " of tile band " ++ nodeLabel id ++ " is not a band"
  | memberCounts tiles points =>
    s!"expected one-member tile and point bands, found {tiles} and {points}"
  | unreachable id => "band " ++ nodeLabel id ++ " is not reachable from the root"
  | noMatMul id => "band " ++ nodeLabel id ++ " is not a matrix multiplication"

end Cause

structure Refusal where
  operation : Operation
  cause : Cause
  deriving DecidableEq, Repr

def Refusal.message (r : Refusal) : String := r.cause.message ++ " in " ++ r.operation.name

end LoopNest
