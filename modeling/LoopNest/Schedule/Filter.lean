import LoopNest.Quasi.Basic
import LoopNest.StmtMap

/-! A filter lets some instances through to what lies below it: those of chosen statements, or those
in full or in partial tiles. The instances of a full tile satisfy a guard. -/

namespace LoopNest

inductive TileKind where
  | full
  | partly
  deriving DecidableEq, Repr

/-- A condition that holds where all expressions are nonnegative. -/
abbrev Guard := List Quasi

namespace Guard

def Holds (guard : Guard) (point params : List Int) : Prop :=
  ∀ e ∈ guard, 0 ≤ e.value point params

/-- Stops at the first expression that is negative. -/
def isSatisfied (point params : List Int) : Guard → Checked Bool
  | [] => .ok true
  | e :: es => do
    let value ← e.eval point params
    if 0 ≤ value then isSatisfied point params es else return false

end Guard

/-- Tiles of a width. A statement without a guard has no full tiles. -/
structure TileFilter where
  kind : TileKind
  width : Int
  guards : StmtMap (Option Guard)
  deriving DecidableEq, Repr

namespace TileFilter

def guard? (tiles : TileFilter) (stmt : Nat) : Option Guard := (tiles.guards.get? stmt).join

def inFullTile (tiles : TileFilter) (stmt : Nat) (point params : List Int) : Checked Bool :=
  match tiles.guard? stmt with
  | some guard => guard.isSatisfied point params
  | none => .ok false

end TileFilter

inductive Filter where
  | statements (stmts : StmtSet)
  | tiles (tiles : TileFilter)
  deriving DecidableEq, Repr

namespace Filter

def passes (filter : Filter) (stmt : Nat) (point params : List Int) : Checked Bool :=
  match filter with
  | statements stmts => .ok (stmts.contains stmt)
  | tiles t => do
    let full ← t.inFullTile stmt point params
    return match t.kind with
      | .full => full
      | .partly => !full

def mayPass (filter : Filter) (stmt : Nat) : Bool :=
  match filter with
  | statements stmts => stmts.contains stmt
  | tiles t =>
    match t.kind with
    | .full => (t.guard? stmt).isSome
    | .partly => true

end Filter

end LoopNest
