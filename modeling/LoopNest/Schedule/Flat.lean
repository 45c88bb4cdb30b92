import LoopNest.Schedule.Tree

/-! For each statement, the ways to the leaves that it may reach: the conditions of the tile filters
passed, and the loops and positions met. Marks and loop options do not show. -/

namespace LoopNest

/-- One entry of a time stamp as a function of the instance. -/
inductive FlatDim where
  | expr (e : Quasi)
  | position (index : Nat)
  deriving DecidableEq, Repr

structure FlatCondition where
  kind : TileKind
  width : Int
  guard : Option Guard
  deriving DecidableEq, Repr

/-- One way to a leaf. -/
structure Piece where
  conditions : List FlatCondition
  dims : List FlatDim
  deriving DecidableEq, Repr

def Piece.empty : Piece := ⟨[], []⟩

def Piece.branch (piece : Piece) (position : Nat) : Piece :=
  { piece with dims := piece.dims ++ [.position position] }

def Filter.conditions (stmt : Nat) : Filter → List FlatCondition
  | .tiles t => [⟨t.kind, t.width, t.guard? stmt⟩]
  | .statements _ => []

namespace Tree

/-- The ways down a tree, each behind the piece that leads to it. -/
def pieces (stmt : Nat) (piece : Piece) : Tree → List Piece
  | missing _ => []
  | node _ .leaf _ _ => [piece]
  | node _ (.band band) arity child =>
    let exprs := (band.schedule.get? stmt).getD []
    let piece := { piece with dims := piece.dims ++ exprs.map .expr }
    (List.finRange arity).flatMap fun i => (child i).pieces stmt piece
  | node _ (.filter filter) arity child =>
    if filter.mayPass stmt then
      let piece := { piece with conditions := piece.conditions ++ filter.conditions stmt }
      (List.finRange arity).flatMap fun i => (child i).pieces stmt piece
    else []
  | node _ .sequence arity child =>
    (List.finRange arity).flatMap fun i => (child i).pieces stmt (piece.branch i)
  | node _ .set arity child =>
    (List.finRange arity).flatMap fun i => (child i).pieces stmt (piece.branch i)
  | node _ (.domain _) arity child =>
    (List.finRange arity).flatMap fun i => (child i).pieces stmt piece

end Tree

def Arena.flatten (a : Arena) : StmtMap (List Piece) :=
  match a.domains? with
  | some domains => domains.map fun stmt _ => a.tree.pieces stmt .empty
  | none => .empty

end LoopNest
