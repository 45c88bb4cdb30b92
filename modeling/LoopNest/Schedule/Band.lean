import LoopNest.Polyhedron
import LoopNest.Quasi.Basic
import LoopNest.StmtMap

/-! A band is a group of loops. Each of its members has one expression for every statement that the
band schedules, and two flags that say what may be done with the loop. -/

namespace LoopNest

/-- What may be done with a loop: exchange it with its neighbours, run it in any order. -/
structure Member where
  permutable : Bool
  coincident : Bool
  deriving DecidableEq, Repr

inductive Mark where
  | tiles (label : String)
  | points (label : String)
  | simd
  deriving DecidableEq, Repr

def Mark.text : Mark → String
  | .tiles label => label ++ " - Tiles"
  | .points label => label ++ " - Points"
  | .simd => "SIMD"

inductive LoopOption where
  | standard
  | unroll
  | noUnroll
  deriving DecidableEq, Repr

structure Band where
  members : List Member
  schedule : StmtMap (List Quasi)
  marks : List Mark
  loopOption : LoopOption
  deriving DecidableEq, Repr

namespace Band

def ofSchedule (members : List Member) (schedule : StmtMap (List Quasi)) : Band :=
  ⟨members, schedule, [], .standard⟩

/-- Every member is the iterator at its position, or zero where a domain has none. -/
def identity (domains : StmtMap Polyhedron) (members : List Member) : Band :=
  ofSchedule members <| domains.map fun _ domain =>
    (List.range members.length).map fun m => .var m domain.nDim domain.nParam

def nMembers (band : Band) : Nat := band.members.length

/-- There are members, and all of them may be exchanged. -/
def isPermutable (band : Band) : Bool := !band.members.isEmpty && band.members.all (·.permutable)

def memberExpr? (band : Band) (stmt member : Nat) : Option Quasi :=
  (band.schedule.get? stmt).bind (·[member]?)

def hasMark (band : Band) (mark : Mark) : Bool := band.marks.contains mark

/-- Every statement has one expression for each member. -/
def HasArity (band : Band) : Prop :=
  ∀ e ∈ band.schedule.entries, e.2.length = band.nMembers

def pick {α : Type} (items : List α) (positions : List Nat) : Checked (List α) :=
  positions.mapM fun p =>
    match items[p]? with
    | some item => .ok item
    | none => .error .outOfBounds

def select (band : Band) (positions : List Nat) : Checked Band := do
  let members ← pick band.members positions
  let schedule ← band.schedule.traverse (pick · positions)
  return { band with members, schedule }

def restrict (band : Band) (stmts : StmtSet) : Band :=
  { band with schedule := band.schedule.filter stmts.contains }

/-- Combines an expression with each size, as far as there are both. -/
def zipSizes (f : Quasi → Int → Checked Quasi) (exprs : List Quasi) (sizes : List Int) :
    Checked (List Quasi) :=
  (exprs.zip sizes).mapM fun (e, size) => f e size

/-- The tiles of a band: the number of the tile of every member. -/
def tiles (band : Band) (sizes : List Int) : Checked Band := do
  let schedule ← band.schedule.traverse (zipSizes Quasi.floorDiv · sizes)
  return { band with schedule }

/-- The points of its tiles: the position of every member in its tile. -/
def points (band : Band) (sizes : List Int) : Checked Band := do
  let schedule ← band.schedule.traverse (zipSizes Quasi.modulo · sizes)
  return ofSchedule band.members schedule

end Band

end LoopNest
