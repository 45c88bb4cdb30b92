import LoopNest.AccessMap
import LoopNest.Schedule.Tree

/-! Statements with their domains and the array cells they touch, and the schedule in which they
run. -/

namespace LoopNest

inductive AccessKind where
  | read
  | write
  deriving DecidableEq, Repr

structure Access where
  array : String
  kind : AccessKind
  relation : AccessMap
  deriving DecidableEq, Repr

namespace Access

def isRead (access : Access) : Bool := access.kind = .read

def isWrite (access : Access) : Bool := access.kind = .write

end Access

structure Statement where
  id : Nat
  name : String
  iterators : List String
  domain : Polyhedron
  /-- In the order in which they happen. -/
  accesses : List Access
  deriving DecidableEq, Repr

def Statement.depth (s : Statement) : Nat := s.domain.nDim

structure Scop where
  name : String
  parameters : List String
  /-- What is known of the parameters. -/
  context : Polyhedron
  statements : List Statement
  schedule : Arena
  deriving DecidableEq, Repr

namespace Scop

def statement? (scop : Scop) (id : Nat) : Option Statement := scop.statements.find? (·.id = id)

def nParam (scop : Scop) : Nat := scop.parameters.length

end Scop

/-- The domains of statements; the last one counts if two have the same number. -/
def domainsOf (statements : List Statement) : StmtMap Polyhedron :=
  .ofList (statements.map fun s => (s.id, s.domain))

end LoopNest
