import LoopNest.Schedule.Band
import LoopNest.Schedule.Filter

/-! A schedule tree is stored as an array of nodes that refer to their children by position. An
arena may hold nodes that no path from the root reaches, and references to nodes that it does not
have. -/

namespace LoopNest

inductive NodeKind where
  | domain (domains : StmtMap Polyhedron)
  | band (band : Band)
  | sequence
  | set
  | filter (filter : Filter)
  | leaf
  deriving DecidableEq, Repr

def NodeKind.name : NodeKind → String
  | .domain _ => "domain"
  | .band _ => "band"
  | .sequence => "sequence"
  | .set => "set"
  | .filter _ => "filter"
  | .leaf => "leaf"

structure Node where
  kind : NodeKind
  children : List Nat
  deriving DecidableEq, Repr

structure Arena where
  nodes : Array Node
  root : Nat
  deriving DecidableEq, Repr

def nodeLabel (id : Nat) : String := s!"#{id}"

namespace Arena

def ofDomains (domains : StmtMap Polyhedron) : Arena :=
  ⟨#[⟨.domain domains, [1]⟩, ⟨.leaf, []⟩], 0⟩

def ofBand (domains : StmtMap Polyhedron) (members : List Member) : Arena :=
  ⟨#[⟨.domain domains, [1]⟩, ⟨.band (.identity domains members), [2]⟩, ⟨.leaf, []⟩], 0⟩

def size (a : Arena) : Nat := a.nodes.size

def node? (a : Arena) (id : Nat) : Option Node := a.nodes[id]?

def kind? (a : Arena) (id : Nat) : Option NodeKind := (a.node? id).map (·.kind)

def children (a : Arena) (id : Nat) : List Nat :=
  match a.node? id with
  | some node => node.children
  | none => []

def band? (a : Arena) (id : Nat) : Option Band :=
  match a.kind? id with
  | some (.band band) => some band
  | _ => none

def domains? (a : Arena) : Option (StmtMap Polyhedron) :=
  match a.kind? a.root with
  | some (.domain domains) => some domains
  | _ => none

def push (a : Arena) (node : Node) : Arena := { a with nodes := a.nodes.push node }

def setNode (a : Arena) (id : Nat) (node : Node) : Arena :=
  { a with nodes := a.nodes.setIfInBounds id node }

def updateBand (a : Arena) (id : Nat) (f : Band → Band) : Arena :=
  match a.node? id with
  | some ⟨.band band, children⟩ => a.setNode id ⟨.band (f band), children⟩
  | _ => a

/-- Takes references from a stack. None may lead out of the arena or to a node that was seen before,
so no more steps are taken than there are nodes. -/
def wellFormedFrom (a : Arena) : Nat → List Nat → List Nat → Bool
  | _, _, [] => true
  | 0, _, _ :: _ => false
  | unseen + 1, seen, id :: stack =>
    match a.node? id with
    | some node =>
      !seen.contains id && wellFormedFrom a unseen (id :: seen) (node.children ++ stack)
    | none => false

/-- Every reference that is reached from the root leads to a node, and no two lead to the same. -/
def isWellFormed (a : Arena) : Bool := a.wellFormedFrom a.size [] [a.root]

/-- Longer than any descent in an arena whose positions are words and in which no node lies below
itself. -/
def descentLimit (a : Arena) : Nat := a.size + 18446744073709551616

end Arena

end LoopNest
