import LoopNest.Schedule.Arena

/-! The tree that an arena stores, unfolded from a node. Walks over schedules are recursions on this
tree. In an arena in which no node lies below itself, unfolding as many levels as there are nodes
shows everything. A child is unfolded when a walk comes to it, so a walk that stops early, or leaves
out what a filter holds back, does not meet the rest. -/

namespace LoopNest

/-- A node with the trees below it, or a reference that leads nowhere. -/
inductive Tree where
  | missing (id : Nat)
  | node (id : Nat) (kind : NodeKind) (arity : Nat) (child : Fin arity → Tree)

namespace Tree

/-- The nodes in pre-order. -/
def ids : Tree → List Nat
  | missing _ => []
  | node id _ arity child => id :: (List.finRange arity).flatMap fun i => (child i).ids

/-- The references from the top down to one, the first such way in pre-order. -/
def pathTo? (target : Nat) : Tree → Option (List Nat)
  | missing id => if id = target then some [id] else none
  | node id _ arity child =>
    if id = target then some [id]
    else ((List.finRange arity).findSome? fun i => (child i).pathTo? target).map (id :: ·)

/-- The leaves, each with those of the given statements that the filters on the way to it may let
through. -/
def leaves (stmts : StmtSet) : Tree → Checked (List (Nat × StmtSet))
  | missing _ => .error .outOfBounds
  | node id .leaf _ _ => .ok [(id, stmts)]
  | node _ (.filter filter) arity child => do
    let below ← (List.finRange arity).mapM fun i => (child i).leaves (stmts.filter filter.mayPass)
    return below.flatten
  | node _ _ arity child => do
    let below ← (List.finRange arity).mapM fun i => (child i).leaves stmts
    return below.flatten

/-- The nodes in pre-order, numbered from `next`. -/
def store (next : Nat) : Tree → Checked (List Node)
  | missing _ => .error .outOfBounds
  | node _ kind arity child => do
    let (ids, below) ← (List.finRange arity).foldlM (fun (ids, below) i => do
      let top := next + 1 + below.length
      let nodes ← (child i).store top
      return (ids ++ [top], below ++ nodes)) ([], [])
    return ⟨kind, ids⟩ :: below

end Tree

namespace Arena

def unfold (a : Arena) : Nat → Nat → Tree
  | 0, id => .missing id
  | levels + 1, id =>
    match a.node? id with
    | some node => .node id node.kind node.children.length fun i => unfold a levels node.children[i]
    | none => .missing id

def treeAt (a : Arena) (id : Nat) : Tree := a.unfold a.size id

def tree (a : Arena) : Tree := a.treeAt a.root

def subtree (a : Arena) (id : Nat) : List Nat := (a.treeAt id).ids

def bands (a : Arena) : List Nat := (a.subtree a.root).filter fun id => (a.band? id).isSome

def hasBandBelow (a : Arena) (id : Nat) : Bool :=
  ((a.subtree id).drop 1).any fun below => (a.band? below).isSome

/-- The way from the root to a node, both included. -/
def pathTo? (a : Arena) (id : Nat) : Option (List Nat) := a.tree.pathTo? id

def lets (a : Arena) (stmt id : Nat) : Bool :=
  match a.kind? id with
  | some (.filter filter) => filter.mayPass stmt
  | _ => true

def reaching (a : Arena) (id : Nat) : StmtSet :=
  match a.domains? with
  | none => .empty
  | some domains =>
    let path := (a.pathTo? id).getD []
    domains.keySet.filter fun stmt => path.all (a.lets stmt)

/-- Keeps the nodes of the tree only, numbered in pre-order. -/
def compact (a : Arena) : Checked Arena := do
  let nodes ← a.tree.store 0
  return ⟨nodes.toArray, 0⟩

def agreeAt (a b : Arena) : Nat → Nat → Nat → Bool
  | 0, _, _ => false
  | levels + 1, i, j =>
    match a.node? i, b.node? j with
    | some x, some y =>
      x.kind = y.kind && x.children.length = y.children.length &&
        (x.children.zip y.children).all fun (c, d) => agreeAt a b levels c d
    | none, none => true
    | _, _ => false

/-- The trees of two arenas agree, whatever their numbering. No descent meets the same pair of
references twice, unless it has no end. -/
def agrees (a b : Arena) : Bool :=
  agreeAt a b ((a.size + 1) * (b.size + 1) + 1) a.root b.root

end Arena

end LoopNest
