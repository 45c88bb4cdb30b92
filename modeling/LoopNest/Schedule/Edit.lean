import LoopNest.Schedule.Refusal
import LoopNest.Schedule.Tree

/-! An edit changes the tree below a node and leaves that node's position in the arena to the top of
what takes its place, so nothing above it changes. What is no longer needed stays in the arena. -/

namespace LoopNest

/-- An edit of an arena. It may fault, or be refused with the arena as it is by then. -/
abbrev Edit := ExceptT Refusal (StateT Arena Checked)

namespace Edit

def refuse {α : Type} (operation : Operation) (cause : Cause) : Edit α :=
  throw ⟨operation, cause⟩

def perform {α : Type} (edit : Edit α) (a : Arena) : Checked (Except Refusal α × Arena) :=
  StateT.run (ExceptT.run edit) a

/-- The arena after an edit, unless the edit is refused. -/
def commit {α : Type} (edit : Edit α) (a : Arena) : Checked (Except Refusal (α × Arena)) := do
  let (result, after) ← edit.perform a
  return result.map (·, after)

def nodeAt (operation : Operation) (id : Nat) : Edit Node := do
  let a ← get
  match a.node? id with
  | some node => return node
  | none => refuse operation (.noNode id)

def bandAt (operation : Operation) (id : Nat) : Edit Band := do
  let node ← nodeAt operation id
  match node.kind with
  | .band band => return band
  | kind => refuse operation (.otherKind id kind)

def push (node : Node) : Edit Nat := modifyGet fun a => (a.size, a.push node)

def setNode (id : Nat) (node : Node) : Edit Unit := modify (·.setNode id node)

def updateBand (id : Nat) (f : Band → Band) : Edit Unit := modify (·.updateBand id f)

/-- Puts a node above another. The old node moves to a new position, which is returned. -/
def insertAbove (id : Nat) (kind : NodeKind) : Edit Nat := do
  let node ← nodeAt .insertAbove id
  let moved ← push node
  setNode id ⟨kind, [moved]⟩
  return moved

/-- Puts a band at a node and another between it and what lies below. The position of the lower one
is returned. -/
def stackBands (id : Nat) (upper lower : Band) : Edit Nat := do
  let a ← get
  let position ← push ⟨.band lower, a.children id⟩
  setNode id ⟨.band upper, [position]⟩
  return position

/-- Splits a band behind `count` of its members. The position of the rest is returned. -/
def bandSplit (id count : Nat) : Edit Nat := do
  let band ← bandAt .bandSplit id
  let n := band.nMembers
  if count = 0 ∨ n ≤ count then
    refuse .bandSplit (.splitPosition n count)
  else
    let upper ← band.select (List.range count)
    let lower ← band.select (List.range' count (n - count))
    stackBands id upper { lower with marks := [] }

/-- Splits every loop of a band into a loop over tiles of the given size and a loop over the points
of a tile. The position of the points is returned. -/
def bandTile (id : Nat) (sizes : List Int) : Edit Nat := do
  let band ← bandAt .bandTile id
  if sizes.length ≠ band.nMembers then
    refuse .bandTile (.sizeCount sizes.length band.nMembers)
  else match sizes.find? (· < 1) with
    | some size => refuse .bandTile (.tileSize size)
    | none =>
      let tiles ← band.tiles sizes
      let points ← band.points sizes
      stackBands id tiles points

def isPermutation (positions : List Nat) (n : Nat) : Bool :=
  positions.length = n && positions.all (· < n) && decide positions.Nodup

/-- Reorders the members of a band: the old member `positions[i]` comes at `i`. -/
def bandPermute (id : Nat) (positions : List Nat) : Edit Unit := do
  let band ← bandAt .bandPermute id
  if isPermutation positions band.nMembers then
    let permuted ← band.select positions
    updateBand id fun _ => permuted
  else
    refuse .bandPermute (.noPermutation positions band.nMembers)

/-- Puts a band above each of the leaves that statements of it may reach, restricted to those. The
positions that it takes are returned. -/
def insertAboveLeaves (band : Band) : List (Nat × StmtSet) → Edit (List Nat)
  | [] => return []
  | (leaf, stmts) :: rest =>
    if stmts.isEmpty then insertAboveLeaves band rest
    else do
      let _ ← insertAbove leaf (.band (band.restrict stmts))
      let others ← insertAboveLeaves band rest
      return leaf :: others

/-- Moves a band down to just above the leaves below it. Its child takes its position. -/
def bandSink (id : Nat) : Edit (List Nat) := do
  let band ← bandAt .bandSink id
  let a ← get
  match a.children id with
  | [child] =>
    match a.node? child with
    | none => throwThe Fault .outOfBounds
    | some node =>
      setNode id node
      let after ← get
      let leaves ← (after.treeAt id).leaves band.schedule.keySet
      insertAboveLeaves band leaves
  | children => refuse .bandSink (.childCount id children.length)

def copyLevels : Nat → Nat → Edit Nat
  | 0, id => refuse .copySubtree (.noNode id)
  | levels + 1, id => do
    let node ← nodeAt .copySubtree id
    let children ← node.children.mapM (copyLevels levels)
    push { node with children }

def copySubtree (id : Nat) : Edit Nat := do
  let a ← get
  copyLevels a.descentLimit id

/-- A copy of the tree below a node for each filter. The positions of the filters and of the copies
are returned. -/
def copyBehind (id : Nat) : List Filter → Edit (List (Nat × Nat))
  | [] => return []
  | filter :: rest => do
    let copy ← copySubtree id
    let branch ← push ⟨.filter filter, [copy]⟩
    let others ← copyBehind id rest
    return (branch, copy) :: others

/-- Replaces a tree by a sequence of filters, each with a copy of the tree below it. The positions
of the copies are returned. -/
def insertSequence (id : Nat) (filters : List Filter) : Edit (List Nat) := do
  let _ ← nodeAt .insertSequence id
  let branches ← copyBehind id filters
  setNode id ⟨.sequence, branches.map (·.1)⟩
  return branches.map (·.2)

def compact : Edit Unit := do
  let a ← get
  let compacted ← a.compact
  set compacted

end Edit

def Arena.child (a : Arena) (id position : Nat) : Except Refusal Nat :=
  match (a.children id)[position]? with
  | some child => .ok child
  | none => .error ⟨.child, .noChild id position⟩

end LoopNest
