import LoopNest.Schedule.Edit

/-! When a loop is tiled by a vector width, the tiles that lie within the domain can do without
bound checks. A guard tells them apart. It looks at both ends of the aligned block of values that
one iterator takes in a tile, so it is the same for all instances of the tile. -/

namespace LoopNest

/-- The number of the last iterator that `e` contains once outside its floors. -/
def Quasi.leadingDim? (e : Quasi) (nDim : Nat) : Option Nat :=
  (List.range nDim).reverse.find? fun d => e.base.coeff d = 1

/-- Everything in `e` but the iterator `dim` keeps to multiples of the width. -/
def Quasi.isAligned (e : Quasi) (dim : Nat) (width : Int) : Bool :=
  let rest := e.base.withoutDim dim
  rest.constant % width = 0 && rest.coeffs.all (· % width = 0) &&
    rest.paramCoeffs.all (· % width = 0) && e.terms.all alignedTerm
where
  /-- A floor that contains the iterator steps at block boundaries only. -/
  alignedTerm (t : FloorTerm) : Bool :=
    t.coeff % width = 0 && (!t.numerator.dependsOn dim ||
      match t.numerator.affine? with
      | none => false
      | some n =>
        let offset := n.withoutDim dim
        n.coeff dim = 1 && offset.isConstant && offset.constant % width = 0 &&
          t.denominator % width = 0)

/-- The iterator that runs through one aligned block of values while `e` runs through a tile. -/
def Quasi.blockDim? (e : Quasi) (nDim : Nat) (width : Int) : Option Nat :=
  (e.leadingDim? nDim).filter fun dim => e.isAligned dim width

namespace Arena

def bandExprs (a : Arena) (ids : List Nat) (stmt : Nat) : List Quasi :=
  ids.flatMap fun id => ((a.band? id).bind (·.schedule.get? stmt)).getD []

def isCoupled (exprs : List Quasi) (nDim dim : Nat) : Bool :=
  exprs.any fun e => e.dependsOn dim && (List.range nDim).any fun d => d ≠ dim && e.dependsOn d

/-- The bands above determine an iterator on its own, and no band below depends on it. -/
def isFixed (above below : List Quasi) (nDim dim : Nat) : Bool :=
  above.any (·.dependsOn dim) && !isCoupled above nDim dim && !below.any (·.dependsOn dim)

end Arena

namespace FullTile

def blockEnds (dim : Nat) (width : Int) (nDim nParam : Nat) : Checked (List Quasi) := do
  let x := Quasi.var dim nDim nParam
  let offset ← x.modulo width
  let start ← x.sub offset
  let last ← Word.sub width 1
  [0, last].mapM fun delta => start.add (.const delta nDim nParam)

/-- The constraints on an iterator at both ends of its block. There is no guard if a constraint that
contains the iterator contains another that is not fixed. -/
def guardFrom (fixed : Nat → Bool) (nDim dim : Nat) (ends : List Quasi) :
    List Affine → Checked (Option Guard)
  | [] => .ok (some [])
  | c :: cs =>
    if !c.dependsOn dim then guardFrom fixed nDim dim ends cs
    else if !(List.range nDim).all fun d => !c.dependsOn d || fixed d then .ok none
    else do
      let here ← ends.mapM fun value => (Quasi.affine c).subst dim value
      let rest ← guardFrom fixed nDim dim ends cs
      return rest.map (here ++ ·)

/-- The guard of the full tiles of one statement, if it has full tiles. The iterator `dim` runs
through a block in each tile of the loop over `e`. -/
def guardOf (domain : Polyhedron) (e : Quasi) (dim : Nat) (above below : List Quasi) (width : Int) :
    Checked (Option Guard) :=
  let fixed (d : Nat) : Bool := d = dim || Arena.isFixed above below domain.nDim d
  if (List.range domain.nDim).all fun d => !e.dependsOn d || fixed d then do
    let ends ← blockEnds dim width domain.nDim domain.nParam
    let constraints ← domain.inequalities
    guardFrom fixed domain.nDim dim ends constraints
  else
    .ok none

end FullTile

namespace Arena

/-- The guard of a statement below a tile band, which is the end of `path`, and its point band. -/
def fullTileGuard (a : Arena) (path : List Nat) (points stmt : Nat) (width : Int) :
    Checked (Option Guard) :=
  let expr? (id : Nat) : Option Quasi := (a.band? id).bind (·.memberExpr? stmt 0)
  match a.domains?.bind (·.get? stmt), path.getLast?.bind expr?, expr? points with
  | some domain, some tile, some point => do
    let whole ← tile.scale width
    let e ← whole.add point
    match e.blockDim? domain.nDim width with
    | none => return none
    | some dim =>
      let below := (a.subtree points).drop 1
      FullTile.guardOf domain e dim (a.bandExprs path stmt) (a.bandExprs below stmt) width
  | _, _, _ => .ok none

def isIsolation (a : Arena) (id : Nat) : Bool :=
  a.kind? id = some .sequence && (a.children id).all fun child =>
    match a.kind? child with
    | some (.filter (.tiles _)) => true
    | _ => false

end Arena

namespace Edit

/-- Puts the full and the partial tiles of a loop over tiles of a given width into separate
branches, if one statement alone is scheduled there and has full tiles. The positions of the loops
over points are returned. -/
def isolate (id : Nat) (width : Int) : Edit (List Nat) := do
  let a ← get
  match a.band? id with
  | none => refuse .isolate (.noBand id)
  | some tiles =>
    match a.children id with
    | [child] =>
      match a.band? child with
      | none => refuse .isolate (.childNoBand child id)
      | some points =>
        if tiles.nMembers ≠ 1 ∨ points.nMembers ≠ 1 then
          refuse .isolate (.memberCounts tiles.nMembers points.nMembers)
        else if width < 1 then
          refuse .isolate (.vectorWidth width)
        else match (a.reaching id).keys with
          | [stmt] =>
            match a.pathTo? id with
            | none => refuse .isolate (.unreachable id)
            | some path =>
              let guard ← a.fullTileGuard path child stmt width
              if guard.isNone then
                return [child]
              else
                let guards := StmtMap.ofList [(stmt, guard)]
                insertSequence child
                  [.tiles ⟨.full, width, guards⟩, .tiles ⟨.partly, width, guards⟩]
          | _ => return [child]
    | children => refuse .isolate (.tileChildCount id children.length)

end Edit

end LoopNest
