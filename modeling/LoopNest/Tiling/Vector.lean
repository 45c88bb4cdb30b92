import LoopNest.Tiling.FullTile

/-! One loop of a band is tiled by the vector width. The loops over the points of its tiles move
down to the leaves and are marked for vector code. -/

namespace LoopNest.Edit

def markVector (band : Band) : Band :=
  { band with marks := band.marks ++ [.simd], loopOption := .noUnroll }

def sinkPoints : List Nat → Edit Unit
  | [] => return ()
  | point :: rest => do
    let sunk ← bandSink point
    sunk.forM fun id => updateBand id markVector
    sinkPoints rest

def separateMember (id member members : Nat) : Edit Nat := do
  let own ← if 0 < member then bandSplit id member else pure id
  if member + 1 < members then
    let _ ← bandSplit own 1
  return own

/-- Makes one member of a band a vector loop. The position of the loop over tiles is returned. -/
def prevectorize (id member : Nat) (width : Int) : Edit Nat := do
  let a ← get
  match a.band? id with
  | none => refuse .prevectorize (.noBand id)
  | some band =>
    let n := band.nMembers
    if n ≤ member then
      refuse .prevectorize (.memberPosition n member)
    else if width < 1 then
      refuse .prevectorize (.vectorWidth width)
    else if 1 < n ∧ band.isPermutable = false then
      refuse .prevectorize (.fixedOrder id)
    else
      let tiles ← separateMember id member n
      let _ ← bandTile tiles [width]
      let points ← isolate tiles width
      sinkPoints points
      return tiles

end LoopNest.Edit
