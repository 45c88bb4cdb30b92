import LoopNest.Schedule.Edit

/-! A stage tiles a band and marks the two bands that result. A register stage also asks for the
loops over points to be unrolled. -/

namespace LoopNest

def registerTilingLabel : String := "Register tiling"

namespace Edit

def sizesFor (members : Nat) (sizes : List Int) (default : Int) : List Int :=
  (List.range members).map fun d => sizes[d]?.getD default

/-- Tiles a band whose loops may be exchanged, or that has one loop. The position of the points is
returned. -/
def tileNode (label : String) (sizes : List Int) (default : Int) (id : Nat) : Edit Nat := do
  let a ← get
  match a.band? id with
  | none => refuse .tileNode (.noBandToTile label id)
  | some band =>
    if 1 < band.nMembers ∧ band.isPermutable = false then
      refuse .tileNode (.labelledFixedOrder label id)
    else
      let sizes := sizesFor band.nMembers sizes default
      match sizes.find? (· < 1) with
      | some size => refuse .tileNode (.labelledTileSize label size)
      | none =>
        let points ← bandTile id sizes
        updateBand id fun band => { band with marks := band.marks ++ [.tiles label] }
        updateBand points fun band => { band with marks := band.marks ++ [.points label] }
        return points

def registerTiling (sizes : List Int) (default : Int) (id : Nat) : Edit Nat := do
  let points ← tileNode registerTilingLabel sizes default id
  updateBand points fun band => { band with loopOption := .unroll }
  return points

end Edit

structure TilingStage where
  label : String
  sizes : List Int
  default : Int
  register : Bool
  deriving DecidableEq, Repr

namespace TilingStage

def cache (label : String) (sizes : List Int) (default : Int) : TilingStage :=
  ⟨label, sizes, default, false⟩

def forRegisters (sizes : List Int) (default : Int) : TilingStage :=
  ⟨registerTilingLabel, sizes, default, true⟩

/-- A register stage has a label of its own. -/
def apply (stage : TilingStage) (id : Nat) : Edit Nat :=
  if stage.register then Edit.registerTiling stage.sizes stage.default id
  else Edit.tileNode stage.label stage.sizes stage.default id

end TilingStage

end LoopNest
