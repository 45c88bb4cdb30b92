import LoopNest.Affine.Text
import LoopNest.Evaluation

/-! Which array cell an instance touches: one affine subscript for each dimension of the array. -/

namespace LoopNest

structure AccessMap where
  nIn : Nat
  nParam : Nat
  outputs : List Affine
  deriving DecidableEq, Repr

namespace AccessMap

def projection (nIn nParam : Nat) (dims : List Nat) : AccessMap :=
  ⟨nIn, nParam, dims.map fun d => .var d nIn nParam⟩

def identity (nDim nParam : Nat) : AccessMap := projection nDim nParam (List.range nDim)

def nOut (m : AccessMap) : Nat := m.outputs.length

def apply (m : AccessMap) (point params : List Int) : Checked (List Int) :=
  m.outputs.mapM (·.eval point params)

/-- How far every subscript moves when one iterator grows by one. -/
def stepAlong (m : AccessMap) (dim : Nat) : List Int := m.outputs.map (·.coeff dim)

def dependsOn (m : AccessMap) (dim : Nat) : Bool := m.outputs.any (·.dependsOn dim)

def render (m : AccessMap) (names : Names) : Checked String := do
  let texts ← m.outputs.mapM (·.render names)
  return String.join (texts.map fun text => s!"[{text}]")

def renderFull (m : AccessMap) : Checked String := do
  let inputs := (List.range m.nIn).map Names.none.dim
  let outputs ← m.render ⟨inputs, []⟩
  return "\x7b " ++ listText inputs ++ " -> " ++ outputs ++ " \x7d"

end AccessMap

end LoopNest
