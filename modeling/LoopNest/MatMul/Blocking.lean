import LoopNest.Machine.Kernel
import LoopNest.MatMul.Shape
import LoopNest.Tiling.Stage

/-! The loops are put in the order reduction, rows, columns, then blocked for the caches, then for
the registers. -/

namespace LoopNest

def macroKernelLabel : String := "Macro kernel"

namespace Edit

/-- Blocks a matrix multiplication. The position of the innermost band is returned. -/
def blockMatMul (scop : Scop) (target : Option Target) (id : Nat) : Edit Nat := do
  let a ← get
  let shape ← a.matMulShape? scop id
  match shape with
  | none => refuse .matMul (.noMatMul id)
  | some shape =>
    if ((a.band? id).any (·.isPermutable)) = false then
      refuse .matMul (.fixedOrder id)
    else
      let target := target.getD .generic
      let micro ← MicroKernel.forTarget target
      let blocks ← MacroKernel.forTarget target micro
      bandPermute id shape.permutation
      let points ← tileNode macroKernelLabel [blocks.kc, blocks.mc, blocks.nc] 1 id
      registerTiling [1, micro.mr, micro.nr] 1 points

end Edit

end LoopNest
