import LoopNest.Proofs.Guard
import LoopNest.Proofs.Optimized
import LoopNest.Proofs.Strip

/-! The guard of a statement holds at a point of the domain exactly if the domain contains all
values that the vector iterator takes in its block. Both ends of the block are among them, so a
guard that fails names a value that is missing. -/

namespace LoopNest

namespace FullTile

variable {domain : Polyhedron} {e : Quasi} {dim : Nat} {above below : List Quasi} {width : Int}
  {guard : Guard} {constraints : List Affine} {x : Iteration}

end FullTile

namespace Scop

/-- The points `0 ≤ j ≤ i < 8`. -/
def triangleDomain : Polyhedron :=
  ⟨2, 0, [.nonneg ⟨0, [0, 1], []⟩, .nonneg ⟨0, [1, -1], []⟩, .nonneg ⟨7, [-1, 0], []⟩]⟩

def triangle (outer : Quasi) : Arena :=
  ⟨#[⟨.domain (.ofList [(0, triangleDomain)]), [1]⟩,
    ⟨.band (.ofSchedule [⟨true, true⟩] (.ofList [(0, [outer])])), [2]⟩,
    ⟨.band (.ofSchedule [⟨true, true⟩] (.ofList [(0, [.affine ⟨0, [0, 1], []⟩])])), [3]⟩,
    ⟨.leaf, []⟩], 0⟩

end Scop

end LoopNest
