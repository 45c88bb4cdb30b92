import LoopNest.Affine.Text
import LoopNest.Quasi.Basic

/-! The affine part comes first and is left out if it is zero and floors follow. A floor is written
`floor((n)/d)`. -/

namespace LoopNest.Quasi

def renderFloors (names : Names) : Quasi → Checked String
  | affine e => if e.isZero then .ok "" else e.render names
  | plus rest c n d => do
    let text ← rest.renderFloors names
    let inner ← match n with
      | affine e => e.render names
      | plus .. => n.renderFloors names
    let term ← magnitude c s!"floor(({inner})/{d})"
    return appendSigned text (c < 0) term text.isEmpty

def render (q : Quasi) (names : Names) : Checked String :=
  match q with
  | affine e => e.render names
  | plus .. => q.renderFloors names

end LoopNest.Quasi
