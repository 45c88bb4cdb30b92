import LoopNest.Constraint
import LoopNest.Evaluation

/-! A conjunction of affine constraints. Enumeration fixes the iterators one after the other; the
constraints whose last iterator is the next one bound it. -/

namespace LoopNest

/-- The integer points of dimension `nDim` at which all constraints hold. -/
structure Polyhedron where
  nDim : Nat
  nParam : Nat
  constraints : List Constraint
  deriving DecidableEq, Repr

namespace Polyhedron

def whole (nDim nParam : Nat) : Polyhedron := ⟨nDim, nParam, []⟩

def withConstraint (s : Polyhedron) (c : Constraint) : Polyhedron :=
  { s with constraints := s.constraints ++ [c] }

/-- `0 ≤ x[d] < bounds[d]`. -/
def box (bounds : List Int) : Checked Polyhedron := do
  let n := bounds.length
  let pairs ← bounds.zipIdx.mapM fun (bound, d) => do
    let lower ← Constraint.lowerBound d 0 n 0
    let upper ← Constraint.strictUpperBound d bound n 0
    return [lower, upper]
  return ⟨n, 0, pairs.flatten⟩

/-- `0 ≤ x[d] < p[indices[d]]`. -/
def paramBox (indices : List Nat) (nParam : Nat) : Checked Polyhedron := do
  let n := indices.length
  let pairs ← indices.zipIdx.mapM fun (index, d) => do
    let lower ← Constraint.lowerBound d 0 n nParam
    let upper ← Constraint.belowParam d index n nParam
    return [lower, upper]
  return ⟨n, nParam, pairs.flatten⟩

def Mem (s : Polyhedron) (point params : List Int) : Prop :=
  point.length = s.nDim ∧ ∀ c ∈ s.constraints, c.Holds point params

/-- Stops at the first constraint that fails. -/
def allSatisfied (point params : List Int) : List Constraint → Checked Bool
  | [] => .ok true
  | c :: cs => do
    let satisfied ← c.isSatisfied point params
    if satisfied then allSatisfied point params cs else return false

def contains (s : Polyhedron) (point params : List Int) : Checked Bool :=
  if point.length = s.nDim then allSatisfied point params s.constraints else .ok false

def inequalities (s : Polyhedron) : Checked (List Affine) := do
  let parts ← s.constraints.mapM Constraint.inequalities
  return parts.flatten

/-- Bounds on one iterator; an absent one is infinite. -/
structure Bounds where
  lower : Option Int
  upper : Option Int
  deriving DecidableEq, Repr

def Bounds.unlimited : Bounds := ⟨none, none⟩

def Bounds.meet (a b : Bounds) : Bounds where
  lower := Option.merge max a.lower b.lower
  upper := Option.merge min a.upper b.upper

/-- What `coeff * x + rest ≥ 0`, or `= 0`, says of `x`, if the coefficient is not zero. -/
def boundsOf (kind : Relation) (coeff rest : Int) : Checked Bounds := do
  let size ← if 0 < coeff then pure coeff else Word.neg coeff
  let limit ← if 0 < coeff then Word.neg rest else pure rest
  let lower ← if 0 < coeff ∨ kind = .equality then some <$> Word.ceilDiv limit size else pure none
  let upper ← if coeff < 0 ∨ kind = .equality then some <$> Word.floorDiv limit size else pure none
  return ⟨lower, upper⟩

/-- Narrows bounds on an iterator by the constraints that it is the last iterator of. -/
def narrowBounds (dim : Nat) (outer params : List Int) (bounds : Bounds) (c : Constraint) :
    Checked Bounds :=
  if c.lastDim? = some dim then do
    let rest ← (c.expr.withoutDim dim).eval outer params
    let own ← boundsOf c.kind (c.expr.coeff dim) rest
    return bounds.meet own
  else
    .ok bounds

def boundsAt (s : Polyhedron) (dim : Nat) (outer params : List Int) : Checked Bounds :=
  s.constraints.foldlM (narrowBounds dim outer params) .unlimited

def overRange (points : Int → Eval (List (List Int))) : Nat → Int → Eval (List (List Int))
  | 0, _ => pure []
  | count + 1, value => do
    let here ← points value
    let later ← overRange points count (value + 1)
    return here ++ later

/-- The points that start with `outer` and have `count` further entries. -/
def enumerateFrom (s : Polyhedron) (params : List Int) : Nat → List Int → Eval (List (List Int))
  | 0, outer => do
    let inside ← s.contains outer params
    return if inside then [outer] else []
  | count + 1, outer => do
    let bounds ← s.boundsAt outer.length outer params
    match bounds with
    | ⟨some lower, some upper⟩ =>
      overRange (fun value => enumerateFrom s params count (outer ++ [value]))
        (upper - lower + 1).toNat lower
    | _ => throw (.unboundedDomain outer.length)

/-- All points, in lexicographic order. -/
def enumerate (s : Polyhedron) (params : List Int) : Eval (List (List Int)) := do
  if params.length < s.nParam then
    throw (.missingParameter s.nParam params.length)
  s.enumerateFrom params s.nDim []

def render (s : Polyhedron) (names : Names) : Checked String := do
  let dims := (List.range s.nDim).map names.dim
  let head := listText dims
  if s.constraints.isEmpty then
    return head
  let texts ← s.constraints.mapM (·.render { names with dims })
  return head ++ " : " ++ " and ".intercalate texts

def renderFull (s : Polyhedron) : Checked String := do
  let text ← s.render .none
  return "\x7b " ++ text ++ " \x7d"

end Polyhedron

end LoopNest
