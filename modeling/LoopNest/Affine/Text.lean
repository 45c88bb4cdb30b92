import LoopNest.Affine.Basic

/-! Terms stand in the order iterators, parameters, constant. A coefficient of one is left out, and
so is a zero term, unless nothing else is written. -/

namespace LoopNest

/-- Names of iterators and parameters. Those that have none are called `i0, i1, …` and `p0, p1, …`.
-/
structure Names where
  dims : List String
  params : List String

def Names.none : Names := ⟨[], []⟩

def Names.dim (names : Names) (index : Nat) : String := names.dims[index]?.getD s!"i{index}"

def Names.param (names : Names) (index : Nat) : String := names.params[index]?.getD s!"p{index}"

/-- A term that has a sign of its own is written behind `text` with that sign between them; at the
start only a minus sign shows. -/
def appendSigned (text : String) (negative : Bool) (term : String) (atStart : Bool) : String :=
  let sign := match atStart, negative with
    | true, true => "-"
    | true, false => ""
    | false, true => " - "
    | false, false => " + "
  text ++ sign ++ term

def magnitude (coeff : Int) (term : String) : Checked String := do
  let size ← Word.abs coeff
  return if size = 1 then term else s!"{size}*{term}"

namespace Affine

def namedTerms (e : Affine) (names : Names) : List (Int × String) :=
  (e.coeffs.zipIdx.map fun (c, d) => (c, names.dim d)).filter (·.1 ≠ 0) ++
    (e.paramCoeffs.zipIdx.map fun (c, k) => (c, names.param k)).filter (·.1 ≠ 0)

def renderTerms (text : String) (atStart : Bool) : List (Int × String) → Checked String
  | [] => .ok text
  | (c, name) :: rest => do
    let term ← magnitude c name
    renderTerms (appendSigned text (c < 0) term atStart) false rest

def render (e : Affine) (names : Names) : Checked String := do
  let text ← renderTerms "" true (e.namedTerms names)
  if text.isEmpty then
    return toString e.constant
  else if 0 < e.constant then
    return s!"{text} + {e.constant}"
  else if e.constant < 0 then
    let size ← Word.neg e.constant
    return s!"{text} - {size}"
  else
    return text

end Affine

end LoopNest
