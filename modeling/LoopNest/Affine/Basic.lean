import LoopNest.Word

/-! A constant plus multiples of the iterators of a statement and of the parameters of its program.
Coefficients are listed by position. A value without a coefficient, or a coefficient without a
value, counts as zero, so expressions of different lengths can be added and evaluated anywhere. -/

namespace LoopNest

/-- `constant + Σ coeffs[d] * x[d] + Σ paramCoeffs[k] * p[k]`. -/
structure Affine where
  constant : Int
  coeffs : List Int
  paramCoeffs : List Int
  deriving DecidableEq, Repr

namespace Affine

def const (value : Int) (nDim nParam : Nat) : Affine :=
  ⟨value, List.replicate nDim 0, List.replicate nParam 0⟩

def zero (nDim nParam : Nat) : Affine := const 0 nDim nParam

/-- One iterator; zero if there is no such iterator. -/
def var (dim nDim nParam : Nat) : Affine :=
  { zero nDim nParam with coeffs := (List.replicate nDim 0).set dim 1 }

def param (index nDim nParam : Nat) : Affine :=
  { zero nDim nParam with paramCoeffs := (List.replicate nParam 0).set index 1 }

def nDim (e : Affine) : Nat := e.coeffs.length

def nParam (e : Affine) : Nat := e.paramCoeffs.length

def coeff (e : Affine) (dim : Nat) : Int := e.coeffs[dim]?.getD 0

def paramCoeff (e : Affine) (index : Nat) : Int := e.paramCoeffs[index]?.getD 0

def involvesParams (e : Affine) : Bool := e.paramCoeffs.any (· ≠ 0)

def isConstant (e : Affine) : Bool := e.coeffs.all (· = 0) && e.paramCoeffs.all (· = 0)

def isZero (e : Affine) : Bool := e.constant = 0 && e.isConstant

def dependsOn (e : Affine) (dim : Nat) : Bool := e.coeff dim ≠ 0

def singleVar? (e : Affine) : Option Nat :=
  if e.constant ≠ 0 || e.involvesParams then none
  else match e.coeffs.zipIdx.filter (·.1 ≠ 0) with
    | [(1, dim)] => some dim
    | _ => none

/-- The exact sum of products over the shorter of two lists. -/
def dotValue : List Int → List Int → Int
  | c :: cs, v :: vs => c * v + dotValue cs vs
  | _, _ => 0

def value (e : Affine) (point params : List Int) : Int :=
  e.constant + dotValue e.coeffs point + dotValue e.paramCoeffs params

def dotFrom (sum : Int) : List Int → List Int → Checked Int
  | c :: cs, v :: vs => do
    let product ← Word.mul c v
    let next ← Word.add sum product
    dotFrom next cs vs
  | _, _ => .ok sum

def dot (coeffs values : List Int) : Checked Int := dotFrom 0 coeffs values

def eval (e : Affine) (point params : List Int) : Checked Int := do
  let dims ← dot e.coeffs point
  let pars ← dot e.paramCoeffs params
  let shifted ← Word.add e.constant dims
  Word.add shifted pars

/-- A sum of products that exists is the exact one. -/
theorem eq_of_dotFrom {sum result : Int} {coeffs values : List Int}
    (h : dotFrom sum coeffs values = .ok result) : result = sum + dotValue coeffs values := by
  induction coeffs generalizing sum values with
  | nil => simp_all [dotFrom, dotValue]
  | cons c cs ih =>
    cases values with
    | nil => simp_all [dotFrom, dotValue]
    | cons v vs =>
      simp only [dotFrom, Checked.bind_eq_ok_iff, Word.mul_eq_ok_iff, Word.add_eq_ok_iff] at h
      obtain ⟨product, ⟨-, rfl⟩, next, ⟨-, rfl⟩, h⟩ := h
      rw [ih h, dotValue, Int.add_assoc]

/-- A value that exists is the exact one. -/
theorem eq_value_of_eval {e : Affine} {point params : List Int} {result : Int}
    (h : e.eval point params = .ok result) : result = e.value point params := by
  simp only [eval, dot, Checked.bind_eq_ok_iff, Word.add_eq_ok_iff] at h
  obtain ⟨dims, hd, pars, hp, shifted, ⟨-, rfl⟩, -, rfl⟩ := h
  rw [eq_of_dotFrom hd, eq_of_dotFrom hp, value, Int.zero_add, Int.zero_add]

def scale (e : Affine) (factor : Int) : Checked Affine := do
  let constant ← Word.mul e.constant factor
  let coeffs ← e.coeffs.mapM (Word.mul · factor)
  let paramCoeffs ← e.paramCoeffs.mapM (Word.mul · factor)
  return ⟨constant, coeffs, paramCoeffs⟩

def neg (e : Affine) : Checked Affine := e.scale (-1)

/-- Positionwise sum; the longer list is kept beyond the shorter one. -/
def addCoeffs : List Int → List Int → Checked (List Int)
  | [], bs => .ok bs
  | as, [] => .ok as
  | a :: as, b :: bs => do
    let head ← Word.add a b
    let tail ← addCoeffs as bs
    return head :: tail

def add (a b : Affine) : Checked Affine := do
  let constant ← Word.add a.constant b.constant
  let coeffs ← addCoeffs a.coeffs b.coeffs
  let paramCoeffs ← addCoeffs a.paramCoeffs b.paramCoeffs
  return ⟨constant, coeffs, paramCoeffs⟩

def sub (a b : Affine) : Checked Affine := do
  let negated ← b.neg
  a.add negated

/-- Stops at the first value that leaves a remainder. -/
def allDivisible (divisor : Int) : List Int → Checked Bool
  | [] => .ok true
  | v :: vs => do
    let remainder ← Word.truncRem v divisor
    if remainder = 0 then allDivisible divisor vs else return false

/-- The quotient, if the divisor is not zero and divides the constant and every coefficient. -/
def exactDiv? (e : Affine) (divisor : Int) : Checked (Option Affine) := do
  if divisor = 0 then
    return none
  let divisible ← allDivisible divisor (e.constant :: (e.coeffs ++ e.paramCoeffs))
  if divisible then
    let constant ← Word.truncDiv e.constant divisor
    let coeffs ← e.coeffs.mapM (Word.truncDiv · divisor)
    let paramCoeffs ← e.paramCoeffs.mapM (Word.truncDiv · divisor)
    return some ⟨constant, coeffs, paramCoeffs⟩
  else
    return none

def withoutDim (e : Affine) (dim : Nat) : Affine := { e with coeffs := e.coeffs.set dim 0 }

end Affine

end LoopNest
