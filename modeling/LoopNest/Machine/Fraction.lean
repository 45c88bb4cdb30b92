import LoopNest.Word

/-! Fractions in lowest terms with a positive denominator, whose parts are words. -/

namespace LoopNest

structure Fraction where
  numer : Int
  denom : Int
  deriving DecidableEq, Repr

namespace Fraction

def gcd (a b : Int) : Checked Int := Word.narrow (Int.gcd a b)

def ofInt (value : Int) : Fraction := ⟨value, 1⟩

def make (numer denom : Int) : Checked Fraction := do
  if denom = 0 then
    throw .zeroDivisor
  if numer = 0 then
    return ⟨0, 1⟩
  if numer = denom then
    return ⟨1, 1⟩
  let g ← gcd numer denom
  let n ← Word.truncDiv numer g
  let d ← Word.truncDiv denom g
  if d < 0 then
    let n ← Word.neg n
    let d ← Word.neg d
    return ⟨n, d⟩
  return ⟨n, d⟩

def lcm (a b : Int) : Checked Int := do
  let g ← gcd a b
  let cofactor ← Word.truncDiv b g
  let product ← Word.mul a cofactor
  Word.abs product

def add (x y : Fraction) : Checked Fraction := do
  if x.denom = y.denom then
    let numer ← Word.add x.numer y.numer
    make numer y.denom
  else
    let denom ← lcm x.denom y.denom
    let left ← Word.mul x.numer (← Word.truncDiv denom x.denom)
    let right ← Word.mul y.numer (← Word.truncDiv denom y.denom)
    let numer ← Word.add left right
    make numer denom

def div (x y : Fraction) : Checked Fraction := do
  let g ← gcd x.numer y.numer
  let h ← gcd x.denom y.denom
  let numer ← Word.mul (← Word.truncDiv x.numer g) (← Word.truncDiv y.denom h)
  let denom ← Word.mul (← Word.truncDiv x.denom h) (← Word.truncDiv y.numer g)
  make numer denom

def floor (x : Fraction) : Checked Int := do
  if x.numer < 0 then
    let below ← Word.sub x.numer x.denom
    let shifted ← Word.add below 1
    Word.truncDiv shifted x.denom
  else
    Word.truncDiv x.numer x.denom

end Fraction

end LoopNest
