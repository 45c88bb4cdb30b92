import LoopNest.Machine.Fraction
import LoopNest.Machine.Target

/-! The register block keeps every unit busy while results are under way. The cache blocks are
chosen so that a panel stays in the first cache and a block in the second. -/

namespace LoopNest

/-- The register block has `mr` rows and `nr` columns. -/
structure MicroKernel where
  mr : Int
  nr : Int
  deriving DecidableEq, Repr

/-- The cache blocks: `kc` steps of the reduction, `mc` rows, `nc` columns. -/
structure MacroKernel where
  kc : Int
  mc : Int
  nc : Int
  deriving DecidableEq, Repr

namespace MicroKernel

/-- Elements in one vector register; at least two. -/
def lanes (target : Target) : Int := max (target.vectorRegisterBits.tdiv 64) 2

/-- Results that are under way at a time; at least one. -/
def inFlight (target : Target) : Checked Int := do
  let perCycle ← Word.mul (lanes target) target.fmaLatency
  let all ← Word.mul perCycle target.fmaThroughput
  return max all 1

/-- How many vectors a row of a square block has, in floating point. -/
def vectorsPerRow (inFlight lanes : Int) : Int :=
  let side := (Int64.ofInt inFlight).toFloat.sqrt
  (side / (Int64.ofInt lanes).toFloat).ceil.toInt64.toInt

def ofVectors (inFlight lanes vectors : Int) : Checked MicroKernel := do
  let columns ← Word.mul vectors lanes
  let nr := max columns 1
  let mr ← Word.ceilDiv inFlight nr
  return ⟨mr, nr⟩

def forTarget (target : Target) : Checked MicroKernel := do
  let flying ← inFlight target
  ofVectors flying (lanes target) (vectorsPerRow flying (lanes target))

end MicroKernel

namespace MacroKernel

/-- Bytes of one matrix element. -/
def elementSize : Int := 8

def least (micro : MicroKernel) : MacroKernel := ⟨1, micro.mr, micro.nr⟩

/-- Ways of the first cache that a panel of rows may fill. -/
def rowWays (micro : MicroKernel) (associativity : Int) : Checked Int := do
  let spare ← Word.sub associativity 1
  let ratio ← Fraction.make micro.nr micro.mr
  let share ← (Fraction.ofInt 1).add ratio
  let ways ← (Fraction.ofInt spare).div share
  ways.floor

/-- Steps of the reduction for which the panels fit in the first cache. -/
def depthFor (target : Target) (micro : MicroKernel) : Checked Int := do
  let ways ← rowWays micro target.l1Associativity
  let room ← Word.mul ways target.l1Size
  let rowWidth ← Word.mul micro.mr target.l1Associativity
  let rowBytes ← Word.mul rowWidth elementSize
  let steps ← Fraction.make room rowBytes
  steps.floor

/-- Rows for which a block of a given depth fits in the second cache, in whole register blocks. -/
def rowsFor (target : Target) (micro : MicroKernel) (kc : Int) : Checked Int := do
  let bytes ← Word.mul kc elementSize
  let spread ← Word.mul bytes target.l2Associativity
  let ways ← Fraction.make spread target.l2Size
  let spare ← Word.sub target.l2Associativity 2
  let quotient ← (Fraction.ofInt spare).div ways
  let rows ← quotient.floor
  let excess ← Word.truncRem rows micro.mr
  let whole ← Word.sub rows excess
  return max whole micro.mr

def forTarget (target : Target) (micro : MicroKernel) : Checked MacroKernel := do
  if target.l1Associativity < 2 ∨ target.l2Associativity < 3 ∨ target.l1Size < 1 ∨
      target.l2Size < 1 then
    return least micro
  let kc ← depthFor target micro
  if kc < 1 then
    return least micro
  let mc ← rowsFor target micro kc
  let nc ← Word.mul 256 micro.nr
  return ⟨kc, mc, nc⟩

end MacroKernel

end LoopNest
