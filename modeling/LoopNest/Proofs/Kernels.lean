import LoopNest.Machine.Kernel
import LoopNest.Proofs.Overflow
import LoopNest.Proofs.Rounding
import Mathlib.Tactic.FieldSimp
import Mathlib.Tactic.Positivity
import Mathlib.Tactic.Push

/-! Fractions are exact where they exist, and with positive denominators nothing but an overflow
keeps them from existing. So the cache blocks for a matrix multiplication are what three rounded
quotients of integers say. The register block has at least one row and one column, and just enough
rows for the results under way, whatever comes out of the floating-point step. -/

namespace LoopNest

open Checked

/-! ## Fractions -/

namespace Fraction

def value (x : Fraction) : ℚ := x.numer / x.denom

variable {x y r : Fraction} {a b g : Int}

@[simp] theorem value_ofInt (n : Int) : (ofInt n).value = n := by simp [value, ofInt]

theorem denom_ofInt (n : Int) : 0 < (ofInt n).denom := Int.one_pos

@[simp] theorem onlyOverflows_gcd : (gcd a b).OnlyOverflows := Word.onlyOverflows_narrow

theorem gcd_eq_ok (h : gcd a b = .ok g) : g = Int.gcd a b := (Word.narrow_eq_ok_iff.mp h).2.symm

theorem gcd_ne_zero (h : gcd a b = .ok g) (nonzero : b ≠ 0) : g ≠ 0 := by
  rw [gcd_eq_ok h]
  simp [Int.gcd_eq_zero_iff, nonzero]

theorem gcd_dvd (h : gcd a b = .ok g) : g ∣ a ∧ g ∣ b := by
  rw [gcd_eq_ok h]
  exact ⟨Int.gcd_dvd_left .., Int.gcd_dvd_right ..⟩

theorem onlyOverflows_make (nonzero : b ≠ 0) : (make a b).OnlyOverflows := by
  unfold make
  rw [if_neg nonzero]
  dsimp only
  split
  · simp
  · split
    · simp
    · simp only [onlyOverflows_bind, onlyOverflows_gcd, true_and]
      intro g found
      have divisor := gcd_ne_zero found nonzero
      refine ⟨Word.onlyOverflows_truncDiv divisor, fun n _ =>
        ⟨Word.onlyOverflows_truncDiv divisor, fun d _ => ?_⟩⟩
      split <;> simp

/-- A fraction in lowest terms stands for the quotient. -/
theorem value_make (h : make a b = .ok r) (nonzero : b ≠ 0) :
    0 < r.denom ∧ r.value = a / b := by
  unfold make at h
  rw [if_neg nonzero] at h
  dsimp only at h
  split at h
  · rename_i zero
    cases h
    simp [value, zero]
  · split at h
    · rename_i same
      cases h
      have : (b : ℚ) ≠ 0 := by exact_mod_cast nonzero
      simp [value, same, this]
    · simp only [Checked.bind_eq_ok_iff] at h
      obtain ⟨g, found, n, upper, d, lower, h⟩ := h
      have divisor : (g : ℚ) ≠ 0 := by exact_mod_cast gcd_ne_zero found nonzero
      have wholeUpper := Affine.truncDiv_eq_ok upper (gcd_dvd found).1
      have wholeLower := Affine.truncDiv_eq_ok lower (gcd_dvd found).2
      have quotient : (a : ℚ) / b = n / d := by
        rw [wholeUpper, wholeLower]
        push_cast
        exact mul_div_mul_left _ _ divisor
      have apart : d ≠ 0 := by
        rintro rfl
        exact nonzero (by rw [wholeLower, Int.mul_zero])
      split at h
      · rename_i negative
        simp only [Checked.bind_eq_ok_iff, Word.neg_eq_ok_iff] at h
        obtain ⟨_, ⟨-, rfl⟩, _, ⟨-, rfl⟩, h⟩ := h
        cases h
        refine ⟨by simpa using negative, ?_⟩
        rw [quotient, value]
        push_cast
        exact neg_div_neg_eq _ _
      · cases h
        exact ⟨by simp only; omega, quotient.symm⟩

theorem onlyOverflows_lcm (nonzero : b ≠ 0) : (lcm a b).OnlyOverflows := by
  simp only [lcm, onlyOverflows_bind, onlyOverflows_gcd, Word.onlyOverflows_mul,
    Word.onlyOverflows_abs, implies_true, and_true, true_and]
  exact fun g found => Word.onlyOverflows_truncDiv (gcd_ne_zero found nonzero)

/-- A common multiple. -/
theorem lcm_eq_ok {m : Int} (h : lcm a b = .ok m) (left : a ≠ 0) (right : b ≠ 0) :
    m ≠ 0 ∧ a ∣ m ∧ b ∣ m := by
  simp only [lcm, Checked.bind_eq_ok_iff, Word.mul_eq_ok_iff] at h
  obtain ⟨g, found, cofactor, divided, _, ⟨-, rfl⟩, absolute⟩ := h
  obtain ⟨-, rfl⟩ := Word.narrow_eq_ok_iff.mp absolute
  have whole := Affine.truncDiv_eq_ok divided (gcd_dvd found).2
  have apart : cofactor ≠ 0 := by
    rintro rfl
    exact right (by rw [whole, Int.mul_zero])
  refine ⟨by simp [left, apart], ?_, ?_⟩
  · exact Int.dvd_natAbs.mpr (Int.dvd_mul_right ..)
  · obtain ⟨k, rfl⟩ := (gcd_dvd found).1
    refine Int.dvd_natAbs.mpr ⟨k, ?_⟩
    rw [whole]
    ring

theorem onlyOverflows_add (left : 0 < x.denom) (right : 0 < y.denom) :
    (x.add y).OnlyOverflows := by
  unfold add
  split
  · simp only [onlyOverflows_bind, Word.onlyOverflows_add, true_and]
    exact fun _ _ => onlyOverflows_make (by omega)
  · simp only [onlyOverflows_bind, Word.onlyOverflows_add, Word.onlyOverflows_mul, true_and]
    refine ⟨onlyOverflows_lcm (by omega), fun m found => ⟨Word.onlyOverflows_truncDiv (by omega),
      fun _ _ _ _ => ⟨Word.onlyOverflows_truncDiv (by omega), fun _ _ _ _ _ _ => ?_⟩⟩⟩
    exact onlyOverflows_make (lcm_eq_ok found (by omega) (by omega)).1

theorem value_add (h : x.add y = .ok r) (left : 0 < x.denom) (right : 0 < y.denom) :
    0 < r.denom ∧ r.value = x.value + y.value := by
  unfold add at h
  have nonzeroLeft : (x.denom : ℚ) ≠ 0 := by exact_mod_cast left.ne'
  have nonzeroRight : (y.denom : ℚ) ≠ 0 := by exact_mod_cast right.ne'
  split at h
  · rename_i same
    simp only [Checked.bind_eq_ok_iff, Word.add_eq_ok_iff] at h
    obtain ⟨_, ⟨-, rfl⟩, made⟩ := h
    obtain ⟨proper, exact⟩ := value_make made (by omega)
    refine ⟨proper, ?_⟩
    rw [exact, value, value, same]
    push_cast
    exact add_div _ _ _
  · simp only [Checked.bind_eq_ok_iff, Word.add_eq_ok_iff, Word.mul_eq_ok_iff] at h
    obtain ⟨m, common, p, hp, _, ⟨-, rfl⟩, q, hq, _, ⟨-, rfl⟩, _, ⟨-, rfl⟩, made⟩ := h
    obtain ⟨nonzero, dvdLeft, dvdRight⟩ := lcm_eq_ok common (by omega) (by omega)
    obtain ⟨proper, exact⟩ := value_make made nonzero
    refine ⟨proper, ?_⟩
    have wholeLeft : (m : ℚ) = x.denom * p := by
      exact_mod_cast Affine.truncDiv_eq_ok hp dvdLeft
    have wholeRight : (m : ℚ) = y.denom * q := by
      exact_mod_cast Affine.truncDiv_eq_ok hq dvdRight
    have apart : (m : ℚ) ≠ 0 := by exact_mod_cast nonzero
    rw [exact, value, value]
    push_cast
    rw [add_div]
    congr 1
    · rw [div_eq_div_iff apart nonzeroLeft, wholeLeft]
      ring
    · rw [div_eq_div_iff apart nonzeroRight, wholeRight]
      ring

/-- Dividing parts by their common divisor leaves something of each. -/
theorem reduced_ne_zero {c : Int} (found : gcd a b = .ok g) (nonzero : b ≠ 0)
    (divided : Word.truncDiv b g = .ok c) : c ≠ 0 := by
  rintro rfl
  exact nonzero (by rw [Affine.truncDiv_eq_ok divided (gcd_dvd found).2, Int.mul_zero])

theorem onlyOverflows_div (left : 0 < x.denom) (right : 0 < y.denom) (nonzero : y.numer ≠ 0) :
    (x.div y).OnlyOverflows := by
  simp only [div, onlyOverflows_bind, onlyOverflows_gcd, Word.onlyOverflows_mul, true_and]
  intro g foundUpper h foundLower
  have upper := gcd_ne_zero foundUpper nonzero
  have lower := gcd_ne_zero foundLower right.ne'
  refine ⟨Word.onlyOverflows_truncDiv upper, fun _ _ => ⟨Word.onlyOverflows_truncDiv lower,
    fun _ _ _ _ => ⟨Word.onlyOverflows_truncDiv lower, fun p hp =>
      ⟨Word.onlyOverflows_truncDiv upper, fun q hq d product => onlyOverflows_make ?_⟩⟩⟩⟩
  obtain ⟨-, rfl⟩ := Word.mul_eq_ok_iff.mp product
  refine mul_ne_zero ?_ (reduced_ne_zero foundUpper nonzero hq)
  rintro rfl
  have := Affine.truncDiv_eq_ok hp (gcd_dvd foundLower).1
  omega

theorem value_div (h : x.div y = .ok r) (left : 0 < x.denom) (right : 0 < y.denom)
    (nonzero : y.numer ≠ 0) : 0 < r.denom ∧ r.value = x.value / y.value := by
  simp only [div, Checked.bind_eq_ok_iff, Word.mul_eq_ok_iff] at h
  obtain ⟨g, foundUpper, k, foundLower, p, hp, q, hq, _, ⟨-, rfl⟩, u, hu, v, hv, _, ⟨-, rfl⟩,
    made⟩ := h
  have wholeP := Affine.truncDiv_eq_ok hp (gcd_dvd foundUpper).1
  have wholeQ := Affine.truncDiv_eq_ok hq (gcd_dvd foundLower).2
  have wholeU := Affine.truncDiv_eq_ok hu (gcd_dvd foundLower).1
  have wholeV := Affine.truncDiv_eq_ok hv (gcd_dvd foundUpper).2
  have apartV := reduced_ne_zero foundUpper nonzero hv
  have apartU : u ≠ 0 := by
    rintro rfl
    omega
  have upper : (g : ℚ) ≠ 0 := by exact_mod_cast gcd_ne_zero foundUpper nonzero
  have lower : (k : ℚ) ≠ 0 := by exact_mod_cast gcd_ne_zero foundLower right.ne'
  obtain ⟨proper, exact⟩ := value_make made (mul_ne_zero apartU apartV)
  refine ⟨proper, ?_⟩
  rw [exact, value, value, wholeP, wholeQ, wholeU, wholeV]
  push_cast
  rw [div_div_div_eq, show (g * p * (k * q) : ℚ) = g * k * (p * q) by ring,
    show (k * u * (g * v) : ℚ) = g * k * (u * v) by ring,
    mul_div_mul_left _ _ (mul_ne_zero upper lower)]

theorem ensures_make (nonzero : b ≠ 0) :
    (make a b).Ensures fun r => 0 < r.denom ∧ r.value = a / b :=
  ensures_iff.mpr ⟨onlyOverflows_make nonzero, fun _ h => value_make h nonzero⟩

theorem ensures_add (left : 0 < x.denom) (right : 0 < y.denom) :
    (x.add y).Ensures fun r => 0 < r.denom ∧ r.value = x.value + y.value :=
  ensures_iff.mpr ⟨onlyOverflows_add left right, fun _ h => value_add h left right⟩

theorem ensures_div (left : 0 < x.denom) (right : 0 < y.denom) (nonzero : y.numer ≠ 0) :
    (x.div y).Ensures fun r => 0 < r.denom ∧ r.value = x.value / y.value :=
  ensures_iff.mpr ⟨onlyOverflows_div left right nonzero, fun _ h => value_div h left right nonzero⟩

theorem ensures_floor (proper : 0 < x.denom) : x.floor.Ensures (· = ⌊x.value⌋) := by
  rw [value, floor_div proper]
  unfold floor
  split
  · rename_i negative
    apply Word.ensures_sub.bind
    rintro _ rfl
    apply Word.ensures_add.bind
    rintro _ rfl
    rw [← tdiv_lowered negative proper]
    exact Word.ensures_truncDiv proper.ne'
  · rename_i nonneg
    rw [Int.fdiv_eq_tdiv_of_nonneg (by omega) proper.le]
    exact Word.ensures_truncDiv proper.ne'

theorem numer_ne_zero (positive : 0 < x.value) : x.numer ≠ 0 := by
  intro zero
  simp [value, zero] at positive

end Fraction

/-! ## Register blocks -/

namespace MicroKernel

variable {target : Target} {inFlight lanes vectors : Int}

def exactInFlight (target : Target) : Int :=
  max 1 (MicroKernel.lanes target * target.fmaLatency * target.fmaThroughput)

theorem ensures_inFlight : (MicroKernel.inFlight target).Ensures (· = exactInFlight target) := by
  apply Word.ensures_mul.bind
  rintro _ rfl
  apply Word.ensures_mul.bind
  rintro _ rfl
  exact ensures_pure (max_comm _ _)

/-- The block has room for all results under way, and would not with one row less. -/
structure Covers (micro : MicroKernel) (inFlight : Int) : Prop where
  row : 1 ≤ micro.mr
  column : 1 ≤ micro.nr
  enough : inFlight ≤ micro.mr * micro.nr
  tight : (micro.mr - 1) * micro.nr < inFlight

/-- Whatever the number of vectors in a row, the rows are counted so that the block suffices. -/
theorem ensures_ofVectors (flying : 1 ≤ inFlight) :
    (ofVectors inFlight lanes vectors).Ensures (·.Covers inFlight) := by
  apply Word.ensures_mul.bind
  intro columns _
  have width : 0 < max columns 1 := by omega
  refine ensures_iff.mpr ⟨?_, fun micro h => ?_⟩
  · simp [Word.onlyOverflows_ceilDiv width.ne']
  · obtain ⟨mr, divided, h⟩ := Checked.bind_eq_ok_iff.mp h
    cases h
    have reaches := Word.ceilDiv_le_iff divided width
    have tight : max columns 1 * (mr - 1) < inFlight := by
      rw [← Int.not_le, ← reaches]
      omega
    refine ⟨?_, by simp only; omega, ?_, ?_⟩
    · by_contra short
      have := (reaches 0).mp (by simp only at short; omega)
      omega
    · rw [Int.mul_comm]
      exact (reaches mr).mp le_rfl
    · rwa [Int.mul_comm]

theorem ensures_forTarget : (forTarget target).Ensures (·.Covers (exactInFlight target)) := by
  apply ensures_inFlight.bind
  rintro _ rfl
  exact ensures_ofVectors (le_max_left ..)

theorem forTarget_generic (two : vectorsPerRow 16 2 = 2) : forTarget .generic = .ok ⟨4, 4⟩ := by
  have flying : inFlight .generic = .ok 16 := by decide
  have wide : lanes .generic = 2 := by decide
  have block : ofVectors 16 2 2 = .ok ⟨4, 4⟩ := by decide
  rw [forTarget]
  apply Checked.bind_eq_ok_iff.mpr
  exact ⟨16, flying, by rw [wide, two, block]⟩

end MicroKernel

/-! ## Cache blocks -/

namespace MacroKernel

variable {target : Target} {micro : MicroKernel}

def exactWays (micro : MicroKernel) (associativity : Int) : Int :=
  ((associativity - 1) * micro.mr).fdiv (micro.mr + micro.nr)

def exactDepth (target : Target) (micro : MicroKernel) : Int :=
  (exactWays micro target.l1Associativity * target.l1Size).fdiv
    (micro.mr * target.l1Associativity * elementSize)

def exactRows (target : Target) (kc : Int) : Int :=
  ((target.l2Associativity - 2) * target.l2Size).fdiv (kc * elementSize * target.l2Associativity)

/-- Whole register blocks of rows, at least one. -/
def wholeRows (micro : MicroKernel) (rows : Int) : Int := max (rows - rows.tmod micro.mr) micro.mr

def exact (target : Target) (micro : MicroKernel) : MacroKernel :=
  let kc := exactDepth target micro
  if target.l1Associativity < 2 ∨ target.l2Associativity < 3 ∨ target.l1Size < 1 ∨
      target.l2Size < 1 ∨ kc < 1 then least micro
  else ⟨kc, wholeRows micro (exactRows target kc), 256 * micro.nr⟩

theorem ensures_rowWays {associativity : Int} (rows : 1 ≤ micro.mr) (columns : 1 ≤ micro.nr) :
    (rowWays micro associativity).Ensures (· = exactWays micro associativity) := by
  have height : (0 : ℚ) < micro.mr := by exact_mod_cast rows
  have width : (0 : ℚ) < micro.nr := by exact_mod_cast columns
  apply Word.ensures_sub.bind
  rintro _ rfl
  apply (Fraction.ensures_make (by omega)).bind
  rintro ratio ⟨properRatio, ratioIs⟩
  apply (Fraction.ensures_add (Fraction.denom_ofInt _) properRatio).bind
  rintro share ⟨proper, shareIs⟩
  rw [Fraction.value_ofInt, ratioIs, Int.cast_one] at shareIs
  have nonzero : share.numer ≠ 0 := by
    apply Fraction.numer_ne_zero
    rw [shareIs]
    positivity
  apply (Fraction.ensures_div (Fraction.denom_ofInt _) proper nonzero).bind
  rintro ways ⟨properWays, waysAre⟩
  have quotient : ways.value = ((associativity - 1) * micro.mr : Int) /
      ((micro.mr + micro.nr : Int) : ℚ) := by
    rw [waysAre, Fraction.value_ofInt, shareIs]
    push_cast
    field_simp
  rw [exactWays, ← floor_div (by omega), ← quotient]
  exact Fraction.ensures_floor properWays

theorem ensures_depthFor (rows : 1 ≤ micro.mr) (columns : 1 ≤ micro.nr)
    (sets : 2 ≤ target.l1Associativity) :
    (depthFor target micro).Ensures (· = exactDepth target micro) := by
  have bytes : 0 < micro.mr * target.l1Associativity * elementSize := by
    simp only [elementSize]
    positivity
  apply (ensures_rowWays rows columns).bind
  rintro _ rfl
  apply Word.ensures_mul.bind
  rintro _ rfl
  apply Word.ensures_mul.bind
  rintro _ rfl
  apply Word.ensures_mul.bind
  rintro _ rfl
  apply (Fraction.ensures_make bytes.ne').bind
  rintro steps ⟨proper, quotient⟩
  rw [exactDepth, ← floor_div bytes, ← quotient]
  exact Fraction.ensures_floor proper

theorem ensures_rowsFor {kc : Int} (rows : 1 ≤ micro.mr) (deep : 1 ≤ kc)
    (sets : 3 ≤ target.l2Associativity) (room : 1 ≤ target.l2Size) :
    (rowsFor target micro kc).Ensures (· = wholeRows micro (exactRows target kc)) := by
  have spread : 0 < kc * elementSize * target.l2Associativity := by
    simp only [elementSize]
    positivity
  have bytes : (0 : ℚ) < (kc * elementSize * target.l2Associativity : Int) := by
    exact_mod_cast spread
  have size : (0 : ℚ) < target.l2Size := by exact_mod_cast room
  apply Word.ensures_mul.bind
  rintro _ rfl
  apply Word.ensures_mul.bind
  rintro _ rfl
  apply (Fraction.ensures_make (by omega)).bind
  rintro ways ⟨proper, waysAre⟩
  apply Word.ensures_sub.bind
  rintro _ rfl
  have nonzero : ways.numer ≠ 0 := by
    apply Fraction.numer_ne_zero
    rw [waysAre]
    positivity
  apply (Fraction.ensures_div (Fraction.denom_ofInt _) proper nonzero).bind
  rintro quotient ⟨properQuotient, quotientIs⟩
  have exact : quotient.value = ((target.l2Associativity - 2) * target.l2Size : Int) /
      ((kc * elementSize * target.l2Associativity : Int) : ℚ) := by
    rw [quotientIs, Fraction.value_ofInt, waysAre, div_div_eq_mul_div, ← Int.cast_mul]
  rw [exactRows, ← floor_div spread, ← exact]
  apply (Fraction.ensures_floor properQuotient).bind
  rintro _ rfl
  apply (Word.ensures_truncRem (by omega)).bind
  rintro _ rfl
  apply Word.ensures_sub.bind
  rintro _ rfl
  exact ensures_pure rfl

theorem ensures_forTarget (rows : 1 ≤ micro.mr) (columns : 1 ≤ micro.nr) :
    (forTarget target micro).Ensures (· = exact target micro) := by
  unfold forTarget exact
  split
  · rename_i degenerate
    apply ensures_pure
    rw [if_pos (by tauto)]
  · apply (ensures_depthFor rows columns (by omega)).bind
    rintro _ rfl
    split
    · rename_i shallow
      apply ensures_pure
      rw [if_pos (by tauto)]
    · apply (ensures_rowsFor rows (by omega) (by omega) (by omega)).bind
      rintro _ rfl
      apply Word.ensures_mul.bind
      rintro _ rfl
      apply ensures_pure
      rw [if_neg (by tauto)]

theorem le_wholeRows (rows : Int) : micro.mr ≤ wholeRows micro rows := le_max_right ..

/-- No block is empty. -/
theorem exact_pos (target : Target) (rows : 1 ≤ micro.mr) (columns : 1 ≤ micro.nr) :
    1 ≤ (exact target micro).kc ∧ 1 ≤ (exact target micro).mc ∧ 1 ≤ (exact target micro).nc := by
  unfold exact
  dsimp only
  split
  · exact ⟨le_rfl, rows, columns⟩
  · dsimp only
    exact ⟨by omega, rows.trans (le_wholeRows _), by omega⟩

end MacroKernel

end LoopNest
