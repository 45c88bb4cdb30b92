import LoopNest.Proofs.Rounding
import LoopNest.Proofs.Yields

/-! The floor of an expression is evaluated wherever the expression is, to the floor of the rational
quotient. The remainder, where it is evaluated, lies between zero and the divisor, and makes up for
what the floor leaves. -/

namespace LoopNest

namespace Word

variable {x d : Int}

theorem fits_of_mul (h : Fits (x * d)) (positive : 1 ≤ d) : Fits x := by
  obtain ⟨lower, upper⟩ := h
  by_cases sign : 0 ≤ x
  · have : x * 1 ≤ x * d := Int.mul_le_mul_of_nonneg_left positive sign
    unfold Fits least at *
    omega
  · have : x * d ≤ x * 1 := Int.mul_le_mul_of_nonpos_left (by omega) positive
    unfold Fits greatest at *
    omega

/-- Dividing brings a number nearer to zero, or keeps it at minus one. -/
theorem fits_fdiv (h : Fits x) (positive : 1 ≤ d) : Fits (x.fdiv d) := by
  obtain ⟨lower, upper⟩ := h
  rw [Int.fdiv_eq_ediv_of_nonneg _ (by omega)]
  constructor
  · rw [Int.le_ediv_iff_mul_le (by omega)]
    have : least * d ≤ least * 1 := Int.mul_le_mul_of_nonpos_left (by decide) positive
    omega
  · by_cases sign : 0 ≤ x
    · exact (Int.ediv_le_self d sign).trans upper
    · have := Int.ediv_neg_of_neg_of_pos (a := x) (b := d) (by omega) (by omega)
      unfold greatest
      omega

end Word

namespace Affine

theorem eval_zero (nDim nParam : Nat) (point params : List Int) :
    (zero nDim nParam).eval point params = .ok 0 := by
  have zeros (n : Nat) (values : List Int) : dotFrom 0 (List.replicate n 0) values = .ok 0 := by
    induction n generalizing values with
    | zero => rfl
    | succ n ih =>
      cases values with
      | nil => rfl
      | cons v vs =>
        simp only [List.replicate_succ, dotFrom, Int.zero_mul, Word.mul]
        exact ih vs
  simp only [eval, dot, zero, const, zeros]
  rfl

/-- The partial sums are multiples of those of the quotient, which are nearer to zero. -/
theorem dotFrom_of_times {sum d result : Int} {coeffs values : List Int} (positive : 1 ≤ d)
    (h : dotFrom (sum * d) (coeffs.map (· * d)) values = .ok result) :
    ∃ quotient, result = quotient * d ∧ dotFrom sum coeffs values = .ok quotient := by
  induction coeffs generalizing sum values with
  | nil =>
    cases h
    exact ⟨sum, rfl, rfl⟩
  | cons c cs ih =>
    cases values with
    | nil =>
      cases h
      exact ⟨sum, rfl, rfl⟩
    | cons v vs =>
      simp only [List.map_cons, dotFrom, Checked.bind_eq_ok_iff, Word.mul_eq_ok_iff,
        Word.add_eq_ok_iff] at h ⊢
      obtain ⟨_, ⟨product, rfl⟩, _, ⟨next, rfl⟩, h⟩ := h
      rw [show c * d * v = c * v * d by ring] at product next h
      rw [← Int.add_mul] at next h
      obtain ⟨quotient, whole, rest⟩ := ih h
      exact ⟨quotient, whole, _, ⟨Word.fits_of_mul product positive, rfl⟩, _,
        ⟨Word.fits_of_mul next positive, rfl⟩, rest⟩

/-- What is evaluated as a multiple can be evaluated as it is. -/
theorem eval_of_times {e : Affine} {d v : Int} {point params : List Int} (positive : 1 ≤ d)
    (h : (e.times d).eval point params = .ok v) :
    ∃ quotient, v = quotient * d ∧ e.eval point params = .ok quotient := by
  simp only [eval, dot, Checked.bind_eq_ok_iff, Word.add_eq_ok_iff] at h ⊢
  obtain ⟨dims, hd, pars, hp, _, ⟨shifted, rfl⟩, total, rfl⟩ := h
  rw [← Int.zero_mul d] at hd hp
  obtain ⟨dims, rfl, foundDims⟩ := dotFrom_of_times positive hd
  obtain ⟨pars, rfl, foundPars⟩ := dotFrom_of_times positive hp
  simp only [times, ← Int.add_mul] at shifted total ⊢
  exact ⟨_, rfl, dims, foundDims, pars, foundPars, _, ⟨Word.fits_of_mul shifted positive, rfl⟩,
    Word.fits_of_mul total positive, rfl⟩

end Affine

namespace Quasi

variable {q tile offset : Quasi} {d v : Int} {point params : List Int}

/-- Adding no floors keeps a value that fits. -/
theorem eval_affine (e : Affine) : (affine e).eval point params = e.eval point params := by
  simp only [eval, evalTerms, base]
  cases found : e.eval point params with
  | error fault => rfl
  | ok v =>
    simp only [Affine.eval, Checked.bind_eq_ok_iff, Word.add_eq_ok_iff] at found
    obtain ⟨_, -, _, -, _, -, fits, rfl⟩ := found
    exact Word.add_eq_ok_iff.mpr ⟨by simpa using fits, Int.add_zero _⟩

/-- Where an expression is evaluated, so is its floor. -/
theorem eval_floorDiv (h : q.floorDiv d = .ok tile) (evaluated : q.eval point params = .ok v) :
    tile.eval point params = .ok (v.fdiv d) := by
  obtain ⟨positive, ⟨rfl, rfl⟩ | ⟨e, quotient, rfl, exact, rfl⟩ | ⟨-, rfl⟩⟩ := floorDiv_cases h
  · rw [evaluated, Int.fdiv_one]
  · rw [Affine.eq_times_of_exactDiv exact, eval_affine] at evaluated
    obtain ⟨w, rfl, found⟩ := Affine.eval_of_times positive evaluated
    rw [eval_affine, found, Int.mul_fdiv_cancel _ (by omega)]
  · simp only [eval, Checked.bind_eq_ok_iff, Word.add_eq_ok_iff] at evaluated
    obtain ⟨floors, inner, rest, outer, fits, rfl⟩ := evaluated
    have small := Word.fits_fdiv fits positive
    simp only [eval, evalTerms, base, Checked.bind_eq_ok_iff, Word.add_eq_ok_iff,
      Word.mul_eq_ok_iff, Word.floorDiv_eq_ok_iff]
    refine ⟨_, ⟨0, rfl, floors, inner, rest, outer, _, ⟨fits, rfl⟩, _, ⟨by omega, small, rfl⟩, _,
      ⟨?_, rfl⟩, ?_, rfl⟩, 0, Affine.eval_zero .., ?_, ?_⟩ <;> simp [small]

theorem modulo_bounds (h : q.modulo d = .ok offset) (positive : 1 ≤ d) {r : Int}
    (evaluated : offset.eval point params = .ok r) : 0 ≤ r ∧ r < d := by
  rw [eq_value_of_eval evaluated, value_modulo h]
  exact ⟨Int.fmod_nonneg_of_pos _ (by omega), Int.fmod_lt_of_pos _ (by omega)⟩

/-- The floor of an expression is evaluated to the floor of the rational quotient wherever the
expression is evaluated. The remainder is never out of range, and adds what the floor leaves. -/
theorem floorDiv_modulo_divide (q : Quasi) {d : Int} (positive : 1 ≤ d) (point params : List Int) :
    ((q.floorDiv d).Ensures fun tile => ∀ v, q.eval point params = .ok v →
      tile.eval point params = .ok ⌊(v : ℚ) / d⌋) ∧
    ((q.modulo d).Ensures fun offset =>
      (∀ r, offset.eval point params = .ok r → 0 ≤ r ∧ r < d) ∧
      ∀ v, q.eval point params = .ok v → (offset.eval point params).OnlyOverflows) ∧
    ∀ tile offset v t r, q.floorDiv d = .ok tile → q.modulo d = .ok offset →
      q.eval point params = .ok v → tile.eval point params = .ok t →
      offset.eval point params = .ok r → d * t + r = v := by
  refine ⟨Checked.ensures_iff.mpr ⟨onlyOverflows_floorDiv positive, ?_⟩,
    Checked.ensures_iff.mpr ⟨onlyOverflows_modulo positive, ?_⟩, ?_⟩
  · intro tile divided v evaluated
    rw [floor_div (by omega), eval_floorDiv divided evaluated]
  · intro offset divided
    exact ⟨fun r => modulo_bounds divided positive,
      fun v evaluated => onlyOverflows_eval ((proper_of_eval evaluated).modulo divided)⟩
  · intro tile offset v t r floors remains whole quotient remainder
    rw [eq_value_of_eval whole, eq_value_of_eval quotient, eq_value_of_eval remainder,
      value_floorDiv floors, value_modulo remains]
    exact Int.mul_fdiv_add_fmod ..

/-- `2x - 5 - 3 * ⌊(x + 1 + 2 * ⌊x / 2⌋) / 3⌋`. -/
def nested : Quasi :=
  .plus (.affine ⟨-5, [2], []⟩) (-3) (.plus (.affine ⟨1, [1], []⟩) 2 (.affine ⟨0, [1], []⟩) 2) 3

theorem nested_divided :
    let tile := plus (affine (.zero 1 0)) 1 nested 3
    let offset := plus nested (-3) nested 3
    nested.floorDiv 3 = .ok tile ∧ nested.modulo 3 = .ok offset ∧
      nested.eval [-7] [] = .ok (-4) ∧ tile.eval [-7] [] = .ok ⌊((-4 : Int) : ℚ) / (3 : Int)⌋ ∧
      ∃ t r, tile.eval [-7] [] = .ok t ∧ offset.eval [-7] [] = .ok r ∧ 0 ≤ r ∧ r < 3 ∧
        3 * t + r = -4 := by
  intro tile offset
  have tiles : nested.floorDiv 3 = .ok tile := by decide
  have remains : nested.modulo 3 = .ok offset := by decide
  have whole : nested.eval [-7] [] = .ok (-4) := by decide
  have quotient : tile.eval [-7] [] = .ok (-2) := by decide
  have remainder : offset.eval [-7] [] = .ok 2 := by decide
  obtain ⟨floor, range, sum⟩ := floorDiv_modulo_divide nested (d := 3) (by decide) [-7] []
  have rounded := (Checked.ensures_iff.mp floor).2 tile tiles (-4) whole
  obtain ⟨lower, upper⟩ := ((Checked.ensures_iff.mp range).2 offset remains).1 2 remainder
  exact ⟨tiles, remains, whole, rounded, -2, 2, quotient, remainder, lower, upper,
    sum tile offset (-4) (-2) 2 tiles remains whole quotient remainder⟩

end Quasi

end LoopNest
