import LoopNest.Proofs.Yields

/-! Adding, subtracting and scaling expressions adds, subtracts and scales their values, and putting
an expression in for an iterator moves the point at which the rest is evaluated. Merged floors,
dropped floors and lists of different lengths do not show. What is made of expressions that can be
evaluated can be evaluated too, unless a word overflows: no new floor divides by zero. -/

namespace LoopNest

namespace Quasi

variable {a b q r replacement : Quasi} {dim : Nat} {terms : List FloorTerm}

/-! ## Substitution keeps denominators -/

theorem proper_substBase {base : Affine} (proper : replacement.Proper)
    (floors : ∀ t ∈ terms, t.numerator.Proper ∧ t.denominator ≠ 0)
    (h : substBase dim replacement base terms = .ok r) : r.Proper := by
  obtain ⟨scaled, multiplied, added⟩ := Checked.bind_eq_ok_iff.mp h
  have rest : (ofTerms (base.withoutDim dim) terms).Proper := by
    rw [proper_iff, EveryFloor, terms_ofTerms]
    exact floors
  exact rest.add (proper.scale multiplied) added

/-- The floors after a substitution have the denominators that they had before. -/
theorem proper_substTerms (own : q.Proper) (proper : replacement.Proper)
    (h : substTerms dim replacement q = .ok terms) :
    ∀ t ∈ terms, t.numerator.Proper ∧ t.denominator ≠ 0 := by
  induction q generalizing terms with
  | affine e =>
    cases h
    simp
  | plus rest c n d outer inner =>
    obtain ⟨properRest, properNumerator, nonzero⟩ := own
    simp only [substTerms, Checked.bind_eq_ok_iff] at h
    obtain ⟨before, earlier, below, deeper, numerator, replaced, pushed⟩ := h
    have properReplaced := proper_substBase proper (inner properNumerator deeper) replaced
    intro t member
    obtain ⟨s, inside, numerators, denominators⟩ := mem_pushTerm pushed member
    rw [← numerators, ← denominators]
    rcases List.mem_cons.mp inside with rfl | inside
    · exact ⟨properReplaced, nonzero⟩
    · exact outer properRest earlier s inside

theorem Proper.subst (own : q.Proper) (proper : replacement.Proper)
    (h : q.subst dim replacement = .ok r) : r.Proper := by
  obtain ⟨terms, floors, replaced⟩ := Checked.bind_eq_ok_iff.mp h
  exact proper_substBase proper (proper_substTerms own proper floors) replaced

/-! ## Values -/

variable {point params : List Int}

theorem ensures_eval {v : Int} (proper : q.Proper) (exact : q.value point params = v) :
    (q.eval point params).Ensures (· = v) :=
  Checked.ensures_iff.mpr
    ⟨onlyOverflows_eval proper, fun _ evaluated => (eq_value_of_eval evaluated).trans exact⟩

theorem ensures_eval_add {x y : Int} (added : a.add b = .ok r)
    (left : a.eval point params = .ok x) (right : b.eval point params = .ok y) :
    (r.eval point params).Ensures (· = x + y) := by
  apply ensures_eval ((proper_of_eval left).add (proper_of_eval right) added)
  rw [value_add added, eq_value_of_eval left, eq_value_of_eval right]

theorem ensures_eval_sub {x y : Int} (subtracted : a.sub b = .ok r)
    (left : a.eval point params = .ok x) (right : b.eval point params = .ok y) :
    (r.eval point params).Ensures (· = x - y) := by
  apply ensures_eval ((proper_of_eval left).sub (proper_of_eval right) subtracted)
  rw [value_sub subtracted, eq_value_of_eval left, eq_value_of_eval right]

theorem ensures_eval_scale {factor x : Int} (scaled : a.scale factor = .ok r)
    (own : a.eval point params = .ok x) : (r.eval point params).Ensures (· = factor * x) := by
  apply ensures_eval ((proper_of_eval own).scale scaled)
  rw [value_scale scaled, eq_value_of_eval own, Int.mul_comm]

/-- The replacement is evaluated where the result is, the rest where the replacement has moved the
point. -/
theorem ensures_eval_subst {x y : Int} (replaced : a.subst dim replacement = .ok r)
    (bound : dim < point.length) (inner : replacement.eval point params = .ok y)
    (outer : a.eval (point.set dim y) params = .ok x) : (r.eval point params).Ensures (· = x) := by
  apply ensures_eval ((proper_of_eval outer).subst (proper_of_eval inner) replaced)
  rw [value_subst replaced bound, ← eq_value_of_eval inner, eq_value_of_eval outer]

/-- Operations on expressions are operations on their values. Each has a result unless a word
overflows. Where the operands are evaluated, the result is evaluated to the sum, the difference, the
multiple, or the value at the point that the replacement moves, again unless a word overflows. -/
theorem operations_on_values (a b replacement : Quasi) (factor : Int) (dim : Nat)
    (point params : List Int) :
    ((a.add b).Ensures fun sum => ∀ x y, a.eval point params = .ok x →
      b.eval point params = .ok y → (sum.eval point params).Ensures (· = x + y)) ∧
    ((a.sub b).Ensures fun difference => ∀ x y, a.eval point params = .ok x →
      b.eval point params = .ok y → (difference.eval point params).Ensures (· = x - y)) ∧
    ((a.scale factor).Ensures fun multiple => ∀ x, a.eval point params = .ok x →
      (multiple.eval point params).Ensures (· = factor * x)) ∧
    ((a.subst dim replacement).Ensures fun replaced => dim < point.length → ∀ x y,
      replacement.eval point params = .ok y → a.eval (point.set dim y) params = .ok x →
      (replaced.eval point params).Ensures (· = x)) := by
  refine ⟨?_, ?_, ?_, ?_⟩
  · refine Checked.ensures_iff.mpr ⟨onlyOverflows_add, fun sum added x y left right => ?_⟩
    exact ensures_eval_add added left right
  · refine Checked.ensures_iff.mpr ⟨onlyOverflows_sub, fun difference taken x y left right => ?_⟩
    exact ensures_eval_sub taken left right
  · refine Checked.ensures_iff.mpr ⟨onlyOverflows_scale, fun multiple scaled x own => ?_⟩
    exact ensures_eval_scale scaled own
  · refine Checked.ensures_iff.mpr ⟨onlyOverflows_subst, fun result replaced bound x y => ?_⟩
    exact ensures_eval_subst replaced bound

/-- `⌊x / 2⌋ - ⌊y / 2⌋`, with a list for `x` that ends before `y`. -/
def halfSteps : Quasi :=
  .plus (.plus (.affine ⟨0, [], []⟩) 1 (.affine ⟨0, [1], []⟩) 2) (-1) (.affine ⟨0, [0, 1], []⟩) 2

/-- With `x` in place of `y` the two floors become one, which vanishes. Added to itself, the
expression keeps both, and so it does if `x` is taken from it or it is multiplied. -/
theorem halfSteps_operations : ∃ sum difference multiple replaced,
    halfSteps.add halfSteps = .ok sum ∧ halfSteps.sub (.var 0 2 0) = .ok difference ∧
    halfSteps.scale 3 = .ok multiple ∧ halfSteps.subst 1 (.var 0 2 0) = .ok replaced ∧
    sum.terms.map (·.coeff) = [2, -2] ∧ difference.terms.map (·.coeff) = [1, -1] ∧
    multiple.terms.map (·.coeff) = [3, -3] ∧ replaced.terms = [] ∧
    halfSteps.eval [7, -4] [] = .ok 5 ∧ halfSteps.eval [7, 7] [] = .ok 0 ∧
    (sum.eval [7, -4] []).Ensures (· = 5 + 5) ∧ (difference.eval [7, -4] []).Ensures (· = 5 - 7) ∧
    (multiple.eval [7, -4] []).Ensures (· = 3 * 5) ∧
    (replaced.eval [7, -4] []).Ensures (· = 0) := by
  obtain ⟨addition, -, -, substitution⟩ :=
    operations_on_values halfSteps halfSteps (.var 0 2 0) 0 1 [7, -4] []
  obtain ⟨-, subtraction, scaling, -⟩ :=
    operations_on_values halfSteps (.var 0 2 0) (.var 0 2 0) 3 1 [7, -4] []
  have added : halfSteps.add halfSteps = .ok (.plus (.plus (.affine ⟨0, [], []⟩) 2
    (.affine ⟨0, [1], []⟩) 2) (-2) (.affine ⟨0, [0, 1], []⟩) 2) := by decide
  have taken : halfSteps.sub (.var 0 2 0) = .ok (.plus (.plus (.affine ⟨0, [-1, 0], []⟩) 1
    (.affine ⟨0, [1], []⟩) 2) (-1) (.affine ⟨0, [0, 1], []⟩) 2) := by decide
  have scaled : halfSteps.scale 3 = .ok (.plus (.plus (.affine ⟨0, [], []⟩) 3
    (.affine ⟨0, [1], []⟩) 2) (-3) (.affine ⟨0, [0, 1], []⟩) 2) := by decide
  have replaced : halfSteps.subst 1 (.var 0 2 0) = .ok (.affine ⟨0, [0, 0], []⟩) := by decide
  have here : halfSteps.eval [7, -4] [] = .ok 5 := by decide
  have moved : halfSteps.eval [7, 7] [] = .ok 0 := by decide
  refine ⟨_, _, _, _, added, taken, scaled, replaced, by decide, by decide, by decide, by decide,
    here, moved, ?_, ?_, ?_, ?_⟩
  · exact (Checked.ensures_iff.mp addition).2 _ added 5 5 here here
  · exact (Checked.ensures_iff.mp subtraction).2 _ taken 5 7 here (by decide)
  · exact (Checked.ensures_iff.mp scaling).2 _ scaled 5 here
  · exact (Checked.ensures_iff.mp substitution).2 _ replaced (by decide) 0 7 (by decide) moved

end Quasi

end LoopNest
