import LoopNest.Quasi.Basic
import Mathlib.Algebra.BigOperators.Group.List.Basic
import Mathlib.Tactic.LinearCombination
import Mathlib.Tactic.Ring

/-! Sums, multiples, quotients, remainders and substitutions that exist have the values their names
say, in exact arithmetic. Nothing is assumed of the lengths of coefficient lists or of the
denominators in the operands. -/

namespace LoopNest

/-- The results of a successful traversal, one for each item. -/
theorem mapM_eq_ok {α β : Type} {f : α → Checked β} {items : List α} {results : List β}
    (h : items.mapM f = .ok results) : List.Forall₂ (fun x y => f x = .ok y) items results := by
  induction items generalizing results with
  | nil =>
    cases h
    exact .nil
  | cons x xs ih =>
    rw [List.mapM_cons] at h
    simp only [Checked.bind_eq_ok_iff] at h
    obtain ⟨y, hy, ys, hys, h⟩ := h
    cases h
    exact .cons hy (ih hys)

theorem exists_of_forall₂ {α β : Type} {R : α → β → Prop} {xs : List α} {ys : List β}
    (h : List.Forall₂ R xs ys) : (∀ x ∈ xs, ∃ y ∈ ys, R x y) ∧ ∀ y ∈ ys, ∃ x ∈ xs, R x y := by
  induction h with
  | nil => simp
  | cons head _ ih =>
    refine ⟨List.forall_mem_cons.mpr ⟨⟨_, by simp, head⟩, fun x member => ?_⟩,
      List.forall_mem_cons.mpr ⟨⟨_, by simp, head⟩, fun y member => ?_⟩⟩
    · obtain ⟨y, inside, rel⟩ := ih.1 x member
      exact ⟨y, by simp [inside], rel⟩
    · obtain ⟨x, inside, rel⟩ := ih.2 y member
      exact ⟨x, by simp [inside], rel⟩

namespace Affine

@[simp] theorem dotValue_nil_right (coeffs : List Int) : dotValue coeffs [] = 0 := by
  cases coeffs <;> rfl

@[simp] theorem dotValue_replicate_zero (n : Nat) (values : List Int) :
    dotValue (List.replicate n 0) values = 0 := by
  induction n generalizing values with
  | zero => rfl
  | succ n ih => cases values <;> simp [List.replicate_succ, dotValue, ih]

@[simp] theorem value_const (value : Int) (nDim nParam : Nat) (point params : List Int) :
    (const value nDim nParam).value point params = value := by
  simp [const, Affine.value]

@[simp] theorem value_zero (nDim nParam : Nat) (point params : List Int) :
    (zero nDim nParam).value point params = 0 := value_const ..

/-- Changing one coefficient changes the sum by that multiple of one value. -/
theorem dotValue_set (coeffs values : List Int) (dim : Nat) (c : Int)
    (bound : dim < coeffs.length) : dotValue (coeffs.set dim c) values =
      dotValue coeffs values + (c - coeffs[dim]) * values[dim]?.getD 0 := by
  induction coeffs generalizing values dim with
  | nil => simp at bound
  | cons head rest ih =>
    cases values with
    | nil => simp
    | cons v vs =>
      cases dim with
      | zero => simp [dotValue]; ring
      | succ dim =>
        simp only [List.set_cons_succ, dotValue, List.getElem_cons_succ, List.getElem?_cons_succ]
        rw [ih vs dim (by simpa using bound)]
        ring

/-- Changing one value changes the sum by that multiple of one coefficient. -/
theorem dotValue_set_right (coeffs values : List Int) (dim : Nat) (v : Int)
    (bound : dim < values.length) :
    dotValue coeffs (values.set dim v) =
      dotValue coeffs values + coeffs[dim]?.getD 0 * (v - values[dim]) := by
  induction coeffs generalizing values dim with
  | nil => simp [dotValue]
  | cons head rest ih =>
    cases values with
    | nil => simp at bound
    | cons w ws =>
      cases dim with
      | zero => simp [dotValue]; ring
      | succ dim =>
        simp only [List.set_cons_succ, dotValue, List.getElem_cons_succ, List.getElem?_cons_succ]
        rw [ih ws dim (by simpa using bound)]
        ring

theorem value_var (dim nDim nParam : Nat) (point params : List Int) (bound : dim < nDim) :
    (var dim nDim nParam).value point params = point[dim]?.getD 0 := by
  have inside : dim < (List.replicate nDim (0 : Int)).length := by simpa using bound
  simp only [var, zero, const, Affine.value, dotValue_set _ _ _ _ inside]
  simp

/-- An expression is its multiple of one iterator plus the rest. -/
theorem value_withoutDim (e : Affine) (dim : Nat) (point params : List Int) :
    e.value point params =
      (e.withoutDim dim).value point params + e.coeff dim * point[dim]?.getD 0 := by
  simp only [Affine.value, withoutDim, coeff]
  by_cases bound : dim < e.coeffs.length
  · rw [dotValue_set _ _ _ _ bound, List.getElem?_eq_getElem bound]
    simp only [Option.getD_some]
    ring
  · rw [List.set_eq_of_length_le (by omega), List.getElem?_eq_none (by omega)]
    simp

/-- Moving along one iterator moves the value by its coefficient. -/
theorem value_set (e : Affine) (dim : Nat) (x : Int) (point params : List Int)
    (bound : dim < point.length) :
    e.value (point.set dim x) params =
      e.value point params + e.coeff dim * (x - point[dim]?.getD 0) := by
  simp only [Affine.value, coeff]
  rw [dotValue_set_right _ _ _ _ bound, List.getElem?_eq_getElem bound]
  simp only [Option.getD_some]
  ring

def times (e : Affine) (factor : Int) : Affine :=
  ⟨e.constant * factor, e.coeffs.map (· * factor), e.paramCoeffs.map (· * factor)⟩

theorem dotValue_map_mul (coeffs values : List Int) (factor : Int) :
    dotValue (coeffs.map (· * factor)) values = dotValue coeffs values * factor := by
  induction coeffs generalizing values with
  | nil => simp [dotValue]
  | cons c cs ih =>
    cases values with
    | nil => simp
    | cons v vs =>
      simp only [List.map_cons, dotValue, ih]
      ring

theorem value_times (e : Affine) (factor : Int) (point params : List Int) :
    (e.times factor).value point params = e.value point params * factor := by
  simp only [Affine.value, times, dotValue_map_mul]
  ring

theorem mapM_mul_eq_ok {factor : Int} {coeffs scaled : List Int}
    (h : coeffs.mapM (Word.mul · factor) = .ok scaled) : scaled = coeffs.map (· * factor) := by
  have each := mapM_eq_ok h
  clear h
  induction each with
  | nil => rfl
  | cons head _ ih =>
    obtain ⟨-, rfl⟩ := Word.mul_eq_ok_iff.mp head
    rw [List.map_cons, ih]

/-- A multiple that exists is the exact one. -/
theorem eq_times_of_scale {e r : Affine} {factor : Int} (h : e.scale factor = .ok r) :
    r = e.times factor := by
  simp only [scale, Checked.bind_eq_ok_iff, Word.mul_eq_ok_iff] at h
  obtain ⟨constant, ⟨-, rfl⟩, coeffs, hc, paramCoeffs, hp, h⟩ := h
  cases h
  rw [times, mapM_mul_eq_ok hc, mapM_mul_eq_ok hp]

theorem value_scale {e r : Affine} {factor : Int} (h : e.scale factor = .ok r)
    (point params : List Int) : r.value point params = e.value point params * factor := by
  rw [eq_times_of_scale h, value_times]

theorem dotValue_addCoeffs {as bs sum : List Int} (h : addCoeffs as bs = .ok sum)
    (values : List Int) : dotValue sum values = dotValue as values + dotValue bs values := by
  induction as generalizing bs sum values with
  | nil =>
    cases h
    simp [dotValue]
  | cons a as ih =>
    cases bs with
    | nil =>
      cases h
      simp [dotValue]
    | cons b bs =>
      simp only [addCoeffs, Checked.bind_eq_ok_iff, Word.add_eq_ok_iff] at h
      obtain ⟨head, ⟨-, rfl⟩, tail, ht, h⟩ := h
      cases h
      cases values with
      | nil => simp
      | cons v vs =>
        simp only [dotValue, ih ht]
        ring

theorem value_add {a b r : Affine} (h : a.add b = .ok r) (point params : List Int) :
    r.value point params = a.value point params + b.value point params := by
  simp only [add, Checked.bind_eq_ok_iff, Word.add_eq_ok_iff] at h
  obtain ⟨constant, ⟨-, rfl⟩, coeffs, hc, paramCoeffs, hp, h⟩ := h
  cases h
  simp only [Affine.value, dotValue_addCoeffs hc, dotValue_addCoeffs hp]
  ring

theorem allDivisible_eq_true {divisor : Int} {values : List Int}
    (h : allDivisible divisor values = .ok true) : ∀ v ∈ values, divisor ∣ v := by
  induction values with
  | nil => simp
  | cons v vs ih =>
    simp only [allDivisible, Checked.bind_eq_ok_iff, Word.truncRem] at h
    obtain ⟨remainder, hr, h⟩ := h
    split at h
    · rename_i zero
      subst zero
      have divides : divisor ∣ v := by
        cases hd : Word.truncDiv v divisor with
        | error => simp [hd, Except.map] at hr
        | ok q =>
          simp only [hd, Except.map, Except.ok.injEq] at hr
          exact Int.dvd_of_tmod_eq_zero hr
      intro w member
      rcases List.mem_cons.mp member with rfl | member
      · exact divides
      · exact ih h w member
    · cases h

theorem truncDiv_eq_ok {a b result : Int} (h : Word.truncDiv a b = .ok result) (divides : b ∣ a) :
    a = b * result := by
  unfold Word.truncDiv at h
  split at h
  · cases h
  · obtain ⟨-, rfl⟩ := Word.narrow_eq_ok_iff.mp h
    exact (Int.mul_tdiv_cancel' divides).symm

theorem mapM_truncDiv_eq_ok {divisor : Int} {coeffs divided : List Int}
    (h : coeffs.mapM (Word.truncDiv · divisor) = .ok divided)
    (divides : ∀ c ∈ coeffs, divisor ∣ c) : coeffs = divided.map (· * divisor) := by
  have each := mapM_eq_ok h
  clear h
  induction each with
  | nil => rfl
  | cons head _ ih =>
    obtain ⟨here, later⟩ := List.forall_mem_cons.mp divides
    rw [List.map_cons, ← ih later, truncDiv_eq_ok head here, Int.mul_comm]

/-- An exact quotient times the divisor is the expression. -/
theorem eq_times_of_exactDiv {e r : Affine} {divisor : Int}
    (h : e.exactDiv? divisor = .ok (some r)) : e = r.times divisor := by
  unfold exactDiv? at h
  split at h
  · cases h
  · simp only [Checked.bind_eq_ok_iff] at h
    obtain ⟨divisible, hd, h⟩ := h
    split at h
    · rename_i all
      subst all
      have divides := allDivisible_eq_true hd
      simp only [Checked.bind_eq_ok_iff] at h
      obtain ⟨constant, h0, coeffs, h1, paramCoeffs, h2, h⟩ := h
      cases h
      rw [times, ← mapM_truncDiv_eq_ok h1 fun c m => divides c (by simp [m]),
        ← mapM_truncDiv_eq_ok h2 fun c m => divides c (by simp [m]), Int.mul_comm,
        ← truncDiv_eq_ok h0 (divides _ (by simp))]
    · cases h

theorem value_exactDiv {e r : Affine} {divisor : Int} (h : e.exactDiv? divisor = .ok (some r))
    (point params : List Int) : e.value point params = divisor * r.value point params := by
  rw [eq_times_of_exactDiv h, value_times, Int.mul_comm]

end Affine

def FloorTerm.value (t : FloorTerm) (point params : List Int) : Int :=
  t.coeff * (t.numerator.value point params).fdiv t.denominator

def termsValue (terms : List FloorTerm) (point params : List Int) : Int :=
  (terms.map fun t => t.value point params).sum

section Terms

variable (point params : List Int)

@[simp] theorem termsValue_nil : termsValue [] point params = 0 := rfl

@[simp] theorem termsValue_cons (t : FloorTerm) (ts : List FloorTerm) :
    termsValue (t :: ts) point params = t.value point params + termsValue ts point params := by
  simp [termsValue]

@[simp] theorem termsValue_append (ss ts : List FloorTerm) :
    termsValue (ss ++ ts) point params =
      termsValue ss point params + termsValue ts point params := by
  simp [termsValue]

/-- Multiples of one floor differ in their coefficients only. -/
theorem FloorTerm.value_of_sameFloor {s t : FloorTerm} (same : s.sameFloor t = true) :
    t.value point params = t.coeff * (s.numerator.value point params).fdiv s.denominator := by
  simp only [sameFloor, Bool.and_eq_true, decide_eq_true_eq] at same
  rw [FloorTerm.value, same.1, same.2]

theorem termsValue_filter (terms : List FloorTerm) :
    termsValue (terms.filter (·.coeff ≠ 0)) point params = termsValue terms point params := by
  induction terms with
  | nil => rfl
  | cons t ts ih =>
    by_cases zero : t.coeff = 0
    · simpa [zero, FloorTerm.value] using ih
    · simpa [zero] using ih

end Terms

namespace Quasi

variable {point params : List Int}

theorem value_eq (q : Quasi) (point params : List Int) :
    q.value point params = q.base.value point params + termsValue q.terms point params := by
  induction q with
  | affine e => simp [value, base, terms]
  | plus rest c n d ih _ =>
    simp only [value, base, terms, ih, termsValue_append, termsValue_cons, termsValue_nil,
      FloorTerm.value]
    ring

theorem value_ofTerms (base : Affine) (terms : List FloorTerm) (point params : List Int) :
    (ofTerms base terms).value point params =
      base.value point params + termsValue terms point params := by
  rw [value_eq, base_ofTerms, terms_ofTerms]

theorem termsValue_mergeTerm {term : FloorTerm} {terms merged : List FloorTerm}
    (h : mergeTerm term terms = .ok merged) :
    termsValue merged point params = termsValue terms point params + term.value point params := by
  induction terms generalizing merged with
  | nil =>
    cases h
    simp
  | cons t ts ih =>
    simp only [mergeTerm] at h
    split at h
    · rename_i same
      simp only [Checked.bind_eq_ok_iff, Word.add_eq_ok_iff] at h
      obtain ⟨sum, ⟨-, rfl⟩, h⟩ := h
      cases h
      rw [termsValue_cons, termsValue_cons, FloorTerm.value_of_sameFloor point params same]
      simp only [FloorTerm.value]
      ring
    · simp only [Checked.bind_eq_ok_iff] at h
      obtain ⟨rest, hr, h⟩ := h
      cases h
      rw [termsValue_cons, termsValue_cons, ih hr]
      ring

theorem termsValue_pushTerm {term : FloorTerm} {terms pushed : List FloorTerm}
    (h : pushTerm terms term = .ok pushed) :
    termsValue pushed point params = termsValue terms point params + term.value point params := by
  unfold pushTerm at h
  split at h
  · rename_i zero
    cases h
    simp [FloorTerm.value, zero]
  · simp only [Checked.bind_eq_ok_iff] at h
    obtain ⟨merged, hm, h⟩ := h
    cases h
    rw [termsValue_filter, termsValue_mergeTerm hm]

theorem termsValue_foldlM_pushTerm {terms pushed start : List FloorTerm}
    (h : terms.foldlM pushTerm start = .ok pushed) :
    termsValue pushed point params =
      termsValue start point params + termsValue terms point params := by
  induction terms generalizing start with
  | nil =>
    cases h
    simp
  | cons t ts ih =>
    simp only [List.foldlM_cons, Checked.bind_eq_ok_iff] at h
    obtain ⟨next, hn, h⟩ := h
    rw [ih h, termsValue_pushTerm hn, termsValue_cons]
    ring

/-- The affine parts are added, and the floor terms are pushed one after the other. -/
theorem parts_of_add {a b r : Quasi} (h : a.add b = .ok r) :
    a.base.add b.base = .ok r.base ∧ (a.terms ++ b.terms).foldlM pushTerm [] = .ok r.terms := by
  simp only [add, Checked.bind_eq_ok_iff] at h
  obtain ⟨sum, added, ts, pushed, h⟩ := h
  cases h
  simp [added, pushed]

theorem value_add {a b r : Quasi} (h : a.add b = .ok r) (point params : List Int) :
    r.value point params = a.value point params + b.value point params := by
  obtain ⟨sum, pushed⟩ := parts_of_add h
  rw [value_eq r, Affine.value_add sum, termsValue_foldlM_pushTerm pushed, termsValue_append,
    value_eq a, value_eq b, termsValue_nil]
  ring

/-- The affine part is multiplied also where the floors vanish. -/
theorem base_scale {q r : Quasi} {factor : Int} (h : q.scale factor = .ok r) :
    r.base = q.base.times factor := by
  unfold scale at h
  split at h
  · rename_i zero
    cases h
    simp [const, base, zero, Affine.const, Affine.times, nDim, nParam, Affine.nDim, Affine.nParam]
  · simp only [Checked.bind_eq_ok_iff] at h
    obtain ⟨scaled, hs, terms, -, h⟩ := h
    cases h
    rw [base_ofTerms, Affine.eq_times_of_scale hs]

theorem termsValue_scaled {factor : Int} {terms scaled : List FloorTerm}
    (h : List.Forall₂ (fun t s => scaleTerm factor t = .ok s) terms scaled) :
    termsValue scaled point params = termsValue terms point params * factor := by
  induction h with
  | nil => simp
  | @cons t s ts ss head _ ih =>
    simp only [scaleTerm, Checked.bind_eq_ok_iff, Word.mul_eq_ok_iff] at head
    obtain ⟨coeff, ⟨-, rfl⟩, head⟩ := head
    cases head
    simp only [termsValue_cons, ih, FloorTerm.value]
    ring

theorem value_scale {q r : Quasi} {factor : Int} (h : q.scale factor = .ok r)
    (point params : List Int) : r.value point params = q.value point params * factor := by
  unfold scale at h
  split at h
  · rename_i zero
    cases h
    simp [const, value, zero]
  · simp only [Checked.bind_eq_ok_iff] at h
    obtain ⟨scaled, hs, terms, ht, h⟩ := h
    cases h
    rw [value_ofTerms, Affine.value_scale hs, termsValue_scaled (mapM_eq_ok ht), value_eq q]
    ring

theorem value_sub {a b r : Quasi} (h : a.sub b = .ok r) (point params : List Int) :
    r.value point params = a.value point params - b.value point params := by
  simp only [sub, Checked.bind_eq_ok_iff] at h
  obtain ⟨negated, hn, h⟩ := h
  rw [value_add h, value_scale hn]
  ring

/-- The three ways to write the floor of a quotient. -/
theorem floorDiv_cases {q r : Quasi} {divisor : Int} (h : q.floorDiv divisor = .ok r) :
    0 < divisor ∧ (divisor = 1 ∧ r = q ∨
      (∃ e d, q = affine e ∧ e.exactDiv? divisor = .ok (some d) ∧ r = affine d) ∨
      divisor ≠ 1 ∧ r = plus (affine (.zero q.nDim q.nParam)) 1 q divisor) := by
  unfold floorDiv at h
  by_cases positive : divisor ≤ 0
  · rw [if_pos positive] at h
    cases h
  · rw [if_neg positive] at h
    dsimp only at h
    refine ⟨by omega, ?_⟩
    by_cases one : divisor = 1
    · rw [if_pos one] at h
      cases h
      exact .inl ⟨one, rfl⟩
    · rw [if_neg one] at h
      cases q with
      | affine e =>
        simp only [affine?, Checked.bind_eq_ok_iff] at h
        obtain ⟨quotient?, he, h⟩ := h
        cases quotient? with
        | none =>
          cases h
          exact .inr (.inr ⟨one, rfl⟩)
        | some d =>
          cases h
          exact .inr (.inl ⟨e, d, rfl, he, rfl⟩)
      | plus rest c n d =>
        simp only [affine?, pure_bind] at h
        cases h
        exact .inr (.inr ⟨one, rfl⟩)

theorem value_floorDiv {q r : Quasi} {divisor : Int} (h : q.floorDiv divisor = .ok r)
    (point params : List Int) :
    r.value point params = (q.value point params).fdiv divisor := by
  obtain ⟨positive, ⟨rfl, rfl⟩ | ⟨e, d, rfl, exact, rfl⟩ | ⟨-, rfl⟩⟩ := floorDiv_cases h
  · simp
  · simp only [value]
    rw [Affine.value_exactDiv exact, Int.mul_fdiv_cancel_left _ (by omega)]
  · simp [value]

/-- What a remainder is made of, when the divisor is not one. -/
theorem modulo_cases {q r : Quasi} {divisor : Int} (h : q.modulo divisor = .ok r) :
    divisor = 1 ∧ r = const 0 q.nDim q.nParam ∨
      divisor ≠ 1 ∧ ∃ quotient whole, q.floorDiv divisor = .ok quotient ∧
        quotient.scale divisor = .ok whole ∧ q.sub whole = .ok r := by
  unfold modulo at h
  by_cases one : divisor = 1
  · rw [if_pos one] at h
    cases h
    exact .inl ⟨one, rfl⟩
  · rw [if_neg one] at h
    simp only [Checked.bind_eq_ok_iff] at h
    obtain ⟨quotient, hq, whole, hw, hs⟩ := h
    exact .inr ⟨one, quotient, whole, hq, hw, hs⟩

theorem value_modulo {q r : Quasi} {divisor : Int} (h : q.modulo divisor = .ok r)
    (point params : List Int) :
    r.value point params = (q.value point params).fmod divisor := by
  rcases modulo_cases h with ⟨rfl, rfl⟩ | ⟨-, quotient, whole, hq, hw, hs⟩
  · simp [const, value]
  · rw [value_sub hs, value_scale hw, value_floorDiv hq]
    have := Int.mul_fdiv_add_fmod (q.value point params) divisor
    linear_combination -this

theorem value_substBase {dim : Nat} {replacement r : Quasi} {base : Affine}
    {terms : List FloorTerm} (h : substBase dim replacement base terms = .ok r)
    (bound : dim < point.length) :
    r.value point params =
      base.value (point.set dim (replacement.value point params)) params +
        termsValue terms point params := by
  simp only [substBase, Checked.bind_eq_ok_iff] at h
  obtain ⟨scaled, hs, h⟩ := h
  rw [value_add h, value_scale hs, value_ofTerms, Affine.value_set _ _ _ _ _ bound,
    Affine.value_withoutDim base dim]
  ring

/-- The floor terms after a substitution have the values that they had at the moved point. -/
theorem termsValue_substTerms {dim : Nat} {replacement q : Quasi} {terms : List FloorTerm}
    (h : substTerms dim replacement q = .ok terms) (bound : dim < point.length) :
    termsValue terms point params =
      termsValue q.terms (point.set dim (replacement.value point params)) params := by
  induction q generalizing terms with
  | affine e =>
    cases h
    rfl
  | plus rest c n d outer inner =>
    simp only [substTerms, Checked.bind_eq_ok_iff] at h
    obtain ⟨before, hb, below, hi, numerator, hn, h⟩ := h
    rw [termsValue_pushTerm h, outer hb, FloorTerm.value, value_substBase hn bound, inner hi,
      ← value_eq n]
    simp only [Quasi.terms, termsValue_append, termsValue_cons, termsValue_nil, FloorTerm.value]
    ring

/-- Substituting for an iterator is evaluating with the iterator moved. -/
theorem value_subst {q r replacement : Quasi} {dim : Nat} (h : q.subst dim replacement = .ok r)
    (bound : dim < point.length) :
    r.value point params = q.value (point.set dim (replacement.value point params)) params := by
  simp only [subst, Checked.bind_eq_ok_iff] at h
  obtain ⟨terms, ht, h⟩ := h
  rw [value_substBase h bound, termsValue_substTerms ht bound, value_eq q]

end Quasi

end LoopNest
