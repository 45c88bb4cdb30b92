import LoopNest.Proofs.Enumeration

/-! The bounds on an iterator admit a value exactly if the constraints that end with the iterator
hold there, and a bound is absent only if none of these constraints gives one. An equality whose
coefficient does not divide the rest gives bounds that admit no value. -/

namespace LoopNest

namespace Constraint

def limitsBelow (c : Constraint) (dim : Nat) : Bool := c.isEquality || 0 < c.expr.coeff dim

def limitsAbove (c : Constraint) (dim : Nat) : Bool := c.isEquality || c.expr.coeff dim < 0

end Constraint

namespace Polyhedron

def endingAt (s : Polyhedron) (dim : Nat) : List Constraint :=
  s.constraints.filter (·.lastDim? = some dim)

theorem forall_mem_endingAt {s : Polyhedron} {dim : Nat} {P : Constraint → Prop} :
    (∀ c ∈ s.endingAt dim, P c) ↔ ∀ c ∈ s.constraints, c.lastDim? = some dim → P c := by
  simp [endingAt]

variable {a b bounds narrowed : Bounds} {dim : Nat} {outer params : List Int} {c : Constraint}

/-! ## Sides without a bound -/

theorem Bounds.meet_eq_none :
    ((a.meet b).lower = none ↔ a.lower = none ∧ b.lower = none) ∧
      ((a.meet b).upper = none ↔ a.upper = none ∧ b.upper = none) := by
  obtain ⟨lower, upper⟩ := a
  obtain ⟨lower', upper'⟩ := b
  constructor
  · cases lower <;> cases lower' <;> simp [Bounds.meet]
  · cases upper <;> cases upper' <;> simp [Bounds.meet]

/-- The two bounds are computed one after the other, each where its condition holds. -/
theorem boundsOf_eq (kind : Relation) (coeff rest : Int) :
    boundsOf kind coeff rest =
      (if 0 < coeff then pure coeff else Word.neg coeff) >>= fun size =>
      (if 0 < coeff then Word.neg rest else pure rest) >>= fun limit =>
      (if 0 < coeff ∨ kind = .equality then some <$> Word.ceilDiv limit size else pure none) >>=
        fun lower =>
      (if coeff < 0 ∨ kind = .equality then some <$> Word.floorDiv limit size else pure none) >>=
        fun upper => pure ⟨lower, upper⟩ := by
  unfold boundsOf
  by_cases positive : 0 < coeff <;> by_cases negative : coeff < 0 <;> cases kind <;>
    simp only [positive, negative, reduceCtorEq, or_false, or_true, if_true, if_false]

/-- A side has a bound if the sign of the coefficient gives one, or the relation is an equality. -/
theorem boundsOf_eq_none {kind : Relation} {coeff rest : Int}
    (h : boundsOf kind coeff rest = .ok bounds) :
    (bounds.lower = none ↔ ¬(0 < coeff ∨ kind = .equality)) ∧
      (bounds.upper = none ↔ ¬(coeff < 0 ∨ kind = .equality)) := by
  have side {condition : Prop} [Decidable condition] {bound : Checked Int} {result : Option Int}
      (computed : (if condition then some <$> bound else pure none) = .ok result) :
      result = none ↔ ¬condition := by
    split at computed
    · rename_i holds
      obtain ⟨value, -, rfl⟩ := Checked.map_eq_ok_iff.mp computed
      simp [holds]
    · rename_i fails
      cases computed
      simp [fails]
  simp only [boundsOf_eq, Checked.bind_eq_ok_iff] at h
  obtain ⟨size, -, limit, -, lower, below, upper, above, h⟩ := h
  cases h
  exact ⟨side below, side above⟩

theorem narrowBounds_eq_none (h : narrowBounds dim outer params bounds c = .ok narrowed) :
    (narrowed.lower = none ↔ bounds.lower = none ∧
      (c.lastDim? = some dim → c.limitsBelow dim = false)) ∧
    (narrowed.upper = none ↔ bounds.upper = none ∧
      (c.lastDim? = some dim → c.limitsAbove dim = false)) := by
  unfold narrowBounds at h
  by_cases last : c.lastDim? = some dim
  · rw [if_pos last] at h
    simp only [Checked.bind_eq_ok_iff] at h
    obtain ⟨rest, -, own, bounded, h⟩ := h
    cases h
    obtain ⟨below, above⟩ := boundsOf_eq_none bounded
    constructor
    · rw [Bounds.meet_eq_none.1, below]
      simp [last, Constraint.limitsBelow, Constraint.isEquality, and_comm]
    · rw [Bounds.meet_eq_none.2, above]
      simp [last, Constraint.limitsAbove, Constraint.isEquality, and_comm]
  · rw [if_neg last] at h
    cases h
    simp [last]

theorem foldlM_narrowBounds_eq_none {constraints : List Constraint}
    (h : constraints.foldlM (narrowBounds dim outer params) bounds = .ok narrowed) :
    (narrowed.lower = none ↔ bounds.lower = none ∧
      ∀ c ∈ constraints, c.lastDim? = some dim → c.limitsBelow dim = false) ∧
    (narrowed.upper = none ↔ bounds.upper = none ∧
      ∀ c ∈ constraints, c.lastDim? = some dim → c.limitsAbove dim = false) := by
  induction constraints generalizing bounds with
  | nil =>
    cases h
    simp
  | cons c cs ih =>
    simp only [List.foldlM_cons, Checked.bind_eq_ok_iff] at h
    obtain ⟨next, step, h⟩ := h
    obtain ⟨below, above⟩ := ih h
    obtain ⟨stepBelow, stepAbove⟩ := narrowBounds_eq_none step
    rw [below, above, stepBelow, stepAbove, List.forall_mem_cons, List.forall_mem_cons, and_assoc,
      and_assoc]
    exact ⟨.rfl, .rfl⟩

/-- The bounds on an iterator are tight. The values between them are those at which the constraints
that end with the iterator hold, be it in exact arithmetic or as they are tested, and a bound is
absent exactly if no such constraint is an equality or has a coefficient of the right sign. -/
theorem boundsAt_tight {s : Polyhedron} (length : outer.length = dim)
    (h : s.boundsAt dim outer params = .ok bounds) :
    (∀ x, (∀ c ∈ s.endingAt dim, c.Holds (outer ++ [x]) params) ↔ bounds.Admits x) ∧
    (∀ x all, allSatisfied (outer ++ [x]) params (s.endingAt dim) = .ok all →
      (all = true ↔ bounds.Admits x)) ∧
    (bounds.lower = none ↔ ∀ c ∈ s.endingAt dim, c.limitsBelow dim = false) ∧
    (bounds.upper = none ↔ ∀ c ∈ s.endingAt dim, c.limitsAbove dim = false) := by
  subst length
  have admits (x : Int) :
      (∀ c ∈ s.endingAt outer.length, c.Holds (outer ++ [x]) params) ↔ bounds.Admits x := by
    rw [forall_mem_endingAt, admits_foldlM_narrowBounds h x []]
    exact (and_iff_right Bounds.admits_unlimited).symm
  obtain ⟨below, above⟩ := foldlM_narrowBounds_eq_none h
  refine ⟨admits, fun x all tested => ?_, ?_, ?_⟩
  · rw [allSatisfied_eq_true_iff tested]
    exact admits x
  · rw [below, forall_mem_endingAt]
    exact and_iff_right rfl
  · rw [above, forall_mem_endingAt]
    exact and_iff_right rfl

/-- `x ≥ 1`, `3 y ≥ x`, `2 y = x + p` and, for a further iterator, `y ≤ z`. -/
def slanted : Polyhedron :=
  ⟨3, 1, [.nonneg ⟨-1, [1], []⟩, .nonneg ⟨0, [-1, 3], []⟩, .zero ⟨0, [1, -2], [1]⟩,
    .nonneg ⟨0, [0, -1, 1], []⟩]⟩

/-- The equality admits one value of `y` if it divides and none otherwise, and `z` has no upper
bound. -/
theorem slanted_tight :
    slanted.boundsAt 1 [4] [2] = .ok ⟨some 3, some 3⟩ ∧
    slanted.boundsAt 1 [4] [3] = .ok ⟨some 4, some 3⟩ ∧
    slanted.boundsAt 2 [4, 3] [2] = .ok ⟨some 3, none⟩ ∧
    ((∀ c ∈ slanted.endingAt 1, c.Holds [4, 3] [2]) ↔ Bounds.Admits ⟨some 3, some 3⟩ 3) ∧
    (∀ x, (∀ c ∈ slanted.endingAt 1, c.Holds [4, x] [3]) ↔ Bounds.Admits ⟨some 4, some 3⟩ x) ∧
    ∀ c ∈ slanted.endingAt 2, c.limitsAbove 2 = false := by
  have divides : slanted.boundsAt 1 [4] [2] = .ok ⟨some 3, some 3⟩ := by decide
  have leaves : slanted.boundsAt 1 [4] [3] = .ok ⟨some 4, some 3⟩ := by decide
  have last : slanted.boundsAt 2 [4, 3] [2] = .ok ⟨some 3, none⟩ := by decide
  refine ⟨divides, leaves, last, ?_, ?_, ?_⟩
  · exact (boundsAt_tight (by rfl) divides).1 3
  · exact (boundsAt_tight (by rfl) leaves).1
  · exact (boundsAt_tight (by rfl) last).2.2.2.mp rfl

end Polyhedron

end LoopNest
