import LoopNest.Proofs.Algebra
import LoopNest.Proofs.Recombination

/-! An expression is normal if at every level no floor vanishes, no floor occurs twice, and all
denominators are positive. Operations keep to normal expressions: a substitution may make floors
equal or let them vanish, deep inside numerators too, and those are merged or dropped there. So what
is built by operations from iterators, parameters and constants never divides by zero. -/

namespace LoopNest

namespace Quasi

/-- At every level, coefficients of floors are not zero, denominators are positive, and no two
floors have the same numerator and denominator. -/
def Normal : Quasi → Prop
  | affine _ => True
  | plus rest c n d => rest.Normal ∧ n.Normal ∧ c ≠ 0 ∧ 0 < d ∧
    ∀ t ∈ rest.terms, (t.numerator, t.denominator) ≠ (n, d)

instance decidableNormal : DecidablePred Normal
  | affine _ => .isTrue trivial
  | plus rest c n d =>
    have := decidableNormal rest
    have := decidableNormal n
    inferInstanceAs (Decidable (rest.Normal ∧ n.Normal ∧ c ≠ 0 ∧ 0 < d ∧
      ∀ t ∈ rest.terms, (t.numerator, t.denominator) ≠ (n, d)))

structure NormalTerms (terms : List FloorTerm) : Prop where
  merged : Merged terms
  numerators : ∀ t ∈ terms, t.numerator.Normal
  denominators : ∀ t ∈ terms, 0 < t.denominator

variable {a b q r replacement : Quasi} {terms pushed : List FloorTerm} {term : FloorTerm}

theorem normalTerms_nil : NormalTerms [] where
  merged := ⟨by simp, .nil⟩
  numerators := by simp
  denominators := by simp

theorem normalTerms_concat : NormalTerms (terms ++ [term]) ↔ NormalTerms terms ∧
    term.numerator.Normal ∧ term.coeff ≠ 0 ∧ 0 < term.denominator ∧
      ∀ t ∈ terms, (t.numerator, t.denominator) ≠ (term.numerator, term.denominator) := by
  constructor
  · rintro ⟨⟨nonzero, distinct⟩, numerators, denominators⟩
    simp only [List.forall_mem_append, List.forall_mem_singleton] at nonzero numerators denominators
    obtain ⟨distinct, -, new⟩ := List.pairwise_append.mp distinct
    exact ⟨⟨⟨nonzero.1, distinct⟩, numerators.1, denominators.1⟩, numerators.2, nonzero.2,
      denominators.2, fun t member => new t member term (by simp)⟩
  · rintro ⟨⟨⟨nonzero, distinct⟩, numerators, denominators⟩, normal, coeff, positive, new⟩
    constructor
    · constructor
      · simp only [List.forall_mem_append, List.forall_mem_singleton]
        exact ⟨nonzero, coeff⟩
      · rw [List.pairwise_append]
        exact ⟨distinct, List.pairwise_singleton .., fun t member => by simpa using new t member⟩
    · simp only [List.forall_mem_append, List.forall_mem_singleton]
      exact ⟨numerators, normal⟩
    · simp only [List.forall_mem_append, List.forall_mem_singleton]
      exact ⟨denominators, positive⟩

theorem normal_iff : q.Normal ↔ NormalTerms q.terms := by
  induction q with
  | affine e => exact ⟨fun _ => normalTerms_nil, fun _ => trivial⟩
  | plus rest c n d ih _ => rw [Normal, ih, terms, normalTerms_concat]

theorem Normal.proper (normal : q.Normal) : q.Proper := by
  induction q with
  | affine e => trivial
  | plus rest c n d outer inner =>
    obtain ⟨normalRest, normalNumerator, -, positive, -⟩ := normal
    exact ⟨outer normalRest, inner normalNumerator, by omega⟩

/-! ## One term more -/

/-- A term that is merged meets its own floor only. -/
theorem distinct_mergeTerm
    (distinct : terms.Pairwise fun s t =>
      (s.numerator, s.denominator) ≠ (t.numerator, t.denominator))
    (h : mergeTerm term terms = .ok pushed) :
    pushed.Pairwise fun s t => (s.numerator, s.denominator) ≠ (t.numerator, t.denominator) := by
  induction terms generalizing pushed with
  | nil =>
    cases h
    exact List.pairwise_singleton ..
  | cons head rest ih =>
    obtain ⟨apart, later⟩ := List.pairwise_cons.mp distinct
    rw [mergeTerm] at h
    by_cases same : head.sameFloor term = true
    · rw [if_pos same] at h
      obtain ⟨sum, -, h⟩ := Checked.bind_eq_ok_iff.mp h
      cases h
      exact List.pairwise_cons.mpr ⟨apart, later⟩
    · rw [if_neg same] at h
      obtain ⟨tail, merged, h⟩ := Checked.bind_eq_ok_iff.mp h
      cases h
      refine List.pairwise_cons.mpr ⟨fun t member equal => ?_, ih later merged⟩
      obtain ⟨s, inside, numerators, denominators⟩ := mem_mergeTerm merged member
      rw [← numerators, ← denominators] at equal
      rcases List.mem_cons.mp inside with rfl | inside
      · apply same
        simpa [FloorTerm.sameFloor, and_comm] using equal
      · exact apart s inside equal

theorem merged_pushTerm (merged : Merged terms) (h : pushTerm terms term = .ok pushed) :
    Merged pushed := by
  unfold pushTerm at h
  split at h
  · cases h
    exact merged
  · obtain ⟨others, added, h⟩ := Checked.bind_eq_ok_iff.mp h
    cases h
    constructor
    · intro t member
      simpa using (List.mem_filter.mp member).2
    · exact (distinct_mergeTerm merged.distinct added).filter _

/-- What holds of all floors and of a new one holds after the new one is pushed. -/
theorem forall_mem_pushTerm {P : Quasi → Int → Prop} (h : pushTerm terms term = .ok pushed)
    (own : P term.numerator term.denominator) (others : ∀ t ∈ terms, P t.numerator t.denominator) :
    ∀ t ∈ pushed, P t.numerator t.denominator := by
  intro t member
  obtain ⟨s, inside, numerators, denominators⟩ := mem_pushTerm h member
  rw [← numerators, ← denominators]
  rcases List.mem_cons.mp inside with rfl | inside
  · exact own
  · exact others s inside

theorem NormalTerms.push (normal : NormalTerms terms) (numerator : term.numerator.Normal)
    (positive : 0 < term.denominator) (h : pushTerm terms term = .ok pushed) :
    NormalTerms pushed where
  merged := merged_pushTerm normal.merged h
  numerators := forall_mem_pushTerm (P := fun n _ => n.Normal) h numerator normal.numerators
  denominators := forall_mem_pushTerm (P := fun _ d => 0 < d) h positive normal.denominators

theorem NormalTerms.pushAll {others : List FloorTerm} (normal : NormalTerms terms)
    (numerators : ∀ t ∈ others, t.numerator.Normal) (denominators : ∀ t ∈ others, 0 < t.denominator)
    (h : others.foldlM pushTerm terms = .ok pushed) : NormalTerms pushed := by
  induction others generalizing terms with
  | nil =>
    cases h
    exact normal
  | cons t rest ih =>
    obtain ⟨numerator, numerators⟩ := List.forall_mem_cons.mp numerators
    obtain ⟨positive, denominators⟩ := List.forall_mem_cons.mp denominators
    rw [List.foldlM_cons] at h
    obtain ⟨next, step, h⟩ := Checked.bind_eq_ok_iff.mp h
    exact ih (normal.push numerator positive step) numerators denominators h

/-! ## The operations -/

namespace Normal

theorem add (left : a.Normal) (right : b.Normal) (h : a.add b = .ok r) : r.Normal := by
  have floors := normal_iff.mp left
  have floors' := normal_iff.mp right
  apply normal_iff.mpr
  apply normalTerms_nil.pushAll _ _ (parts_of_add h).2
  · exact List.forall_mem_append.mpr ⟨floors.numerators, floors'.numerators⟩
  · exact List.forall_mem_append.mpr ⟨floors.denominators, floors'.denominators⟩

theorem scale {factor : Int} (normal : q.Normal) (h : q.scale factor = .ok r) : r.Normal := by
  by_cases zero : factor = 0
  · rw [Quasi.scale, if_pos zero] at h
    cases h
    trivial
  · obtain ⟨⟨nonzero, distinct⟩, numerators, denominators⟩ := normal_iff.mp normal
    rw [normal_iff, terms_scale zero h]
    refine ⟨⟨?_, ?_⟩, ?_, ?_⟩
    · rw [List.forall_mem_map]
      exact fun t member => Int.mul_ne_zero (nonzero t member) zero
    · rw [List.pairwise_map]
      exact distinct
    · rw [List.forall_mem_map]
      exact numerators
    · rw [List.forall_mem_map]
      exact denominators

theorem sub (left : a.Normal) (right : b.Normal) (h : a.sub b = .ok r) : r.Normal := by
  obtain ⟨negated, negates, adds⟩ := Checked.bind_eq_ok_iff.mp h
  exact left.add (right.scale negates) adds

theorem floorDiv {divisor : Int} (normal : q.Normal) (h : q.floorDiv divisor = .ok r) :
    r.Normal := by
  obtain ⟨positive, ⟨-, rfl⟩ | ⟨_, _, -, -, rfl⟩ | ⟨-, rfl⟩⟩ := floorDiv_cases h
  · exact normal
  · trivial
  · exact ⟨trivial, normal, by decide, by omega, by simp [Quasi.terms]⟩

theorem modulo {divisor : Int} (normal : q.Normal) (h : q.modulo divisor = .ok r) : r.Normal := by
  rcases modulo_cases h with ⟨-, rfl⟩ | ⟨-, quotient, whole, floor, scaled, subtracted⟩
  · trivial
  · exact normal.sub ((normal.floorDiv floor).scale scaled) subtracted

theorem substBase {dim : Nat} {base : Affine} (normal : replacement.Normal)
    (floors : NormalTerms terms) (h : substBase dim replacement base terms = .ok r) :
    r.Normal := by
  obtain ⟨scaled, multiplied, added⟩ := Checked.bind_eq_ok_iff.mp h
  have rest : (ofTerms (base.withoutDim dim) terms).Normal := by
    rw [normal_iff, terms_ofTerms]
    exact floors
  exact rest.add (normal.scale multiplied) added

/-- Numerators that become equal are merged as the terms are put together again. -/
theorem substTerms {dim : Nat} (own : q.Normal) (normal : replacement.Normal)
    (h : substTerms dim replacement q = .ok terms) : NormalTerms terms := by
  induction q generalizing terms with
  | affine e =>
    cases h
    exact normalTerms_nil
  | plus rest c n d outer inner =>
    obtain ⟨normalRest, normalNumerator, -, positive, -⟩ := own
    simp only [Quasi.substTerms, Checked.bind_eq_ok_iff] at h
    obtain ⟨before, earlier, below, deeper, numerator, replaced, pushed⟩ := h
    have normalReplaced := normal.substBase (inner normalNumerator deeper) replaced
    exact (outer normalRest earlier).push normalReplaced positive pushed

theorem subst {dim : Nat} (own : q.Normal) (normal : replacement.Normal)
    (h : q.subst dim replacement = .ok r) : r.Normal := by
  obtain ⟨terms, floors, replaced⟩ := Checked.bind_eq_ok_iff.mp h
  exact normal.substBase (own.substTerms normal floors) replaced

end Normal

end Quasi

/-! ## Expressions as they are built -/

inductive Recipe where
  | iterator (dim nDim nParam : Nat)
  | parameter (index nDim nParam : Nat)
  | constant (value : Int) (nDim nParam : Nat)
  | add (a b : Recipe)
  | sub (a b : Recipe)
  | scale (a : Recipe) (factor : Int)
  | subst (a : Recipe) (dim : Nat) (replacement : Recipe)
  | floorDiv (a : Recipe) (divisor : Int)
  | modulo (a : Recipe) (divisor : Int)

namespace Recipe

def build : Recipe → Checked Quasi
  | iterator dim nDim nParam => .ok (.var dim nDim nParam)
  | parameter index nDim nParam => .ok (.affine (.param index nDim nParam))
  | constant value nDim nParam => .ok (.const value nDim nParam)
  | add a b => do
    let x ← a.build
    let y ← b.build
    x.add y
  | sub a b => do
    let x ← a.build
    let y ← b.build
    x.sub y
  | scale a factor => do
    let x ← a.build
    x.scale factor
  | subst a dim replacement => do
    let x ← a.build
    let y ← replacement.build
    x.subst dim y
  | floorDiv a divisor => do
    let x ← a.build
    x.floorDiv divisor
  | modulo a divisor => do
    let x ← a.build
    x.modulo divisor

theorem normal_of_build {recipe : Recipe} {q : Quasi} (h : recipe.build = .ok q) : q.Normal := by
  induction recipe generalizing q with
  | iterator dim nDim nParam =>
    cases h
    trivial
  | parameter index nDim nParam =>
    cases h
    trivial
  | constant value nDim nParam =>
    cases h
    trivial
  | add a b left right =>
    simp only [build, Checked.bind_eq_ok_iff] at h
    obtain ⟨x, first, y, second, h⟩ := h
    exact (left first).add (right second) h
  | sub a b left right =>
    simp only [build, Checked.bind_eq_ok_iff] at h
    obtain ⟨x, first, y, second, h⟩ := h
    exact (left first).sub (right second) h
  | scale a factor ih =>
    obtain ⟨x, first, h⟩ := Checked.bind_eq_ok_iff.mp h
    exact (ih first).scale h
  | subst a dim replacement own other =>
    simp only [build, Checked.bind_eq_ok_iff] at h
    obtain ⟨x, first, y, second, h⟩ := h
    exact (own first).subst (other second) h
  | floorDiv a divisor ih =>
    obtain ⟨x, first, h⟩ := Checked.bind_eq_ok_iff.mp h
    exact (ih first).floorDiv h
  | modulo a divisor ih =>
    obtain ⟨x, first, h⟩ := Checked.bind_eq_ok_iff.mp h
    exact (ih first).modulo h

end Recipe

namespace Quasi

/-- Unless a word overflows, operations on normal expressions have normal results. So an expression
that is built from iterators, parameters and constants, in whatever order and to whatever depth, is
normal, and where it is evaluated no division has a fault. -/
theorem operations_keep_normal :
    (∀ a b : Quasi, a.Normal → b.Normal →
      (a.add b).Ensures Normal ∧ (a.sub b).Ensures Normal ∧
      (∀ factor, (a.scale factor).Ensures Normal) ∧
      (∀ dim, (a.subst dim b).Ensures Normal) ∧
      ∀ divisor, 1 ≤ divisor →
        (a.floorDiv divisor).Ensures Normal ∧ (a.modulo divisor).Ensures Normal) ∧
    ∀ (recipe : Recipe) (q : Quasi), recipe.build = .ok q →
      q.Normal ∧ ∀ point params, (q.eval point params).OnlyOverflows := by
  constructor
  · intro a b left right
    refine ⟨?_, ?_, fun factor => ?_, fun dim => ?_, fun divisor positive => ⟨?_, ?_⟩⟩
    · exact Checked.ensures_iff.mpr ⟨onlyOverflows_add, fun r => left.add right⟩
    · exact Checked.ensures_iff.mpr ⟨onlyOverflows_sub, fun r => left.sub right⟩
    · exact Checked.ensures_iff.mpr ⟨onlyOverflows_scale, fun r => left.scale⟩
    · exact Checked.ensures_iff.mpr ⟨onlyOverflows_subst, fun r => left.subst right⟩
    · exact Checked.ensures_iff.mpr ⟨onlyOverflows_floorDiv positive, fun r => left.floorDiv⟩
    · exact Checked.ensures_iff.mpr ⟨onlyOverflows_modulo positive, fun r => left.modulo⟩
  · intro recipe q built
    have normal := Recipe.normal_of_build built
    exact ⟨normal, fun point params => onlyOverflows_eval normal.proper⟩

/-- The offset of `x - y` in blocks of eight, and in those in blocks of four, with `⌊x / 2⌋` for
`y`. -/
def shiftedOffset : Recipe :=
  .subst (.modulo (.modulo (.sub (.iterator 0 2 0) (.iterator 1 2 0)) 8) 4) 1
    (.floorDiv (.iterator 0 2 0) 2)

/-- Floors that a substitution lets vanish are dropped, and others are made inside of floors. -/
theorem shiftedOffset_normal :
    halfSteps.Normal ∧ (var 0 2 0).Normal ∧ (halfSteps.subst 1 (.var 0 2 0)).Ensures Normal ∧
      ∃ q, shiftedOffset.build = .ok q ∧ q.terms.length = 3 ∧ q.Normal ∧
        (q.eval [7, 0] []).OnlyOverflows := by
  obtain ⟨operations, recipes⟩ := operations_keep_normal
  have normal : halfSteps.Normal := by decide
  obtain ⟨-, -, -, substitution, -⟩ := operations halfSteps (.var 0 2 0) normal trivial
  obtain ⟨q, built, floors⟩ : ∃ q, shiftedOffset.build = .ok q ∧ q.terms.length = 3 :=
    ⟨_, rfl, rfl⟩
  obtain ⟨normal', evaluates⟩ := recipes shiftedOffset q built
  exact ⟨normal, trivial, substitution 1, q, built, floors, normal', evaluates [7, 0] []⟩

end Quasi

end LoopNest
