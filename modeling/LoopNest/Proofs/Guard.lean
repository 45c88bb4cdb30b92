import LoopNest.Proofs.Dependence
import LoopNest.Proofs.Way
import LoopNest.Tiling.FullTile

/-! An iterator that runs through a block of values in each tile starts the block at a multiple of
the width. The guard holds at an instance exactly if the constraints on the iterator hold at both
ends of its block. A constraint is affine, so it then holds at the values between them too. -/

namespace LoopNest

def Iteration.move (x : Iteration) (dim : Nat) (value : Int) : Iteration :=
  { x with point := x.point.set dim value }

/-- The least value that an iterator takes in its block. -/
def Iteration.blockStart (x : Iteration) (dim : Nat) (width : Int) : Int :=
  width * (x.point[dim]?.getD 0).fdiv width

instance (c : Constraint) (point params : List Int) : Decidable (c.Holds point params) := by
  unfold Constraint.Holds; infer_instance

instance (s : Polyhedron) (point params : List Int) : Decidable (s.Mem point params) := by
  unfold Polyhedron.Mem; infer_instance

/-- Membership is that all inequalities hold. -/
theorem Polyhedron.mem_iff_inequalities {s : Polyhedron} {constraints : List Affine}
    (h : s.inequalities = .ok constraints) {point params : List Int} :
    s.Mem point params ↔ point.length = s.nDim ∧ ∀ c ∈ constraints, 0 ≤ c.value point params := by
  simp only [inequalities, Checked.bind_eq_ok_iff] at h
  obtain ⟨parts, each, h⟩ := h
  cases h
  refine and_congr_right fun _ => ?_
  have relate := mapM_eq_ok each
  clear each
  generalize s.constraints = items at relate
  induction relate with
  | nil => simp
  | @cons c part cs parts head _ ih =>
    have own : c.Holds point params ↔ ∀ e ∈ part, 0 ≤ e.value point params := by
      unfold Constraint.inequalities at head
      cases kind : c.kind with
      | inequality =>
        simp only [kind] at head
        cases head
        simp [Constraint.Holds, Relation.holds, kind]
      | equality =>
        simp only [kind, Checked.bind_eq_ok_iff] at head
        obtain ⟨negated, hn, head⟩ := head
        cases head
        have negative : negated.value point params = c.expr.value point params * -1 :=
          Affine.value_scale hn point params
        simp only [Constraint.Holds, Relation.holds, kind, decide_eq_true_eq, List.mem_cons,
          List.not_mem_nil, or_false, forall_eq_or_imp, forall_eq, negative]
        omega
    simp [own, ih, or_imp, forall_and]

/-- An affine value that is not negative at both ends is not negative between them. -/
theorem Affine.nonneg_between {c : Affine} {point params : List Int} {dim : Nat}
    {first last v : Int} (bound : dim < point.length) (lower : first ≤ v) (upper : v ≤ last)
    (atFirst : 0 ≤ c.value (point.set dim first) params)
    (atLast : 0 ≤ c.value (point.set dim last) params) : 0 ≤ c.value (point.set dim v) params := by
  rw [value_set _ _ _ _ _ bound] at atFirst atLast ⊢
  rcases Int.le_total 0 (c.coeff dim) with sign | sign
  · refine atFirst.trans (Int.add_le_add_left (Int.mul_le_mul_of_nonneg_left ?_ sign) _)
    omega
  · refine atLast.trans (Int.add_le_add_left (Int.mul_le_mul_of_nonpos_left sign ?_) _)
    omega

theorem Quasi.blockDim?_eq_some {e : Quasi} {nDim dim : Nat} {width : Int}
    (h : e.blockDim? nDim width = some dim) :
    dim < nDim ∧ e.base.coeff dim = 1 := by
  obtain ⟨leading, -⟩ := Option.filter_eq_some_iff.mp h
  have found := List.find?_some leading
  have member := List.mem_of_find?_eq_some leading
  exact ⟨by simpa using member, of_decide_eq_true found⟩

namespace FullTile

variable {dim nDim : Nat} {width : Int} {guard : Guard}

theorem values_blockEnds {nParam : Nat} {ends : List Quasi}
    (h : blockEnds dim width nDim nParam = .ok ends) (bound : dim < nDim) (x : Iteration) :
    x.values ends = [x.blockStart dim width, x.blockStart dim width + (width - 1)] := by
  simp only [blockEnds, Checked.bind_eq_ok_iff, List.mapM_cons, List.mapM_nil,
    Word.sub_eq_ok_iff] at h
  obtain ⟨offset, ho, start, hs, _, ⟨-, rfl⟩, first, hf, _, ⟨last, hl, _, hn, ht⟩, h⟩ := h
  cases hn
  cases ht
  cases h
  have here : start.value x.point x.params = x.blockStart dim width := by
    rw [Quasi.value_sub hs, Quasi.value_modulo ho, Quasi.var, Quasi.value,
      Affine.value_var _ _ _ _ _ bound, Iteration.blockStart]
    have := Int.mul_fdiv_add_fmod (x.point[dim]?.getD 0) width
    omega
  simp [Iteration.values, Iteration.value, Quasi.value_add hf, Quasi.value_add hl, here,
    Quasi.const, Quasi.value]

/-- A constraint at the ends of a block. -/
theorem admits_substituted {c : Affine} {ends : List Quasi} {x : Iteration}
    (h : (ends.mapM fun value => (Quasi.affine c).subst dim value) = .ok guard)
    (bound : dim < x.point.length) :
    guard.admits x = true ↔
      ∀ v ∈ x.values ends, 0 ≤ c.value (x.point.set dim v) x.params := by
  simp only [Guard.admits, Iteration.values, List.all_eq_true, decide_eq_true_eq,
    List.forall_mem_map]
  have relate := mapM_eq_ok h
  clear h
  induction relate with
  | nil => simp
  | @cons e r es rs head _ ih =>
    have moved : x.value r = c.value (x.point.set dim (x.value e)) x.params :=
      Quasi.value_subst head bound
    simp only [List.forall_mem_cons, moved, ih]

theorem guardFrom_eq_some {fixed : Nat → Bool} {ends : List Quasi} {constraints : List Affine}
    (h : guardFrom fixed nDim dim ends constraints = .ok (some guard)) :
    (∀ c ∈ constraints, c.dependsOn dim = true →
      ∀ d < nDim, c.dependsOn d = true → fixed d = true) ∧
    ∀ x : Iteration, dim < x.point.length → (guard.admits x = true ↔
      ∀ c ∈ constraints, c.dependsOn dim = true →
        ∀ v ∈ x.values ends, 0 ≤ c.value (x.point.set dim v) x.params) := by
  induction constraints generalizing guard with
  | nil =>
    cases h
    simp [Guard.admits]
  | cons c cs ih =>
    simp only [guardFrom] at h
    split at h
    · rename_i without
      obtain ⟨fixes, iff⟩ := ih h
      simp only [Bool.not_eq_true'] at without
      simpa [without] using ⟨fixes, iff⟩
    · rename_i depends
      split at h
      · cases h
      · rename_i own
        simp only [Checked.bind_eq_ok_iff] at h
        obtain ⟨here, hh, rest, hr, h⟩ := h
        obtain ⟨later, rfl, same⟩ := Option.map_eq_some_iff.mp (Except.ok.inj h)
        subst same
        obtain ⟨fixes, iff⟩ := ih hr
        simp only [Bool.not_eq_true', Bool.not_eq_false] at depends own
        refine ⟨?_, fun x bound => ?_⟩
        · intro c' member
          rcases List.mem_cons.mp member with rfl | member
          · intro _ d within dependsToo
            have := List.all_eq_true.mp own d (List.mem_range.mpr within)
            simpa [dependsToo] using this
          · exact fixes c' member
        · have both : Guard.admits (here ++ later) x = true ↔
              Guard.admits here x = true ∧ Guard.admits later x = true := by
            simp [Guard.admits]
          rw [both, admits_substituted hh bound, iff x bound]
          simp [depends]

/-- What a guard is worth. The iterators that its constraints contain, and those of the loop, are
fixed or the one that runs through the block. -/
structure Guards (domain : Polyhedron) (e : Quasi) (dim : Nat) (above below : List Quasi)
    (width : Int) (guard : Guard) (constraints : List Affine) : Prop where
  inequalities : domain.inequalities = .ok constraints
  loop : ∀ d < domain.nDim, e.dependsOn d = true →
    d = dim ∨ Arena.isFixed above below domain.nDim d = true
  fixes : ∀ c ∈ constraints, c.dependsOn dim = true → ∀ d < domain.nDim, c.dependsOn d = true →
    d = dim ∨ Arena.isFixed above below domain.nDim d = true
  admits : ∀ x : Iteration, x.point.length = domain.nDim → (guard.admits x = true ↔
    ∀ c ∈ constraints, c.dependsOn dim = true →
      0 ≤ c.value (x.point.set dim (x.blockStart dim width)) x.params ∧
        0 ≤ c.value (x.point.set dim (x.blockStart dim width + (width - 1))) x.params)

theorem guards_of_guardOf {domain : Polyhedron} {e : Quasi} {above below : List Quasi}
    (bound : dim < domain.nDim)
    (h : guardOf domain e dim above below width = .ok (some guard)) :
    ∃ constraints, Guards domain e dim above below width guard constraints := by
  simp only [guardOf] at h
  split at h
  · rename_i fixed
    simp only [Checked.bind_eq_ok_iff] at h
    obtain ⟨ends, he, constraints, hc, h⟩ := h
    obtain ⟨fixes, admits⟩ := guardFrom_eq_some h
    refine ⟨constraints, hc, fun d within depends => ?_, fun c member depends d within other => ?_,
      fun x length => ?_⟩
    · simpa [depends] using List.all_eq_true.mp fixed d (List.mem_range.mpr within)
    · simpa using fixes c member depends d within other
    · rw [admits x (length ▸ bound), values_blockEnds he bound x]
      simp
  · cases h

namespace Guards

variable {domain : Polyhedron} {e : Quasi} {above below : List Quasi} {constraints : List Affine}
  {x y : Iteration}

/-- Instances that agree on the fixed iterators and lie in one block are both in full tiles, or
neither is. -/
theorem admits_eq (guards : Guards domain e dim above below width guard constraints)
    (lengthX : x.point.length = domain.nDim) (lengthY : y.point.length = domain.nDim)
    (params : x.params = y.params) (block : x.blockStart dim width = y.blockStart dim width)
    (agree : ∀ d < domain.nDim, d ≠ dim → Arena.isFixed above below domain.nDim d = true →
      x.point[d]? = y.point[d]?) : guard.admits x = guard.admits y := by
  rw [Bool.eq_iff_iff, guards.admits x lengthX, guards.admits y lengthY, block, params]
  have same : ∀ c ∈ constraints, c.dependsOn dim = true → ∀ v,
      c.value (x.point.set dim v) y.params = c.value (y.point.set dim v) y.params := by
    intro c member depends v
    refine Affine.value_congr _ (by simp [lengthX, lengthY]) fun d other => ?_
    rw [List.getElem?_set, List.getElem?_set, lengthX, lengthY]
    split
    · rfl
    · rename_i ne
      by_cases within : d < domain.nDim
      · rcases guards.fixes c member depends d within other with rfl | fixed
        · exact absurd rfl ne
        · exact agree d within (Ne.symm ne) fixed
      · rw [List.getElem?_eq_none (by omega), List.getElem?_eq_none (by omega)]
  refine forall₂_congr fun c member => imp_congr_right fun depends => ?_
  rw [same c member depends, same c member depends]

/-- In a full tile the iterator takes all values of its block within the domain. -/
theorem mem_move (guards : Guards domain e dim above below width guard constraints)
    (mem : domain.Mem x.point x.params) (bound : dim < domain.nDim)
    (admitted : guard.admits x = true) {v : Int} (lower : 0 ≤ v) (upper : v < width) :
    domain.Mem (x.move dim (x.blockStart dim width + v)).point x.params := by
  obtain ⟨length, holds⟩ := (Polyhedron.mem_iff_inequalities guards.inequalities).mp mem
  have ends := (guards.admits x length).mp admitted
  refine (Polyhedron.mem_iff_inequalities guards.inequalities).mpr
    ⟨by simpa [Iteration.move] using length, fun c member => ?_⟩
  cases depends : c.dependsOn dim with
  | true =>
    obtain ⟨atFirst, atLast⟩ := ends c member depends
    exact Affine.nonneg_between (length ▸ bound) (by omega) (by omega) atFirst atLast
  | false =>
    have zero : c.coeff dim = 0 := by simpa [Affine.dependsOn] using depends
    rw [Iteration.move, Affine.value_set _ _ _ _ _ (length ▸ bound), zero]
    simpa using holds c member

end Guards

end FullTile

end LoopNest
