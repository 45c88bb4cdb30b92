import LoopNest.Proofs.Outcome

/-! Two time stamps come in one of two orders, or they are equal. When a band is replaced, the order
of two instances can change only if both come to the band with the same entries. -/

namespace LoopNest

def compareStamps (as bs : List Int) : Ordering :=
  if precedes as bs then .lt else if precedes bs as then .gt else .eq

variable {as bs cs ds : List Int}

theorem compareStamps_eq_eq_iff : compareStamps as bs = .eq ↔ as = bs := by
  constructor
  · intro h
    rw [compareStamps] at h
    split at h
    · cases h
    · split at h
      · cases h
      · exact eq_of_not_precedes (by simp_all) (by simp_all)
  · rintro rfl
    simp [compareStamps, precedes_irrefl]

@[simp] theorem compareStamps_self (as : List Int) : compareStamps as as = .eq :=
  compareStamps_eq_eq_iff.mpr rfl

theorem compareStamps_swap (as bs : List Int) :
    (compareStamps as bs).swap = compareStamps bs as := by
  cases first : precedes as bs <;> cases second : precedes bs as <;>
    simp [compareStamps, first, second]
  have := precedes_trans first second
  simp [precedes_irrefl] at this

theorem compareStamps_cons (a b : Int) (as bs : List Int) :
    compareStamps (a :: as) (b :: bs) =
      if a < b then .lt else if b < a then .gt else compareStamps as bs := by
  simp only [compareStamps, precedes, Bool.or_eq_true, Bool.and_eq_true, decide_eq_true_eq]
  rcases Int.lt_trichotomy a b with lt | rfl | gt
  · simp [lt]
  · simp
  · simp [gt, Int.lt_asymm gt, Int.ne_of_gt gt]

/-- Lists that start with equally many entries compare by these entries, then by the rests. -/
theorem compareStamps_append (length : as.length = bs.length) :
    compareStamps (as ++ cs) (bs ++ ds) = (compareStamps as bs).then (compareStamps cs ds) := by
  induction as generalizing bs with
  | nil =>
    obtain rfl : bs = [] := by simpa using length.symm
    simp
  | cons a as ih =>
    cases bs with
    | nil => simp at length
    | cons b bs =>
      rw [List.cons_append, List.cons_append, compareStamps_cons, compareStamps_cons,
        ih (by simpa using length)]
      split
      · rfl
      · split <;> rfl

theorem compareStamps_append_left (pre as bs : List Int) :
    compareStamps (pre ++ as) (pre ++ bs) = compareStamps as bs := by
  rw [compareStamps_append rfl, compareStamps_self, Ordering.eq_then]

/-- Entries that differ decide. -/
theorem compareStamps_append_of_ne (length : as.length = bs.length) (ne : as ≠ bs) :
    compareStamps (as ++ cs) (bs ++ ds) = compareStamps as bs := by
  rw [compareStamps_append length]
  cases own : compareStamps as bs with
  | lt => rfl
  | gt => rfl
  | eq => exact absurd (compareStamps_eq_eq_iff.mp own) ne

/-- Entries that are equal where those before them are equal do not count. -/
theorem compareStamps_skip {as' bs' : List Int} (length : as.length = bs.length)
    (same : as = bs → as' = bs') :
    compareStamps (as ++ (as' ++ cs)) (bs ++ (bs' ++ ds)) =
      compareStamps (as ++ cs) (bs ++ ds) := by
  by_cases equal : as = bs
  · rw [equal, same equal, compareStamps_append_left, compareStamps_append_left,
      compareStamps_append_left]
  · rw [compareStamps_append_of_ne length equal, compareStamps_append_of_ne length equal]

theorem compareStamps_of_le (le : List.Forall₂ (· ≤ ·) as bs) (ne : as ≠ bs) :
    compareStamps as bs = .lt := by
  induction le with
  | nil => exact absurd rfl ne
  | @cons a b as bs head _ ih =>
    rw [compareStamps_cons]
    rcases Int.lt_or_eq_of_le head with lt | rfl
    · simp [lt]
    · simpa using ih (by simpa using ne)

/-! ## Quotients and remainders -/

section Tiled

variable {sizes : List Int}

theorem forall₂_fdiv (le : List.Forall₂ (· ≤ ·) as bs) (positive : ∀ size ∈ sizes, 0 < size) :
    List.Forall₂ (· ≤ ·) (as.zipWith Int.fdiv sizes) (bs.zipWith Int.fdiv sizes) := by
  induction le generalizing sizes with
  | nil => exact .nil
  | cons head _ ih =>
    cases sizes with
    | nil => exact .nil
    | cons size sizes =>
      obtain ⟨pos, positive⟩ := List.forall_mem_cons.mp positive
      refine .cons ?_ (ih positive)
      rw [Int.fdiv_eq_ediv_of_nonneg _ pos.le, Int.fdiv_eq_ediv_of_nonneg _ pos.le]
      exact Int.ediv_le_ediv pos head

/-- Within one tile, remainders are in the order of the values. -/
theorem forall₂_fmod (le : List.Forall₂ (· ≤ ·) as bs)
    (same : as.zipWith Int.fdiv sizes = bs.zipWith Int.fdiv sizes) :
    List.Forall₂ (· ≤ ·) (as.zipWith Int.fmod sizes) (bs.zipWith Int.fmod sizes) := by
  induction le generalizing sizes with
  | nil => exact .nil
  | @cons a b as bs head _ ih =>
    cases sizes with
    | nil => exact .nil
    | cons size sizes =>
      obtain ⟨quotient, same⟩ := List.cons.inj same
      have left := Int.mul_fdiv_add_fmod a size
      have right := Int.mul_fdiv_add_fmod b size
      rw [quotient] at left
      exact .cons (by omega) (ih same)

/-- Quotients and remainders tell the values. -/
theorem eq_of_tiled (left : as.length = sizes.length) (right : bs.length = sizes.length)
    (tiles : as.zipWith Int.fdiv sizes = bs.zipWith Int.fdiv sizes)
    (points : as.zipWith Int.fmod sizes = bs.zipWith Int.fmod sizes) : as = bs := by
  induction sizes generalizing as bs with
  | nil => rw [List.length_eq_zero_iff.mp left, List.length_eq_zero_iff.mp right]
  | cons size sizes ih =>
    obtain ⟨a, as, rfl⟩ := List.exists_cons_of_length_eq_add_one left
    obtain ⟨b, bs, rfl⟩ := List.exists_cons_of_length_eq_add_one right
    obtain ⟨quotient, tiles⟩ := List.cons.inj tiles
    obtain ⟨remainder, points⟩ := List.cons.inj points
    rw [← Int.mul_fdiv_add_fmod a size, quotient, remainder, Int.mul_fdiv_add_fmod,
      ih (by simpa using left) (by simpa using right) tiles points]

/-- If no entry of the first list is greater, the lists compare as their quotients do, then as
their remainders do. -/
theorem compareStamps_tiled (le : List.Forall₂ (· ≤ ·) as bs) (length : as.length = sizes.length)
    (positive : ∀ size ∈ sizes, 0 < size) :
    compareStamps (as.zipWith Int.fdiv sizes ++ as.zipWith Int.fmod sizes)
      (bs.zipWith Int.fdiv sizes ++ bs.zipWith Int.fmod sizes) = compareStamps as bs := by
  have length' : bs.length = sizes.length := le.length_eq ▸ length
  by_cases same : as = bs
  · rw [same, compareStamps_self, compareStamps_self]
  rw [compareStamps_of_le le same]
  by_cases sameTiles : as.zipWith Int.fdiv sizes = bs.zipWith Int.fdiv sizes
  · rw [sameTiles, compareStamps_append_left]
    apply compareStamps_of_le (forall₂_fmod le sameTiles)
    exact fun samePoints => same (eq_of_tiled length length' sameTiles samePoints)
  · rw [compareStamps_append_of_ne (by simp [length, length']) sameTiles]
    exact compareStamps_of_le (forall₂_fdiv le positive) sameTiles

end Tiled

/-! ## The order of instances around a replaced band -/

namespace Tree

variable {x y : Iteration} {above : List Frame} {t t' whole whole' : Tree} {as' bs' : List Int}

/-- Two instances keep their order, or both come to the replaced tree with the same entries. -/
theorem Grafted.compare_cases (graft : Grafted t t' above whole whole')
    (arities : whole.EveryBand Band.HasArity) (admits : ∀ y, t'.admits y = t.admits y)
    (oldX : whole.stamp x = some as) (oldY : whole.stamp y = some bs)
    (newX : whole'.stamp x = some as') (newY : whole'.stamp y = some bs') :
    compareStamps as' bs' = compareStamps as bs ∨
      ∃ pre, Comes x t t' whole whole' pre ∧ Comes y t t' whole whole' pre := by
  induction graft generalizing as bs as' bs' with
  | here =>
    have comes : ∀ x, Comes x t t' t t' [] := fun x =>
      ⟨by simp, by simp, fun _ y => .inl ⟨by simp, by simp⟩⟩
    exact .inr ⟨[], comes x, comes y⟩
  | @inside above id arity kind child c i graft ih =>
    have same : ∀ y k, (Function.update child i c k).admits y = (child k).admits y := by
      intro y k
      by_cases here : k = i
      · subst here
        simpa using graft.admits (admits y)
      · simp [here]
    simp only [stamp_node, Option.bind_eq_some_iff, Option.map_eq_some_iff] at oldX oldY newX newY
    rw [onward_congr kind (same x)] at newX
    rw [onward_congr kind (same y)] at newY
    obtain ⟨⟨ex, next⟩, stepX, rx, restX, rfl⟩ := oldX
    obtain ⟨⟨ey, next'⟩, stepY, ry, restY, rfl⟩ := oldY
    obtain ⟨_, stepX', rx', restX', rfl⟩ := newX
    obtain ⟨_, stepY', ry', restY', rfl⟩ := newY
    cases stepX.symm.trans stepX'
    cases stepY.symm.trans stepY'
    have length : ex.length = ey.length := by
      rw [onward_length arities.1 stepX, onward_length arities.1 stepY]
    by_cases equal : ex = ey
    · subst equal
      obtain rfl : next = next' := onward_next stepX stepY
      rw [compareStamps_append_left, compareStamps_append_left]
      cases next with
      | none =>
        cases restX
        cases restY
        cases restX'
        cases restY'
        exact .inl rfl
      | some j =>
        rw [after_some] at restX restY restX' restY'
        by_cases here : j = i
        · subst here
          rw [Function.update_self] at restX' restY'
          rcases ih (arities.2 j) restX restY restX' restY' with keeps | ⟨pre, comesX, comesY⟩
          · exact .inl keeps
          · exact .inr ⟨_, comesX.inside same stepX, comesY.inside same stepY⟩
        · rw [Function.update_of_ne here] at restX' restY'
          cases restX.symm.trans restX'
          cases restY.symm.trans restY'
          exact .inl rfl
    · rw [compareStamps_append_of_ne length equal, compareStamps_append_of_ne length equal]
      exact .inl rfl

end Tree

namespace Arena

variable {a b : Arena}

/-- Two instances keep their order if they keep it where they come to the replaced band with the
same entries. -/
theorem Replaces.compare_eq {above : List Frame} {t t' : Tree} {x y : Iteration}
    {as' bs' : List Int} (replaces : a.Replaces b above t t')
    (arities : a.tree.EveryBand Band.HasArity)
    (below : ∀ pre us vs us' vs', Tree.Comes x t t' a.tree b.tree pre →
      Tree.Comes y t t' a.tree b.tree pre → t.stamp x = some us → t.stamp y = some vs →
      t'.stamp x = some us' → t'.stamp y = some vs' → compareStamps us' vs' = compareStamps us vs)
    (oldX : a.stamp x = some as) (oldY : a.stamp y = some bs)
    (newX : b.stamp x = some as') (newY : b.stamp y = some bs') :
    compareStamps as' bs' = compareStamps as bs := by
  have stampX := stamp_eq_some oldX
  have stampY := stamp_eq_some oldY
  have stampX' := stamp_eq_some newX
  have stampY' := stamp_eq_some newY
  have admits : ∀ y, t'.admits y = t.admits y := fun y => by
    rw [Tree.admits_of_isBand replaces.isBand, Tree.admits_of_isBand replaces.isBand']
  rcases replaces.graft.compare_cases arities admits stampX stampY stampX' stampY' with
    keeps | ⟨pre, comesX, comesY⟩
  · exact keeps
  rw [comesX.stamp_old, Option.map_eq_some_iff] at stampX
  rw [comesY.stamp_old, Option.map_eq_some_iff] at stampY
  rw [comesX.stamp_new, Option.map_eq_some_iff] at stampX'
  rw [comesY.stamp_new, Option.map_eq_some_iff] at stampY'
  obtain ⟨us, belowX, rfl⟩ := stampX
  obtain ⟨vs, belowY, rfl⟩ := stampY
  obtain ⟨us', belowX', rfl⟩ := stampX'
  obtain ⟨vs', belowY', rfl⟩ := stampY'
  rw [compareStamps_append_left, compareStamps_append_left]
  exact below pre us vs us' vs' comesX comesY belowX belowY belowX' belowY'

end Arena

end LoopNest
