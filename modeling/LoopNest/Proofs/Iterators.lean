import LoopNest.Proofs.Guard
import LoopNest.Proofs.Strip

/-! An affine expression that contains one iterator alone has the same value at two instances only
if they agree on the iterator. The number of a tile says less, but with the offset in the tile it
says the same. So where the loops above have equal entries, an iterator that they determine on its
own is settled, or some loop that is still to come contains it. -/

namespace LoopNest

structure Iteration.Peers (nDim : Nat) (x y : Iteration) : Prop where
  left : x.point.length = nDim
  right : y.point.length = nDim
  params : x.params = y.params

theorem Iteration.Peers.value_eq {nDim : Nat} {x y : Iteration} (peers : x.Peers nDim y)
    {e : Quasi} (agree : ∀ d, e.dependsOn d = true → x.point[d]? = y.point[d]?) :
    x.value e = y.value e := by
  rw [Iteration.value, Iteration.value, peers.params]
  exact Quasi.value_congr _ (peers.left.trans peers.right.symm) agree

/-- An affine expression that contains one iterator alone grows with it. -/
theorem Affine.value_sub_of_alone {a : Affine} {nDim d : Nat} {x y : Iteration}
    (peers : x.Peers nDim y) (bound : d < nDim)
    (alone : ∀ other < nDim, a.dependsOn other = true → other = d) :
    a.value x.point x.params - a.value y.point y.params =
      a.coeff d * (x.point[d]?.getD 0 - y.point[d]?.getD 0) := by
  have boundX : d < x.point.length := peers.left ▸ bound
  have boundY : d < y.point.length := peers.right ▸ bound
  have moved : a.value (x.point.set d (y.point[d]?.getD 0)) y.params =
      a.value y.point y.params := by
    refine Affine.value_congr _ (by simp [peers.left, peers.right]) fun other contains => ?_
    by_cases within : other < nDim
    · obtain rfl := alone other within contains
      simp [boundX, boundY]
    · have outX : x.point.length ≤ other := by rw [peers.left]; omega
      have outY : y.point.length ≤ other := by rw [peers.right]; omega
      rw [List.getElem?_eq_none (by simpa using outX), List.getElem?_eq_none outY]
  rw [Affine.value_set _ _ _ _ _ boundX] at moved
  rw [peers.params, ← moved]
  ring

theorem Iteration.Peers.getElem?_eq {nDim d : Nat} {x y : Iteration} (peers : x.Peers nDim y)
    (bound : d < nDim) (same : x.point[d]?.getD 0 = y.point[d]?.getD 0) :
    x.point[d]? = y.point[d]? := by
  have boundX : d < x.point.length := peers.left ▸ bound
  have boundY : d < y.point.length := peers.right ▸ bound
  rw [List.getElem?_eq_getElem boundX, List.getElem?_eq_getElem boundY] at same ⊢
  exact congrArg some same

namespace Quasi

/-- Equal values of the expression tell an iterator that it contains alone. The iterators that it
contains stand outside its floors too. -/
structure Tells (nDim : Nat) (x y : Iteration) (e : Quasi) : Prop where
  within : ∀ d, e.dependsOn d = true → d < nDim
  outside : ∀ d, e.dependsOn d = true → e.base.coeff d ≠ 0
  agree : x.value e = y.value e → ∀ d, e.dependsOn d = true →
    (∀ other, e.dependsOn other = true → other = d) → x.point[d]? = y.point[d]?

variable {nDim : Nat} {x y : Iteration} {e tile offset : Quasi} {width : Int}

theorem tells_of_affine (peers : x.Peers nDim y) (affine : e.isAffine = true)
    (dims : e.nDim = nDim) : e.Tells nDim x y := by
  cases e with
  | plus => simp [isAffine, affine?] at affine
  | affine a =>
    have within : ∀ d, a.dependsOn d = true → d < nDim := by
      intro d depends
      by_contra outside
      have : a.coeffs[d]? = none := List.getElem?_eq_none (by
        rw [← dims] at outside
        simpa [Quasi.nDim, Quasi.base, Affine.nDim] using outside)
      simp [Affine.dependsOn, Affine.coeff, this] at depends
    refine ⟨within, fun d depends => by simpa [dependsOn, Affine.dependsOn, base] using depends,
      fun same d depends only => peers.getElem?_eq (within d depends) ?_⟩
    have grows := Affine.value_sub_of_alone peers (within d depends)
      fun other _ contains => only other contains
    simp only [Iteration.value, value] at same
    rw [same, Int.sub_self, eq_comm, Int.mul_eq_zero] at grows
    rcases grows with none | equal
    · simp [dependsOn, Affine.dependsOn, none] at depends
    · omega

/-- In one tile, the offset tells what the expression tells. -/
theorem Tells.modulo (tells : e.Tells nDim x y) (floor : e.floorDiv width = .ok tile)
    (modulo : e.modulo width = .ok offset) (same : x.value tile = y.value tile) :
    offset.Tells nDim x y := by
  rcases dependsOn_modulo modulo with none | ⟨depends, coeffs⟩
  · exact ⟨fun d h => by simp [none] at h, fun d h => by simp [none] at h,
      fun _ d h => by simp [none] at h⟩
  · refine ⟨fun d h => tells.within d (depends d ▸ h),
      fun d h => coeffs d ▸ tells.outside d (depends d ▸ h), fun offsets d h only => ?_⟩
    refine tells.agree (Band.value_eq_of_tiled floor floor modulo modulo same offsets) d
      (depends d ▸ h) fun other contains => only other ?_
    rw [depends, contains]

end Quasi

/-! ## Iterators that the loops above determine -/

open Arena (isCoupled isFixed)

theorem isCoupled_append {above more : List Quasi} {nDim d : Nat}
    (h : isCoupled above nDim d = true) : isCoupled (above ++ more) nDim d = true := by
  rw [isCoupled] at h ⊢
  rw [List.any_append, h, Bool.true_or]

/-- What contains an iterator together with others couples it. -/
theorem isCoupled_or_alone {above : List Quasi} {nDim d : Nat} {e : Quasi} (member : e ∈ above)
    (within : ∀ d, e.dependsOn d = true → d < nDim) (depends : e.dependsOn d = true) :
    isCoupled above nDim d = true ∨ ∀ other, e.dependsOn other = true → other = d := by
  by_cases alone : ∀ other, e.dependsOn other = true → other = d
  · exact .inr alone
  · push Not at alone
    obtain ⟨other, contains, ne⟩ := alone
    refine .inl (List.any_eq_true.mpr ⟨e, member, ?_⟩)
    simp only [depends, Bool.true_and, List.any_eq_true, List.mem_range]
    exact ⟨other, within other contains, by simp [ne, contains]⟩

/-- An iterator that appears above is coupled to others there, or the two instances agree on it, or
it appears in the loops that are still to come. -/
def Settled (nDim : Nat) (x y : Iteration) (above coming : List Quasi) : Prop :=
  ∀ d, (above.any (·.dependsOn d)) = true →
    isCoupled above nDim d = true ∨ x.point[d]? = y.point[d]? ∨ coming.any (·.dependsOn d) = true

namespace Settled

variable {nDim : Nat} {x y : Iteration} {above more coming rest es ts ps : List Quasi}

theorem nil : Settled nDim x y [] [] := by
  intro d h
  simp at h

theorem mono (settled : Settled nDim x y above coming) (sub : ∀ e ∈ coming, e ∈ rest) :
    Settled nDim x y above rest := by
  intro d h
  refine (settled d h).imp_right (Or.imp_right fun appears => ?_)
  obtain ⟨e, member, depends⟩ := List.any_eq_true.mp appears
  exact List.any_eq_true.mpr ⟨e, sub e member, depends⟩

/-- Loops with equal entries settle what they contain. -/
theorem append (settled : Settled nDim x y above coming)
    (equal : ∀ e ∈ more, e.Tells nDim x y ∧ x.value e = y.value e)
    (split : ∀ e ∈ coming, e ∈ more ∨ e ∈ rest) : Settled nDim x y (above ++ more) rest := by
  intro d h
  have contained : ∀ e ∈ more, e.dependsOn d = true →
      isCoupled (above ++ more) nDim d = true ∨ x.point[d]? = y.point[d]? := by
    intro e member depends
    obtain ⟨tells, same⟩ := equal e member
    exact (isCoupled_or_alone (List.mem_append_right above member) tells.within depends).imp_right
      (tells.agree same d depends)
  rw [List.any_append, Bool.or_eq_true] at h
  rcases h with h | h
  · rcases settled d h with coupled | agree | appears
    · exact .inl (isCoupled_append coupled)
    · exact .inr (.inl agree)
    · obtain ⟨e, member, depends⟩ := List.any_eq_true.mp appears
      rcases split e member with member | member
      · exact (contained e member depends).imp_right .inl
      · exact .inr (.inr (List.any_eq_true.mpr ⟨e, member, depends⟩))
  · obtain ⟨e, member, depends⟩ := List.any_eq_true.mp h
    exact (contained e member depends).imp_right .inl

/-- Loops over tiles with equal entries settle what they contain, or the points still contain it. -/
theorem tile (settled : Settled nDim x y above es) (peers : x.Peers nDim y) {sizes : List Int}
    (tiling : Band.Tiling sizes es ts ps) (tells : ∀ e ∈ es, e.Tells nDim x y)
    (same : x.values ts = y.values ts) : Settled nDim x y (above ++ ts) ps := by
  have contained : ∀ d, (∃ e ∈ es, e.dependsOn d = true) →
      isCoupled (above ++ ts) nDim d = true ∨ x.point[d]? = y.point[d]? ∨
        ps.any (·.dependsOn d) = true := by
    rintro d ⟨e, member, depends⟩
    obtain ⟨i, here⟩ := List.mem_iff_getElem?.mp member
    obtain ⟨size, _, tile, offset, -, here', atTiles, atPoints, floor, modulo⟩ :=
      tiling.row (List.getElem?_eq_some_iff.mp here).1
    cases here.symm.trans here'
    have inTiles := List.mem_of_getElem? atTiles
    have sameTile : x.value tile = y.value tile := List.map_inj_left.mp same tile inTiles
    rcases Quasi.dependsOn_modulo modulo with none | ⟨keeps, -⟩
    · have whole : x.value e = y.value e :=
        Band.value_eq_of_tiled floor floor modulo modulo sameTile
          (peers.value_eq fun d h => by simp [none] at h)
      have tileDepends : ∀ other, tile.dependsOn other = e.dependsOn other :=
        Quasi.dependsOn_floorDiv floor
      rcases isCoupled_or_alone (List.mem_append_right above inTiles)
        (fun other h => (tells e member).within other (tileDepends other ▸ h))
        ((tileDepends d).trans depends) with coupled | alone
      · exact .inl coupled
      · refine .inr (.inl ((tells e member).agree whole d depends fun other h => alone other ?_))
        rw [tileDepends, h]
    · exact .inr (.inr (List.any_eq_true.mpr ⟨offset, List.mem_of_getElem? atPoints,
        (keeps d).trans depends⟩))
  intro d h
  rw [List.any_append, Bool.or_eq_true] at h
  rcases h with h | h
  · rcases settled d h with coupled | agree | appears
    · exact .inl (isCoupled_append coupled)
    · exact .inr (.inl agree)
    · exact contained d (List.any_eq_true.mp appears)
  · obtain ⟨tile, member, depends⟩ := List.any_eq_true.mp h
    obtain ⟨i, here⟩ := List.mem_iff_getElem?.mp member
    have within : i < es.length := tiling.lengths.2.1 ▸ (List.getElem?_eq_some_iff.mp here).1
    obtain ⟨size, e, _, _, -, atExprs, here', -, floor, -⟩ := tiling.row within
    cases here.symm.trans here'
    exact contained d ⟨e, List.mem_of_getElem? atExprs, by
      rw [← Quasi.dependsOn_floorDiv floor, depends]⟩

end Settled

theorem exprsAbove_append (above : List NodeKind) (kind : NodeKind) (stmt : Nat) :
    exprsAbove (above ++ [kind]) stmt = exprsAbove above stmt ++ kind.exprs stmt := by
  simp [exprsAbove]

/-! ## Blocks of values -/

/-- A value is at an offset in a block exactly if it has this quotient and this remainder. -/
theorem eq_block_iff {width v : Int} (lower : 0 ≤ v) (upper : v < width) {u block : Int} :
    u = width * block + v ↔ u.fdiv width = block ∧ u.fmod width = v := by
  constructor
  · rintro rfl
    rw [Int.fdiv_eq_ediv_of_nonneg _ (by omega), Int.fmod_eq_emod_of_nonneg _ (by omega),
      Int.mul_add_ediv_left _ _ (by omega), Int.mul_add_emod_self_left,
      Int.ediv_eq_zero_of_lt lower upper, Int.emod_eq_of_lt lower upper]
    exact ⟨Int.add_zero _, rfl⟩
  · rintro ⟨rfl, rfl⟩
    exact (Int.mul_fdiv_add_fmod u width).symm

theorem Affine.dvd_dotValue {width : Int} {coeffs : List Int} (each : ∀ c ∈ coeffs, width ∣ c)
    (values : List Int) : width ∣ dotValue coeffs values := by
  induction coeffs generalizing values with
  | nil => simp [dotValue]
  | cons c cs ih =>
    obtain ⟨first, rest⟩ := List.forall_mem_cons.mp each
    cases values with
    | nil => simp [dotValue]
    | cons v vs => exact Int.dvd_add (Dvd.dvd.mul_right first v) (ih rest vs)

theorem Quasi.dvd_termsValue {width : Int} {terms : List FloorTerm}
    (each : ∀ t ∈ terms, width ∣ t.coeff) (point params : List Int) :
    width ∣ termsValue terms point params := by
  induction terms with
  | nil => simp
  | cons t ts ih =>
    obtain ⟨first, rest⟩ := List.forall_mem_cons.mp each
    rw [termsValue_cons]
    exact Int.dvd_add (Dvd.dvd.mul_right first _) (ih rest)

/-- An aligned expression differs from its iterator by a multiple of the width. -/
theorem Quasi.dvd_of_isAligned {e : Quasi} {dim : Nat} {width : Int}
    (aligned : e.isAligned dim width = true) (leading : e.base.coeff dim = 1)
    (point params : List Int) : width ∣ e.value point params - point[dim]?.getD 0 := by
  simp only [isAligned, Bool.and_eq_true, decide_eq_true_eq, List.all_eq_true,
    ← Int.dvd_iff_emod_eq_zero] at aligned
  obtain ⟨⟨⟨constant, coeffs⟩, paramCoeffs⟩, terms⟩ := aligned
  have eachTerm : ∀ t ∈ e.terms, width ∣ t.coeff := by
    intro t member
    have own := terms t member
    simp only [isAligned.alignedTerm, Bool.and_eq_true, decide_eq_true_eq] at own
    exact Int.dvd_of_emod_eq_zero own.1
  have rest : width ∣ (e.base.withoutDim dim).value point params :=
    Int.dvd_add (Int.dvd_add constant (Affine.dvd_dotValue coeffs point))
      (Affine.dvd_dotValue paramCoeffs params)
  rw [value_eq, Affine.value_withoutDim _ dim, leading,
    show ∀ r v t : Int, r + 1 * v + t - v = r + t by intros; ring]
  exact Int.dvd_add rest (dvd_termsValue eachTerm point params)

/-- A floor over whole blocks is the same throughout a block. -/
theorem fdiv_eq_of_block {width denominator offset i j : Int} (pos : 0 < width)
    (nonneg : 0 ≤ denominator) (blocks : width ∣ denominator) (shifts : width ∣ offset)
    (same : i.fdiv width = j.fdiv width) :
    (offset + i).fdiv denominator = (offset + j).fdiv denominator := by
  obtain ⟨count, rfl⟩ := blocks
  obtain ⟨shift, rfl⟩ := shifts
  have whole : 0 ≤ count := Int.nonneg_of_mul_nonneg_right nonneg pos
  rw [← Int.fdiv_fdiv_eq_fdiv_mul _ pos.le whole, ← Int.fdiv_fdiv_eq_fdiv_mul _ pos.le whole,
    Int.mul_add_fdiv_left _ _ pos.ne', Int.mul_add_fdiv_left _ _ pos.ne', same]

theorem Affine.value_of_isConstant {e : Affine} (constant : e.isConstant = true)
    (point params : List Int) : e.value point params = e.constant := by
  simp only [isConstant, Bool.and_eq_true, List.all_eq_true, decide_eq_true_eq] at constant
  have zeros := fun coeffs values (each : ∀ c ∈ coeffs, c = 0) =>
    Int.zero_dvd.mp (dvd_dotValue (fun c member => (each c member).symm ▸ Int.dvd_refl 0) values)
  rw [Affine.value, zeros _ _ constant.1, zeros _ _ constant.2, Int.add_zero, Int.add_zero]

section Aligned

variable {dim : Nat} {width v : Int} {point params : List Int}

/-- An aligned floor does not see its iterator move within a block. -/
theorem FloorTerm.value_set_of_aligned {t : FloorTerm}
    (aligned : Quasi.isAligned.alignedTerm dim width t = true) (nonneg : 0 ≤ t.denominator)
    (pos : 0 < width) (bound : dim < point.length)
    (same : v.fdiv width = (point[dim]?.getD 0).fdiv width) :
    t.value (point.set dim v) params = t.value point params := by
  simp only [Quasi.isAligned.alignedTerm, Bool.and_eq_true, Bool.or_eq_true, Bool.not_eq_true',
    decide_eq_true_eq] at aligned
  rw [FloorTerm.value, FloorTerm.value]
  rcases aligned.2 with without | within
  · congr 2
    apply Quasi.value_congr params (List.length_set ..)
    intro d depends
    apply List.getElem?_set_ne
    rintro rfl
    simp [without] at depends
  · cases numerator : t.numerator with
    | plus => simp [numerator, Quasi.affine?] at within
    | affine n =>
      simp only [numerator, Quasi.affine?, Bool.and_eq_true, decide_eq_true_eq,
        ← Int.dvd_iff_emod_eq_zero] at within
      obtain ⟨⟨⟨leading, constant⟩, shifts⟩, blocks⟩ := within
      simp only [Quasi.value, Affine.value_withoutDim n dim, leading, Int.one_mul,
        Affine.value_of_isConstant constant, List.getElem?_set_self bound, Option.getD_some]
      rw [fdiv_eq_of_block pos nonneg blocks shifts same]

/-- Within a block, an aligned expression moves with its iterator. -/
theorem Quasi.value_set_of_isAligned {e : Quasi} (aligned : e.isAligned dim width = true)
    (leading : e.base.coeff dim = 1) (floors : e.EveryFloor fun _ d => 0 ≤ d) (pos : 0 < width)
    (bound : dim < point.length) (same : v.fdiv width = (point[dim]?.getD 0).fdiv width) :
    e.value (point.set dim v) params = e.value point params + (v - point[dim]?.getD 0) := by
  simp only [isAligned, Bool.and_eq_true, List.all_eq_true] at aligned
  have terms : termsValue e.terms (point.set dim v) params = termsValue e.terms point params :=
    congrArg List.sum (List.map_congr_left fun t member =>
      FloorTerm.value_set_of_aligned (aligned.2 t member) (floors t member) pos bound same)
  rw [value_eq, value_eq, terms, Affine.value_set _ _ _ _ _ bound, leading]
  ring

end Aligned

/-- The loop over `q` is tiled by a width, and `e`, which has the values and the coefficients of
`q`, contains an iterator that runs through one block of values in each tile. -/
structure RunsBlocks (nDim : Nat) (width : Int) (q tile e : Quasi) (dim : Nat) : Prop where
  floor : q.floorDiv width = .ok tile
  values : ∀ point params, e.value point params = q.value point params
  coeffs : ∀ d, e.base.coeff d = q.base.coeff d
  floors : (q.EveryFloor fun _ d => 0 ≤ d) → e.EveryFloor fun _ d => 0 ≤ d
  bound : dim < nDim
  leading : e.base.coeff dim = 1
  aligned : e.isAligned dim width = true

theorem RunsBlocks.contains {nDim dim : Nat} {width : Int} {q tile e : Quasi}
    (runs : RunsBlocks nDim width q tile e dim) : q.dependsOn dim = true :=
  (Quasi.dependsOn_iff q dim).mpr (.inl (by rw [← runs.coeffs, runs.leading]; decide))

/-- The iterator takes the values of its block while the loop takes those of its tile. -/
theorem RunsBlocks.value_move {nDim dim : Nat} {width v : Int} {q tile e : Quasi} {x : Iteration}
    (runs : RunsBlocks nDim width q tile e dim) (floors : q.EveryFloor fun _ d => 0 ≤ d)
    (length : x.point.length = nDim) (lower : 0 ≤ v) (upper : v < width) :
    (x.move dim (x.blockStart dim width + v)).value q = width * (x.value q).fdiv width + v := by
  have pos : 0 < width := by omega
  have bound : dim < x.point.length := length ▸ runs.bound
  have inBlock : (x.blockStart dim width + v).fdiv width = (x.point[dim]?.getD 0).fdiv width :=
    ((eq_block_iff lower upper).mp rfl).1
  have moves : e.value (x.point.set dim (x.blockStart dim width + v)) x.params =
      e.value x.point x.params + (x.blockStart dim width + v - x.point[dim]?.getD 0) :=
    Quasi.value_set_of_isAligned runs.aligned runs.leading (runs.floors floors) pos bound inBlock
  obtain ⟨count, here⟩ := Quasi.dvd_of_isAligned runs.aligned runs.leading x.point x.params
  rw [runs.values] at here
  rw [runs.values, runs.values] at moves
  have tileHere : (x.value q).fdiv width = (x.point[dim]?.getD 0).fdiv width + count := by
    rw [Iteration.value, show q.value x.point x.params =
      x.point[dim]?.getD 0 + width * count by omega, Int.add_mul_fdiv_left _ _ pos.ne']
  rw [tileHere, Iteration.value, Iteration.move, moves, Iteration.blockStart, Int.mul_add]
  omega

theorem Separates.guards {domains : StmtMap Polyhedron} {above : List NodeKind}
    {head tiles points : Band} {below : List Quasi} {width : Int} {stmt : Nat} {guard : Guard}
    {q : Quasi} (separates : Separates domains above tiles points below width stmt guard)
    (tiled : head.Tiled [width] tiles points) (loop : head.schedule.get? stmt = some [q]) :
    ∃ domain tile e dim constraints, domains.get? stmt = some domain ∧
      RunsBlocks domain.nDim width q tile e dim ∧
      FullTile.Guards domain e dim (exprsAbove above stmt ++ [tile]) below width guard
        constraints := by
  obtain ⟨domain, tile, offset, whole, e, dim, found, atTile, atOffset, scaled, added, block,
    guarded⟩ := separates.guarded
  obtain ⟨bound, leading⟩ := Quasi.blockDim?_eq_some block
  obtain ⟨constraints, guards⟩ := FullTile.guards_of_guardOf bound guarded
  obtain ⟨_, _, foundTiles, foundPoints, tiling⟩ := tiled.scheduled _ _ loop
  rcases tiling with _ | ⟨floor, modulo, _ | _⟩
  simp only [Band.memberExpr?, foundTiles, foundPoints, Option.bind_some, List.getElem?_cons_zero,
    Option.some.injEq] at atTile atOffset
  subst atTile atOffset
  rw [exprsAbove_append, NodeKind.exprs, foundTiles, Option.getD_some] at guards
  refine ⟨domain, _, e, dim, constraints, found, ⟨floor, fun point params => ?_, fun d => ?_,
    fun floors => ?_, bound, leading, (Option.filter_eq_some_iff.mp block).2⟩, guards⟩
  · rw [Quasi.value_add added, Quasi.value_scale scaled, Quasi.value_floorDiv floor,
      Quasi.value_modulo modulo, Int.mul_comm, Int.mul_fdiv_add_fmod]
  · rw [Quasi.base_coeff_add added, Quasi.base_coeff_scale scaled, Quasi.base_coeff_tiled floor
      modulo]
  · exact ((floors.floorDiv Int.le_of_lt floor).scale scaled).add
      (floors.modulo Int.le_of_lt modulo) added

/-- Where the entries so far are equal, and equal entries of the loop tell what it contains, two
instances are both in full tiles, or neither is. -/
theorem Separates.isFull_eq {domains : StmtMap Polyhedron} {above : List NodeKind}
    {head tiles points : Band} {below : List Quasi} {width : Int} {guard : Guard}
    {domain : Polyhedron} {x y : Iteration} {q : Quasi}
    (separates : Separates domains above tiles points below width x.stmt guard)
    (tiled : head.Tiled [width] tiles points) (statement : y.stmt = x.stmt)
    (found : domains.get? x.stmt = some domain) (peers : x.Peers domain.nDim y)
    (loop : head.schedule.get? x.stmt = some [q]) (tells : q.Tells domain.nDim x y)
    (same : x.value q = y.value q)
    (settled : Settled domain.nDim x y (exprsAbove above x.stmt) (q :: below)) :
    (TileFilter.ofGuard .full width x.stmt guard).isFull x =
      (TileFilter.ofGuard .full width x.stmt guard).isFull y := by
  obtain ⟨_, tile, e, dim, constraints, found', runs, guards⟩ := separates.guards tiled loop
  cases found.symm.trans found'
  have alone : ∀ d, q.dependsOn d = true → d = dim := by
    intro d depends
    have inLoop : e.dependsOn d = true :=
      (Quasi.dependsOn_iff e d).mpr (.inl (runs.coeffs d ▸ tells.outside d depends))
    by_contra ne
    have fixed := (guards.loop d (tells.within d depends) inLoop).resolve_left ne
    simp only [isFixed, Bool.and_eq_true, Bool.not_eq_true'] at fixed
    refine Bool.eq_false_iff.mp fixed.1.2 (List.any_eq_true.mpr ⟨tile, by simp, ?_⟩)
    simp only [Quasi.dependsOn_floorDiv runs.floor, depends, Bool.true_and, List.any_eq_true,
      List.mem_range]
    exact ⟨dim, runs.bound, by simp [Ne.symm ne, runs.contains]⟩
  have agree : ∀ d < domain.nDim, d ≠ dim →
      isFixed (exprsAbove above x.stmt ++ [tile]) below domain.nDim d = true →
      x.point[d]? = y.point[d]? := by
    intro d within ne fixed
    simp only [isFixed, Bool.and_eq_true, Bool.not_eq_true', List.any_append, Bool.or_eq_true,
      List.any_cons, List.any_nil, Bool.or_false, Quasi.dependsOn_floorDiv runs.floor] at fixed
    obtain ⟨⟨appears, uncoupled⟩, notBelow⟩ := fixed
    have notLoop : q.dependsOn d = false := by
      rw [Bool.eq_false_iff]
      exact fun depends => ne (alone d depends)
    rcases settled d (appears.resolve_right (by simp [notLoop])) with coupled | agree | coming
    · rw [isCoupled_append coupled] at uncoupled
      cases uncoupled
    · exact agree
    · simp [notLoop, notBelow] at coming
  have blocks : x.blockStart dim width = y.blockStart dim width := by
    rw [Iteration.blockStart, Iteration.blockStart, tells.agree same dim runs.contains alone]
  simp only [TileFilter.isFull, statement, TileFilter.guard?_ofGuard]
  exact guards.admits_eq peers.left peers.right peers.params blocks agree

end LoopNest
