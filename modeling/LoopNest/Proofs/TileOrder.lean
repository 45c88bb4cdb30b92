import LoopNest.Proofs.Comparison
import LoopNest.Proofs.Decisions
import LoopNest.Proofs.Stamps
import LoopNest.Proofs.Walks

/-! In place of the values of a band, an instance gets the numbers of its tiles in the loops over
tiles and its offsets in the loops over points. Nothing is lost. Instances that are in order in all
members stay in order; with one member, all instances do. -/

namespace LoopNest

namespace Tree

variable {x : Iteration} {id p arity : Nat} {band tiles points : Band} {child : Fin arity → Tree}
  {sizes : List Int}

theorem onward_of_found {exprs : List Quasi} (found : band.schedule.get? x.stmt = some exprs) :
    onward x child (.band band) = some (x.values exprs, first arity) := by
  simp [onward, found]

theorem obstacle?_congr {id id' arity : Nat} {kind : NodeKind} {child child' : Fin arity → Tree}
    (same : ∀ i, (child' i).admits x = (child i).admits x)
    (each : ∀ i, onward x child kind ≠ none → (child' i).obstacle? x = (child i).obstacle? x) :
    (node id' kind arity child').obstacle? x = (node id kind arity child).obstacle? x := by
  rw [obstacle?, obstacle?, onward_congr kind same]
  cases step : onward x child kind with
  | none => rfl
  | some r =>
    obtain ⟨own, next?⟩ := r
    cases next? with
    | none => rfl
    | some i => exact each i (by simp [step])

/-- A tiled band stops the instances that the band stopped. -/
theorem obstacle?_tiled (tiled : band.Tiled sizes tiles points) (x : Iteration) :
    (node id (.band tiles) 1 fun _ => node p (.band points) arity child).obstacle? x =
      (node id (.band band) arity child).obstacle? x := by
  cases own : band.schedule.get? x.stmt with
  | none =>
    obtain ⟨absent, -⟩ := tiled.unscheduled x.stmt own
    simp [obstacle?, onward, own, absent, NodeKind.obstacle]
  | some es =>
    obtain ⟨ts, ps, foundTiles, foundPoints, -⟩ := tiled.scheduled x.stmt es own
    rw [obstacle?_next (onward_of_found foundTiles), obstacle?, obstacle?,
      onward_of_found foundPoints, onward_of_found own]
    cases first arity <;> rfl

/-- Where the band gave values, the loops over tiles give their quotients and the loops over points
their remainders. -/
theorem way_tiled (tiled : band.Tiled sizes tiles points) {v : List Int} {later : List Visit}
    (way : (node id (.band band) arity child).way x = some (⟨id, v⟩ :: later)) :
    v.length = sizes.length ∧ (∀ size ∈ sizes, 0 < size) ∧
      (node id (.band tiles) 1 fun _ => node p (.band points) arity child).way x =
        some (⟨id, v.zipWith Int.fdiv sizes⟩ :: ⟨p, v.zipWith Int.fmod sizes⟩ :: later) := by
  obtain ⟨entries, rest, split, step⟩ := way_eq_some way
  cases split
  cases own : band.schedule.get? x.stmt with
  | none =>
    have stopped : onward x child (.band band) = none := by simp [onward, own]
    simp [stopped] at step
  | some es =>
    obtain ⟨ts, ps, foundTiles, foundPoints, tiling⟩ := tiled.scheduled x.stmt es own
    rw [onward_of_found own] at step
    obtain rfl : x.values es = v := by
      rcases step with ⟨same, -⟩ | ⟨i, same, -⟩ <;> simp_all
    refine ⟨by simp [tiling.lengths.1], fun size member => tiling.pos member, ?_⟩
    rw [way_next (onward_of_found foundTiles), ← tiling.values_tiles x, ← tiling.values_points x]
    have stepPoints : onward x child (.band points) = some (x.values ps, first arity) :=
      onward_of_found foundPoints
    rcases step with ⟨same, rfl⟩ | ⟨i, same, below⟩
    · have ends : first arity = none := by simpa using same
      rw [ends] at stepPoints
      simp [Tree.way, stepPoints]
    · have next : first arity = some i := by simpa using same
      rw [next] at stepPoints
      rw [way_next stepPoints, below]
      rfl

/-- How tiling changes the part of a time stamp that comes from the band on. -/
theorem stamp_tiled (tiled : band.Tiled sizes tiles points) {us us' : List Int}
    (old : (node id (.band band) arity child).stamp x = some us)
    (new : (node id (.band tiles) 1 fun _ => node p (.band points) arity child).stamp x =
      some us') :
    ∃ v rest, v.length = sizes.length ∧ (∀ size ∈ sizes, 0 < size) ∧ us = v ++ rest ∧
      us' = v.zipWith Int.fdiv sizes ++ v.zipWith Int.fmod sizes ++ rest := by
  obtain ⟨visits, way, rfl⟩ := Option.map_eq_some_iff.mp old
  obtain ⟨v, later, rfl⟩ := way_top way
  obtain ⟨length, positive, way'⟩ := way_tiled (p := p) tiled way
  rw [stamp, way'] at new
  cases new
  exact ⟨v, later.flatMap (·.entries), length, positive, by simp, by simp⟩

theorem exists_way_tiled (tiled : band.Tiled sizes tiles points) {visits : List Visit}
    (way : (node id (.band band) arity child).way x = some visits) :
    ∃ visits', (node id (.band tiles) 1 fun _ => node p (.band points) arity child).way x =
      some visits' := by
  obtain ⟨v, later, rfl⟩ := way_top way
  obtain ⟨-, -, way'⟩ := way_tiled (p := p) tiled way
  exact ⟨_, way'⟩

/-- Tiling keeps how values compare that are in order in all members, one way or the other. -/
theorem compare_tiled {v w r s : List Int} (left : v.length = sizes.length)
    (right : w.length = sizes.length) (positive : ∀ size ∈ sizes, 0 < size)
    (ordered : List.Forall₂ (· ≤ ·) v w ∨ List.Forall₂ (· ≤ ·) w v) :
    compareStamps (v.zipWith Int.fdiv sizes ++ v.zipWith Int.fmod sizes ++ r)
      (w.zipWith Int.fdiv sizes ++ w.zipWith Int.fmod sizes ++ s) =
        compareStamps (v ++ r) (w ++ s) := by
  have tiles : compareStamps (v.zipWith Int.fdiv sizes ++ v.zipWith Int.fmod sizes)
      (w.zipWith Int.fdiv sizes ++ w.zipWith Int.fmod sizes) = compareStamps v w := by
    rcases ordered with le | le
    · exact compareStamps_tiled le left positive
    · rw [← compareStamps_swap, compareStamps_tiled le right positive, compareStamps_swap]
  rw [compareStamps_append (by simp [left, right]), tiles,
    compareStamps_append (left.trans right.symm)]

theorem compare_tiled_single {v w r s : List Int} (single : sizes.length = 1)
    (left : v.length = sizes.length) (right : w.length = sizes.length)
    (positive : ∀ size ∈ sizes, 0 < size) :
    compareStamps (v.zipWith Int.fdiv sizes ++ v.zipWith Int.fmod sizes ++ r)
      (w.zipWith Int.fdiv sizes ++ w.zipWith Int.fmod sizes ++ s) =
        compareStamps (v ++ r) (w ++ s) := by
  obtain ⟨i, rfl⟩ := List.length_eq_one_iff.mp (left.trans single)
  obtain ⟨j, rfl⟩ := List.length_eq_one_iff.mp (right.trans single)
  refine compare_tiled left right positive ?_
  rcases Int.le_total i j with le | le
  · exact .inl (.cons le .nil)
  · exact .inr (.cons le .nil)

end Tree

namespace Arena.Replaces

variable {a b : Arena} {x y : Iteration} {above : List Frame} {id p arity : Nat}
  {band tiles points : Band} {child : Fin arity → Tree} {sizes : List Int}

/-- An instance that comes to a tiled band gets the quotients and the remainders of its values,
unless a word overflows. -/
theorem yields_tiled (tiled : band.Tiled sizes tiles points)
    (replaces : a.Replaces b above (.node id (.band band) arity child)
      (.node id (.band tiles) 1 fun _ => .node p (.band points) arity child))
    {v : List Int} {pre later : List Visit}
    (walk : (a.visits x.stmt x.point x.params).run = .ok (.ok (pre ++ ⟨id, v⟩ :: later))) :
    v.length = sizes.length ∧ (∀ size ∈ sizes, 0 < size) ∧
      (b.timestamp x.stmt x.point x.params).Yields (.ok (pre.flatMap (·.entries) ++
        (v.zipWith Int.fdiv sizes ++ v.zipWith Int.fmod sizes ++ later.flatMap (·.entries)))) := by
  obtain ⟨-, below⟩ := replaces.arrives walk
  obtain ⟨length, positive, below'⟩ := Tree.way_tiled (p := p) tiled below
  refine ⟨length, positive, replaces.yields_through
    (fun proper => Tree.proper_band_one.mpr (proper.tiled tiled)) walk ?_⟩
  rw [Tree.stamp, below']
  simp

/-- Tiling a band of one member keeps all instances in their order, unless a word overflows. -/
theorem compare_tiled_single (tiled : band.Tiled sizes tiles points)
    (replaces : a.Replaces b above (.node id (.band band) arity child)
      (.node id (.band tiles) 1 fun _ => .node p (.band points) arity child))
    (everyBand : a.tree.EveryBand Band.HasArity) (single : sizes.length = 1) {as bs : List Int}
    (oldX : (a.timestamp x.stmt x.point x.params).run = .ok (.ok as))
    (oldY : (a.timestamp y.stmt y.point y.params).run = .ok (.ok bs)) :
    ∃ as' bs', (b.timestamp x.stmt x.point x.params).Yields (.ok as') ∧
      (b.timestamp y.stmt y.point y.params).Yields (.ok bs') ∧
      compareStamps as' bs' = compareStamps as bs := by
  have stays (z : Iteration) (cs : List Int)
      (old : (a.timestamp z.stmt z.point z.params).run = .ok (.ok cs)) :
      ∃ cs', b.stamp z = some cs' ∧ (b.timestamp z.stmt z.point z.params).Yields (.ok cs') := by
    obtain ⟨_, walk⟩ := exists_walk old
    obtain ⟨_, way, -, new⟩ := replaces.exists_yields
      (fun proper => Tree.proper_band_one.mpr (proper.tiled tiled))
      (fun _ way => Tree.exists_way_tiled tiled way) walk
    exact ⟨_, Option.map_eq_some_iff.mpr ⟨_, way, rfl⟩, new⟩
  obtain ⟨as', stampX, newX⟩ := stays x as oldX
  obtain ⟨bs', stampY, newY⟩ := stays y bs oldY
  refine ⟨as', bs', newX, newY, replaces.compare_eq everyBand ?_
    ((a.timestamp_agrees x).eq_some oldX) ((a.timestamp_agrees y).eq_some oldY) stampX stampY⟩
  intro pre us vs us' vs' _ _ belowX belowY belowX' belowY'
  obtain ⟨v, r, length, positive, rfl, rfl⟩ := Tree.stamp_tiled tiled belowX belowX'
  obtain ⟨w, s, length', -, rfl, rfl⟩ := Tree.stamp_tiled tiled belowY belowY'
  exact Tree.compare_tiled_single single length length' positive

end Arena.Replaces

namespace Edit

variable {a b : Arena} {label : String} {sizes : List Int} {default : Int} {id p : Nat}

/-- Unless a word overflows, tiling replaces each value by its quotient and its remainder and leaves
all else as it was. If two instances come to the band with the same entries and no value of the
first is greater, they compare as before; if the band has one member, all instances do. -/
theorem tileNode_refines (h : (tileNode label sizes default id).commit a = .ok (.ok (p, b)))
    (wellFormed : a.isWellFormed = true)
    (arities : ∀ i ∈ a.bands, ∀ band ∈ a.band? i, band.HasArity) (reached : id ∈ a.bands) :
    ∃ band tileBand pointBand, a.band? id = some band ∧ b.band? id = some tileBand ∧
      b.children id = [p] ∧ b.band? p = some pointBand ∧
      tileBand.members = band.members ∧ pointBand.members = band.members ∧
      a.KeepsElsewhere b id ∧
      (∀ (x : Iteration) pre v later,
        (a.visits x.stmt x.point x.params).run = .ok (.ok (pre ++ ⟨id, v⟩ :: later)) →
        (b.timestamp x.stmt x.point x.params).Yields (.ok (pre.flatMap (·.entries) ++
          v.zipWith Int.fdiv (sizesFor band.nMembers sizes default) ++
          v.zipWith Int.fmod (sizesFor band.nMembers sizes default) ++
          later.flatMap (·.entries)))) ∧
      (∀ (x y : Iteration) preX preY v w laterX laterY,
        (a.visits x.stmt x.point x.params).run = .ok (.ok (preX ++ ⟨id, v⟩ :: laterX)) →
        (a.visits y.stmt y.point y.params).run = .ok (.ok (preY ++ ⟨id, w⟩ :: laterY)) →
        preX.flatMap (·.entries) = preY.flatMap (·.entries) → List.Forall₂ (· ≤ ·) v w →
        ∃ as bs, (b.timestamp x.stmt x.point x.params).Yields (.ok as) ∧
          (b.timestamp y.stmt y.point y.params).Yields (.ok bs) ∧
          compareStamps as bs =
            compareStamps (preX.flatMap (·.entries) ++ v ++ laterX.flatMap (·.entries))
              (preY.flatMap (·.entries) ++ w ++ laterY.flatMap (·.entries))) ∧
      (band.nMembers = 1 → ∀ (x y : Iteration) as bs,
        (a.timestamp x.stmt x.point x.params).run = .ok (.ok as) →
        (a.timestamp y.stmt y.point y.params).run = .ok (.ok bs) →
        ∃ as' bs', (b.timestamp x.stmt x.point x.params).Yields (.ok as') ∧
          (b.timestamp y.stmt y.point y.params).Yields (.ok bs') ∧
          compareStamps as' bs' = compareStamps as bs) := by
  have everyBand := Optimizer.everyBand_of_bands wellFormed arities
  obtain ⟨above, band, arity, child, located⟩ := Arena.exists_locates_band wellFormed reached
  have arityHere := arities id reached band located.holds.band?_eq
  obtain ⟨tileBand, pointBand, tiled, reworks⟩ :=
    tileNode_reworks located.holds arityHere (commit_eq_ok.mp h)
  have replaces := located.replaces reworks rfl rfl
  refine ⟨band, tileBand, pointBand, located.holds.band?_eq, reworks.holds.band?_eq,
    Arena.children_eq reworks.holds.stored.1, (reworks.holds.child 0).band?_eq, tiled.tileMembers,
    tiled.pointMembers, replaces.keepsElsewhere (Tree.obstacle?_tiled tiled)
      fun x proper => Tree.proper_band_one.mpr (proper.tiled tiled), ?_, ?_, ?_⟩
  · intro x pre v later walk
    obtain ⟨-, -, yields⟩ := replaces.yields_tiled tiled walk
    simpa using yields
  · intro x y preX preY v w laterX laterY walkX walkY same le
    obtain ⟨length, positive, newX⟩ := replaces.yields_tiled tiled walkX
    obtain ⟨length', -, newY⟩ := replaces.yields_tiled tiled walkY
    refine ⟨_, _, newX, newY, ?_⟩
    rw [same, compareStamps_append_left, List.append_assoc _ v, List.append_assoc _ w,
      compareStamps_append_left]
    exact Tree.compare_tiled length length' positive (.inl le)
  · intro single x y as bs oldX oldY
    exact replaces.compare_tiled_single tiled everyBand (by simp [sizesFor, single]) oldX oldY

/-- The two members are tiled by 4 and by 2. -/
theorem grid_tiling_refines : ∃ b as bs,
    (tileNode "Tiling" [4] 2 1).commit Scop.grid.schedule = .ok (.ok (3, b)) ∧
    Scop.grid.schedule.KeepsElsewhere b 1 ∧
    (b.timestamp 0 [5, 6] []).run = .ok (.ok as) ∧ (b.timestamp 0 [6, 6] []).run = .ok (.ok bs) ∧
    as = [5, 6].zipWith Int.fdiv [4, 2] ++ [5, 6].zipWith Int.fmod [4, 2] ∧
    compareStamps as bs = compareStamps [5, 6] [6, 6] := by
  obtain ⟨⟨p, b⟩, h, facts⟩ : ∃ value : Nat × Arena,
      (tileNode "Tiling" [4] 2 1).commit Scop.grid.schedule = .ok (.ok value) ∧
      decide (value.1 = 3 ∧
        (value.2.timestamp 0 [5, 6] []).run = .ok (.ok [1, 3, 1, 0]) ∧
        (value.2.timestamp 0 [6, 6] []).run = .ok (.ok [1, 3, 2, 0])) = true :=
    exists_ok_of_any (by decide +kernel)
  obtain ⟨rfl, newX, newY⟩ := of_decide_eq_true facts
  obtain ⟨band, _, _, own, -, -, -, -, -, keeps, through, ordered, -⟩ :=
    tileNode_refines h (by decide +kernel) (by decide +kernel) (by decide +kernel)
  have wayX : (Scop.grid.schedule.visits 0 [5, 6] []).run =
      .ok (.ok ([⟨0, []⟩] ++ ⟨1, [5, 6]⟩ :: [⟨2, []⟩])) := by decide +kernel
  have wayY : (Scop.grid.schedule.visits 0 [6, 6] []).run =
      .ok (.ok ([⟨0, []⟩] ++ ⟨1, [6, 6]⟩ :: [⟨2, []⟩])) := by decide +kernel
  have two : band.nMembers = 2 := by
    have members : (Scop.grid.schedule.band? 1).map (·.nMembers) = some 2 := by decide +kernel
    simpa [own] using members
  have stamp := (through ⟨0, [5, 6], []⟩ _ _ _ wayX).eq_of_run newX
  rw [two] at stamp
  obtain ⟨as, bs, yieldsX, yieldsY, compared⟩ := ordered ⟨0, [5, 6], []⟩ ⟨0, [6, 6], []⟩ _ _ _ _ _
    _ wayX wayY rfl (.cons (by decide) (.cons (by decide) .nil))
  cases yieldsX.eq_of_run newX
  cases yieldsY.eq_of_run newY
  exact ⟨b, _, _, h, keeps, newX, newY, (Except.ok.inj stamp).symm, compared⟩

end Edit

end LoopNest
