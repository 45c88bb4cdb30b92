import LoopNest.Proofs.Coverage

/-! The entries of an optimized schedule tell the entries of which they were made: members are put
in another order, or replaced by a quotient and a remainder. So instances with different time stamps
keep different time stamps. The exception are instances whose way ends elsewhere than at a leaf,
below a vector loop: the loop over the points of a tile does not come to them. -/

namespace LoopNest

namespace Tree

variable {x y : Iteration} {domains : StmtMap Polyhedron} {above : List NodeKind}
  {as bs as' bs' : List Int} {t t' : Tree}

/-- Instances that differ below a loop still differ after it has become a vector loop, if the way of
one ends at a leaf. -/
theorem Vectorized.apart {width : Int} {own member : Nat}
    (vectorized : Vectorized domains width own member above t t')
    (arities : t.EveryBand Band.HasArity) (ends : t.endsAtLeaf x = true)
    (oldX : t.stamp x = some as) (oldY : t.stamp y = some bs) (ne : as ≠ bs)
    (newX : t'.stamp x = some as') (newY : t'.stamp y = some bs') : Apart as' bs' := by
  induction vectorized generalizing as bs as' bs' with
  | @first above t c t' head tiles points here heads tiled stripped =>
    obtain ⟨choice, choices, -, stamps⟩ := stripped.stamp
    obtain ⟨arity, below⟩ := heads.everyBand Band.HasArity.inherited arities
    rw [heads.stamp 0, stamp_only] at oldX oldY
    simp only [Option.bind_eq_some_iff, Option.map_eq_some_iff] at oldX oldY
    obtain ⟨es, foundX, rx, restX, rfl⟩ := oldX
    obtain ⟨fs, foundY, ry, restY, rfl⟩ := oldY
    obtain ⟨ts, ps, tilesX, pointsX, tilingX⟩ := tiled.scheduled x.stmt es foundX
    obtain ⟨us, qs, tilesY, pointsY, tilingY⟩ := tiled.scheduled y.stmt fs foundY
    rw [stamp_only, tilesX, stamps x ps pointsX, restX] at newX
    rw [stamp_only, tilesY, stamps y qs pointsY, restY] at newY
    simp only [Option.map_some, Option.bind_some, Option.some.injEq] at newX newY
    subst newX newY
    refine .append (Band.length_values_eq (tiled.hasArity arity).1 tilesX tilesY)
      fun sameTiles => ?_
    refine .append (choices x y) fun _ => ?_
    rcases apart_or_same below restX restY with apart | ⟨rfl, sameEnd⟩
    · exact apart.append_right _ _
    · have leaf : c.endsAtLeaf x = true := by rw [← heads.endsAtLeaf foundX, ends]
      rw [if_pos leaf, if_pos (sameEnd ▸ leaf)]
      refine .append_left rx (.of_ne (Band.length_values_eq (tiled.hasArity arity).2 pointsX
        pointsY) ?_)
      exact fun samePoints => ne (by rw [tilingX.values_eq tilingY sameTiles samePoints])
  | @later member id arity above band upper lower child t' split rest ih =>
    obtain ⟨upperArity, lowerArity⟩ := split.hasArity (arities.1 _ rfl)
    have below : (node own (.band lower) arity child).EveryBand Band.HasArity := by
      refine ⟨?_, arities.2⟩
      rintro _ ⟨⟩
      exact lowerArity
    rw [← stamp_split own child split, stamp_only] at oldX oldY
    rw [stamp_only] at newX newY
    simp only [Option.bind_eq_some_iff, Option.map_eq_some_iff] at oldX oldY newX newY
    obtain ⟨es, foundX, rx, restX, rfl⟩ := oldX
    obtain ⟨fs, foundY, ry, restY, rfl⟩ := oldY
    obtain ⟨_, foundX', rx', restX', rfl⟩ := newX
    obtain ⟨_, foundY', ry', restY', rfl⟩ := newY
    cases foundX.symm.trans foundX'
    cases foundY.symm.trans foundY'
    refine .append (Band.length_values_eq upperArity foundX foundY) fun same => ?_
    refine ih below ?_ restX restY (fun rests => ne (by rw [same, rests])) restX' restY'
    rw [split.upperExprs, Option.map_eq_some_iff] at foundX
    obtain ⟨exprs, own, -⟩ := foundX
    have ownLower : lower.schedule.get? x.stmt = some (exprs.drop member) := by
      simp [split.lowerExprs, own]
    rw [← ends, endsAtLeaf_band own, endsAtLeaf_band ownLower]

theorem Reshaped.apart {vector : Bool} (reshaped : Reshaped domains above vector t t')
    (arities : t.EveryBand Band.HasArity) (ends : vector = true → t.endsAtLeaf x = true)
    (oldX : t.stamp x = some as) (oldY : t.stamp y = some bs) (ne : as ≠ bs)
    (newX : t'.stamp x = some as') (newY : t'.stamp y = some bs') : Apart as' bs' := by
  induction reshaped generalizing as bs as' bs' with
  | same =>
    cases oldX.symm.trans newX
    cases oldY.symm.trans newY
    exact (apart_or_same arities oldX oldY).resolve_right fun same => ne same.1
  | @permute above vector id arity band permuted positions child t' permutes rest ih =>
    have below : (node id (.band permuted) arity child).EveryBand Band.HasArity :=
      ⟨fun _ same => by cases same; exact permutes.hasArity (arities.1 _ rfl), arities.2⟩
    obtain ⟨es, rx, foundX, restX, rfl⟩ := stamp_band_eq_some.mp oldX
    obtain ⟨fs, ry, foundY, restY, rfl⟩ := stamp_band_eq_some.mp oldY
    obtain ⟨es', foundX', eachX⟩ := permutes.scheduled x.stmt es foundX
    obtain ⟨fs', foundY', eachY⟩ := permutes.scheduled y.stmt fs foundY
    refine ih below (fun vector => ?_) (stamp_band_eq_some.mpr ⟨es', rx, foundX', restX, rfl⟩)
      (stamp_band_eq_some.mpr ⟨fs', ry, foundY', restY, rfl⟩) (fun same => ne ?_) newX newY
    · rw [← ends vector, endsAtLeaf_band foundX, endsAtLeaf_band foundX']
    · obtain ⟨values, rests⟩ := List.append_inj same (Band.length_values_eq (below.1 _ rfl) foundX'
        foundY')
      rw [permutes.values_eq (arities.1 _ rfl) foundX foundY eachX eachY values, rests]
  | @tile above vector id position arity sizes band tiles points child t' tiled rest ih =>
    obtain ⟨tileArity, pointArity⟩ := tiled.hasArity (arities.1 _ rfl)
    have below : (node position (.band points) arity child).EveryBand Band.HasArity :=
      ⟨fun _ same => by cases same; exact pointArity, arities.2⟩
    obtain ⟨es, rx, foundX, restX, rfl⟩ := stamp_band_eq_some.mp oldX
    obtain ⟨fs, ry, foundY, restY, rfl⟩ := stamp_band_eq_some.mp oldY
    obtain ⟨ts, ps, tilesX, pointsX, tilingX⟩ := tiled.scheduled x.stmt es foundX
    obtain ⟨us, qs, tilesY, pointsY, tilingY⟩ := tiled.scheduled y.stmt fs foundY
    simp only [stamp_only, tilesX, tilesY, Option.bind_some, Option.map_eq_some_iff] at newX newY
    obtain ⟨rx', restX', rfl⟩ := newX
    obtain ⟨ry', restY', rfl⟩ := newY
    refine .append (Band.length_values_eq tileArity tilesX tilesY) fun sameTiles => ?_
    refine ih below (fun vector => ?_) (stamp_band_eq_some.mpr ⟨ps, rx, pointsX, restX, rfl⟩)
      (stamp_band_eq_some.mpr ⟨qs, ry, pointsY, restY, rfl⟩) (fun same => ne ?_) restX' restY'
    · rw [← ends vector, endsAtLeaf_band foundX, endsAtLeaf_band pointsX]
    · obtain ⟨values, rests⟩ := List.append_inj same (Band.length_values_eq pointArity pointsX
        pointsY)
      rw [tilingX.values_eq tilingY sameTiles values, rests]
  | vectorize coincident vectorized =>
    exact vectorized.apart arities (ends rfl) oldX oldY ne newX newY

/-- A way that ends at a leaf, or meets no band in which a loop was made a vector loop, keeps apart
from the ways from which it differed. -/
theorem Rewritten.apart {decisions : List Decision} {visits : List Visit}
    (rewritten : Rewritten domains above t t' decisions) (arities : t.EveryBand Band.HasArity)
    (way : t.way x = some visits)
    (keeps : t.endsAtLeaf x = true ∨
      ∀ d ∈ decisions, d.vectorizes = true → ∀ visit ∈ visits, visit.id ≠ d.node)
    (oldX : t.stamp x = some as) (oldY : t.stamp y = some bs) (ne : as ≠ bs)
    (newX : t'.stamp x = some as') (newY : t'.stamp y = some bs') : Apart as' bs' := by
  induction rewritten generalizing visits as bs as' bs' with
  | @keep above id arity kind child child' below own children kept ih =>
    simp only [stamp_node, Option.bind_eq_some_iff, Option.map_eq_some_iff] at oldX oldY newX newY
    rw [onward_congr kind fun i => (children i).admits] at newX newY
    obtain ⟨⟨ex, next⟩, onX, rx, restX, rfl⟩ := oldX
    obtain ⟨⟨ey, next'⟩, onY, ry, restY, rfl⟩ := oldY
    obtain ⟨_, onX', rx', restX', rfl⟩ := newX
    obtain ⟨_, onY', ry', restY', rfl⟩ := newY
    cases onX.symm.trans onX'
    cases onY.symm.trans onY'
    have length : ex.length = ey.length := by
      rw [onward_length arities.1 onX, onward_length arities.1 onY]
    refine .append length fun sameEntries => ?_
    obtain rfl : ex = ey := sameEntries
    obtain rfl : next = next' := onward_next onX onY
    cases next with
    | none =>
      cases restX
      cases restY
      exact (ne rfl).elim
    | some i =>
      obtain ⟨_, later, rfl, ⟨onX'', -⟩ | ⟨_, onX'', wayBelow⟩⟩ := way_eq_some way
      · simp [onX] at onX''
      cases onX.symm.trans onX''
      refine ih i (arities.2 i) wayBelow ?_ restX restY (fun same => ne (by rw [same])) restX'
        restY'
      refine keeps.imp (fun leaf => ?_) fun avoids d member vectorizes visit visited => ?_
      · simpa [endsAtLeaf, onX] using leaf
      · refine avoids d ?_ vectorizes visit (List.mem_cons_of_mem _ visited)
        exact List.mem_append_left _ (List.mem_flatMap.mpr ⟨i, List.mem_finRange i, member⟩)
  | @reshape above id arity vector band child t' decision permutable bandless reshaped here flag =>
    refine reshaped.apart arities (fun isVector => ?_) oldX oldY ne newX newY
    refine keeps.resolve_right fun avoids => ?_
    obtain ⟨entries, later, rfl, -⟩ := way_eq_some way
    exact avoids decision (by simp) (flag.trans isVector) _ (List.mem_cons_self ..) here.symm

/-- The last node of a way tells if it ends at a leaf. -/
theorem endsAtLeaf_iff {a : Arena} (stored : t.Stored a) {visits : List Visit}
    (way : t.way x = some visits) :
    t.endsAtLeaf x = true ↔ (visits.getLast?.bind fun visit => a.kind? visit.id) = some .leaf := by
  induction t generalizing visits with
  | missing => exact stored.elim
  | node id kind arity child ih =>
    obtain ⟨entries, later, rfl, ⟨step, rfl⟩ | ⟨i, step, below⟩⟩ := way_eq_some way
    · simp [endsAtLeaf, step, Arena.kind?_eq stored.1]
    · have last : (⟨id, entries⟩ :: later).getLast? = later.getLast? := by
        simp [List.getLast?_cons, List.getLast?_eq_some_getLast (way_ne_nil below)]
      simpa [endsAtLeaf, step, last] using ih i (stored.2 i) below

end Tree

def Arena.EndsAtLeaf (a : Arena) (visits : List Visit) : Prop :=
  (visits.getLast?.bind fun visit => a.kind? visit.id) = some .leaf

instance (a : Arena) (visits : List Visit) : Decidable (a.EndsAtLeaf visits) := by
  unfold Arena.EndsAtLeaf; infer_instance

/-- A way that comes to a tree and ends at a leaf ends there in the tree. -/
theorem Arena.EndsAtLeaf.below {a : Arena} {t : Tree} {x : Iteration} {pre later : List Visit}
    (ends : a.EndsAtLeaf (pre ++ later)) (stored : t.Stored a) (way : t.way x = some later) :
    t.endsAtLeaf x = true := by
  have last : (pre ++ later).getLast? = later.getLast? := by
    rw [List.getLast?_append, List.getLast?_eq_some_getLast (Tree.way_ne_nil way)]
    rfl
  rw [EndsAtLeaf, last] at ends
  exact (Tree.endsAtLeaf_iff stored way).mpr ends

namespace Scop

variable {scop : Scop} {config : Config} {target : Option Target} {result : Optimized}
  {x y : Iteration}

/-- Instances with different time stamps keep different time stamps unless a word overflows, if the
way of one of them ends at a leaf or comes to no band in which a loop was made a vector loop. -/
theorem optimize_keeps_apart (h : scop.optimize config target = .ok (.ok result))
    {visits : List Visit} {as bs : List Int}
    (way : (scop.schedule.visits x.stmt x.point x.params).run = .ok (.ok visits))
    (keeps : scop.schedule.EndsAtLeaf visits ∨
      ∀ d ∈ result.decisions, d.vectorizes = true → ∀ visit ∈ visits, visit.id ≠ d.node)
    (oldX : (scop.schedule.timestamp x.stmt x.point x.params).run = .ok (.ok as))
    (oldY : (scop.schedule.timestamp y.stmt y.point y.params).run = .ok (.ok bs)) (ne : as ≠ bs) :
    ∃ as' bs', (result.schedule.timestamp x.stmt x.point x.params).Yields (.ok as') ∧
      (result.schedule.timestamp y.stmt y.point y.params).Yields (.ok bs') ∧ as' ≠ bs' := by
  obtain ⟨as', stampX, newX⟩ := yields_optimize h oldX
  obtain ⟨bs', stampY, newY⟩ := yields_optimize h oldY
  refine ⟨as', bs', newX, newY, ?_⟩
  have foundX := (scop.schedule.timestamp_agrees x).eq_some oldX
  have foundY := (scop.schedule.timestamp_agrees y).eq_some oldY
  obtain ⟨domains, sound, same | ⟨t', copy, rewritten, alike, roots⟩⟩ := optimize_rewrites h
  · rw [same] at stampX stampY
    cases stampX.symm.trans foundX
    cases stampY.symm.trans foundY
    exact ne
  · have wayX := Arena.way_eq_some ((scop.schedule.visits_agrees x).eq_some way)
    have stampX' := Arena.stamp_eq_some stampX
    have stampY' := Arena.stamp_eq_some stampY
    rw [roots.tree_eq, ← alike.stamp] at stampX' stampY'
    refine (rewritten.apart (sound.bands.imp fun band fits => fits.hasArity) wayX ?_
      (Arena.stamp_eq_some foundX) (Arena.stamp_eq_some foundY) ne stampX' stampY').ne
    exact keeps.imp_left (Tree.endsAtLeaf_iff sound.holds.stored wayX).mpr

theorem grid_keeps_apart : ∃ result as bs,
    grid.optimize .standard none = .ok (.ok result) ∧
    (result.schedule.timestamp 0 [0, 0] []).run = .ok (.ok as) ∧
    (result.schedule.timestamp 0 [0, 1] []).run = .ok (.ok bs) ∧ as ≠ bs := by
  obtain ⟨result, h, runs⟩ : ∃ result, grid.optimize .standard none = .ok (.ok result) ∧
      decide ((result.schedule.timestamp 0 [0, 0] []).run = .ok (.ok [0, 0, 0, 0, 0, 0]) ∧
        (result.schedule.timestamp 0 [0, 1] []).run = .ok (.ok [0, 0, 0, 0, 0, 1])) = true :=
    exists_ok_of_any (by decide +kernel)
  obtain ⟨newX, newY⟩ := of_decide_eq_true runs
  have way : (grid.schedule.visits 0 [0, 0] []).run =
      .ok (.ok [⟨0, []⟩, ⟨1, [0, 0]⟩, ⟨2, []⟩]) := by decide +kernel
  have oldX : (grid.schedule.timestamp 0 [0, 0] []).run = .ok (.ok [0, 0]) := by decide +kernel
  have oldY : (grid.schedule.timestamp 0 [0, 1] []).run = .ok (.ok [0, 1]) := by decide +kernel
  obtain ⟨as, bs, yieldsX, yieldsY, ne⟩ := optimize_keeps_apart (x := ⟨0, [0, 0], []⟩)
    (y := ⟨0, [0, 1], []⟩) h way (.inl (by decide +kernel)) oldX oldY (by decide)
  cases yieldsX.eq_of_run newX
  cases yieldsY.eq_of_run newY
  exact ⟨result, _, _, h, newX, newY, ne⟩

/-- The grid in one band, with a branch below it that has no leaf. -/
def leaflessGrid : Scop := .ofGrid fun domains =>
  ⟨#[⟨.domain domains, [1]⟩, ⟨.band (.identity domains [⟨true, true⟩, ⟨true, true⟩]), [2]⟩,
    ⟨.sequence, [3, 4]⟩, ⟨.filter (.statements domains.keySet), []⟩, ⟨.leaf, []⟩], 0⟩

/-- Without a leaf, the remainder of the vector loop is lost. -/
theorem leaflessGrid_merges : ∃ result,
    leaflessGrid.optimize .standard none = .ok (.ok result) ∧
    (leaflessGrid.schedule.timestamp 0 [0, 0] []).run = .ok (.ok [0, 0, 0]) ∧
    (leaflessGrid.schedule.timestamp 0 [0, 1] []).run = .ok (.ok [0, 1, 0]) ∧
    (result.schedule.timestamp 0 [0, 0] []).run = .ok (.ok [0, 0, 0, 0, 0, 0]) ∧
    (result.schedule.timestamp 0 [0, 1] []).run = .ok (.ok [0, 0, 0, 0, 0, 0]) := by
  obtain ⟨result, h, merged⟩ : ∃ result, leaflessGrid.optimize .standard none = .ok (.ok result) ∧
      decide ((result.schedule.timestamp 0 [0, 0] []).run = .ok (.ok [0, 0, 0, 0, 0, 0]) ∧
        (result.schedule.timestamp 0 [0, 1] []).run = .ok (.ok [0, 0, 0, 0, 0, 0])) = true :=
    exists_ok_of_any (by decide +kernel)
  exact ⟨result, h, by decide +kernel, by decide +kernel, of_decide_eq_true merged⟩

end Scop

end LoopNest
