import LoopNest.Proofs.ExactGuards
import LoopNest.Proofs.Legality
import LoopNest.Proofs.TileOrder

/-! When the full tiles of a tiled loop are put into a branch of their own, two instances keep their
order unless they come to the branches with the same entries and part there. Where the loops above
are affine, and the tiled one is, that does not happen: equal entries then tell all iterators that
the guard contains, and the block of the vector iterator. The quotient of an iterator does not tell
the iterator, so in general instances of one tile can part. -/

namespace LoopNest

/-! ## Blocks of an affine loop -/

/-- Values that grow alike and differ from the iterator by multiples of the width are in one tile
only if the iterator is in one block. -/
theorem fdiv_eq_of_aligned {width u v i j : Int} (pos : 0 < width) (left : width ∣ u - i)
    (right : width ∣ v - j) (grows : u - v = i - j) (same : u.fdiv width = v.fdiv width) :
    i.fdiv width = j.fdiv width := by
  obtain ⟨c, hc⟩ := left
  obtain ⟨d, hd⟩ := right
  have equal : width * c = width * d := by omega
  obtain rfl : c = d := Int.eq_of_mul_eq_mul_left pos.ne' equal
  rw [show u = i + width * c by omega, show v = j + width * c by omega,
    Int.add_mul_fdiv_left _ _ pos.ne', Int.add_mul_fdiv_left _ _ pos.ne'] at same
  omega

section Affine

variable {domains : StmtMap Polyhedron} {above : List NodeKind} {head tiles points : Band}
  {below : List Quasi} {width : Int} {guard : Guard} {domain : Polyhedron} {x y : Iteration}
  {q : Quasi}

theorem Quasi.exists_affine (h : q.isAffine = true) : ∃ e, q = .affine e := by
  cases q with
  | affine e => exact ⟨e, rfl⟩
  | plus => simp [isAffine, affine?] at h

open Arena (isCoupled isFixed)

/-- The loop that runs through blocks contains no second iterator: it would be coupled to the one
that runs, and the guard allows none that is. -/
theorem RunsBlocks.alone {constraints : List Affine} {tile e : Quasi} {dim : Nat}
    {exprs : List Quasi}
    (runs : RunsBlocks domain.nDim width q tile e dim)
    (guards : FullTile.Guards domain e dim (exprs ++ [tile]) below width guard constraints)
    (affine : q.isAffine = true) :
    ∀ d < domain.nDim, q.dependsOn d = true → d = dim := by
  intro d within depends
  by_contra ne
  obtain ⟨f, rfl⟩ := Quasi.exists_affine affine
  have inLoop : e.dependsOn d = true :=
    (Quasi.dependsOn_iff e d).mpr (.inl (by
      rw [runs.coeffs]
      simpa [Quasi.dependsOn, Affine.dependsOn, Quasi.base] using depends))
  have fixed := (guards.loop d within inLoop).resolve_left ne
  simp only [isFixed, Bool.and_eq_true, Bool.not_eq_true'] at fixed
  refine Bool.eq_false_iff.mp fixed.1.2 (List.any_eq_true.mpr ⟨tile, by simp, ?_⟩)
  simp only [Quasi.dependsOn_floorDiv runs.floor, depends, Bool.true_and, List.any_eq_true,
    List.mem_range]
  exact ⟨dim, runs.bound, by simp [Ne.symm ne, runs.contains]⟩

/-- A fixed iterator that the tiled loop does not contain is told by a loop above. -/
theorem getElem?_eq_of_isFixed {exprs : List Quasi} {tile : Quasi} {d : Nat}
    (peers : x.Peers domain.nDim y) (within : d < domain.nDim)
    (fixed : isFixed (exprs ++ [tile]) below domain.nDim d = true)
    (notTile : tile.dependsOn d = false)
    (affine : ∀ e ∈ exprs, e.isAffine = true) (equal : ∀ e ∈ exprs, x.value e = y.value e) :
    x.point[d]? = y.point[d]? := by
  simp only [isFixed, Bool.and_eq_true, Bool.not_eq_true', List.any_append, List.any_cons,
    List.any_nil, Bool.or_false, notTile] at fixed
  obtain ⟨⟨appears, uncoupled⟩, -⟩ := fixed
  obtain ⟨e, member, depends⟩ := List.any_eq_true.mp appears
  obtain ⟨f, rfl⟩ := Quasi.exists_affine (affine e member)
  have alone : ∀ other < domain.nDim, f.dependsOn other = true → other = d := by
    intro other inside contains
    by_contra ne
    refine Bool.eq_false_iff.mp uncoupled (List.any_eq_true.mpr
      ⟨.affine f, List.mem_append_left _ member, ?_⟩)
    simp only [depends, Bool.true_and, List.any_eq_true, List.mem_range]
    exact ⟨other, inside, by simpa [ne, Quasi.dependsOn] using contains⟩
  have same : f.value x.point x.params = f.value y.point y.params := equal (.affine f) member
  have grows := Affine.value_sub_of_alone peers within alone
  rw [same, Int.sub_self, eq_comm, Int.mul_eq_zero] at grows
  apply peers.getElem?_eq within
  rcases grows with none | equal
  · simp [Quasi.dependsOn, Affine.dependsOn, none] at depends
  · omega

/-- Where the loops above and the tiled loop are affine, instances with equal entries up to the tile
are both in full tiles, or neither is. -/
theorem Separates.isFull_eq_of_affine
    (separates : Separates domains above tiles points below width x.stmt guard)
    (tiled : head.Tiled [width] tiles points) (statement : y.stmt = x.stmt)
    (found : domains.get? x.stmt = some domain) (peers : x.Peers domain.nDim y)
    (loop : head.schedule.get? x.stmt = some [q]) (affine : q.isAffine = true)
    (affineAbove : ∀ e ∈ exprsAbove above x.stmt, e.isAffine = true)
    (equal : ∀ e ∈ exprsAbove above x.stmt, x.value e = y.value e)
    (same : (x.value q).fdiv width = (y.value q).fdiv width) (pos : 0 < width) :
    (TileFilter.ofGuard .full width x.stmt guard).isFull x =
      (TileFilter.ofGuard .full width x.stmt guard).isFull y := by
  obtain ⟨_, tile, e, dim, constraints, found', runs, guards⟩ := separates.guards tiled loop
  cases found.symm.trans found'
  have alone := runs.alone guards affine
  have agree : ∀ d < domain.nDim, d ≠ dim →
      isFixed (exprsAbove above x.stmt ++ [tile]) below domain.nDim d = true →
      x.point[d]? = y.point[d]? := by
    intro d within ne fixed
    refine getElem?_eq_of_isFixed peers within fixed ?_ affineAbove equal
    rw [Quasi.dependsOn_floorDiv runs.floor, Bool.eq_false_iff]
    exact fun depends => ne (alone d within depends)
  have blocks : x.blockStart dim width = y.blockStart dim width := by
    obtain ⟨f, rfl⟩ := Quasi.exists_affine affine
    have grows := Affine.value_sub_of_alone peers runs.bound alone
    have one : f.coeff dim = 1 := (runs.coeffs dim).symm.trans runs.leading
    rw [one, Int.one_mul] at grows
    have left := Quasi.dvd_of_isAligned runs.aligned runs.leading x.point x.params
    have right := Quasi.dvd_of_isAligned runs.aligned runs.leading y.point y.params
    rw [runs.values] at left right
    rw [Iteration.blockStart, Iteration.blockStart,
      fdiv_eq_of_aligned pos left right grows same]
  simp only [TileFilter.isFull, statement, TileFilter.guard?_ofGuard]
  exact guards.admits_eq peers.left peers.right peers.params blocks agree

end Affine

/-! ## Branches for full and partial tiles -/

/-- Two instances may come to what lies below the given nodes, and the loops among these have equal
values if the instances are of one statement. -/
structure Meets (above : List NodeKind) (x y : Iteration) : Prop where
  left : above.all (·.lets x.stmt) = true
  right : above.all (·.lets y.stmt) = true
  equal : y.stmt = x.stmt → ∀ e ∈ exprsAbove above x.stmt, x.value e = y.value e

theorem Meets.cons {x y : Iteration} {arity : Nat} {child : Fin arity → Tree} {kind : NodeKind}
    {entries : List Int} {next : Option (Fin arity)} {above : List NodeKind}
    (meets : Meets above x y)
    (onX : Tree.onward x child kind = some (entries, next))
    (onY : Tree.onward y child kind = some (entries, next)) : Meets (kind :: above) x y := by
  refine ⟨?_, ?_, fun one e member => ?_⟩
  · rw [List.all_cons, Tree.lets_of_onward onX, meets.left]
    rfl
  · rw [List.all_cons, Tree.lets_of_onward onY, meets.right]
    rfl
  · rw [exprsAbove, List.flatMap_cons, List.mem_append] at member
    rcases member with member | member
    · cases kind with
      | band band =>
        cases own : band.schedule.get? x.stmt with
        | none => simp [NodeKind.exprs, own] at member
        | some es =>
          rw [NodeKind.exprs, own, Option.getD_some] at member
          have same := (Tree.onward_band onX own).symm.trans (Tree.onward_band onY (one ▸ own))
          exact List.map_inj_left.mp same e member
      | _ => simp [NodeKind.exprs] at member
    · exact meets.equal one e member

namespace Tree

variable {a : Arena} {x y : Iteration} {domains : StmtMap Polyhedron} {width : Int}

/-- Two ways that come to a tree with equal entries meet in all loops above it. -/
theorem Under.meets {above : List Frame} {whole t : Tree} {preX preY laterX laterY : List Visit}
    {v w : List Int} (under : Under above whole t) (holds : a.Holds whole)
    (arities : whole.EveryBand Band.HasArity)
    (wayX : whole.way x = some (preX ++ ⟨t.top, v⟩ :: laterX))
    (wayY : whole.way y = some (preY ++ ⟨t.top, w⟩ :: laterY))
    (same : preX.flatMap (·.entries) = preY.flatMap (·.entries)) :
    Meets (above.map (·.2)) x y := by
  induction under generalizing preX preY with
  | here => exact ⟨rfl, rfl, by simp [exprsAbove]⟩
  | @inside above id arity kind child t i under ih =>
    obtain ⟨outside, -, -⟩ := nodup_ids_node.mp holds.distinct
    have within : t.top ∈ (child i).ids :=
      under.mem_ids (under.holds (holds.child i)).stored.top_mem
    have onward : ∀ {z : Iteration} {pre later : List Visit} {v : List Int},
        (node id kind arity child).way z = some (pre ++ ⟨t.top, v⟩ :: later) →
        ∃ entries rest, Tree.onward z child kind = some (entries, some i) ∧
          pre = ⟨id, entries⟩ :: rest ∧ (child i).way z = some (rest ++ ⟨t.top, v⟩ :: later) := by
      intro z pre later v way
      obtain ⟨entries, below, step, wayBelow, -⟩ := way_of_meets holds way
        (List.mem_append_right pre (List.mem_cons_self ..)) within
      rw [way_next step, wayBelow, Option.map_some, Option.some.injEq] at way
      cases pre with
      | nil =>
        obtain ⟨here, -⟩ := List.cons.inj way
        cases here
        exact absurd within (outside i)
      | cons head rest =>
        obtain ⟨rfl, rfl⟩ := List.cons.inj way
        exact ⟨entries, rest, step, rfl, wayBelow⟩
    obtain ⟨ex, restX, stepX, rfl, belowX⟩ := onward wayX
    obtain ⟨ey, restY, stepY, rfl, belowY⟩ := onward wayY
    have length : ex.length = ey.length := by
      rw [onward_length arities.1 stepX, onward_length arities.1 stepY]
    obtain ⟨rfl, rests⟩ := List.append_inj same length
    exact (ih (holds.child i) (arities.2 i) belowX belowY rests).cons stepX stepY

/-- A band is tiled by a width. The loop over points, with what lies below it, is there once, or,
kept apart, for the full and for the partial tiles. -/
inductive Isolated (domains : StmtMap Polyhedron) (above : List NodeKind) (width : Int) (id p : Nat)
    (band : Band) {arity : Nat} (child : Fin arity → Tree) : Tree → Prop where
  | together {tiles points : Band} (tiled : band.Tiled [width] tiles points) :
    Isolated domains above width id p band child
      (.node id (.band tiles) 1 fun _ => .node p (.band points) arity child)
  | apart {tiles points : Band} {i j stmt : Nat} {guard : Guard} {full partly : Tree}
    (tiled : band.Tiled [width] tiles points)
    (separates : Separates domains above tiles points
      ((List.finRange arity).flatMap fun i => (child i).exprs stmt) width stmt guard)
    (fullTiles : (node p (.band points) arity child).Alike full)
    (partialTiles : (node p (.band points) arity child).Alike partly) :
    Isolated domains above width id p band child (.node id (.band tiles) 1 fun _ =>
      .node p .sequence 2
        ![.node i (.filter (.tiles (.ofGuard .full width stmt guard))) 1 fun _ => full,
          .node j (.filter (.tiles (.ofGuard .partly width stmt guard))) 1 fun _ => partly])

theorem Isolated.proper {domains : StmtMap Polyhedron} {above : List NodeKind} {width : Int}
    {id p arity : Nat} {band : Band} {child : Fin arity → Tree} {t' : Tree}
    (isolated : Isolated domains above width id p band child t')
    (proper : (node id (.band band) arity child).Proper x) : t'.Proper x := by
  cases isolated with
  | together tiled => exact proper_band_one.mpr (proper.tiled tiled)
  | apart tiled separates fullTiles partialTiles =>
    obtain ⟨ownTiles, below⟩ := proper.tiled (p := p) tiled
    refine proper_band_one.mpr ⟨ownTiles, fun found => ?_⟩
    exact proper_apart separates.proper (fullTiles.proper (below found))
      (partialTiles.proper (below found))

def branchOf (width : Int) (stmt : Nat) (guard : Guard) (x : Iteration) : Int :=
  if (TileFilter.ofGuard .full width stmt guard).isFull x then 0 else 1

theorem Alike.exists_way {t t' : Tree} (alike : t.Alike t') {visits : List Visit}
    (way : t.way x = some visits) : ∃ visits', t'.way x = some visits' ∧
      visits'.flatMap (·.entries) = visits.flatMap (·.entries) := by
  have stamp : t'.stamp x = some (visits.flatMap (·.entries)) := by
    rw [← alike.stamp, Tree.stamp, way, Option.map_some]
  exact Option.map_eq_some_iff.mp stamp

/-- At the branches an instance gets the number of its branch, and then what it got before. -/
theorem way_apart (id i j stmt : Nat) (width : Int) (guard : Guard) {t full partly : Tree}
    (fullTiles : t.Alike full) (partialTiles : t.Alike partly) {visits : List Visit}
    (way : t.way x = some visits) :
    ∃ rest, (node id .sequence 2
      ![node i (.filter (.tiles (.ofGuard .full width stmt guard))) 1 fun _ => full,
        node j (.filter (.tiles (.ofGuard .partly width stmt guard))) 1 fun _ => partly]).way x =
          some (⟨id, [branchOf width stmt guard x]⟩ :: rest) ∧
      rest.flatMap (·.entries) = visits.flatMap (·.entries) := by
  rcases onward_apart x i j stmt width guard full partly with
    ⟨inFull, step, passes⟩ | ⟨inPart, step, passes⟩
  · obtain ⟨visits', below, same⟩ := fullTiles.exists_way way
    refine ⟨⟨i, []⟩ :: visits', ?_, by simp [same]⟩
    simp [way_next step, way_next passes, below, branchOf, inFull]
  · obtain ⟨visits', below, same⟩ := partialTiles.exists_way way
    refine ⟨⟨j, []⟩ :: visits', ?_, by simp [same]⟩
    simp [way_next step, way_next passes, below, branchOf, inPart]

/-- A loop adds the same entries whatever lies below it. -/
theorem way_only {id : Nat} {band : Band} {c c' : Tree} {entries : List Int} {i : Fin 1}
    (step : onward x (fun _ => c) (.band band) = some (entries, some i)) :
    (node id (.band band) 1 fun _ => c').way x = (c'.way x).map (⟨id, entries⟩ :: ·) :=
  way_next (i := i) step

/-- Below the loop over tiles, an instance gets the number of its branch. -/
theorem way_isolated {id p arity i j stmt : Nat} {band tiles points : Band} {guard : Guard}
    {child : Fin arity → Tree} {full partly : Tree} {v : List Int} {later : List Visit}
    (tiled : band.Tiled [width] tiles points)
    (fullTiles : (node p (.band points) arity child).Alike full)
    (partialTiles : (node p (.band points) arity child).Alike partly)
    (way : (node id (.band band) arity child).way x = some (⟨id, v⟩ :: later)) :
    ∃ rest, (node id (.band tiles) 1 fun _ => node p .sequence 2
      ![node i (.filter (.tiles (.ofGuard .full width stmt guard))) 1 fun _ => full,
        node j (.filter (.tiles (.ofGuard .partly width stmt guard))) 1 fun _ => partly]).way x =
          some (⟨id, v.zipWith Int.fdiv [width]⟩ :: ⟨p, [branchOf width stmt guard x]⟩ :: rest) ∧
      rest.flatMap (·.entries) = v.zipWith Int.fmod [width] ++ later.flatMap (·.entries) := by
  obtain ⟨-, -, together⟩ := way_tiled (p := p) tiled way
  obtain ⟨entries, below, same, ⟨step, none⟩ | ⟨k, step, wayBelow⟩⟩ := way_eq_some together
  · simp [none] at same
  cases same
  obtain ⟨rest, branches, same⟩ := way_apart p i j stmt width guard fullTiles partialTiles wayBelow
  refine ⟨rest, ?_, by simpa using same⟩
  rw [way_only step, branches]
  rfl

/-- Where the loops are affine, instances that meet in one tile go to the same branch. -/
theorem branchOf_eq {id arity stmt : Nat} {above : List NodeKind} {band tiles points : Band}
    {below : List Quasi} {guard : Guard} {child : Fin arity → Tree} {v w : List Int}
    {laterX laterY : List Visit} {domain : Polyhedron} (tiled : band.Tiled [width] tiles points)
    (separates : Separates domains above tiles points below width stmt guard)
    (meets : Meets above x y) (found : domains.get? x.stmt = some domain)
    (known : domains.contains y.stmt = true)
    (peers : y.stmt = x.stmt → x.Peers domain.nDim y)
    (affineAbove : ∀ e ∈ exprsAbove above x.stmt, e.isAffine = true)
    (affine : ∀ es, band.schedule.get? x.stmt = some es → ∀ e ∈ es, e.isAffine = true)
    (wayX : (node id (.band band) arity child).way x = some (⟨id, v⟩ :: laterX))
    (wayY : (node id (.band band) arity child).way y = some (⟨id, w⟩ :: laterY))
    (same : v.zipWith Int.fdiv [width] = w.zipWith Int.fdiv [width]) :
    branchOf width stmt guard x = branchOf width stmt guard y := by
  obtain rfl : x.stmt = stmt := separates.alone _ (by simp [StmtMap.contains, found]) meets.left
  have one : y.stmt = x.stmt := separates.alone _ known meets.right
  obtain ⟨-, positive, -⟩ := way_tiled (p := 0) tiled wayX
  cases own : band.schedule.get? x.stmt with
  | none =>
    obtain ⟨_, _, -, ⟨step, -⟩ | ⟨_, step, -⟩⟩ := way_eq_some wayX <;> simp [onward, own] at step
  | some es =>
    obtain ⟨ts, ps, -, -, tiling⟩ := tiled.scheduled x.stmt es own
    obtain ⟨q, rfl⟩ := List.length_eq_one_iff.mp tiling.lengths.1.symm
    obtain ⟨_, splitX⟩ := entries_of_way wayX own
    obtain ⟨_, splitY⟩ := entries_of_way wayY (one ▸ own)
    cases splitX
    cases splitY
    have tile : (x.value q).fdiv width = (y.value q).fdiv width := by
      simpa [Iteration.values] using same
    rw [branchOf, branchOf, separates.isFull_eq_of_affine tiled one found (peers one) own
      (affine _ own q (by simp)) affineAbove (meets.equal one) tile (positive width (by simp))]

end Tree

/-- Two ways come to a sequence with equal entries and part there. -/
def Arena.PartsAt (b : Arena) (p : Nat) (vs ws : List Visit) : Prop :=
  b.kind? p = some .sequence ∧ ∃ preX preY i j laterX laterY,
    vs = preX ++ ⟨p, i⟩ :: laterX ∧ ws = preY ++ ⟨p, j⟩ :: laterY ∧
    preX.flatMap (·.entries) = preY.flatMap (·.entries) ∧ i ≠ j

/-- All expressions of a statement in the bands on the path to a node are affine. -/
def Arena.isAffineTo (a : Arena) (id stmt : Nat) : Bool :=
  (a.bandExprs ((a.pathTo? id).getD []) stmt).all (·.isAffine)

theorem Arena.Locates.isAffineTo {a : Arena} {above : List Frame} {id arity stmt : Nat}
    {band : Band} {child : Fin arity → Tree}
    (located : a.Locates above (.node id (.band band) arity child))
    (affine : a.isAffineTo id stmt = true) :
    (∀ e ∈ exprsAbove (above.map (·.2)) stmt, e.isAffine = true) ∧
      ∀ es, band.schedule.get? stmt = some es → ∀ e ∈ es, e.isAffine = true := by
  have path := located.pathTo?
  rw [Tree.top_node] at path
  rw [Arena.isAffineTo, path, Option.getD_some, Arena.bandExprs, List.flatMap_append] at affine
  have up := located.bandExprs stmt
  rw [Arena.bandExprs] at up
  rw [up, List.all_append, Bool.and_eq_true, List.all_eq_true, List.all_eq_true] at affine
  refine ⟨fun e member => affine.1 e ?_, fun es found e member => affine.2 e ?_⟩
  · simpa [exprsAbove, List.flatMap_map] using member
  · simpa [located.holds.band?_eq, found] using member

namespace Edit

variable {a b m : Arena} {id p : Nat} {width : Int} {rs : List Nat} {x y : Iteration}

/-- Tiling a band and keeping its full tiles apart. -/
theorem isolate_reworks {root arity : Nat} {domains : StmtMap Polyhedron} {above : List Frame}
    {band : Band} {child : Fin arity → Tree}
    (located : a.Locates ((root, .domain domains) :: above) (.node id (.band band) arity child))
    (arities : band.HasArity) (tile : (bandTile id [width]).Does a p m)
    (isolates : (isolate id width).Does m rs b) :
    1 ≤ width ∧ ∃ t', a.Reworks b (.node id (.band band) arity child) t' ∧
      Tree.Isolated domains (.domain domains :: above.map (·.2)) width id p band child t' := by
  obtain ⟨tiles, points, tiled, first⟩ := bandTile_reworks located.holds arities tile
  have located' := located.rework first
  obtain ⟨-, wide, ⟨-, rfl⟩ | ⟨stmt, guard, separates, inserts⟩⟩ := isolate_cases located' isolates
  · exact ⟨wide, _, first, .together tiled⟩
  · obtain ⟨i, j, full, partly, -, fullTiles, partialTiles, -, inserted⟩ :=
      insertSequence_reworks (located'.holds.child 0) inserts
    exact ⟨wide, _, first.trans (.only located'.holds inserted),
      .apart tiled separates fullTiles.alike partialTiles.alike⟩

/-- An instance that is scheduled stays scheduled when full tiles are kept apart. -/
theorem exists_way_isolated {arity : Nat} {domains : StmtMap Polyhedron} {above : List NodeKind}
    {band : Band} {child : Fin arity → Tree} {t' : Tree}
    (isolated : Tree.Isolated domains above width id p band child t') {visits : List Visit}
    (way : (Tree.node id (.band band) arity child).way x = some visits) :
    ∃ visits', t'.way x = some visits' := by
  cases isolated with
  | together tiled => exact Tree.exists_way_tiled tiled way
  | apart tiled separates fullTiles partialTiles =>
    obtain ⟨v, later, rfl⟩ := Tree.way_top way
    obtain ⟨rest, found, -⟩ := Tree.way_isolated tiled fullTiles partialTiles way
    exact ⟨_, found⟩

/-- Instances that come to the band with the same entries keep their order, or part. -/
theorem compare_isolated {arity : Nat} {domains : StmtMap Polyhedron} {above : List NodeKind}
    {band : Band} {child : Fin arity → Tree} {t' whole whole' : Tree} {pre vs ws : List Visit}
    {us ts us' ts' : List Int} (isolated : Tree.Isolated domains above width id p band child t')
    (holds : b.Holds t')
    (comesX : Tree.Comes x (.node id (.band band) arity child) t' whole whole' pre)
    (comesY : Tree.Comes y (.node id (.band band) arity child) t' whole whole' pre)
    (wayX : whole'.way x = some vs) (wayY : whole'.way y = some ws) (together : ¬b.PartsAt p vs ws)
    (oldX : (Tree.node id (.band band) arity child).stamp x = some us)
    (oldY : (Tree.node id (.band band) arity child).stamp y = some ts)
    (newX : t'.stamp x = some us') (newY : t'.stamp y = some ts') :
    compareStamps us' ts' = compareStamps us ts := by
  cases isolated with
  | together tiled =>
    obtain ⟨v, r, length, positive, rfl, rfl⟩ := Tree.stamp_tiled tiled oldX newX
    obtain ⟨w, s, length', -, rfl, rfl⟩ := Tree.stamp_tiled tiled oldY newY
    exact Tree.compare_tiled_single rfl length length' positive
  | @apart tiles points i j stmt guard full partly tiled separates fullTiles partialTiles =>
    obtain ⟨visitsX, wasX, rfl⟩ := Option.map_eq_some_iff.mp oldX
    obtain ⟨visitsY, wasY, rfl⟩ := Option.map_eq_some_iff.mp oldY
    obtain ⟨v, laterX, rfl⟩ := Tree.way_top wasX
    obtain ⟨w, laterY, rfl⟩ := Tree.way_top wasY
    obtain ⟨length, positive, -⟩ := Tree.way_tiled (p := p) tiled wasX
    obtain ⟨length', -, -⟩ := Tree.way_tiled (p := p) tiled wasY
    obtain ⟨restX, foundX, sameX⟩ := Tree.way_isolated tiled fullTiles partialTiles wasX
    obtain ⟨restY, foundY, sameY⟩ := Tree.way_isolated tiled fullTiles partialTiles wasY
    rw [comesX.new, foundX, Option.map_some, Option.some.injEq] at wayX
    rw [comesY.new, foundY, Option.map_some, Option.some.injEq] at wayY
    rw [Tree.stamp, foundX, Option.map_some, Option.some.injEq] at newX
    rw [Tree.stamp, foundY, Option.map_some, Option.some.injEq] at newY
    subst wayX wayY newX newY
    have branches : v.zipWith Int.fdiv [width] = w.zipWith Int.fdiv [width] →
        [Tree.branchOf width stmt guard x] = [Tree.branchOf width stmt guard y] := by
      intro sameTile
      by_contra ne
      refine together ⟨Arena.kind?_eq (holds.child 0).stored.1,
        pre ++ [⟨id, v.zipWith Int.fdiv [width]⟩], pre ++ [⟨id, w.zipWith Int.fdiv [width]⟩], _, _,
        restX, restY, by simp, by simp, by simp [sameTile], ne⟩
    simp only [List.flatMap_cons, sameX, sameY]
    rw [compareStamps_skip (by simp [length, length']) branches, ← List.append_assoc,
      ← List.append_assoc]
    exact Tree.compare_tiled_single rfl length length' positive

/-- A way to the branches came to the band, and has the number of its tile above them. -/
theorem way_to_branches {arity i j stmt : Nat} {frames : List Frame} {band tiles points : Band}
    {guard : Guard} {child : Fin arity → Tree} {full partly : Tree} {visits pre later : List Visit}
    {branch : List Int}
    (replaces : a.Replaces b frames (.node id (.band band) arity child)
      (.node id (.band tiles) 1 fun _ => .node p .sequence 2
        ![.node i (.filter (.tiles (.ofGuard .full width stmt guard))) 1 fun _ => full,
          .node j (.filter (.tiles (.ofGuard .partly width stmt guard))) 1 fun _ => partly]))
    (tiled : band.Tiled [width] tiles points)
    (fullTiles : (Tree.node p (.band points) arity child).Alike full)
    (partialTiles : (Tree.node p (.band points) arity child).Alike partly)
    (old : a.tree.way x = some visits) (new : b.tree.way x = some (pre ++ ⟨p, branch⟩ :: later)) :
    ∃ above v rest, a.tree.way x = some (above ++ ⟨id, v⟩ :: rest) ∧
      (Tree.node id (.band band) arity child).way x = some (⟨id, v⟩ :: rest) ∧
      pre = above ++ [⟨id, v.zipWith Int.fdiv [width]⟩] ∧
      branch = [Tree.branchOf width stmt guard x] := by
  rcases replaces.symm.arrives_or_passes x with ⟨above, arrives⟩ | passes
  · obtain ⟨visits', below, rfl⟩ := Option.map_eq_some_iff.mp (arrives.new.symm.trans old)
    obtain ⟨v, rest, rfl⟩ := Tree.way_top below
    obtain ⟨rest', found, -⟩ := Tree.way_isolated tiled fullTiles partialTiles below
    have split := arrives.old.symm.trans new
    rw [found, Option.map_some, Option.some.injEq,
      show ∀ u w : Visit, above ++ u :: w :: rest' = (above ++ [u]) ++ w :: rest' by simp] at split
    obtain ⟨rfl, same, -⟩ :=
      Tree.split_unique (Tree.nodup_of_way replaces.holds' new) split.symm rfl
    exact ⟨above, v, rest, old, below, rfl, (Visit.mk.inj same).2⟩
  · exact absurd (by simp [Tree.ids, List.finRange]) (passes.avoids _ new ⟨p, branch⟩ (by simp))

/-- Where the loops are affine, no instances of one tile part. -/
theorem not_partsAt {arity : Nat} {domains : StmtMap Polyhedron} {frames : List Frame} {band : Band}
    {child : Fin arity → Tree} {t' : Tree} {visitsX visitsY vs ws : List Visit}
    {domain : Polyhedron}
    (isolated : Tree.Isolated domains (frames.map (·.2)) width id p band child t')
    (replaces : a.Replaces b frames (.node id (.band band) arity child) t')
    (everyBand : a.tree.EveryBand Band.HasArity)
    (affineAbove : ∀ e ∈ exprsAbove (frames.map (·.2)) x.stmt, e.isAffine = true)
    (affine : ∀ es, band.schedule.get? x.stmt = some es → ∀ e ∈ es, e.isAffine = true)
    (found : domains.get? x.stmt = some domain) (known : domains.contains y.stmt = true)
    (peers : y.stmt = x.stmt → x.Peers domain.nDim y)
    (oldX : a.tree.way x = some visitsX) (oldY : a.tree.way y = some visitsY)
    (newX : b.tree.way x = some vs) (newY : b.tree.way y = some ws) : ¬b.PartsAt p vs ws := by
  rintro ⟨isSequence, preX, preY, i, j, laterX, laterY, rfl, rfl, same, ne⟩
  have holds : b.Holds t' := replaces.graft.under.holds replaces.holds'
  cases isolated with
  | together tiled => simp [Arena.kind?_eq (holds.child 0).stored.1] at isSequence
  | apart tiled separates fullTiles partialTiles =>
    obtain ⟨aboveX, v, restX, wayX, belowX, rfl, rfl⟩ :=
      way_to_branches replaces tiled fullTiles partialTiles oldX newX
    obtain ⟨aboveY, w, restY, wayY, belowY, rfl, rfl⟩ :=
      way_to_branches replaces tiled fullTiles partialTiles oldY newY
    have lengthX := (Tree.way_tiled (p := p) tiled belowX).1
    have lengthY := (Tree.way_tiled (p := p) tiled belowY).1
    simp only [List.flatMap_append, List.flatMap_singleton] at same
    obtain ⟨sameAbove, sameTile⟩ := List.append_inj' same (by simp [lengthX, lengthY])
    have meets := replaces.graft.symm.under.meets replaces.holds everyBand wayX wayY sameAbove
    exact ne (by rw [Tree.branchOf_eq tiled separates meets found known peers affineAbove affine
      belowX belowY sameTile])

/-- Keeping the full tiles of a tiled loop apart keeps two instances in their order, unless they
come to the branches with the same entries and part there, or a word overflows. If the expressions
of the statement in the tiled loop and in the loops above it are affine, they do not part. -/
theorem isolate_keeps_order_unless_parted
    (tile : (bandTile id [width]).commit a = .ok (.ok (p, m)))
    (isolates : (isolate id width).commit m = .ok (.ok (rs, b)))
    (wellFormed : a.isWellFormed = true)
    (arities : ∀ i ∈ a.bands, ∀ band ∈ a.band? i, band.HasArity) (reached : id ∈ a.bands)
    (memX : a.HasInstance x) (memY : a.HasInstance y) (params : x.params = y.params)
    {as bs : List Int}
    (oldX : (a.timestamp x.stmt x.point x.params).run = .ok (.ok as))
    (oldY : (a.timestamp y.stmt y.point y.params).run = .ok (.ok bs)) :
    ∃ vs ws, (b.visits x.stmt x.point x.params).Yields (.ok vs) ∧
      (b.visits y.stmt y.point y.params).Yields (.ok ws) ∧
      (¬b.PartsAt p vs ws →
        compareStamps (vs.flatMap (·.entries)) (ws.flatMap (·.entries)) = compareStamps as bs) ∧
      (a.isAffineTo id x.stmt = true → ¬b.PartsAt p vs ws) := by
  have everyBand := Optimizer.everyBand_of_bands wellFormed arities
  obtain ⟨domainX, foundX, inX⟩ := memX
  obtain ⟨domainY, foundY, inY⟩ := memY
  obtain ⟨domains, found, atX⟩ := Option.bind_eq_some_iff.mp foundX
  rw [found, Option.bind_some] at foundY
  obtain ⟨frames, band, arity, child, located⟩ := Arena.exists_locates_band wellFormed reached
  obtain ⟨above, rfl⟩ := located.frames_eq found
  have arityHere := arities id reached band located.holds.band?_eq
  obtain ⟨-, t', reworks, isolated⟩ := isolate_reworks located arityHere (commit_eq_ok.mp tile)
    (commit_eq_ok.mp isolates)
  have replaces := located.replaces reworks rfl (by cases isolated <;> rfl)
  have stampX := (a.timestamp_agrees x).eq_some oldX
  have stampY := (a.timestamp_agrees y).eq_some oldY
  obtain ⟨visitsX, walkX⟩ := Arena.exists_walk oldX
  obtain ⟨visitsY, walkY⟩ := Arena.exists_walk oldY
  obtain ⟨vs, wayX', newX, -⟩ :=
    replaces.exists_yields isolated.proper (fun _ => exists_way_isolated isolated) walkX
  obtain ⟨ws, wayY', newY, -⟩ :=
    replaces.exists_yields isolated.proper (fun _ => exists_way_isolated isolated) walkY
  have onTreeX := Arena.way_eq_some wayX'
  have onTreeY := Arena.way_eq_some wayY'
  refine ⟨vs, ws, newX, newY, fun together => ?_, fun affine => ?_⟩
  · refine replaces.compare_eq everyBand ?_ stampX stampY
      (Option.map_eq_some_iff.mpr ⟨vs, wayX', rfl⟩) (Option.map_eq_some_iff.mpr ⟨ws, wayY', rfl⟩)
    intro pre us ts us' ts' comesX comesY
    exact compare_isolated isolated reworks.holds comesX comesY onTreeX onTreeY together
  · obtain ⟨affineAbove, affineHere⟩ := located.isAffineTo affine
    refine not_partsAt isolated replaces everyBand affineAbove affineHere atX
      (by simp [StmtMap.contains, foundY]) ?_
      (Arena.way_eq_some ((a.visits_agrees x).eq_some walkX))
      (Arena.way_eq_some ((a.visits_agrees y).eq_some walkY)) onTreeX onTreeY
    intro one
    rw [one, atX, Option.some.injEq] at foundY
    exact ⟨inX.1, foundY ▸ inY.1, params⟩

/-- Two instances of the short last tile of row 5. -/
theorem triangle_keeps_order_of_affine : ∃ m rs b vs ws,
    (bandTile 2 [4]).commit (Scop.triangle (.affine ⟨0, [1, 0], []⟩)) = .ok (.ok (4, m)) ∧
    (isolate 2 4).commit m = .ok (.ok (rs, b)) ∧ b.kind? 4 = some .sequence ∧
    (b.visits 0 [5, 4] []).run = .ok (.ok vs) ∧ (b.visits 0 [5, 5] []).run = .ok (.ok ws) ∧
    ¬b.PartsAt 4 vs ws ∧
    compareStamps (vs.flatMap (·.entries)) (ws.flatMap (·.entries)) =
      compareStamps [5, 4] [5, 5] := by
  obtain ⟨⟨p, m⟩, tiled, facts⟩ : ∃ value : Nat × Arena,
      (bandTile 2 [4]).commit (Scop.triangle (.affine ⟨0, [1, 0], []⟩)) = .ok (.ok value) ∧
      decide (value.1 = 4 ∧
        (((isolate 2 4).commit value.2).toOption.bind Except.toOption).any (fun result =>
          decide (result.2.kind? 4 = some .sequence ∧
            (result.2.visits 0 [5, 4] []).run = .ok (.ok [⟨0, []⟩, ⟨1, [5]⟩, ⟨2, [1]⟩, ⟨4, [1]⟩,
              ⟨10, []⟩, ⟨9, [0]⟩, ⟨8, []⟩]) ∧
            (result.2.visits 0 [5, 5] []).run = .ok (.ok [⟨0, []⟩, ⟨1, [5]⟩, ⟨2, [1]⟩, ⟨4, [1]⟩,
              ⟨10, []⟩, ⟨9, [1]⟩, ⟨8, []⟩]))) = true) = true :=
    exists_ok_of_any (by decide +kernel)
  obtain ⟨rfl, ran⟩ := of_decide_eq_true facts
  obtain ⟨⟨rs, b⟩, isolated, facts⟩ := exists_ok_of_any ran
  obtain ⟨isSequence, wayX, wayY⟩ := of_decide_eq_true facts
  have oldX : ((Scop.triangle (.affine ⟨0, [1, 0], []⟩)).timestamp 0 [5, 4] []).run =
      .ok (.ok [5, 4]) := by decide +kernel
  have oldY : ((Scop.triangle (.affine ⟨0, [1, 0], []⟩)).timestamp 0 [5, 5] []).run =
      .ok (.ok [5, 5]) := by decide +kernel
  obtain ⟨vs, ws, yieldsX, yieldsY, keeps, apart⟩ := isolate_keeps_order_unless_parted
    (x := ⟨0, [5, 4], []⟩) (y := ⟨0, [5, 5], []⟩) tiled isolated (by decide +kernel)
    (by decide +kernel) (by decide +kernel) ⟨Scop.triangleDomain, by decide +kernel, by decide⟩
    ⟨Scop.triangleDomain, by decide +kernel, by decide⟩ rfl oldX oldY
  have together := apart (by decide +kernel)
  cases yieldsX.eq_of_run wayX
  cases yieldsY.eq_of_run wayY
  exact ⟨m, rs, b, _, _, tiled, isolated, isSequence, wayX, wayY, together, keeps together⟩

/-- The triangle with the loops `i / 2` and `j`. -/
def pairedRows : Arena :=
  Scop.triangle (.plus (.affine ⟨0, [0, 0], []⟩) 1 (.affine ⟨0, [1, 0], []⟩) 2)

/-- The quotient of an iterator does not tell the iterator: row 2 has a short first tile and row 3 a
full one, both come to the branches with the same entries, and the instance that was later comes
first. -/
theorem pairedRows_reordered : ∃ m rs b,
    pairedRows.isWellFormed = true ∧ (∀ i ∈ pairedRows.bands, ∀ band ∈ pairedRows.band? i,
      band.HasArity) ∧ 2 ∈ pairedRows.bands ∧
    pairedRows.HasInstance ⟨0, [2, 0], []⟩ ∧ pairedRows.HasInstance ⟨0, [3, 1], []⟩ ∧
    (bandTile 2 [4]).commit pairedRows = .ok (.ok (4, m)) ∧
    (isolate 2 4).commit m = .ok (.ok (rs, b)) ∧
    (pairedRows.timestamp 0 [2, 0] []).run = .ok (.ok [1, 0]) ∧
    (pairedRows.timestamp 0 [3, 1] []).run = .ok (.ok [1, 1]) ∧
    compareStamps [1, 0] [1, 1] = .lt ∧
    (b.timestamp 0 [2, 0] []).run = .ok (.ok [1, 0, 1, 0]) ∧
    (b.timestamp 0 [3, 1] []).run = .ok (.ok [1, 0, 0, 1]) ∧
    compareStamps [1, 0, 1, 0] [1, 0, 0, 1] = .gt := by
  obtain ⟨⟨p, m⟩, tiled, facts⟩ : ∃ value : Nat × Arena,
      (bandTile 2 [4]).commit pairedRows = .ok (.ok value) ∧
      decide (value.1 = 4 ∧
        (((isolate 2 4).commit value.2).toOption.bind Except.toOption).any (fun result =>
          decide ((result.2.timestamp 0 [2, 0] []).run = .ok (.ok [1, 0, 1, 0]) ∧
            (result.2.timestamp 0 [3, 1] []).run = .ok (.ok [1, 0, 0, 1]))) = true) = true :=
    exists_ok_of_any (by decide +kernel)
  obtain ⟨rfl, ran⟩ := of_decide_eq_true facts
  obtain ⟨⟨rs, b⟩, isolated, facts⟩ := exists_ok_of_any ran
  obtain ⟨newX, newY⟩ := of_decide_eq_true facts
  exact ⟨m, rs, b, by decide +kernel, by decide +kernel, by decide +kernel,
    ⟨Scop.triangleDomain, by decide +kernel, by decide⟩,
    ⟨Scop.triangleDomain, by decide +kernel, by decide⟩, tiled, isolated, by decide +kernel,
    by decide +kernel, by decide, newX, newY, by decide⟩

end Edit

end LoopNest
