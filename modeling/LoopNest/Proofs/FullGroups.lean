import LoopNest.Proofs.Iterators
import LoopNest.Proofs.Outcome
import LoopNest.Proofs.Recovery

/-! A loop that is made a vector loop leaves the number of the tile in its place, and the offset in
the tile comes last. In a full tile, the iterator that runs through a block of values takes all of
them within the domain and stays in full tiles. The group is complete wherever the other loops do
not see the iterator move. -/

namespace LoopNest

/-- An iterator that moves within its block stays in the block. -/
theorem Iteration.blockStart_move {x : Iteration} {dim : Nat} {width v : Int}
    (bound : dim < x.point.length) (lower : 0 ≤ v) (upper : v < width) :
    (x.move dim (x.blockStart dim width + v)).blockStart dim width = x.blockStart dim width := by
  simp only [blockStart, move, List.getElem?_set_self bound, Option.getD_some]
  rw [((eq_block_iff lower upper).mp rfl).1]

/-- In a full tile, the instances of the block are in the domain and in full tiles. -/
theorem FullTile.Guards.admits_move {domain : Polyhedron} {e : Quasi} {dim : Nat}
    {above below : List Quasi} {width v : Int} {guard : Guard} {constraints : List Affine}
    {x : Iteration} (guards : Guards domain e dim above below width guard constraints)
    (length : x.point.length = domain.nDim) (bound : dim < domain.nDim)
    (admitted : guard.admits x = true) (lower : 0 ≤ v) (upper : v < width) :
    guard.admits (x.move dim (x.blockStart dim width + v)) = true := by
  rw [← admitted]
  refine (guards.admits_eq (y := x.move dim (x.blockStart dim width + v)) length
    (by simpa [Iteration.move] using length) rfl
    (Iteration.blockStart_move (length ▸ bound) lower upper).symm fun d _ ne _ => ?_).symm
  simp [Iteration.move, List.getElem?_set_ne (Ne.symm ne)]

theorem TileFilter.isFull_ofGuard {kind : TileKind} {width : Int} {stmt : Nat} {guard : Guard}
    {x : Iteration} :
    (ofGuard kind width stmt guard).isFull x = true ↔ x.stmt = stmt ∧ guard.admits x = true := by
  by_cases same : x.stmt = stmt <;> simp [isFull, same]

/-- In a full tile, one iterator takes all values of its block within the domain and in full
tiles. The loop goes with it unless a floor divides by a negative number. -/
theorem Separates.exists_block {domains : StmtMap Polyhedron} {above : List NodeKind}
    {head tiles points : Band} {below : List Quasi} {width : Int} {guard : Guard} {q : Quasi}
    {domain : Polyhedron} {x : Iteration}
    (separates : Separates domains above tiles points below width x.stmt guard)
    (tiled : head.Tiled [width] tiles points) (loop : head.schedule.get? x.stmt = some [q])
    (found : domains.get? x.stmt = some domain) (mem : domain.Mem x.point x.params)
    (inFull : (TileFilter.ofGuard .full width x.stmt guard).isFull x = true) :
    ∃ dim < domain.nDim, ∀ v, 0 ≤ v → v < width →
      ((q.EveryFloor fun _ d => 0 ≤ d) → (x.move dim (x.blockStart dim width + v)).value q =
        width * (x.value q).fdiv width + v) ∧
      domain.Mem (x.move dim (x.blockStart dim width + v)).point x.params ∧
      (TileFilter.ofGuard .full width x.stmt guard).isFull
        (x.move dim (x.blockStart dim width + v)) = true := by
  obtain ⟨-, admitted⟩ := TileFilter.isFull_ofGuard.mp inFull
  obtain ⟨_, tile, e, dim, constraints, found', runs, guards⟩ := separates.guards tiled loop
  cases found.symm.trans found'
  refine ⟨dim, runs.bound, fun v lower upper =>
    ⟨fun floors => ?_, ?_, TileFilter.isFull_ofGuard.mpr ⟨rfl, ?_⟩⟩⟩
  · exact runs.value_move floors mem.1 lower upper
  · exact guards.mem_move mem runs.bound admitted lower upper
  · exact guards.admits_move mem.1 runs.bound admitted lower upper

namespace Tree

variable {domains : StmtMap Polyhedron} {width : Int} {own member id arity : Nat} {band : Band}
  {above : List NodeKind} {child : Fin arity → Tree} {t' : Tree}

/-- A member of a band has become a vector loop, which makes `t'` of the tree. With `c` below the
member, the loop over its tiles has `s` below it. -/
structure VectorLoop (domains : StmtMap Polyhedron) (width : Int) (own member id : Nat)
    (band : Band) {arity : Nat} (child : Fin arity → Tree) (t' : Tree) (around : List NodeKind)
    (head tiles points : Band) (c s : Tree) : Prop where
  tiled : head.Tiled [width] tiles points
  stripped : c.Stripped domains around tiles points width s
  arities : c.EveryBand Band.HasArity
  branches : ∀ i ∈ c.branches, ∃ k, i ∈ (child k).ids
  covers : ∀ k, ∀ i ∈ (child k).ids, i ∈ c.ids
  under : ∃ frames, Under frames t' (node own (.band tiles) 1 fun _ => s)
  scheduled : ∀ y, (t'.stamp y).isSome = ((node id (.band band) arity child).stamp y).isSome
  loop : ∀ stmt es, band.schedule.get? stmt = some es →
    ∃ q, es[member]? = some q ∧ head.schedule.get? stmt = some [q]
  ends : ∀ (y : Iteration) es, band.schedule.get? y.stmt = some es →
    (node id (.band band) arity child).endsAtLeaf y = c.endsAtLeaf y
  old : ∀ (y : Iteration) es q, band.schedule.get? y.stmt = some es → es[member]? = some q →
    (node id (.band band) arity child).stamp y =
      (c.stamp y).map fun r => y.values (es.take member) ++ y.value q :: r
  new : ∀ (y : Iteration) es q, band.schedule.get? y.stmt = some es → es[member]? = some q →
    t'.stamp y = (s.stamp y).map fun r => y.values (es.take member) ++ (y.value q).fdiv width :: r

theorem Heads.branches {a : Arena} {head : Band} {c : Tree}
    (heads : Heads (node id (.band band) arity child) head c) (stored : ∀ k, (child k).Stored a) :
    ∀ i ∈ c.branches, ∃ k, i ∈ (child k).ids := by
  intro i inside
  cases heads with
  | whole single => exact ⟨0, mem_ids_of_mem_branches (stored 0) inside⟩
  | split split => simp [Tree.branches] at inside

theorem Heads.covers {head : Band} {c : Tree}
    (heads : Heads (node id (.band band) arity child) head c) :
    ∀ k, ∀ i ∈ (child k).ids, i ∈ c.ids := by
  intro k i inside
  cases heads with
  | whole single => exact inside
  | split split => exact mem_ids_node.mpr (.inr ⟨k, inside⟩)

theorem Vectorized.loop_first {a : Arena}
    (vectorized : Vectorized domains width own 0 above (node id (.band band) arity child) t')
    (stored : ∀ k, (child k).Stored a)
    (arities : (node id (.band band) arity child).EveryBand Band.HasArity) :
    ∃ around head tiles points c s,
      VectorLoop domains width own 0 id band child t' around head tiles points c s := by
  have scheduled := fun y => vectorized.isSome_stamp (x := y)
  cases vectorized with
  | later split => exact absurd split.pos (Nat.lt_irrefl 0)
  | @first _ _ c s head tiles points here heads tiled stripped =>
    obtain ⟨-, below⟩ := heads.everyBand Band.HasArity.inherited arities
    refine ⟨above, head, tiles, points, c, s, tiled, stripped, below, heads.branches stored,
      heads.covers, ⟨[], .here _⟩, scheduled, fun stmt es found => ?_, fun y es found => ?_,
      fun y es q found atMember => ?_, fun y es q found atMember => ?_⟩
    · obtain ⟨q, rest, rfl, loop, -⟩ := heads.exprs (arities.1 _ rfl) found
      exact ⟨q, rfl, loop⟩
    · obtain ⟨q, rest, rfl, loop, -⟩ := heads.exprs (arities.1 _ rfl) found
      exact heads.endsAtLeaf loop
    · obtain ⟨_, rest, rfl, loop, -⟩ := heads.exprs (arities.1 _ rfl) found
      cases atMember
      simp [heads.stamp 0, stamp_only, loop, Iteration.values]
    · obtain ⟨_, rest, rfl, loop, -⟩ := heads.exprs (arities.1 _ rfl) found
      cases atMember
      obtain ⟨ts, ps, foundTiles, -, tiling⟩ := tiled.scheduled _ _ loop
      rw [stamp_only, foundTiles, Option.bind_some, tiling.values_tiles]
      simp [Iteration.values]

theorem Vectorized.loop {a : Arena}
    (vectorized : Vectorized domains width own member above (node id (.band band) arity child) t')
    (stored : ∀ k, (child k).Stored a)
    (arities : (node id (.band band) arity child).EveryBand Band.HasArity) :
    ∃ around head tiles points c s,
      VectorLoop domains width own member id band child t' around head tiles points c s := by
  have scheduled := fun y => vectorized.isSome_stamp (x := y)
  cases vectorized with
  | first here heads tiled stripped =>
    exact (Vectorized.first here heads tiled stripped).loop_first stored arities
  | @later _ _ _ _ _ upper lower _ s split rest =>
    obtain ⟨-, lowerArity⟩ := split.hasArity (arities.1 _ rfl)
    have lowerArities : (node own (.band lower) arity child).EveryBand Band.HasArity :=
      ⟨fun _ same => by cases same; exact lowerArity, arities.2⟩
    obtain ⟨around, head, tiles, points, c, s, inner⟩ := rest.loop_first stored lowerArities
    obtain ⟨frames, under⟩ := inner.under
    have exprs : ∀ {stmt : Nat} {es : List Quasi}, band.schedule.get? stmt = some es →
        upper.schedule.get? stmt = some (es.take member) ∧
          lower.schedule.get? stmt = some (es.drop member) := by
      intro stmt es found
      simp [split.upperExprs, split.lowerExprs, found]
    refine ⟨around, head, tiles, points, c, s, inner.tiled, inner.stripped, inner.arities,
      inner.branches, inner.covers, ⟨_, .inside 0 under⟩, scheduled, fun stmt es found => ?_,
      fun y es found => ?_, fun y es q found atMember => ?_, fun y es q found atMember => ?_⟩
    · obtain ⟨q, atFirst, loop⟩ := inner.loop stmt _ (exprs found).2
      exact ⟨q, by simpa using atFirst, loop⟩
    · rw [← inner.ends y _ (exprs found).2, endsAtLeaf_band found, endsAtLeaf_band (exprs found).2]
    · have below := inner.old y _ q (exprs found).2 (by simpa using atMember)
      rw [← stamp_split own child split, stamp_only, (exprs found).1, Option.bind_some, below,
        Option.map_map]
      simp [Function.comp_def, Iteration.values]
    · have below := inner.new y _ q (exprs found).2 (by simpa using atMember)
      rw [stamp_only, (exprs found).1, Option.bind_some, below, Option.map_map]
      simp [Function.comp_def, Iteration.values]

/-- Two trees, the first for the full tiles of a statement and the second for the partial ones. -/
abbrev keptApart (seq i j stmt : Nat) (width : Int) (guard : Guard) (full partly : Tree) : Tree :=
  node seq .sequence 2
    ![node i (.filter (.tiles (.ofGuard .full width stmt guard))) 1 fun _ => full,
      node j (.filter (.tiles (.ofGuard .partly width stmt guard))) 1 fun _ => partly]

namespace VectorLoop

variable {around : List NodeKind} {head tiles points : Band} {c full partly : Tree}
  {seq i j stmt : Nat} {guard : Guard} {x y : Iteration} {rest : List Int}

theorem stamp_full (loop : VectorLoop domains width own member id band child t' around head tiles
      points c (keptApart seq i j stmt width guard full partly))
    (sunken : c.Sunken points full) {es : List Quasi} {q : Quasi}
    (found : band.schedule.get? y.stmt = some es) (atMember : es[member]? = some q)
    (inFull : (TileFilter.ofGuard .full width stmt guard).isFull y = true) :
    t'.stamp y = (c.stamp y).map fun r => y.values (es.take member) ++
      (y.value q).fdiv width :: 0 ::
        (r ++ if c.endsAtLeaf y then [(y.value q).fmod width] else []) := by
  obtain ⟨q', atMember', head⟩ := loop.loop _ _ found
  cases atMember.symm.trans atMember'
  obtain ⟨ts, ps, -, foundPoints, tiling⟩ := loop.tiled.scheduled _ _ head
  rw [loop.new y es q found atMember, stamp_apart, if_pos inFull, sunken.stamp foundPoints,
    tiling.values_points]
  simp [Function.comp_def, Iteration.values]

theorem stamp_partly (loop : VectorLoop domains width own member id band child t' around head tiles
      points c (keptApart seq i j stmt width guard full partly)) {es : List Quasi} {q : Quasi}
    (found : band.schedule.get? y.stmt = some es) (atMember : es[member]? = some q)
    (outside : (TileFilter.ofGuard .full width stmt guard).isFull y = false) :
    t'.stamp y = (partly.stamp y).map fun r => y.values (es.take member) ++
      (y.value q).fdiv width :: 1 :: r := by
  rw [loop.new y es q found atMember, stamp_apart, if_neg (by simp [outside]), Option.map_map]
  rfl

theorem stamp_eq_none (loop : VectorLoop domains width own member id band child t' around head tiles
      points c (keptApart seq i j stmt width guard full partly))
    (unscheduled : (node id (.band band) arity child).stamp y = none) : t'.stamp y = none := by
  rw [← Option.isNone_iff_eq_none, ← Option.isSome_eq_false_iff, loop.scheduled y, unscheduled,
    Option.isSome_none]

/-- An instance in a full tile has the entries of another, but for the offset, exactly if it had
them but for the entry of the loop, and this entry is at the offset in the same tile. -/
theorem stamp_eq_iff (loop : VectorLoop domains width own member id band child t' around head tiles
      points c (keptApart seq i j stmt width guard full partly))
    (sunken : c.Sunken points full) {es : List Quasi} {q : Quasi}
    (atMember : es[member]? = some q) (below : c.stamp x = some rest)
    (ends : c.endsAtLeaf x = true) {v : Int} (lower : 0 ≤ v) (upper : v < width) :
    t'.stamp y = some (x.values (es.take member) ++ (x.value q).fdiv width :: 0 :: (rest ++ [v])) ↔
      (TileFilter.ofGuard .full width stmt guard).isFull y = true ∧
        (node id (.band band) arity child).stamp y = some (x.values (es.take member) ++
          (width * (x.value q).fdiv width + v) :: rest) := by
  cases foundY : band.schedule.get? y.stmt with
  | none =>
    have old : (node id (.band band) arity child).stamp y = none := by simp [stamp_band, foundY]
    simp [old, loop.stamp_eq_none old]
  | some es' =>
    obtain ⟨q', atMember', -⟩ := loop.loop _ _ foundY
    have old := loop.old y es' q' foundY atMember'
    cases belowY : c.stamp y with
    | none =>
      rw [belowY, Option.map_none] at old
      simp [old, loop.stamp_eq_none old]
    | some rest' =>
      rw [belowY, Option.map_some] at old
      have lengths : (y.values (es'.take member)).length = (x.values (es.take member)).length := by
        have := (List.getElem?_eq_some_iff.mp atMember).1
        have := (List.getElem?_eq_some_iff.mp atMember').1
        simp only [Iteration.length_values, List.length_take]
        omega
      have parts : ∀ s t, y.values (es'.take member) ++ s = x.values (es.take member) ++ t ↔
          y.values (es'.take member) = x.values (es.take member) ∧ s = t := fun s t =>
        ⟨fun same => List.append_inj same lengths, fun ⟨front, back⟩ => by rw [front, back]⟩
      cases inFull : (TileFilter.ofGuard .full width stmt guard).isFull y with
      | false => simp [loop.stamp_partly foundY atMember' inFull, parts]
      | true =>
        rw [loop.stamp_full sunken foundY atMember' inFull, belowY, old, Option.map_some,
          Option.some.injEq, Option.some.injEq, parts, parts]
        rcases apart_or_same loop.arities belowY below with apart | ⟨rfl, same⟩
        · simp [apart.ne, (apart.append_right _ _).ne]
        · simp [same.trans ends, eq_block_iff lower upper]

/-- The time stamp of an instance in a full tile, split at the loop entry `u`. The entries of its
group are the instances of full tiles that had this time stamp but for another `u` of the tile. -/
theorem group (loop : VectorLoop domains width own member id band child t' around head tiles
      points c (keptApart seq i j x.stmt width guard full partly))
    (sunken : c.Sunken points full) (ends : full.endsAtLeaf x = true) {as : List Int}
    (stamp : (node id (.band band) arity child).stamp x = some as) :
    ∃ front u rest q, band.memberExpr? x.stmt member = some q ∧ x.value q = u ∧
      as = front ++ u :: rest ∧ head.schedule.get? x.stmt = some [q] ∧ 0 < width ∧
      ∀ y v, 0 ≤ v → v < width →
        (t'.stamp y = some (front ++ u.fdiv width :: 0 :: (rest ++ [v])) ↔
          (TileFilter.ofGuard .full width x.stmt guard).isFull y = true ∧
            (node id (.band band) arity child).stamp y =
              some (front ++ (width * u.fdiv width + v) :: rest)) := by
  obtain ⟨es, -, found, -, -⟩ := stamp_band_eq_some.mp stamp
  obtain ⟨q, atMember, loopHere⟩ := loop.loop _ _ found
  obtain ⟨_, _, -, foundPoints, tiling⟩ := loop.tiled.scheduled _ _ loopHere
  rw [sunken.endsAtLeaf foundPoints] at ends
  rw [loop.old x es q found atMember] at stamp
  obtain ⟨rest, below, rfl⟩ := Option.map_eq_some_iff.mp stamp
  refine ⟨_, _, rest, q, ?_, rfl, rfl, loopHere, tiling.pos (by simp), fun y v lower upper =>
    loop.stamp_eq_iff sunken atMember below ends lower upper⟩
  rw [Band.memberExpr?, found, Option.bind_some, atMember]

/-- A sequence of tile filters below the loop over tiles, with a new branch, keeps full tiles
apart. -/
theorem eq_keptApart {b : Arena} {s : Tree} {first second : Nat}
    (loop : VectorLoop domains width own member id band child t' around head tiles points c s)
    (holds : b.Holds (node own (.band tiles) 1 fun _ => s)) (below : b.children own = [seq])
    (isolated : b.isIsolation seq = true) (branches : b.children seq = [first, second])
    (new : ∀ k, first ∉ (child k).ids) :
    ∃ stmt guard full partly, s = keptApart seq first second stmt width guard full partly ∧
      Separates domains around tiles points (c.exprs stmt) width stmt guard ∧
      c.Sunken points full := by
  rw [Arena.children_eq holds.stored.1] at below
  obtain rfl : s.top = seq := by simpa using below
  have stored := (holds.child 0).stored
  cases loop.stripped with
  | @together _ sunken same =>
    cases s with
    | missing => exact stored.elim
    | node seq kind arity child' =>
      have kind? := Arena.kind?_eq stored.1
      simp only [Arena.isIsolation, Tree.top_node, kind?, Bool.and_eq_true, decide_eq_true_eq,
        Option.some.injEq] at isolated
      obtain rfl := isolated.1
      have tops : (List.ofFn fun k => (child' k).top) = [first, second] := by
        rw [← branches, Tree.top_node, Arena.children_eq stored.1]
      have inside : first ∈ c.branches := by
        rw [← same, Tree.branches, tops]
        simp
      obtain ⟨k, old⟩ := loop.branches first inside
      exact absurd old (new k)
  | @apart seq i j stmt guard full partly separates fullTiles partialTiles =>
    have tops : [i, j] = [first, second] := by
      rw [← branches, Tree.top_node, Arena.children_eq stored.1]
      simp [List.ofFn_succ]
    simp only [List.cons.injEq, and_true] at tops
    obtain ⟨rfl, rfl⟩ := tops
    exact ⟨stmt, guard, full, partly, rfl, separates, fullTiles⟩

end VectorLoop

theorem Vectorized.admits {y : Iteration}
    (vectorized : Vectorized domains width own member above
      (node id (.band band) arity child) t') :
    t'.admits y = (node id (.band band) arity child).admits y := by
  cases vectorized <;> rfl

end Tree

namespace Edit

variable {a b : Arena} {domains : StmtMap Polyhedron} {width : Int} {id own member : Nat}

/-- Making a member of a band in the tree a vector loop replaces the band in the tree. -/
theorem prevectorize_replaces (h : (prevectorize id member width).commit a = .ok (.ok (own, b)))
    (wellFormed : a.isWellFormed = true) (arities : a.tree.EveryBand Band.HasArity)
    (reached : id ∈ a.bands) :
    ∃ frames band arity child t', a.Locates frames (.node id (.band band) arity child) ∧
      (Tree.node id (.band band) arity child).EveryBand Band.HasArity ∧
      a.Reworks b (.node id (.band band) arity child) t' ∧
      a.Replaces b frames (.node id (.band band) arity child) t' ∧
      Tree.Vectorized (domainsAbove (frames.map (·.2))) width own member (frames.map (·.2))
        (.node id (.band band) arity child) t' := by
  obtain ⟨frames, band, arity, child, located⟩ := Arena.exists_locates_band wellFormed reached
  have bands : (Tree.node id (.band band) arity child).EveryBand Band.HasArity :=
    located.everyBand arities
  obtain ⟨-, -, t', reworks, vectorized⟩ :=
    prevectorize_reworks located (bands.1 band rfl) (commit_eq_ok.mp h)
  have replaces := located.replaces reworks rfl (by cases vectorized <;> rfl)
  exact ⟨frames, band, arity, child, t', located, bands, reworks, replaces, vectorized⟩

variable {x : Iteration} {visits : List Visit} {seq full partly : Nat}

/-- A way that meets the branch for full tiles passes its filter, and goes on below it. -/
theorem passes_of_meets {whole t : Tree} {frames : List Frame} {filter : Filter}
    (roots : b.Roots whole)
    (under : Tree.Under frames whole (.node full (.filter filter) 1 fun _ => t))
    (way : whole.way x = some visits) (meets : ∃ visit ∈ visits, visit.id = full)
    (leaf : b.EndsAtLeaf visits) : filter.admits x = true ∧ t.endsAtLeaf x = true := by
  obtain ⟨visit, member, rfl⟩ := meets
  obtain ⟨pre, comes⟩ := under.graft.comes roots.1 (fun _ => rfl) way
    ⟨visit, member, by simp [Tree.ids]⟩
  obtain ⟨later, wayBelow, rfl⟩ := Option.map_eq_some_iff.mp (comes.new.symm.trans way)
  replace leaf := leaf.below (under.holds roots.1).stored wayBelow
  have admitted : filter.admits x = true := by
    by_contra refused
    simp [Tree.endsAtLeaf, Tree.onward, refused] at leaf
  exact ⟨admitted, by simpa [Tree.endsAtLeaf, Tree.onward, admitted] using leaf⟩

/-- The group of an instance in a full tile. Its loop entry `u`, between the entries `front` and
`rest`, has become the number of the tile, and the iterator `dim` runs through the group. -/
structure FullGroup (a b : Arena) (domain : Polyhedron) (filter : Filter) (width : Int) (q : Quasi)
    (x : Iteration) (front : List Int) (u : Int) (rest : List Int) (dim : Nat) : Prop where
  value : x.value q = u
  old : a.stamp x = some (front ++ u :: rest)
  pos : 0 < width
  admitted : filter.admits x = true
  bound : dim < domain.nDim
  inside : ∀ v, 0 ≤ v → v < width →
    ((q.EveryFloor fun _ d => 0 ≤ d) →
      (x.move dim (x.blockStart dim width + v)).value q = width * u.fdiv width + v) ∧
    domain.Mem (x.move dim (x.blockStart dim width + v)).point x.params ∧
      filter.admits (x.move dim (x.blockStart dim width + v)) = true
  occurs : ∀ y v, 0 ≤ v → v < width →
    (b.stamp y = some (front ++ u.fdiv width :: 0 :: (rest ++ [v])) ↔
      filter.admits y = true ∧ a.stamp y = some (front ++ (width * u.fdiv width + v) :: rest))

theorem FullGroup.stamp_new {domain : Polyhedron} {filter : Filter} {q : Quasi}
    {front rest : List Int} {u : Int} {dim : Nat}
    (group : FullGroup a b domain filter width q x front u rest dim) :
    b.stamp x = some (front ++ u.fdiv width :: 0 :: (rest ++ [u.fmod width])) := by
  refine (group.occurs x (u.fmod width) (Int.fmod_nonneg_of_pos _ group.pos)
    (Int.fmod_lt_of_pos _ group.pos)).mpr ⟨group.admitted, ?_⟩
  rw [Int.mul_fdiv_add_fmod]
  exact group.old

theorem exists_fullGroup {domain : Polyhedron}
    (h : (prevectorize id member width).commit a = .ok (.ok (own, b)))
    (wellFormed : a.isWellFormed = true) (arities : a.tree.EveryBand Band.HasArity)
    (reached : id ∈ a.bands) (below : b.children own = [seq]) (isolated : b.isIsolation seq = true)
    (branches : b.children seq = [full, partly]) (inserted : a.size ≤ full)
    (found : a.domains?.bind (·.get? x.stmt) = some domain) (mem : domain.Mem x.point x.params)
    (way : b.way x = some visits) (meets : ∃ visit ∈ visits, visit.id = full)
    (leaf : b.EndsAtLeaf visits) :
    ∃ filter band q front u rest dim, b.kind? full = some (.filter filter) ∧
      a.band? id = some band ∧ band.memberExpr? x.stmt member = some q ∧
      FullGroup a b domain filter width q x front u rest dim := by
  obtain ⟨domains, rooted, found⟩ := Option.bind_eq_some_iff.mp found
  obtain ⟨frames, band, arity, child, t', located, bands, reworks, replaces, vectorized⟩ :=
    prevectorize_replaces h wellFormed arities reached
  obtain ⟨above, rfl⟩ := located.frames_eq rooted
  have holds := located.holds
  have graft := replaces.graft
  have roots : b.Roots b.tree := ⟨replaces.holds', (located.rework reworks).root_eq⟩
  obtain ⟨around, head, tiles, points, c, s, loop⟩ := vectorized.loop holds.stored.2 bands
  obtain ⟨inner, under⟩ := loop.under
  have underOwn := graft.under.trans under
  obtain ⟨stmt, guard, fullTiles, partialTiles, rfl, separates, sunken⟩ :=
    loop.eq_keptApart (underOwn.holds roots.1) below isolated branches fun k inside => by
      have := (holds.stored.2 k).lt_size inside
      omega
  have underFull := underOwn.trans (.inside 0 (.inside 0 (.here _)))
  have wayB := Arena.way_eq_some way
  obtain ⟨inFull, ends⟩ := passes_of_meets roots underFull wayB meets leaf
  obtain ⟨rfl, -⟩ := TileFilter.isFull_ofGuard.mp inFull
  obtain ⟨pre, comes⟩ := graft.comes roots.1 (fun y => vectorized.admits) wayB (by
    obtain ⟨visit, member, rfl⟩ := meets
    exact ⟨visit, member, under.mem_ids (by simp [Tree.ids])⟩)
  obtain ⟨as, stampHere, oldTree⟩ := comes.exists_stamp wayB (loop.scheduled x)
  have stamp : b.stamp x = some (visits.flatMap (·.entries)) := by
    rw [Arena.stamp, way, Option.map_some]
  have old := ((Arena.stamp_eq_iff replaces.domains (iff_of_true
    (Arena.stamp_eq_some stamp) ⟨trivial, oldTree⟩)).mp stamp).2
  obtain ⟨front, u, rest, q, expr, value, rfl, loopHere, pos, occurs⟩ :=
    loop.group sunken ends stampHere
  obtain ⟨dim, bound, block⟩ := separates.exists_block loop.tiled loopHere found mem inFull
  refine ⟨_, band, q, pre.flatMap (·.entries) ++ front, u, rest, dim,
    Arena.kind?_eq (underFull.holds roots.1).stored.1, ?_, expr, value, by simpa using old, pos,
    inFull, bound, value ▸ block, fun y v lower upper => ?_⟩
  · rw [Arena.band?, Arena.kind?_eq holds.stored.1]
  · have trees := comes.stamp_eq_iff arities (occurs y v lower upper)
    rw [List.append_assoc, List.append_assoc]
    exact Arena.stamp_eq_iff replaces.domains trees

/-- In a full tile, all values of the block of the vector iterator are in the domain and in full
tiles, and they give the loop the values of its tile unless a floor in it divides by a negative
number. An entry of the group occurs exactly if an instance of a full tile had the other entries and
the value of the block in the loop. -/
theorem prevectorize_full_groups {domain : Polyhedron} {result : Except EvalError (List Int)}
    (h : (prevectorize id member width).commit a = .ok (.ok (own, b)))
    (wellFormed : a.isWellFormed = true)
    (arities : ∀ i ∈ a.bands, ∀ band ∈ a.band? i, band.HasArity) (reached : id ∈ a.bands)
    (below : b.children own = [seq]) (isolated : b.isIsolation seq = true)
    (branches : b.children seq = [full, partly]) (inserted : a.size ≤ full)
    (found : a.domains?.bind (·.get? x.stmt) = some domain) (mem : domain.Mem x.point x.params)
    (old : (a.timestamp x.stmt x.point x.params).run = .ok result)
    (way : (b.visits x.stmt x.point x.params).run = .ok (.ok visits))
    (meets : ∃ visit ∈ visits, visit.id = full) (leaf : b.EndsAtLeaf visits) :
    ∃ filter band q front u rest dim, b.kind? full = some (.filter filter) ∧
      a.band? id = some band ∧ band.memberExpr? x.stmt member = some q ∧ x.value q = u ∧
      dim < domain.nDim ∧ result = .ok (front ++ u :: rest) ∧
      visits.flatMap (·.entries) = front ++ u.fdiv width :: 0 :: (rest ++ [u.fmod width]) ∧
      ∀ v, 0 ≤ v → v < width →
        ((q.EveryFloor fun _ d => 0 ≤ d) →
          (x.move dim (x.blockStart dim width + v)).value q = width * u.fdiv width + v) ∧
        domain.Mem (x.move dim (x.blockStart dim width + v)).point x.params ∧
        filter.admits (x.move dim (x.blockStart dim width + v)) = true ∧
        ∀ y before after, (a.timestamp y.stmt y.point y.params).run = .ok before →
          (b.timestamp y.stmt y.point y.params).run = .ok after →
          (after = .ok (front ++ u.fdiv width :: 0 :: (rest ++ [v])) ↔
            filter.admits y = true ∧
              before = .ok (front ++ (width * u.fdiv width + v) :: rest)) := by
  obtain ⟨holds, top⟩ := Arena.holds_tree wellFormed
  have everyBand : a.tree.EveryBand Band.HasArity := holds.everyBand fun i inside band found => by
    refine arities i ?_ band found
    rw [Arena.bands, ← top, holds.subtree_eq, List.mem_filter, found]
    exact ⟨inside, rfl⟩
  have wayB := (b.visits_agrees x).eq_some way
  obtain ⟨filter, band, q, front, u, rest, dim, kind, here, expr, group⟩ := exists_fullGroup h
    wellFormed everyBand reached below isolated branches inserted found mem wayB meets leaf
  have new := group.stamp_new
  rw [Arena.stamp, wayB, Option.map_some, Option.some.injEq] at new
  refine ⟨filter, band, q, front, u, rest, dim, kind, here, expr, group.value, group.bound,
    ((a.timestamp_agrees x).eq_ok_iff old).mpr group.old, new, fun v lower upper => ?_⟩
  obtain ⟨moves, inDomain, inFull⟩ := group.inside v lower upper
  refine ⟨moves, inDomain, inFull, fun y before after runA runB => ?_⟩
  rw [(a.timestamp_agrees y).eq_ok_iff runA, (b.timestamp_agrees y).eq_ok_iff runB]
  exact group.occurs y v lower upper

theorem grid_full_groups : ∃ b filter dim,
    (prevectorize 1 1 4).commit Scop.grid.schedule = .ok (.ok (3, b)) ∧
    b.kind? 7 = some (.filter filter) ∧ dim < 2 ∧ ∀ v, 0 ≤ v → v < 4 →
      (Iteration.move ⟨0, [5, 6], []⟩ dim (Iteration.blockStart ⟨0, [5, 6], []⟩ dim 4 + v)).value
        (.var 1 2 0) = 4 + v ∧
      Scop.gridDomain.Mem (Iteration.move ⟨0, [5, 6], []⟩ dim
        (Iteration.blockStart ⟨0, [5, 6], []⟩ dim 4 + v)).point [] ∧
      ∀ y before after, (Scop.grid.schedule.timestamp y.stmt y.point y.params).run = .ok before →
        (b.timestamp y.stmt y.point y.params).run = .ok after →
        (after = .ok [5, 1, 0, v] ↔ filter.admits y = true ∧ before = .ok [5, 4 + v]) := by
  obtain ⟨⟨own, b⟩, h, facts⟩ : ∃ value : Nat × Arena,
      (prevectorize 1 1 4).commit Scop.grid.schedule = .ok (.ok value) ∧
      decide (value.1 = 3 ∧ value.2.children 3 = [4] ∧ value.2.isIsolation 4 = true ∧
        value.2.children 4 = [7, 10] ∧ (value.2.visits 0 [5, 6] []).run =
          .ok (.ok [⟨0, []⟩, ⟨1, [5]⟩, ⟨3, [1]⟩, ⟨4, [0]⟩, ⟨7, []⟩, ⟨6, [2]⟩, ⟨11, []⟩]) ∧
        value.2.kind? 11 = some .leaf) = true :=
    exists_ok_of_any (by decide +kernel)
  obtain ⟨rfl, below, isolated, branches, way, leaf⟩ := of_decide_eq_true facts
  have found : Scop.grid.schedule.domains?.bind (·.get? 0) = some Scop.gridDomain := by
    decide +kernel
  have old : (Scop.grid.schedule.timestamp 0 [5, 6] []).run = .ok (.ok [5, 6]) := by decide +kernel
  obtain ⟨filter, band, q, front, u, rest, dim, kind, here, expr, -, bound, split, new, group⟩ :=
    prevectorize_full_groups (x := ⟨0, [5, 6], []⟩) h (by decide +kernel) (by decide +kernel)
      (by decide +kernel) below isolated branches (by decide +kernel) found (by decide +kernel) old
      way (by simp) leaf
  obtain ⟨rfl, rfl, rfl⟩ : front = [5] ∧ u = 6 ∧ rest = [] := by
    rcases front with _ | ⟨_, _ | _⟩
    · obtain ⟨rfl, rfl⟩ := List.cons.inj (Except.ok.inj split).symm
      exact absurd new (by decide)
    · simpa [eq_comm] using split
    · simp at split
  have member : (Scop.grid.schedule.band? 1).bind (·.memberExpr? 0 1) = some (.var 1 2 0) := by
    decide +kernel
  rw [here, Option.bind_some, expr] at member
  cases member
  refine ⟨b, filter, dim, h, kind, bound, fun v lower upper => ?_⟩
  obtain ⟨moves, inDomain, -, occurs⟩ := group v lower upper
  exact ⟨moves (.affine _), inDomain, occurs⟩

end Edit

/-- The grid with the loops `i + j` and `j`. -/
def Scop.skewedGrid : Scop := .ofGrid fun domains =>
  ⟨#[⟨.domain domains, [1]⟩,
    ⟨.band (.ofSchedule [⟨true, true⟩] (.ofList [(0, [.affine ⟨0, [1, 1], []⟩])])), [2]⟩,
    ⟨.band (.ofSchedule [⟨true, true⟩] (.ofList [(0, [.affine ⟨0, [0, 1], []⟩])])), [3]⟩,
    ⟨.leaf, []⟩], 0⟩

/-- The outer loop sees the vector iterator move, so a full tile can have a group of one. -/
theorem Scop.skewedGrid_splits_group : skewedGrid.schedule.isWellFormed = true ∧
    skewedGrid.schedule.domains?.bind (·.get? 0) = some gridDomain ∧
    gridDomain.Mem [0, 0] [] ∧ ∃ b,
    (Edit.prevectorize 2 0 4).commit skewedGrid.schedule = .ok (.ok (2, b)) ∧
    b.children 2 = [4] ∧ b.isIsolation 4 = true ∧ b.children 4 = [7, 10] ∧
    (b.visits 0 [0, 0] []).run =
      .ok (.ok [⟨0, []⟩, ⟨1, [0]⟩, ⟨2, [0]⟩, ⟨4, [0]⟩, ⟨7, []⟩, ⟨6, [0]⟩, ⟨11, []⟩]) ∧
    b.kind? 11 = some .leaf ∧
    ∀ point, gridDomain.Mem point [] → (b.timestamp 0 point []).run ≠ .ok (.ok [0, 0, 0, 1]) := by
  obtain ⟨⟨own, b⟩, h, facts⟩ : ∃ value : Nat × Arena,
      (Edit.prevectorize 2 0 4).commit skewedGrid.schedule = .ok (.ok value) ∧
      decide (value.1 = 2 ∧ value.2.children 2 = [4] ∧ value.2.isIsolation 4 = true ∧
        value.2.children 4 = [7, 10] ∧ (value.2.visits 0 [0, 0] []).run =
          .ok (.ok [⟨0, []⟩, ⟨1, [0]⟩, ⟨2, [0]⟩, ⟨4, [0]⟩, ⟨7, []⟩, ⟨6, [0]⟩, ⟨11, []⟩]) ∧
        value.2.kind? 11 = some .leaf ∧ ∀ i j : Fin 8,
          (value.2.timestamp 0 [(i.val : Int), (j.val : Int)] []).run ≠
            .ok (.ok [0, 0, 0, 1])) = true :=
    exists_ok_of_any (by decide +kernel)
  obtain ⟨rfl, below, isolated, branches, way, leaf, missing⟩ := of_decide_eq_true facts
  refine ⟨by decide +kernel, by decide +kernel, by decide +kernel, b, h, below, isolated, branches,
    way, leaf, fun point mem => ?_⟩
  obtain ⟨i, j, rfl⟩ := exists_of_mem_gridDomain mem
  exact missing i j

end LoopNest
