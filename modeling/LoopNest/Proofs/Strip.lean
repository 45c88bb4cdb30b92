import LoopNest.Proofs.Sink

/-! The loop over the tiles of a vector loop stays where the loop was; the loop over the points of a
tile moves down to the leaves. Between them the full tiles may be kept apart from the partial ones
by a guard, which has been found from what lies above and below. -/

namespace LoopNest

def exprsAbove (above : List NodeKind) (stmt : Nat) : List Quasi :=
  above.flatMap (NodeKind.exprs stmt)

/-- The domains at the root, if the nodes above a tree start with them. -/
def domainsAbove : List NodeKind → StmtMap Polyhedron
  | .domain domains :: _ => domains
  | _ => .empty

theorem domainsAbove_append (above : List NodeKind) (band : Band) :
    domainsAbove (above ++ [.band band]) = domainsAbove above := by
  rcases above with _ | ⟨kind, above⟩
  · rfl
  · cases kind <;> rfl

/-- A guard tells the full tiles of a loop from the partial ones. One statement alone comes to the
loop, and the guard is that of the iterator that runs through the points of a tile. -/
structure Separates (domains : StmtMap Polyhedron) (above : List NodeKind) (tiles points : Band)
    (below : List Quasi) (width : Int) (stmt : Nat) (guard : Guard) : Prop where
  alone : ∀ s, domains.contains s = true → above.all (·.lets s) = true → s = stmt
  guarded : ∃ domain tile point whole e dim, domains.get? stmt = some domain ∧
    tiles.memberExpr? stmt 0 = some tile ∧ points.memberExpr? stmt 0 = some point ∧
    tile.scale width = .ok whole ∧ whole.add point = .ok e ∧
    e.blockDim? domain.nDim width = some dim ∧
    FullTile.guardOf domain e dim (exprsAbove (above ++ [.band tiles]) stmt) below width =
      .ok (some guard)

def TileFilter.ofGuard (kind : TileKind) (width : Int) (stmt : Nat) (guard : Guard) : TileFilter :=
  ⟨kind, width, .ofList [(stmt, some guard)]⟩

@[simp] theorem TileFilter.guard?_ofGuard (kind : TileKind) (width : Int) (stmt s : Nat)
    (guard : Guard) :
    (ofGuard kind width stmt guard).guard? s = if s = stmt then some guard else none := by
  by_cases same : s = stmt
  · simp [ofGuard, guard?, StmtMap.get?, StmtMap.ofList, StmtMap.insert, StmtMap.insertEntry,
      StmtMap.empty, same]
  · simp [ofGuard, guard?, StmtMap.get?, StmtMap.ofList, StmtMap.insert, StmtMap.insertEntry,
      StmtMap.empty, same, Ne.symm same]

namespace Tree

/-- What lies below the loop over tiles of a loop that had `c` below it: the tree with the loop over
points above its leaves, once or, kept apart, for the full and for the partial tiles. -/
inductive Stripped (domains : StmtMap Polyhedron) (above : List NodeKind) (tiles points : Band)
    (width : Int) (c : Tree) : Tree → Prop where
  | together {t : Tree} (sunken : c.Sunken points t) (branches : t.branches = c.branches) :
    Stripped domains above tiles points width c t
  | apart {id i j stmt : Nat} {guard : Guard} {full partly : Tree}
    (separates : Separates domains above tiles points (c.exprs stmt) width stmt guard)
    (fullTiles : c.Sunken points full) (partialTiles : c.Sunken points partly)
    (new : i ∉ c.ids) :
    Stripped domains above tiles points width c (.node id .sequence 2
      ![.node i (.filter (.tiles (.ofGuard .full width stmt guard))) 1 fun _ => full,
        .node j (.filter (.tiles (.ofGuard .partly width stmt guard))) 1 fun _ => partly])

/-- The tree starts with a band of one member, or with a band of which this is the first. -/
inductive Heads : Tree → Band → Tree → Prop where
  | whole {id : Nat} {band : Band} {c : Tree} (single : band.nMembers = 1) :
    Heads (.node id (.band band) 1 fun _ => c) band c
  | split {id position arity : Nat} {band head rest : Band} {child : Fin arity → Tree}
    (split : band.Split 1 head rest) :
    Heads (.node id (.band band) arity child) head (.node position (.band rest) arity child)

/-- A member of the band at the top has become a vector loop, with the loop over its tiles at `own`.
The members before it keep a band of their own. -/
inductive Vectorized (domains : StmtMap Polyhedron) (width : Int) (own : Nat) :
    Nat → List NodeKind → Tree → Tree → Prop where
  | first {above : List NodeKind} {t c t' : Tree} {head tiles points : Band}
    (here : t.top = own) (heads : Heads t head c) (tiled : head.Tiled [width] tiles points)
    (stripped : c.Stripped domains above tiles points width t') :
    Vectorized domains width own 0 above t (.node own (.band tiles) 1 fun _ => t')
  | later {member id arity : Nat} {above : List NodeKind} {band upper lower : Band}
    {child : Fin arity → Tree} {t' : Tree} (split : band.Split member upper lower)
    (rest : Vectorized domains width own 0 (above ++ [.band upper])
      (.node own (.band lower) arity child) t') :
    Vectorized domains width own member above (.node id (.band band) arity child)
      (.node id (.band upper) 1 fun _ => t')

end Tree

namespace Arena.Reworks

variable {a b : Arena} {id : Nat} {kind : NodeKind} {s t u : Tree}

theorem left (holds : a.Holds (.node id kind 2 ![s, t])) (rework : a.Reworks b s u) :
    a.Reworks b (.node id kind 2 ![s, t]) (.node id kind 2 ![u, t]) := by
  have whole := Reworks.child (i := 0) holds rework
  have same : Function.update ![s, t] 0 u = ![u, t] := by
    funext i
    revert i
    exact Fin.forall_fin_two.mpr ⟨rfl, rfl⟩
  rwa [same] at whole

theorem right (holds : a.Holds (.node id kind 2 ![s, t])) (rework : a.Reworks b t u) :
    a.Reworks b (.node id kind 2 ![s, t]) (.node id kind 2 ![s, u]) := by
  have whole := Reworks.child (i := 1) holds rework
  have same : Function.update ![s, t] 1 u = ![s, u] := by
    funext i
    revert i
    exact Fin.forall_fin_two.mpr ⟨rfl, rfl⟩
  rwa [same] at whole

end Arena.Reworks

namespace Edit

variable {a b : Arena} {above : List Frame} {id p arity : Nat} {tiles points : Band}
  {child : Fin arity → Tree} {width : Int} {rs : List Nat}

theorem fullTileGuard_eq_some {path : List Nat} {stmt : Nat} {guard : Guard}
    (h : a.fullTileGuard path p stmt width = .ok (some guard)) :
    ∃ domain tile point whole e dim, a.domains?.bind (·.get? stmt) = some domain ∧
      (path.getLast?.bind fun id => (a.band? id).bind (·.memberExpr? stmt 0)) = some tile ∧
      (a.band? p).bind (·.memberExpr? stmt 0) = some point ∧ tile.scale width = .ok whole ∧
      whole.add point = .ok e ∧ e.blockDim? domain.nDim width = some dim ∧
      FullTile.guardOf domain e dim (a.bandExprs path stmt)
        (a.bandExprs ((a.subtree p).drop 1) stmt) width = .ok (some guard) := by
  unfold Arena.fullTileGuard at h
  dsimp only at h
  split at h
  · rename_i domain tile point found foundTile foundPoint
    simp only [Checked.bind_eq_ok_iff] at h
    obtain ⟨whole, scaled, e, sum, h⟩ := h
    split at h
    · cases h
    · rename_i dim block
      exact ⟨domain, tile, point, whole, e, dim, found, foundTile, foundPoint, scaled, sum, block,
        h⟩
  · cases h

/-- The guard that is found for the only statement that comes to a loop. -/
theorem separates_of_fullTileGuard {path : List Nat} {stmt : Nat} {guard : Guard}
    (located : a.Locates above
      (.node id (.band tiles) 1 fun _ => .node p (.band points) arity child))
    (keys : (a.reaching id).keys = [stmt]) (way : a.pathTo? id = some path)
    (found : a.fullTileGuard path p stmt width = .ok (some guard)) :
    Separates (domainsAbove (above.map (·.2))) (above.map (·.2)) tiles points
      ((List.finRange arity).flatMap fun i => (child i).exprs stmt) width stmt guard := by
  obtain ⟨domains, isRoot⟩ : ∃ domains, a.domains? = some domains := by
    cases isRoot : a.domains? with
    | none => simp [Arena.reaching, isRoot, StmtMap.keys, StmtMap.empty] at keys
    | some domains => exact ⟨domains, rfl⟩
  obtain ⟨above, rfl⟩ := located.frames_eq isRoot
  have bandTiles := located.holds.band?_eq
  have bandPoints := (located.holds.child 0).band?_eq
  rw [List.map_cons]
  refine ⟨fun s inDomains lets => ?_, ?_⟩
  · have passes : (above.map (·.2) ++ [NodeKind.band tiles]).all (NodeKind.lets s) = true := by
      rw [List.all_cons, Bool.and_eq_true] at lets
      rw [List.all_append, lets.2]
      rfl
    have member : s ∈ (a.reaching id).keys := by
      rw [StmtMap.mem_keys_iff, located.reaching, StmtMap.contains, StmtMap.get?_filter,
        if_pos passes]
      simpa [StmtMap.keySet, StmtMap.contains, domainsAbove] using inDomains
    simpa [keys] using member
  · obtain ⟨domain, tile, point, whole, e, dim, foundDomain, foundTile, foundPoint, scaled, sum,
      block, guarded⟩ := fullTileGuard_eq_some found
    obtain rfl : _ = path := Option.some.inj (located.pathTo?.symm.trans way)
    have exprsUp := (located.child 0).bandExprs stmt
    rw [List.map_append] at exprsUp
    change a.bandExprs (_ ++ [id]) stmt = _ at exprsUp
    rw [Tree.top_node] at foundTile guarded
    rw [exprsUp, (located.holds.child 0).bandExprs_below] at guarded
    rw [List.getLast?_concat] at foundTile
    refine ⟨domain, tile, point, whole, e, dim, ?_, ?_, ?_, scaled, sum, block, ?_⟩
    · simpa [located.domains?, domainsAbove] using foundDomain
    · simpa [bandTiles] using foundTile
    · simpa [bandPoints] using foundPoint
    · simpa [exprsAbove, List.flatMap_map, NodeKind.exprs] using guarded

theorem isolate_cases (located : a.Locates above
      (.node id (.band tiles) 1 fun _ => .node p (.band points) arity child))
    (does : (isolate id width).Does a rs b) :
    tiles.nMembers = 1 ∧ 1 ≤ width ∧ (rs = [p] ∧ a = b ∨ ∃ stmt guard,
      Separates (domainsAbove (above.map (·.2))) (above.map (·.2)) tiles points
        ((List.finRange arity).flatMap fun i => (child i).exprs stmt) width stmt guard ∧
      (insertSequence p [.tiles (.ofGuard .full width stmt guard),
        .tiles (.ofGuard .partly width stmt guard)]).Does a rs b) := by
  simp only [isolate, does_bind, does_get] at does
  obtain ⟨_, _, ⟨rfl, rfl⟩, does⟩ := does
  simp only [located.holds.band?_eq, Arena.children_eq located.holds.stored.1, List.ofFn_succ,
    List.ofFn_zero, Tree.top_node, (located.holds.child 0).band?_eq] at does
  split at does
  · exact absurd does does_refuse
  · split at does
    · exact absurd does does_refuse
    · refine ⟨by omega, by omega, ?_⟩
      split at does
      · rename_i stmt keys
        have way := located.pathTo?
        rw [Tree.top_node] at way
        simp only [way, does_bind, does_lift] at does
        obtain ⟨guard?, _, ⟨found, rfl⟩, does⟩ := does
        cases guard? with
        | none =>
          obtain ⟨rfl, rfl⟩ := does_pure.mp does
          exact .inl ⟨rfl, rfl⟩
        | some guard =>
          exact .inr ⟨stmt, guard, separates_of_fullTileGuard located keys way found, does⟩
      · obtain ⟨rfl, rfl⟩ := does_pure.mp does
        exact .inl ⟨rfl, rfl⟩

/-- A copy of a loop over points, below a filter, moves down. -/
theorem sinkPoints_copy {above : List Frame} {i : Nat} {f : Filter} {copy : Tree} {rest : List Nat}
    {r : Unit} (renumbered : (Tree.node p (.band points) arity child).Renumbered copy)
    (located : a.Locates above (.node i (.filter f) 1 fun _ => copy))
    (does : (sinkPoints (copy.top :: rest)).Does a r b) :
    ∃ c t m, Tree.node p (.band points) arity child = .node p (.band points) 1 (fun _ => c) ∧
      a.Reworks m (.node i (.filter f) 1 fun _ => copy) (.node i (.filter f) 1 fun _ => t) ∧
      c.Sunken points t ∧ (sinkPoints rest).Does m r b := by
  cases renumbered with
  | @node _ id' _ _ _ child' children =>
    obtain ⟨c', t, m, shape, reworked, sunken, -, later⟩ := sinkPoints_cons (located.child 0) does
    injection shape with _ _ single same
    subst single
    refine ⟨child 0, t, m, ?_, .only located.holds reworked, .of_renumbered (children 0) ?_, later⟩
    · congr 1
      exact funext fun i => by rw [Fin.eq_zero i]
    · rw [eq_of_heq same]
      exact sunken

/-- Below the loop over tiles, full tiles are kept apart if that can be done, and the loop over
points moves down. -/
theorem strip_reworks {m : Arena} {r : Unit}
    (located : a.Locates above
      (.node id (.band tiles) 1 fun _ => .node p (.band points) arity child))
    (isolates : (isolate id width).Does a rs m) (sinks : (sinkPoints rs).Does m r b) :
    tiles.nMembers = 1 ∧ 1 ≤ width ∧ ∃ c t,
      Tree.node p (.band points) arity child = .node p (.band points) 1 (fun _ => c) ∧
      a.Reworks b (.node id (.band tiles) 1 fun _ => .node p (.band points) arity child)
        (.node id (.band tiles) 1 fun _ => t) ∧
      c.Stripped (domainsAbove (above.map (·.2))) (above.map (·.2)) tiles points width t := by
  obtain ⟨single, wide, ⟨rfl, rfl⟩ | ⟨stmt, guard, separates, inserts⟩⟩ :=
    isolate_cases located isolates
  · obtain ⟨c, t, m, shape, reworked, sunken, branches, rest⟩ := sinkPoints_cons (located.child 0)
      sinks
    obtain ⟨-, rfl⟩ := does_pure.mp rest
    exact ⟨single, wide, c, t, shape, .only located.holds reworked, .together sunken branches⟩
  · obtain ⟨i, j, copy, copy', rfl, first', second', new, inserted⟩ :=
      insertSequence_reworks (located.holds.child 0) inserts
    have first := Arena.Reworks.only located.holds inserted
    have branch := (located.rework first).child 0
    obtain ⟨c, full, m', shape, sunkFull, sunkenFull, sinks⟩ :=
      sinkPoints_copy first' (branch.child 0) sinks
    have second := Arena.Reworks.left branch.holds sunkFull
    obtain ⟨c', partly, m'', shape', sunkPartly, sunkenPartly, rest⟩ :=
      sinkPoints_copy second' ((branch.rework second).child 1) sinks
    have third := Arena.Reworks.right second.holds sunkPartly
    obtain ⟨-, rfl⟩ := does_pure.mp rest
    obtain rfl : c = c' := by
      have same := shape.symm.trans shape'
      injection same with _ _ _ same
      exact congrFun same 0
    refine ⟨single, wide, c, _, shape, first.trans (.only first.holds (second.trans third)),
      .apart ?_ sunkenFull sunkenPartly fun inside => ?_⟩
    · injection shape with _ _ arities same
      subst arities
      obtain rfl := eq_of_heq same
      simpa [List.finRange_succ] using separates
    · have holds := (shape ▸ located.holds.child 0).child 0
      exact Nat.not_lt_of_le new (holds.stored.lt_size inside)

variable {band : Band} {member own : Nat}

theorem splitRest_cases {rest : Prop} [Decidable rest]
    (does : (if rest then do
      let _ ← bandSplit id 1
      pure id else pure id : Edit Nat).Does a own b) :
    id = own ∧ (rest ∧ (∃ r, (bandSplit id 1).Does a r b) ∨ ¬rest ∧ a = b) := by
  split at does
  · rename_i more
    simp only [does_bind, does_pure] at does
    obtain ⟨r, m, split, rfl, rfl⟩ := does
    exact ⟨rfl, .inl ⟨more, r, split⟩⟩
  · rename_i last
    obtain ⟨rfl, rfl⟩ := does_pure.mp does
    exact ⟨rfl, .inr ⟨last, rfl⟩⟩

theorem separateMember_cases {members : Nat}
    (does : (separateMember id member members).Does a own b) :
    ∃ m, (0 < member ∧ (bandSplit id member).Does a own m ∨ member = 0 ∧ id = own ∧ a = m) ∧
      (member + 1 < members ∧ (∃ r, (bandSplit own 1).Does m r b) ∨
        ¬member + 1 < members ∧ m = b) := by
  unfold separateMember at does
  dsimp only at does
  split at does
  · rename_i behind
    simp only [does_bind] at does
    obtain ⟨position, m, split, does⟩ := does
    obtain ⟨rfl, rest⟩ := splitRest_cases does
    exact ⟨m, .inl ⟨behind, split⟩, rest⟩
  · rename_i front
    simp only [does_bind, does_pure] at does
    obtain ⟨_, m, ⟨rfl, rfl⟩, does⟩ := does
    obtain ⟨rfl, rest⟩ := splitRest_cases does
    exact ⟨a, .inr ⟨by omega, rfl, rfl⟩, rest⟩

/-- The first member of a band becomes a vector loop. -/
theorem vectorizeFirst_reworks {m m' m'' : Arena} {r : Unit}
    (located : a.Locates above (.node id (.band band) arity child))
    (arities : band.HasArity) (nonempty : 0 < band.nMembers)
    (splits : 1 < band.nMembers ∧ (∃ r, (bandSplit id 1).Does a r m) ∨ ¬1 < band.nMembers ∧ a = m)
    (tile : (bandTile id [width]).Does m p m') (isolates : (isolate id width).Does m' rs m'')
    (sinks : (sinkPoints rs).Does m'' r b) :
    ∃ t', a.Reworks b (.node id (.band band) arity child) t' ∧
      Tree.Vectorized (domainsAbove (above.map (·.2))) width id 0 (above.map (·.2))
        (.node id (.band band) arity child) t' := by
  rcases splits with ⟨-, position, split⟩ | ⟨single, rfl⟩
  · obtain ⟨head, rest, isSplit, first⟩ := bandSplit_reworks located.holds arities split
    obtain ⟨tiles, points, tiled, second⟩ :=
      bandTile_reworks first.holds (isSplit.hasArity arities).1 tile
    have both := first.trans second
    obtain ⟨-, -, c, t, shape, third, stripped⟩ := strip_reworks (located.rework both) isolates
      sinks
    injection shape with _ _ _ same
    obtain rfl : _ = c := congrFun same 0
    exact ⟨_, both.trans third, .first rfl (.split isSplit) tiled stripped⟩
  · obtain ⟨tiles, points, tiled, first⟩ := bandTile_reworks located.holds arities tile
    obtain ⟨-, -, c, t, shape, second, stripped⟩ := strip_reworks (located.rework first) isolates
      sinks
    injection shape with _ _ one same
    subst one
    obtain rfl := eq_of_heq same
    exact ⟨_, first.trans second, .first rfl (.whole (by omega)) tiled stripped⟩

theorem prevectorize_cases {r : Nat} (own : a.band? id = some band)
    (does : (prevectorize id member width).Does a r b) :
    member < band.nMembers ∧ 1 ≤ width ∧ ∃ m p m' rs m'' r',
      (separateMember id member band.nMembers).Does a r m ∧ (bandTile r [width]).Does m p m' ∧
      (isolate r width).Does m' rs m'' ∧ (sinkPoints rs).Does m'' r' b := by
  simp only [prevectorize, does_bind, does_get] at does
  obtain ⟨_, _, ⟨rfl, rfl⟩, does⟩ := does
  simp only [own] at does
  split at does
  · exact absurd does does_refuse
  · split at does
    · exact absurd does does_refuse
    · split at does
      · exact absurd does does_refuse
      · simp only [does_bind, does_pure] at does
        obtain ⟨tiles, m, separate, p, m', tile, rs, m'', isolates, r', _, sinks, rfl, rfl⟩ := does
        exact ⟨by omega, by omega, m, p, m', rs, m'', r', separate, tile, isolates, sinks⟩

/-- A member becomes a vector loop. -/
theorem prevectorize_reworks
    (located : a.Locates above (.node id (.band band) arity child))
    (arities : band.HasArity) (does : (prevectorize id member width).Does a own b) :
    member < band.nMembers ∧ 1 ≤ width ∧ ∃ t', a.Reworks b (.node id (.band band) arity child) t' ∧
      Tree.Vectorized (domainsAbove (above.map (·.2))) width own member (above.map (·.2))
        (.node id (.band band) arity child) t' := by
  obtain ⟨bound, wide, m, p, m', rs, m'', r', separate, tile, isolates, sinks⟩ :=
    prevectorize_cases located.holds.band?_eq does
  refine ⟨bound, wide, ?_⟩
  obtain ⟨m₀, ⟨behind, split⟩ | ⟨rfl, rfl, rfl⟩, rest⟩ := separateMember_cases separate
  · obtain ⟨upper, lower, isSplit, first⟩ := bandSplit_reworks located.holds arities split
    have lowerMembers := isSplit.nMembers_lower
    obtain ⟨t', second, vectorized⟩ := vectorizeFirst_reworks ((located.rework first).child 0)
      (isSplit.hasArity arities).2 (by omega)
      (by simpa only [lowerMembers, Nat.lt_sub_iff_add_lt, Nat.add_comm 1] using rest)
      tile isolates sinks
    rw [List.map_append, List.map_singleton, domainsAbove_append] at vectorized
    exact ⟨_, first.trans (.only first.holds second), .later isSplit vectorized⟩
  · exact vectorizeFirst_reworks located arities (by omega) (by simpa using rest) tile isolates
      sinks

end Edit

end LoopNest
