import LoopNest.Proofs.Failures
import LoopNest.Proofs.Inherited
import LoopNest.Proofs.Overflow

/-! Where its preconditions are met, an edit fails by overflow only. What the caller does not rule
out is said as refusals: a tile size or a vector width that is not positive, and a band without
exactly one child that is to move down. -/

namespace LoopNest

/-- A size that a stage tiles by: that of a member, or that of all others. -/
def TilingStage.Gives (stage : TilingStage) (size : Int) : Prop :=
  size ∈ stage.sizes ∨ size = stage.default

def Band.tile (band : Band) (sizes : List Int) : Checked (Band × Band) := do
  let tiles ← band.tiles sizes
  let points ← band.points sizes
  return (tiles, points)

theorem Band.onlyOverflows_tile {band : Band} {sizes : List Int} (pos : ∀ size ∈ sizes, 1 ≤ size) :
    (band.tile sizes).OnlyOverflows := by
  simp [tile, onlyOverflows_tiles pos, onlyOverflows_points pos]

namespace Edit

variable {α β : Type} {faults : Fault → Prop} {refused : Refusal → Arena → Prop}
  {refusals : Refusal → Prop} {a b m : Arena} {above : List Frame}
  {id p arity : Nat} {band tiles points : Band} {child : Fin arity → Tree} {width : Int}

/-- Unless it succeeds, the edit overflows or is refused in one of the given ways. -/
abbrev Heeds (refusals : Refusal → Prop) (e : Edit α) (a : Arena) : Prop :=
  e.FailsOnly (· = .overflow) (fun refusal _ => refusals refusal) a

theorem failsOnly_lift_bind {computation : Checked α} {f : α → Edit β}
    (fails : ∀ fault, computation = .error fault → faults fault)
    (rest : ∀ r, computation = .ok r → (f r).FailsOnly faults refused a) :
    ((liftM computation : Edit α) >>= f).FailsOnly faults refused a := by
  refine failsOnly_bind.mpr ⟨failsOnly_lift.mpr fails, fun r m does => ?_⟩
  obtain ⟨computed, rfl⟩ := does_lift.mp does
  exact rest r computed

/-- An edit in two steps fails as a computation does, if its steps fail as those of the computation
do. -/
theorem failsOnly_follow {γ δ : Type} {e : Edit α} {f : α → Edit β} {first : Checked γ}
    {second : γ → Checked δ} (starts : e.FailsOnly (fun fault => first = .error fault) refused a)
    (rest : ∀ r b, e.Does a r b → ∃ s, first = .ok s ∧
      (f r).FailsOnly (fun fault => second s = .error fault) refused b) :
    (e >>= f).FailsOnly (fun fault => (first >>= second) = .error fault) refused a := by
  refine failsOnly_bind.mpr ⟨starts.imp fun _ fails => ?_, fun r b does => ?_⟩
  · exact Checked.bind_eq_error_iff.mpr (.inl fails)
  · obtain ⟨s, computed, follows⟩ := rest r b does
    exact follows.imp fun _ fails => Checked.bind_eq_error_iff.mpr (.inr ⟨s, computed, fails⟩)

theorem failsOnly_lift_follow {δ : Type} {first : Checked α} {f : α → Edit β}
    {second : α → Checked δ} (rest : ∀ r, first = .ok r →
      (f r).FailsOnly (fun fault => second r = .error fault) refused a) :
    ((liftM first : Edit α) >>= f).FailsOnly (fun fault => (first >>= second) = .error fault)
      refused a := by
  refine failsOnly_follow (failsOnly_lift.mpr fun _ => id) fun r b does => ?_
  obtain ⟨computed, rfl⟩ := does_lift.mp does
  exact ⟨r, computed, rest r computed⟩

theorem failsOnly_bandAt_bind {operation : Operation} {f : Band → Edit β}
    (own : a.band? id = some band) (rest : (f band).FailsOnly faults refused a) :
    (bandAt operation id >>= f).FailsOnly faults refused a := by
  refine failsOnly_bandAt (fun missing => ?_) (fun kind found other => ?_) fun band' own' => ?_
  · simp [Arena.band?, Arena.kind?, missing] at own
  · rw [Arena.band?, found] at own
    cases kind with
    | band _ => exact absurd rfl (other _)
    | _ => cases own
  · cases own.symm.trans own'
    exact rest

theorem FailsOnly.commit {e : Edit α}
    (only : e.FailsOnly faults (fun refusal _ => refusals refusal) a) :
    (∀ fault, e.commit a = .error fault → faults fault) ∧
      ∀ refusal, e.commit a = .ok (.error refusal) → refusals refusal := by
  obtain ⟨fails, refused⟩ := failsOnly_iff.mp only
  unfold Edit.commit
  rcases performed : e.perform a with fault | ⟨refusal | result, b⟩
  · constructor
    · rintro _ ⟨⟩
      exact fails fault performed
    · rintro _ ⟨⟩
  · constructor
    · rintro _ ⟨⟩
    · rintro _ ⟨⟩
      exact refused refusal b performed
  · constructor <;> rintro _ ⟨⟩

/-! ## Splitting, tiling, reordering -/

theorem heeds_bandSplit {count : Nat} (own : a.band? id = some band) (arities : band.HasArity)
    (pos : 0 < count) (lt : count < band.nMembers) : (bandSplit id count).Heeds refusals a := by
  refine failsOnly_bandAt_bind own ?_
  dsimp only
  rw [if_neg (by omega)]
  have upper : (band.select (List.range count)).OnlyOverflows :=
    Band.onlyOverflows_select arities fun p member => (List.mem_range.mp member).trans lt
  have lower : (band.select (List.range' count (band.nMembers - count))).OnlyOverflows := by
    refine Band.onlyOverflows_select arities fun p member => ?_
    have := List.mem_range'_1.mp member
    omega
  apply failsOnly_lift_bind upper
  intro _ _
  apply failsOnly_lift_bind lower
  simp [stackBands]

theorem failsOnly_bandTile {sizes : List Int} (own : a.band? id = some band)
    (length : sizes.length = band.nMembers) (pos : ∀ size ∈ sizes, 1 ≤ size)
    (fails : ∀ fault, band.tile sizes = .error fault → faults fault) :
    (bandTile id sizes).FailsOnly faults refused a := by
  refine failsOnly_bandAt_bind own ?_
  have large : sizes.find? (· < 1) = none := by
    refine List.find?_eq_none.mpr fun size member => ?_
    have := pos size member
    simpa using this
  simp only [length, ne_eq, not_true, if_false, large]
  refine failsOnly_lift_bind (fun fault noTiles => fails fault ?_) fun tiles isTiles => ?_
  · exact Checked.bind_eq_error_iff.mpr (.inl noTiles)
  · refine failsOnly_lift_bind (fun fault noPoints => fails fault ?_) (by simp [stackBands])
    exact Checked.bind_eq_error_iff.mpr
      (.inr ⟨tiles, isTiles, Checked.bind_eq_error_iff.mpr (.inl noPoints)⟩)

theorem heeds_bandTile {sizes : List Int} (own : a.band? id = some band)
    (length : sizes.length = band.nMembers) (pos : ∀ size ∈ sizes, 1 ≤ size) :
    (bandTile id sizes).Heeds refusals a :=
  failsOnly_bandTile own length pos (Band.onlyOverflows_tile pos)

theorem failsOnly_bandPermute {positions : List Nat} (own : a.band? id = some band)
    (permutation : isPermutation positions band.nMembers = true)
    (fails : ∀ fault, band.select positions = .error fault → faults fault) :
    (bandPermute id positions).FailsOnly faults refused a := by
  refine failsOnly_bandAt_bind own ?_
  rw [if_pos permutation]
  exact failsOnly_lift_bind fails (by simp)

/-! ## Tiling stages -/

/-- A band whose loops may be exchanged is tiled unless one of its sizes is too small. -/
theorem failsOnly_tileNode {label : String} {sizes : List Int} {default : Int}
    (own : a.band? id = some band) (permutable : band.isPermutable = true)
    (small : ∀ size ∈ sizesFor band.nMembers sizes default, size < 1 →
      refused ⟨.tileNode, .labelledTileSize label size⟩ a)
    (fails : (∀ size ∈ sizesFor band.nMembers sizes default, 1 ≤ size) →
      ∀ fault, band.tile (sizesFor band.nMembers sizes default) = .error fault → faults fault) :
    (tileNode label sizes default id).FailsOnly faults refused a := by
  rw [tileNode]
  apply failsOnly_get_bind.mpr
  simp only [own, permutable, Bool.true_eq_false, and_false, if_false]
  split
  · rename_i size found
    have tooSmall : size < 1 := by simpa using List.find?_some found
    simpa using small size (List.mem_of_find?_eq_some found) tooSmall
  · rename_i none
    have pos : ∀ size ∈ sizesFor band.nMembers sizes default, 1 ≤ size := fun size member => by
      simpa using List.find?_eq_none.mp none size member
    exact failsOnly_bind.mpr
      ⟨failsOnly_bandTile own (by simp [sizesFor]) pos (fails pos), by simp⟩

theorem heeds_tileNode {label : String} {sizes : List Int} {default : Int}
    (own : a.band? id = some band) (permutable : band.isPermutable = true)
    (small : ∀ size ∈ sizesFor band.nMembers sizes default, size < 1 →
      refusals ⟨.tileNode, .labelledTileSize label size⟩) :
    (tileNode label sizes default id).Heeds refusals a :=
  failsOnly_tileNode own permutable small Band.onlyOverflows_tile

theorem failsOnly_registerTiling {sizes : List Int} {default : Int} (own : a.band? id = some band)
    (permutable : band.isPermutable = true)
    (small : ∀ size ∈ sizesFor band.nMembers sizes default, size < 1 →
      refused ⟨.tileNode, .labelledTileSize registerTilingLabel size⟩ a)
    (fails : (∀ size ∈ sizesFor band.nMembers sizes default, 1 ≤ size) →
      ∀ fault, band.tile (sizesFor band.nMembers sizes default) = .error fault → faults fault) :
    (registerTiling sizes default id).FailsOnly faults refused a := by
  rw [registerTiling]
  exact failsOnly_bind.mpr ⟨failsOnly_tileNode own permutable small fails, by simp⟩

theorem heeds_registerTiling {sizes : List Int} {default : Int} (own : a.band? id = some band)
    (permutable : band.isPermutable = true)
    (small : ∀ size ∈ sizesFor band.nMembers sizes default, size < 1 →
      refusals ⟨.tileNode, .labelledTileSize registerTilingLabel size⟩) :
    (registerTiling sizes default id).Heeds refusals a :=
  failsOnly_registerTiling own permutable small Band.onlyOverflows_tile

theorem mem_sizesFor {members : Nat} {sizes : List Int} {default size : Int}
    (member : size ∈ sizesFor members sizes default) : size ∈ sizes ∨ size = default := by
  obtain ⟨d, -, rfl⟩ := List.mem_map.mp member
  cases given : sizes[d]? with
  | none => exact .inr rfl
  | some size => exact .inl (List.mem_of_getElem? given)

/-- The size that a stage refuses is one of its own. -/
theorem heeds_apply {stage : TilingStage} (own : a.band? id = some band)
    (permutable : band.isPermutable = true)
    (label : stage.register = true → stage.label = registerTilingLabel)
    (small : ∀ size, stage.Gives size → size < 1 →
      refusals ⟨.tileNode, .labelledTileSize stage.label size⟩) :
    (stage.apply id).Heeds refusals a := by
  have given : ∀ size ∈ sizesFor band.nMembers stage.sizes stage.default, size < 1 →
      refusals ⟨.tileNode, .labelledTileSize stage.label size⟩ :=
    fun size member => small size (mem_sizesFor member)
  unfold TilingStage.apply
  split
  · rename_i register
    rw [label register] at given
    exact heeds_registerTiling own permutable given
  · exact heeds_tileNode own permutable given

/-! ## Vector loops -/

/-- The full tiles of one loop can be kept apart wherever that loop is located. -/
theorem heeds_isolate (located : a.Locates above
      (.node id (.band tiles) 1 fun _ => .node p (.band points) arity child))
    (oneTile : tiles.nMembers = 1) (onePoint : points.nMembers = 1) (wide : 1 ≤ width) :
    (isolate id width).Heeds refusals a := by
  have way := located.pathTo?
  rw [Tree.top_node] at way
  rw [isolate]
  apply failsOnly_get_bind.mpr
  simp only [located.holds.band?_eq, Arena.children_eq located.holds.stored.1, List.ofFn_succ,
    List.ofFn_zero, Tree.top_node, (located.holds.child 0).band?_eq]
  rw [if_neg (by omega), if_neg (by omega)]
  split
  · simp only [way]
    apply failsOnly_lift_bind (Arena.onlyOverflows_fullTileGuard wide)
    intro guard? _
    split
    · exact failsOnly_pure
    · exact failsOnly_insertSequence (t := .node p (.band points) arity child)
        (located.holds.child 0)
  · exact failsOnly_pure

theorem failsOnly_forM_updateBand {faults : Fault → Prop} {refusals : Refusal → Arena → Prop}
    {f : Band → Band} {ids : List Nat} :
    (ids.forM fun id => updateBand id f).FailsOnly faults refusals a := by
  induction ids generalizing a with
  | nil => exact failsOnly_pure
  | cons id rest ih =>
    rw [List.forM_eq_forM, List.forM_cons]
    exact failsOnly_bind.mpr ⟨failsOnly_updateBand, fun _ _ _ => ih⟩

/-- A loop over points moves down if it has one child, and the next ones find it moved. -/
theorem heeds_sinkPoints {rest : List Nat}
    (located : a.Locates above (.node id (.band band) arity child))
    (count : arity ≠ 1 → refusals ⟨.bandSink, .childCount id arity⟩)
    (later : ∀ m t', a.Reworks m (.node id (.band band) arity child) t' →
      (sinkPoints rest).Heeds refusals m) : (sinkPoints (id :: rest)).Heeds refusals a := by
  rw [sinkPoints]
  refine failsOnly_bind.mpr ⟨failsOnly_bandSink located count, fun ids m sinks => ?_⟩
  refine failsOnly_bind.mpr ⟨failsOnly_forM_updateBand, fun _ m' marks => ?_⟩
  obtain ⟨c, t', -, reworked, -⟩ := sink_reworks located sinks marks
  exact later m' t' reworked

/-- The loops over points that are left once full tiles are kept apart have the children that the
loop over points had. -/
theorem heeds_strip {rs : List Nat} (located : a.Locates above
      (.node id (.band tiles) 1 fun _ => .node p (.band points) arity child))
    (count : arity ≠ 1 → ∀ position, refusals ⟨.bandSink, .childCount position arity⟩)
    (isolates : (isolate id width).Does a rs m) : (sinkPoints rs).Heeds refusals m := by
  obtain ⟨-, -, ⟨rfl, rfl⟩ | ⟨stmt, guard, -, inserts⟩⟩ := isolate_cases located isolates
  · refine heeds_sinkPoints (located.child 0) (fun several => count several p) ?_
    exact fun _ _ _ => failsOnly_pure
  · obtain ⟨i, j, copy, copy', rfl, same, same', -, inserted⟩ :=
      insertSequence_reworks (located.holds.child 0) inserts
    obtain ⟨top, band, child, rfl, -⟩ := same.alike.band
    obtain ⟨top', band', child', rfl, -⟩ := same'.alike.band
    have branch := (located.rework (.only located.holds inserted)).child 0
    refine heeds_sinkPoints ((branch.child 0).child 0) (fun several => count several top) ?_
    intro m' t' sunk
    have second := Arena.Reworks.left branch.holds (.only (branch.holds.child 0) sunk)
    refine heeds_sinkPoints (((branch.rework second).child 1).child 0)
      (fun several => count several top') ?_
    exact fun _ _ _ => failsOnly_pure

/-- A band of one loop becomes a vector loop if it has one child. -/
theorem heeds_vectorizeOnly (located : a.Locates above (.node id (.band band) arity child))
    (arities : band.HasArity) (single : band.nMembers = 1) (wide : 1 ≤ width)
    (count : arity ≠ 1 → ∀ position, refusals ⟨.bandSink, .childCount position arity⟩) :
    (do
      let _ ← bandTile id [width]
      let points ← isolate id width
      sinkPoints points
      pure id : Edit Nat).Heeds refusals a := by
  have tile : (bandTile id [width]).Heeds refusals a :=
    heeds_bandTile located.holds.band?_eq (by simp [single]) (by simpa using wide)
  refine failsOnly_bind.mpr ⟨tile, fun p m tiled => ?_⟩
  obtain ⟨tiles, points, isTiled, first⟩ := bandTile_reworks located.holds arities tiled
  have oneTile : tiles.nMembers = 1 := by rw [Band.nMembers, isTiled.tileMembers]; exact single
  have onePoint : points.nMembers = 1 := by rw [Band.nMembers, isTiled.pointMembers]; exact single
  have located' := located.rework first
  refine failsOnly_bind.mpr ⟨heeds_isolate located' oneTile onePoint wide, fun rs m' isolates => ?_⟩
  exact failsOnly_bind.mpr ⟨heeds_strip located' count isolates, by simp⟩

variable {member own : Nat}

theorem heeds_separateMember (located : a.Locates above (.node id (.band band) arity child))
    (arities : band.HasArity) (bound : member < band.nMembers) :
    (separateMember id member band.nMembers).Heeds refusals a := by
  unfold separateMember
  by_cases behind : 0 < member
  · have split : (bandSplit id member).Heeds refusals a :=
      heeds_bandSplit located.holds.band?_eq arities behind bound
    simp only [if_pos behind]
    refine failsOnly_bind.mpr ⟨split, fun position m does => ?_⟩
    obtain ⟨upper, lower, isSplit, first⟩ := bandSplit_reworks located.holds arities does
    have lowerMembers := isSplit.nMembers_lower
    split
    · have rest : (bandSplit position 1).Heeds refusals m :=
        heeds_bandSplit (first.holds.child 0).band?_eq (isSplit.hasArity arities).2 Nat.one_pos
          (by omega)
      exact failsOnly_bind.mpr ⟨rest, by simp⟩
    · exact failsOnly_pure
  · simp only [if_neg behind]
    refine failsOnly_bind.mpr ⟨failsOnly_pure, fun position m does => ?_⟩
    obtain ⟨rfl, rfl⟩ := does_pure.mp does
    split
    · have rest : (bandSplit id 1).Heeds refusals a :=
        heeds_bandSplit located.holds.band?_eq arities Nat.one_pos (by omega)
      exact failsOnly_bind.mpr ⟨rest, by simp⟩
    · exact failsOnly_pure

/-- Once its first member has a band of its own, that band has one child, or it is the whole band.
-/
theorem splitFirst_locates (located : a.Locates above (.node id (.band band) arity child))
    (arities : band.HasArity) (nonempty : 0 < band.nMembers)
    (splits : 1 < band.nMembers ∧ (∃ r, (bandSplit id 1).Does a r m) ∨ ¬1 < band.nMembers ∧ a = m) :
    ∃ single n below, m.Locates above (.node id (.band single) n below) ∧ single.HasArity ∧
      single.nMembers = 1 ∧ (n ≠ 1 → n = arity ∧ band.nMembers = 1) := by
  rcases splits with ⟨-, r, split⟩ | ⟨one, rfl⟩
  · obtain ⟨head, rest, isSplit, first⟩ := bandSplit_reworks located.holds arities split
    exact ⟨head, 1, _, located.rework first, (isSplit.hasArity arities).1, isSplit.nMembers_upper,
      fun several => absurd rfl several⟩
  · exact ⟨band, arity, child, located, arities, by omega, fun _ => ⟨rfl, by omega⟩⟩

/-- The band of a member that has been separated has one child, unless the member is the last. -/
theorem separateMember_locates (located : a.Locates above (.node id (.band band) arity child))
    (arities : band.HasArity) (bound : member < band.nMembers)
    (does : (separateMember id member band.nMembers).Does a own b) :
    ∃ frames single n below, b.Locates frames (.node own (.band single) n below) ∧
      single.HasArity ∧ single.nMembers = 1 ∧
      (n ≠ 1 → n = arity ∧ member + 1 = band.nMembers) := by
  obtain ⟨m, ⟨-, split⟩ | ⟨rfl, rfl, rfl⟩, rest⟩ := separateMember_cases does
  · obtain ⟨upper, lower, isSplit, first⟩ := bandSplit_reworks located.holds arities split
    have lowerMembers := isSplit.nMembers_lower
    obtain ⟨single, n, below, locatedSingle, aritiesSingle, one, last⟩ := splitFirst_locates
      ((located.rework first).child 0) (isSplit.hasArity arities).2 (by omega)
      (by simpa only [lowerMembers, Nat.lt_sub_iff_add_lt, Nat.add_comm 1] using rest)
    refine ⟨_, single, n, below, locatedSingle, aritiesSingle, one, fun several => ?_⟩
    obtain ⟨same, lowerOne⟩ := last several
    exact ⟨same, by omega⟩
  · obtain ⟨single, n, below, locatedSingle, aritiesSingle, one, last⟩ :=
      splitFirst_locates located arities bound (by simpa using rest)
    refine ⟨_, single, n, below, locatedSingle, aritiesSingle, one, fun several => ?_⟩
    obtain ⟨same, whole⟩ := last several
    exact ⟨same, by omega⟩

/-- A member of a band whose loops may be exchanged becomes a vector loop, unless the width is too
small, or the member is the last and the band does not have one child. -/
theorem heeds_prevectorize (located : a.Locates above (.node id (.band band) arity child))
    (arities : band.HasArity) (permutable : band.isPermutable = true)
    (bound : member < band.nMembers)
    (small : width < 1 → refusals ⟨.prevectorize, .vectorWidth width⟩)
    (count : member + 1 = band.nMembers → arity ≠ 1 → ∀ position,
      refusals ⟨.bandSink, .childCount position arity⟩) :
    (prevectorize id member width).Heeds refusals a := by
  rw [prevectorize]
  apply failsOnly_get_bind.mpr
  simp only [located.holds.band?_eq, permutable, Bool.true_eq_false, and_false, if_false]
  rw [if_neg (by omega)]
  split
  · rename_i narrow
    simpa using small narrow
  · rename_i wide
    refine failsOnly_bind.mpr ⟨heeds_separateMember located arities bound, fun own m does => ?_⟩
    obtain ⟨frames, single, n, below, locatedSingle, aritiesSingle, one, last⟩ :=
      separateMember_locates located arities bound does
    refine heeds_vectorizeOnly locatedSingle aritiesSingle one (by omega) ?_
    intro several position
    obtain ⟨rfl, isLast⟩ := last several
    exact count isLast several position

end Edit

end LoopNest
