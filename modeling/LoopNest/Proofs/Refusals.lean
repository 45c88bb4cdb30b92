import LoopNest.Proofs.Decisions
import LoopNest.Proofs.Detection
import LoopNest.Proofs.Kernels
import LoopNest.Proofs.Preconditions

/-! The optimizer meets the preconditions of the edits that it makes, whatever it has rewritten
before. It is refused only if it is given a tile size or a vector width that is not positive, or if
the last loop of a band that does not have exactly one child is to become a vector loop. Of faults
there remains overflow. -/

namespace LoopNest

/-! ## Matrix multiplications -/

/-- The loops over tiles, over tiles of their points, and over the points of these, for members in
the given order. -/
def Band.stack (band : Band) (positions : List Nat) (sizes sizes' : List Int) :
    Checked (Band × Band × Band) := do
  let permuted ← band.select positions
  let outer ← permuted.tile sizes
  let inner ← outer.2.tile sizes'
  return (outer.1, inner)

/-- The loops of a matrix multiplication that is blocked for a target. -/
def Band.block (band : Band) (target : Target) (shape : MatMulShape) :
    Checked (Band × Band × Band) := do
  let micro ← MicroKernel.forTarget target
  let blocks ← MacroKernel.forTarget target micro
  band.stack shape.permutation [blocks.kc, blocks.mc, blocks.nc] [1, micro.mr, micro.nr]

theorem Band.tile_eq_error_iff {band : Band} {sizes : List Int} {fault : Fault} :
    band.tile sizes = .error fault ↔
      band.schedule.traverse (zipSizes Quasi.floorDiv · sizes) = .error fault ∨
      (∃ tiles, band.schedule.traverse (zipSizes Quasi.floorDiv · sizes) = .ok tiles) ∧
        band.schedule.traverse (zipSizes Quasi.modulo · sizes) = .error fault := by
  simp [tile, tiles, points, Checked.bind_eq_error_iff, pure, Except.pure]

theorem Band.onlyOverflows_stack {band : Band} {positions : List Nat} {sizes sizes' : List Int}
    (arities : band.HasArity) (bound : ∀ p ∈ positions, p < band.nMembers)
    (pos : ∀ size ∈ sizes, 1 ≤ size) (pos' : ∀ size ∈ sizes', 1 ≤ size) :
    (band.stack positions sizes sizes').OnlyOverflows := by
  simp [stack, onlyOverflows_select arities bound, onlyOverflows_tile pos, onlyOverflows_tile pos']

namespace Edit

variable {refusals : Refusal → Prop} {a : Arena} {above : List Frame} {id arity : Nat} {band : Band}
  {child : Fin arity → Tree}

section Kernels

variable {target : Target} {micro : MicroKernel} {blocks : MacroKernel}

theorem onlyOverflows_microKernel : (MicroKernel.forTarget target).OnlyOverflows :=
  (Checked.ensures_iff.mp MicroKernel.ensures_forTarget).1

theorem microKernel_pos (isMicro : MicroKernel.forTarget target = .ok micro) :
    1 ≤ micro.mr ∧ 1 ≤ micro.nr := by
  have covers := (Checked.ensures_iff.mp MicroKernel.ensures_forTarget).2 micro isMicro
  exact ⟨covers.row, covers.column⟩

theorem onlyOverflows_macroKernel (isMicro : MicroKernel.forTarget target = .ok micro) :
    (MacroKernel.forTarget target micro).OnlyOverflows := by
  obtain ⟨rows, columns⟩ := microKernel_pos isMicro
  exact (Checked.ensures_iff.mp (MacroKernel.ensures_forTarget rows columns)).1

/-- The blocks that are chosen for a target are not empty. -/
theorem macroKernel_pos (isMicro : MicroKernel.forTarget target = .ok micro)
    (isMacro : MacroKernel.forTarget target micro = .ok blocks) :
    1 ≤ blocks.kc ∧ 1 ≤ blocks.mc ∧ 1 ≤ blocks.nc := by
  obtain ⟨rows, columns⟩ := microKernel_pos isMicro
  have ensures : (MacroKernel.forTarget target micro).Ensures (· = MacroKernel.exact target micro) :=
    MacroKernel.ensures_forTarget rows columns
  rw [(Checked.ensures_iff.mp ensures).2 blocks isMacro]
  exact MacroKernel.exact_pos target rows columns

theorem onlyOverflows_block {shape : MatMulShape} (arities : band.HasArity)
    (bound : ∀ p ∈ shape.permutation, p < band.nMembers) :
    (band.block target shape).OnlyOverflows := by
  refine Checked.onlyOverflows_bind.mpr ⟨onlyOverflows_microKernel, fun micro isMicro =>
    Checked.onlyOverflows_bind.mpr ⟨onlyOverflows_macroKernel isMicro, fun blocks isMacro => ?_⟩⟩
  obtain ⟨rows, columns⟩ := microKernel_pos isMicro
  obtain ⟨posDepth, posRows, posColumns⟩ := macroKernel_pos isMicro isMacro
  apply Band.onlyOverflows_stack arities bound <;> simp [*]

end Kernels

theorem sizesFor_of_length {sizes : List Int} {count : Nat} (default : Int)
    (length : sizes.length = count) : sizesFor count sizes default = sizes := by
  subst length
  apply List.ext_getElem
  · simp [sizesFor]
  · intro i _ bound
    simp [sizesFor, bound]

/-- The band of points that a tiling leaves, which has been marked. -/
theorem tileNode_points {label : String} {sizes : List Int} {default : Int} {p : Nat} {b : Arena}
    (holds : a.Holds (.node id (.band band) arity child))
    (does : (tileNode label sizes default id).Does a p b) :
    ∃ tiles points lower,
      band.tile (sizesFor band.nMembers sizes default) = .ok (tiles, points) ∧
      lower.members = band.members ∧ lower.schedule = points.schedule ∧
      b.band? p = some lower := by
  obtain ⟨tiles, points, isTiles, isPoints, reworks⟩ := tileNode_computes holds does
  have own := (reworks.holds.child 0).band?_eq
  refine ⟨tiles, points, _, ?_, ?_, ?_, own⟩
  · exact Checked.bind_eq_ok_iff.mpr
      ⟨tiles, isTiles, Checked.bind_eq_ok_iff.mpr ⟨points, isPoints, rfl⟩⟩
  · obtain ⟨_, -, computed⟩ := Checked.bind_eq_ok_iff.mp isPoints
    cases computed
    rfl
  · rfl

/-- Members are put in order, tiled, and their points tiled again, if the loops can be computed. -/
theorem failsOnly_stack {positions : List Nat} {label : String} {sizes sizes' : List Int}
    {refused : Refusal → Arena → Prop} (holds : a.Holds (.node id (.band band) arity child))
    (permutable : band.isPermutable = true)
    (permutation : isPermutation positions band.nMembers = true)
    (length : sizes.length = band.nMembers) (length' : sizes'.length = band.nMembers)
    (pos : ∀ size ∈ sizes, 1 ≤ size) (pos' : ∀ size ∈ sizes', 1 ≤ size) :
    (do
      bandPermute id positions
      let points ← tileNode label sizes 1 id
      registerTiling sizes' 1 points : Edit Nat).FailsOnly
        (fun fault => band.stack positions sizes sizes' = .error fault) refused a := by
  have large : ∀ {sizes : List Int}, (∀ size ∈ sizes, 1 ≤ size) → ∀ {cause : Int → Refusal} {m},
      ∀ size ∈ sizes, size < 1 → refused (cause size) m := fun pos _ _ size member small =>
    absurd (pos size member) (by omega)
  refine failsOnly_follow (failsOnly_bandPermute holds.band?_eq permutation fun _ fails => fails)
    fun _ m permutes => ?_
  obtain ⟨permuted, -, selected, first⟩ := bandPermute_computes holds permutes
  have isPermuted := Band.permuted_of_select permutation selected
  have count : permuted.nMembers = band.nMembers := isPermuted.nMembers_eq
  have permutable' : permuted.isPermutable = true := isPermuted.isPermutable permutable
  have given : sizesFor permuted.nMembers sizes 1 = sizes :=
    sizesFor_of_length 1 (length.trans count.symm)
  refine ⟨permuted, selected, failsOnly_follow (failsOnly_tileNode first.holds.band?_eq permutable'
    (by rw [given]; exact large pos) (by simp [given])) fun p m' tile => ?_⟩
  obtain ⟨tiles, points, lower, isTiled, members, schedule, own⟩ :=
    tileNode_points first.holds tile
  rw [given] at isTiled
  have given' : sizesFor lower.nMembers sizes' 1 = sizes' := by
    apply sizesFor_of_length
    rw [length', ← count, Band.nMembers, Band.nMembers, members]
  refine ⟨(tiles, points), isTiled, failsOnly_registerTiling own ?_ ?_ ?_⟩
  · simpa only [Band.isPermutable, members] using permutable'
  · rw [given']
    exact large pos'
  · intro _ fault fails
    rw [given', Band.tile_eq_error_iff, schedule, ← Band.tile_eq_error_iff] at fails
    exact Checked.bind_eq_error_iff.mpr (.inl fails)

/-- What has been found to be a matrix multiplication can be blocked, if the blocked loops can be
computed. -/
theorem failsOnly_blockMatMul {scop : Scop} {shape : MatMulShape}
    {refused : Refusal → Arena → Prop} (target : Option Target)
    (located : a.Locates above (.node id (.band band) arity child)) (arities : band.HasArity)
    (permutable : band.isPermutable = true) (found : a.matMulShape? scop id = .ok (some shape)) :
    (blockMatMul scop target id).FailsOnly
      (fun fault => band.block (target.getD .generic) shape = .error fault) refused a := by
  have own := located.holds.band?_eq
  obtain ⟨_, same, facts⟩ := Arena.exists_matMulShape? scop own arities
  cases found.symm.trans same
  obtain ⟨three, isOrder⟩ := facts shape rfl
  rw [blockMatMul]
  apply failsOnly_get_bind.mpr
  apply failsOnly_lift_bind (by simp [found])
  intro _ again
  cases found.symm.trans again
  simp only [own, Option.any_some, permutable, Bool.true_eq_false, if_false]
  apply failsOnly_lift_follow
  intro micro isMicro
  apply failsOnly_lift_follow
  intro blocks isMacro
  obtain ⟨rows, columns⟩ := microKernel_pos isMicro
  obtain ⟨posDepth, posRows, posColumns⟩ := macroKernel_pos isMicro isMacro
  exact failsOnly_stack located.holds permutable (three ▸ isOrder) three.symm three.symm
    (by simp [*]) (by simp [*])

theorem heeds_blockMatMul {scop : Scop} {shape : MatMulShape} (target : Option Target)
    (located : a.Locates above (.node id (.band band) arity child)) (arities : band.HasArity)
    (permutable : band.isPermutable = true) (found : a.matMulShape? scop id = .ok (some shape)) :
    (blockMatMul scop target id).Heeds refusals a := by
  obtain ⟨_, same, facts⟩ := Arena.exists_matMulShape? scop located.holds.band?_eq arities
  cases found.symm.trans same
  obtain ⟨three, isOrder⟩ := facts shape rfl
  apply (failsOnly_blockMatMul target located arities permutable found).imp
  apply onlyOverflows_block arities
  simp only [isPermutation, Bool.and_eq_true, List.all_eq_true, decide_eq_true_eq] at isOrder
  rw [three]
  exact isOrder.1.2

end Edit

/-! ## The optimizer -/

theorem Arena.Locates.mem_bands {a : Arena} {above : List Frame} {id arity : Nat} {band : Band}
    {child : Fin arity → Tree} (located : a.Locates above (.node id (.band band) arity child)) :
    id ∈ a.bands := by
  have own := located.holds.band?_eq
  obtain ⟨whole, root, holds, under⟩ := located
  exact (Arena.mem_bands holds root).mpr ⟨under.mem_ids (by simp [Tree.ids]), by simp [own]⟩

namespace Optimizer

/-- What the optimizer of an arena may be refused: to tile by a size that is not positive, to make
vector loops of a width that is not positive, and to move down the last loop of a band that does not
have exactly one child. -/
inductive Refuses (o : Optimizer) (a : Arena) : Refusal → Prop where
  | tileSize {stage : TilingStage} {size : Int} (enabled : stage ∈ o.config.stages)
    (given : stage.Gives size) (small : size < 1) :
    Refuses o a ⟨.tileNode, .labelledTileSize stage.label size⟩
  | vectorWidth (enabled : o.config.enableVectorization = true) (small : o.vectorWidth < 1) :
    Refuses o a ⟨.prevectorize, .vectorWidth o.vectorWidth⟩
  | childCount {id position member : Nat} {band : Band} (inside : id ∈ a.bands)
    (own : a.band? id = some band) (tileable : a.isTileable id = true)
    (enabled : o.config.enableVectorization = true)
    (chosen : innermostCoincident? band = some member) (last : member + 1 = band.nMembers)
    (several : (a.children id).length ≠ 1) :
    Refuses o a ⟨.bandSink, .childCount position (a.children id).length⟩

theorem Refuses.toClass {o : Optimizer} {a : Arena} {refusal : Refusal} (h : o.Refuses a refusal) :
    refusal.cause.toClass = .invalidTileSize ∨
      refusal.operation = .bandSink ∧ refusal.cause.toClass = .invalidNode := by
  cases h with
  | tileSize => exact .inl rfl
  | vectorWidth => exact .inl rfl
  | childCount => exact .inr ⟨rfl, rfl⟩

variable {o : Optimizer} {refusals : Refusal → Prop} {origin a b m : Arena} {above : List Frame}
  {id arity : Nat} {band : Band} {child after : Fin arity → Tree}

theorem lt_of_innermost {member : Nat} (h : innermostCoincident? band = some member) :
    member < band.nMembers := by
  obtain ⟨⟨own, position⟩, first, rfl⟩ := Option.map_eq_some_iff.mp h
  have inside := List.mem_zipIdx_iff_getElem?.mp (List.mem_reverse.mp
    (List.mem_of_find?_eq_some first))
  exact (List.getElem?_eq_some_iff.mp inside).1

theorem innermostCoincident?_congr {band' : Band} (members : band'.members = band.members) :
    innermostCoincident? band' = innermostCoincident? band := by
  rw [innermostCoincident?, innermostCoincident?, members]

theorem label_of_register {config : Config} :
    ∀ stage ∈ config.stages, stage.register = true → stage.label = registerTilingLabel := by
  intro stage member register
  simp only [Config.stages, List.mem_append] at member
  rcases member with (inside | inside) | inside <;> split at inside <;>
    simp only [List.mem_singleton, List.not_mem_nil] at inside
  · subst inside
    cases register
  · subst inside
    cases register
  · subst inside
    rfl

theorem heeds_applyStages {stages : List TilingStage}
    (located : a.Locates above (.node id (.band band) arity child)) (arities : band.HasArity)
    (permutable : band.isPermutable = true)
    (labels : ∀ stage ∈ stages, stage.register = true → stage.label = registerTilingLabel)
    (small : ∀ stage ∈ stages, ∀ size, stage.Gives size → size < 1 →
      refusals ⟨.tileNode, .labelledTileSize stage.label size⟩) :
    (applyStages stages id).Heeds refusals a := by
  induction stages generalizing a above id band with
  | nil => exact Edit.failsOnly_pure
  | cons stage rest ih =>
    rw [List.forall_mem_cons] at labels small
    rw [applyStages]
    have here : (stage.apply id).Heeds refusals a :=
      Edit.heeds_apply located.holds.band?_eq permutable labels.1 small.1
    refine Edit.failsOnly_bind.mpr ⟨here, fun p m applied => ?_⟩
    obtain ⟨sizes, tiles, points, tiled, first⟩ := Edit.apply_tiles located.holds arities applied
    have permutable' : points.isPermutable = true := by
      simpa only [Band.isPermutable, tiled.pointMembers] using permutable
    exact ih ((located.rework first).child 0) (tiled.hasArity arities).2 permutable' labels.2
      small.2

/-- The points of the last stage have the loops of the band, and its children. -/
theorem heeds_standardBand (located : a.Locates above (.node id (.band band) arity child))
    (bands : (Tree.node id (.band band) arity child).EveryBand Band.HasArity)
    (permutable : band.isPermutable = true)
    (sizes : ∀ stage ∈ o.config.stages, ∀ size, stage.Gives size → size < 1 →
      refusals ⟨.tileNode, .labelledTileSize stage.label size⟩)
    (width : o.config.enableVectorization = true → o.vectorWidth < 1 →
      refusals ⟨.prevectorize, .vectorWidth o.vectorWidth⟩)
    (count : o.config.enableVectorization = true → ∀ member,
      innermostCoincident? band = some member → member + 1 = band.nMembers → arity ≠ 1 →
      ∀ position, refusals ⟨.bandSink, .childCount position arity⟩) :
    (o.standardBand id).Heeds refusals a := by
  have arities := (Tree.everyBand_band.mp bands).1
  rw [standardBand]
  refine Edit.failsOnly_bind.mpr
    ⟨heeds_applyStages located arities permutable label_of_register sizes, ?_⟩
  intro points m stages
  obtain ⟨frames, last, locatedLast, bandsLast, members, -⟩ :=
    applyStages_inherits Band.HasArity.inherited located bands stages
  have permutableLast : last.isPermutable = true := by
    simpa only [Band.isPermutable, members] using permutable
  apply Edit.failsOnly_get_bind.mpr
  by_cases enabled : o.config.enableVectorization = true
  · simp only [enabled, if_true, locatedLast.holds.band?_eq, Option.bind_some]
    cases chosen : innermostCoincident? last with
    | none => exact Edit.failsOnly_pure
    | some member =>
      have same : innermostCoincident? band = some member :=
        (innermostCoincident?_congr members).symm.trans chosen
      have vectorize : (Edit.prevectorize points member o.vectorWidth).Heeds refusals m := by
        refine Edit.heeds_prevectorize locatedLast (Tree.everyBand_band.mp bandsLast).1
          permutableLast (lt_of_innermost chosen) (width enabled) ?_
        intro isLast
        rw [Band.nMembers, members] at isLast
        exact count enabled member same isLast
      exact Edit.failsOnly_bind.mpr ⟨vectorize, by simp⟩
  · simp only [enabled]
    exact Edit.failsOnly_pure

theorem heeds_matMulAction {shape : MatMulShape}
    (located : a.Locates above (.node id (.band band) arity child)) (arities : band.HasArity)
    (permutable : band.isPermutable = true)
    (found : a.matMulShape? o.scop id = .ok (some shape)) :
    (do
      let micro ← MicroKernel.forTarget (o.target.getD .generic)
      let blocks ← MacroKernel.forTarget (o.target.getD .generic) micro
      let _ ← Edit.blockMatMul o.scop o.target id
      pure (Action.matMul shape micro blocks) : Edit Action).Heeds refusals a := by
  apply Edit.failsOnly_lift_bind Edit.onlyOverflows_microKernel
  intro micro isMicro
  apply Edit.failsOnly_lift_bind (Edit.onlyOverflows_macroKernel isMicro)
  intro blocks _
  have blocked : (Edit.blockMatMul o.scop o.target id).Heeds refusals a :=
    Edit.heeds_blockMatMul o.target located arities permutable found
  exact Edit.failsOnly_bind.mpr ⟨blocked, by simp⟩

theorem heeds_bandAction (located : a.Locates above (.node id (.band band) arity child))
    (arities : band.HasArity)
    (standard : a.isTileable id = true → (o.standardBand id).Heeds refusals a) :
    (o.bandAction id).Heeds refusals a := by
  rw [bandAction]
  apply Edit.failsOnly_get_bind.mpr
  by_cases tileable : a.isTileable id = true
  · have permutable := (innermost_of_isTileable located.holds tileable).1
    have other : (if (a.band? id).all (·.nMembers ≤ 1) then pure .singleMember
        else o.standardBand id : Edit Action).Heeds refusals a := by
      split
      · exact Edit.failsOnly_pure
      · exact standard tileable
    simp only [tileable, Bool.not_true, Bool.false_eq_true, if_false]
    split
    · obtain ⟨shape?, found, -⟩ :=
        Arena.exists_matMulShape? o.scop located.holds.band?_eq arities
      apply Edit.failsOnly_lift_bind (by simp [found])
      intro _ again
      cases found.symm.trans again
      cases shape? with
      | some shape => exact heeds_matMulAction located arities permutable found
      | none => exact other
    · refine Edit.failsOnly_bind.mpr ⟨Edit.failsOnly_pure, fun _ _ does => ?_⟩
      obtain ⟨rfl, rfl⟩ := Edit.does_pure.mp does
      exact other
  · simp only [tileable, Bool.not_false, if_true]
    exact Edit.failsOnly_pure

/-- A band is refused for what it was at the start. -/
theorem bandDecision_refuses (original : origin.Locates above (.node id (.band band) arity child))
    (located : a.Locates above (.node id (.band band) arity after))
    (bandless : ∀ i, (after i).Bandless ↔ (child i).Bandless)
    (bands : (Tree.node id (.band band) arity after).EveryBand Band.HasArity) :
    (o.bandDecision id band).Heeds (o.Refuses origin) a := by
  have arities := (Tree.everyBand_band.mp bands).1
  have acts : (o.bandAction id).Heeds (o.Refuses origin) a := by
    refine heeds_bandAction located arities fun tileable => ?_
    have permutable := (innermost_of_isTileable located.holds tileable).1
    rw [isTileable_eq original.holds located.holds bandless] at tileable
    refine heeds_standardBand located bands permutable ?_ .vectorWidth ?_
    · intro stage enabled size given small
      exact .tileSize enabled given small
    · intro enabled member chosen last several position
      have children : (origin.children id).length = arity := by
        simp [Arena.children_eq original.holds.stored.1]
      rw [← children] at several ⊢
      exact .childCount original.mem_bands original.holds.band?_eq tileable enabled chosen last
        several
  rw [bandDecision]
  apply Edit.failsOnly_get_bind.mpr
  exact Edit.failsOnly_bind.mpr ⟨acts, by simp⟩

/-- By the time that a child is optimized, those before it may have been rewritten; it has not. -/
theorem optimizeLevels_refuses {levels : Nat} {t : Tree} (original : origin.Locates above t)
    (located : a.Locates above t) (bands : t.EveryBand Band.HasArity)
    (enough : t.ids.length ≤ levels) :
    (o.optimizeLevels levels t.top).Heeds (o.Refuses origin) a := by
  induction levels generalizing a above t with
  | zero => exact Edit.failsOnly_pure
  | succ levels ih =>
    cases t with
    | missing => exact located.holds.stored.elim
    | node id kind arity child =>
      have fits : ∀ i, (child i).ids.length ≤ levels := by
        intro i
        have := @Tree.length_ids_child id _ kind child i
        omega
      have survey : ∀ i a b ds, a.Locates (above ++ [(id, kind)]) (child i) →
          (o.optimizeLevels levels (child i).top).Does a ds b →
          ∃ c, a.Reworks b (child i) c ∧ Surveys Band.HasArity origin (child i) c ds :=
        fun i a b ds located does => optimizeLevels_surveys Band.HasArity.inherited
          (original.child i) located (bands.2 i) (fits i) does
      rw [optimizeLevels, Tree.top_node]
      apply Edit.failsOnly_get_bind.mpr
      refine Edit.failsOnly_bind.mpr ⟨?_, fun rs m mapped => ?_⟩
      · rw [Arena.children_eq located.holds.stored.1, List.ofFn_eq_map]
        refine Edit.failsOnly_mapM fun before i rest split rs m steps => ?_
        have distinct : (before ++ i :: rest).Nodup := split ▸ List.nodup_finRange arity
        obtain ⟨after, reworks, -, others⟩ := steps.rework survey located
          (List.nodup_append.mp distinct).1 fun _ _ => rfl
        have untouched : after i = child i := by
          apply others
          intro member
          exact (List.nodup_append.mp distinct).2.2 i member i List.mem_cons_self rfl
        have located' := (located.rework reworks).child i
        rw [untouched] at located'
        exact ih (original.child i) located' (bands.2 i) (fits i)
      · obtain ⟨after, below, first, surveyed, -⟩ := children_reworks survey located mapped
        apply Edit.failsOnly_get_bind.mpr
        by_cases isBand : ∃ band, kind = .band band
        · obtain ⟨band, rfl⟩ := isBand
          simp only [first.holds.band?_eq]
          have decides : (o.bandDecision id band).Heeds (o.Refuses origin) m :=
            bandDecision_refuses original (located.rework first) (fun i => (surveyed i).bandless)
              (Tree.everyBand_band.mpr ⟨bands.1 band rfl, fun i => (surveyed i).bands⟩)
          exact Edit.failsOnly_bind.mpr ⟨decides, by simp⟩
        · simp only [first.holds.band?_eq_none isBand]
          exact Edit.failsOnly_pure

theorem optimizeNode_refuses (holds : a.Holds a.tree) (top : a.tree.top = a.root)
    (bands : a.tree.EveryBand Band.HasArity) : (o.optimizeNode a.root).Heeds (o.Refuses a) a := by
  have located : a.Locates [] a.tree := ⟨a.tree, top.symm, holds, .here _⟩
  have enough : a.tree.ids.length ≤ a.descentLimit :=
    holds.length_ids_le.trans (Nat.le_add_right _ _)
  rw [optimizeNode]
  apply Edit.failsOnly_get_bind.mpr
  rw [← top]
  exact optimizeLevels_refuses located located bands enough

theorem optimizeSchedule_refuses (holds : a.Holds a.tree) (top : a.tree.top = a.root)
    (bands : a.tree.EveryBand Band.HasArity) : o.optimizeSchedule.Heeds (o.Refuses a) a := by
  rw [optimizeSchedule]
  split
  · apply Edit.failsOnly_get_bind.mpr
    refine Edit.failsOnly_bind.mpr ⟨optimizeNode_refuses holds top bands, fun ds m does => ?_⟩
    obtain ⟨t', reworks, -⟩ := optimizeNode_surveys Band.HasArity.inherited holds top bands does
    have root : m.root = t'.top := by rw [reworks.root, reworks.top, top]
    exact Edit.failsOnly_bind.mpr ⟨Edit.failsOnly_compact reworks.holds root, by simp⟩
  · exact Edit.failsOnly_pure

end Optimizer

namespace Scop

variable {scop : Scop} {config : Config} {target : Option Target}

/-- A valid scop fails as the edit of its schedule does. -/
theorem optimize_failure (config : Config) (target : Option Target)
    (valid : scop.validate = .ok ()) :
    (∀ fault, scop.optimize config target = .error fault →
      (Optimizer.optimizeSchedule ⟨scop, config, target⟩).commit scop.schedule = .error fault) ∧
    ∀ failure, scop.optimize config target = .ok (.error failure) → ∃ refusal,
      failure = .refused refusal ∧
      (Optimizer.optimizeSchedule ⟨scop, config, target⟩).commit scop.schedule =
        .ok (.error refusal) := by
  simp only [optimize, valid]
  rcases (Optimizer.optimizeSchedule ⟨scop, config, target⟩).commit scop.schedule with
    fault | refusal | ⟨decisions, candidate⟩
  · constructor
    · rintro _ ⟨⟩
      rfl
    · rintro _ ⟨⟩
  · constructor
    · rintro _ ⟨⟩
    · rintro _ ⟨⟩
      exact ⟨refusal, rfl, rfl⟩
  · constructor <;> rintro _ ⟨⟩

/-- A valid scop is optimized unless a computation overflows, or a tile size or a vector width that
is given is not positive, or a band without exactly one child is to be made a vector loop by its
last member. -/
theorem optimize_refuses_only (valid : scop.validate = .ok ()) :
    (∀ fault, scop.optimize config target = .error fault → fault = .overflow) ∧
      ∀ failure, scop.optimize config target = .ok (.error failure) → ∃ refusal,
        failure = .refused refusal ∧
        Optimizer.Refuses ⟨scop, config, target⟩ scop.schedule refusal ∧
        (refusal.cause.toClass = .invalidTileSize ∨
          refusal.operation = .bandSink ∧ refusal.cause.toClass = .invalidNode) := by
  obtain ⟨domains, sound⟩ := sound_of_validate valid
  have heeds := Optimizer.optimizeSchedule_refuses (o := ⟨scop, config, target⟩) sound.holds
    sound.top (sound.bands.imp fun band fits => fits.hasArity)
  obtain ⟨overflows, refuses⟩ := heeds.commit
  obtain ⟨faults, failures⟩ := optimize_failure config target valid
  constructor
  · intro fault failed
    exact overflows fault (faults fault failed)
  · intro failure failed
    obtain ⟨refusal, rfl, refused⟩ := failures failure failed
    have reason := refuses refusal refused
    exact ⟨refusal, rfl, reason, reason.toClass⟩

def forkedGrid : Scop := .ofGrid fun domains =>
  ⟨#[⟨.domain domains, [1]⟩, ⟨.band (.identity domains [⟨true, true⟩, ⟨true, true⟩]), [2, 3]⟩,
    ⟨.leaf, []⟩, ⟨.leaf, []⟩], 0⟩

theorem forkedGrid_refuses_only : ∃ failure,
    forkedGrid.optimize .standard none = .ok (.error failure) ∧ ∃ refusal,
      failure = .refused refusal ∧
      Optimizer.Refuses ⟨forkedGrid, .standard, none⟩ forkedGrid.schedule refusal ∧
      (refusal.cause.toClass = .invalidTileSize ∨
        refusal.operation = .bandSink ∧ refusal.cause.toClass = .invalidNode) := by
  have refused : forkedGrid.optimize .standard none =
      .ok (.error (.refused ⟨.bandSink, .childCount 9 2⟩)) := by decide +kernel
  have valid : forkedGrid.validate = .ok () := by decide +kernel
  exact ⟨_, refused, (optimize_refuses_only valid).2 _ refused⟩

end Scop

end LoopNest
