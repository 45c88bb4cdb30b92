import LoopNest.MatMul.Blocking
import LoopNest.Proofs.Bands
import LoopNest.Proofs.Context

/-! An edit that is neither refused nor faults takes one arena to another. Each edit that works at
the top of a tree is given by the tree that it leaves there. -/

namespace LoopNest

/-! ## Edits that succeed -/

namespace Edit

variable {α β : Type} {a b c : Arena}

def Does (e : Edit α) (a : Arena) (r : α) (b : Arena) : Prop := e.perform a = .ok (.ok r, b)

@[simp] theorem does_pure {value r : α} :
    (pure value : Edit α).Does a r b ↔ value = r ∧ a = b := by
  constructor
  · intro h
    cases h
    exact ⟨rfl, rfl⟩
  · rintro ⟨rfl, rfl⟩
    rfl

@[simp] theorem does_bind {e : Edit α} {f : α → Edit β} {r : β} :
    (e >>= f).Does a r c ↔ ∃ m b, e.Does a m b ∧ (f m).Does b r c := by
  simp only [Does, perform, ExceptT.run_bind, StateT.run_bind, Checked.bind_eq_ok_iff]
  constructor
  · rintro ⟨⟨result, b⟩, first, second⟩
    cases result with
    | error => cases second
    | ok m => exact ⟨m, b, first, second⟩
  · rintro ⟨m, b, first, second⟩
    exact ⟨(.ok m, b), first, second⟩

@[simp] theorem does_refuse {operation : Operation} {cause : Cause} {r : α} :
    ¬(refuse operation cause : Edit α).Does a r b := by
  intro h
  cases h

@[simp] theorem does_get {r : Arena} : (get : Edit Arena).Does a r b ↔ a = r ∧ a = b := by
  constructor
  · intro h
    cases h
    exact ⟨rfl, rfl⟩
  · rintro ⟨rfl, rfl⟩
    rfl

@[simp] theorem does_lift {computation : Checked α} {r : α} :
    (liftM computation : Edit α).Does a r b ↔ computation = .ok r ∧ a = b := by
  cases computation with
  | error =>
    constructor
    · intro h
      cases h
    · rintro ⟨h, -⟩
      cases h
  | ok value =>
    constructor
    · intro h
      cases h
      exact ⟨rfl, rfl⟩
    · rintro ⟨h, rfl⟩
      cases h
      rfl

@[simp] theorem does_push {n : Node} {r : Nat} :
    (push n).Does a r b ↔ r = a.size ∧ b = a.push n := by
  constructor
  · intro h
    cases h
    exact ⟨rfl, rfl⟩
  · rintro ⟨rfl, rfl⟩
    rfl

@[simp] theorem does_setNode {id : Nat} {n : Node} {r : Unit} :
    (setNode id n).Does a r b ↔ b = a.setNode id n := by
  constructor
  · intro h
    cases h
    rfl
  · rintro rfl
    rfl

@[simp] theorem does_updateBand {id : Nat} {f : Band → Band} {r : Unit} :
    (updateBand id f).Does a r b ↔ b = a.updateBand id f := by
  constructor
  · intro h
    cases h
    rfl
  · rintro rfl
    rfl

theorem does_nodeAt {operation : Operation} {id : Nat} {r : Node} :
    (nodeAt operation id).Does a r b ↔ a.node? id = some r ∧ a = b := by
  simp only [nodeAt, does_bind, does_get]
  constructor
  · rintro ⟨_, _, ⟨rfl, rfl⟩, h⟩
    cases here : a.node? id with
    | none => simp [here] at h
    | some n => simpa [here] using h
  · rintro ⟨here, rfl⟩
    exact ⟨a, a, ⟨rfl, rfl⟩, by simp [here]⟩

theorem does_bandAt {operation : Operation} {id : Nat} {r : Band} :
    (bandAt operation id).Does a r b ↔ a.kind? id = some (.band r) ∧ a = b := by
  simp only [bandAt, does_bind, does_nodeAt]
  constructor
  · rintro ⟨n, _, ⟨here, rfl⟩, h⟩
    obtain ⟨kind, children⟩ := n
    rw [Arena.kind?_eq here]
    cases kind <;> simp_all
  · rintro ⟨kind, rfl⟩
    obtain ⟨n, here, same⟩ := Option.map_eq_some_iff.mp kind
    exact ⟨n, a, ⟨here, rfl⟩, by simp [same]⟩

/-- Edits at the children of a node, one after the other. -/
theorem steps_of_mapM {arity : Nat} {f : Nat → Edit α} {top : Fin arity → Nat}
    {indices : List (Fin arity)} {rs : List α} (h : ((indices.map top).mapM f).Does a rs b) :
    Arena.Steps (fun i a r b => (f (top i)).Does a r b) indices a rs b := by
  induction indices generalizing a rs with
  | nil =>
    obtain ⟨rfl, rfl⟩ := does_pure.mp h
    exact .nil
  | cons i rest ih =>
    simp only [List.map_cons, List.mapM_cons, does_bind, does_pure] at h
    obtain ⟨r, m, head, rs', m', tail, rfl, rfl⟩ := h
    exact .cons head (ih tail)

theorem commit_eq_ok {e : Edit α} {r : α} :
    e.commit a = .ok (.ok (r, b)) ↔ e.Does a r b := by
  simp only [commit, Checked.bind_eq_ok_iff, Does]
  constructor
  · rintro ⟨⟨result, after⟩, performed, h⟩
    cases result with
    | error => cases h
    | ok value =>
      cases h
      exact performed
  · intro performed
    exact ⟨_, performed, rfl⟩

end Edit

/-! ## The top of a tree -/

namespace Arena

variable {a : Arena} {id arity : Nat} {kind : NodeKind} {child : Fin arity → Tree}

theorem Holds.node {b : Arena} (here : b.node? id = some ⟨kind, List.ofFn fun i => (child i).top⟩)
    (children : ∀ i, b.Holds (child i)) (distinct : (Tree.node id kind arity child).ids.Nodup) :
    b.Holds (.node id kind arity child) :=
  ⟨⟨here, fun i => (children i).stored⟩, distinct⟩

/-- The top of a tree gets another kind. -/
theorem Reworks.rekind (holds : a.Holds (.node id kind arity child)) (kind' : NodeKind) :
    a.Reworks (a.setNode id ⟨kind', List.ofFn fun i => (child i).top⟩)
      (.node id kind arity child) (.node id kind' arity child) := by
  have bound : id < a.size := holds.stored.lt_size (by simp [Tree.ids])
  have outside := (Tree.nodup_ids_node.mp holds.distinct).1
  refine ⟨.node (a.node?_setNode_self _ bound) (fun i => ?_) holds.distinct, rfl, rfl, by simp,
    fun other _ notIn => ?_, fun other member => .inl member⟩
  · exact (holds.child i).frame fun other member =>
      a.node?_setNode_ne _ fun same => outside i (same ▸ member)
  · exact a.node?_setNode_ne _ fun same => notIn (by simp [Tree.ids, same])

/-- The top of a tree becomes two nodes, one above the other. -/
theorem Reworks.stack (holds : a.Holds (.node id kind arity child)) (upper lower : NodeKind) :
    a.Reworks ((a.push ⟨lower, List.ofFn fun i => (child i).top⟩).setNode id ⟨upper, [a.size]⟩)
      (.node id kind arity child) (.node id upper 1 fun _ => .node a.size lower arity child) := by
  have bound : id < a.size := holds.stored.lt_size (by simp [Tree.ids])
  obtain ⟨outside, each, apart⟩ := Tree.nodup_ids_node.mp holds.distinct
  have old : ∀ i, ∀ other ∈ (child i).ids, other < a.size := fun i other member =>
    (holds.child i).stored.lt_size member
  have same : ∀ other < a.size, other ≠ id →
      ((a.push ⟨lower, List.ofFn fun i => (child i).top⟩).setNode id
        ⟨upper, [a.size]⟩).node? other = a.node? other := by
    intro other lt ne
    rw [node?_setNode_ne _ _ ne, node?_push_of_lt _ _ lt]
  have lowerDistinct : (Tree.node a.size lower arity child).ids.Nodup :=
    Tree.nodup_ids_node.mpr ⟨fun i member => Nat.lt_irrefl _ (old i _ member), each, apart⟩
  refine ⟨.node ?_ (fun _ => .node ?_ (fun i => ?_) lowerDistinct) ?_, rfl, rfl, by simp,
    fun other lt notIn => ?_, fun other member => ?_⟩
  · rw [node?_setNode_self _ _ (by simp; omega)]
    rfl
  · rw [node?_setNode_ne _ _ (by omega), node?_push_size]
  · exact (holds.child i).frame fun other member =>
      same other (old i other member) fun eq => outside i (eq ▸ member)
  · refine Tree.nodup_ids_node.mpr ⟨fun _ member => ?_, fun _ => lowerDistinct, fun i j ne => ?_⟩
    · rcases Tree.mem_ids_node.mp member with eq | ⟨i, member⟩
      · omega
      · exact outside i member
    · exact absurd (Subsingleton.elim i j) ne
  · exact same other lt fun eq => notIn (by simp [Tree.ids, eq])
  · rcases Tree.mem_ids_node.mp member with rfl | ⟨_, member⟩
    · exact .inl (by simp [Tree.ids])
    · rcases Tree.mem_ids_node.mp member with rfl | ⟨i, member⟩
      · exact .inr le_rfl
      · exact .inl (Tree.mem_ids_node.mpr (.inr ⟨i, member⟩))

/-- The only child of a node takes its place. -/
theorem Reworks.lift {other : Nat} {kind' : NodeKind}
    (holds : a.Holds (.node id kind 1 fun _ => .node other kind' arity child)) :
    a.Reworks (a.setNode id ⟨kind', List.ofFn fun i => (child i).top⟩)
      (.node id kind 1 fun _ => .node other kind' arity child) (.node id kind' arity child) := by
  have bound : id < a.size := holds.stored.lt_size (by simp [Tree.ids])
  have below := holds.child 0
  have outside : ∀ i, id ∉ (child i).ids := fun i member =>
    (Tree.nodup_ids_node.mp holds.distinct).1 0 (Tree.mem_ids_node.mpr (.inr ⟨i, member⟩))
  have inside : ∀ i, ∀ x ∈ (child i).ids,
      x ∈ (Tree.node id kind 1 fun _ => .node other kind' arity child).ids := fun i x member =>
    Tree.mem_ids_node.mpr (.inr ⟨0, Tree.mem_ids_node.mpr (.inr ⟨i, member⟩)⟩)
  refine ⟨.node (a.node?_setNode_self _ bound) (fun i => ?_) ?_, rfl, rfl, by simp,
    fun x _ notIn => ?_, fun x member => .inl ?_⟩
  · exact (below.child i).frame fun x member =>
      a.node?_setNode_ne _ fun same => outside i (same ▸ member)
  · exact Tree.nodup_ids_node.mpr ⟨outside, (Tree.nodup_ids_node.mp below.distinct).2⟩
  · exact a.node?_setNode_ne _ fun same => notIn (by simp [Tree.ids, same])
  · rcases Tree.mem_ids_node.mp member with rfl | ⟨i, member⟩
    · simp [Tree.ids]
    · exact inside i x member

/-- Reworking the only child of a node. -/
theorem Reworks.only {b : Arena} {s t : Tree} (holds : a.Holds (.node id kind 1 fun _ => s))
    (rework : a.Reworks b s t) :
    a.Reworks b (.node id kind 1 fun _ => s) (.node id kind 1 fun _ => t) := by
  have whole := Reworks.child (i := 0) holds rework
  rwa [Function.update_eq_const_of_subsingleton] at whole

theorem updateBand_eq {band : Band} {children : List Nat} (f : Band → Band)
    (here : a.node? id = some ⟨.band band, children⟩) :
    a.updateBand id f = a.setNode id ⟨.band (f band), children⟩ := by
  simp [updateBand, here]

end Arena

/-! ## Edits of bands -/

namespace Edit

variable {a b : Arena} {above : List Frame} {id arity r : Nat} {band : Band}
  {child : Fin arity → Tree}

theorem stackBands_reworks {upper lower : Band}
    (holds : a.Holds (.node id (.band band) arity child))
    (does : (stackBands id upper lower).Does a r b) :
    a.Reworks b (.node id (.band band) arity child)
      (.node id (.band upper) 1 fun _ => .node r (.band lower) arity child) := by
  simp only [stackBands, does_bind, does_get, does_push, does_setNode, does_pure] at does
  obtain ⟨_, _, ⟨rfl, rfl⟩, _, _, ⟨rfl, rfl⟩, _, _, rfl, rfl, rfl⟩ := does
  rw [Arena.children_eq holds.stored.1]
  exact .stack holds (.band upper) (.band lower)

theorem bandSplit_reworks {count : Nat} (holds : a.Holds (.node id (.band band) arity child))
    (arities : band.HasArity) (does : (bandSplit id count).Does a r b) :
    ∃ upper lower, band.Split count upper lower ∧
      a.Reworks b (.node id (.band band) arity child)
        (.node id (.band upper) 1 fun _ => .node r (.band lower) arity child) := by
  simp only [bandSplit, does_bind, does_bandAt] at does
  obtain ⟨own, _, ⟨kind, rfl⟩, does⟩ := does
  obtain rfl : band = own := by simpa [Arena.kind?_eq holds.stored.1] using kind
  split at does
  · exact absurd does does_refuse
  · rename_i position
    simp only [does_bind, does_lift] at does
    obtain ⟨upper, _, ⟨hu, rfl⟩, lower, _, ⟨hl, rfl⟩, does⟩ := does
    have split := Band.split_of_select arities (by omega) (by omega) hu hl
    exact ⟨upper, { lower with marks := [] }, ⟨split.pos, split.lt, split.upperMembers,
      split.lowerMembers, split.upperExprs, split.lowerExprs⟩, stackBands_reworks holds does⟩

theorem bandTile_computes {sizes : List Int} (holds : a.Holds (.node id (.band band) arity child))
    (does : (bandTile id sizes).Does a r b) :
    ∃ tiles points, sizes.length = band.nMembers ∧ band.tiles sizes = .ok tiles ∧
      band.points sizes = .ok points ∧ a.Reworks b (.node id (.band band) arity child)
        (.node id (.band tiles) 1 fun _ => .node r (.band points) arity child) := by
  simp only [bandTile, does_bind, does_bandAt] at does
  obtain ⟨own, _, ⟨kind, rfl⟩, does⟩ := does
  obtain rfl : band = own := by simpa [Arena.kind?_eq holds.stored.1] using kind
  split at does
  · exact absurd does does_refuse
  · rename_i count
    split at does
    · exact absurd does does_refuse
    · simp only [does_bind, does_lift] at does
      obtain ⟨tiles, _, ⟨isTiles, rfl⟩, points, _, ⟨isPoints, rfl⟩, does⟩ := does
      exact ⟨tiles, points, by simpa using count, isTiles, isPoints,
        stackBands_reworks holds does⟩

theorem bandTile_reworks {sizes : List Int} (holds : a.Holds (.node id (.band band) arity child))
    (arities : band.HasArity) (does : (bandTile id sizes).Does a r b) :
    ∃ tiles points, band.Tiled sizes tiles points ∧
      a.Reworks b (.node id (.band band) arity child)
        (.node id (.band tiles) 1 fun _ => .node r (.band points) arity child) := by
  obtain ⟨tiles, points, count, isTiles, isPoints, reworks⟩ := bandTile_computes holds does
  exact ⟨tiles, points, Band.tiled_of_tiles_points arities count isTiles isPoints, reworks⟩

theorem bandPermute_computes {positions : List Nat} {r : Unit}
    (holds : a.Holds (.node id (.band band) arity child))
    (does : (bandPermute id positions).Does a r b) :
    ∃ permuted, isPermutation positions band.nMembers = true ∧
      band.select positions = .ok permuted ∧
      a.Reworks b (.node id (.band band) arity child) (.node id (.band permuted) arity child) := by
  simp only [bandPermute, does_bind, does_bandAt] at does
  obtain ⟨own, _, ⟨kind, rfl⟩, does⟩ := does
  obtain rfl : band = own := by simpa [Arena.kind?_eq holds.stored.1] using kind
  split at does
  · rename_i permutation
    simp only [does_bind, does_lift, does_updateBand] at does
    obtain ⟨permuted, _, ⟨selected, rfl⟩, rfl⟩ := does
    refine ⟨permuted, permutation, selected, ?_⟩
    rw [Arena.updateBand_eq _ holds.stored.1]
    exact .rekind holds _
  · exact absurd does does_refuse

theorem bandPermute_reworks {positions : List Nat} {r : Unit}
    (holds : a.Holds (.node id (.band band) arity child))
    (does : (bandPermute id positions).Does a r b) :
    ∃ permuted, band.Permuted positions permuted ∧
      a.Reworks b (.node id (.band band) arity child) (.node id (.band permuted) arity child) := by
  obtain ⟨permuted, permutation, selected, reworks⟩ := bandPermute_computes holds does
  exact ⟨permuted, Band.permuted_of_select permutation selected, reworks⟩

theorem updateBand_reworks {f : Band → Band} (holds : a.Holds (.node id (.band band) arity child))
    (updated : b = a.updateBand id f) :
    a.Reworks b (.node id (.band band) arity child) (.node id (.band (f band)) arity child) := by
  rw [updated, Arena.updateBand_eq f holds.stored.1]
  exact .rekind holds _

/-- Tiling stages tile; they differ in marks and loop options only. -/
def Tiles (a b : Arena) (id points : Nat) (band : Band) (child : Fin arity → Tree) : Prop :=
  ∃ sizes tileBand pointBand, band.Tiled sizes tileBand pointBand ∧
    a.Reworks b (.node id (.band band) arity child)
      (.node id (.band tileBand) 1 fun _ => .node points (.band pointBand) arity child)

theorem tileNode_computes {label : String} {sizes : List Int} {default : Int}
    (holds : a.Holds (.node id (.band band) arity child))
    (does : (tileNode label sizes default id).Does a r b) :
    ∃ tiles points, band.tiles (sizesFor band.nMembers sizes default) = .ok tiles ∧
      band.points (sizesFor band.nMembers sizes default) = .ok points ∧
      a.Reworks b (.node id (.band band) arity child)
        (.node id (.band { tiles with marks := tiles.marks ++ [.tiles label] }) 1 fun _ =>
          .node r (.band { points with marks := points.marks ++ [.points label] }) arity
            child) := by
  simp only [tileNode, does_bind, does_get] at does
  obtain ⟨_, _, ⟨rfl, rfl⟩, does⟩ := does
  simp only [holds.band?_eq] at does
  split at does
  · exact absurd does does_refuse
  · split at does
    · exact absurd does does_refuse
    · simp only [does_bind, does_updateBand, does_pure] at does
      obtain ⟨points, m, tile, _, m', upper, _, _, lower, rfl, rfl⟩ := does
      obtain ⟨tiles, points, -, isTiles, isPoints, first⟩ := bandTile_computes holds tile
      have second := first.trans (updateBand_reworks first.holds upper)
      have third := second.trans
        (.only second.holds (updateBand_reworks (second.holds.child 0) lower))
      exact ⟨tiles, points, isTiles, isPoints, third⟩

theorem tileNode_reworks {label : String} {sizes : List Int} {default : Int}
    (holds : a.Holds (.node id (.band band) arity child)) (arities : band.HasArity)
    (does : (tileNode label sizes default id).Does a r b) :
    ∃ tileBand pointBand,
      band.Tiled (sizesFor band.nMembers sizes default) tileBand pointBand ∧
      a.Reworks b (.node id (.band band) arity child)
        (.node id (.band tileBand) 1 fun _ => .node r (.band pointBand) arity child) := by
  obtain ⟨tiles, points, isTiles, isPoints, reworks⟩ := tileNode_computes holds does
  have tiled := Band.tiled_of_tiles_points arities (by simp [sizesFor]) isTiles isPoints
  refine ⟨_, _, ?_, reworks⟩
  exact ⟨tiled.tileMembers, tiled.pointMembers, tiled.unscheduled, tiled.scheduled⟩

theorem tileNode_tiles {label : String} {sizes : List Int} {default : Int}
    (holds : a.Holds (.node id (.band band) arity child)) (arities : band.HasArity)
    (does : (tileNode label sizes default id).Does a r b) : Tiles a b id r band child :=
  ⟨_, tileNode_reworks holds arities does⟩

theorem registerTiling_reworks {sizes : List Int} {default : Int}
    (holds : a.Holds (.node id (.band band) arity child)) (arities : band.HasArity)
    (does : (registerTiling sizes default id).Does a r b) :
    ∃ tileBand pointBand,
      band.Tiled (sizesFor band.nMembers sizes default) tileBand pointBand ∧
      pointBand.loopOption = .unroll ∧
      a.Reworks b (.node id (.band band) arity child)
        (.node id (.band tileBand) 1 fun _ => .node r (.band pointBand) arity child) := by
  simp only [registerTiling, does_bind, does_updateBand, does_pure] at does
  obtain ⟨points, m, tile, _, _, updated, rfl, rfl⟩ := does
  obtain ⟨tiles, pointBand, tiled, first⟩ := tileNode_reworks holds arities tile
  have second := first.trans
    (.only first.holds (updateBand_reworks (first.holds.child 0) updated))
  refine ⟨_, _, ?_, rfl, second⟩
  exact ⟨tiled.tileMembers, tiled.pointMembers, tiled.unscheduled, tiled.scheduled⟩

theorem registerTiling_tiles {sizes : List Int} {default : Int}
    (holds : a.Holds (.node id (.band band) arity child)) (arities : band.HasArity)
    (does : (registerTiling sizes default id).Does a r b) : Tiles a b id r band child := by
  obtain ⟨tileBand, pointBand, tiled, -, reworks⟩ := registerTiling_reworks holds arities does
  exact ⟨_, tileBand, pointBand, tiled, reworks⟩

theorem apply_tiles {stage : TilingStage} (holds : a.Holds (.node id (.band band) arity child))
    (arities : band.HasArity) (does : (stage.apply id).Does a r b) : Tiles a b id r band child := by
  unfold TilingStage.apply at does
  split at does
  · exact registerTiling_tiles holds arities does
  · exact tileNode_tiles holds arities does

structure Blocked (scop : Scop) (target : Option Target) (a b : Arena) (id points : Nat)
    (band : Band) (child : Fin arity → Tree) (shape : MatMulShape) (micro : MicroKernel)
    (blocks : MacroKernel) : Prop where
  found : a.matMulShape? scop id = .ok (some shape)
  isMicro : MicroKernel.forTarget (target.getD .generic) = .ok micro
  isMacro : MacroKernel.forTarget (target.getD .generic) micro = .ok blocks
  permutable : band.isPermutable = true
  stacked : ∃ permuted upper rest middle inner below,
    band.Permuted shape.permutation permuted ∧
    permuted.Tiled (sizesFor band.nMembers [blocks.kc, blocks.mc, blocks.nc] 1) upper rest ∧
    rest.Tiled (sizesFor band.nMembers [1, micro.mr, micro.nr] 1) middle inner ∧
    inner.loopOption = .unroll ∧
    a.Reworks b (.node id (.band band) arity child) (.node id (.band upper) 1 fun _ =>
      .node below (.band middle) 1 fun _ => .node points (.band inner) arity child)

theorem blockMatMul_blocked {scop : Scop} {target : Option Target}
    (holds : a.Holds (.node id (.band band) arity child)) (arities : band.HasArity)
    (does : (blockMatMul scop target id).Does a r b) :
    ∃ shape micro blocks, Blocked scop target a b id r band child shape micro blocks := by
  simp only [blockMatMul, does_bind, does_get, does_lift] at does
  obtain ⟨_, _, ⟨rfl, rfl⟩, shape?, _, ⟨found, rfl⟩, does⟩ := does
  cases shape? with
  | none => exact absurd does does_refuse
  | some shape =>
    dsimp only at does
    split at does
    · exact absurd does does_refuse
    · rename_i permutable
      simp only [does_bind, does_lift] at does
      obtain ⟨micro, _, ⟨isMicro, rfl⟩, blocks, _, ⟨isMacro, rfl⟩, _, a₁, permute, p, a₂, tile,
        register⟩ := does
      obtain ⟨permuted, permutes, first⟩ := bandPermute_reworks holds permute
      have aritiesPermuted := permutes.hasArity arities
      obtain ⟨upper, rest, tiled, second⟩ := tileNode_reworks first.holds aritiesPermuted tile
      obtain ⟨middle, inner, tiled', unrolled, third⟩ :=
        registerTiling_reworks (second.holds.child 0) (tiled.hasArity aritiesPermuted).2 register
      have both := first.trans second
      have count : rest.nMembers = permuted.nMembers := congrArg List.length tiled.pointMembers
      rw [count, permutes.nMembers_eq] at tiled'
      rw [permutes.nMembers_eq] at tiled
      refine ⟨shape, micro, blocks, found, isMicro, isMacro, ?_, permuted, upper, rest, middle,
        inner, p, permutes, tiled, tiled', unrolled, both.trans (.only both.holds third)⟩
      simpa [holds.band?_eq] using permutable

end Edit

end LoopNest
