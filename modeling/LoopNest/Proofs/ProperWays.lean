import LoopNest.Proofs.Algebra
import LoopNest.Proofs.Rewrite

/-! Rewriting a tree brings no division by zero. Tiles and offsets divide by positive sizes, and so
do the guards of full tiles. All else that is evaluated on the way of an instance through the new
tree has been evaluated on its way through the old one. -/

namespace LoopNest

namespace Band

variable {band upper lower tiles points permuted : Band} {sizes : List Int} {positions : List Nat}
  {count stmt : Nat}

theorem Tiled.properAt (tiled : band.Tiled sizes tiles points) (proper : band.ProperAt stmt) :
    tiles.ProperAt stmt ∧ points.ProperAt stmt := by
  cases own : band.schedule.get? stmt with
  | none =>
    obtain ⟨noTiles, noPoints⟩ := tiled.unscheduled stmt own
    exact ⟨by simp [ProperAt, noTiles], by simp [ProperAt, noPoints]⟩
  | some es =>
    obtain ⟨ts, ps, foundTiles, foundPoints, tiling⟩ := tiled.scheduled stmt es own
    obtain ⟨properTiles, properPoints⟩ := tiling.proper (proper es own)
    exact ⟨by simpa [ProperAt, foundTiles] using properTiles,
      by simpa [ProperAt, foundPoints] using properPoints⟩

theorem Permuted.properAt (permutes : band.Permuted positions permuted)
    (proper : band.ProperAt stmt) : permuted.ProperAt stmt := by
  intro fs found e member
  obtain ⟨es, own, each⟩ := permutes.exists_exprs found
  obtain ⟨i, here⟩ := List.mem_iff_getElem?.mp member
  rw [each, Option.bind_eq_some_iff] at here
  obtain ⟨d, -, here⟩ := here
  exact proper es own e (List.mem_of_getElem? here)

theorem Split.properAt (split : band.Split count upper lower) (proper : band.ProperAt stmt) :
    upper.ProperAt stmt ∧ lower.ProperAt stmt := by
  constructor
  · intro es found e member
    rw [split.upperExprs, Option.map_eq_some_iff] at found
    obtain ⟨exprs, own, rfl⟩ := found
    exact proper exprs own e (List.mem_of_mem_take member)
  · intro es found e member
    rw [split.lowerExprs, Option.map_eq_some_iff] at found
    obtain ⟨exprs, own, rfl⟩ := found
    exact proper exprs own e (List.mem_of_mem_drop member)

theorem Split.isSome (split : band.Split count upper lower) :
    (upper.schedule.get? stmt).isSome = (band.schedule.get? stmt).isSome ∧
      (lower.schedule.get? stmt).isSome = (band.schedule.get? stmt).isSome := by
  simp [split.upperExprs, split.lowerExprs]

theorem ProperAt.restrict (proper : band.ProperAt stmt) (stmts : StmtSet) :
    (band.restrict stmts).ProperAt stmt := by
  intro es found
  have own : _ = some es := (StmtMap.get?_filter _ _ _).symm.trans found
  split at own
  · exact proper es own
  · cases own

end Band

/-! ## Guards of full tiles -/

theorem Guard.onlyOverflows_isSatisfied {guard : Guard} {point params : List Int}
    (proper : ∀ e ∈ guard, e.Proper) : (guard.isSatisfied point params).OnlyOverflows := by
  induction guard with
  | nil => exact Checked.onlyOverflows_ok
  | cons e rest ih =>
    obtain ⟨here, later⟩ := List.forall_mem_cons.mp proper
    apply Checked.onlyOverflows_bind.mpr
    refine ⟨Quasi.onlyOverflows_eval here, fun value _ => ?_⟩
    split
    · exact ih later
    · exact Checked.onlyOverflows_pure

theorem TileFilter.onlyOverflows_passes_ofGuard {kind : TileKind} {width : Int} {stmt s : Nat}
    {guard : Guard} {point params : List Int} (proper : ∀ e ∈ guard, e.Proper) :
    ((Filter.tiles (.ofGuard kind width stmt guard)).passes s point params).OnlyOverflows := by
  apply Checked.onlyOverflows_bind.mpr
  refine ⟨?_, fun _ _ => Checked.onlyOverflows_pure⟩
  rw [inFullTile, guard?_ofGuard]
  split
  · rename_i found
    split at found
    · cases found
      exact Guard.onlyOverflows_isSatisfied proper
    · cases found
  · exact Checked.onlyOverflows_ok

namespace FullTile

variable {dim nDim nParam : Nat} {width : Int} {guard : Guard} {ends : List Quasi}

theorem proper_blockEnds (h : blockEnds dim width nDim nParam = .ok ends) :
    ∀ e ∈ ends, e.Proper := by
  simp only [blockEnds, Checked.bind_eq_ok_iff] at h
  obtain ⟨offset, remainder, start, subtracted, last, -, added⟩ := h
  have properVar : (Quasi.var dim nDim nParam).Proper := trivial
  have properStart : start.Proper := properVar.sub (properVar.modulo remainder) subtracted
  intro e member
  obtain ⟨delta, -, sum⟩ := (exists_of_forall₂ (mapM_eq_ok added)).2 e member
  have properDelta : (Quasi.const delta nDim nParam).Proper := trivial
  exact properStart.add properDelta sum

theorem proper_guardFrom {fixed : Nat → Bool} {constraints : List Affine}
    (proper : ∀ e ∈ ends, e.Proper)
    (h : guardFrom fixed nDim dim ends constraints = .ok (some guard)) :
    ∀ e ∈ guard, e.Proper := by
  induction constraints generalizing guard with
  | nil =>
    cases h
    simp
  | cons c rest ih =>
    rw [guardFrom] at h
    split at h
    · exact ih h
    · split at h
      · cases h
      · simp only [Checked.bind_eq_ok_iff] at h
        obtain ⟨here, replaced, later?, later, h⟩ := h
        obtain ⟨guards, rfl, same⟩ := Option.map_eq_some_iff.mp (Except.ok.inj h)
        subst same
        intro e member
        rcases List.mem_append.mp member with member | member
        · obtain ⟨value, isEnd, substituted⟩ := (exists_of_forall₂ (mapM_eq_ok replaced)).2 e member
          have properConstraint : (Quasi.affine c).Proper := trivial
          exact properConstraint.subst (proper value isEnd) substituted
        · exact ih later e member

theorem proper_guardOf {domain : Polyhedron} {e : Quasi} {above below : List Quasi}
    (h : guardOf domain e dim above below width = .ok (some guard)) : ∀ g ∈ guard, g.Proper := by
  rw [guardOf] at h
  split at h
  · simp only [Checked.bind_eq_ok_iff] at h
    obtain ⟨ends, isEnds, constraints, -, h⟩ := h
    exact proper_guardFrom (proper_blockEnds isEnds) h
  · cases h

end FullTile

theorem Separates.proper {domains : StmtMap Polyhedron} {above : List NodeKind}
    {tiles points : Band} {below : List Quasi} {width : Int} {stmt : Nat} {guard : Guard}
    (separates : Separates domains above tiles points below width stmt guard) :
    ∀ e ∈ guard, e.Proper := by
  obtain ⟨_, _, _, _, _, _, -, -, -, -, -, -, guarded⟩ := separates.guarded
  exact FullTile.proper_guardOf guarded

/-! ## Trees -/

theorem Checked.onlyOverflows_findM? {α : Type} {f : α → Checked Bool} {items : List α}
    (each : ∀ item ∈ items, (f item).OnlyOverflows) : (items.findM? f).OnlyOverflows := by
  induction items with
  | nil => exact onlyOverflows_pure
  | cons item rest ih =>
    obtain ⟨here, later⟩ := List.forall_mem_cons.mp each
    rw [List.findM?]
    apply onlyOverflows_bind.mpr
    refine ⟨here, fun passes _ => ?_⟩
    cases passes with
    | true => exact onlyOverflows_pure
    | false => exact ih later

namespace Tree

variable {x : Iteration} {domains : StmtMap Polyhedron} {above : List NodeKind} {t t' c : Tree}

/-- A way through a band goes on to the first child. -/
theorem proper_band {id arity : Nat} {band : Band} {child : Fin arity → Tree} :
    (node id (.band band) arity child).Proper x ↔ band.ProperAt x.stmt ∧
      ((band.schedule.get? x.stmt).isSome = true →
        ∀ i, first arity = some i → (child i).Proper x) := by
  refine and_congr_right fun _ => ?_
  cases own : band.schedule.get? x.stmt with
  | none => simp [onward, own]
  | some es =>
    constructor
    · intro below _ i next
      exact below (x.values es) i (by simp [onward, own, next])
    · intro below entries i step
      simp only [onward, own, Option.map_some, Option.some.injEq, Prod.mk.injEq] at step
      exact below rfl i step.2

theorem proper_band_one {id : Nat} {band : Band} :
    (node id (.band band) 1 fun _ => c).Proper x ↔ band.ProperAt x.stmt ∧
      ((band.schedule.get? x.stmt).isSome = true → c.Proper x) := by
  rw [proper_band]
  simp

theorem stepsProperly_congr {arity : Nat} {kind : NodeKind} {child child' : Fin arity → Tree}
    (same : branch? child' x.stmt x.point x.params = branch? child x.stmt x.point x.params) :
    StepsProperly x child' kind ↔ StepsProperly x child kind := by
  cases kind <;> simp only [StepsProperly, same]

/-- What is below a node may be replaced by trees that take the same instances. -/
theorem Proper.node {id id' arity : Nat} {kind : NodeKind} {child child' : Fin arity → Tree}
    (proper : (Tree.node id kind arity child).Proper x)
    (accepts : ∀ i, (child' i).accepts x.stmt x.point x.params =
      (child i).accepts x.stmt x.point x.params)
    (admits : ∀ i, (child' i).admits x = (child i).admits x)
    (each : ∀ i, (child i).Proper x → (child' i).Proper x) :
    (Tree.node id' kind arity child').Proper x := by
  have branch : branch? child' x.stmt x.point x.params =
      branch? child x.stmt x.point x.params := by
    simp only [branch?, accepts]
  refine ⟨(stepsProperly_congr branch).mpr proper.1, fun entries i step => ?_⟩
  rw [onward_congr kind admits] at step
  exact each i (proper.2 entries i step)

theorem Alike.proper (alike : t.Alike t') (proper : t.Proper x) : t'.Proper x := by
  induction alike with
  | @node id id' kind kind' arity child child' kinds children ih =>
    have below : (Tree.node id kind arity child').Proper x :=
      proper.node (fun i => ((children i).accepts _ _ _).symm)
        (fun i => ((children i).admits x).symm) ih
    have steps : ∀ kind, StepsProperly x child' kind ↔ StepsProperly x child' kind.plain := by
      intro kind
      cases kind <;> exact Iff.rfl
    refine ⟨?_, fun entries i step => ?_⟩
    · rw [steps, ← kinds, ← steps]
      exact below.1
    · rw [← onward_plain, ← kinds, onward_plain] at step
      exact below.2 entries i step

theorem Sunk.proper {band : Band} {stmts : StmtSet} (sunk : t.Sunk band stmts t')
    (own : band.ProperAt x.stmt) (proper : t.Proper x) : t'.Proper x := by
  induction sunk with
  | bare none => exact proper
  | leaf moved some =>
    refine proper_band_one.mpr ⟨own.restrict _, fun _ => ⟨trivial, fun _ _ step => ?_⟩⟩
    simp [onward] at step
  | filter children ih =>
    exact proper.node (fun i => (children i).accepts _ _ _) (fun i => (children i).admits x) ih
  | inner notLeaf notFilter children ih =>
    exact proper.node (fun i => (children i).accepts _ _ _) (fun i => (children i).admits x) ih

theorem Sunken.proper {points : Band} (sunken : c.Sunken points t')
    (own : points.ProperAt x.stmt) (proper : c.Proper x) : t'.Proper x := by
  obtain ⟨s, renumbered, sunk⟩ := sunken
  exact sunk.proper own (renumbered.alike.proper proper)

/-- Keeping full tiles apart. -/
theorem proper_apart {id i j stmt : Nat} {width : Int} {guard : Guard} {full partly : Tree}
    (guards : ∀ e ∈ guard, e.Proper) (fullTiles : full.Proper x) (partialTiles : partly.Proper x) :
    (node id .sequence 2
      ![node i (.filter (.tiles (.ofGuard .full width stmt guard))) 1 fun _ => full,
        node j (.filter (.tiles (.ofGuard .partly width stmt guard))) 1 fun _ => partly]).Proper
      x := by
  have passes (kind : TileKind) :
      ((Filter.tiles (.ofGuard kind width stmt guard)).passes x.stmt x.point
        x.params).OnlyOverflows :=
    TileFilter.onlyOverflows_passes_ofGuard guards
  constructor
  · apply Checked.onlyOverflows_findM?
    exact Fin.forall_fin_two.mpr ⟨fun _ => passes .full, fun _ => passes .partly⟩
  · intro _
    exact Fin.forall_fin_two.mpr ⟨fun _ => ⟨passes .full, fun _ _ _ => fullTiles⟩,
      fun _ => ⟨passes .partly, fun _ _ _ => partialTiles⟩⟩

theorem Stripped.proper {tiles points : Band} {width : Int}
    (stripped : c.Stripped domains above tiles points width t') (own : points.ProperAt x.stmt)
    (proper : c.Proper x) : t'.Proper x := by
  cases stripped with
  | together sunken branches => exact sunken.proper own proper
  | apart separates fullTiles partialTiles =>
    exact proper_apart separates.proper (fullTiles.proper own proper)
      (partialTiles.proper own proper)

/-- A way through a band is a way through its first member and what is below that. -/
theorem Heads.proper {head : Band} (heads : t.Heads head c) (id : Nat) (proper : t.Proper x) :
    (node id (.band head) 1 fun _ => c).Proper x := by
  cases heads with
  | whole single => exact proper
  | split split =>
    obtain ⟨own, below⟩ := proper_band.mp proper
    obtain ⟨upper, lower⟩ := split.properAt own
    refine proper_band_one.mpr ⟨upper, fun found => proper_band.mpr ⟨lower, fun _ => below ?_⟩⟩
    rwa [split.isSome.1] at found

theorem Vectorized.proper {width : Int} {own member : Nat}
    (vectorized : Vectorized domains width own member above t t') (proper : t.Proper x) :
    t'.Proper x := by
  induction vectorized with
  | first here heads tiled stripped =>
    obtain ⟨ownHead, below⟩ := proper_band_one.mp (heads.proper 0 proper)
    obtain ⟨ownTiles, ownPoints⟩ := tiled.properAt ownHead
    refine proper_band_one.mpr ⟨ownTiles, fun found => stripped.proper ownPoints (below ?_)⟩
    rwa [tiled.isSome.1] at found
  | later split rest ih =>
    obtain ⟨ownBand, below⟩ := proper_band.mp proper
    obtain ⟨upper, lower⟩ := split.properAt ownBand
    refine proper_band_one.mpr ⟨upper, fun found =>
      ih (proper_band.mpr ⟨lower, fun _ => below ?_⟩)⟩
    rwa [split.isSome.1] at found

/-- A way through a band is a way through the loops over its tiles and over their points. -/
theorem Proper.tiled {id p arity : Nat} {band tiles points : Band} {sizes : List Int}
    {child : Fin arity → Tree} (tiled : band.Tiled sizes tiles points)
    (proper : (Tree.node id (.band band) arity child).Proper x) :
    tiles.ProperAt x.stmt ∧ ((tiles.schedule.get? x.stmt).isSome = true →
      (Tree.node p (.band points) arity child).Proper x) := by
  obtain ⟨own, below⟩ := proper_band.mp proper
  obtain ⟨ownTiles, ownPoints⟩ := tiled.properAt own
  refine ⟨ownTiles, fun found => proper_band.mpr ⟨ownPoints, fun _ => below ?_⟩⟩
  rwa [tiled.isSome.1] at found

theorem Reshaped.proper {vector : Bool} (reshaped : Reshaped domains above vector t t')
    (proper : t.Proper x) : t'.Proper x := by
  induction reshaped with
  | same => exact proper
  | permute permutes rest ih =>
    obtain ⟨own, below⟩ := proper_band.mp proper
    refine ih (proper_band.mpr ⟨permutes.properAt own, fun found => below ?_⟩)
    rwa [permutes.isSome] at found
  | tile tiled rest ih =>
    obtain ⟨ownTiles, below⟩ := proper.tiled tiled
    exact proper_band_one.mpr ⟨ownTiles, fun found => ih (below found)⟩
  | vectorize coincident vectorized => exact vectorized.proper proper

/-- Where the old way met no division by zero, the way through a rewritten tree meets none. -/
theorem Rewritten.proper {decisions : List Decision}
    (rewritten : Rewritten domains above t t' decisions) (proper : t.Proper x) :
    t'.Proper x := by
  induction rewritten with
  | keep own children kept ih =>
    exact proper.node (fun i => (children i).accepts) (fun i => (children i).admits) ih
  | reshape permutable bandless reshaped here flag => exact reshaped.proper proper

/-- A tree that stands in another is replaced. -/
theorem Grafted.proper {frames : List Frame} {whole whole' : Tree}
    (graft : Grafted t t' frames whole whole')
    (accepts : t'.accepts x.stmt x.point x.params = t.accepts x.stmt x.point x.params)
    (admits : t'.admits x = t.admits x) (below : t.Proper x → t'.Proper x)
    (proper : whole.Proper x) : whole'.Proper x := by
  induction graft with
  | here => exact below proper
  | @inside frames id arity kind child c i graft ih =>
    refine proper.node ?_ ?_ ?_
    · exact (Function.forall_update_iff child (p := fun k t => t.accepts x.stmt x.point x.params =
        (child k).accepts x.stmt x.point x.params)).mpr
        ⟨graft.accepts_eq accepts, fun _ _ => rfl⟩
    · exact (Function.forall_update_iff child (p := fun k t => t.admits x = (child k).admits x)).mpr
        ⟨graft.admits admits, fun _ _ => rfl⟩
    · exact (Function.forall_update_iff child (p := fun k t => (child k).Proper x → t.Proper x)).mpr
        ⟨ih, fun _ _ kept => kept⟩

end Tree

theorem Arena.Replaces.proper {a b : Arena} {above : List Frame} {t t' : Tree} {x : Iteration}
    (replaces : a.Replaces b above t t') (below : t.Proper x → t'.Proper x)
    (proper : a.tree.Proper x) : b.tree.Proper x := by
  refine replaces.graft.proper ?_ ?_ below proper
  · rw [Tree.accepts_of_isBand replaces.isBand, Tree.accepts_of_isBand replaces.isBand']
  · rw [Tree.admits_of_isBand replaces.isBand, Tree.admits_of_isBand replaces.isBand']

end LoopNest
