import LoopNest.Optimizer.Basic
import LoopNest.Proofs.Strip

/-! The optimizer keeps every node but the innermost bands whose loops may be exchanged. Such a band
becomes a stack of bands: its loops are reordered or tiled, and one loop may be made a vector loop.
-/

namespace LoopNest

def Action.vectorizes : Action → Bool
  | .standard _ (some _) _ => true
  | _ => false

def Decision.vectorizes (decision : Decision) : Bool := decision.action.vectorizes

namespace Tree

/-- A band has been reordered and tiled, and a coincident loop of the last points may have been made
a vector loop, which the flag tells. -/
inductive Reshaped (domains : StmtMap Polyhedron) : List NodeKind → Bool → Tree → Tree → Prop where
  | same {above : List NodeKind} {t : Tree} : Reshaped domains above false t t
  | permute {above : List NodeKind} {vector : Bool} {id arity : Nat} {band permuted : Band}
    {positions : List Nat} {child : Fin arity → Tree} {t' : Tree}
    (permutes : band.Permuted positions permuted)
    (rest : Reshaped domains above vector (.node id (.band permuted) arity child) t') :
    Reshaped domains above vector (.node id (.band band) arity child) t'
  | tile {above : List NodeKind} {vector : Bool} {id position arity : Nat} {sizes : List Int}
    {band tiles points : Band} {child : Fin arity → Tree} {t' : Tree}
    (tiled : band.Tiled sizes tiles points)
    (rest : Reshaped domains (above ++ [.band tiles]) vector
      (.node position (.band points) arity child) t') :
    Reshaped domains above vector (.node id (.band band) arity child)
      (.node id (.band tiles) 1 fun _ => t')
  | vectorize {above : List NodeKind} {id own member arity : Nat} {width : Int} {band : Band}
    {child : Fin arity → Tree} {t' : Tree}
    (coincident : ∀ m, band.members[member]? = some m → m.coincident = true)
    (vectorized : Vectorized domains width own member above
      (.node id (.band band) arity child) t') :
    Reshaped domains above true (.node id (.band band) arity child) t'

/-- A tree has been optimized, with the given decisions. -/
inductive Rewritten (domains : StmtMap Polyhedron) :
    List NodeKind → Tree → Tree → List Decision → Prop where
  | keep {above : List NodeKind} {id arity : Nat} {kind : NodeKind}
    {child child' : Fin arity → Tree} {below : Fin arity → List Decision} (own : List Decision)
    (children : ∀ i, Rewritten domains (above ++ [kind]) (child i) (child' i) (below i))
    (kept : ∀ d ∈ own, (∃ band, kind = .band band) ∧ d.vectorizes = false) :
    Rewritten domains above (.node id kind arity child) (.node id kind arity child')
      ((List.finRange arity).flatMap below ++ own)
  | reshape {above : List NodeKind} {id arity : Nat} {vector : Bool} {band : Band}
    {child : Fin arity → Tree} {t' : Tree} {decision : Decision}
    (permutable : band.isPermutable = true) (bandless : ∀ i, (child i).Bandless)
    (reshaped : Reshaped domains above vector (.node id (.band band) arity child) t')
    (here : decision.node = id) (flag : decision.vectorizes = vector) :
    Rewritten domains above (.node id (.band band) arity child) t' [decision]

section Tops

variable {domains : StmtMap Polyhedron} {above : List NodeKind} {vector : Bool} {t t' : Tree}
  {decisions : List Decision} {x : Iteration}

theorem Reshaped.admits (reshaped : Reshaped domains above vector t t') :
    t'.admits x = t.admits x := by
  induction reshaped with
  | same => rfl
  | permute permutes rest ih => exact ih
  | tile tiled rest ih => rfl
  | vectorize coincident vectorized => cases vectorized <;> rfl

theorem Reshaped.accepts (reshaped : Reshaped domains above vector t t') :
    t'.accepts x.stmt x.point x.params = t.accepts x.stmt x.point x.params := by
  induction reshaped with
  | same => rfl
  | permute permutes rest ih => exact ih
  | tile tiled rest ih => rfl
  | vectorize coincident vectorized => cases vectorized <;> rfl

theorem Rewritten.admits (rewritten : Rewritten domains above t t' decisions) :
    t'.admits x = t.admits x := by
  cases rewritten with
  | @keep _ _ _ kind => cases kind <;> rfl
  | reshape permutable bandless reshaped here flag => exact reshaped.admits

theorem Rewritten.accepts (rewritten : Rewritten domains above t t' decisions) :
    t'.accepts x.stmt x.point x.params = t.accepts x.stmt x.point x.params := by
  cases rewritten with
  | @keep _ _ _ kind => cases kind <;> rfl
  | reshape permutable bandless reshaped here flag => exact reshaped.accepts

end Tops

/-- What replaces a band starts with a band. -/
theorem Reshaped.bandless {domains : StmtMap Polyhedron} {above : List NodeKind} {vector : Bool}
    {t t' : Tree} (reshaped : Reshaped domains above vector t t') (bandless : t'.Bandless) :
    t.Bandless := by
  induction reshaped with
  | same => exact bandless
  | permute permutes rest ih => exact ((ih bandless).1 _ rfl).elim
  | tile tiled rest ih => exact (bandless.1 _ rfl).elim
  | vectorize coincident vectorized =>
    cases vectorized with
    | first | later => exact (bandless.1 _ rfl).elim

/-- A tree that has no band after it has been optimized is the tree as it was. -/
theorem Rewritten.of_bandless {domains : StmtMap Polyhedron} {above : List NodeKind} {t t' : Tree}
    {decisions : List Decision} (rewritten : Rewritten domains above t t' decisions)
    (bandless : t'.Bandless) : t' = t ∧ decisions = [] := by
  induction rewritten with
  | @keep above id arity kind child child' below own children kept ih =>
    have same := fun i => ih i (bandless.2 i)
    have none : own = [] := by
      cases own with
      | nil => rfl
      | cons d rest =>
        obtain ⟨⟨band, rfl⟩, -⟩ := kept d (by simp)
        exact (bandless.1 band rfl).elim
    constructor
    · congr 1
      exact funext fun i => (same i).1
    · simp [none, fun i => (same i).2]
  | reshape permutable _ reshaped here flag => exact ((reshaped.bandless bandless).1 _ rfl).elim

theorem Rewritten.refl {a : Arena} {domains : StmtMap Polyhedron} {t : Tree} (stored : t.Stored a)
    (above : List NodeKind) : Rewritten domains above t t [] := by
  induction t generalizing above with
  | missing => exact stored.elim
  | node id kind arity child ih =>
    have none : (List.finRange arity).flatMap (fun _ => ([] : List Decision)) ++ [] = [] := by
      simp [List.flatMap_eq_nil_iff]
    rw [← none]
    exact .keep [] (fun i => ih i (stored.2 i) (above ++ [kind])) (by simp)

end Tree

/-! ## The optimizer rewrites trees -/

namespace Optimizer

variable {a b m : Arena} {above : List Frame} {domains : StmtMap Polyhedron}
  {root id arity points : Nat} {band : Band} {child : Fin arity → Tree}

abbrev kindsAbove (domains : StmtMap Polyhedron) (above : List Frame) : List NodeKind :=
  .domain domains :: above.map (·.2)

/-- Whatever is done with the last points of some tiling stages, the stages and this together
reshape the band. -/
theorem applyStages_reshapes {stages : List TilingStage}
    (located : a.Locates ((root, .domain domains) :: above) (.node id (.band band) arity child))
    (arities : band.HasArity) (does : (applyStages stages id).Does a points m) :
    ∃ frames last, m.Locates ((root, .domain domains) :: (above ++ frames))
        (.node points (.band last) arity child) ∧ last.HasArity ∧
      ∀ b t' vector, m.Reworks b (.node points (.band last) arity child) t' →
        Tree.Reshaped domains (kindsAbove domains (above ++ frames)) vector
          (.node points (.band last) arity child) t' →
        ∃ t'', a.Reworks b (.node id (.band band) arity child) t'' ∧
          Tree.Reshaped domains (kindsAbove domains above) vector
            (.node id (.band band) arity child) t'' := by
  induction stages generalizing a above id band with
  | nil =>
    obtain ⟨rfl, rfl⟩ := Edit.does_pure.mp does
    refine ⟨[], band, by simpa using located, arities, fun b t' vector reworks reshaped => ?_⟩
    exact ⟨t', reworks, by simpa using reshaped⟩
  | cons stage rest ih =>
    simp only [applyStages, Edit.does_bind] at does
    obtain ⟨p, a', applied, later⟩ := does
    obtain ⟨sizes, tiles, pointBand, tiled, first⟩ := Edit.apply_tiles located.holds arities applied
    obtain ⟨frames, last, locatedLast, aritiesLast, continued⟩ :=
      ih ((located.rework first).child 0) (tiled.hasArity arities).2 later
    refine ⟨(id, .band tiles) :: frames, last, by simpa using locatedLast, aritiesLast,
      fun b t' vector reworks reshaped => ?_⟩
    obtain ⟨t'', reworks', reshaped'⟩ := continued b t' vector reworks (by simpa using reshaped)
    exact ⟨_, first.trans (.only first.holds reworks'), .tile tiled
      (by simpa [kindsAbove] using reshaped')⟩

theorem coincident_of_innermost {band : Band} {member : Nat}
    (h : innermostCoincident? band = some member) (m : Member)
    (found : band.members[member]? = some m) : m.coincident = true := by
  obtain ⟨⟨own, position⟩, first, rfl⟩ := Option.map_eq_some_iff.mp h
  have flagged := List.find?_some first
  have inside := List.mem_zipIdx_iff_getElem?.mp (List.mem_reverse.mp
    (List.mem_of_find?_eq_some first))
  obtain rfl : own = m := by simpa [inside] using found
  exact flagged

theorem standardBand_reshapes {o : Optimizer} {action : Action}
    (located : a.Locates ((root, .domain domains) :: above) (.node id (.band band) arity child))
    (arities : band.HasArity) (does : (o.standardBand id).Does a action b) :
    ∃ t', a.Reworks b (.node id (.band band) arity child) t' ∧
      Tree.Reshaped domains (kindsAbove domains above) action.vectorizes
        (.node id (.band band) arity child) t' := by
  simp only [standardBand, Edit.does_bind, Edit.does_get] at does
  obtain ⟨points, m, stages, _, _, ⟨rfl, rfl⟩, does⟩ := does
  obtain ⟨frames, last, locatedLast, aritiesLast, continued⟩ :=
    applyStages_reshapes located arities stages
  split at does
  · rename_i member chosen
    simp only [Edit.does_bind, Edit.does_pure] at does
    obtain ⟨own, _, vectorize, rfl, rfl⟩ := does
    obtain ⟨-, -, t', reworks, vectorized⟩ :=
      Edit.prevectorize_reworks locatedLast aritiesLast vectorize
    have innermost : innermostCoincident? last = some member := by
      split at chosen
      · simpa [locatedLast.holds.band?_eq] using chosen
      · cases chosen
    exact continued _ t' true reworks (.vectorize (coincident_of_innermost innermost) vectorized)
  · obtain ⟨rfl, rfl⟩ := Edit.does_pure.mp does
    exact continued m _ false (.refl locatedLast.holds) .same

theorem blockMatMul_reshapes {scop : Scop} {target : Option Target} {r : Nat}
    (located : a.Locates ((root, .domain domains) :: above) (.node id (.band band) arity child))
    (arities : band.HasArity) (does : (Edit.blockMatMul scop target id).Does a r b) :
    ∃ t', a.Reworks b (.node id (.band band) arity child) t' ∧
      Tree.Reshaped domains (kindsAbove domains above) false
        (.node id (.band band) arity child) t' := by
  obtain ⟨shape, micro, blocks, blocked⟩ := Edit.blockMatMul_blocked located.holds arities does
  obtain ⟨permuted, upper, rest, middle, inner, below, permutes, tiled, tiled', -, reworks⟩ :=
    blocked.stacked
  exact ⟨_, reworks, .permute permutes (.tile tiled (.tile tiled' .same))⟩

/-- What is done with a band: it stays, or it is blocked or tiled. -/
inductive Acts (o : Optimizer) (id : Nat) (a : Arena) : Action → Arena → Prop where
  | notTileable (fixed : a.isTileable id = false) : Acts o id a .notTileable a
  | singleMember (tileable : a.isTileable id = true) : Acts o id a .singleMember a
  | matMul {shape : MatMulShape} {micro : MicroKernel} {blocks : MacroKernel} {r : Nat} {b : Arena}
    (tileable : a.isTileable id = true)
    (blocked : (Edit.blockMatMul o.scop o.target id).Does a r b) :
    Acts o id a (.matMul shape micro blocks) b
  | standard {action : Action} {b : Arena} (tileable : a.isTileable id = true)
    (tiled : (o.standardBand id).Does a action b) : Acts o id a action b

theorem acts_of_bandAction {o : Optimizer} {action : Action}
    (does : (o.bandAction id).Does a action b) : o.Acts id a action b := by
  simp only [bandAction, Edit.does_bind, Edit.does_get] at does
  obtain ⟨_, _, ⟨rfl, rfl⟩, does⟩ := does
  split at does
  · rename_i fixed
    obtain ⟨rfl, rfl⟩ := Edit.does_pure.mp does
    exact .notTileable (by simpa using fixed)
  · rename_i tileable
    have tileable : a.isTileable id = true := by simpa using tileable
    have unshaped (does : (if (a.band? id).all (·.nMembers ≤ 1) then pure .singleMember
        else o.standardBand id : Edit Action).Does a action b) : o.Acts id a action b := by
      split at does
      · obtain ⟨rfl, rfl⟩ := Edit.does_pure.mp does
        exact .singleMember tileable
      · exact .standard tileable does
    split at does
    · simp only [Edit.does_bind, Edit.does_lift] at does
      obtain ⟨shape?, _, ⟨-, rfl⟩, does⟩ := does
      cases shape? with
      | none => exact unshaped does
      | some shape =>
        simp only [Edit.does_bind, Edit.does_lift, Edit.does_pure] at does
        obtain ⟨micro, _, ⟨-, rfl⟩, blocks, _, ⟨-, rfl⟩, r, _, blocked, rfl, rfl⟩ := does
        exact .matMul tileable blocked
    · simp only [Edit.does_bind, Edit.does_pure] at does
      obtain ⟨_, _, ⟨rfl, rfl⟩, does⟩ := does
      exact unshaped does

/-- A band is kept, or it is an innermost band that is reshaped. -/
theorem bandAction_cases {o : Optimizer} {action : Action}
    (located : a.Locates ((root, .domain domains) :: above) (.node id (.band band) arity child))
    (arities : band.HasArity) (does : (o.bandAction id).Does a action b) :
    a = b ∧ action.vectorizes = false ∨ a.isTileable id = true ∧
      ∃ t', a.Reworks b (.node id (.band band) arity child) t' ∧
        Tree.Reshaped domains (kindsAbove domains above) action.vectorizes
          (.node id (.band band) arity child) t' := by
  cases acts_of_bandAction does with
  | notTileable => exact .inl ⟨rfl, rfl⟩
  | singleMember => exact .inl ⟨rfl, rfl⟩
  | matMul tileable blocked => exact .inr ⟨tileable, blockMatMul_reshapes located arities blocked⟩
  | standard tileable tiled => exact .inr ⟨tileable, standardBand_reshapes located arities tiled⟩

theorem innermost_of_isTileable (holds : a.Holds (.node id (.band band) arity child))
    (tileable : a.isTileable id = true) :
    band.isPermutable = true ∧ ∀ i, (child i).Bandless := by
  have own := holds.band?_eq
  simp only [Arena.isTileable, own, Bool.and_eq_true, Bool.not_eq_true'] at tileable
  exact ⟨tileable.1, holds.hasBandBelow.mp tileable.2⟩

theorem exists_ofFn_of_forall₂ {α : Type} {n : Nat} {R : Fin n → α → Prop} {rs : List α}
    (h : List.Forall₂ R (List.finRange n) rs) : ∃ f, rs = List.ofFn f ∧ ∀ i, R i (f i) := by
  obtain ⟨length, each⟩ := List.forall₂_iff_get.mp h
  rw [List.length_finRange] at length
  subst length
  refine ⟨rs.get, (List.ofFn_get rs).symm, fun i => ?_⟩
  simpa using each i.val (by simp) i.isLt

/-- The children of a node are optimized one after the other. -/
theorem children_reworks {o : Optimizer} {levels : Nat} {frames : List Frame} {kind : NodeKind}
    {R : Fin arity → List Decision → Tree → Prop} {rs : List (List Decision)}
    (each : ∀ i a b ds, a.Locates (frames ++ [(id, kind)]) (child i) →
      (o.optimizeLevels levels (child i).top).Does a ds b →
      ∃ c, a.Reworks b (child i) c ∧ R i ds c)
    (located : a.Locates frames (.node id kind arity child))
    (does : ((a.children id).mapM (o.optimizeLevels levels)).Does a rs b) :
    ∃ after below, a.Reworks b (.node id kind arity child) (.node id kind arity after) ∧
      (∀ i, R i (below i) (after i)) ∧ rs.flatten = (List.finRange arity).flatMap below := by
  rw [Arena.children_eq located.holds.stored.1, List.ofFn_eq_map] at does
  obtain ⟨after, reworks, results, -⟩ := (Edit.steps_of_mapM does).rework
    (fun i a b ds located does => each i a b ds located does) located (List.nodup_finRange arity)
    fun _ _ => rfl
  obtain ⟨below, rfl, rewritten⟩ := exists_ofFn_of_forall₂ results
  refine ⟨after, below, reworks, rewritten, ?_⟩
  rw [List.ofFn_eq_map, List.flatMap_def]

theorem children_rewrites {o : Optimizer} {levels : Nat} {frames : List Frame} {kind : NodeKind}
    {above : List NodeKind} {rs : List (List Decision)}
    (each : ∀ i a b ds, a.Locates (frames ++ [(id, kind)]) (child i) →
      (o.optimizeLevels levels (child i).top).Does a ds b →
      ∃ c, a.Reworks b (child i) c ∧ Tree.Rewritten domains above (child i) c ds)
    (located : a.Locates frames (.node id kind arity child))
    (does : ((a.children id).mapM (o.optimizeLevels levels)).Does a rs b) :
    ∃ after below, a.Reworks b (.node id kind arity child) (.node id kind arity after) ∧
      (∀ i, Tree.Rewritten domains above (child i) (after i) (below i)) ∧
      rs.flatten = (List.finRange arity).flatMap below :=
  children_reworks each located does

theorem optimizeLevels_rewrites {o : Optimizer} {levels : Nat} {t : Tree} {ds : List Decision}
    (located : a.Locates ((root, .domain domains) :: above) t)
    (arities : t.EveryBand Band.HasArity) (does : (o.optimizeLevels levels t.top).Does a ds b) :
    ∃ t', a.Reworks b t t' ∧ Tree.Rewritten domains (kindsAbove domains above) t t' ds := by
  induction levels generalizing a b above t ds with
  | zero =>
    obtain ⟨rfl, rfl⟩ := Edit.does_pure.mp does
    exact ⟨t, .refl located.holds, .refl located.holds.stored _⟩
  | succ levels ih =>
    cases t with
    | missing => exact located.holds.stored.elim
    | node id kind arity child =>
      simp only [optimizeLevels, Edit.does_bind, Edit.does_get, Tree.top_node] at does
      obtain ⟨_, _, ⟨rfl, rfl⟩, rs, m, mapped, _, _, ⟨rfl, rfl⟩, does⟩ := does
      obtain ⟨after, below, first, rewritten, flat⟩ := children_rewrites
        (fun i a b ds located does => by
          simpa [kindsAbove] using ih located (arities.2 i) does) located mapped
      by_cases isBand : ∃ band, kind = .band band
      · obtain ⟨band, rfl⟩ := isBand
        simp only [first.holds.band?_eq, bandDecision, Edit.does_bind, Edit.does_get,
          Edit.does_pure] at does
        obtain ⟨_, _, ⟨_, _, ⟨rfl, rfl⟩, action, _, acts, rfl, rfl⟩, rfl, rfl⟩ := does
        rcases bandAction_cases (located.rework first) (arities.1 band rfl) acts with
          ⟨rfl, none⟩ | ⟨tileable, t', second, reshaped⟩
        · rw [flat]
          exact ⟨_, first, .keep _ rewritten (by simp [Decision.vectorizes, none])⟩
        · obtain ⟨permutable, bandless⟩ := innermost_of_isTileable first.holds tileable
          have same := fun i => (rewritten i).of_bandless (bandless i)
          obtain rfl : after = child := funext fun i => (same i).1
          have none : rs.flatten = [] := by simp [flat, fun i => (same i).2]
          rw [none, List.nil_append]
          exact ⟨t', first.trans second, .reshape permutable bandless reshaped rfl rfl⟩
      · simp only [first.holds.band?_eq_none isBand, Edit.does_pure] at does
        obtain ⟨rfl, rfl⟩ := does
        rw [flat, ← List.append_nil ((List.finRange arity).flatMap below)]
        exact ⟨_, first, .keep [] rewritten (by simp)⟩

end Optimizer

end LoopNest
