import LoopNest.Proofs.Inherited
import LoopNest.Proofs.Optimized

/-! The optimizer decides on every band of the tree that it is given, and on no other: bands that it
has made itself are not looked at. By the time a band is looked at, what lies below it may have been
rewritten; what lies above it has not, and below it there is a band exactly if there was one before.
-/

namespace LoopNest

def Tree.postorder : Tree → List Nat
  | missing _ => []
  | node id _ arity child => (List.finRange arity).flatMap (fun i => (child i).postorder) ++ [id]

theorem Tree.postorder_perm (t : Tree) : t.postorder.Perm t.ids := by
  induction t with
  | missing => exact .refl _
  | node id kind arity child ih =>
    have below := List.Perm.flatMap_left (List.finRange arity) fun i _ => ih i
    exact (below.append_right [id]).trans List.perm_append_comm

/-- A decision tells of a band as it is in an arena: how many loops it has, which statements may
come to it, and whether it is an innermost band whose loops may be exchanged. -/
def Decision.Reports (a : Arena) (decision : Decision) : Prop :=
  ∃ band, a.band? decision.node = some band ∧ decision.members = band.nMembers ∧
    decision.statements = (a.reaching decision.node).keys ∧
    (decision.action = .notTileable ↔ band.members = [] ∨
      (∃ member ∈ band.members, member.permutable = false) ∨
      a.hasBandBelow decision.node = true)

namespace Arena

variable {a b : Arena} {above : List Frame} {id arity arity' : Nat} {kind : NodeKind}
  {child : Fin arity → Tree} {child' : Fin arity' → Tree}

theorem Locates.kind?_root (located : a.Locates above (.node id kind arity child)) :
    a.kind? a.root = (above.map (·.2) ++ [kind]).head? := by
  obtain ⟨whole, root, holds, under⟩ := located
  rw [root]
  cases under with
  | here => exact kind?_eq holds.stored.1
  | inside i under => exact kind?_eq holds.stored.1

/-- Nodes on the way to a tree are the same in arenas that have it in the same place. -/
theorem Locates.lets_eq (first : a.Locates above (.node id kind arity child))
    (second : b.Locates above (.node id kind arity' child')) (stmt : Nat) {other : Nat}
    (member : other ∈ above.map (·.1) ++ [id]) : b.lets stmt other = a.lets stmt other := by
  rcases List.mem_append.mp member with inside | own
  · obtain ⟨frame, isAbove, rfl⟩ := List.mem_map.mp inside
    obtain ⟨children, here⟩ := first.node? frame isAbove
    obtain ⟨children', here'⟩ := second.node? frame isAbove
    rw [Arena.lets_eq here, Arena.lets_eq here']
  · obtain rfl := List.mem_singleton.mp own
    rw [Arena.lets_eq first.holds.stored.1, Arena.lets_eq second.holds.stored.1]

/-- What is done below a node does not change which statements may come to it. -/
theorem Locates.reaching_eq (first : a.Locates above (.node id kind arity child))
    (second : b.Locates above (.node id kind arity' child')) : b.reaching id = a.reaching id := by
  have domains : b.domains? = a.domains? := by
    rw [Arena.domains?, Arena.domains?, first.kind?_root, second.kind?_root]
  have path := first.pathTo?
  have path' := second.pathTo?
  rw [Tree.top_node] at path path'
  rw [Arena.reaching, Arena.reaching, domains, path, path']
  cases a.domains? with
  | none => rfl
  | some domains =>
    refine congrArg (StmtMap.filter · _) (funext fun stmt => ?_)
    rw [Bool.eq_iff_iff, Option.getD_some, List.all_eq_true, List.all_eq_true]
    exact forall₂_congr fun other member => by rw [first.lets_eq second stmt member]

/-- A band is not tileable if it has no loops, a loop that must stay, or a band below it. -/
theorem isTileable_eq_false_iff {band : Band} (own : a.band? id = some band) :
    a.isTileable id = false ↔ band.members = [] ∨
      (∃ member ∈ band.members, member.permutable = false) ∨ a.hasBandBelow id = true := by
  simp only [isTileable, own, Band.isPermutable, Bool.and_eq_false_iff, Bool.not_eq_false',
    List.isEmpty_iff, List.all_eq_false, Bool.not_eq_true, or_assoc]

end Arena

namespace Optimizer

variable {P : Band → Prop} {o : Optimizer} {origin a b m : Arena} {above : List Frame}
  {id arity : Nat} {band : Band} {child after : Fin arity → Tree} {ds : List Decision}

/-- A tree has become another. Its bands have been decided on in post-order; each decision reports
what was there at the start. There is a band exactly if there was one. -/
structure Surveys (P : Band → Prop) (origin : Arena) (t t' : Tree) (ds : List Decision) : Prop where
  bands : t'.EveryBand P
  bandless : t'.Bandless ↔ t.Bandless
  nodes : ds.map (·.node) = t.postorder.filter fun id => (origin.band? id).isSome
  reports : ∀ d ∈ ds, d.Reports origin

/-- What has been rewritten below a band does not change whether it is tileable. -/
theorem isTileable_eq (original : origin.Holds (.node id (.band band) arity child))
    (holds : a.Holds (.node id (.band band) arity after))
    (bandless : ∀ i, (after i).Bandless ↔ (child i).Bandless) :
    a.isTileable id = origin.isTileable id := by
  have below : a.hasBandBelow id = origin.hasBandBelow id := by
    rw [← Bool.not_inj_iff, Bool.eq_iff_iff, Bool.not_eq_true', Bool.not_eq_true',
      holds.hasBandBelow, original.hasBandBelow]
    exact forall_congr' bandless
  rw [Arena.isTileable, Arena.isTileable, holds.band?_eq, original.band?_eq, below]

/-- Once the bands below it have been looked at, a band is decided on. -/
theorem bandDecision_reports {d : Decision} (inherited : Band.Inherited P)
    (original : origin.Locates above (.node id (.band band) arity child))
    (located : a.Locates above (.node id (.band band) arity after))
    (bandless : ∀ i, (after i).Bandless ↔ (child i).Bandless)
    (bands : (Tree.node id (.band band) arity after).EveryBand P)
    (does : (o.bandDecision id band).Does a d b) :
    d.node = id ∧ d.Reports origin ∧ a.Rebands P b (.node id (.band band) arity after) := by
  simp only [bandDecision, Edit.does_bind, Edit.does_get, Edit.does_pure] at does
  obtain ⟨_, _, ⟨rfl, rfl⟩, action, _, acts, rfl, rfl⟩ := does
  obtain ⟨rebands, tileable⟩ := bandAction_inherits inherited located bands acts
  have own := original.holds.band?_eq
  refine ⟨rfl, ⟨band, own, rfl, ?_, ?_⟩, rebands⟩
  · rw [original.reaching_eq located]
  · rw [tileable, ← Arena.isTileable_eq_false_iff own,
      isTileable_eq original.holds located.holds bandless]

theorem filter_postorder (id : Nat) (kind : NodeKind) (child : Fin arity → Tree) (p : Nat → Bool) :
    (Tree.node id kind arity child).postorder.filter p =
      (List.finRange arity).flatMap (fun i => (child i).postorder.filter p) ++ [id].filter p := by
  rw [Tree.postorder, List.filter_append, List.filter_flatMap]

/-- The decisions of the children, followed by one on the node if it is a band. -/
theorem surveys_node {kind : NodeKind} {below : Fin arity → List Decision} {own : List Decision}
    {t' : Tree}
    (children : ∀ i, Surveys P origin (child i) (after i) (below i))
    (bands : t'.EveryBand P) (bandless : t'.Bandless ↔ (Tree.node id kind arity child).Bandless)
    (node : own.map (·.node) = [id].filter fun id => (origin.band? id).isSome)
    (reports : ∀ d ∈ own, d.Reports origin) :
    Surveys P origin (.node id kind arity child) t'
      ((List.finRange arity).flatMap below ++ own) := by
  refine ⟨bands, bandless, ?_, fun d member => ?_⟩
  · rw [filter_postorder, List.map_append, List.map_flatMap, node]
    simp only [(children _).nodes]
  · rcases List.mem_append.mp member with inside | inside
    · obtain ⟨i, -, inside⟩ := List.mem_flatMap.mp inside
      exact (children i).reports d inside
    · exact reports d inside

theorem optimizeLevels_surveys {levels : Nat} {t : Tree} (inherited : Band.Inherited P)
    (original : origin.Locates above t) (located : a.Locates above t) (bands : t.EveryBand P)
    (enough : t.ids.length ≤ levels) (does : (o.optimizeLevels levels t.top).Does a ds b) :
    ∃ t', a.Reworks b t t' ∧ Surveys P origin t t' ds := by
  induction levels generalizing a b above t ds with
  | zero =>
    have := List.length_pos_of_mem located.holds.stored.top_mem
    omega
  | succ levels ih =>
    cases t with
    | missing => exact located.holds.stored.elim
    | node id kind arity child =>
      simp only [optimizeLevels, Edit.does_bind, Edit.does_get, Tree.top_node] at does
      obtain ⟨_, _, ⟨rfl, rfl⟩, rs, m, mapped, _, _, ⟨rfl, rfl⟩, does⟩ := does
      have fits : ∀ i, (child i).ids.length ≤ levels := by
        intro i
        have := @Tree.length_ids_child id _ kind child i
        omega
      obtain ⟨after, below, first, surveyed, flat⟩ := children_reworks
        (fun i a b ds located does => ih (original.child i) located (bands.2 i) (fits i) does)
        located mapped
      by_cases isBand : ∃ band, kind = .band band
      · obtain ⟨band, rfl⟩ := isBand
        simp only [first.holds.band?_eq, Edit.does_bind, Edit.does_pure] at does
        obtain ⟨d, _, decides, rfl, rfl⟩ := does
        obtain ⟨here, reports, band', n, child', second, bandsAfter⟩ :=
          bandDecision_reports inherited original (located.rework first)
            (fun i => (surveyed i).bandless)
            (Tree.everyBand_band.mpr ⟨bands.1 band rfl, fun i => (surveyed i).bands⟩) decides
        rw [flat]
        refine ⟨_, first.trans second, surveys_node surveyed bandsAfter ?_ ?_ ?_⟩
        · exact iff_of_false Tree.not_bandless_band Tree.not_bandless_band
        · simp [original.holds.band?_eq, here]
        · simpa using reports
      · have none := original.holds.band?_eq_none isBand
        have noBand : ∀ {Q : Band → Prop} band, kind = .band band → Q band :=
          fun band same => (isBand ⟨band, same⟩).elim
        simp only [first.holds.band?_eq_none isBand, Edit.does_pure] at does
        obtain ⟨rfl, rfl⟩ := does
        rw [flat, ← List.append_nil ((List.finRange arity).flatMap below)]
        refine ⟨_, first, surveys_node surveyed ⟨noBand, fun i => (surveyed i).bands⟩ ?_ ?_ ?_⟩
        · exact and_congr Iff.rfl (forall_congr' fun i => (surveyed i).bandless)
        · simp [none]
        · simp

theorem optimizeNode_surveys (inherited : Band.Inherited P) (holds : a.Holds a.tree)
    (top : a.tree.top = a.root) (bands : a.tree.EveryBand P)
    (does : (o.optimizeNode a.root).Does a ds b) :
    ∃ t', a.Reworks b a.tree t' ∧ Surveys P a a.tree t' ds := by
  simp only [optimizeNode, Edit.does_bind, Edit.does_get] at does
  obtain ⟨_, _, ⟨rfl, rfl⟩, does⟩ := does
  have located : a.Locates [] a.tree := ⟨a.tree, top.symm, holds, .here _⟩
  have enough : a.tree.ids.length ≤ a.descentLimit :=
    holds.length_ids_le.trans (Nat.le_add_right _ _)
  rw [← top] at does
  exact optimizeLevels_surveys inherited located located bands enough does

/-- The optimized arena is a compact copy of the tree that has been surveyed. -/
theorem optimizeSchedule_surveys (inherited : Band.Inherited P) (holds : a.Holds a.tree)
    (top : a.tree.top = a.root) (bands : a.tree.EveryBand P) (tiling : o.config.enableTiling = true)
    (does : o.optimizeSchedule.Does a ds b) :
    ∃ t' copy, Surveys P a a.tree t' ds ∧ t'.Alike copy ∧ b.Roots copy := by
  simp only [optimizeSchedule, if_pos tiling, Edit.compact, Edit.does_bind, Edit.does_get,
    Edit.does_lift, Edit.does_pure] at does
  obtain ⟨_, _, ⟨rfl, rfl⟩, _, m, optimized, _, _, ⟨_, _, ⟨rfl, rfl⟩, b', _, ⟨compacted, rfl⟩,
    last⟩, rfl, rfl⟩ := does
  cases last
  obtain ⟨t', reworks, surveyed⟩ := optimizeNode_surveys inherited holds top bands optimized
  have root : m.root = t'.top := by rw [reworks.root, reworks.top, top]
  obtain ⟨copy, holdsCopy, rootCopy, alike⟩ := Arena.holds_of_compact reworks.holds root compacted
  exact ⟨t', copy, surveyed, alike, holdsCopy, rootCopy⟩

theorem everyBand_of_bands (wellFormed : a.isWellFormed = true)
    (each : ∀ id ∈ a.bands, ∀ band, a.band? id = some band → P band) : a.tree.EveryBand P := by
  obtain ⟨holds, top⟩ := Arena.holds_tree wellFormed
  refine holds.everyBand fun id member band own => each id ?_ band own
  exact (Arena.mem_bands holds top.symm).mpr ⟨member, by simp [own]⟩

/-- The decisions are one for each band of the tree that is optimized, in post-order, and each
reports what its band was in that tree. -/
theorem optimizeSchedule_decides (wellFormed : a.isWellFormed = true)
    (arities : ∀ id ∈ a.bands, ∀ band, a.band? id = some band → band.HasArity)
    (tiling : o.config.enableTiling = true)
    (succeeds : o.optimizeSchedule.commit a = .ok (.ok (ds, b))) :
    ds.map (·.node) = a.tree.postorder.filter (fun id => (a.band? id).isSome) ∧
      (ds.map (·.node)).Nodup ∧ (ds.map (·.node)).Perm a.bands ∧ ∀ d ∈ ds, d.Reports a := by
  obtain ⟨holds, top⟩ := Arena.holds_tree wellFormed
  obtain ⟨_, _, surveyed, -, -⟩ := optimizeSchedule_surveys Band.HasArity.inherited holds top
    (everyBand_of_bands wellFormed arities) tiling (Edit.commit_eq_ok.mp succeeds)
  have perm : (ds.map (·.node)).Perm a.bands := by
    have subtree := holds.subtree_eq
    rw [top] at subtree
    rw [surveyed.nodes, Arena.bands, subtree]
    exact a.tree.postorder_perm.filter _
  refine ⟨surveyed.nodes, perm.nodup_iff.mpr ?_, perm, surveyed.reports⟩
  have subtree := holds.subtree_eq
  rw [top] at subtree
  rw [Arena.bands, subtree]
  exact holds.distinct.filter _

/-- Two statements with the instances of the grid. The first has a band of two loops to itself; the
second has one loop above a band of two. -/
def twoNests : Arena :=
  let domains : StmtMap Polyhedron := .ofList [(0, Scop.gridDomain), (1, Scop.gridDomain)]
  ⟨#[⟨.domain domains, [1]⟩, ⟨.sequence, [2, 5]⟩, ⟨.filter (.statements (.ofList [0])), [3]⟩,
    ⟨.band (.identity domains [⟨true, true⟩, ⟨true, true⟩]), [4]⟩, ⟨.leaf, []⟩,
    ⟨.filter (.statements (.ofList [1])), [6]⟩, ⟨.band (.identity domains [⟨true, true⟩]), [7]⟩,
    ⟨.band (.identity domains [⟨true, true⟩, ⟨true, true⟩]), [8]⟩, ⟨.leaf, []⟩], 0⟩

theorem twoNests_decides : ∃ ds b,
    (optimizeSchedule ⟨Scop.grid, .standard, none⟩).commit twoNests = .ok (.ok (ds, b)) ∧
    ds.map (fun d => (d.node, d.members, d.statements, decide (d.action = .notTileable))) =
      [(3, 2, [0], false), (7, 2, [1], false), (6, 1, [1], true)] ∧
    ds.map (·.node) = twoNests.tree.postorder.filter (fun id => (twoNests.band? id).isSome) ∧
      (ds.map (·.node)).Nodup ∧ (ds.map (·.node)).Perm twoNests.bands ∧
      ∀ d ∈ ds, d.Reports twoNests := by
  obtain ⟨⟨ds, b⟩, committed, table⟩ := exists_ok_of_any (α := List Decision × Arena)
    (p := fun r => decide (r.1.map (fun d =>
      (d.node, d.members, d.statements, decide (d.action = .notTileable))) =
        [(3, 2, [0], false), (7, 2, [1], false), (6, 1, [1], true)]))
    (show (((optimizeSchedule ⟨Scop.grid, .standard, none⟩).commit
      twoNests).toOption.bind Except.toOption).any _ = true by decide +kernel)
  exact ⟨ds, b, committed, of_decide_eq_true table,
    optimizeSchedule_decides (by decide +kernel) (by decide +kernel) rfl committed⟩

end Optimizer

end LoopNest
