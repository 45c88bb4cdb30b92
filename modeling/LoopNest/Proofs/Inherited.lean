import LoopNest.Proofs.Rewrite

/-! The optimizer makes bands of the bands that it finds: it splits, tiles, reorders and restricts
them and changes their marks. A property that each of these hands down holds for all bands
afterwards. Nothing is assumed of the root of the arena. What takes the place of a band starts with
a band. -/

namespace LoopNest

/-- A property of bands that is handed down to the bands that are made of a band. -/
structure Band.Inherited (P : Band → Prop) : Prop where
  arity {band : Band} : P band → band.HasArity
  remark {band band' : Band} : band'.members = band.members → band'.schedule = band.schedule →
    P band → P band'
  restrict {band : Band} (stmts : StmtSet) : P band → P (band.restrict stmts)
  split {band upper lower : Band} {count : Nat} : band.Split count upper lower → P band →
    P upper ∧ P lower
  tile {band tiles points : Band} {sizes : List Int} : band.Tiled sizes tiles points → P band →
    P tiles ∧ P points
  permute {band permuted : Band} {positions : List Nat} : band.Permuted positions permuted →
    P band → P permuted

theorem Band.HasArity.inherited : Inherited HasArity where
  arity arities := arities
  remark members schedule arities := by
    simpa only [HasArity, nMembers, members, schedule] using arities
  restrict stmts arities := by
    refine hasArity_iff.mpr fun stmt exprs found => ?_
    have own : _ = some exprs := (StmtMap.get?_filter _ _ _).symm.trans found
    split at own
    · exact hasArity_iff.mp arities stmt exprs own
    · cases own
  split := Split.hasArity
  tile := Tiled.hasArity
  permute := Permuted.hasArity

namespace Tree

variable {P : Band → Prop} {t t' : Tree}

theorem Alike.everyBand (inherited : Band.Inherited P) (alike : t.Alike t')
    (bands : t.EveryBand P) : t'.EveryBand P := by
  induction alike with
  | @node _ _ kind kind' _ _ _ kinds children ih =>
    refine ⟨?_, fun i => ih i (bands.2 i)⟩
    rintro band rfl
    cases kind with
    | band own =>
      simp only [NodeKind.plain, Band.ofSchedule, NodeKind.band.injEq, Band.mk.injEq] at kinds
      exact inherited.remark kinds.1.symm kinds.2.1.symm (bands.1 own rfl)
    | _ => simp [NodeKind.plain] at kinds

theorem Sunk.everyBand {band : Band} {stmts : StmtSet} (inherited : Band.Inherited P)
    (sunk : t.Sunk band stmts t') (own : P band) (bands : t.EveryBand P) : t'.EveryBand P := by
  induction sunk with
  | bare none => exact bands
  | leaf moved some =>
    refine ⟨?_, fun _ => bands⟩
    rintro _ ⟨⟩
    exact inherited.restrict _ own
  | filter children ih => exact ⟨bands.1, fun i => ih i (bands.2 i)⟩
  | inner notLeaf notFilter children ih => exact ⟨bands.1, fun i => ih i (bands.2 i)⟩

theorem everyBand_band {id arity : Nat} {band : Band} {child : Fin arity → Tree} :
    (node id (.band band) arity child).EveryBand P ↔ P band ∧ ∀ i, (child i).EveryBand P := by
  simp [EveryBand]

theorem everyBand_only {id : Nat} {kind : NodeKind} (other : ∀ band, kind ≠ .band band) :
    (node id kind 1 fun _ => t).EveryBand P ↔ t.EveryBand P := by
  simp [EveryBand, other]

theorem everyBand_sequence {id : Nat} {s : Tree} :
    (node id .sequence 2 ![s, t]).EveryBand P ↔ s.EveryBand P ∧ t.EveryBand P := by
  simp [EveryBand, Fin.forall_fin_two]

theorem not_bandless_band {id arity : Nat} {band : Band} {child : Fin arity → Tree} :
    ¬(node id (.band band) arity child).Bandless := fun bandless => bandless.1 band rfl

end Tree

/-- From one arena to another, a tree has become one that starts with a band and whose bands all
have a property. -/
def Arena.Rebands (P : Band → Prop) (a b : Arena) (t : Tree) : Prop :=
  ∃ band arity child, a.Reworks b t (.node t.top (.band band) arity child) ∧
    (Tree.node t.top (.band band) arity child).EveryBand P

namespace Arena.Rebands

variable {P : Band → Prop} {a b m : Arena} {t t' : Tree}

theorem refl {id arity : Nat} {band : Band} {child : Fin arity → Tree}
    (holds : a.Holds (.node id (.band band) arity child))
    (bands : (Tree.node id (.band band) arity child).EveryBand P) :
    a.Rebands P a (.node id (.band band) arity child) :=
  ⟨band, arity, child, .refl holds, bands⟩

/-- A band is put above a tree, and the tree is replaced. -/
theorem of_below {upper : Band} (first : a.Reworks m t (.node t.top (.band upper) 1 fun _ => t'))
    (own : P upper) (second : m.Rebands P b t') : a.Rebands P b t := by
  obtain ⟨band, arity, child, reworked, bands⟩ := second
  exact ⟨upper, 1, _, first.trans (.only first.holds reworked),
    Tree.everyBand_band.mpr ⟨own, fun _ => bands⟩⟩

end Arena.Rebands

/-! ## Vector loops -/

namespace Tree

variable {P : Band → Prop} {domains : StmtMap Polyhedron} {above : List NodeKind}
  {tiles points head : Band} {width : Int} {t c t' : Tree}

theorem Sunken.everyBand (inherited : Band.Inherited P) (sunken : c.Sunken points t')
    (own : P points) (bands : c.EveryBand P) : t'.EveryBand P := by
  obtain ⟨s, renumbered, sunk⟩ := sunken
  have members : (Edit.markVector points).members = points.members := rfl
  have marked := inherited.remark members rfl own
  exact sunk.everyBand inherited marked (renumbered.alike.everyBand inherited bands)

theorem Stripped.everyBand (inherited : Band.Inherited P)
    (stripped : c.Stripped domains above tiles points width t') (own : P points)
    (bands : c.EveryBand P) : t'.EveryBand P := by
  cases stripped with
  | together sunken branches => exact sunken.everyBand inherited own bands
  | apart separates fullTiles partialTiles =>
    refine everyBand_sequence.mpr ⟨(everyBand_only (by simp)).mpr ?_,
      (everyBand_only (by simp)).mpr ?_⟩
    · exact fullTiles.everyBand inherited own bands
    · exact partialTiles.everyBand inherited own bands

theorem Heads.everyBand (inherited : Band.Inherited P) (heads : Heads t head c)
    (bands : t.EveryBand P) : P head ∧ c.EveryBand P := by
  cases heads with
  | whole single => exact ⟨bands.1 _ rfl, bands.2 0⟩
  | split split =>
    obtain ⟨first, others⟩ := inherited.split split (bands.1 _ rfl)
    exact ⟨first, everyBand_band.mpr ⟨others, bands.2⟩⟩

theorem Vectorized.everyBand {own member : Nat} (inherited : Band.Inherited P)
    (vectorized : Vectorized domains width own member above t t') (bands : t.EveryBand P) :
    t'.EveryBand P := by
  induction vectorized with
  | first here heads tiled stripped =>
    obtain ⟨ownHead, below⟩ := heads.everyBand inherited bands
    obtain ⟨ownTiles, ownPoints⟩ := inherited.tile tiled ownHead
    exact everyBand_band.mpr ⟨ownTiles, fun _ => stripped.everyBand inherited ownPoints below⟩
  | later split rest ih =>
    obtain ⟨upper, lower⟩ := inherited.split split (bands.1 _ rfl)
    exact everyBand_band.mpr ⟨upper, fun _ => ih (everyBand_band.mpr ⟨lower, bands.2⟩)⟩

end Tree

/-- Making a member a vector loop. -/
theorem Edit.prevectorize_inherits {P : Band → Prop} {a b : Arena} {above : List Frame}
    {id arity member r : Nat} {band : Band} {child : Fin arity → Tree} {width : Int}
    (inherited : Band.Inherited P)
    (located : a.Locates above (.node id (.band band) arity child))
    (bands : (Tree.node id (.band band) arity child).EveryBand P)
    (does : (prevectorize id member width).Does a r b) :
    a.Rebands P b (.node id (.band band) arity child) := by
  obtain ⟨-, -, t', reworks, vectorized⟩ :=
    prevectorize_reworks located (inherited.arity (bands.1 band rfl)) does
  have after := vectorized.everyBand inherited bands
  cases vectorized with
  | first here heads tiled stripped =>
    cases here
    exact ⟨_, 1, _, reworks, after⟩
  | later split rest => exact ⟨_, 1, _, reworks, after⟩

/-! ## Actions of the optimizer -/

namespace Optimizer

variable {P : Band → Prop} {o : Optimizer} {a b m : Arena} {above : List Frame}
  {id arity points : Nat} {band : Band} {child : Fin arity → Tree} {action : Action}

/-- Whatever is done with the last points of some tiling stages, the band is replaced by the tiles
and this. The members stay. -/
theorem applyStages_inherits {stages : List TilingStage} (inherited : Band.Inherited P)
    (located : a.Locates above (.node id (.band band) arity child))
    (bands : (Tree.node id (.band band) arity child).EveryBand P)
    (does : (applyStages stages id).Does a points m) :
    ∃ frames last, m.Locates (above ++ frames) (.node points (.band last) arity child) ∧
      (Tree.node points (.band last) arity child).EveryBand P ∧ last.members = band.members ∧
      ∀ b, m.Rebands P b (.node points (.band last) arity child) →
        a.Rebands P b (.node id (.band band) arity child) := by
  obtain ⟨own, below⟩ := Tree.everyBand_band.mp bands
  induction stages generalizing a above id band with
  | nil =>
    obtain ⟨rfl, rfl⟩ := Edit.does_pure.mp does
    exact ⟨[], band, by simpa using located, bands, rfl, fun b rebands => rebands⟩
  | cons stage rest ih =>
    simp only [applyStages, Edit.does_bind] at does
    obtain ⟨p, a', applied, later⟩ := does
    obtain ⟨sizes, tiles, pointBand, tiled, first⟩ :=
      Edit.apply_tiles located.holds (inherited.arity own) applied
    obtain ⟨ownTiles, ownPoints⟩ := inherited.tile tiled own
    obtain ⟨frames, last, locatedLast, bandsLast, members, continued⟩ :=
      ih ((located.rework first).child 0) (Tree.everyBand_band.mpr ⟨ownPoints, below⟩) later
        ownPoints
    refine ⟨(id, .band tiles) :: frames, last, by simpa using locatedLast, bandsLast,
      members.trans tiled.pointMembers, fun b rebands => ?_⟩
    exact .of_below first ownTiles (continued b rebands)

theorem standardBand_inherits (inherited : Band.Inherited P)
    (located : a.Locates above (.node id (.band band) arity child))
    (bands : (Tree.node id (.band band) arity child).EveryBand P)
    (does : (o.standardBand id).Does a action b) :
    a.Rebands P b (.node id (.band band) arity child) ∧ action ≠ .notTileable := by
  simp only [standardBand, Edit.does_bind, Edit.does_get] at does
  obtain ⟨points, m, stages, _, _, ⟨rfl, rfl⟩, does⟩ := does
  obtain ⟨frames, last, locatedLast, bandsLast, -, continued⟩ :=
    applyStages_inherits inherited located bands stages
  split at does
  · simp only [Edit.does_bind, Edit.does_pure] at does
    obtain ⟨r, _, vectorize, rfl, rfl⟩ := does
    refine ⟨continued _ ?_, by simp⟩
    exact Edit.prevectorize_inherits inherited locatedLast bandsLast vectorize
  · obtain ⟨rfl, rfl⟩ := Edit.does_pure.mp does
    exact ⟨continued m (.refl locatedLast.holds bandsLast), by simp⟩

theorem blockMatMul_inherits {scop : Scop} {target : Option Target} {r : Nat}
    (inherited : Band.Inherited P)
    (located : a.Locates above (.node id (.band band) arity child))
    (bands : (Tree.node id (.band band) arity child).EveryBand P)
    (does : (Edit.blockMatMul scop target id).Does a r b) :
    a.Rebands P b (.node id (.band band) arity child) := by
  obtain ⟨own, below⟩ := Tree.everyBand_band.mp bands
  simp only [Edit.blockMatMul, Edit.does_bind, Edit.does_get, Edit.does_lift] at does
  obtain ⟨_, _, ⟨rfl, rfl⟩, shape?, _, ⟨-, rfl⟩, does⟩ := does
  cases shape? with
  | none => exact absurd does Edit.does_refuse
  | some shape =>
    dsimp only at does
    split at does
    · exact absurd does Edit.does_refuse
    · simp only [Edit.does_bind, Edit.does_lift] at does
      obtain ⟨micro, _, ⟨-, rfl⟩, blocks, _, ⟨-, rfl⟩, _, a₁, permute, p, a₂, tile,
        register⟩ := does
      obtain ⟨permuted, permutes, first⟩ := Edit.bandPermute_reworks located.holds permute
      have ownPermuted := inherited.permute permutes own
      obtain ⟨sizes, tiles, pointBand, tiled, second⟩ :=
        Edit.tileNode_tiles first.holds (inherited.arity ownPermuted) tile
      obtain ⟨ownTiles, ownPoints⟩ := inherited.tile tiled ownPermuted
      obtain ⟨sizes', tiles', pointBand', tiled', third⟩ :=
        Edit.registerTiling_tiles (second.holds.child 0) (inherited.arity ownPoints) register
      obtain ⟨ownTiles', ownPoints'⟩ := inherited.tile tiled' ownPoints
      refine .of_below (first.trans second) ownTiles ⟨tiles', 1, _, third, ?_⟩
      exact Tree.everyBand_band.mpr
        ⟨ownTiles', fun _ => Tree.everyBand_band.mpr ⟨ownPoints', below⟩⟩

/-- A band that cannot be tiled stays, and the action says so. Any other band is replaced. -/
theorem bandAction_inherits (inherited : Band.Inherited P)
    (located : a.Locates above (.node id (.band band) arity child))
    (bands : (Tree.node id (.band band) arity child).EveryBand P)
    (does : (o.bandAction id).Does a action b) :
    a.Rebands P b (.node id (.band band) arity child) ∧
      (action = .notTileable ↔ a.isTileable id = false) := by
  cases acts_of_bandAction does with
  | notTileable fixed => exact ⟨.refl located.holds bands, iff_of_true rfl fixed⟩
  | singleMember tileable => exact ⟨.refl located.holds bands, by simp [tileable]⟩
  | matMul tileable blocked =>
    exact ⟨blockMatMul_inherits inherited located bands blocked, by simp [tileable]⟩
  | standard tileable tiled =>
    obtain ⟨rebands, other⟩ := standardBand_inherits inherited located bands tiled
    exact ⟨rebands, iff_of_false other (by simp [tileable])⟩

end Optimizer

end LoopNest
