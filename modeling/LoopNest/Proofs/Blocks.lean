import LoopNest.Proofs.Refusals
import LoopNest.Proofs.TileOrder

/-! Blocked matrix multiplications. The three loops of a matrix multiplication become nine: loops
over blocks, loops over the register tiles of a block, and loops over the points of a register tile.
An instance has the entries that follow from this, unless a word overflows when they are computed.
-/

namespace LoopNest

namespace Tree

variable {x : Iteration} {id q p arity : Nat} {positions : List Nat} {sizes sizes' : List Int}
  {band permuted upper rest middle inner : Band} {child : Fin arity → Tree}

theorem obstacle?_permuted (permutes : band.Permuted positions permuted) (x : Iteration) :
    (node id (.band permuted) arity child).obstacle? x =
      (node id (.band band) arity child).obstacle? x := by
  cases own : band.schedule.get? x.stmt with
  | none => simp [obstacle?, onward, own, permutes.unscheduled x.stmt own, NodeKind.obstacle]
  | some es =>
    obtain ⟨fs, found, -⟩ := permutes.scheduled x.stmt es own
    rw [obstacle?, obstacle?, onward_of_found found, onward_of_found own]
    cases first arity <;> rfl

/-- The loops over blocks, register tiles and points stop the instances that the band stopped. -/
theorem obstacle?_stacked (permutes : band.Permuted positions permuted)
    (tiled : permuted.Tiled sizes upper rest) (tiled' : rest.Tiled sizes' middle inner)
    (x : Iteration) :
    (node id (.band upper) 1 fun _ => node q (.band middle) 1 fun _ =>
      node p (.band inner) arity child).obstacle? x =
        (node id (.band band) arity child).obstacle? x := by
  rw [← obstacle?_permuted permutes x, ← obstacle?_tiled (p := q) tiled x]
  exact obstacle?_congr (fun _ => rfl) fun _ _ => obstacle?_tiled tiled' x

theorem proper_stacked (permutes : band.Permuted positions permuted)
    (tiled : permuted.Tiled sizes upper rest) (tiled' : rest.Tiled sizes' middle inner)
    (proper : (node id (.band band) arity child).Proper x) :
    (node id (.band upper) 1 fun _ => node q (.band middle) 1 fun _ =>
      node p (.band inner) arity child).Proper x := by
  have reshaped : Reshaped .empty [] false (node id (.band band) arity child)
      (node id (.band upper) 1 fun _ => node q (.band middle) 1 fun _ =>
        node p (.band inner) arity child) :=
    .permute permutes (.tile tiled (.tile tiled' .same))
  exact reshaped.proper proper

/-- An instance of the band has the entries of the loops over blocks, register tiles and points, and
then those that it had below the band. -/
theorem stamp_stacked (permutes : band.Permuted positions permuted)
    (tiled : permuted.Tiled sizes upper rest) (tiled' : rest.Tiled sizes' middle inner)
    {v : List Int} {later : List Visit}
    (way : (node id (.band band) arity child).way x = some (⟨id, v⟩ :: later)) :
    ∃ w : List Int, w.length = sizes.length ∧ (∀ i : Nat, w[i]? = positions[i]?.bind (v[·]?)) ∧
      (node id (.band upper) 1 fun _ => node q (.band middle) 1 fun _ =>
        node p (.band inner) arity child).stamp x =
          some (w.zipWith Int.fdiv sizes ++ ((w.zipWith Int.fmod sizes).zipWith Int.fdiv sizes' ++
            ((w.zipWith Int.fmod sizes).zipWith Int.fmod sizes' ++
              later.flatMap (·.entries)))) := by
  have stamp : (node id (.band band) arity child).stamp x =
      some (v ++ later.flatMap (·.entries)) := by
    rw [Tree.stamp, way, Option.map_some, List.flatMap_cons]
  obtain ⟨es, below, own, after, same⟩ := stamp_band_eq_some.mp stamp
  obtain ⟨_, split⟩ := entries_of_way way own
  cases split
  obtain rfl := List.append_cancel_left same
  obtain ⟨fs, foundPermuted, each⟩ := permutes.scheduled x.stmt es own
  obtain ⟨ts, ps, foundUpper, foundRest, tiling⟩ := tiled.scheduled x.stmt fs foundPermuted
  obtain ⟨ts', ps', foundMiddle, foundInner, tiling'⟩ := tiled'.scheduled x.stmt ps foundRest
  refine ⟨x.values fs, by simp [tiling.lengths.1], Band.Permuted.getElem?_values each, ?_⟩
  rw [← tiling.values_tiles x, ← tiling.values_points x, ← tiling'.values_tiles x,
    ← tiling'.values_points x, stamp_only, foundUpper, Option.bind_some, stamp_only, foundMiddle,
    Option.bind_some, stamp_band, foundInner, Option.bind_some, after]
  rfl

end Tree

namespace Arena

/-- A band has become the three bands of a blocked matrix multiplication, the innermost of which is
at `p`. -/
structure Blocks (a b : Arena) (id p : Nat) (shape : MatMulShape) (sizes sizes' : List Int) :
    Prop extends KeepsElsewhere a b id where
  through : ∀ (x : Iteration) pre v later,
    (a.visits x.stmt x.point x.params).run = .ok (.ok (pre ++ ⟨id, v⟩ :: later)) →
    ∃ r o c, v[shape.reduction]? = some r ∧ v[shape.other]? = some o ∧
      v[shape.contiguous]? = some c ∧
      (b.timestamp x.stmt x.point x.params).Yields (.ok (pre.flatMap (·.entries) ++
        [r, o, c].zipWith Int.fdiv sizes ++
        ([r, o, c].zipWith Int.fmod sizes).zipWith Int.fdiv sizes' ++
        ([r, o, c].zipWith Int.fmod sizes).zipWith Int.fmod sizes' ++ later.flatMap (·.entries)))
  bands : ∃ q upper middle inner, b.band? id = some upper ∧ b.children id = [q] ∧
    b.band? q = some middle ∧ b.children q = [p] ∧ b.band? p = some inner ∧
    inner.loopOption = .unroll ∧ b.children p = a.children id

variable {a b : Arena} {above : List Frame} {id q p arity : Nat} {shape : MatMulShape}
  {sizes sizes' : List Int} {band permuted upper rest middle inner : Band}
  {child : Fin arity → Tree}

theorem Locates.blocks (located : a.Locates above (.node id (.band band) arity child))
    (permutes : band.Permuted shape.permutation permuted)
    (tiled : permuted.Tiled sizes upper rest) (tiled' : rest.Tiled sizes' middle inner)
    (three : sizes.length = 3) (unrolled : inner.loopOption = .unroll)
    (reworks : a.Reworks b (.node id (.band band) arity child) (.node id (.band upper) 1 fun _ =>
      .node q (.band middle) 1 fun _ => .node p (.band inner) arity child)) :
    a.Blocks b id p shape sizes sizes' := by
  have replaces := located.replaces reworks rfl rfl
  have keeps : a.KeepsElsewhere b id :=
    replaces.keepsElsewhere (Tree.obstacle?_stacked permutes tiled tiled')
      fun _ => Tree.proper_stacked permutes tiled tiled'
  refine ⟨keeps, fun x pre v later walk => ?_, ?_⟩
  · obtain ⟨-, way⟩ := replaces.arrives walk
    obtain ⟨w, length, each, stamp⟩ := Tree.stamp_stacked permutes tiled tiled' way
    obtain ⟨r, o, c, rfl⟩ := List.length_eq_three.mp (length.trans three)
    refine ⟨r, o, c, (each 0).symm, (each 1).symm, (each 2).symm, ?_⟩
    simpa using replaces.yields_through (Tree.proper_stacked permutes tiled tiled') walk stamp
  · have below := reworks.holds.child 0
    have innermost := below.child 0
    refine ⟨q, upper, middle, inner, reworks.holds.band?_eq, children_eq reworks.holds.stored.1,
      below.band?_eq, children_eq below.stored.1, innermost.band?_eq, unrolled, ?_⟩
    rw [children_eq innermost.stored.1, children_eq located.holds.stored.1]

def IsBlockable (a : Arena) (scop : Scop) (id : Nat) : Prop :=
  (∃ shape, a.matMulShape? scop id = .ok (some shape)) ∧
    (a.band? id).any (·.isPermutable) = true

theorem IsBlockable.locates {scop : Scop} (h : a.IsBlockable scop id)
    (wellFormed : a.isWellFormed = true) (reached : id ∈ a.subtree a.root) :
    ∃ above band arity child, a.Locates above (.node id (.band band) arity child) ∧
      band.isPermutable = true := by
  have permutable := h.2
  cases own : a.band? id with
  | none => simp [own] at permutable
  | some band =>
    have member : id ∈ a.bands := List.mem_filter.mpr ⟨reached, by simp [own]⟩
    obtain ⟨above, _, arity, child, located⟩ := exists_locates_band wellFormed member
    cases own.symm.trans located.holds.band?_eq
    exact ⟨above, band, arity, child, located, by simpa [own] using permutable⟩

end Arena

namespace Edit

variable {a b : Arena} {scop : Scop} {id p : Nat}

theorem blockMatMul_refused {shape? : Option MatMulShape} (target : Option Target)
    (answer : a.matMulShape? scop id = .ok shape?) (fixed : ¬a.IsBlockable scop id) :
    ∃ refusal, (blockMatMul scop target id).commit a = .ok (.error refusal) := by
  rw [commit, blockMatMul, perform_get_bind, perform_lift_bind answer]
  cases shape? with
  | none => exact ⟨_, rfl⟩
  | some shape =>
    have order : (a.band? id).any (·.isPermutable) = false := by
      simpa [Arena.IsBlockable, answer] using fixed
    dsimp only
    rw [if_pos order]
    exact ⟨_, rfl⟩

/-- Blocking succeeds where a matrix multiplication is found and its loops may be exchanged, unless
a word overflows when the kernels are chosen or the new loops are computed, and is refused
everywhere else. Where it succeeds, the members are put in the order reduction, rows, columns, then
tiled by the macro kernel, then by the micro kernel. -/
theorem blockMatMul_blocks (scop : Scop) (target : Option Target)
    (wellFormed : a.isWellFormed = true)
    (arities : ∀ i ∈ a.bands, ∀ band ∈ a.band? i, band.HasArity)
    (reached : id ∈ a.subtree a.root) :
    (a.IsBlockable scop id → ∃ shape band,
      a.matMulShape? scop id = .ok (some shape) ∧ a.band? id = some band ∧
      ((blockMatMul scop target id).commit a = .error .overflow ∧
          band.block (target.getD .generic) shape = .error .overflow ∨
        ∃ p b, (blockMatMul scop target id).commit a = .ok (.ok (p, b)))) ∧
    (¬a.IsBlockable scop id →
      ∃ refusal, (blockMatMul scop target id).commit a = .ok (.error refusal)) ∧
    ∀ p b, (blockMatMul scop target id).commit a = .ok (.ok (p, b)) →
      ∃ shape micro blocks, a.matMulShape? scop id = .ok (some shape) ∧
        MicroKernel.forTarget (target.getD .generic) = .ok micro ∧
        MacroKernel.forTarget (target.getD .generic) micro = .ok blocks ∧
        a.Blocks b id p shape [blocks.kc, blocks.mc, blocks.nc] [1, micro.mr, micro.nr] := by
  have arities' : ∀ band, a.band? id = some band → band.HasArity := by
    intro band own
    exact arities id (List.mem_filter.mpr ⟨reached, by simp [own]⟩) band own
  obtain ⟨shape?, answer⟩ := MatMul.exists_answer scop arities'
  have refused : ¬a.IsBlockable scop id →
      ∃ refusal, (blockMatMul scop target id).commit a = .ok (.error refusal) :=
    blockMatMul_refused target answer
  refine ⟨fun blockable => ?_, refused, fun p b succeeds => ?_⟩
  · obtain ⟨above, band, arity, child, located, permutable⟩ := blockable.locates wellFormed reached
    obtain ⟨shape, found⟩ := blockable.1
    have own := located.holds.band?_eq
    refine ⟨shape, band, found, own, ?_⟩
    have heeds : (blockMatMul scop target id).Heeds (fun _ => False) a :=
      heeds_blockMatMul target located (arities' band own) permutable found
    have fails : (blockMatMul scop target id).FailsOnly
        (fun fault => band.block (target.getD .generic) shape = .error fault)
        (fun _ _ => False) a :=
      failsOnly_blockMatMul target located (arities' band own) permutable found
    rcases outcome : (blockMatMul scop target id).commit a with fault | refusal | ⟨p, b⟩
    · obtain rfl := heeds.commit.1 fault outcome
      exact .inl ⟨rfl, fails.commit.1 .overflow outcome⟩
    · exact (heeds.commit.2 refusal outcome).elim
    · exact .inr ⟨p, b, rfl⟩
  · have blockable : a.IsBlockable scop id := by
      by_contra fixed
      obtain ⟨refusal, refuses⟩ := refused fixed
      cases succeeds.symm.trans refuses
    obtain ⟨above, band, arity, child, located, -⟩ := blockable.locates wellFormed reached
    have own := located.holds.band?_eq
    obtain ⟨shape, micro, blocks, blocked⟩ :=
      blockMatMul_blocked located.holds (arities' band own) (commit_eq_ok.mp succeeds)
    obtain ⟨_, same, facts⟩ := Arena.exists_matMulShape? scop own (arities' band own)
    cases blocked.found.symm.trans same
    obtain ⟨three, -⟩ := facts shape rfl
    obtain ⟨permuted, upper, rest, middle, inner, q, permutes, tiled, tiled', unrolled, reworks⟩ :=
      blocked.stacked
    rw [sizesFor_of_length 1 (by simp [three])] at tiled tiled'
    exact ⟨shape, micro, blocks, blocked.found, blocked.isMicro, blocked.isMacro,
      located.blocks permutes tiled tiled' rfl unrolled reworks⟩

/-- The instance with `i = 4`, `j = 5`, `k = 6`. How many vectors there are in a row is a result in
floating point; with two of them, the blocks are 384 by 64 by 1024. -/
theorem product_blocked : Scop.product.schedule.IsBlockable Scop.product 1 ∧
    (MicroKernel.vectorsPerRow 16 2 = 2 → ∃ p b,
      (blockMatMul Scop.product none 1).commit Scop.product.schedule = .ok (.ok (p, b)) ∧
      (b.timestamp 0 [4, 5, 6] []).Yields (.ok [0, 0, 0, 6, 1, 1, 0, 0, 1])) := by
  have found : Scop.product.schedule.matMulShape? Scop.product 1 = .ok (some ⟨0, 0, 2, 1⟩) := by
    decide +kernel
  have blockable : Scop.product.schedule.IsBlockable Scop.product 1 :=
    ⟨⟨_, found⟩, by decide +kernel⟩
  obtain ⟨succeeds, -, blocked⟩ := blockMatMul_blocks Scop.product none
    (show Scop.product.schedule.isWellFormed = true by decide +kernel) (by decide +kernel)
    (show 1 ∈ Scop.product.schedule.subtree Scop.product.schedule.root by decide +kernel)
  refine ⟨blockable, fun two => ?_⟩
  have isMicro := MicroKernel.forTarget_generic two
  have isMacro : MacroKernel.forTarget .generic ⟨4, 4⟩ = .ok ⟨384, 64, 1024⟩ := by decide +kernel
  have fits : ((Scop.product.schedule.band? 1).all fun band =>
      band.stack [0, 2, 1] [384, 64, 1024] [1, 4, 4] ≠ .error .overflow) = true := by
    decide +kernel
  obtain ⟨shape, band, again, own, outcome⟩ := succeeds blockable
  cases found.symm.trans again
  rcases outcome with ⟨-, overflows⟩ | ⟨p, b, commits⟩
  · rcases Checked.bind_eq_error_iff.mp overflows with fails | ⟨micro, same, overflows⟩
    · cases isMicro.symm.trans fails
    cases isMicro.symm.trans same
    rcases Checked.bind_eq_error_iff.mp overflows with fails | ⟨blocks, same, overflows⟩
    · cases isMacro.symm.trans fails
    cases isMacro.symm.trans same
    rw [own] at fits
    exact absurd overflows (of_decide_eq_true fits)
  · obtain ⟨shape, micro, blocks, again, isMicro', isMacro', stamps⟩ := blocked p b commits
    cases found.symm.trans again
    cases isMicro.symm.trans isMicro'
    cases isMacro.symm.trans isMacro'
    have walk : (Scop.product.schedule.visits 0 [4, 5, 6] []).run =
        .ok (.ok ([⟨0, []⟩] ++ ⟨1, [6, 5, 4]⟩ :: [⟨2, []⟩])) := by decide +kernel
    obtain ⟨r, o, c, isR, isO, isC, stamp⟩ := stamps.through ⟨0, [4, 5, 6], []⟩ _ _ _ walk
    cases isR
    cases isO
    cases isC
    exact ⟨p, b, commits, stamp⟩

end Edit

end LoopNest
