import LoopNest.Proofs.Dependence
import LoopNest.Proofs.Overflow

/-! The width of a tile times the tile, plus the offset in the tile, is written exactly as the
expression that was tiled, if the floors of that expression are merged. The new floor cancels, and
the old ones keep their order. So the guard of the full tiles of a loop is the one for the
expression that the loop ran over before it was tiled. -/

namespace LoopNest

namespace Affine

theorem eq_zipWith_of_addCoeffs {as bs sum : List Int} (h : addCoeffs as bs = .ok sum)
    (length : as.length = bs.length) : sum = List.zipWith (· + ·) as bs := by
  induction as generalizing bs sum with
  | nil =>
    cases h
    simpa [eq_comm] using length
  | cons a as ih =>
    cases bs with
    | nil => simp at length
    | cons b bs =>
      simp only [addCoeffs, Checked.bind_eq_ok_iff, Word.add_eq_ok_iff] at h
      obtain ⟨_, ⟨-, rfl⟩, tail, added, h⟩ := h
      cases h
      rw [ih added (by simpa using length), List.zipWith_cons_cons]

theorem eq_of_add {a b r : Affine} (h : a.add b = .ok r) (dims : a.nDim = b.nDim)
    (params : a.nParam = b.nParam) :
    r = ⟨a.constant + b.constant, List.zipWith (· + ·) a.coeffs b.coeffs,
      List.zipWith (· + ·) a.paramCoeffs b.paramCoeffs⟩ := by
  simp only [add, Checked.bind_eq_ok_iff, Word.add_eq_ok_iff] at h
  obtain ⟨_, ⟨-, rfl⟩, coeffs, hc, paramCoeffs, hp, h⟩ := h
  cases h
  rw [eq_zipWith_of_addCoeffs hc dims, eq_zipWith_of_addCoeffs hp params]

variable {e r : Affine}

theorem eq_of_add_zero (h : e.add (zero e.nDim e.nParam) = .ok r) : r = e := by
  have kept (xs : List Int) : List.zipWith (· + ·) xs (List.replicate xs.length 0) = xs :=
    List.ext_getElem (by simp) (by simp)
  rw [eq_of_add h (by simp [zero, const, nDim]) (by simp [zero, const, nParam])]
  simp [zero, const, nDim, nParam, kept]

theorem eq_of_zero_add (h : (zero e.nDim e.nParam).add e = .ok r) : r = e := by
  have kept (xs : List Int) : List.zipWith (· + ·) (List.replicate xs.length 0) xs = xs :=
    List.ext_getElem (by simp) (by simp)
  rw [eq_of_add h (by simp [zero, const, nDim]) (by simp [zero, const, nParam])]
  simp [zero, const, nDim, nParam, kept]

theorem eq_zero_of_add_opposite (h : e.add (e.times (-1)) = .ok r) :
    r = zero e.nDim e.nParam := by
  have vanishes (xs : List Int) :
      List.zipWith (· + ·) xs (xs.map (· * -1)) = List.replicate xs.length 0 :=
    List.ext_getElem (by simp) (by simp)
  rw [eq_of_add h (by simp [times, nDim]) (by simp [times, nParam])]
  simp only [times, vanishes]
  simp [zero, const, nDim, nParam]

@[simp] theorem zero_times (m n : Nat) (factor : Int) : (zero m n).times factor = zero m n := by
  simp [zero, const, times]

@[simp] theorem times_one (e : Affine) : e.times 1 = e := by
  simp [times]

end Affine

namespace Quasi

/-- No floor vanishes or occurs twice. -/
structure Merged (terms : List FloorTerm) : Prop where
  nonzero : ∀ t ∈ terms, t.coeff ≠ 0
  distinct : terms.Pairwise fun s t => (s.numerator, s.denominator) ≠ (t.numerator, t.denominator)

instance (terms : List FloorTerm) : Decidable (Merged terms) :=
  decidable_of_iff ((∀ t ∈ terms, t.coeff ≠ 0) ∧
    terms.Pairwise fun s t => (s.numerator, s.denominator) ≠ (t.numerator, t.denominator))
    ⟨fun h => ⟨h.1, h.2⟩, fun h => ⟨h.1, h.2⟩⟩

variable {terms start : List FloorTerm} {term : FloorTerm} {a b q r : Quasi}

theorem eq_of_parts (base : a.base = b.base) (terms : a.terms = b.terms) : a = b := by
  rw [← ofTerms_base_terms a, ← ofTerms_base_terms b, base, terms]

/-! ## Merged terms -/

theorem Merged.left (merged : Merged (start ++ terms)) : Merged start :=
  ⟨fun t member => merged.nonzero t (List.mem_append_left _ member),
    (List.pairwise_append.mp merged.distinct).1⟩

theorem Merged.filter_coeff (merged : Merged terms) : terms.filter (·.coeff ≠ 0) = terms := by
  simpa [List.filter_eq_self] using merged.nonzero

/-- A term with a floor of its own goes to the end. -/
theorem pushTerm_of_merged (merged : Merged (terms ++ [term])) :
    pushTerm terms term = .ok (terms ++ [term]) := by
  have new : ∀ t ∈ terms, t.sameFloor term = false := by
    intro t member
    have apart := (List.pairwise_append.mp merged.distinct).2.2 t member term (by simp)
    simpa [FloorTerm.sameFloor, and_comm, imp_not_comm] using apart
  rw [pushTerm, if_neg (merged.nonzero term (by simp)), mergeTerm_of_new new]
  exact congrArg Except.ok merged.filter_coeff

/-- Terms that are merged already stay as they are. -/
theorem foldlM_pushTerm_of_merged (merged : Merged (start ++ terms)) :
    terms.foldlM pushTerm start = .ok (start ++ terms) := by
  induction terms generalizing start with
  | nil => simp [pure, Except.pure]
  | cons term rest ih =>
    rw [List.append_cons] at merged ⊢
    rw [List.foldlM_cons, pushTerm_of_merged merged.left]
    exact ih merged

theorem foldlM_pushTerm_self (merged : Merged terms) : terms.foldlM pushTerm [] = .ok terms :=
  @foldlM_pushTerm_of_merged terms [] merged

/-- The floor of an expression is none of those within the expression. -/
theorem Merged.cons_floor {coeff width : Int} (merged : Merged q.terms) (nonzero : coeff ≠ 0) :
    Merged (⟨coeff, q, width⟩ :: q.terms) := by
  refine ⟨List.forall_mem_cons.mpr ⟨nonzero, merged.nonzero⟩,
    List.pairwise_cons.mpr ⟨fun t member same => ?_, merged.distinct⟩⟩
  exact numerator_ne member (Prod.mk.inj same).1.symm

theorem Merged.perm {others : List FloorTerm} (merged : Merged terms) (perm : terms.Perm others) :
    Merged others :=
  ⟨fun t member => merged.nonzero t (perm.mem_iff.mpr member),
    (perm.pairwise_iff fun apart => apart.symm).mp merged.distinct⟩

/-- The opposite of the first term removes it. -/
theorem pushTerm_opposite (merged : Merged (term :: terms)) :
    pushTerm (term :: terms) { term with coeff := -term.coeff } = .ok terms := by
  have nonzero := merged.nonzero term (by simp)
  have rest : Merged terms :=
    ⟨fun t member => merged.nonzero t (by simp [member]), merged.distinct.tail⟩
  have sum : Word.add term.coeff (-term.coeff) = .ok 0 := by
    simp only [Word.add_eq_ok_iff, Int.add_right_neg]
    decide
  have merges : mergeTerm { term with coeff := -term.coeff } (term :: terms) =
      .ok ({ term with coeff := 0 } :: terms) := by
    rw [mergeTerm, if_pos (by simp [FloorTerm.sameFloor]), sum]
    rfl
  rw [pushTerm, if_neg (by simpa using nonzero), merges]
  exact congrArg Except.ok ((List.filter_cons_of_neg (by simp)).trans rest.filter_coeff)

theorem foldlM_pushTerm_opposite (merged : Merged (term :: terms)) :
    (term :: terms ++ [{ term with coeff := -term.coeff }]).foldlM pushTerm [] = .ok terms := by
  rw [List.foldlM_append, foldlM_pushTerm_self merged]
  exact (bind_pure _).trans (pushTerm_opposite merged)

/-! ## Tile and offset -/

variable {tile offset whole : Quasi} {width : Int}

/-- A quotient without a new floor leaves no offset. -/
theorem whole_of_exact (tiles : q.floorDiv width = .ok tile)
    (remains : q.modulo width = .ok offset) (scaled : tile.scale width = .ok whole)
    (exact : width = 1 ∧ tile = q ∨
      ∃ e d, q = affine e ∧ e.exactDiv? width = .ok (some d) ∧ tile = affine d) :
    whole = q ∧ offset = affine (.zero q.nDim q.nParam) := by
  obtain ⟨positive, -⟩ := floorDiv_cases tiles
  have same : whole = q := by
    rcases exact with ⟨rfl, rfl⟩ | ⟨e, d, rfl, divides, rfl⟩
    · refine eq_of_parts ?_ ?_
      · rw [base_scale scaled, Affine.times_one]
      · simp [terms_scale (by decide) scaled]
    · refine eq_of_parts ?_ ?_
      · rw [base_scale scaled, base, base, Affine.eq_times_of_exactDiv divides]
      · simp [terms_scale (by omega) scaled, terms]
  refine ⟨same, ?_⟩
  rcases modulo_cases remains with ⟨-, rfl⟩ | ⟨other, _, _, tiles', scaled', subtracted⟩
  · rfl
  · rcases exact with ⟨one, -⟩ | ⟨e, d, rfl, -, rfl⟩
    · exact absurd one other
    · cases tiles.symm.trans tiles'
      cases scaled.symm.trans scaled'
      subst same
      obtain ⟨sum, pushed⟩ := parts_of_sub subtracted
      exact eq_of_parts (Affine.eq_zero_of_add_opposite sum) (Except.ok.inj pushed).symm

/-- The offset that a new floor leaves has the floor behind the others. -/
theorem parts_of_floor (merged : Merged q.terms) (positive : 0 < width)
    (scaled : (plus (affine (.zero q.nDim q.nParam)) 1 q width).scale width = .ok whole)
    (subtracted : q.sub whole = .ok offset) :
    whole.base = .zero q.nDim q.nParam ∧ whole.terms = [⟨width, q, width⟩] ∧
      offset.base = q.base ∧ offset.terms = q.terms ++ [⟨-width, q, width⟩] := by
  have wholeBase : whole.base = .zero q.nDim q.nParam := by
    simp [base_scale scaled, base]
  have wholeTerms : whole.terms = [⟨width, q, width⟩] := by
    simp [terms_scale (by omega) scaled, terms]
  obtain ⟨sum, pushed⟩ := parts_of_sub subtracted
  rw [wholeBase, Affine.zero_times] at sum
  refine ⟨wholeBase, wholeTerms, Affine.eq_of_add_zero sum, ?_⟩
  have all : Merged (q.terms ++ [⟨-width, q, width⟩]) :=
    (merged.cons_floor (by omega)).perm (List.perm_append_singleton ..).symm
  simp only [wholeTerms, List.map_singleton, Int.mul_neg_one, foldlM_pushTerm_self all] at pushed
  exact (Except.ok.inj pushed).symm

/-- The width times the tile, plus the offset, is the expression. -/
theorem eq_of_tile_add_offset (merged : Merged q.terms) (tiles : q.floorDiv width = .ok tile)
    (remains : q.modulo width = .ok offset) (scaled : tile.scale width = .ok whole)
    (added : whole.add offset = .ok r) : r = q := by
  obtain ⟨sum, pushed⟩ := parts_of_add added
  have without (exact : whole = q ∧ offset = affine (.zero q.nDim q.nParam)) : r = q := by
    obtain ⟨rfl, rfl⟩ := exact
    simp only [terms, List.append_nil, foldlM_pushTerm_self merged] at pushed
    exact eq_of_parts (Affine.eq_of_add_zero sum) (Except.ok.inj pushed).symm
  obtain ⟨positive, one | divides | ⟨other, rfl⟩⟩ := floorDiv_cases tiles
  · exact without (whole_of_exact tiles remains scaled (.inl one))
  · exact without (whole_of_exact tiles remains scaled (.inr divides))
  · rcases modulo_cases remains with ⟨one, -⟩ | ⟨-, _, _, tiles', scaled', subtracted⟩
    · exact absurd one other
    · cases tiles.symm.trans tiles'
      cases scaled.symm.trans scaled'
      obtain ⟨wholeBase, wholeTerms, offsetBase, offsetTerms⟩ :=
        parts_of_floor merged positive scaled subtracted
      rw [wholeBase, offsetBase] at sum
      refine eq_of_parts (Affine.eq_of_zero_add sum) ?_
      have first : Merged (⟨width, q, width⟩ :: q.terms) := merged.cons_floor (by omega)
      rw [wholeTerms, offsetTerms, ← List.append_assoc, List.singleton_append,
        foldlM_pushTerm_opposite first] at pushed
      exact (Except.ok.inj pushed).symm

theorem ensures_tile_add_offset (merged : Merged q.terms) (tiles : q.floorDiv width = .ok tile)
    (remains : q.modulo width = .ok offset) :
    (tile.scale width >>= fun whole => whole.add offset).Ensures (· = q) := by
  refine Checked.ensures_iff.mpr ⟨by simp, fun r found => ?_⟩
  obtain ⟨whole, scaled, added⟩ := Checked.bind_eq_ok_iff.mp found
  exact eq_of_tile_add_offset merged tiles remains scaled added

end Quasi

/-- An expression whose floors are merged is recovered from its tiles and offsets, floor by floor in
the old order, unless a word overflows. So where a tile loop and a point loop run over those, the
guard of the full tiles is made for the expression itself. -/
theorem Quasi.tile_add_offset_eq {e : Quasi} (merged : Merged e.terms) {width : Int}
    (positive : 1 ≤ width) :
    (do
      let tile ← e.floorDiv width
      let offset ← e.modulo width
      let whole ← tile.scale width
      whole.add offset : Checked Quasi).Ensures (· = e) ∧
    ∀ (a : Arena) (path : List Nat) (points stmt : Nat) (domain : Polyhedron) (tile offset : Quasi),
      e.floorDiv width = .ok tile → e.modulo width = .ok offset →
      a.domains?.bind (·.get? stmt) = some domain →
      (path.getLast?.bind fun id => (a.band? id).bind (·.memberExpr? stmt 0)) = some tile →
      (a.band? points).bind (·.memberExpr? stmt 0) = some offset →
      a.fullTileGuard path points stmt width = .error .overflow ∨
      a.fullTileGuard path points stmt width =
        (e.blockDim? domain.nDim width).elim (.ok none) fun dim =>
          FullTile.guardOf domain e dim (a.bandExprs path stmt)
            (a.bandExprs ((a.subtree points).drop 1) stmt) width := by
  constructor
  · refine (Checked.ensures_iff.mpr ⟨onlyOverflows_floorDiv positive, fun _ => id⟩).bind
      fun tile tiles => ?_
    refine (Checked.ensures_iff.mpr ⟨onlyOverflows_modulo positive, fun _ => id⟩).bind
      fun offset remains => ?_
    exact ensures_tile_add_offset merged tiles remains
  · intro a path points stmt domain tile offset tiles remains foundDomain foundTile foundOffset
    unfold Arena.fullTileGuard
    simp only [foundDomain, foundTile, foundOffset]
    rw [← bind_assoc]
    rcases ensures_tile_add_offset merged tiles remains with overflows | ⟨r, found, same⟩
    · rw [overflows]
      exact .inl rfl
    · rw [found, same]
      refine .inr ((pure_bind e _).trans ?_)
      cases e.blockDim? domain.nDim width with
      | none => rfl
      | some dim => rfl

namespace Scop

def blockOffset : Quasi := .plus (.affine ⟨0, [1], []⟩) (-8) (.affine ⟨0, [1], []⟩) 8

def rowDomain : Polyhedron := ⟨1, 0, [.nonneg ⟨0, [1], []⟩, .nonneg ⟨9, [-1], []⟩]⟩

def row (tile point : Quasi) : Arena :=
  ⟨#[⟨.domain (.ofList [(0, rowDomain)]), [1]⟩,
    ⟨.band (.ofSchedule [⟨true, true⟩] (.ofList [(0, [tile])])), [2]⟩,
    ⟨.band (.ofSchedule [⟨true, true⟩] (.ofList [(0, [point])])), [3]⟩,
    ⟨.leaf, []⟩], 0⟩

/-- The offsets in blocks of eight are tiled by four, and there are full tiles. -/
theorem blockOffset_recombined :
    let tile := Quasi.plus (.affine (.zero 1 0)) 1 blockOffset 4
    let offset := Quasi.plus blockOffset (-4) blockOffset 4
    Quasi.Merged blockOffset.terms ∧ blockOffset.floorDiv 4 = .ok tile ∧
      blockOffset.modulo 4 = .ok offset ∧
      (tile.scale 4 >>= fun whole => whole.add offset) = .ok blockOffset ∧
      (row tile offset).fullTileGuard [0, 1] 2 0 4 =
        FullTile.guardOf rowDomain blockOffset 0 [tile] [] 4 ∧
      ((row tile offset).fullTileGuard [0, 1] 2 0 4).toOption.join.isSome = true := by
  intro tile offset
  have tiles : blockOffset.floorDiv 4 = .ok tile := by decide
  have remains : blockOffset.modulo 4 = .ok offset := by decide
  have some : ((row tile offset).fullTileGuard [0, 1] 2 0 4).toOption.join.isSome = true := by
    decide +kernel
  have merged : Quasi.Merged blockOffset.terms := by decide
  obtain ⟨whole, guard⟩ := Quasi.tile_add_offset_eq merged (show (1 : Int) ≤ 4 by decide)
  refine ⟨merged, tiles, remains, ?_, ?_, some⟩
  · rw [tiles, remains] at whole
    rcases whole with overflows | ⟨_, found, rfl⟩
    · exact absurd overflows (by decide)
    · exact found
  · rcases guard (row tile offset) [0, 1] 2 0 rowDomain tile offset tiles remains
      (by decide +kernel) (by decide +kernel) (by decide +kernel) with overflows | guarded
    · rw [overflows] at some
      cases some
    · exact guarded

end Scop

end LoopNest
