import LoopNest.Proofs.Decisions

/-! An expression is in the space of so many iterators and so many parameters. Quotients, remainders
and multiples stay in the space of their operand, and so do sums of expressions of one space. The
bands that the optimizer makes therefore fit their domains as those that it was given did, and the
scop with the optimized schedule is valid again. -/

namespace LoopNest

/-! ## Expressions -/

def Affine.space (e : Affine) : Nat × Nat := (e.nDim, e.nParam)

def Quasi.space (q : Quasi) : Nat × Nat := q.base.space

namespace Affine

@[simp] theorem space_const (value : Int) (m n : Nat) : (const value m n).space = (m, n) := by
  simp [space, const, nDim, nParam]

@[simp] theorem space_times (e : Affine) (factor : Int) : (e.times factor).space = e.space := by
  simp [space, times, nDim, nParam]

/-- The sum of two lists is as long as the longer one. -/
theorem length_addCoeffs {as bs sum : List Int} (h : addCoeffs as bs = .ok sum) :
    sum.length = max as.length bs.length := by
  induction as generalizing bs sum with
  | nil =>
    cases h
    simp
  | cons a as ih =>
    cases bs with
    | nil =>
      cases h
      simp
    | cons b bs =>
      simp only [addCoeffs, Checked.bind_eq_ok_iff] at h
      obtain ⟨head, -, tail, ht, h⟩ := h
      cases h
      simp only [List.length_cons, ih ht]
      omega

theorem space_add {a b r : Affine} (h : a.add b = .ok r) (same : b.space = a.space) :
    r.space = a.space := by
  simp only [add, Checked.bind_eq_ok_iff] at h
  obtain ⟨constant, -, coeffs, hc, paramCoeffs, hp, h⟩ := h
  cases h
  simp only [space, nDim, nParam, Prod.mk.injEq] at same ⊢
  rw [length_addCoeffs hc, length_addCoeffs hp]
  omega

theorem space_exactDiv {e r : Affine} {divisor : Int} (h : e.exactDiv? divisor = .ok (some r)) :
    r.space = e.space := by
  rw [eq_times_of_exactDiv h, space_times]

end Affine

namespace Quasi

theorem space_scale {q r : Quasi} {factor : Int} (h : q.scale factor = .ok r) :
    r.space = q.space := by
  rw [space, base_scale h, Affine.space_times, space]

theorem space_add {a b r : Quasi} (h : a.add b = .ok r) (same : b.space = a.space) :
    r.space = a.space := by
  exact Affine.space_add (parts_of_add h).1 same

theorem space_sub {a b r : Quasi} (h : a.sub b = .ok r) (same : b.space = a.space) :
    r.space = a.space := by
  simp only [sub, Checked.bind_eq_ok_iff] at h
  obtain ⟨negated, hn, h⟩ := h
  exact space_add h ((space_scale hn).trans same)

theorem space_floorDiv {q r : Quasi} {divisor : Int} (h : q.floorDiv divisor = .ok r) :
    r.space = q.space := by
  obtain ⟨-, ⟨-, rfl⟩ | ⟨e, d, rfl, exact, rfl⟩ | ⟨-, rfl⟩⟩ := floorDiv_cases h
  · rfl
  · exact Affine.space_exactDiv exact
  · exact Affine.space_const 0 q.nDim q.nParam

theorem space_modulo {q r : Quasi} {divisor : Int} (h : q.modulo divisor = .ok r) :
    r.space = q.space := by
  rcases modulo_cases h with ⟨-, rfl⟩ | ⟨-, quotient, whole, hq, hw, hs⟩
  · exact Affine.space_const 0 q.nDim q.nParam
  · exact space_sub hs ((space_scale hw).trans (space_floorDiv hq))

end Quasi

/-! ## Bands -/

namespace Band

/-- For each statement there are as many expressions as members, and they are in the space of its
domain. -/
def Spans (nParam : Nat) (domains : StmtMap Polyhedron) (band : Band) : Prop :=
  ∀ stmt exprs, band.schedule.get? stmt = some exprs → exprs.length = band.nMembers ∧
    ∃ domain, domains.get? stmt = some domain ∧ ∀ e ∈ exprs, e.space = (domain.nDim, nParam)

variable {nParam : Nat} {domains : StmtMap Polyhedron} {band : Band}

theorem Spans.hasArity (spans : band.Spans nParam domains) : band.HasArity :=
  hasArity_iff.mpr fun stmt exprs found => (spans stmt exprs found).1

theorem Spans.fits (spans : band.Spans nParam domains) : band.Fits domains := by
  intro stmt exprs found
  obtain ⟨length, domain, bound, spaces⟩ := spans stmt exprs found
  exact ⟨length, domain, bound, fun e member => (Prod.mk.inj (spaces e member)).1⟩

/-- A band spans the domains if it has as many expressions as members and these are in the spaces of
expressions of a band that does. -/
theorem Spans.of_exprs {band' : Band} (spans : band.Spans nParam domains) (arities : band'.HasArity)
    (origin : ∀ stmt fs, band'.schedule.get? stmt = some fs →
      ∃ es, band.schedule.get? stmt = some es ∧ ∀ f ∈ fs, ∃ e ∈ es, f.space = e.space) :
    band'.Spans nParam domains := by
  intro stmt fs found
  obtain ⟨es, own, each⟩ := origin stmt fs found
  obtain ⟨-, domain, bound, spaces⟩ := spans stmt es own
  refine ⟨hasArity_iff.mp arities stmt fs found, domain, bound, fun f member => ?_⟩
  obtain ⟨e, inside, same⟩ := each f member
  rw [same, spaces e inside]

theorem Tiling.spaces {sizes : List Int} {es ts ps : List Quasi} (tiling : Tiling sizes es ts ps) :
    (∀ t ∈ ts, ∃ e ∈ es, t.space = e.space) ∧ ∀ p ∈ ps, ∃ e ∈ es, p.space = e.space := by
  induction tiling with
  | nil => simp
  | @cons size sizes e tile point es ts ps floor modulo rest ih =>
    obtain ⟨tiles, points⟩ := ih
    constructor
    · refine List.forall_mem_cons.mpr ⟨⟨e, by simp, Quasi.space_floorDiv floor⟩, fun t member => ?_⟩
      obtain ⟨e', inside, same⟩ := tiles t member
      exact ⟨e', by simp [inside], same⟩
    · refine List.forall_mem_cons.mpr ⟨⟨e, by simp, Quasi.space_modulo modulo⟩, fun p member => ?_⟩
      obtain ⟨e', inside, same⟩ := points p member
      exact ⟨e', by simp [inside], same⟩

theorem Tiled.spans {tiles points : Band} {sizes : List Int} (tiled : band.Tiled sizes tiles points)
    (spans : band.Spans nParam domains) :
    tiles.Spans nParam domains ∧ points.Spans nParam domains := by
  obtain ⟨aritiesTiles, aritiesPoints⟩ := tiled.hasArity spans.hasArity
  constructor
  · refine spans.of_exprs aritiesTiles fun stmt ts found => ?_
    cases own : band.schedule.get? stmt with
    | none => simp [tiled.unscheduled stmt own] at found
    | some es =>
      obtain ⟨ts', ps, foundTiles, -, tiling⟩ := tiled.scheduled stmt es own
      cases found.symm.trans foundTiles
      exact ⟨es, rfl, tiling.spaces.1⟩
  · refine spans.of_exprs aritiesPoints fun stmt ps found => ?_
    obtain ⟨es, ts, own, -, tiling⟩ := tiled.exists_exprs found
    exact ⟨es, own, tiling.spaces.2⟩

theorem Split.spans {upper lower : Band} {count : Nat} (split : band.Split count upper lower)
    (spans : band.Spans nParam domains) :
    upper.Spans nParam domains ∧ lower.Spans nParam domains := by
  obtain ⟨aritiesUpper, aritiesLower⟩ := split.hasArity spans.hasArity
  constructor
  · refine spans.of_exprs aritiesUpper fun stmt fs found => ?_
    rw [split.upperExprs, Option.map_eq_some_iff] at found
    obtain ⟨es, own, rfl⟩ := found
    exact ⟨es, own, fun f member => ⟨f, List.mem_of_mem_take member, rfl⟩⟩
  · refine spans.of_exprs aritiesLower fun stmt fs found => ?_
    rw [split.lowerExprs, Option.map_eq_some_iff] at found
    obtain ⟨es, own, rfl⟩ := found
    exact ⟨es, own, fun f member => ⟨f, List.mem_of_mem_drop member, rfl⟩⟩

theorem Permuted.spans {permuted : Band} {positions : List Nat}
    (permutes : band.Permuted positions permuted) (spans : band.Spans nParam domains) :
    permuted.Spans nParam domains := by
  refine spans.of_exprs (permutes.hasArity spans.hasArity) fun stmt fs found => ?_
  obtain ⟨es, own, each⟩ := permutes.exists_exprs found
  have length := (spans stmt es own).1
  exact ⟨es, own, fun f member => ⟨f, (permutes.mem_iff length each).mp member, rfl⟩⟩

theorem Spans.inherited : Inherited (Spans nParam domains) where
  arity := hasArity
  remark members schedule spans := by
    simpa only [Spans, nMembers, members, schedule] using spans
  restrict stmts spans := by
    refine spans.of_exprs (HasArity.inherited.restrict stmts spans.hasArity) fun stmt fs found => ?_
    have own : _ = some fs := (StmtMap.get?_filter _ _ _).symm.trans found
    split at own
    · exact ⟨fs, own, fun f member => ⟨f, member, rfl⟩⟩
    · cases own
  split := Split.spans
  tile := Tiled.spans
  permute := Permuted.spans

end Band

/-! ## Validity -/

namespace Scop

variable {scop : Scop} {config : Config} {target : Option Target} {result : Optimized}
  {domains : StmtMap Polyhedron}

theorem forM_eq_ok_iff {α ε : Type} {items : List α} {f : α → Except ε Unit} :
    items.forM f = .ok () ↔ ∀ item ∈ items, f item = .ok () := by
  refine ⟨forM_eq_ok, fun each => ?_⟩
  induction items with
  | nil => rfl
  | cons item rest ih =>
    rw [List.forM_eq_forM, List.forM_cons, each item (by simp)]
    exact ih fun other member => each other (by simp [member])

theorem checkExprs_eq_ok_iff {nParam id stmt : Nat} {band : Band} {exprs : List Quasi} :
    checkExprs nParam domains id band stmt exprs = .ok () ↔ exprs.length = band.nMembers ∧
      ∃ domain, domains.get? stmt = some domain ∧
        ∀ e ∈ exprs, e.space = (domain.nDim, nParam) := by
  unfold checkExprs
  cases domains.get? stmt with
  | none => simp
  | some domain =>
    dsimp only
    by_cases length : exprs.length = band.nMembers
    · rw [if_neg (not_not.mpr length)]
      split
      · rename_i e other
        have apart : e.space ≠ (domain.nDim, nParam) := by
          have differs := List.find?_some other
          simp only [Bool.or_eq_true, decide_eq_true_eq] at differs
          intro same
          obtain ⟨dims, params⟩ := Prod.mk.inj same
          exact differs.elim (· dims) (· params)
        refine iff_of_false (by simp) ?_
        rintro ⟨-, _, ⟨⟩, each⟩
        exact apart (each e (List.mem_of_find?_eq_some other))
      · rename_i other
        refine iff_of_true rfl ⟨length, domain, rfl, fun e inside => ?_⟩
        have fits := List.find?_eq_none.mp other e inside
        simp only [Bool.or_eq_true, decide_eq_true_eq, not_or, not_not] at fits
        exact Prod.ext fits.1 fits.2
    · rw [if_pos length]
      exact iff_of_false (by simp) fun fits => length fits.1

theorem checkBand_eq_ok_iff {nParam id : Nat} {schedule : Arena} {band : Band}
    (found : schedule.band? id = some band) :
    checkBand nParam domains schedule id = .ok () ↔ band.Spans nParam domains := by
  simp only [checkBand, found, forM_eq_ok_iff, Band.Spans,
    StmtMap.get?_eq_some_iff (m := band.schedule), checkExprs_eq_ok_iff, Prod.forall]

theorem seq_eq_ok_iff {ε : Type} {first : Except ε Unit} {rest : Unit → Except ε Unit} :
    first >>= rest = .ok () ↔ first = .ok () ∧ rest () = .ok () := by
  cases first <;> simp [bind, Except.bind]

/-- What makes a scop valid. -/
theorem validate_eq_ok_iff : scop.validate = .ok () ↔
    (∀ s ∈ scop.statements, checkStatement scop.nParam s = .ok ()) ∧
    scop.schedule.isWellFormed = true ∧ ∃ domains, scop.schedule.domains? = some domains ∧
      (∀ s ∈ scop.statements, domains.contains s.id = true) ∧
      ∀ id ∈ scop.schedule.bands, ∀ band, scop.schedule.band? id = some band →
        band.Spans scop.nParam domains := by
  unfold validate
  rw [seq_eq_ok_iff, forM_eq_ok_iff]
  refine and_congr_right fun _ => ?_
  cases scop.schedule.isWellFormed with
  | false => simp [throw, throwThe, MonadExceptOf.throw, bind, Except.bind]
  | true =>
    cases scop.schedule.domains? with
    | none => simp [throw, throwThe, MonadExceptOf.throw]
    | some domains =>
      simp only [Bool.not_true, Bool.false_eq_true, if_false, seq_eq_ok_iff, forM_eq_ok_iff,
        true_and, Option.some.injEq, exists_eq_left']
      refine and_congr ?_ (forall₂_congr fun id member => ?_)
      · refine forall₂_congr fun s _ => ?_
        by_cases bound : domains.contains s.id = true <;> simp [bound]
      · obtain ⟨band, found⟩ := Option.isSome_iff_exists.mp (List.mem_filter.mp member).2
        rw [checkBand_eq_ok_iff found]
        simp [found]

theorem property_of_everyBand {a : Arena} {t : Tree} {P : Band → Prop} (holds : a.Holds t)
    (bands : t.EveryBand P) {id : Nat} {band : Band} (member : id ∈ t.ids)
    (own : a.band? id = some band) : P band := by
  induction t with
  | missing => exact holds.stored.elim
  | node top kind arity child ih =>
    rcases Tree.mem_ids_node.mp member with rfl | ⟨i, inside⟩
    · rw [Arena.band?, Arena.kind?_eq holds.stored.1] at own
      cases kind with
      | band other =>
        cases own
        exact bands.1 _ rfl
      | _ => cases own
    · exact ih i (holds.child i) (bands.2 i) inside

/-- The schedule that the optimizer makes of that of a valid scop. -/
theorem Sound.candidate {o : Optimizer} {b : Arena} {ds : List Decision}
    (sound : scop.Sound domains)
    (bands : scop.schedule.tree.EveryBand (Band.Spans scop.nParam domains))
    (does : o.optimizeSchedule.Does scop.schedule ds b) :
    b = scop.schedule ∨ b.isWellFormed = true ∧ b.domains? = some domains ∧
      ∀ id ∈ b.bands, ∀ band, b.band? id = some band → band.Spans scop.nParam domains := by
  rcases Optimizer.optimizeSchedule_rewrites sound.holds sound.top sound.domains?
    (bands.imp fun band spans => spans.hasArity) does with same | ⟨t, copy, rewritten, alike, roots⟩
  · exact .inl same.symm
  · by_cases tiling : o.config.enableTiling = true
    · obtain ⟨t', copy', surveyed, alike', roots'⟩ := Optimizer.optimizeSchedule_surveys
        Band.Spans.inherited sound.holds sound.top bands tiling does
      refine .inr ⟨Arena.isWellFormed_of_holds roots.1 roots.2,
        sound.domains?_rewritten rewritten alike roots, fun id member band own => ?_⟩
      have spans := alike'.everyBand Band.Spans.inherited surveyed.bands
      rw [Arena.bands, roots'.2, roots'.1.subtree_eq] at member
      exact property_of_everyBand roots'.1 spans (List.mem_filter.mp member).1 own
    · simp only [Optimizer.optimizeSchedule, if_neg tiling, Edit.does_pure] at does
      exact .inl does.2.symm

/-- The optimizer's schedule can be given back to it. The scop that has it for its schedule is
valid: the tree is well formed, the domains stay at its root, and every band has one expression for
each member and each of its statements, in the space of the statement's domain. -/
theorem optimize_validates (h : scop.optimize config target = .ok (.ok result)) :
    { scop with schedule := result.schedule }.validate = .ok () ∧
      result.schedule.isWellFormed = true ∧ ∃ domains, scop.schedule.domains? = some domains ∧
        result.schedule.domains? = some domains ∧
        ∀ id ∈ result.schedule.bands, ∀ band, result.schedule.band? id = some band →
          band.Spans scop.nParam domains := by
  obtain ⟨valid, candidate, does, kept⟩ := optimize_cases h
  obtain ⟨statements, wellFormed, domains, found, bound, spans⟩ := validate_eq_ok_iff.mp valid
  obtain ⟨holds, top⟩ := Arena.holds_tree wellFormed
  have bands := Optimizer.everyBand_of_bands wellFormed spans
  have sound : scop.Sound domains := ⟨holds, top, found, bands.imp fun band spans => spans.fits⟩
  have whole : result.schedule.isWellFormed = true ∧ result.schedule.domains? = some domains ∧
      ∀ id ∈ result.schedule.bands, ∀ band, result.schedule.band? id = some band →
        band.Spans scop.nParam domains := by
    by_cases same : result.schedule = scop.schedule
    · rw [same]
      exact ⟨wellFormed, found, spans⟩
    · obtain rfl := kept.resolve_right same
      exact (sound.candidate bands does).resolve_left same
  refine ⟨validate_eq_ok_iff.mpr ?_, whole.1, domains, found, whole.2⟩
  exact ⟨statements, whole.1, domains, whole.2.1, bound, whole.2.2⟩

/-- The optimized grid, in which full and partial tiles are kept apart, is valid again. -/
theorem grid_validates : ∃ result, grid.optimize .standard none = .ok (.ok result) ∧
    result.profitable = true ∧ result.schedule.bands.length = 5 ∧
    { grid with schedule := result.schedule }.validate = .ok () ∧
      result.schedule.isWellFormed = true ∧ ∃ domains, grid.schedule.domains? = some domains ∧
        result.schedule.domains? = some domains ∧
        ∀ id ∈ result.schedule.bands, ∀ band, result.schedule.band? id = some band →
          band.Spans grid.nParam domains := by
  obtain ⟨result, optimized, checked⟩ := exists_ok_of_any (p := fun result : Optimized =>
      result.profitable && decide (result.schedule.bands.length = 5))
    (show ((grid.optimize .standard none).toOption.bind Except.toOption).any _ = true by
      decide +kernel)
  obtain ⟨profitable, count⟩ : result.profitable = true ∧ result.schedule.bands.length = 5 := by
    simpa only [Bool.and_eq_true, decide_eq_true_eq] using checked
  exact ⟨result, optimized, profitable, count, optimize_validates optimized⟩

end Scop

end LoopNest
