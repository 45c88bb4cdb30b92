import LoopNest.Proofs.Rewrite

/-! What is known of the schedule of a valid scop, and how the schedule that the optimizer returns
comes from it: it is the same, or it is a compact copy of the rewritten tree. -/

namespace LoopNest

def Band.Fits (domains : StmtMap Polyhedron) (band : Band) : Prop :=
  ∀ stmt exprs, band.schedule.get? stmt = some exprs → exprs.length = band.nMembers ∧
    ∃ domain, domains.get? stmt = some domain ∧ ∀ e ∈ exprs, e.nDim = domain.nDim

theorem Band.Fits.hasArity {domains : StmtMap Polyhedron} {band : Band} (fits : band.Fits domains) :
    band.HasArity :=
  Band.hasArity_iff.mpr fun stmt exprs found => (fits stmt exprs found).1

theorem exists_ok_of_any {α ε : Type} {result : Checked (Except ε α)} {p : α → Bool}
    (h : (result.toOption.bind Except.toOption).any p = true) :
    ∃ value, result = .ok (.ok value) ∧ p value = true := by
  rcases result with fault | failure | value
  · simp [Except.toOption] at h
  · simp [Except.toOption] at h
  · exact ⟨value, rfl, by simpa [Except.toOption] using h⟩

namespace Scop

theorem forM_eq_ok {α ε : Type} {items : List α} {f : α → Except ε Unit} {r : Unit}
    (h : items.forM f = .ok r) : ∀ item ∈ items, f item = .ok () := by
  induction items with
  | nil => simp
  | cons item rest ih =>
    rw [List.forM_eq_forM, List.forM_cons] at h
    cases first : f item with
    | error => simp [first, bind, Except.bind] at h
    | ok =>
      simp only [first, bind, Except.bind] at h
      exact List.forall_mem_cons.mpr ⟨first, ih h⟩

structure Sound (scop : Scop) (domains : StmtMap Polyhedron) : Prop where
  holds : scop.schedule.Holds scop.schedule.tree
  top : scop.schedule.tree.top = scop.schedule.root
  domains? : scop.schedule.domains? = some domains
  bands : scop.schedule.tree.EveryBand (Band.Fits domains)

theorem fits_of_checkBand {scop : Scop} {domains : StmtMap Polyhedron} {id : Nat} {band : Band}
    (found : scop.schedule.band? id = some band)
    (checked : checkBand scop.nParam domains scop.schedule id = .ok ()) : band.Fits domains := by
  intro stmt exprs member
  simp only [checkBand, found] at checked
  have own := forM_eq_ok checked _ (StmtMap.get?_eq_some_iff.mp member)
  simp only [checkExprs] at own
  cases domain? : domains.get? stmt with
  | none => simp [domain?] at own
  | some domain =>
    simp only [domain?] at own
    split at own
    · cases own
    · rename_i length
      refine ⟨by simpa using length, domain, rfl, fun e inside => ?_⟩
      split at own
      · cases own
      · rename_i none
        have := List.find?_eq_none.mp none e inside
        simp_all

theorem validate_cases {scop : Scop} (valid : scop.validate = .ok ()) :
    scop.schedule.isWellFormed = true ∧ ∃ domains, scop.schedule.domains? = some domains ∧
      ∀ id ∈ scop.schedule.bands, checkBand scop.nParam domains scop.schedule id = .ok () := by
  unfold validate at valid
  cases statements : scop.statements.forM (checkStatement scop.nParam) with
  | error => simp [statements, bind, Except.bind] at valid
  | ok =>
    simp only [statements, bind, Except.bind] at valid
    cases wellFormed : scop.schedule.isWellFormed with
    | false => simp [wellFormed, throw, throwThe, MonadExceptOf.throw] at valid
    | true =>
      simp only [wellFormed, Bool.not_true, Bool.false_eq_true, if_false] at valid
      cases domains? : scop.schedule.domains? with
      | none => simp [domains?, throw, throwThe, MonadExceptOf.throw] at valid
      | some domains =>
        simp only [domains?] at valid
        split at valid
        · cases valid
        · exact ⟨rfl, domains, rfl, forM_eq_ok valid⟩

theorem sound_of_validate {scop : Scop} (valid : scop.validate = .ok ()) :
    ∃ domains, scop.Sound domains := by
  obtain ⟨wellFormed, domains, domains?, checked⟩ := validate_cases valid
  obtain ⟨holds, top⟩ := Arena.holds_tree wellFormed
  refine ⟨domains, holds, top, domains?, holds.everyBand fun id member band found => ?_⟩
  refine fits_of_checkBand found (checked id ?_)
  exact (Arena.mem_bands holds top.symm).mpr ⟨member, by simp [found]⟩

end Scop

def Arena.Roots (a : Arena) (t : Tree) : Prop := a.Holds t ∧ a.root = t.top

theorem Arena.Roots.tree_eq {a : Arena} {t : Tree} (roots : a.Roots t) : a.tree = t := by
  rw [tree, roots.2, roots.1.treeAt_eq]

namespace Optimizer

variable {o : Optimizer} {a b : Arena} {domains : StmtMap Polyhedron} {decisions : List Decision}

/-- The tree of a schedule starts with its domains. -/
theorem tree_eq_node (holds : a.Holds a.tree) (top : a.tree.top = a.root)
    (found : a.domains? = some domains) :
    ∃ arity child, a.tree = .node a.root (.domain domains) arity child := by
  generalize a.tree = t at holds top
  cases t with
  | missing => exact holds.stored.elim
  | node id kind arity child =>
    obtain rfl : id = a.root := top
    have kind? := Arena.kind?_eq holds.stored.1
    have : kind = .domain domains := by
      rw [Arena.domains?, kind?] at found
      cases kind <;> simp_all
    exact ⟨arity, child, by rw [this]⟩

theorem optimizeNode_rewrites (holds : a.Holds a.tree) (top : a.tree.top = a.root)
    (found : a.domains? = some domains) (arities : a.tree.EveryBand Band.HasArity)
    (does : (o.optimizeNode a.root).Does a decisions b) :
    ∃ t', a.Reworks b a.tree t' ∧ Tree.Rewritten domains [] a.tree t' decisions := by
  simp only [optimizeNode, Edit.does_bind, Edit.does_get] at does
  obtain ⟨_, _, ⟨rfl, rfl⟩, does⟩ := does
  obtain ⟨arity, child, shape⟩ := tree_eq_node holds top found
  have located : a.Locates [] (.node a.root (.domain domains) arity child) :=
    ⟨_, rfl, shape ▸ holds, .here _⟩
  rw [shape] at arities ⊢
  generalize a.descentLimit = levels at does
  cases levels with
  | zero =>
    obtain ⟨rfl, rfl⟩ := Edit.does_pure.mp does
    exact ⟨_, .refl located.holds, .refl located.holds.stored _⟩
  | succ levels =>
    simp only [optimizeLevels, Edit.does_bind, Edit.does_get] at does
    obtain ⟨_, _, ⟨rfl, rfl⟩, rs, m, mapped, _, _, ⟨rfl, rfl⟩, does⟩ := does
    obtain ⟨after, below, reworks, rewritten, flat⟩ := children_rewrites
      (fun i a b ds located does => optimizeLevels_rewrites located (arities.2 i) does) located
      mapped
    have none : m.band? a.root = none := by
      simp [Arena.band?, Arena.kind?_eq reworks.holds.stored.1]
    simp only [none, Edit.does_pure] at does
    obtain ⟨rfl, rfl⟩ := does
    rw [flat, ← List.append_nil ((List.finRange arity).flatMap below)]
    exact ⟨_, reworks, .keep [] rewritten (by simp)⟩

/-- The schedule stays, or it becomes a compact copy of the rewritten tree. -/
theorem optimizeSchedule_rewrites (holds : a.Holds a.tree) (top : a.tree.top = a.root)
    (found : a.domains? = some domains) (arities : a.tree.EveryBand Band.HasArity)
    (does : o.optimizeSchedule.Does a decisions b) :
    a = b ∨ ∃ t' copy, Tree.Rewritten domains [] a.tree t' decisions ∧ t'.Alike copy ∧
      b.Roots copy := by
  unfold optimizeSchedule at does
  split at does
  · simp only [Edit.compact, Edit.does_bind, Edit.does_get, Edit.does_lift, Edit.does_pure] at does
    obtain ⟨_, _, ⟨rfl, rfl⟩, ds, m, optimized, _, _, ⟨_, _, ⟨rfl, rfl⟩, b', _, ⟨compacted, rfl⟩,
      last⟩, rfl, rfl⟩ := does
    cases last
    obtain ⟨t', reworks, rewritten⟩ := optimizeNode_rewrites holds top found arities optimized
    have root : m.root = t'.top := by rw [reworks.root, reworks.top, top]
    obtain ⟨copy, holdsCopy, rootCopy, alike⟩ := Arena.holds_of_compact reworks.holds root compacted
    exact .inr ⟨t', copy, rewritten, alike, holdsCopy, rootCopy⟩
  · obtain ⟨-, rfl⟩ := Edit.does_pure.mp does
    exact .inl rfl

end Optimizer

namespace Scop

variable {scop : Scop} {config : Config} {target : Option Target} {result : Optimized}
  {domains : StmtMap Polyhedron}

/-- The optimizer makes a candidate, and the schedule of the scop gives way to it if it is
profitable. -/
theorem optimize_candidate (h : scop.optimize config target = .ok (.ok result)) :
    scop.validate = .ok () ∧ ∃ candidate,
      (Optimizer.optimizeSchedule ⟨scop, config, target⟩).Does scop.schedule result.decisions
        candidate ∧
      result.profitable = scop.isProfitable candidate ∧
      result.schedule = if result.profitable then candidate else scop.schedule := by
  unfold optimize at h
  cases valid : scop.validate with
  | error => simp [valid] at h
  | ok =>
    simp only [valid, Checked.bind_eq_ok_iff] at h
    obtain ⟨outcome, committed, h⟩ := h
    cases outcome with
    | error => cases h
    | ok outcome =>
      obtain ⟨decisions, candidate⟩ := outcome
      cases h
      exact ⟨rfl, candidate, Edit.commit_eq_ok.mp committed, rfl, rfl⟩

theorem optimize_cases (h : scop.optimize config target = .ok (.ok result)) :
    scop.validate = .ok () ∧ ∃ candidate,
      (Optimizer.optimizeSchedule ⟨scop, config, target⟩).Does scop.schedule result.decisions
      candidate ∧
      (result.schedule = candidate ∨ result.schedule = scop.schedule) := by
  obtain ⟨valid, candidate, does, -, kept⟩ := optimize_candidate h
  refine ⟨valid, candidate, does, ?_⟩
  split at kept
  · exact .inl kept
  · exact .inr kept

/-- The schedule that is returned is that of the scop, or a copy of its rewritten tree. -/
theorem optimize_rewrites (h : scop.optimize config target = .ok (.ok result)) :
    ∃ domains, scop.Sound domains ∧ (result.schedule = scop.schedule ∨ ∃ t' copy,
      Tree.Rewritten domains [] scop.schedule.tree t' result.decisions ∧ t'.Alike copy ∧
      result.schedule.Roots copy) := by
  obtain ⟨valid, candidate, does, kept⟩ := optimize_cases h
  obtain ⟨domains, sound⟩ := sound_of_validate valid
  refine ⟨domains, sound, ?_⟩
  rcases kept with rfl | same
  · rcases Optimizer.optimizeSchedule_rewrites sound.holds sound.top sound.domains?
      (sound.bands.imp fun band fits => fits.hasArity) does with same | rewritten
    · exact .inl same.symm
    · exact .inr rewritten
  · exact .inl same

/-- The domains stay at the root. -/
theorem Sound.domains?_rewritten (sound : scop.Sound domains) {a : Arena} {t' copy : Tree}
    {decisions : List Decision}
    (rewritten : Tree.Rewritten domains [] scop.schedule.tree t' decisions) (alike : t'.Alike copy)
    (roots : a.Roots copy) : a.domains? = some domains := by
  obtain ⟨arity, child, shape⟩ := Optimizer.tree_eq_node sound.holds sound.top sound.domains?
  rw [shape] at rewritten
  cases rewritten with
  | keep own children kept =>
    cases alike with
    | @node _ id' _ kind' _ _ child' kinds _ =>
      have kind : kind' = .domain domains := by
        cases kind' <;> simp_all [NodeKind.plain]
      rw [Arena.domains?, roots.2, Tree.top_node, Arena.kind?_eq roots.1.stored.1, kind]

/-- The exact time stamps of an optimized schedule are those of the rewritten tree. -/
theorem Sound.stamp_rewritten (sound : scop.Sound domains) {a : Arena} {t' copy : Tree}
    {decisions : List Decision}
    (rewritten : Tree.Rewritten domains [] scop.schedule.tree t' decisions) (alike : t'.Alike copy)
    (roots : a.Roots copy) (x : Iteration) :
    a.stamp x = (domains.get? x.stmt).bind fun domain =>
      if x.params.length < domain.nParam then none else t'.stamp x := by
  rw [Arena.stamp_eq, sound.domains?_rewritten rewritten alike roots, roots.tree_eq, alike.stamp]
  rfl

theorem Sound.stamp_eq (sound : scop.Sound domains) (x : Iteration) :
    scop.schedule.stamp x = (domains.get? x.stmt).bind fun domain =>
      if x.params.length < domain.nParam then none else scop.schedule.tree.stamp x := by
  rw [Arena.stamp_eq, sound.domains?]
  rfl

/-! ## A small scop -/

/-- The points `0 ≤ i < 8`, `0 ≤ j < 8`. -/
def gridDomain : Polyhedron :=
  ⟨2, 0, [.nonneg ⟨0, [1, 0], []⟩, .nonneg ⟨7, [-1, 0], []⟩, .nonneg ⟨0, [0, 1], []⟩,
    .nonneg ⟨7, [0, -1], []⟩]⟩

theorem exists_of_mem_gridDomain {point : List Int} (mem : gridDomain.Mem point []) :
    ∃ i j : Fin 8, point = [(i.val : Int), (j.val : Int)] := by
  obtain ⟨length, holds⟩ := mem
  obtain ⟨i, j, rfl⟩ := List.length_eq_two.mp length
  simp [gridDomain, Constraint.Holds, Constraint.nonneg, Relation.holds, Affine.value,
    Affine.dotValue] at holds
  exact ⟨⟨i.toNat, by omega⟩, ⟨j.toNat, by omega⟩, by simp; omega⟩

def ofGrid (schedule : StmtMap Polyhedron → Arena) : Scop :=
  { name := "grid"
    parameters := []
    context := .whole 0 0
    statements := [⟨0, "S", ["i", "j"], gridDomain, []⟩]
    schedule := schedule (.ofList [(0, gridDomain)]) }

def grid : Scop := .ofGrid fun domains => .ofBand domains [⟨true, true⟩, ⟨true, true⟩]

end Scop

end LoopNest
