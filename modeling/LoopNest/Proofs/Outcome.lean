import LoopNest.Proofs.Edits
import LoopNest.Proofs.Graft

/-! A walk that does not fault finds a time stamp or fails with an error, and the error says what
stops the instance. When a band is replaced by a tree that stops the same instances, errors stay as
they are, and so do the time stamps of all instances that do not come to the band. -/

namespace LoopNest

def NodeKind.obstacle : NodeKind → Obstacle
  | .band _ => .notInBand
  | .filter _ => .filteredOut
  | _ => .noBranch

namespace Tree

variable {x : Iteration}

def obstacle? (x : Iteration) : Tree → Option Obstacle
  | missing _ => some .danglingNode
  | node _ kind _ child =>
    match onward x child kind with
    | none => some kind.obstacle
    | some (_, none) => none
    | some (_, some i) => (child i).obstacle? x

theorem obstacle?_next {id arity : Nat} {kind : NodeKind} {child : Fin arity → Tree} {i : Fin arity}
    {entries : List Int} (step : onward x child kind = some (entries, some i)) :
    (node id kind arity child).obstacle? x = (child i).obstacle? x := by
  rw [obstacle?, step]

theorem obstacle?_eq_none {t : Tree} {visits : List Visit} (way : t.way x = some visits) :
    t.obstacle? x = none := by
  induction t generalizing visits with
  | missing => simp [Tree.way] at way
  | node id kind arity child ih =>
    obtain ⟨entries, later, rfl, ⟨step, rfl⟩ | ⟨i, step, below⟩⟩ := way_eq_some way
    · rw [obstacle?, step]
    · rw [obstacle?_next step, ih i below]

/-- A node that lets an instance through does not fail, and one that fails names its obstacle. -/
theorem error_of_step {arity : Nat} {child : Fin arity → Tree} {kind : NodeKind} {e : EvalError}
    (h : (step child x.stmt x.point x.params kind).run = .ok (.error e)) :
    onward x child kind = none ∧ e = .unscheduled x.stmt x.point kind.obstacle := by
  refine ⟨(step_agrees child x kind).eq_none h, ?_⟩
  have branching : ∀ {e}, (step.branching child x.stmt x.point x.params).run = .ok (.error e) →
      e = .unscheduled x.stmt x.point .noBranch := by
    intro e h
    rcases Eval.run_bind_ok h with ⟨_, chosen, -⟩ | ⟨r, -, h⟩
    · have found := (Eval.agrees_lift fun r h => find_of_findM h).eq_none chosen
      cases found
    · cases r with
      | none =>
        cases h
        rfl
      | some i => cases h
  cases kind with
  | domain domains => cases h
  | band band =>
    simp only [step] at h
    split at h
    · cases h
      rfl
    · rcases Eval.run_bind_ok h with ⟨_, evaluated, -⟩ | ⟨entries, -, h⟩
      · have found := (Eval.agrees_mapM (g := x.value) fun e => Eval.agrees_lift fun r h =>
          Quasi.eq_value_of_eval h).eq_none evaluated
        cases found
      · cases h
  | sequence => exact branching h
  | set => exact branching h
  | filter filter =>
    rcases Eval.run_bind_ok h with ⟨_, passed, -⟩ | ⟨passes, -, h⟩
    · have found := (Eval.agrees_lift fun r h => Filter.admits_of_passes h).eq_none passed
      cases found
    · cases passes with
      | false =>
        cases h
        rfl
      | true => cases h
  | leaf => cases h

/-- A walk that fails names what stops the instance. -/
theorem error_of_visits {t : Tree} {e : EvalError}
    (h : (t.visits x.stmt x.point x.params).run = .ok (.error e)) :
    ∃ obstacle, t.obstacle? x = some obstacle ∧ e = .unscheduled x.stmt x.point obstacle := by
  induction t with
  | missing =>
    cases h
    exact ⟨_, rfl, rfl⟩
  | node id kind arity child ih =>
    rw [visits] at h
    rcases Eval.run_bind_ok h with ⟨_, failed, same⟩ | ⟨⟨entries, next?⟩, stepped, h⟩
    · cases same
      obtain ⟨step, rfl⟩ := error_of_step failed
      exact ⟨_, by rw [obstacle?, step], rfl⟩
    · have step := (step_agrees child x kind).eq_some stepped
      cases next? with
      | none => cases h
      | some i =>
        rw [obstacle?_next step]
        rcases Eval.run_bind_ok h with ⟨_, failed, same⟩ | ⟨below, -, h⟩
        · cases same
          exact ih i failed
        · cases h

end Tree

namespace Arena

variable {a b : Arena} {x : Iteration} {e : EvalError}

def failure? (a : Arena) (x : Iteration) : Option EvalError :=
  match a.domains? with
  | none => some (.unscheduled x.stmt x.point .noDomainRoot)
  | some domains =>
    match domains.get? x.stmt with
    | none => some (.unknownStatement x.stmt)
    | some domain =>
      if x.params.length < domain.nParam then
        some (.missingParameter domain.nParam x.params.length)
      else
        (a.tree.obstacle? x).map (.unscheduled x.stmt x.point)

theorem failure?_of_timestamp
    (h : (a.timestamp x.stmt x.point x.params).run = .ok (.error e)) : a.failure? x = some e := by
  rcases Eval.run_bind_ok h with ⟨_, failed, same⟩ | ⟨_, -, h⟩
  · cases same
    rw [visits] at failed
    rw [failure?]
    cases found : a.domains? with
    | none =>
      rw [found] at failed
      cases failed
      rfl
    | some domains =>
      simp only [found] at failed ⊢
      cases foundDomain : domains.get? x.stmt with
      | none =>
        simp only [foundDomain] at failed ⊢
        cases failed
        rfl
      | some domain =>
        simp only [foundDomain] at failed ⊢
        by_cases short : x.params.length < domain.nParam
        · rw [if_pos short] at failed ⊢
          cases failed
          rfl
        · rw [if_neg short] at failed ⊢
          obtain ⟨obstacle, stops, rfl⟩ := Tree.error_of_visits failed
          rw [stops, Option.map_some]
  · cases h

theorem failure?_eq_none {visits : List Visit} (way : a.way x = some visits) :
    a.failure? x = none := by
  simp only [Arena.way, Option.bind_eq_some_iff] at way
  obtain ⟨domain, ⟨domains, found, foundDomain⟩, way⟩ := way
  simp only [failure?, found, foundDomain]
  split at way
  · cases way
  · rename_i enough
    rw [if_neg enough, Tree.obstacle?_eq_none way, Option.map_none]

/-- The checks on the domains fail, or the walk goes down the tree. -/
theorem visits_eq_throw_or_tree (a : Arena) (x : Iteration) :
    (∃ e, ∀ b : Arena, b.domains? = a.domains? → b.visits x.stmt x.point x.params = throw e) ∨
      ∀ b : Arena, b.domains? = a.domains? →
        b.visits x.stmt x.point x.params = b.tree.visits x.stmt x.point x.params := by
  cases domains? : a.domains? with
  | none => exact .inl ⟨_, fun b same => by rw [Arena.visits, same]⟩
  | some domains =>
    cases found : domains.get? x.stmt with
    | none => exact .inl ⟨_, fun b same => by simp [Arena.visits, same, found]; rfl⟩
    | some domain =>
      by_cases short : x.params.length < domain.nParam
      · exact .inl ⟨_, fun b same => by simp [Arena.visits, same, found, short]; rfl⟩
      · exact .inr fun b same => by simp [Arena.visits, same, found, short]

/-- Past the checks on the domains, an instance has the way that the tree gives it. -/
theorem way_eq_tree {visits : List Visit} (same : b.domains? = a.domains?)
    (way : a.way x = some visits) : b.way x = b.tree.way x := by
  simp only [Arena.way, Option.bind_eq_some_iff] at way
  obtain ⟨domain, ⟨domains, found, foundDomain⟩, way⟩ := way
  simp only [Arena.way, same, found, foundDomain, Option.bind_some]
  split at way
  · cases way
  · rename_i enough
    rw [if_neg enough]

end Arena

/-! ## Replaced trees -/

namespace Tree

variable {a : Arena} {x : Iteration} {above : List Frame} {t t' whole whole' : Tree}

theorem Grafted.symm (graft : Grafted t t' above whole whole') :
    Grafted t' t above whole' whole := by
  induction graft with
  | here => exact .here
  | @inside above id arity kind child c i graft ih =>
    have back : Grafted t' t ((id, kind) :: above) (node id kind arity (Function.update child i c))
        (node id kind arity (Function.update (Function.update child i c) i (child i))) :=
      .inside i (by simpa using ih)
    simpa using back

theorem Grafted.accepts_eq (graft : Grafted t t' above whole whole')
    (tops : t'.accepts x.stmt x.point x.params = t.accepts x.stmt x.point x.params) :
    whole'.accepts x.stmt x.point x.params = whole.accepts x.stmt x.point x.params := by
  cases graft with
  | here => exact tops
  | @inside _ _ _ kind _ _ i graft => cases kind <;> rfl

/-- The instance comes to the replaced tree, and nothing stops it before. -/
structure Arrives (x : Iteration) (t t' whole whole' : Tree) (pre : List Visit) : Prop
    extends Comes x t t' whole whole' pre where
  stops : whole.obstacle? x = t.obstacle? x
  stops' : whole'.obstacle? x = t'.obstacle? x

structure Passes (x : Iteration) (t whole whole' : Tree) : Prop where
  way : whole'.way x = whole.way x
  stops : whole'.obstacle? x = whole.obstacle? x
  avoids : ∀ visits, whole.way x = some visits → ∀ visit ∈ visits, visit.id ∉ t.ids

theorem Passes.inside {id arity : Nat} {kind : NodeKind} {child child' : Fin arity → Tree}
    {i : Fin arity} {entries : List Int} (passes : Passes x t (child i) (child' i))
    (same : ∀ k, (child' k).admits x = (child k).admits x)
    (step : onward x child kind = some (entries, some i)) (outside : id ∉ t.ids) :
    Passes x t (node id kind arity child) (node id kind arity child') := by
  have step' := (onward_congr kind same).trans step
  refine ⟨by rw [way_next step, way_next step', passes.way],
    by rw [obstacle?_next step, obstacle?_next step', passes.stops], fun visits way => ?_⟩
  obtain ⟨later, below, rfl⟩ := Option.map_eq_some_iff.mp ((way_next step).symm.trans way)
  intro visit member
  rcases List.mem_cons.mp member with rfl | member
  · exact outside
  · exact passes.avoids later below visit member

/-- Every instance comes to a replaced tree or passes it by. -/
theorem Grafted.arrives_or_passes (graft : Grafted t t' above whole whole') (holds : a.Holds whole)
    (admits : ∀ y, t'.admits y = t.admits y) (x : Iteration) :
    (∃ pre, Arrives x t t' whole whole' pre) ∨ Passes x t whole whole' := by
  induction graft with
  | here => exact .inl ⟨[], ⟨by simp, by simp, fun _ y => .inl ⟨by simp, by simp⟩⟩, rfl, rfl⟩
  | @inside above id arity kind child c i graft ih =>
    obtain ⟨outside, -, apart⟩ := nodup_ids_node.mp holds.distinct
    have within : ∀ id ∈ t.ids, id ∈ (child i).ids := fun _ => graft.symm.under.mem_ids
    have notHere : id ∉ t.ids := fun member => outside i (within id member)
    have same : ∀ y k, (Function.update child i c k).admits y = (child k).admits y := by
      intro y k
      by_cases here : k = i
      · subst here
        simpa using graft.admits (admits y)
      · simp [here]
    rcases step : onward x child kind with _ | ⟨entries, _ | j⟩
    · have step' := (onward_congr kind (same x)).trans step
      refine .inr ⟨?_, by rw [obstacle?, obstacle?, step, step'], fun visits way => ?_⟩
      · simp [Tree.way, step, step']
      · simp [Tree.way, step] at way
    · have step' := (onward_congr kind (same x)).trans step
      refine .inr ⟨?_, by rw [obstacle?, obstacle?, step, step'], fun visits way => ?_⟩
      · simp [Tree.way, step, step']
      · obtain rfl : [⟨id, entries⟩] = visits := by simpa [Tree.way, step] using way
        simpa using notHere
    · by_cases here : j = i
      · subst here
        have step' := (onward_congr kind (same x)).trans step
        rcases ih (holds.child j) with ⟨pre, arrives⟩ | passes
        · refine .inl ⟨_, arrives.toComes.inside same step, ?_, ?_⟩
          · rw [obstacle?_next step, arrives.stops]
          · rw [obstacle?_next step', Function.update_self, arrives.stops']
        · exact .inr (.inside (by simpa using passes) (same x) step notHere)
      · refine .inr (.inside ?_ (same x) step notHere)
        rw [Function.update_of_ne here]
        refine ⟨rfl, rfl, fun visits way visit member inT => ?_⟩
        exact apart j i here _ (mem_ids_of_way way member) (within _ inT)

theorem nodup_of_way (holds : a.Holds t) {visits : List Visit} (way : t.way x = some visits) :
    (visits.map (·.id)).Nodup := by
  induction t generalizing visits with
  | missing => exact holds.stored.elim
  | node id kind arity child ih =>
    obtain ⟨outside, -, -⟩ := nodup_ids_node.mp holds.distinct
    obtain ⟨entries, later, rfl, ⟨-, rfl⟩ | ⟨i, -, below⟩⟩ := way_eq_some way
    · simp
    · refine List.nodup_cons.mpr ⟨fun member => ?_, ih i (holds.child i) below⟩
      obtain ⟨visit, inLater, rfl⟩ := List.mem_map.mp member
      exact outside i (mem_ids_of_way below inLater)

/-- A way that visits no node twice is split at a node in one manner only. -/
theorem split_unique {pre pre' later later' : List Visit} {visit visit' : Visit}
    (distinct : ((pre ++ visit :: later).map (·.id)).Nodup)
    (split : pre ++ visit :: later = pre' ++ visit' :: later') (same : visit.id = visit'.id) :
    pre = pre' ∧ visit = visit' ∧ later = later' := by
  induction pre generalizing pre' with
  | nil =>
    cases pre' with
    | nil => simpa using split
    | cons other rest =>
      obtain ⟨rfl, rfl⟩ := List.cons.inj split
      simp [same] at distinct
  | cons head rest ih =>
    cases pre' with
    | nil =>
      obtain ⟨rfl, rfl⟩ := List.cons.inj split
      simp [same] at distinct
    | cons other rest' =>
      obtain ⟨rfl, tail⟩ := List.cons.inj split
      obtain ⟨rfl, rest⟩ := ih (List.nodup_cons.mp distinct).2 tail
      exact ⟨rfl, rest⟩

def isBand : Tree → Bool
  | node _ (.band _) _ _ => true
  | _ => false

theorem admits_of_isBand (h : t.isBand = true) (x : Iteration) : t.admits x = true := by
  cases t with
  | missing => simp [isBand] at h
  | node id kind arity child => cases kind <;> simp_all [isBand, admits]

theorem accepts_of_isBand (h : t.isBand = true) (x : Iteration) :
    t.accepts x.stmt x.point x.params = .ok true := by
  cases t with
  | missing => simp [isBand] at h
  | node id kind arity child => cases kind <;> simp_all [isBand, accepts]

def domains? : Tree → Option (StmtMap Polyhedron)
  | node _ (.domain domains) _ _ => some domains
  | _ => none

theorem domains?_of_isBand (h : t.isBand = true) : t.domains? = none := by
  cases t with
  | missing => rfl
  | node id kind arity child => cases kind <;> simp_all [isBand, domains?]

theorem Grafted.domains? (graft : Grafted t t' above whole whole')
    (tops : t'.domains? = t.domains?) : whole'.domains? = whole.domains? := by
  cases graft with
  | here => exact tops
  | @inside _ _ _ kind _ _ i graft => cases kind <;> rfl

theorem way_top {visits : List Visit} (way : t.way x = some visits) :
    ∃ entries later, visits = ⟨t.top, entries⟩ :: later := by
  cases t with
  | missing => simp [Tree.way] at way
  | node id kind arity child =>
    obtain ⟨entries, later, rfl, -⟩ := way_eq_some way
    exact ⟨entries, later, rfl⟩

end Tree

namespace Arena

/-- A band in the tree of an arena has been replaced, and the rest of the tree has been kept. -/
structure Replaces (a b : Arena) (above : List Frame) (t t' : Tree) : Prop where
  holds : a.Holds a.tree
  holds' : b.Holds b.tree
  graft : Tree.Grafted t t' above a.tree b.tree
  isBand : t.isBand = true
  isBand' : t'.isBand = true
  domains : b.domains? = a.domains?

variable {a b : Arena} {above : List Frame} {t t' : Tree}

theorem Holds.domains?_eq (holds : a.Holds t) (top : a.root = t.top) : a.domains? = t.domains? := by
  cases t with
  | missing => exact holds.stored.elim
  | node id kind arity child =>
    unfold Arena.domains?
    rw [top, Tree.top_node, kind?_eq holds.stored.1]
    cases kind <;> rfl

theorem Locates.everyBand {P : Band → Prop} (located : a.Locates above t)
    (bands : a.tree.EveryBand P) : t.EveryBand P := by
  obtain ⟨whole, top, holds, under⟩ := located
  rw [tree, top, holds.treeAt_eq] at bands
  exact under.everyBand bands

theorem Locates.root_eq (located : a.Locates above t) : a.root = a.tree.top := by
  obtain ⟨whole, top, holds, -⟩ := located
  rw [tree, top, holds.treeAt_eq]

/-- The band that is reached at a position. -/
theorem exists_locates_band {id : Nat} (wellFormed : a.isWellFormed = true)
    (reached : id ∈ a.bands) :
    ∃ above band arity child, a.Locates above (.node id (.band band) arity child) := by
  obtain ⟨member, isBand⟩ := List.mem_filter.mp reached
  obtain ⟨above, kind, arity, child, located⟩ := exists_locates wellFormed member
  rw [band?, kind?_eq located.holds.stored.1] at isBand
  cases kind with
  | band band => exact ⟨above, band, arity, child, located⟩
  | _ => simp at isBand

theorem Locates.replaces (located : a.Locates above t) (rework : a.Reworks b t t')
    (isBand : t.isBand = true) (isBand' : t'.isBand = true) : a.Replaces b above t t' := by
  obtain ⟨whole, top, holds, under⟩ := located
  obtain ⟨whole', graft, reworked⟩ := under.rework holds rework
  obtain rfl : a.tree = whole := by rw [tree, top, holds.treeAt_eq]
  have top' : b.root = whole'.top := by rw [reworked.root, top, reworked.top]
  obtain rfl : b.tree = whole' := by rw [tree, top', reworked.holds.treeAt_eq]
  refine ⟨holds, reworked.holds, graft, isBand, isBand', ?_⟩
  rw [reworked.holds.domains?_eq top', holds.domains?_eq top]
  have bands := (Tree.domains?_of_isBand isBand').trans (Tree.domains?_of_isBand isBand).symm
  exact graft.domains? bands

namespace Replaces

variable {x : Iteration} {e : EvalError} {visits pre later : List Visit} {v : List Int}
  {r s : Except EvalError (List Int)}

theorem arrives_or_passes (replaces : a.Replaces b above t t') (x : Iteration) :
    (∃ pre, Tree.Arrives x t t' a.tree b.tree pre) ∨ Tree.Passes x t a.tree b.tree := by
  refine replaces.graft.arrives_or_passes replaces.holds (fun y => ?_) x
  rw [Tree.admits_of_isBand replaces.isBand, Tree.admits_of_isBand replaces.isBand']

theorem symm (replaces : a.Replaces b above t t') : b.Replaces a above t' t :=
  ⟨replaces.holds', replaces.holds, replaces.graft.symm, replaces.isBand', replaces.isBand,
    replaces.domains.symm⟩

/-- If the new tree stops the same instances, a walk fails as it failed. -/
theorem failure?_eq (replaces : a.Replaces b above t t') (stops : t'.obstacle? x = t.obstacle? x) :
    b.failure? x = a.failure? x := by
  have whole : b.tree.obstacle? x = a.tree.obstacle? x := by
    rcases replaces.arrives_or_passes x with ⟨pre, arrives⟩ | passes
    · rw [arrives.stops', stops, arrives.stops]
    · exact passes.stops
  rw [failure?, failure?, replaces.domains, whole]

/-- A way that visits the band goes on with what replaces it. -/
theorem arrives (replaces : a.Replaces b above t t')
    (way : (a.visits x.stmt x.point x.params).run = .ok (.ok (pre ++ ⟨t.top, v⟩ :: later))) :
    Tree.Arrives x t t' a.tree b.tree pre ∧ t.way x = some (⟨t.top, v⟩ :: later) := by
  have onTree := way_eq_some ((a.visits_agrees x).eq_some way)
  rcases replaces.arrives_or_passes x with ⟨pre', arrives⟩ | passes
  · obtain ⟨below, found, split⟩ := Option.map_eq_some_iff.mp (arrives.old.symm.trans onTree)
    obtain ⟨entries, rest, rfl⟩ := Tree.way_top found
    obtain ⟨rfl, same, rfl⟩ := Tree.split_unique (Tree.nodup_of_way replaces.holds onTree)
      split.symm rfl
    exact ⟨arrives, same ▸ found⟩
  · have holds : a.Holds t := replaces.graft.symm.under.holds replaces.holds
    exact absurd holds.stored.top_mem (passes.avoids _ onTree ⟨t.top, v⟩ (by simp))

/-- If what replaces the band schedules the instances that the band did, all stay scheduled. -/
theorem exists_way (replaces : a.Replaces b above t t')
    (scheduled : ∀ visits, t.way x = some visits → ∃ visits', t'.way x = some visits')
    (way : a.way x = some visits) : ∃ visits', b.way x = some visits' := by
  rw [way_eq_tree replaces.domains way]
  have onTree := way_eq_some way
  rcases replaces.arrives_or_passes x with ⟨pre, arrives⟩ | passes
  · obtain ⟨below, found, -⟩ := Option.map_eq_some_iff.mp (arrives.old.symm.trans onTree)
    obtain ⟨below', found'⟩ := scheduled below found
    exact ⟨pre ++ below', by rw [arrives.new, found', Option.map_some]⟩
  · exact ⟨visits, passes.way.trans onTree⟩

/-- An instance that comes to the band keeps its way above it. -/
theorem way_through (replaces : a.Replaces b above t t')
    (way : (a.visits x.stmt x.point x.params).run = .ok (.ok visits))
    (arrives : Tree.Arrives x t t' a.tree b.tree pre) {below : List Visit}
    (found : t'.way x = some below) : b.way x = some (pre ++ below) := by
  rw [way_eq_tree replaces.domains ((a.visits_agrees x).eq_some way), arrives.new, found,
    Option.map_some]

end Replaces

end Arena

end LoopNest
