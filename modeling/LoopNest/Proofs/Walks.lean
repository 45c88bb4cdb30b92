import LoopNest.Proofs.Canonical
import LoopNest.Proofs.ProperWays

/-! Exact ways say nothing about faults. Here a tree that stands in another is replaced, and the
checked walk is followed: above the new tree, nothing is evaluated that was not evaluated above the
old one. A walk that comes to the old tree comes to the new one with the same entries, if the new
one takes the instance. A walk that passes the old tree by stays as it is, if nothing passed it by
because it was refused. -/

namespace LoopNest

/-- The first item that passes a checked test comes behind items that all fail it. -/
theorem Checked.findM?_eq_some_iff {α : Type} {f : α → Checked Bool} {items : List α} {item : α} :
    items.findM? f = .ok (some item) ↔ ∃ before after, items = before ++ item :: after ∧
      (∀ other ∈ before, f other = .ok false) ∧ f item = .ok true := by
  induction items with
  | nil => simp [List.findM?, pure, Except.pure]
  | cons head rest ih =>
    rw [List.findM?, Checked.bind_eq_ok_iff]
    constructor
    · rintro ⟨passes, tested, h⟩
      cases passes with
      | true =>
        cases h
        exact ⟨[], rest, rfl, by simp, tested⟩
      | false =>
        obtain ⟨before, after, rfl, failed, passed⟩ := ih.mp h
        exact ⟨head :: before, after, rfl, by simpa [tested] using failed, passed⟩
    · rintro ⟨before, after, split, failed, passed⟩
      cases before with
      | nil =>
        obtain ⟨rfl, rfl⟩ := List.cons.inj split
        exact ⟨true, passed, rfl⟩
      | cons other before =>
        obtain ⟨rfl, rfl⟩ := List.cons.inj split
        obtain ⟨tested, failed⟩ := List.forall_mem_cons.mp failed
        exact ⟨false, tested, ih.mpr ⟨before, after, rfl, failed, passed⟩⟩

theorem Eval.of_map_eq_pure {α β : Type} {f : α → β} {e : Eval α} {result : β}
    (h : f <$> e = pure result) : ∃ value, e = pure value ∧ f value = result := by
  rw [map_eq_pure_bind] at h
  rcases run_bind_ok h with ⟨_, _, ⟨⟩⟩ | ⟨value, ran, h⟩
  cases h
  exact ⟨value, ran, rfl⟩

namespace Tree

def timestamp (t : Tree) (x : Iteration) : Eval (List Int) :=
  (fun visits => visits.flatMap (·.entries)) <$> t.visits x.stmt x.point x.params

theorem Alike.timestamp {s t : Tree} (alike : s.Alike t) (x : Iteration) :
    s.timestamp x = t.timestamp x :=
  alike.entries x.stmt x.point x.params

/-! ## One step -/

section Step

variable {x : Iteration} {id arity : Nat} {kind : NodeKind} {child child' : Fin arity → Tree}
  {entries : List Int} {next? : Option (Fin arity)} {i : Fin arity}

theorem visits_next (stepped : step child x.stmt x.point x.params kind = pure (entries, some i)) :
    (node id kind arity child).visits x.stmt x.point x.params =
      (⟨id, entries⟩ :: ·) <$> (child i).visits x.stmt x.point x.params := by
  rw [visits, stepped, pure_bind, map_eq_pure_bind]

theorem timestamp_next
    (stepped : step child x.stmt x.point x.params kind = pure (entries, some i)) :
    (node id kind arity child).timestamp x = (entries ++ ·) <$> (child i).timestamp x := by
  rw [timestamp, visits_next stepped, timestamp, Functor.map_map, Functor.map_map]
  rfl

/-- A walk that succeeds in a tree has been let in. -/
theorem accepts_of_visits {t : Tree} {visits : List Visit}
    (walk : t.visits x.stmt x.point x.params = pure visits) :
    t.accepts x.stmt x.point x.params = .ok true := by
  cases t with
  | missing => cases walk
  | node id kind arity child =>
    cases kind with
    | filter filter =>
      obtain ⟨_, _, -, ⟨stepped, -⟩ | ⟨_, stepped, -⟩⟩ := visits_run walk <;>
      · rcases Eval.run_bind_ok stepped with ⟨_, _, ⟨⟩⟩ | ⟨passes, tested, stepped⟩
        cases passes with
        | false => cases stepped
        | true => exact Eval.lift_run tested
    | _ => rfl

/-- The branch that a sequence takes stays the same if one of the trees before it, or the branch
itself, is replaced by one that answers in the same way. -/
theorem branch?_update {c : Tree} {j : Fin arity}
    (chosen : branch? child x.stmt x.point x.params = .ok (some j))
    (taken : j = i → c.accepts x.stmt x.point x.params = .ok true)
    (passed : (child i).accepts x.stmt x.point x.params = .ok false →
      c.accepts x.stmt x.point x.params = .ok false) :
    branch? (Function.update child i c) x.stmt x.point x.params = .ok (some j) := by
  obtain ⟨before, after, split, failed, accepted⟩ := Checked.findM?_eq_some_iff.mp chosen
  refine Checked.findM?_eq_some_iff.mpr ⟨before, after, split, fun k earlier => ?_, ?_⟩
  · by_cases here : k = i
    · subst here
      rw [Function.update_self]
      exact passed (failed k earlier)
    · rw [Function.update_of_ne here]
      exact failed k earlier
  · by_cases here : j = i
    · subst here
      rw [Function.update_self]
      exact taken rfl
    · rw [Function.update_of_ne here]
      exact accepted

/-- A step is the same if the child that is replaced answers in the same way as far as it was
asked. -/
theorem step_update {c : Tree}
    (stepped : step child x.stmt x.point x.params kind = pure (entries, next?))
    (taken : next? = some i → c.accepts x.stmt x.point x.params = .ok true)
    (passed : (child i).accepts x.stmt x.point x.params = .ok false →
      c.accepts x.stmt x.point x.params = .ok false) :
    step (Function.update child i c) x.stmt x.point x.params kind = pure (entries, next?) := by
  have branching : step.branching child x.stmt x.point x.params = pure (entries, next?) →
      step.branching (Function.update child i c) x.stmt x.point x.params =
        pure (entries, next?) := by
    intro stepped
    rcases Eval.run_bind_ok stepped with ⟨_, _, ⟨⟩⟩ | ⟨chosen, found, h⟩
    cases chosen with
    | none => cases h
    | some j =>
      cases h
      have new := branch?_update (Eval.lift_run found) (fun here => taken (congrArg some here))
        passed
      rw [step.branching, new]
      rfl
  cases kind with
  | sequence => exact branching stepped
  | set => exact branching stepped
  | _ => exact stepped

end Step

section Band

variable {x : Iteration} {id arity : Nat} {child : Fin arity → Tree} {band : Band}
  {way : List Visit}

def visitsBelow (child : Fin arity → Tree) (x : Iteration) : Eval (List Visit) :=
  match first arity with
  | none => pure []
  | some i => (child i).visits x.stmt x.point x.params

@[simp] theorem visitsBelow_one (c : Tree) (x : Iteration) :
    visitsBelow (fun _ : Fin 1 => c) x = c.visits x.stmt x.point x.params := rfl

/-- A walk through a band evaluates the expressions of the statement, and goes on to the first
child. -/
theorem visits_scheduled {exprs : List Quasi} (found : band.schedule.get? x.stmt = some exprs) :
    (node id (.band band) arity child).visits x.stmt x.point x.params =
      (exprs.mapM fun e => (liftM (e.eval x.point x.params) : Eval Int)) >>= fun v =>
        (⟨id, v⟩ :: ·) <$> visitsBelow child x := by
  have next : (step.first : Option (Fin arity)) = first arity := rfl
  rw [visits, step, found, next, visitsBelow]
  dsimp only
  rw [bind_assoc]
  congr 1
  funext v
  rw [pure_bind]
  cases first arity with
  | none => rfl
  | some i => rw [map_eq_pure_bind]

theorem visits_unscheduled (absent : band.schedule.get? x.stmt = none) :
    (node id (.band band) arity child).visits x.stmt x.point x.params =
      throw (.unscheduled x.stmt x.point .notInBand) := by
  rw [visits, step, absent]
  rfl

/-- A walk that goes through a band has evaluated the expressions of the statement. -/
theorem visits_band
    (walk : (node id (.band band) arity child).visits x.stmt x.point x.params = pure way) :
    ∃ v later exprs, way = ⟨id, v⟩ :: later ∧ band.schedule.get? x.stmt = some exprs ∧
      exprs.mapM (·.eval x.point x.params) = .ok v ∧ visitsBelow child x = pure later := by
  cases found : band.schedule.get? x.stmt with
  | none =>
    rw [visits_unscheduled found] at walk
    cases walk
  | some exprs =>
    rw [visits_scheduled found] at walk
    rcases Eval.run_bind_ok walk with ⟨_, _, ⟨⟩⟩ | ⟨v, evaluated, rest⟩
    obtain ⟨later, onward, rfl⟩ := Eval.of_map_eq_pure rest
    exact ⟨v, later, exprs, rfl, rfl, Eval.mapM_lift_run evaluated, onward⟩

end Band

/-! ## The whole walk -/

section Graft

variable {a : Arena} {x : Iteration} {above : List Frame} {t t' whole whole' : Tree}
  {visits : List Visit}

theorem Grafted.accepts {result : Bool} (graft : Grafted t t' above whole whole')
    (top : t.accepts x.stmt x.point x.params = .ok result →
      t'.accepts x.stmt x.point x.params = .ok result)
    (old : whole.accepts x.stmt x.point x.params = .ok result) :
    whole'.accepts x.stmt x.point x.params = .ok result := by
  cases graft with
  | here => exact top old
  | @inside _ _ _ kind _ _ i graft => cases kind <;> exact old

/-- A walk that comes to the replaced tree goes on in what replaces it. -/
theorem Grafted.visits_through (graft : Grafted t t' above whole whole') (holds : a.Holds whole)
    (takes : ∀ later, t.visits x.stmt x.point x.params = pure later →
      t'.accepts x.stmt x.point x.params = .ok true)
    (walk : whole.visits x.stmt x.point x.params = pure visits)
    (meets : ∃ visit ∈ visits, visit.id ∈ t.ids) :
    ∃ pre later, visits = pre ++ later ∧ t.visits x.stmt x.point x.params = pure later ∧
      whole'.visits x.stmt x.point x.params =
        (pre ++ ·) <$> t'.visits x.stmt x.point x.params := by
  induction graft generalizing visits with
  | here => exact ⟨[], visits, rfl, walk, by simp⟩
  | @inside above id arity kind child c i graft ih =>
    obtain ⟨visit, member, inside⟩ := meets
    have within : visit.id ∈ (child i).ids := graft.symm.under.mem_ids inside
    obtain ⟨entries, _, onward, exactBelow, inLater⟩ :=
      way_of_meets holds ((visits_agrees x _).eq_some walk) member within
    obtain ⟨_, later, rfl, ⟨stepped, -⟩ | ⟨_, stepped, below⟩⟩ := visits_run walk
    · rw [(step_agrees child x kind).eq_some stepped] at onward
      cases onward
    · rw [(step_agrees child x kind).eq_some stepped] at onward
      cases onward
      obtain rfl : later = _ :=
        Option.some.inj (((visits_agrees x _).eq_some below).symm.trans exactBelow)
      obtain ⟨pre, rest, rfl, old, new⟩ := ih (holds.child i) below ⟨visit, inLater, inside⟩
      have accepted := graft.accepts (fun _ => takes rest old) (accepts_of_visits below)
      have stepped' := step_update (c := c) (i := i) stepped (fun _ => accepted) fun refused => by
        rw [accepts_of_visits below] at refused
        cases refused
      refine ⟨⟨id, entries⟩ :: pre, rest, rfl, old, ?_⟩
      rw [visits_next stepped', Function.update_self, new, Functor.map_map]
      rfl

/-- A walk that does not come to the replaced tree stays as it is. -/
theorem Grafted.visits_elsewhere (graft : Grafted t t' above whole whole')
    (open' : t.accepts x.stmt x.point x.params = .ok true)
    (walk : whole.visits x.stmt x.point x.params = pure visits)
    (avoids : ∀ visit ∈ visits, visit.id ≠ t.top) :
    whole'.visits x.stmt x.point x.params = pure visits := by
  induction graft generalizing visits with
  | here =>
    obtain ⟨entries, later, rfl⟩ := way_top ((visits_agrees x _).eq_some walk)
    exact absurd rfl (avoids ⟨t.top, entries⟩ (by simp))
  | @inside above id arity kind child c i graft ih =>
    have passed : (child i).accepts x.stmt x.point x.params = .ok false →
        c.accepts x.stmt x.point x.params = .ok false := by
      apply graft.accepts
      intro refused
      rw [open'] at refused
      cases refused
    obtain ⟨entries, later, rfl, ⟨stepped, rfl⟩ | ⟨j, stepped, below⟩⟩ := visits_run walk
    · rw [visits, step_update stepped (by simp) passed]
      rfl
    · have avoidsLater : ∀ visit ∈ later, visit.id ≠ t.top := fun visit member =>
        avoids visit (by simp [member])
      by_cases here : j = i
      · subst here
        have new := ih below avoidsLater
        rw [visits_next (step_update stepped (fun _ => accepts_of_visits new) passed),
          Function.update_self, new]
        rfl
      · have stepped' := step_update stepped (fun same => absurd (Option.some.inj same) here) passed
        rw [visits_next stepped', Function.update_of_ne here]
        exact congrArg _ below

/-- If what replaces the tree lets in what the tree let in, every walk, whatever its outcome, stays
as it is or comes to the tree. -/
theorem Grafted.visits_cases (graft : Grafted t t' above whole whole')
    (tops : t'.accepts x.stmt x.point x.params = t.accepts x.stmt x.point x.params) :
    whole'.visits x.stmt x.point x.params = whole.visits x.stmt x.point x.params ∨
      ∃ pre, whole.visits x.stmt x.point x.params =
          (pre ++ ·) <$> t.visits x.stmt x.point x.params ∧
        whole'.visits x.stmt x.point x.params =
          (pre ++ ·) <$> t'.visits x.stmt x.point x.params := by
  induction graft with
  | here => exact .inr ⟨[], by simp, by simp⟩
  | @inside above id arity kind child c i graft ih =>
    have same : ∀ k, (Function.update child i c k).accepts x.stmt x.point x.params =
        (child k).accepts x.stmt x.point x.params := by
      intro k
      by_cases here : k = i
      · subst here
        simpa using graft.accepts_eq tops
      · simp [here]
    have steps := step_congr kind same
    rcases stepped : step child x.stmt x.point x.params kind with fault | e | ⟨entries, _ | j⟩
    · exact .inl (by rw [visits, visits, steps, stepped]; rfl)
    · exact .inl (by rw [visits, visits, steps, stepped]; rfl)
    · exact .inl (by rw [visits, visits, steps, stepped]; rfl)
    · have old : (node id kind arity child).visits x.stmt x.point x.params =
          (⟨id, entries⟩ :: ·) <$> (child j).visits x.stmt x.point x.params := visits_next stepped
      have new : (node id kind arity (Function.update child i c)).visits x.stmt x.point x.params =
          (⟨id, entries⟩ :: ·) <$> (Function.update child i c j).visits x.stmt x.point x.params :=
        visits_next (steps.trans stepped)
      by_cases here : j = i
      · subst here
        rw [Function.update_self] at new
        rcases ih with keeps | ⟨pre, through, through'⟩
        · exact .inl (by rw [old, new, keeps])
        · refine .inr ⟨⟨id, entries⟩ :: pre, ?_, ?_⟩
          · rw [old, through, Functor.map_map]
            rfl
          · rw [new, through', Functor.map_map]
            rfl
      · rw [Function.update_of_ne here] at new
        exact .inl (new.trans old.symm)

end Graft

end Tree

/-! ## Time stamps -/

namespace Arena

/-- A tree below the root has been replaced, and the rest has been kept. -/
structure Exchanges (a b : Arena) (above : List Frame) (t t' : Tree) : Prop where
  holds : a.Holds a.tree
  graft : Tree.Grafted t t' above a.tree b.tree
  domains : b.domains? = a.domains?

variable {a b : Arena} {above : List Frame} {t t' : Tree}

theorem Locates.exchanges (located : a.Locates above t) (rework : a.Reworks b t t')
    (inner : above ≠ []) : a.Exchanges b above t t' := by
  obtain ⟨whole, top, holds, under⟩ := located
  obtain ⟨whole', graft, reworked⟩ := under.rework holds rework
  obtain rfl : a.tree = whole := by rw [tree, top, holds.treeAt_eq]
  have top' : b.root = whole'.top := by rw [reworked.root, top, reworked.top]
  obtain rfl : b.tree = whole' := by rw [tree, top', reworked.holds.treeAt_eq]
  refine ⟨holds, graft, ?_⟩
  rw [reworked.holds.domains?_eq top', holds.domains?_eq top]
  generalize a.tree = whole at graft
  generalize b.tree = whole' at graft
  cases graft with
  | here => exact absurd rfl inner
  | @inside _ _ _ kind _ _ i graft => cases kind <;> rfl

variable {x : Iteration} {visits pre later : List Visit} {v : List Int}

/-- Instances have walks only if there are domains above the band. -/
theorem Locates.exchanges_band {id arity : Nat} {band : Band} {child : Fin arity → Tree}
    (located : a.Locates above (.node id (.band band) arity child))
    (rework : a.Reworks b (.node id (.band band) arity child) t')
    (walk : (a.visits x.stmt x.point x.params).run = .ok (.ok visits)) :
    a.Exchanges b above (.node id (.band band) arity child) t' := by
  apply located.exchanges rework
  cases found : a.domains? with
  | none =>
    rw [Arena.visits, found] at walk
    cases walk
  | some domains =>
    obtain ⟨rest, rfl⟩ := located.frames_eq found
    simp

/-- Past the checks on the domains, an instance has the time stamp that the tree gives it. -/
theorem timestamp_eq_tree (same : b.domains? = a.domains?)
    (walk : (a.visits x.stmt x.point x.params).run = .ok (.ok visits)) :
    b.timestamp x.stmt x.point x.params = b.tree.timestamp x := by
  rcases a.visits_eq_throw_or_tree x with ⟨e, throws⟩ | onTree
  · rw [throws a rfl] at walk
    cases walk
  · rw [timestamp, onTree b same, Tree.timestamp, map_eq_pure_bind]

theorem Replaces.exchanges (replaces : a.Replaces b above t t') : a.Exchanges b above t t' :=
  ⟨replaces.holds, replaces.graft, replaces.domains⟩

namespace Exchanges

/-- Whatever comes of it, a walk stays as it is or goes from the old tree to the new one. -/
theorem timestamp_cases (exchange : a.Exchanges b above t t')
    (tops : t'.accepts x.stmt x.point x.params = t.accepts x.stmt x.point x.params) :
    b.timestamp x.stmt x.point x.params = a.timestamp x.stmt x.point x.params ∨
      ∃ pre, a.timestamp x.stmt x.point x.params = (pre ++ ·) <$> t.timestamp x ∧
        b.timestamp x.stmt x.point x.params = (pre ++ ·) <$> t'.timestamp x := by
  simp only [timestamp, ← map_eq_pure_bind]
  rcases a.visits_eq_throw_or_tree x with ⟨e, throws⟩ | onTree
  · exact .inl (by rw [throws a rfl, throws b exchange.domains])
  · rw [onTree a rfl, onTree b exchange.domains]
    rcases exchange.graft.visits_cases tops with keeps | ⟨pre, old, new⟩
    · exact .inl (by rw [keeps])
    · refine .inr ⟨pre.flatMap (·.entries), ?_, ?_⟩
      · simp only [old, Tree.timestamp, Functor.map_map, List.flatMap_append]
      · simp only [new, Tree.timestamp, Functor.map_map, List.flatMap_append]

/-- An instance that comes to the old tree has the entries above it, and then those that the new
tree gives it. -/
theorem timestamp_through (exchange : a.Exchanges b above t t')
    (takes : ∀ later, t.visits x.stmt x.point x.params = pure later →
      t'.accepts x.stmt x.point x.params = .ok true)
    (walk : (a.visits x.stmt x.point x.params).run = .ok (.ok (pre ++ ⟨t.top, v⟩ :: later))) :
    t.visits x.stmt x.point x.params = pure (⟨t.top, v⟩ :: later) ∧
      b.timestamp x.stmt x.point x.params =
        (pre.flatMap (·.entries) ++ ·) <$> t'.timestamp x := by
  have onTree : a.tree.visits x.stmt x.point x.params = pure (pre ++ ⟨t.top, v⟩ :: later) :=
    (flatten_of_visits walk).2
  have holds : a.Holds t := exchange.graft.symm.under.holds exchange.holds
  obtain ⟨pre', below, split, old, new⟩ := exchange.graft.visits_through exchange.holds takes onTree
    ⟨⟨t.top, v⟩, by simp, holds.stored.top_mem⟩
  obtain ⟨entries, rest, rfl⟩ := Tree.way_top ((t.visits_agrees x).eq_some old)
  obtain ⟨rfl, same, rfl⟩ := Tree.split_unique
    (Tree.nodup_of_way exchange.holds ((a.tree.visits_agrees x).eq_some onTree)) split rfl
  refine ⟨by rw [old, same], ?_⟩
  rw [timestamp_eq_tree exchange.domains walk, Tree.timestamp, new, Tree.timestamp,
    Functor.map_map, Functor.map_map]
  simp only [List.flatMap_append]

/-- An instance that does not come to the old tree keeps its time stamp. -/
theorem timestamp_elsewhere (exchange : a.Exchanges b above t t')
    (takes : t.accepts x.stmt x.point x.params = .ok true)
    (walk : (a.visits x.stmt x.point x.params).run = .ok (.ok visits))
    (avoids : ∀ visit ∈ visits, visit.id ≠ t.top) :
    (b.timestamp x.stmt x.point x.params).run = .ok (.ok (visits.flatMap (·.entries))) := by
  have new := exchange.graft.visits_elsewhere takes (flatten_of_visits walk).2 avoids
  rw [timestamp_eq_tree exchange.domains walk, Tree.timestamp, new]
  rfl

end Exchanges

/-- Instances that do not come to a node keep their time stamps, and those that are not scheduled
keep their errors unless a word overflows. -/
structure KeepsElsewhere (a b : Arena) (id : Nat) : Prop where
  stamps : ∀ (x : Iteration) visits, (a.visits x.stmt x.point x.params).run = .ok (.ok visits) →
    (∀ visit ∈ visits, visit.id ≠ id) →
    (b.timestamp x.stmt x.point x.params).run = .ok (.ok (visits.flatMap (·.entries)))
  errors : ∀ (x : Iteration) e, (a.timestamp x.stmt x.point x.params).run = .ok (.error e) →
    (b.timestamp x.stmt x.point x.params).Yields (.error e)

namespace Replaces

theorem onlyOverflows (replaces : a.Replaces b above t t') (proper : t.Proper x → t'.Proper x)
    {outcome : Except EvalError (List Visit)}
    (walk : (a.visits x.stmt x.point x.params).run = .ok outcome) :
    (b.visits x.stmt x.point x.params).run.OnlyOverflows :=
  onlyOverflows_visits replaces.domains (replaces.proper proper) walk

theorem keepsElsewhere (replaces : a.Replaces b above t t')
    (stops : ∀ x, t'.obstacle? x = t.obstacle? x) (proper : ∀ x, t.Proper x → t'.Proper x) :
    a.KeepsElsewhere b t.top where
  stamps x _ walk avoids := by
    apply replaces.exchanges.timestamp_elsewhere ?_ walk avoids
    exact Tree.accepts_of_isBand replaces.isBand x
  errors x e old := by
    obtain ⟨visits, walk⟩ := exists_visits old
    apply yields_failure (onlyOverflows_timestamp (replaces.onlyOverflows (proper x) walk))
    rw [replaces.failure?_eq (stops x)]
    exact failure?_of_timestamp old

/-- If what replaces the band schedules the instances that the band did, all stay scheduled, unless
a word overflows. -/
theorem exists_yields (replaces : a.Replaces b above t t') (proper : t.Proper x → t'.Proper x)
    (scheduled : ∀ visits, t.way x = some visits → ∃ visits', t'.way x = some visits')
    (walk : (a.visits x.stmt x.point x.params).run = .ok (.ok visits)) :
    ∃ visits', b.way x = some visits' ∧
      (b.visits x.stmt x.point x.params).Yields (.ok visits') ∧
      (b.timestamp x.stmt x.point x.params).Yields (.ok (visits'.flatMap (·.entries))) := by
  obtain ⟨visits', way⟩ := replaces.exists_way scheduled ((a.visits_agrees x).eq_some walk)
  have agrees := b.visits_agrees x
  rw [way] at agrees
  have yields := agrees.yields (replaces.onlyOverflows proper walk)
  exact ⟨visits', way, yields, yields_timestamp yields⟩

/-- An instance that comes to the band goes on in the new tree, unless a word overflows. -/
theorem yields_way (replaces : a.Replaces b above t t') (proper : t.Proper x → t'.Proper x)
    (walk : (a.visits x.stmt x.point x.params).run = .ok (.ok (pre ++ ⟨t.top, v⟩ :: later)))
    {below : List Visit} (found : t'.way x = some below) :
    (b.visits x.stmt x.point x.params).Yields (.ok (pre ++ below)) := by
  obtain ⟨arrives, -⟩ := replaces.arrives walk
  have agrees := b.visits_agrees x
  rw [replaces.way_through walk arrives found] at agrees
  exact agrees.yields (replaces.onlyOverflows proper walk)

/-- An instance that comes to the band has the entries above it, and then those that the new tree
gives it, unless a word overflows. -/
theorem yields_through (replaces : a.Replaces b above t t') (proper : t.Proper x → t'.Proper x)
    (walk : (a.visits x.stmt x.point x.params).run = .ok (.ok (pre ++ ⟨t.top, v⟩ :: later)))
    {as : List Int} (below : t'.stamp x = some as) :
    (b.timestamp x.stmt x.point x.params).Yields (.ok (pre.flatMap (·.entries) ++ as)) := by
  obtain ⟨visits', found, rfl⟩ := Option.map_eq_some_iff.mp below
  rw [← List.flatMap_append]
  exact yields_timestamp (replaces.yields_way proper walk found)

end Replaces

end Arena

end LoopNest
