import LoopNest.Proofs.Dependence
import LoopNest.Proofs.Outcome
import LoopNest.Proofs.Overflow

/-! Walks that only overflow. An expression none of whose floors divides by zero has its exact value
unless a word overflows. What has been evaluated is such an expression. So a walk that did not fault
has met such expressions only, and where there is no other expression on the way of an instance, its
walk has the exact outcome unless a word overflows. -/

namespace LoopNest

namespace Affine

theorem onlyOverflows_dotFrom {sum : Int} {coeffs values : List Int} :
    (dotFrom sum coeffs values).OnlyOverflows := by
  induction coeffs generalizing sum values with
  | nil => simp [dotFrom]
  | cons c cs ih => cases values <;> simp [dotFrom, ih]

@[simp] theorem onlyOverflows_eval {e : Affine} {point params : List Int} :
    (e.eval point params).OnlyOverflows := by
  simp [eval, dot, onlyOverflows_dotFrom]

end Affine

namespace Quasi

/-- No floor divides by zero. -/
def Proper : Quasi → Prop
  | affine _ => True
  | plus rest _ n d => rest.Proper ∧ n.Proper ∧ d ≠ 0

theorem proper_iff {q : Quasi} :
    q.Proper ↔ q.EveryFloor fun numerator denominator => numerator.Proper ∧ denominator ≠ 0 := by
  induction q with
  | affine e => simp [Proper, EveryFloor, terms]
  | plus rest c n d ih _ =>
    simp only [EveryFloor] at ih
    simp only [Proper, EveryFloor, terms, ih, List.forall_mem_append, List.forall_mem_singleton]

variable {q r a b : Quasi} {point params : List Int}

/-! ## Evaluation -/

theorem proper_of_evalTerms {sum : Int} (h : q.evalTerms point params = .ok sum) : q.Proper := by
  induction q generalizing sum with
  | affine e => trivial
  | plus rest c n d outer inner =>
    simp only [evalTerms, Checked.bind_eq_ok_iff, Word.floorDiv_eq_ok_iff] at h
    obtain ⟨_, before, _, within, _, _, _, _, _, ⟨nonzero, -⟩, -⟩ := h
    exact ⟨outer before, inner within, nonzero⟩

theorem proper_of_eval {result : Int} (h : q.eval point params = .ok result) : q.Proper := by
  obtain ⟨floors, evaluated, -⟩ := Checked.bind_eq_ok_iff.mp h
  exact proper_of_evalTerms evaluated

theorem onlyOverflows_evalTerms (proper : q.Proper) : (q.evalTerms point params).OnlyOverflows := by
  induction q with
  | affine e => simp [evalTerms]
  | plus rest c n d outer inner =>
    obtain ⟨properRest, properNumerator, nonzero⟩ := proper
    simp [evalTerms, outer properRest, inner properNumerator, Word.floorDiv, nonzero]

theorem onlyOverflows_eval (proper : q.Proper) : (q.eval point params).OnlyOverflows := by
  simp [eval, onlyOverflows_evalTerms proper]

/-! ## Tiles and offsets -/

theorem Proper.add (left : a.Proper) (right : b.Proper) (h : a.add b = .ok r) : r.Proper :=
  proper_iff.mpr ((proper_iff.mp left).add (proper_iff.mp right) h)

theorem Proper.scale {factor : Int} (proper : q.Proper) (h : q.scale factor = .ok r) : r.Proper :=
  proper_iff.mpr ((proper_iff.mp proper).scale h)

theorem Proper.sub (left : a.Proper) (right : b.Proper) (h : a.sub b = .ok r) : r.Proper :=
  proper_iff.mpr ((proper_iff.mp left).sub (proper_iff.mp right) h)

theorem Proper.floorDiv {divisor : Int} (proper : q.Proper) (h : q.floorDiv divisor = .ok r) :
    r.Proper :=
  proper_iff.mpr ((proper_iff.mp proper).floorDiv (fun pos => ⟨proper, pos.ne'⟩) h)

theorem Proper.modulo {divisor : Int} (proper : q.Proper) (h : q.modulo divisor = .ok r) :
    r.Proper :=
  proper_iff.mpr ((proper_iff.mp proper).modulo (fun pos => ⟨proper, pos.ne'⟩) h)

end Quasi

theorem Band.Tiling.proper {sizes : List Int} {es tiles points : List Quasi}
    (tiling : Tiling sizes es tiles points) (proper : ∀ e ∈ es, e.Proper) :
    (∀ e ∈ tiles, e.Proper) ∧ ∀ e ∈ points, e.Proper := by
  induction tiling with
  | nil => simp
  | cons floor modulo rest ih =>
    obtain ⟨here, later⟩ := List.forall_mem_cons.mp proper
    obtain ⟨tiles, points⟩ := ih later
    exact ⟨List.forall_mem_cons.mpr ⟨here.floorDiv floor, tiles⟩,
      List.forall_mem_cons.mpr ⟨here.modulo modulo, points⟩⟩

/-- Expressions that have been evaluated have their exact values. -/
theorem Iteration.values_of_eval {x : Iteration} {exprs : List Quasi} {v : List Int}
    (h : exprs.mapM (·.eval x.point x.params) = .ok v) :
    v = x.values exprs ∧ ∀ e ∈ exprs, e.Proper := by
  have each := mapM_eq_ok h
  clear h
  induction each with
  | nil => exact ⟨rfl, by simp⟩
  | cons head _ ih =>
    obtain ⟨rfl, proper⟩ := ih
    rw [Quasi.eq_value_of_eval head]
    exact ⟨rfl, List.forall_mem_cons.mpr ⟨Quasi.proper_of_eval head, proper⟩⟩

/-! ## Outcomes unless a word overflows -/

namespace Eval

variable {α β : Type} {e : Eval α} {value : α}

/-- Unless a word overflows, the evaluation has this outcome. -/
def Yields (e : Eval α) (outcome : Except EvalError α) : Prop :=
  e.run = .error .overflow ∨ e.run = .ok outcome

theorem Agrees.yields (agrees : e.Agrees (some value)) (only : e.run.OnlyOverflows) :
    e.Yields (.ok value) := by
  rcases ran : e.run with fault | error | result
  · obtain rfl := only fault ran
    exact .inl ran
  · cases agrees.eq_none ran
  · cases agrees.eq_some ran
    exact .inr ran

theorem Yields.eq_of_run {outcome outcome' : Except EvalError α} (yields : e.Yields outcome)
    (ran : e.run = .ok outcome') : outcome = outcome' := by
  rcases yields with overflows | yields
  · cases overflows.symm.trans ran
  · exact Except.ok.inj (yields.symm.trans ran)

@[simp] theorem onlyOverflows_lift {computation : Checked α} :
    (liftM computation : Eval α).run.OnlyOverflows ↔ computation.OnlyOverflows := by
  cases computation with
  | error fault =>
    have faults : (liftM (.error fault : Checked α) : Eval α).run = .error fault := rfl
    simp [faults, Checked.OnlyOverflows]
  | ok result => exact iff_of_true Checked.onlyOverflows_ok Checked.onlyOverflows_ok

theorem onlyOverflows_bind {f : α → Eval β} (first : e.run.OnlyOverflows)
    (second : ∀ a, e.run = .ok (.ok a) → (f a).run.OnlyOverflows) :
    (e >>= f).run.OnlyOverflows := by
  rw [ExceptT.run_bind]
  apply Checked.onlyOverflows_bind.mpr
  refine ⟨first, fun outcome ran => ?_⟩
  cases outcome with
  | error error => exact Checked.onlyOverflows_pure
  | ok a => exact second a ran

theorem onlyOverflows_pure : (pure value : Eval α).run.OnlyOverflows := Checked.onlyOverflows_ok

theorem onlyOverflows_throw {error : EvalError} :
    (throw error : Eval α).run.OnlyOverflows := Checked.onlyOverflows_ok

theorem onlyOverflows_mapM {f : α → Eval β} {items : List α}
    (each : ∀ item ∈ items, (f item).run.OnlyOverflows) : (items.mapM f).run.OnlyOverflows := by
  induction items with
  | nil => exact onlyOverflows_pure
  | cons item rest ih =>
    obtain ⟨here, later⟩ := List.forall_mem_cons.mp each
    rw [List.mapM_cons]
    apply onlyOverflows_bind here
    intro head _
    apply onlyOverflows_bind (ih later)
    intro tail _
    exact onlyOverflows_pure

/-- What is done first has a result if the whole does not fault. -/
theorem exists_of_lift_bind {computation : Checked α} {f : α → Eval β}
    {outcome : Except EvalError β} (h : ((liftM computation : Eval α) >>= f).run = .ok outcome) :
    ∃ result, computation = .ok result := by
  rcases run_bind_ok h with ⟨_, failed, -⟩ | ⟨result, ran, -⟩
  · cases computation <;> cases failed
  · exact ⟨result, lift_run ran⟩

end Eval

/-! ## Ways without division by zero -/

def Band.ProperAt (band : Band) (stmt : Nat) : Prop :=
  ∀ exprs, band.schedule.get? stmt = some exprs → ∀ e ∈ exprs, e.Proper

namespace Tree

variable {x : Iteration} {arity : Nat} {child child' : Fin arity → Tree} {kind : NodeKind}

/-- What is evaluated to let an instance through a node can only overflow. -/
def StepsProperly (x : Iteration) {arity : Nat} (child : Fin arity → Tree) : NodeKind → Prop
  | .band band => band.ProperAt x.stmt
  | .sequence | .set => (branch? child x.stmt x.point x.params).OnlyOverflows
  | .filter filter => (filter.passes x.stmt x.point x.params).OnlyOverflows
  | .domain _ | .leaf => True

/-- Nothing on the way of an instance divides by zero. -/
def Proper (x : Iteration) : Tree → Prop
  | missing _ => True
  | node _ kind _ child => StepsProperly x child kind ∧
      ∀ entries i, onward x child kind = some (entries, some i) → (child i).Proper x

theorem onlyOverflows_branching
    (only : (branch? child x.stmt x.point x.params).OnlyOverflows) :
    (step.branching child x.stmt x.point x.params).run.OnlyOverflows := by
  apply Eval.onlyOverflows_bind (Eval.onlyOverflows_lift.mpr only)
  intro chosen _
  cases chosen with
  | none => exact Eval.onlyOverflows_throw
  | some i => exact Eval.onlyOverflows_pure

theorem onlyOverflows_step (proper : StepsProperly x child kind) :
    (step child x.stmt x.point x.params kind).run.OnlyOverflows := by
  cases kind with
  | domain domains => exact Eval.onlyOverflows_pure
  | band band =>
    rw [step]
    cases found : band.schedule.get? x.stmt with
    | none => exact Eval.onlyOverflows_throw
    | some exprs =>
      refine Eval.onlyOverflows_bind (Eval.onlyOverflows_mapM fun e member => ?_) fun v _ =>
        Eval.onlyOverflows_pure
      apply Eval.onlyOverflows_lift.mpr
      exact Quasi.onlyOverflows_eval (proper exprs found e member)
  | sequence => exact onlyOverflows_branching proper
  | set => exact onlyOverflows_branching proper
  | filter filter =>
    apply Eval.onlyOverflows_bind (Eval.onlyOverflows_lift.mpr proper)
    intro passes _
    cases passes with
    | false => exact Eval.onlyOverflows_throw
    | true => exact Eval.onlyOverflows_pure
  | leaf => exact Eval.onlyOverflows_pure

/-- A walk without a division by zero only overflows. -/
theorem onlyOverflows_visits {t : Tree} (proper : t.Proper x) :
    (t.visits x.stmt x.point x.params).run.OnlyOverflows := by
  induction t with
  | missing id => exact Eval.onlyOverflows_throw
  | node id kind arity child ih =>
    rw [visits]
    apply Eval.onlyOverflows_bind (onlyOverflows_step proper.1)
    rintro ⟨entries, next?⟩ stepped
    cases next? with
    | none => exact Eval.onlyOverflows_pure
    | some i =>
      have below := proper.2 entries i ((step_agrees child x kind).eq_some stepped)
      exact Eval.onlyOverflows_bind (ih i below) fun later _ => Eval.onlyOverflows_pure

theorem stepsProperly_of_step {outcome : Except EvalError (List Int × Option (Fin arity))}
    (stepped : (step child x.stmt x.point x.params kind).run = .ok outcome) :
    StepsProperly x child kind := by
  cases kind with
  | domain domains => trivial
  | band band =>
    intro exprs found
    rw [step, found] at stepped
    rcases Eval.run_bind_ok stepped with ⟨_, failed, -⟩ | ⟨v, evaluated, -⟩
    · have exact := (Eval.agrees_mapM (g := x.value) fun e => Eval.agrees_lift fun r h =>
        Quasi.eq_value_of_eval h).eq_none failed
      cases exact
    · exact (Iteration.values_of_eval (Eval.mapM_lift_run evaluated)).2
  | sequence =>
    obtain ⟨chosen, found⟩ := Eval.exists_of_lift_bind stepped
    simp [StepsProperly, found]
  | set =>
    obtain ⟨chosen, found⟩ := Eval.exists_of_lift_bind stepped
    simp [StepsProperly, found]
  | filter filter =>
    obtain ⟨passes, tested⟩ := Eval.exists_of_lift_bind stepped
    simp [StepsProperly, tested]
  | leaf => trivial

/-- A walk that did not fault met no division by zero. -/
theorem proper_of_visits {t : Tree} {outcome : Except EvalError (List Visit)}
    (walk : (t.visits x.stmt x.point x.params).run = .ok outcome) : t.Proper x := by
  induction t generalizing outcome with
  | missing id => trivial
  | node id kind arity child ih =>
    rw [visits] at walk
    rcases Eval.run_bind_ok walk with ⟨_, failed, -⟩ | ⟨⟨entries', next?⟩, stepped, rest⟩
    · refine ⟨stepsProperly_of_step failed, fun entries i onward => ?_⟩
      rw [(step_agrees child x kind).eq_none failed] at onward
      cases onward
    · refine ⟨stepsProperly_of_step stepped, fun entries i onward => ?_⟩
      rw [(step_agrees child x kind).eq_some stepped] at onward
      cases onward
      rcases Eval.run_bind_ok rest with ⟨_, failed, -⟩ | ⟨below, ran, -⟩
      · exact ih i failed
      · exact ih i ran

end Tree

namespace Arena

variable {a b : Arena} {x : Iteration}

/-- A walk that did not fault only overflows in a tree whose way meets no division by zero if the
way of the old tree met none. -/
theorem onlyOverflows_visits {outcome : Except EvalError (List Visit)}
    (same : b.domains? = a.domains?) (proper : a.tree.Proper x → b.tree.Proper x)
    (old : (a.visits x.stmt x.point x.params).run = .ok outcome) :
    (b.visits x.stmt x.point x.params).run.OnlyOverflows := by
  rcases a.visits_eq_throw_or_tree x with ⟨e, throws⟩ | onTree
  · rw [throws b same]
    exact Eval.onlyOverflows_throw
  · rw [onTree a rfl] at old
    rw [onTree b same]
    exact Tree.onlyOverflows_visits (proper (Tree.proper_of_visits old))

theorem exists_visits {outcome : Except EvalError (List Int)}
    (h : (a.timestamp x.stmt x.point x.params).run = .ok outcome) :
    ∃ visits, (a.visits x.stmt x.point x.params).run = .ok visits := by
  rcases Eval.run_bind_ok h with ⟨error, failed, -⟩ | ⟨visits, walk, -⟩
  · exact ⟨.error error, failed⟩
  · exact ⟨.ok visits, walk⟩

theorem exists_walk {as : List Int}
    (h : (a.timestamp x.stmt x.point x.params).run = .ok (.ok as)) :
    ∃ visits, (a.visits x.stmt x.point x.params).run = .ok (.ok visits) := by
  rcases Eval.run_bind_ok h with ⟨_, _, ⟨⟩⟩ | ⟨visits, walk, -⟩
  exact ⟨visits, walk⟩

theorem onlyOverflows_timestamp
    (only : (b.visits x.stmt x.point x.params).run.OnlyOverflows) :
    (b.timestamp x.stmt x.point x.params).run.OnlyOverflows :=
  Eval.onlyOverflows_bind only fun _ _ => Eval.onlyOverflows_pure

theorem yields_timestamp {visits : List Visit}
    (yields : (b.visits x.stmt x.point x.params).Yields (.ok visits)) :
    (b.timestamp x.stmt x.point x.params).Yields (.ok (visits.flatMap (·.entries))) := by
  rw [Eval.Yields, timestamp, ExceptT.run_bind]
  rcases yields with ran | ran <;> rw [ran]
  · exact .inl rfl
  · exact .inr rfl

theorem yields_failure {e : EvalError}
    (only : (b.timestamp x.stmt x.point x.params).run.OnlyOverflows)
    (fails : b.failure? x = some e) : (b.timestamp x.stmt x.point x.params).Yields (.error e) := by
  rcases ran : (b.timestamp x.stmt x.point x.params).run with fault | error | as
  · obtain rfl := only fault ran
    exact .inl ran
  · cases (failure?_of_timestamp ran).symm.trans fails
    exact .inr ran
  · obtain ⟨visits, way, -⟩ := Option.map_eq_some_iff.mp ((b.timestamp_agrees x).eq_some ran)
    rw [failure?_eq_none way] at fails
    cases fails

end Arena

end LoopNest
