import LoopNest.Proofs.Canonical

/-! The optimizer changes an arena only at bands that it reports to have tiled, vectorized or
blocked. If there is none, all that it does is to make the arena compact, which no statement
notices. So a schedule that is kept as profitable is a new one, and comes with a band that was
rewritten. -/

namespace LoopNest

/-- The band is blocked, tiled in at least one stage, or has a loop that is made a vector loop. -/
def Action.rewrites : Action → Bool
  | .matMul .. => true
  | .standard stages vectorMember _ => !stages.isEmpty || vectorMember.isSome
  | .notTileable | .singleMember => false

def Decision.rewrites (decision : Decision) : Bool := decision.action.rewrites

namespace Optimizer

variable {o : Optimizer} {a b : Arena} {id : Nat} {action : Action} {ds : List Decision}

theorem standardBand_idle (does : (o.standardBand id).Does a action b)
    (idle : action.rewrites = false) : a = b := by
  simp only [standardBand, Edit.does_bind, Edit.does_get] at does
  obtain ⟨points, m, staged, _, _, ⟨rfl, rfl⟩, does⟩ := does
  split at does
  · simp only [Edit.does_bind, Edit.does_pure] at does
    obtain ⟨_, _, -, rfl, -⟩ := does
    simp [Action.rewrites] at idle
  · obtain ⟨rfl, rfl⟩ := Edit.does_pure.mp does
    have none : o.config.stages = [] := by simpa [Action.rewrites] using idle
    rw [none] at staged
    exact (Edit.does_pure.mp staged).2

/-- A band that is not reported as rewritten leaves the arena as it is. -/
theorem bandAction_idle (does : (o.bandAction id).Does a action b)
    (idle : action.rewrites = false) : a = b := by
  cases acts_of_bandAction does with
  | notTileable => rfl
  | singleMember => rfl
  | matMul => simp [Action.rewrites] at idle
  | standard tileable tiled => exact standardBand_idle tiled idle

theorem mapM_idle {f : Nat → Edit (List Decision)}
    (each : ∀ {a b ds} id, (f id).Does a ds b → (∀ d ∈ ds, d.rewrites = false) → a = b)
    {ids : List Nat} {rs : List (List Decision)} (does : (ids.mapM f).Does a rs b)
    (idle : ∀ d ∈ rs.flatten, d.rewrites = false) : a = b := by
  induction ids generalizing a rs with
  | nil => exact (Edit.does_pure.mp does).2
  | cons id rest ih =>
    simp only [List.mapM_cons, Edit.does_bind, Edit.does_pure] at does
    obtain ⟨ds, m, first, later, _, does, rfl, rfl⟩ := does
    simp only [List.flatten_cons, List.mem_append] at idle
    obtain rfl := each id first fun d member => idle d (.inl member)
    exact ih does fun d member => idle d (.inr member)

/-- A walk over the bands that rewrites none of them leaves the arena as it is. -/
theorem optimizeLevels_idle {levels : Nat} (does : (o.optimizeLevels levels id).Does a ds b)
    (idle : ∀ d ∈ ds, d.rewrites = false) : a = b := by
  induction levels generalizing a b id ds with
  | zero => exact (Edit.does_pure.mp does).2
  | succ levels ih =>
    simp only [optimizeLevels, Edit.does_bind, Edit.does_get] at does
    obtain ⟨_, _, ⟨rfl, rfl⟩, rs, m, mapped, _, _, ⟨rfl, rfl⟩, does⟩ := does
    have below (unchanged : ∀ d ∈ rs.flatten, d.rewrites = false) : a = m :=
      mapM_idle (fun _ does idle => ih does idle) mapped unchanged
    split at does
    · simp only [bandDecision, Edit.does_bind, Edit.does_get, Edit.does_pure] at does
      obtain ⟨_, _, ⟨_, _, ⟨rfl, rfl⟩, action, _, acts, rfl, rfl⟩, rfl, rfl⟩ := does
      simp only [List.mem_append, List.mem_singleton] at idle
      exact (below fun d member => idle d (.inl member)).trans
        (bandAction_idle acts (idle _ (.inr rfl)))
    · obtain ⟨rfl, rfl⟩ := Edit.does_pure.mp does
      exact below idle

/-- Where no band is rewritten, every statement is scheduled as before. -/
theorem optimizeSchedule_idle (wellFormed : a.isWellFormed = true)
    (does : o.optimizeSchedule.Does a ds b) (idle : ∀ d ∈ ds, d.rewrites = false) :
    b.flatten = a.flatten := by
  unfold optimizeSchedule at does
  split at does
  · simp only [optimizeNode, Edit.compact, Edit.does_bind, Edit.does_get, Edit.does_lift,
      Edit.does_pure] at does
    obtain ⟨_, _, ⟨rfl, rfl⟩, _, m, ⟨_, _, ⟨rfl, rfl⟩, walked⟩, _, _, ⟨_, _, ⟨rfl, rfl⟩, c, _,
      ⟨compacted, rfl⟩, last⟩, rfl, rfl⟩ := does
    cases last
    obtain rfl := optimizeLevels_idle walked idle
    obtain ⟨c', compacted', wellFormed', renumbered, -⟩ := Arena.exists_compact wellFormed
    cases compacted.symm.trans compacted'
    exact Arena.flatten_of_alike wellFormed' wellFormed renumbered.symm.alike
  · obtain ⟨-, rfl⟩ := Edit.does_pure.mp does
    rfl

end Optimizer

namespace Scop

/-- A schedule that is not profitable is the one of the scop. A profitable one schedules some
statement in another way, and some band has been rewritten. So where no band is rewritten, the
schedule of the scop is returned, whatever else its arena holds. -/
theorem optimize_keeps_or_profits {scop : Scop} {config : Config} {target : Option Target}
    {result : Optimized} (h : scop.optimize config target = .ok (.ok result)) :
    (result.profitable = false → result.schedule = scop.schedule) ∧
      (result.profitable = true → result.schedule.flatten ≠ scop.schedule.flatten ∧
        ∃ d ∈ result.decisions, d.rewrites = true) ∧
      ((∀ d ∈ result.decisions, d.rewrites = false) →
        result.profitable = false ∧ result.schedule = scop.schedule) := by
  obtain ⟨valid, candidate, does, profitable, kept⟩ := optimize_candidate h
  have unprofitable (none : result.profitable = false) : result.schedule = scop.schedule := by
    simpa [none] using kept
  have idle (none : ∀ d ∈ result.decisions, d.rewrites = false) : result.profitable = false := by
    have same := Optimizer.optimizeSchedule_idle (validate_cases valid).1 does none
    rw [profitable, isProfitable, same]
    simp
  refine ⟨unprofitable, fun isProfit => ⟨?_, ?_⟩, fun none => ⟨idle none, unprofitable (idle none)⟩⟩
  · rw [if_pos isProfit] at kept
    rw [kept]
    rw [profitable, isProfitable, decide_eq_true_eq] at isProfit
    exact isProfit.symm
  · by_contra none
    have : result.profitable = false := idle fun d member => by
      by_contra rewrites
      exact none ⟨d, member, by simpa using rewrites⟩
    simp [this] at isProfit

/-- The grid in a loop that must stay above one that has no partner, with nodes that are not
reached. -/
def idleGrid : Scop := .ofGrid fun domains =>
  ⟨#[⟨.domain domains, [3]⟩, ⟨.leaf, []⟩, ⟨.band (.identity domains [⟨true, true⟩]), [5]⟩,
    ⟨.band (.identity domains [⟨false, true⟩, ⟨true, true⟩]), [2]⟩, ⟨.sequence, [7, 2]⟩,
    ⟨.leaf, []⟩], 0⟩

theorem grids_keep_or_profit :
    (∃ result, idleGrid.optimize .standard none = .ok (.ok result) ∧
      result.decisions.map (·.action) = [.singleMember, .notTileable] ∧
      result.profitable = false ∧ result.schedule = idleGrid.schedule) ∧
    ∃ result, grid.optimize .standard none = .ok (.ok result) ∧ result.profitable = true ∧
      result.schedule.flatten ≠ grid.schedule.flatten ∧
      ∃ d ∈ result.decisions, d.rewrites = true := by
  constructor
  · obtain ⟨result, h, actions⟩ : ∃ result, idleGrid.optimize .standard none = .ok (.ok result) ∧
        decide (result.decisions.map (·.action) = [.singleMember, .notTileable] ∧
          ∀ d ∈ result.decisions, d.rewrites = false) = true :=
      exists_ok_of_any (by decide +kernel)
    obtain ⟨actions, none⟩ := of_decide_eq_true actions
    exact ⟨result, h, actions, (optimize_keeps_or_profits h).2.2 none⟩
  · obtain ⟨result, h, profitable⟩ : ∃ result, grid.optimize .standard none = .ok (.ok result) ∧
        result.profitable = true :=
      exists_ok_of_any (by decide +kernel)
    exact ⟨result, h, profitable, (optimize_keeps_or_profits h).2.1 profitable⟩

end Scop

end LoopNest
