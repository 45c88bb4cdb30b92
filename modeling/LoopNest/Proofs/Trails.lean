import LoopNest.Proofs.Dependence
import LoopNest.Proofs.Walks

/-! What is known of a schedule before it runs covers what happens when it runs. The walk of an
instance enters no nodes but those that its statement may reach, whether the walk comes to its end
or is cut short, and an expression has the same value, or the same fault, wherever the iterators
that appear in it are the same. -/

namespace LoopNest

/-- A filter turns away the instances that it may not let through, and no fault comes before. -/
theorem Filter.passes_of_not_mayPass {filter : Filter} {stmt : Nat} (point params : List Int)
    (h : filter.mayPass stmt = false) : filter.passes stmt point params = .ok false := by
  cases filter with
  | statements stmts => exact congrArg Except.ok h
  | tiles t =>
    cases kind : t.kind with
    | partly => simp [mayPass, kind] at h
    | full =>
      have absent : t.guard? stmt = none := by simpa [mayPass, kind] using h
      simp only [passes, TileFilter.inFullTile, absent, kind]
      rfl

namespace Tree

/-- The nodes that the walk of an instance enters, be it cut short by an error or a fault. A filter
that turns the instance away is not entered. -/
def trail (x : Iteration) : Tree → List Nat
  | missing _ => []
  | node id kind arity child =>
    if (node id kind arity child).accepts x.stmt x.point x.params = .ok false then []
    else
      match (step child x.stmt x.point x.params kind).run with
      | .ok (.ok (_, some i)) => id :: (child i).trail x
      | _ => [id]

variable {x : Iteration} {id arity : Nat} {kind : NodeKind} {child : Fin arity → Tree}

theorem lets_of_accepts
    (entered : (node id kind arity child).accepts x.stmt x.point x.params ≠ .ok false) :
    kind.lets x.stmt = true := by
  cases kind with
  | filter filter =>
    by_contra refused
    apply entered
    exact Filter.passes_of_not_mayPass x.point x.params (by simpa [NodeKind.lets] using refused)
  | _ => rfl

/-- A walk enters a node that lets its statement through, and then nodes below one child. -/
theorem mem_trail_node {other : Nat} (member : other ∈ (node id kind arity child).trail x) :
    kind.lets x.stmt = true ∧ (other = id ∨ ∃ i, other ∈ (child i).trail x) := by
  rw [trail] at member
  split at member
  · simp at member
  · rename_i entered
    refine ⟨lets_of_accepts entered, ?_⟩
    split at member
    · exact (List.mem_cons.mp member).imp_right fun below => ⟨_, below⟩
    · exact .inl (List.mem_singleton.mp member)

/-- A walk that comes to its end has entered the nodes that it visits. -/
theorem trail_of_visits {t : Tree} {visits : List Visit}
    (walk : t.visits x.stmt x.point x.params = pure visits) : visits.map (·.id) = t.trail x := by
  induction t generalizing visits with
  | missing => cases walk
  | node id kind arity child ih =>
    have entered := accepts_of_visits walk
    rw [trail, if_neg (by simp [entered])]
    obtain ⟨entries, later, rfl, ⟨stepped, rfl⟩ | ⟨i, stepped, below⟩⟩ := visits_run walk
    · rw [stepped]
      rfl
    · rw [stepped, List.map_cons, ih i below]

end Tree

namespace Arena

variable {a : Arena} {x : Iteration}

/-- The nodes that the walk of an instance enters. There is no walk if the statement is unknown or
parameters are missing. -/
def trail (a : Arena) (x : Iteration) : List Nat :=
  match a.domains?.bind (·.get? x.stmt) with
  | none => []
  | some domain => if x.params.length < domain.nParam then [] else a.tree.trail x

theorem trail_eq_of_visits {visits : List Visit}
    (walk : a.visits x.stmt x.point x.params = pure visits) :
    visits.map (·.id) = a.trail x := by
  revert walk
  rw [Arena.visits, trail]
  cases a.domains? with
  | none =>
    intro walk
    cases walk
  | some domains =>
    dsimp only [Option.bind_some]
    cases domains.get? x.stmt with
    | none =>
      intro walk
      cases walk
    | some domain =>
      dsimp only
      split
      · intro walk
        cases walk
      · exact Tree.trail_of_visits

/-- A walk goes on from nodes that let its statement through, so the statement may reach all nodes
that the walk enters. -/
theorem Locates.reaching_of_mem_trail {above : List Frame} {t : Tree} {id : Nat}
    {domains : StmtMap Polyhedron} (located : a.Locates above t)
    (found : a.domains? = some domains) (known : domains.contains x.stmt = true)
    (passed : (above.map (·.2)).all (·.lets x.stmt) = true) (member : id ∈ t.trail x) :
    (a.reaching id).contains x.stmt = true := by
  induction t generalizing above with
  | missing => simp [Tree.trail] at member
  | node own kind arity child ih =>
    obtain ⟨lets, rfl | ⟨i, below⟩⟩ := Tree.mem_trail_node member
    · have all : (above.map (·.2) ++ [kind]).all (·.lets x.stmt) = true := by
        rw [List.all_append, passed]
        simp [lets]
      rw [located.reaching_of_domains found, StmtMap.contains, StmtMap.get?_filter, if_pos all]
      simpa [StmtMap.contains, StmtMap.keySet] using known
    · apply ih i (located.child i) _ below
      rw [List.map_append, List.all_append, passed]
      simp [lets]

theorem mem_reaching_of_mem_trail (wellFormed : a.isWellFormed = true) {id : Nat}
    (member : id ∈ a.trail x) : x.stmt ∈ (a.reaching id).keys := by
  rw [StmtMap.mem_keys_iff]
  obtain ⟨holds, top⟩ := holds_tree wellFormed
  have located : a.Locates [] a.tree := ⟨a.tree, top.symm, holds, .here _⟩
  unfold trail at member
  split at member
  · simp at member
  · rename_i domain given
    obtain ⟨domains, found, own⟩ := Option.bind_eq_some_iff.mp given
    split at member
    · simp at member
    · apply located.reaching_of_mem_trail found _ rfl member
      rw [StmtMap.contains, own]
      rfl

end Arena

/-- The analyses cover the runs. An instance enters only nodes that its statement may reach, so a
node that one statement may reach is entered by no other. A walk that comes to its end visits the
nodes that it enters. The checked value of an expression does not change with an iterator that does
not appear in it. -/
theorem analyses_cover_runs :
    (∀ a : Arena, a.isWellFormed = true → ∀ x id, id ∈ a.trail x →
      x.stmt ∈ (a.reaching id).keys ∧ ∀ stmt, (a.reaching id).keys = [stmt] → x.stmt = stmt) ∧
    (∀ (a : Arena) (x : Iteration) visits, a.visits x.stmt x.point x.params = pure visits →
      visits.map (·.id) = a.trail x) ∧
    ∀ (q : Quasi) (dim : Nat), q.dependsOn dim = false →
      ∀ (xs ys params : List Int), (∀ d ≠ dim, xs[d]? = ys[d]?) →
        q.eval xs params = q.eval ys params := by
  refine ⟨fun a wellFormed x id member => ?_, fun a x visits => Arena.trail_eq_of_visits,
    fun q dim absent xs ys params agree => ?_⟩
  · have reaches := Arena.mem_reaching_of_mem_trail wellFormed member
    refine ⟨reaches, fun stmt single => ?_⟩
    rw [single] at reaches
    exact List.mem_singleton.mp reaches
  · apply Quasi.eval_congr
    intro d depends
    apply agree
    rintro rfl
    rw [absent] at depends
    cases depends

/-- Full tiles of statement 1 start at `x = 3`, and what is left of statement 0 comes to a band that
does not schedule it. -/
def guardedFork : Arena :=
  let domains : StmtMap Polyhedron := .ofList [(0, .whole 1 0), (1, .whole 1 0)]
  let guard : Guard := [.affine ⟨-3, [1], []⟩]
  ⟨#[⟨.domain domains, [1]⟩, ⟨.sequence, [2, 4]⟩,
    ⟨.filter (.tiles ⟨.full, 4, .ofList [(1, some guard)]⟩), [3]⟩, ⟨.leaf, []⟩,
    ⟨.filter (.statements (.ofList [0])), [5]⟩,
    ⟨.band (.ofSchedule [⟨true, true⟩] (.ofList [(1, [.var 0 1 0])])), [6]⟩, ⟨.leaf, []⟩], 0⟩

/-- The first walk comes to its end, the second is cut short by the band. -/
theorem guardedFork_covered :
    guardedFork.trail ⟨1, [7], []⟩ = [0, 1, 2, 3] ∧ guardedFork.trail ⟨0, [7], []⟩ = [0, 1, 4, 5] ∧
    (∀ x : Iteration, 3 ∈ guardedFork.trail x → x.stmt = 1) ∧
    (∀ x : Iteration, 5 ∈ guardedFork.trail x → x.stmt = 0) ∧
    (guardedFork.visits 1 [7] []).run = .ok (.ok [⟨0, []⟩, ⟨1, [0]⟩, ⟨2, []⟩, ⟨3, []⟩]) ∧
    (Quasi.plus (.affine ⟨0, [2], []⟩) 1 (.affine ⟨2, [1], []⟩) 3).eval [4, 9] [] =
      (Quasi.plus (.affine ⟨0, [2], []⟩) 1 (.affine ⟨2, [1], []⟩) 3).eval [4, -5] [] := by
  obtain ⟨reached, visited, read⟩ := analyses_cover_runs
  have wellFormed : guardedFork.isWellFormed = true := by decide +kernel
  have walk : (guardedFork.visits 1 [7] []).run =
      .ok (.ok [⟨0, []⟩, ⟨1, [0]⟩, ⟨2, []⟩, ⟨3, []⟩]) := by
    decide +kernel
  refine ⟨(visited _ ⟨1, [7], []⟩ _ walk).symm, by decide +kernel, fun x member => ?_,
    fun x member => ?_, walk, ?_⟩
  · exact (reached _ wellFormed x 3 member).2 1 (by decide +kernel)
  · exact (reached _ wellFormed x 5 member).2 0 (by decide +kernel)
  · apply read _ 1 (by decide)
    intro d other
    rcases d with _ | _ | d
    · rfl
    · exact absurd rfl other
    · rfl

end LoopNest
