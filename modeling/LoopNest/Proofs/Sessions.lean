import LoopNest.Proofs.Failures
import LoopNest.Proofs.Graft

/-! Edits are called one after the other, each at a node of the tree as it is by then, whether or
not the calls before were refused. The arena stays well formed. A call that succeeds changes nothing
that is reached from elsewhere than the node it was called at, and that node keeps its place. -/

namespace LoopNest

inductive Call where
  | insertAbove (id : Nat) (kind : NodeKind)
  | bandSplit (id count : Nat)
  | bandTile (id : Nat) (sizes : List Int)
  | bandPermute (id : Nat) (positions : List Nat)
  | bandSink (id : Nat)
  | insertSequence (id : Nat) (filters : List Filter)
  | copySubtree (id : Nat)
  | compact
  deriving DecidableEq, Repr

namespace Call

/-- The node that the edit is called at; the whole arena is made compact. -/
def target? : Call → Option Nat
  | insertAbove id _ | bandSplit id _ | bandTile id _ | bandPermute id _ | bandSink id
  | insertSequence id _ | copySubtree id => some id
  | compact => none

def edit : Call → Edit (List Nat)
  | insertAbove id kind => return [← Edit.insertAbove id kind]
  | bandSplit id count => return [← Edit.bandSplit id count]
  | bandTile id sizes => return [← Edit.bandTile id sizes]
  | bandPermute id positions => do
    Edit.bandPermute id positions
    return []
  | bandSink id => Edit.bandSink id
  | insertSequence id filters => Edit.insertSequence id filters
  | copySubtree id => return [← Edit.copySubtree id]
  | compact => do
    Edit.compact
    return []

def copies : Call → Bool
  | insertSequence .. | copySubtree _ => true
  | _ => false

def Aims (call : Call) (a : Arena) : Prop := ∀ id ∈ call.target?, id ∈ a.subtree a.root

instance (call : Call) (a : Arena) : Decidable (call.Aims a) :=
  inferInstanceAs (Decidable (∀ id ∈ call.target?, id ∈ a.subtree a.root))

end Call

/-- A call with the arena before it, what came of it, and the arena after it. -/
structure Step where
  before : Arena
  call : Call
  outcome : Except Refusal (List Nat)
  after : Arena
  deriving DecidableEq

/-- Makes calls one after the other, also after one that is refused. -/
def Call.session : List Call → Arena → Checked (List Step × Arena)
  | [], a => .ok ([], a)
  | call :: rest, a => do
    let (outcome, b) ← call.edit.perform a
    let (steps, last) ← session rest b
    return (⟨a, call, outcome, b⟩ :: steps, last)

/-- From one arena to another, nothing has changed but what lies at and below a node, and the node
has kept its place. -/
structure Arena.KeepsAround (a b : Arena) (id : Nat) : Prop where
  root : b.root = a.root
  outside : ∀ other ∈ a.subtree a.root, other ∉ a.subtree id → b.node? other = a.node? other
  reached : id ∈ b.subtree b.root
  parent : ∀ parent ∈ a.subtree a.root, ∀ position : Nat, (a.children parent)[position]? = some id →
    parent ∈ b.subtree b.root ∧ (b.children parent)[position]? = some id

namespace Tree

theorem Grafted.mem_ids {t t' whole whole' : Tree} {above : List Frame}
    (graft : Grafted t t' above whole whole') {id : Nat} (member : id ∈ whole.ids) :
    id ∈ t.ids ∨ id ∈ whole'.ids := by
  induction graft with
  | here => exact .inl member
  | @inside above top arity kind child c i graft ih =>
    rcases mem_ids_node.mp member with rfl | ⟨j, member⟩
    · exact .inr (by simp [ids])
    · by_cases same : j = i
      · subst same
        refine (ih member).imp_right fun inside => mem_ids_node.mpr (.inr ⟨j, ?_⟩)
        simpa using inside
      · exact .inr (mem_ids_node.mpr (.inr ⟨j, by simpa [same] using member⟩))

/-- The children of the nodes of a tree are nodes of it, below its top. -/
theorem mem_ids_of_children {a : Arena} {t : Tree} (holds : a.Holds t) {parent id : Nat}
    (member : parent ∈ t.ids) (child : id ∈ a.children parent) : id ∈ t.ids ∧ id ≠ t.top := by
  induction t with
  | missing => exact holds.stored.elim
  | node top kind arity below ih =>
    obtain ⟨outside, -, -⟩ := nodup_ids_node.mp holds.distinct
    have inside : ∃ i, id ∈ (below i).ids := by
      rcases mem_ids_node.mp member with rfl | ⟨i, member⟩
      · rw [Arena.children_eq holds.stored.1] at child
        obtain ⟨i, rfl⟩ := List.mem_ofFn.mp child
        exact ⟨i, (holds.child i).stored.top_mem⟩
      · exact ⟨i, (ih i (holds.child i) member).1⟩
    obtain ⟨i, inside⟩ := inside
    refine ⟨mem_ids_node.mpr (.inr ⟨i, inside⟩), ?_⟩
    rintro rfl
    exact outside i inside

end Tree

namespace Arena

variable {a b : Arena} {above : List Frame} {t t' : Tree}

theorem Locates.isWellFormed (located : a.Locates above t) : a.isWellFormed = true := by
  obtain ⟨whole, root, holds, -⟩ := located
  exact isWellFormed_of_holds holds root

/-- An edit that reworks a tree keeps what is around it. -/
theorem Locates.keepsAround (located : a.Locates above t) (reworks : a.Reworks b t t') :
    a.KeepsAround b t.top := by
  obtain ⟨whole, root, holds, under⟩ := located
  obtain ⟨whole', graft, reworked⟩ := under.rework holds reworks
  have before : a.subtree a.root = whole.ids := by rw [root, holds.subtree_eq]
  have after : b.subtree b.root = whole'.ids := by
    rw [reworked.root, root, ← reworked.top, reworked.holds.subtree_eq]
  have own : a.subtree t.top = t.ids := (under.holds holds).subtree_eq
  have outside : ∀ other ∈ whole.ids, other ∉ t.ids → b.node? other = a.node? other :=
    fun other member apart => reworks.frame other (holds.stored.lt_size member) apart
  refine ⟨reworks.root, ?_, ?_, ?_⟩
  · rwa [before, own]
  · rw [after, ← reworks.top]
    exact graft.under.mem_ids reworks.holds.stored.top_mem
  · intro parent member position place
    rw [before] at member
    have apart : parent ∉ t.ids := fun inside =>
      (Tree.mem_ids_of_children (under.holds holds) inside (List.mem_of_getElem? place)).2 rfl
    have same : b.children parent = a.children parent := by
      simp only [children, outside parent member apart]
    rw [after, same]
    exact ⟨(graft.mem_ids member).resolve_left apart, place⟩

end Arena

namespace Edit

variable {a b : Arena} {above : List Frame} {id arity r : Nat} {kind : NodeKind}
  {child : Fin arity → Tree}

theorem insertAbove_reworks {kind' : NodeKind} (holds : a.Holds (.node id kind arity child))
    (does : (insertAbove id kind').Does a r b) :
    a.Reworks b (.node id kind arity child)
      (.node id kind' 1 fun _ => .node r kind arity child) := by
  simp only [insertAbove, does_bind, does_nodeAt, does_push, does_setNode, does_pure] at does
  obtain ⟨n, _, ⟨here, rfl⟩, _, _, ⟨rfl, rfl⟩, _, _, rfl, rfl, rfl⟩ := does
  obtain rfl : ⟨kind, List.ofFn fun i => (child i).top⟩ = n := by
    simpa using holds.stored.1.symm.trans here
  exact .stack holds kind' kind

theorem bandSplit_stacks {count : Nat} (does : (bandSplit id count).Does a r b) :
    ∃ band upper lower, a.kind? id = some (.band band) ∧
      (stackBands id upper lower).Does a r b := by
  simp only [bandSplit, does_bind, does_bandAt] at does
  obtain ⟨band, _, ⟨own, rfl⟩, does⟩ := does
  split at does
  · exact absurd does does_refuse
  · simp only [does_bind, does_lift] at does
    obtain ⟨upper, _, ⟨-, rfl⟩, lower, _, ⟨-, rfl⟩, does⟩ := does
    exact ⟨band, upper, _, own, does⟩

theorem bandTile_stacks {sizes : List Int} (does : (bandTile id sizes).Does a r b) :
    ∃ band upper lower, a.kind? id = some (.band band) ∧
      (stackBands id upper lower).Does a r b := by
  simp only [bandTile, does_bind, does_bandAt] at does
  obtain ⟨band, _, ⟨own, rfl⟩, does⟩ := does
  split at does
  · exact absurd does does_refuse
  · split at does
    · exact absurd does does_refuse
    · simp only [does_bind, does_lift] at does
      obtain ⟨tiles, _, ⟨-, rfl⟩, points, _, ⟨-, rfl⟩, does⟩ := does
      exact ⟨band, tiles, points, own, does⟩

/-- A tree stays where nodes are added only. -/
theorem reworks_of_extends {t : Tree} (holds : a.Holds t) (extended : a.Extends b) :
    a.Reworks b t t :=
  ⟨extended.holds holds, rfl, extended.root, extended.grows,
    fun id bound _ => extended.frame id bound, fun _ member => .inl member⟩

end Edit

namespace Call

variable {a b : Arena} {above : List Frame} {id arity : Nat} {kind : NodeKind}
  {child : Fin arity → Tree} {call : Call}

/-- A call that succeeds reworks the tree below the node it is made at. -/
theorem exists_reworks {result : List Nat}
    (located : a.Locates above (.node id kind arity child)) (target : call.target? = some id)
    (does : call.edit.Does a result b) : ∃ t', a.Reworks b (.node id kind arity child) t' := by
  have holds := located.holds
  have isBand : ∀ band, a.kind? id = some (.band band) → kind = .band band := by
    intro band own
    simpa [Arena.kind?_eq holds.stored.1] using own
  cases call <;> cases target <;> simp only [edit, Edit.does_bind, Edit.does_pure] at does
  case insertAbove kind' =>
    obtain ⟨r, _, does, -, rfl⟩ := does
    exact ⟨_, Edit.insertAbove_reworks holds does⟩
  case bandSplit count =>
    obtain ⟨r, _, does, -, rfl⟩ := does
    obtain ⟨band, upper, lower, own, stacked⟩ := Edit.bandSplit_stacks does
    obtain rfl := isBand band own
    exact ⟨_, Edit.stackBands_reworks holds stacked⟩
  case bandTile sizes =>
    obtain ⟨r, _, does, -, rfl⟩ := does
    obtain ⟨band, upper, lower, own, stacked⟩ := Edit.bandTile_stacks does
    obtain rfl := isBand band own
    exact ⟨_, Edit.stackBands_reworks holds stacked⟩
  case bandPermute positions =>
    obtain ⟨_, _, does, -, rfl⟩ := does
    obtain ⟨band, _, found, -⟩ := Edit.does_bind.mp does
    obtain rfl := isBand band (Edit.does_bandAt.mp found).1
    obtain ⟨permuted, -, reworks⟩ := Edit.bandPermute_reworks holds does
    exact ⟨_, reworks⟩
  case bandSink =>
    obtain ⟨band, _, found, -⟩ := Edit.does_bind.mp does
    obtain rfl := isBand band (Edit.does_bandAt.mp found).1
    exact Edit.bandSink_reworks located does
  case insertSequence filters =>
    obtain ⟨_, _, -, -, -, reworks⟩ := Edit.insertSequence_branches holds does
    exact ⟨_, reworks⟩
  case copySubtree =>
    obtain ⟨r, _, does, -, rfl⟩ := does
    obtain ⟨copy, added, -⟩ := Edit.copySubtree_adds holds.stored does
    exact ⟨_, Edit.reworks_of_extends holds added.toExtends⟩

/-- Edits that copy nothing are refused before they change anything, in any arena. -/
theorem refusedUnchanged_of_not_copies (plain : call.copies = false) :
    call.edit.RefusedUnchanged a := by
  cases call <;> simp only [edit, Edit.RefusedUnchanged, bind_pure_comp, Edit.failsOnly_map]
  case insertAbove id kind => exact Edit.insertAbove_refusedUnchanged
  case bandSplit id count => exact Edit.bandSplit_refusedUnchanged
  case bandTile id sizes => exact Edit.bandTile_refusedUnchanged
  case bandPermute id positions => exact Edit.bandPermute_refusedUnchanged
  case bandSink id => exact Edit.bandSink_refusedUnchanged
  case insertSequence id filters => cases plain
  case copySubtree id => cases plain
  case compact => simp [Edit.compact]

/-- A call that is refused changes nothing. -/
theorem refusedUnchanged (located : a.Locates above (.node id kind arity child))
    (target : call.target? = some id) : call.edit.RefusedUnchanged a := by
  by_cases plain : call.copies = false
  · exact refusedUnchanged_of_not_copies plain
  · have holds := located.holds
    cases call with
    | insertSequence _ filters =>
      cases target
      rw [edit, Edit.RefusedUnchanged]
      simpa only [Tree.top_node] using Edit.failsOnly_insertSequence holds
    | copySubtree _ =>
      cases target
      rw [edit, Edit.RefusedUnchanged, bind_pure_comp, Edit.failsOnly_map]
      simpa only [Tree.top_node] using Edit.failsOnly_copySubtree holds
    | _ => exact absurd rfl plain

/-- One call keeps an arena well formed. -/
theorem perform_keeps {outcome : Except Refusal (List Nat)} (wellFormed : a.isWellFormed = true)
    (aims : call.Aims a) (performed : call.edit.perform a = .ok (outcome, b)) :
    b.isWellFormed = true ∧ (∀ refusal, outcome = .error refusal → b = a) ∧
      ∀ id result, call.target? = some id → outcome = .ok result → a.KeepsAround b id := by
  cases target : call.target? with
  | none =>
    cases call <;> cases target
    obtain ⟨holds, top⟩ := Arena.holds_tree wellFormed
    have succeeds : (edit compact).FailsOnly (fun _ => False) (fun _ _ => False) a :=
      Edit.failsOnly_bind.mpr ⟨Edit.failsOnly_compact holds top.symm, by simp⟩
    cases outcome with
    | error refusal => exact ((Edit.failsOnly_iff.mp succeeds).2 refusal b performed).elim
    | ok result =>
      have does : (edit compact).Does a result b := performed
      simp only [edit, Edit.compact, Edit.does_bind, Edit.does_get, Edit.does_lift,
        Edit.does_pure] at does
      obtain ⟨_, _, ⟨_, _, ⟨rfl, rfl⟩, b', _, ⟨compacted, rfl⟩, last⟩, rfl, rfl⟩ := does
      cases last
      obtain ⟨copy, holdsCopy, root, -⟩ := Arena.holds_of_compact holds top.symm compacted
      exact ⟨Arena.isWellFormed_of_holds holdsCopy root, by simp, by simp⟩
  | some id =>
    obtain ⟨above, kind, arity, child, located⟩ := Arena.exists_locates wellFormed (aims id target)
    cases outcome with
    | error refusal =>
      obtain rfl : b = a :=
        (Edit.failsOnly_iff.mp (refusedUnchanged located target)).2 refusal b performed
      exact ⟨wellFormed, by simp, by simp⟩
    | ok result =>
      obtain ⟨t', reworks⟩ := exists_reworks located target performed
      refine ⟨(located.rework reworks).isWellFormed, by simp, ?_⟩
      rintro _ _ ⟨⟩ -
      exact located.keepsAround reworks

/-- Well-formedness is an invariant of editing. Calls are made at nodes of the tree as it is by
then, and none of them faults. The arena is well formed after each; one that is refused changes
nothing; one that succeeds keeps what is around its node. -/
theorem session_keeps_wellFormed {calls : List Call} {steps : List Step}
    (wellFormed : a.isWellFormed = true) (ran : session calls a = .ok (steps, b))
    (aims : ∀ step ∈ steps, step.call.Aims step.before) :
    b.isWellFormed = true ∧ ∀ step ∈ steps, step.after.isWellFormed = true ∧
      (∀ refusal, step.outcome = .error refusal → step.after = step.before) ∧
      ∀ id result, step.call.target? = some id → step.outcome = .ok result →
        step.before.KeepsAround step.after id := by
  induction calls generalizing a steps with
  | nil =>
    cases ran
    exact ⟨wellFormed, by simp⟩
  | cons call rest ih =>
    simp only [session, Checked.bind_eq_ok_iff] at ran
    obtain ⟨⟨outcome, m⟩, performed, ⟨later, last⟩, sessions, h⟩ := ran
    cases h
    obtain ⟨kept, refused, around⟩ := perform_keeps wellFormed (aims _ List.mem_cons_self) performed
    obtain ⟨atEnd, each⟩ := ih kept sessions fun step member => aims step (by simp [member])
    exact ⟨atEnd, List.forall_mem_cons.mpr ⟨⟨kept, refused, around⟩, each⟩⟩

theorem exists_ok_of_toOption {α : Type} {result : Checked α} {p : α → Bool}
    (h : result.toOption.any p = true) : ∃ value, result = .ok value ∧ p value = true := by
  cases result with
  | error => simp [Except.toOption] at h
  | ok value => exact ⟨value, rfl, by simpa [Except.toOption] using h⟩

/-- The tiles of two loops are split, their points get two branches, and one of these loses its band
to a leaf. Three calls are refused: two at nodes that are no bands, one that would split one loop.
-/
def twoLoops : List Call :=
  [.bandTile 1 [4, 4], .bandSplit 1 1, .bandPermute 2 [0], .bandSplit 1 1,
    .insertSequence 3 [.statements (.ofList [0]), .statements (.ofList [1])], .bandSink 6,
    .insertAbove 9 .set, .copySubtree 3, .compact, .bandSplit 0 1]

theorem twoLoops_keep_wellFormed : ∃ steps b,
    session twoLoops (.ofBand (.ofList [(0, .whole 2 0)]) [⟨true, true⟩, ⟨true, true⟩]) =
      .ok (steps, b) ∧
    steps.map (·.outcome.toOption) = [some [3], some [4], none, none, some [6, 9], some [6],
      some [12], some [20], some [], none] ∧
    b.isWellFormed = true ∧ ∀ step ∈ steps, step.after.isWellFormed = true ∧
      (∀ refusal, step.outcome = .error refusal → step.after = step.before) ∧
      ∀ id result, step.call.target? = some id → step.outcome = .ok result →
        step.before.KeepsAround step.after id := by
  obtain ⟨⟨steps, b⟩, ran, checked⟩ := exists_ok_of_toOption (α := List Step × Arena)
    (p := fun r => decide (∀ step ∈ r.1, step.call.Aims step.before) &&
      decide (r.1.map (·.outcome.toOption) = [some [3], some [4], none, none, some [6, 9],
        some [6], some [12], some [20], some [], none]))
    (show ((session twoLoops (.ofBand (.ofList [(0, .whole 2 0)])
      [⟨true, true⟩, ⟨true, true⟩])).toOption.any _) = true by decide +kernel)
  obtain ⟨aims, outcomes⟩ : (∀ step ∈ steps, step.call.Aims step.before) ∧ _ = _ := by
    simpa only [Bool.and_eq_true, decide_eq_true_eq] using checked
  exact ⟨steps, b, ran, outcomes, session_keeps_wellFormed (by decide +kernel) ran aims⟩

end Call

end LoopNest
