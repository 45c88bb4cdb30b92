import LoopNest.Proofs.Sink

/-! An edit that does not succeed faults, or it is refused and leaves the arena as it is by then.
What it may fail with is said for an edit as a whole and is found step by step: the steps after the
first fail only where the first has succeeded. Copying a tree that is stored, and putting bands
above its leaves, does not fail at all. A refusal comes before any change. -/

namespace LoopNest

namespace Edit

variable {α β : Type} {faults : Fault → Prop} {refusals : Refusal → Arena → Prop} {a b : Arena}

/-- Unless it succeeds, the edit has one of the given faults or is refused in one of the given ways,
with the arena as it is by then. -/
def FailsOnly (faults : Fault → Prop) (refusals : Refusal → Arena → Prop) (e : Edit α) (a : Arena) :
    Prop :=
  match e.perform a with
  | .error fault => faults fault
  | .ok (.error refusal, b) => refusals refusal b
  | .ok (.ok _, _) => True

theorem failsOnly_iff {e : Edit α} : e.FailsOnly faults refusals a ↔
    (∀ fault, e.perform a = .error fault → faults fault) ∧
      ∀ refusal b, e.perform a = .ok (.error refusal, b) → refusals refusal b := by
  unfold FailsOnly
  rcases e.perform a with fault | ⟨refusal | result, b⟩ <;> simp

theorem FailsOnly.imp {faults' : Fault → Prop} {e : Edit α} (h : e.FailsOnly faults refusals a)
    (weaker : ∀ fault, faults fault → faults' fault) : e.FailsOnly faults' refusals a := by
  obtain ⟨fails, refused⟩ := failsOnly_iff.mp h
  exact failsOnly_iff.mpr ⟨fun fault performed => weaker fault (fails fault performed), refused⟩

theorem exists_does {e : Edit α} (h : e.FailsOnly (fun _ => False) (fun _ _ => False) a) :
    ∃ r b, e.Does a r b := by
  obtain ⟨neverFaults, neverRefused⟩ := failsOnly_iff.mp h
  rcases performed : e.perform a with fault | ⟨refusal | r, b⟩
  · exact (neverFaults fault performed).elim
  · exact (neverRefused refusal b performed).elim
  · exact ⟨r, b, performed⟩

@[simp] theorem failsOnly_pure {value : α} : (pure value : Edit α).FailsOnly faults refusals a :=
  trivial

@[simp] theorem failsOnly_get : (get : Edit Arena).FailsOnly faults refusals a := trivial

@[simp] theorem failsOnly_push {n : Node} : (push n).FailsOnly faults refusals a := trivial

@[simp] theorem failsOnly_setNode {id : Nat} {n : Node} :
    (setNode id n).FailsOnly faults refusals a := trivial

@[simp] theorem failsOnly_set {c : Arena} : (set c : Edit Unit).FailsOnly faults refusals a :=
  trivial

@[simp] theorem failsOnly_updateBand {id : Nat} {f : Band → Band} :
    (updateBand id f).FailsOnly faults refusals a := trivial

@[simp] theorem failsOnly_refuse {operation : Operation} {cause : Cause} :
    (refuse operation cause : Edit α).FailsOnly faults refusals a ↔ refusals ⟨operation, cause⟩ a :=
  Iff.rfl

@[simp] theorem failsOnly_lift {computation : Checked α} :
    (liftM computation : Edit α).FailsOnly faults refusals a ↔
      ∀ fault, computation = .error fault → faults fault := by
  cases computation with
  | error fault =>
    constructor
    · intro h other same
      cases same
      exact h
    · intro h
      exact h fault rfl
  | ok value =>
    constructor
    · intro _ fault same
      cases same
    · intro _
      trivial

/-- The second step is performed where the first has succeeded. -/
theorem perform_bind {e : Edit α} {f : α → Edit β} :
    (e >>= f).perform a = e.perform a >>= fun (outcome, b) =>
      match outcome with
      | .ok r => (f r).perform b
      | .error refusal => .ok (.error refusal, b) := by
  simp only [perform, ExceptT.run_bind, StateT.run_bind]
  refine bind_congr fun outcome => ?_
  obtain ⟨refusal | r, b⟩ := outcome <;> rfl

theorem perform_get_bind {f : Arena → Edit α} :
    (get >>= f : Edit α).perform a = (f a).perform a := rfl

theorem perform_lift_bind {computation : Checked α} {f : α → Edit β} {r : α}
    (h : computation = .ok r) : (liftM computation >>= f : Edit β).perform a = (f r).perform a := by
  subst h
  rfl

/-- A later step may fail only where the first has succeeded. -/
@[simp] theorem failsOnly_bind {e : Edit α} {f : α → Edit β} :
    (e >>= f).FailsOnly faults refusals a ↔ e.FailsOnly faults refusals a ∧
      ∀ r b, e.Does a r b → (f r).FailsOnly faults refusals b := by
  unfold FailsOnly Does
  rw [perform_bind]
  rcases e.perform a with fault | ⟨refusal | result, b⟩
  · simp [bind, Except.bind]
  · simp [bind, Except.bind]
  · constructor
    · intro h
      refine ⟨trivial, fun r b' same => ?_⟩
      cases same
      exact h
    · intro h
      exact h.2 result b rfl

theorem failsOnly_get_bind {f : Arena → Edit β} :
    (get >>= f).FailsOnly faults refusals a ↔ (f a).FailsOnly faults refusals a := by
  simp only [failsOnly_bind, failsOnly_get, does_get, true_and]
  constructor
  · intro h
    exact h a a ⟨rfl, rfl⟩
  · rintro h _ _ ⟨rfl, rfl⟩
    exact h

@[simp] theorem failsOnly_map {e : Edit α} {f : α → β} :
    (f <$> e).FailsOnly faults refusals a ↔ e.FailsOnly faults refusals a := by
  rw [← bind_pure_comp]
  simp only [failsOnly_bind, failsOnly_pure, implies_true, and_true]

theorem failsOnly_nodeAt {operation : Operation} {id : Nat} :
    (nodeAt operation id).FailsOnly faults refusals a ↔
      (a.node? id = none → refusals ⟨operation, .noNode id⟩ a) := by
  simp only [nodeAt, failsOnly_bind, failsOnly_get, does_get, true_and]
  cases here : a.node? id with
  | none => simp [here]
  | some n => simp [here]

theorem failsOnly_bandAt {operation : Operation} {id : Nat} {f : Band → Edit β}
    (missing : a.node? id = none → refusals ⟨operation, .noNode id⟩ a)
    (other : ∀ kind, a.kind? id = some kind → (∀ band, kind ≠ .band band) →
      refusals ⟨operation, .otherKind id kind⟩ a)
    (rest : ∀ band, a.band? id = some band → (f band).FailsOnly faults refusals a) :
    (bandAt operation id >>= f).FailsOnly faults refusals a := by
  refine failsOnly_bind.mpr ⟨?_, fun band m does => ?_⟩
  · unfold bandAt
    refine failsOnly_bind.mpr ⟨failsOnly_nodeAt.mpr missing, fun n m does => ?_⟩
    obtain ⟨here, rfl⟩ := does_nodeAt.mp does
    have kind := Arena.kind?_eq here
    cases own : n.kind with
    | band band => simp
    | _ => exact other _ (own ▸ kind) (by simp)
  · obtain ⟨kind, rfl⟩ := does_bandAt.mp does
    exact rest band (by simp [Arena.band?, kind])

/-- Edits at the children of a node fail only where those before them have succeeded. -/
theorem failsOnly_mapM {arity : Nat} {f : Nat → Edit α} {top : Fin arity → Nat}
    {indices : List (Fin arity)}
    (each : ∀ before i after, indices = before ++ i :: after → ∀ rs m,
      Arena.Steps (fun i a r b => (f (top i)).Does a r b) before a rs m →
      (f (top i)).FailsOnly faults refusals m) :
    ((indices.map top).mapM f).FailsOnly faults refusals a := by
  induction indices generalizing a with
  | nil => exact failsOnly_pure
  | cons i rest ih =>
    rw [List.map_cons, List.mapM_cons]
    refine failsOnly_bind.mpr ⟨each [] i rest rfl [] a .nil, fun r m does => ?_⟩
    refine failsOnly_bind.mpr ⟨ih fun before j after split rs m' steps => ?_, by simp⟩
    exact each (i :: before) j after (by simp [split]) (r :: rs) m' (.cons does steps)

/-! ## Edits that do not fail -/

theorem exists_mapM_eq_ok {f : α → Checked β} {items : List α}
    (each : ∀ item ∈ items, ∃ result, f item = .ok result) :
    ∃ results, items.mapM f = .ok results := by
  induction items with
  | nil => exact ⟨[], rfl⟩
  | cons item rest ih =>
    obtain ⟨result, here⟩ := each item (by simp)
    obtain ⟨results, later⟩ := ih fun other member => each other (by simp [member])
    exact ⟨result :: results, by simp [List.mapM_cons, here, later, bind, Except.bind, pure,
      Except.pure]⟩

theorem node?_eq_none_iff {id : Nat} : a.node? id = none ↔ a.size ≤ id := by
  simp [Arena.node?, Arena.size]

theorem failsOnly_insertAbove {id : Nat} {kind : NodeKind} (bound : id < a.size) :
    (insertAbove id kind).FailsOnly faults refusals a := by
  have found : a.node? id ≠ none := by
    rw [ne_eq, node?_eq_none_iff]
    omega
  simp [insertAbove, failsOnly_nodeAt, found]

theorem size_of_insertAbove {id r : Nat} {kind : NodeKind}
    (does : (insertAbove id kind).Does a r b) : b.size = a.size + 1 := by
  simp only [insertAbove, does_bind, does_nodeAt, does_push, does_setNode, does_pure] at does
  obtain ⟨_, _, ⟨-, rfl⟩, _, _, ⟨rfl, rfl⟩, _, _, rfl, rfl, rfl⟩ := does
  simp

theorem failsOnly_insertAboveLeaves {band : Band} {leaves : List (Nat × StmtSet)}
    (bounds : ∀ leaf ∈ leaves, leaf.1 < a.size) :
    (insertAboveLeaves band leaves).FailsOnly faults refusals a := by
  induction leaves generalizing a with
  | nil => exact failsOnly_pure
  | cons head rest ih =>
    obtain ⟨leaf, stmts⟩ := head
    have later : ∀ leaf ∈ rest, leaf.1 < a.size := fun leaf member => bounds leaf (by simp [member])
    rw [insertAboveLeaves]
    split
    · exact ih later
    · refine failsOnly_bind.mpr ⟨failsOnly_insertAbove (bounds _ List.mem_cons_self), ?_⟩
      intro r m does
      have grown := size_of_insertAbove does
      refine failsOnly_bind.mpr ⟨ih fun leaf member => ?_, by simp⟩
      have := later leaf member
      omega

end Edit

namespace Tree

/-- The leaves of a stored tree can be listed. -/
theorem exists_leaves {a : Arena} {t : Tree} (stored : t.Stored a) (stmts : StmtSet) :
    ∃ leaves, t.leaves stmts = .ok leaves := by
  induction t generalizing stmts with
  | missing => exact stored.elim
  | node id kind arity child ih =>
    have below : ∀ stmts, ∃ parts,
        (List.finRange arity).mapM (fun i => (child i).leaves stmts) = .ok parts := fun stmts =>
      Edit.exists_mapM_eq_ok fun i _ => ih i (stored.2 i) stmts
    cases kind with
    | leaf => exact ⟨_, rfl⟩
    | filter f =>
      obtain ⟨parts, found⟩ := below (stmts.filter f.mayPass)
      exact ⟨parts.flatten, by simp [leaves, found, bind, Except.bind, pure, Except.pure]⟩
    | _ =>
      obtain ⟨parts, found⟩ := below stmts
      exact ⟨parts.flatten, by simp [leaves, found, bind, Except.bind, pure, Except.pure]⟩

theorem mem_ids_of_mapM_leaves {arity : Nat} {child : Fin arity → Tree} {stmts : StmtSet}
    {parts : List (List (Nat × StmtSet))}
    (each : ∀ i leaves, (child i).leaves stmts = .ok leaves →
      ∀ leaf ∈ leaves, leaf.1 ∈ (child i).ids)
    (found : (List.finRange arity).mapM (fun i => (child i).leaves stmts) = .ok parts)
    {leaf : Nat × StmtSet} (member : leaf ∈ parts.flatten) : ∃ i, leaf.1 ∈ (child i).ids := by
  obtain ⟨part, inParts, inside⟩ := List.mem_flatten.mp member
  obtain ⟨i, -, own⟩ := (exists_of_forall₂ (mapM_eq_ok found)).2 part inParts
  exact ⟨i, each i part own leaf inside⟩

/-- Leaves are nodes of the tree. -/
theorem mem_ids_of_leaves {t : Tree} {stmts : StmtSet} {leaves : List (Nat × StmtSet)}
    (found : t.leaves stmts = .ok leaves) : ∀ leaf ∈ leaves, leaf.1 ∈ t.ids := by
  induction t generalizing stmts leaves with
  | missing => cases found
  | node id kind arity child ih =>
    intro leaf member
    cases kind with
    | leaf =>
      cases found
      obtain rfl := List.mem_singleton.mp member
      simp [ids]
    | _ =>
      obtain ⟨parts, mapped, h⟩ := Checked.bind_eq_ok_iff.mp found
      cases h
      exact mem_ids_node.mpr (.inr (mem_ids_of_mapM_leaves (fun i _ => ih i) mapped member))

end Tree

namespace Edit

variable {α β : Type} {faults : Fault → Prop} {refusals : Refusal → Arena → Prop} {a b : Arena}
  {t : Tree}

theorem failsOnly_copyLevels {levels : Nat} (stored : t.Stored a)
    (enough : t.ids.length ≤ levels) :
    (copyLevels levels t.top).FailsOnly faults refusals a := by
  induction t generalizing a levels with
  | missing => exact stored.elim
  | node id kind arity child ih =>
    cases levels with
    | zero => simp [Tree.ids] at enough
    | succ levels =>
      rw [copyLevels, Tree.top_node]
      refine failsOnly_bind.mpr ⟨by simp [failsOnly_nodeAt, stored.1], fun n m does => ?_⟩
      obtain ⟨here, rfl⟩ := does_nodeAt.mp does
      obtain rfl : ⟨kind, List.ofFn fun i => (child i).top⟩ = n := by
        simpa using stored.1.symm.trans here
      refine failsOnly_bind.mpr ⟨?_, by simp⟩
      rw [List.ofFn_eq_map]
      refine failsOnly_mapM fun before i after split rs m steps => ?_
      have distinct : before.Nodup := by
        have := List.nodup_finRange arity
        rw [split] at this
        exact (List.nodup_append.mp this).1
      obtain ⟨-, extended, -⟩ := steps.adds
        (fun i a b r stored does => copyLevels_adds stored does) stored.2 distinct
      have fits : (child i).ids.length ≤ levels := by
        have := @Tree.length_ids_child id _ kind child i
        omega
      exact ih i (extended.stored (stored.2 i)) fits

theorem failsOnly_copySubtree (holds : a.Holds t) :
    (copySubtree t.top).FailsOnly faults refusals a := by
  have enough : t.ids.length ≤ a.descentLimit :=
    holds.length_ids_le.trans (Nat.le_add_right _ _)
  rw [copySubtree, failsOnly_get_bind]
  exact failsOnly_copyLevels holds.stored enough

theorem failsOnly_copyBehind {filters : List Filter} (holds : a.Holds t) :
    (copyBehind t.top filters).FailsOnly faults refusals a := by
  induction filters generalizing a with
  | nil => exact failsOnly_pure
  | cons f rest ih =>
    rw [copyBehind]
    refine failsOnly_bind.mpr ⟨failsOnly_copySubtree holds, fun r m copied => ?_⟩
    refine failsOnly_bind.mpr ⟨failsOnly_push, fun branch m' pushed => ?_⟩
    obtain ⟨copy, rfl, -, added⟩ := branch_adds f holds.stored copied
    obtain ⟨-, rfl⟩ := does_push.mp pushed
    exact failsOnly_bind.mpr ⟨ih (added.toExtends.holds holds), by simp⟩

theorem failsOnly_insertSequence {filters : List Filter} (holds : a.Holds t) :
    (insertSequence t.top filters).FailsOnly faults refusals a := by
  have found : a.node? t.top ≠ none := by
    rw [ne_eq, node?_eq_none_iff]
    have := holds.stored.lt_size holds.stored.top_mem
    omega
  rw [insertSequence]
  refine failsOnly_bind.mpr ⟨failsOnly_nodeAt.mpr fun none => absurd none found, fun n m does => ?_⟩
  obtain ⟨-, rfl⟩ := does_nodeAt.mp does
  exact failsOnly_bind.mpr ⟨failsOnly_copyBehind holds, by simp⟩

/-- A band that has one child can be moved down. -/
theorem failsOnly_bandSink {above : List Frame} {id arity : Nat} {band : Band}
    {child : Fin arity → Tree} (located : a.Locates above (.node id (.band band) arity child))
    (count : arity ≠ 1 → refusals ⟨.bandSink, .childCount id arity⟩ a) :
    (bandSink id).FailsOnly faults refusals a := by
  have here := located.holds.stored.1
  rw [bandSink]
  refine failsOnly_bandAt (by simp [here]) (fun kind found other => ?_) fun own found => ?_
  · rw [Arena.kind?_eq here] at found
    cases found
    exact absurd rfl (other band)
  · rw [failsOnly_get_bind, Arena.children_eq here]
    split
    · rename_i top only
      obtain rfl : arity = 1 := by simpa using congrArg List.length only
      obtain ⟨c, rfl⟩ : ∃ c, child = fun _ => c := ⟨child 0, funext fun i => by rw [Fin.eq_zero i]⟩
      obtain rfl : c.top = top := by simpa using only
      cases c with
      | missing => exact (located.holds.stored.2 0).elim
      | node other kind n below =>
        have lifted := Arena.Reworks.lift located.holds
        have unfolded := lifted.holds.treeAt_eq
        rw [Tree.top_node] at unfolded
        simp only [Tree.top_node, (located.holds.child 0).stored.1]
        obtain ⟨leaves, listed⟩ := Tree.exists_leaves lifted.holds.stored own.schedule.keySet
        have bounds := fun leaf member =>
          lifted.holds.stored.lt_size (Tree.mem_ids_of_leaves listed leaf member)
        simp only [failsOnly_bind, failsOnly_setNode, failsOnly_get, failsOnly_lift, does_setNode,
          does_get, does_lift, true_and]
        rintro _ _ rfl _ _ ⟨rfl, rfl⟩
        rw [unfolded, listed]
        refine ⟨by simp, ?_⟩
        rintro _ _ ⟨same, rfl⟩
        cases same
        exact failsOnly_insertAboveLeaves bounds
    · rename_i several
      have : arity ≠ 1 := by
        rintro rfl
        exact several (child 0).top (by simp)
      simpa using count this

end Edit

namespace Tree

/-- Children that can be stored wherever they come can be stored one behind the other. -/
theorem exists_foldlM_store {arity next : Nat} {child : Fin arity → Tree}
    (each : ∀ i next, ∃ nodes, (child i).store next = .ok nodes) (indices : List (Fin arity))
    (start : List Nat × List Node) : ∃ result,
      indices.foldlM (fun (ids, below) i => do
        let top := next + 1 + below.length
        let nodes ← (child i).store top
        return (ids ++ [top], below ++ nodes)) start = (.ok result : Checked _) := by
  induction indices generalizing start with
  | nil => exact ⟨start, rfl⟩
  | cons i rest later =>
    obtain ⟨nodes, own⟩ := each i (next + 1 + start.2.length)
    obtain ⟨result, folded⟩ := later (start.1 ++ [next + 1 + start.2.length], start.2 ++ nodes)
    refine ⟨result, ?_⟩
    rw [List.foldlM_cons, Checked.bind_eq_ok_iff]
    exact ⟨_, Checked.bind_eq_ok_iff.mpr ⟨nodes, own, rfl⟩, folded⟩

theorem exists_store {a : Arena} {t : Tree} (stored : t.Stored a) (next : Nat) :
    ∃ nodes, t.store next = .ok nodes := by
  induction t generalizing next with
  | missing => exact stored.elim
  | node id kind arity child ih =>
    obtain ⟨result, folded⟩ := exists_foldlM_store (fun i => ih i (stored.2 i))
      (List.finRange arity) ([], [])
    exact ⟨⟨kind, result.1⟩ :: result.2, Checked.bind_eq_ok_iff.mpr ⟨result, folded, rfl⟩⟩

end Tree

namespace Edit

variable {α β : Type} {faults : Fault → Prop} {refusals : Refusal → Arena → Prop} {a b : Arena}
  {t : Tree}

theorem failsOnly_compact (holds : a.Holds t) (root : a.root = t.top) :
    compact.FailsOnly faults refusals a := by
  have whole : a.tree = t := by rw [Arena.tree, root, holds.treeAt_eq]
  obtain ⟨nodes, stored⟩ := Tree.exists_store holds.stored 0
  have compacted : a.compact = .ok ⟨nodes.toArray, 0⟩ := by
    rw [Arena.compact, whole, Checked.bind_eq_ok_iff]
    exact ⟨nodes, stored, rfl⟩
  rw [compact, failsOnly_get_bind]
  simp [compacted]

/-! ## Refusals come before changes -/

def RefusedUnchanged (e : Edit α) (a : Arena) : Prop :=
  e.FailsOnly (fun _ => True) (fun _ b => b = a) a

section Unchanged

variable {id : Nat}

theorem insertAbove_refusedUnchanged {kind : NodeKind} :
    (insertAbove id kind).RefusedUnchanged a := by
  simp [RefusedUnchanged, insertAbove, failsOnly_nodeAt]

theorem bandSplit_refusedUnchanged {count : Nat} : (bandSplit id count).RefusedUnchanged a := by
  refine failsOnly_bandAt (fun _ => rfl) (fun _ _ _ => rfl) fun band _ => ?_
  dsimp only
  split
  · simp
  · refine failsOnly_bind.mpr ⟨by simp, fun upper m does => ?_⟩
    refine failsOnly_bind.mpr ⟨by simp, fun lower m does => ?_⟩
    simp [stackBands]

theorem bandTile_refusedUnchanged {sizes : List Int} : (bandTile id sizes).RefusedUnchanged a := by
  refine failsOnly_bandAt (fun _ => rfl) (fun _ _ _ => rfl) fun band _ => ?_
  split
  · simp
  · split
    · simp
    · refine failsOnly_bind.mpr ⟨by simp, fun tiles m does => ?_⟩
      refine failsOnly_bind.mpr ⟨by simp, fun points m does => ?_⟩
      simp [stackBands]

theorem bandPermute_refusedUnchanged {positions : List Nat} :
    (bandPermute id positions).RefusedUnchanged a := by
  refine failsOnly_bandAt (fun _ => rfl) (fun _ _ _ => rfl) fun band _ => ?_
  split
  · exact failsOnly_bind.mpr ⟨by simp, fun permuted m does => failsOnly_updateBand⟩
  · simp

/-- The leaves are listed before bands are put above them, so none of them is missing. -/
theorem bandSink_refusedUnchanged : (bandSink id).RefusedUnchanged a := by
  refine failsOnly_bandAt (fun _ => rfl) (fun _ _ _ => rfl) fun band _ => ?_
  rw [failsOnly_get_bind]
  split
  · split
    · trivial
    · refine failsOnly_bind.mpr ⟨failsOnly_setNode, fun _ m moved => ?_⟩
      rw [failsOnly_get_bind]
      refine failsOnly_bind.mpr ⟨by simp, fun leaves m' does => ?_⟩
      obtain ⟨listed, rfl⟩ := does_lift.mp does
      apply failsOnly_insertAboveLeaves
      intro leaf member
      exact Tree.lt_size_of_mem_unfold (Tree.mem_ids_of_leaves listed leaf member)
  · simp

end Unchanged

end Edit

end LoopNest
