import LoopNest.Proofs.Sessions

/-! An edit that is refused has changed no node. Most edits are refused before they do anything.
Those that copy trees may come to a reference that leads nowhere when part of the tree is copied
already; the copies that were made by then stay, and they are all that is new. Nothing is assumed of
the arena: nodes may lie below themselves, and references may lead out of it. -/

namespace LoopNest

namespace Edit

variable {α β : Type} {a : Arena} {id : Nat}

/-- Whatever comes of it, the edit adds nodes and does nothing else. -/
def Grows (e : Edit α) (a : Arena) : Prop :=
  ∀ outcome b, e.perform a = .ok (outcome, b) → a.Extends b

theorem grows_pure {value : α} : (pure value : Edit α).Grows a := by
  intro outcome b performed
  cases performed
  exact .refl

theorem grows_refuse {operation : Operation} {cause : Cause} :
    (refuse operation cause : Edit α).Grows a := by
  intro outcome b performed
  cases performed
  exact .refl

theorem grows_push {n : Node} : (push n).Grows a := by
  intro outcome b performed
  cases performed
  exact .push n

/-- One step may be refused, or the next starts from what the first has added. -/
theorem Grows.bind {e : Edit α} {f : α → Edit β} (first : e.Grows a)
    (next : ∀ r b, e.Does a r b → (f r).Grows b) : (e >>= f).Grows a := by
  intro outcome c performed
  rw [perform_bind, Checked.bind_eq_ok_iff] at performed
  obtain ⟨⟨refusal | r, b⟩, now, later⟩ := performed
  · cases later
    exact first _ _ now
  · exact (first _ _ now).trans (next r b now _ _ later)

theorem grows_nodeAt {operation : Operation} : (nodeAt operation id).Grows a := by
  intro outcome b performed
  rw [nodeAt, perform_get_bind] at performed
  split at performed
  · cases performed
    exact .refl
  · cases performed
    exact .refl

theorem grows_mapM {f : α → Edit β} {items : List α} (each : ∀ item a, (f item).Grows a) :
    (items.mapM f).Grows a := by
  induction items generalizing a with
  | nil => exact grows_pure
  | cons item rest ih =>
    rw [List.mapM_cons]
    exact (each item a).bind fun r b _ => ih.bind fun rs c _ => grows_pure

/-! ## Copies -/

theorem copyLevels_grows {levels : Nat} : (copyLevels levels id).Grows a := by
  induction levels generalizing id a with
  | zero => exact grows_refuse
  | succ levels ih =>
    rw [copyLevels]
    refine grows_nodeAt.bind fun n b _ => ?_
    exact (grows_mapM fun child a => ih).bind fun children c _ => grows_push

theorem copySubtree_grows : (copySubtree id).Grows a := by
  intro outcome b performed
  rw [copySubtree, perform_get_bind] at performed
  exact copyLevels_grows outcome b performed

theorem copyBehind_grows {filters : List Filter} : (copyBehind id filters).Grows a := by
  induction filters generalizing a with
  | nil => exact grows_pure
  | cons filter rest ih =>
    rw [copyBehind]
    refine copySubtree_grows.bind fun copy b _ => grows_push.bind fun branch c _ => ?_
    exact ih.bind fun others d _ => grows_pure

/-- The node is overwritten when all copies have been made, and from then on nothing fails. -/
theorem insertSequence_refused_extends {filters : List Filter} :
    (insertSequence id filters).FailsOnly (fun _ => True) (fun _ b => a.Extends b) a := by
  rw [insertSequence]
  refine failsOnly_bind.mpr ⟨failsOnly_nodeAt.mpr fun _ => .refl, fun n m found => ?_⟩
  obtain ⟨-, rfl⟩ := does_nodeAt.mp found
  refine failsOnly_bind.mpr ⟨?_, fun branches b _ => by simp⟩
  exact failsOnly_iff.mpr ⟨fun _ _ => trivial, fun refusal b => copyBehind_grows _ b⟩

end Edit

namespace Call

variable {call : Call} {a b : Arena} {refusal : Refusal}

theorem extends_of_refused (refused : call.edit.perform a = .ok (.error refusal, b)) :
    a.Extends b := by
  by_cases plain : call.copies = false
  · obtain rfl : b = a :=
      (Edit.failsOnly_iff.mp (refusedUnchanged_of_not_copies plain)).2 refusal b refused
    exact .refl
  · cases call with
    | insertSequence id filters =>
      exact (Edit.failsOnly_iff.mp Edit.insertSequence_refused_extends).2 refusal b refused
    | copySubtree id =>
      exact Edit.copySubtree_grows.bind (fun r c _ => Edit.grows_pure) _ b refused
    | _ => exact absurd rfl plain

/-- A call that is refused leaves the root and every node of the arena as they were, whatever the
arena looks like. Unless the edit copies trees, there is nothing new in it either. -/
theorem refused_keeps_nodes (refused : call.edit.perform a = .ok (.error refusal, b)) :
    b.root = a.root ∧ (∀ id < a.size, b.node? id = a.node? id) ∧ a.size ≤ b.size ∧
      (call.copies = false → b = a) := by
  have extended := extends_of_refused refused
  refine ⟨extended.root, extended.frame, extended.grows, fun plain => ?_⟩
  exact (Edit.failsOnly_iff.mp (refusedUnchanged_of_not_copies plain)).2 refusal b refused

/-- The root has a reference that leads nowhere and one to itself, and there is a band without
children. -/
def frayed : Arena :=
  ⟨#[⟨.sequence, [1, 9, 0]⟩, ⟨.leaf, []⟩, ⟨.band (.ofSchedule [] .empty), []⟩], 0⟩

/-- The leaf has been copied when the next reference is found to lead nowhere. -/
theorem frayed_refused :
    (insertSequence 0 [.statements (.ofList [0])]).edit.perform frayed =
      .ok (.error ⟨.copySubtree, .noNode 9⟩, frayed.push ⟨.leaf, []⟩) ∧
    (∀ id < frayed.size, (frayed.push ⟨.leaf, []⟩).node? id = frayed.node? id) ∧
    (bandSink 2).edit.perform frayed = .ok (.error ⟨.bandSink, .childCount 2 0⟩, frayed) ∧
    ∀ b, (bandSink 2).edit.perform frayed = .ok (.error ⟨.bandSink, .childCount 2 0⟩, b) →
      b = frayed := by
  have copied : (insertSequence 0 [.statements (.ofList [0])]).edit.perform frayed =
      .ok (.error ⟨.copySubtree, .noNode 9⟩, frayed.push ⟨.leaf, []⟩) := by decide +kernel
  obtain ⟨-, nodes, -, -⟩ := refused_keeps_nodes copied
  refine ⟨copied, nodes, by decide +kernel, fun b refused => ?_⟩
  obtain ⟨-, -, -, unchanged⟩ := refused_keeps_nodes refused
  exact unchanged rfl

end Call

end LoopNest
