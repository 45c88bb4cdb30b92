import LoopNest.Proofs.Context

/-! When a tree that stands in another is replaced, an instance that comes to it keeps its way above
it. Every other instance comes to it with the same entries, or has other entries from above it on.
-/

namespace LoopNest

namespace Tree

variable {x y : Iteration} {a b : Arena} {above : List Frame} {t t' u whole whole' : Tree}

theorem way_next {id arity : Nat} {kind : NodeKind} {child : Fin arity → Tree} {i : Fin arity}
    {entries : List Int} (step : onward x child kind = some (entries, some i)) :
    (node id kind arity child).way x = ((child i).way x).map (⟨id, entries⟩ :: ·) := by
  simp only [way, step, Option.bind_eq_bind, Option.bind_some]
  cases (child i).way x <;> rfl

theorem mem_ids_of_way {visits : List Visit} (way : t.way x = some visits) {visit : Visit}
    (member : visit ∈ visits) : visit.id ∈ t.ids := by
  induction t generalizing visits with
  | missing => simp [Tree.way] at way
  | node id kind arity child ih =>
    obtain ⟨entries, later, rfl, step⟩ := way_eq_some way
    rcases List.mem_cons.mp member with rfl | member
    · simp [ids]
    · rcases step with ⟨-, rfl⟩ | ⟨i, -, below⟩
      · simp at member
      · exact mem_ids_node.mpr (.inr ⟨i, ih i below member⟩)

theorem Grafted.admits (graft : Grafted t t' above whole whole') (top : t'.admits y = t.admits y) :
    whole'.admits y = whole.admits y := by
  cases graft with
  | here => exact top
  | @inside _ _ _ kind _ _ i graft => cases kind <;> rfl

/-- An instance comes to the tree, and to what replaces it, with the given visits. Any instance
comes there with the same entries, or its time stamps do not start with them; here the entries of a
band must be equally many for all instances. -/
structure Comes (x : Iteration) (t t' whole whole' : Tree) (pre : List Visit) : Prop where
  old : whole.way x = (t.way x).map (pre ++ ·)
  new : whole'.way x = (t'.way x).map (pre ++ ·)
  others : whole.EveryBand Band.HasArity → ∀ y,
    whole.stamp y = (t.stamp y).map (pre.flatMap (·.entries) ++ ·) ∧
      whole'.stamp y = (t'.stamp y).map (pre.flatMap (·.entries) ++ ·) ∨
    ∀ rest, whole.stamp y ≠ some (pre.flatMap (·.entries) ++ rest) ∧
      whole'.stamp y ≠ some (pre.flatMap (·.entries) ++ rest)

namespace Comes

variable {pre : List Visit} {y : Iteration} {as bs : List Int}

theorem stamp_old (comes : Comes x t t' whole whole' pre) :
    whole.stamp x = (t.stamp x).map (pre.flatMap (·.entries) ++ ·) := by
  simp [stamp, comes.old, Function.comp_def]

theorem stamp_new (comes : Comes x t t' whole whole' pre) :
    whole'.stamp x = (t'.stamp x).map (pre.flatMap (·.entries) ++ ·) := by
  simp [stamp, comes.new, Function.comp_def]

/-- What is put in the place of a tree that gave a time stamp gave one before. -/
theorem exists_stamp (comes : Comes x t t' whole whole' pre) {visits : List Visit}
    (way : whole'.way x = some visits) (scheduled : (t'.stamp x).isSome = (t.stamp x).isSome) :
    ∃ as, t.stamp x = some as ∧ whole.stamp x = some (pre.flatMap (·.entries) ++ as) := by
  obtain ⟨later, below, -⟩ := Option.map_eq_some_iff.mp (comes.new.symm.trans way)
  rw [stamp, below, Option.map_some, Option.isSome_some] at scheduled
  obtain ⟨as, here⟩ := Option.isSome_iff_exists.mp scheduled.symm
  exact ⟨as, here, by rw [comes.stamp_old, here, Option.map_some]⟩

/-- What is true of the time stamps below the same visits is true of the whole time stamps. -/
theorem stamp_eq_iff (comes : Comes x t t' whole whole' pre)
    (arities : whole.EveryBand Band.HasArity) {condition : Prop}
    (below : t'.stamp y = some bs ↔ condition ∧ t.stamp y = some as) :
    whole'.stamp y = some (pre.flatMap (·.entries) ++ bs) ↔
      condition ∧ whole.stamp y = some (pre.flatMap (·.entries) ++ as) := by
  rcases comes.others arities y with ⟨old, new⟩ | never
  · simpa [old, new] using below
  · simp [never]

/-- What comes to a tree in a child of a node comes there with a visit of the node before. -/
theorem inside {id arity : Nat} {kind : NodeKind} {child : Fin arity → Tree} {c : Tree}
    {i : Fin arity} {entries : List Int} (comes : Comes x t t' (child i) c pre)
    (same : ∀ y k, (Function.update child i c k).admits y = (child k).admits y)
    (step : onward x child kind = some (entries, some i)) :
    Comes x t t' (node id kind arity child) (node id kind arity (Function.update child i c))
      (⟨id, entries⟩ :: pre) := by
  refine ⟨?_, ?_, fun arities y => ?_⟩
  · rw [way_next step, comes.old, Option.map_map]
    rfl
  · rw [way_next ((onward_congr kind (same x)).trans step), Function.update_self, comes.new,
      Option.map_map]
    rfl
  rw [stamp_node, stamp_node, onward_congr kind (same y)]
  cases stepY : onward y child kind with
  | none => exact .inr fun rest => by simp
  | some r =>
    obtain ⟨entries', next⟩ := r
    have length : entries'.length = entries.length := by
      rw [onward_length arities.1 stepY, onward_length arities.1 step]
    by_cases equal : entries' = entries
    · subst equal
      obtain rfl : next = some i := onward_next stepY step
      simp only [Option.bind_some, after_some, Function.update_self, List.flatMap_cons,
        List.append_assoc]
      rcases comes.others (arities.2 i) y with ⟨old, new⟩ | never
      · refine .inl ⟨?_, ?_⟩
        · rw [old, Option.map_map]
          rfl
        · rw [new, Option.map_map]
          rfl
      · refine .inr fun rest => ⟨fun found => (never rest).1 ?_, fun found => (never rest).2 ?_⟩
        · simpa using found
        · simpa using found
    · refine .inr fun rest => ⟨fun found => equal ?_, fun found => equal ?_⟩ <;>
      · simp only [Option.bind_some, Option.map_eq_some_iff, List.flatMap_cons,
          List.append_assoc] at found
        obtain ⟨_, -, found⟩ := found
        exact (List.append_inj found length).1

end Comes

/-- A way that meets a node in a child goes on to the child. -/
theorem way_of_meets {id arity : Nat} {kind : NodeKind} {child : Fin arity → Tree} {i : Fin arity}
    {visit : Visit} {visits : List Visit} (holds : b.Holds (node id kind arity child))
    (way : (node id kind arity child).way x = some visits) (member : visit ∈ visits)
    (inside : visit.id ∈ (child i).ids) :
    ∃ entries later, onward x child kind = some (entries, some i) ∧
      (child i).way x = some later ∧ visit ∈ later := by
  obtain ⟨outside, -, apart⟩ := nodup_ids_node.mp holds.distinct
  obtain ⟨entries, later, rfl, step⟩ := way_eq_some way
  have inLater : visit ∈ later := by
    rcases List.mem_cons.mp member with rfl | member
    · exact absurd inside (outside i)
    · exact member
  rcases step with ⟨-, rfl⟩ | ⟨j, step, below⟩
  · simp at inLater
  obtain rfl : j = i := by
    by_contra ne
    exact apart j i ne _ (mem_ids_of_way below inLater) inside
  exact ⟨entries, later, step, below, inLater⟩

/-- An instance comes to the replaced tree if its way meets a node of it. -/
theorem Grafted.comes (graft : Grafted t t' above whole whole') (holds : b.Holds whole')
    (admits : ∀ y, t'.admits y = t.admits y) {visits : List Visit}
    (way : whole'.way x = some visits) (meets : ∃ visit ∈ visits, visit.id ∈ t'.ids) :
    ∃ pre, Comes x t t' whole whole' pre := by
  induction graft generalizing visits with
  | here =>
    refine ⟨[], ?_, ?_, fun _ y => .inl ⟨?_, ?_⟩⟩ <;> simp
  | @inside above id arity kind child c i graft ih =>
    obtain ⟨visit, member, inside⟩ := meets
    obtain ⟨entries, later, step, below, inLater⟩ := way_of_meets (i := i) holds way member
      (by simpa using graft.under.mem_ids inside)
    obtain ⟨pre, comes⟩ := ih (by simpa using holds.child i) (by simpa using below)
      ⟨visit, inLater, inside⟩
    have same : ∀ y k, (Function.update child i c k).admits y = (child k).admits y := by
      intro y k
      by_cases here : k = i
      · subst here
        simpa using graft.admits (admits y)
      · simp [here]
    exact ⟨_, comes.inside same ((onward_congr kind (same x)).symm.trans step)⟩

theorem Under.graft (under : Under above whole t) : Grafted t t above whole whole := by
  induction under with
  | here => exact .here
  | @inside above id arity kind child t i under ih =>
    have whole : Grafted t t ((id, kind) :: above) (node id kind arity child)
        (node id kind arity (Function.update child i (child i))) := .inside i ih
    rwa [Function.update_eq_self] at whole

theorem Under.trans {above' : List Frame} (outer : Under above whole t) (inner : Under above' t u) :
    Under (above ++ above') whole u := by
  induction outer with
  | here => exact inner
  | inside i under ih => exact .inside i (ih inner)

theorem exists_under (holds : a.Holds t) {id : Nat} (member : id ∈ t.ids) :
    ∃ above kind arity child, Under above t (node id kind arity child) := by
  induction t with
  | missing => exact holds.stored.elim
  | node top kind arity child ih =>
    rcases mem_ids_node.mp member with rfl | ⟨i, member⟩
    · exact ⟨[], kind, arity, child, .here _⟩
    · obtain ⟨above, kind', arity', child', under⟩ := ih i (holds.child i) member
      exact ⟨_, kind', arity', child', .inside i under⟩

end Tree

/-- Every node of a well-formed arena's tree stands somewhere in it. -/
theorem Arena.exists_locates {a : Arena} (wellFormed : a.isWellFormed = true) {id : Nat}
    (member : id ∈ a.subtree a.root) :
    ∃ above kind arity child, a.Locates above (.node id kind arity child) := by
  obtain ⟨holds, top⟩ := holds_tree wellFormed
  rw [← top, holds.subtree_eq] at member
  obtain ⟨above, kind, arity, child, under⟩ := Tree.exists_under holds member
  exact ⟨above, kind, arity, child, a.tree, top.symm, holds, under⟩

end LoopNest
