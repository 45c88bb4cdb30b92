import LoopNest.Proofs.Walks

/-! A sequence of filters takes the place of a tree, with a copy of the tree behind each of them.
The copies stand at new positions, apart from each other, and nothing else in the arena changes. An
instance that came to the tree comes to the copy behind the first filter that lets it through, and
has the position of that filter as a new entry there. -/

namespace LoopNest

namespace Checked

variable {α : Type} {f : α → Checked Bool} {items : List α}

/-- No item passes a checked test exactly if each is tested and fails it. -/
theorem findM?_eq_none_iff : items.findM? f = .ok none ↔ ∀ item ∈ items, f item = .ok false := by
  induction items with
  | nil => simp [List.findM?, pure, Except.pure]
  | cons head rest ih =>
    rw [List.findM?, bind_eq_ok_iff, List.forall_mem_cons, ← ih]
    constructor
    · rintro ⟨passes, tested, h⟩
      cases passes with
      | true => cases h
      | false => exact ⟨tested, h⟩
    · rintro ⟨tested, h⟩
      exact ⟨false, tested, h⟩

/-- A search faults only where a test does. -/
theorem exists_of_findM?_eq_error {fault : Fault} (h : items.findM? f = .error fault) :
    ∃ item ∈ items, f item = .error fault := by
  induction items with
  | nil => cases h
  | cons head rest ih =>
    rw [List.findM?] at h
    cases tested : f head with
    | error =>
      rw [tested] at h
      cases h
      exact ⟨head, by simp, tested⟩
    | ok passes =>
      rw [tested] at h
      cases passes with
      | true => cases h
      | false =>
        obtain ⟨item, member, faults⟩ := ih h
        exact ⟨item, by simp [member], faults⟩

theorem findM?_finRange {n : Nat} {f : Fin n → Checked Bool} {p : Fin n} (passes : f p = .ok true)
    (first : ∀ q < p, f q = .ok false) : (List.finRange n).findM? f = .ok (some p) := by
  have split : List.finRange n =
      (List.finRange n).take p ++ p :: (List.finRange n).drop (p + 1) := by
    have bound : p.val < (List.finRange n).length := by simp
    have here : (List.finRange n)[p.val] = p := by simp
    conv_lhs => rw [← List.take_append_drop p.val (List.finRange n)]
    rw [List.drop_eq_getElem_cons bound, here]
  refine findM?_eq_some_iff.mpr ⟨_, _, split, fun q earlier => first q ?_, passes⟩
  obtain ⟨i, bound, rfl⟩ := List.mem_take_iff_getElem.mp earlier
  rw [List.getElem_finRange, Fin.lt_def]
  simpa using (lt_min_iff.mp bound).1

end Checked

namespace Arena

variable {a b : Arena}

/-- Steps that each add as many nodes as one child has add as many as the children have. -/
theorem Steps.size {arity : Nat} {child : Fin arity → Tree}
    {step : Fin arity → Arena → Nat → Arena → Prop}
    (each : ∀ i a b r, (child i).Stored a → step i a r b →
      a.Extends b ∧ b.size = a.size + (child i).ids.length)
    {indices : List (Fin arity)} {rs : List Nat} (steps : Steps step indices a rs b)
    (stored : ∀ i, (child i).Stored a) :
    b.size = a.size + (indices.flatMap fun i => (child i).ids).length := by
  induction steps with
  | nil => simp
  | @cons i rest a m b r rs head tail ih =>
    obtain ⟨extended, grown⟩ := each i a m r (stored i) head
    rw [ih fun j => extended.stored (stored j), grown, List.flatMap_cons, List.length_append]
    omega

end Arena

namespace Edit

variable {a b : Arena} {t : Tree} {r : Nat} {filters : List Filter}

/-- A copy has as many nodes as the tree. -/
theorem size_of_copyLevels {levels : Nat} (stored : t.Stored a)
    (does : (copyLevels levels t.top).Does a r b) : b.size = a.size + t.ids.length := by
  induction t generalizing a b levels r with
  | missing => exact stored.elim
  | node id kind arity child ih =>
    cases levels with
    | zero => exact absurd does does_refuse
    | succ levels =>
      simp only [copyLevels, does_bind, does_nodeAt, Tree.top_node, does_push] at does
      obtain ⟨n, _, ⟨here, rfl⟩, tops, m, mapped, rfl, rfl⟩ := does
      obtain rfl : ⟨kind, List.ofFn fun i => (child i).top⟩ = n := by
        simpa using stored.1.symm.trans here
      rw [List.ofFn_eq_map] at mapped
      have grown :
          m.size = a.size + ((List.finRange arity).flatMap fun i => (child i).ids).length := by
        refine (steps_of_mapM mapped).size (fun i a b r stored does => ?_) stored.2
        obtain ⟨copy, added, -, -⟩ := copyLevels_adds stored does
        exact ⟨added.toExtends, ih i stored does⟩
      rw [Arena.size_push, grown, Tree.ids, List.length_cons]
      omega

theorem size_of_copyBehind {rs : List (Nat × Nat)} (stored : t.Stored a)
    (does : (copyBehind t.top filters).Does a rs b) :
    b.size = a.size + filters.length * (t.ids.length + 1) := by
  induction filters generalizing a rs with
  | nil =>
    obtain ⟨-, rfl⟩ := does_pure.mp does
    simp
  | cons f filters ih =>
    simp only [copyBehind, does_bind, does_push, does_pure] at does
    obtain ⟨r, m, copied, _, _, ⟨rfl, rfl⟩, others, _, later, -, rfl⟩ := does
    obtain ⟨copy, rfl, -, added⟩ := branch_adds f stored copied
    have first : m.size = a.size + t.ids.length := by
      simp only [copySubtree, does_bind, does_get] at copied
      obtain ⟨_, _, ⟨rfl, rfl⟩, copied⟩ := copied
      exact size_of_copyLevels stored copied
    rw [ih (added.toExtends.stored stored) later, Arena.size_push, first, List.length_cons,
      Nat.succ_mul]
    omega

/-- Only the top of the tree is changed, and the arena grows by the filters and the copies. -/
theorem insertSequence_frame {rs : List Nat} (holds : a.Holds t)
    (does : (insertSequence t.top filters).Does a rs b) :
    (∀ id < a.size, id ≠ t.top → b.node? id = a.node? id) ∧
      b.size = a.size + filters.length * (t.ids.length + 1) := by
  simp only [insertSequence, does_bind, does_nodeAt, does_setNode, does_pure] at does
  obtain ⟨-, _, ⟨-, rfl⟩, pairs, m, copied, _, _, rfl, -, rfl⟩ := does
  obtain ⟨-, -, extended, -, -⟩ := copyBehind_adds holds.stored copied
  refine ⟨fun id bound ne => ?_, ?_⟩
  · rw [Arena.node?_setNode_ne _ _ ne, extended.frame id bound]
  · rw [Arena.size_setNode, size_of_copyBehind holds.stored copied]

/-- The branches, one for each filter. -/
theorem Branches.exists_copies {rs : List (Nat × Nat)} {branches : List Tree}
    (h : Branches t filters rs branches) :
    ∃ (ids : Fin filters.length → Nat) (copy : Fin filters.length → Tree),
      rs.map (·.2) = List.ofFn (fun i => (copy i).top) ∧ (∀ i, t.Renumbered (copy i)) ∧
      branches = List.ofFn fun i => .node (ids i) (.filter (filters.get i)) 1 fun _ => copy i := by
  induction h with
  | nil => exact ⟨nofun, nofun, by simp⟩
  | @cons f filters id copy rs branches renumbered rest ih =>
    obtain ⟨ids, copies, tops, each, rfl⟩ := ih
    refine ⟨Fin.cons id ids, Fin.cons copy copies, ?_, Fin.cases renumbered each, ?_⟩
    · simp [List.ofFn_succ, tops]
    · simp [List.ofFn_succ]

/-- A sequence of the filters, each above a copy of the tree, takes the place of the tree. -/
theorem insertSequence_copies {rs : List Nat} (holds : a.Holds t)
    (does : (insertSequence t.top filters).Does a rs b) :
    ∃ (ids : Fin filters.length → Nat) (copy : Fin filters.length → Tree),
      rs = List.ofFn (fun i => (copy i).top) ∧ (∀ i, t.Renumbered (copy i)) ∧
      (∀ i, ∀ id ∈ (copy i).ids, a.size ≤ id) ∧
      a.Reworks b t (.node t.top .sequence filters.length fun i =>
        .node (ids i) (.filter (filters.get i)) 1 fun _ => copy i) := by
  obtain ⟨pairs, branches, rfl, isBranches, fresh, reworks⟩ := insertSequence_branches holds does
  obtain ⟨ids, copy, tops, renumbered, rfl⟩ := isBranches.exists_copies
  refine ⟨ids, copy, tops, renumbered, fun i id member => ?_, ?_⟩
  · refine fresh (.node (ids i) (.filter (filters.get i)) 1 fun _ => copy i)
      (List.mem_ofFn.mpr ⟨i, rfl⟩) id (Tree.mem_ids_node.mpr (.inr ⟨0, member⟩))
  · have same : Tree.node t.top .sequence _ (List.ofFn fun i : Fin filters.length =>
        Tree.node (ids i) (.filter (filters.get i)) 1 fun _ => copy i).get =
        .node t.top .sequence filters.length fun i =>
          .node (ids i) (.filter (filters.get i)) 1 fun _ => copy i :=
      Tree.node_congr (by simp) fun i => by rw [List.get_ofFn]
    rwa [same] at reworks

end Edit

/-! ## The first filter decides -/

namespace Filter

def first? {n : Nat} (filter : Fin n → Filter) (x : Iteration) : Checked (Option (Fin n)) :=
  (List.finRange n).findM? fun i => (filter i).passes x.stmt x.point x.params

theorem first?_eq_none_iff {filters : List Filter} {x : Iteration} :
    first? filters.get x = .ok none ↔
      ∀ f ∈ filters, f.passes x.stmt x.point x.params = .ok false := by
  simp [first?, Checked.findM?_eq_none_iff, List.forall_mem_iff_get]

theorem exists_of_first?_eq_error {filters : List Filter} {x : Iteration} {fault : Fault}
    (h : first? filters.get x = .error fault) :
    ∃ f ∈ filters, f.passes x.stmt x.point x.params = .error fault := by
  obtain ⟨i, -, faults⟩ := Checked.exists_of_findM?_eq_error h
  exact ⟨_, List.get_mem filters i, faults⟩

def stampBehind {n : Nat} (x : Iteration) (pre sub : List Int) :
    Option (Fin n) → Except EvalError (List Int)
  | none => .error (.unscheduled x.stmt x.point .noBranch)
  | some p => .ok (pre ++ [(p.val : Int)] ++ sub)

section Outcomes

variable {n : Nat} {x : Iteration} {pre sub : List Int} {first : Checked (Option (Fin n))}

theorem stampBehind_unscheduled_iff :
    first.map (stampBehind x pre sub) = .ok (.error (.unscheduled x.stmt x.point .noBranch)) ↔
      first = .ok none := by
  rcases first with fault | _ | p <;> simp [Except.map, stampBehind]

theorem stampBehind_error_iff {fault : Fault} :
    first.map (stampBehind x pre sub) = .error fault ↔ first = .error fault := by
  cases first <;> simp [Except.map]

end Outcomes

end Filter

namespace Tree

variable {x : Iteration} {t : Tree} {n id : Nat} {ids : Fin n → Nat} {filter : Fin n → Filter}
  {copy : Fin n → Tree}

theorem timestamp_filter {filter : Filter} {id : Nat} {c : Tree}
    (passes : filter.passes x.stmt x.point x.params = .ok true) :
    (node id (.filter filter) 1 fun _ => c).timestamp x = c.timestamp x := by
  have stepped : step (fun _ : Fin 1 => c) x.stmt x.point x.params (.filter filter) =
      pure ([], some 0) := by
    rw [step, passes]
    rfl
  rw [timestamp_next stepped]
  exact id_map _

/-- The filters decide, and what stands behind them gives the entries that the tree gives. -/
theorem timestamp_branches (renumbered : ∀ i, t.Renumbered (copy i)) :
    (node id .sequence n fun i => node (ids i) (.filter (filter i)) 1 fun _ => copy i).timestamp x =
      (do
        match ← Filter.first? filter x with
        | none => throw (.unscheduled x.stmt x.point .noBranch)
        | some p => ((p.val : Int) :: ·) <$> t.timestamp x) := by
  have chosen : branch? (fun i => node (ids i) (.filter (filter i)) 1 fun _ => copy i) x.stmt
      x.point x.params = Filter.first? filter x := rfl
  rcases found : Filter.first? filter x with fault | _ | p
  · rw [timestamp, visits, step, step.branching, chosen, found]
    rfl
  · rw [timestamp, visits, step, step.branching, chosen, found]
    rfl
  · have stepped : step (fun i => node (ids i) (.filter (filter i)) 1 fun _ => copy i) x.stmt
        x.point x.params .sequence = pure ([(p.val : Int)], some p) := by
      rw [step, step.branching, chosen, found]
      rfl
    obtain ⟨_, _, -, -, passes⟩ := Checked.findM?_eq_some_iff.mp found
    rw [timestamp_next stepped, timestamp_filter passes, ← (renumbered p).alike.timestamp]
    rfl

end Tree

/-- An instance that came to the tree comes to the copy behind the first filter that lets it
through. -/
theorem Arena.Exchanges.timestamp_behind {a b : Arena} {above : List Frame} {t : Tree}
    {x : Iteration} {n : Nat} {ids : Fin n → Nat} {filter : Fin n → Filter} {copy : Fin n → Tree}
    {pre later : List Visit} {v : List Int}
    (exchange : a.Exchanges b above t (.node t.top .sequence n fun i =>
      .node (ids i) (.filter (filter i)) 1 fun _ => copy i))
    (renumbered : ∀ i, t.Renumbered (copy i))
    (walk : (a.visits x.stmt x.point x.params).run = .ok (.ok (pre ++ ⟨t.top, v⟩ :: later))) :
    (b.timestamp x.stmt x.point x.params).run = (Filter.first? filter x).map
      (Filter.stampBehind x (pre.flatMap (·.entries)) (v ++ later.flatMap (·.entries))) := by
  obtain ⟨old, new⟩ := exchange.timestamp_through (fun _ _ => rfl) walk
  rw [new, Tree.timestamp_branches renumbered, Tree.timestamp, old]
  rcases Filter.first? filter x with fault | _ | p
  · rfl
  · rfl
  · simp only [Except.map, Filter.stampBehind, List.append_assoc]
    rfl

namespace Edit

variable {a b : Arena} {id : Nat}

/-- Filters partition a tree by the first one that lets an instance through. The edit succeeds, and
it changes no other node. The copies are those of the tree, at new positions that they do not
share. An instance that came to the tree has the position of the first filter that lets it through
as a new entry there. It is no longer scheduled exactly if no filter lets it through, and its time
stamp faults only where a filter does. -/
theorem insertSequence_partitions (wellFormed : a.isWellFormed = true)
    (reached : id ∈ a.subtree a.root) (inner : id ≠ a.root) (filters : List Filter) :
    ∃ copies b, (insertSequence id filters).commit a = .ok (.ok (copies, b)) ∧
      (∀ other < a.size, other ≠ id → b.node? other = a.node? other) ∧
      b.size = a.size + filters.length * ((a.subtree id).length + 1) ∧
      copies.length = filters.length ∧
      (∀ copy ∈ copies, (a.treeAt id).Renumbered (b.treeAt copy) ∧
        ∀ other ∈ b.subtree copy, a.size ≤ other) ∧
      (copies.Pairwise fun c d => (b.subtree c).Disjoint (b.subtree d)) ∧
      ∀ (x : Iteration) pre v later,
        (a.visits x.stmt x.point x.params).run = .ok (.ok (pre ++ ⟨id, v⟩ :: later)) →
        (∀ p : Fin filters.length, (filters.get p).passes x.stmt x.point x.params = .ok true →
          (∀ q < p, (filters.get q).passes x.stmt x.point x.params = .ok false) →
          (b.timestamp x.stmt x.point x.params).run = .ok (.ok (pre.flatMap (·.entries) ++
            [(p.val : Int)] ++ (v ++ later.flatMap (·.entries))))) ∧
        ((b.timestamp x.stmt x.point x.params).run =
            .ok (.error (.unscheduled x.stmt x.point .noBranch)) ↔
          ∀ f ∈ filters, f.passes x.stmt x.point x.params = .ok false) ∧
        ∀ fault, (b.timestamp x.stmt x.point x.params).run = .error fault →
          ∃ f ∈ filters, f.passes x.stmt x.point x.params = .error fault := by
  obtain ⟨above, kind, arity, child, located⟩ := Arena.exists_locates wellFormed reached
  generalize shape : Tree.node id kind arity child = t at located
  obtain rfl : t.top = id := by rw [← shape, Tree.top_node]
  have notRoot : above ≠ [] := by
    rintro rfl
    obtain ⟨whole, top, -, ⟨⟩⟩ := located
    exact inner top.symm
  have holds := located.holds
  obtain ⟨copies, b, does⟩ : ∃ copies b, (insertSequence t.top filters).Does a copies b :=
    exists_does (failsOnly_insertSequence holds)
  obtain ⟨frame, size⟩ := insertSequence_frame holds does
  obtain ⟨ids, copy, rfl, renumbered, fresh, reworks⟩ := insertSequence_copies holds does
  have branches : ∀ i, b.Holds (copy i) := fun i => (reworks.holds.child i).child 0
  obtain ⟨-, -, apart⟩ := Tree.nodup_ids_node.mp reworks.holds.distinct
  refine ⟨_, b, commit_eq_ok.mpr does, frame, by rw [holds.subtree_eq, size], by simp, ?_, ?_, ?_⟩
  · intro c member
    obtain ⟨i, rfl⟩ := List.mem_ofFn.mp member
    rw [holds.treeAt_eq, (branches i).treeAt_eq, (branches i).subtree_eq]
    exact ⟨renumbered i, fresh i⟩
  · rw [List.pairwise_ofFn]
    intro i j earlier id inI inJ
    rw [(branches i).subtree_eq] at inI
    rw [(branches j).subtree_eq] at inJ
    exact apart i j (Fin.ne_of_lt earlier) id (Tree.mem_ids_node.mpr (.inr ⟨0, inI⟩))
      (Tree.mem_ids_node.mpr (.inr ⟨0, inJ⟩))
  · intro x pre v later walk
    rw [(located.exchanges reworks notRoot).timestamp_behind renumbered walk]
    refine ⟨fun p passes first => ?_, ?_, fun fault faults => ?_⟩
    · rw [Filter.first?, Checked.findM?_finRange passes first]
      rfl
    · rw [Filter.stampBehind_unscheduled_iff, Filter.first?_eq_none_iff]
    · exact Filter.exists_of_first?_eq_error (Filter.stampBehind_error_iff.mp faults)

/-- Nothing, then the last four rows of the grid, then its last four columns. -/
def halves : List Filter :=
  let tiles (border : Affine) : Filter := .tiles ⟨.full, 4, .ofList [(0, some [.affine border])]⟩
  [.statements (.ofList []), tiles ⟨-4, [1, 0], []⟩, tiles ⟨-4, [0, 1], []⟩]

theorem grid_insertSequence_partitions : ∃ copies b,
    (insertSequence 1 halves).commit Scop.grid.schedule = .ok (.ok (copies, b)) ∧
    copies.length = 3 ∧ b.size = 12 ∧
    (b.timestamp 0 [5, 6] []).run = .ok (.ok [1, 5, 6]) ∧
    (b.timestamp 0 [1, 6] []).run = .ok (.ok [2, 1, 6]) ∧
    (b.timestamp 0 [1, 1] []).run = .ok (.error (.unscheduled 0 [1, 1] .noBranch)) := by
  have reached : 1 ∈ Scop.grid.schedule.subtree Scop.grid.schedule.root := by decide +kernel
  obtain ⟨copies, b, committed, -, size, count, -, -, stamps⟩ :=
    insertSequence_partitions (by decide +kernel) reached (by decide) halves
  refine ⟨copies, b, committed, count, size, ?_, ?_, ?_⟩
  · exact (stamps ⟨0, [5, 6], []⟩ [⟨0, []⟩] [5, 6] [⟨2, []⟩] (by decide +kernel)).1 ⟨1, by decide⟩
      (by decide +kernel) (by decide +kernel)
  · exact (stamps ⟨0, [1, 6], []⟩ [⟨0, []⟩] [1, 6] [⟨2, []⟩] (by decide +kernel)).1 ⟨2, by decide⟩
      (by decide +kernel) (by decide +kernel)
  · exact (stamps ⟨0, [1, 1], []⟩ [⟨0, []⟩] [1, 1] [⟨2, []⟩] (by decide +kernel)).2.1.mpr
      (by decide +kernel)

end Edit

end LoopNest
