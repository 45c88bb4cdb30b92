import LoopNest.Proofs.Edits
import Mathlib.Data.Fin.VecNotation

/-! A copy of a tree stands at new positions and has the same kinds. An arena that is made compact
holds a copy of its tree and nothing else. -/

namespace LoopNest

structure Arena.Extends (a b : Arena) : Prop where
  root : b.root = a.root
  grows : a.size ≤ b.size
  frame : ∀ id < a.size, b.node? id = a.node? id

structure Arena.Adds (a b : Arena) (t : Tree) : Prop extends a.Extends b where
  holds : b.Holds t
  fresh : ∀ id ∈ t.ids, a.size ≤ id

namespace Arena

variable {a b c : Arena} {t : Tree}

namespace Extends

theorem refl : a.Extends a := ⟨rfl, le_rfl, fun _ _ => rfl⟩

theorem trans (first : a.Extends b) (second : b.Extends c) : a.Extends c where
  root := second.root.trans first.root
  grows := first.grows.trans second.grows
  frame := fun id bound =>
    (second.frame id (bound.trans_le first.grows)).trans (first.frame id bound)

theorem stored (extended : a.Extends b) (stored : t.Stored a) : t.Stored b :=
  stored.frame fun id member => extended.frame id (stored.lt_size member)

theorem holds (extended : a.Extends b) (holds : a.Holds t) : b.Holds t :=
  ⟨extended.stored holds.stored, holds.distinct⟩

theorem push (n : Node) : a.Extends (a.push n) :=
  ⟨rfl, by simp, fun _ bound => a.node?_push_of_lt n bound⟩

end Extends

/-- A node is put above trees that have been added. -/
theorem Adds.above {arity : Nat} (kind : NodeKind) (child : Fin arity → Tree)
    (extended : a.Extends b) (holds : ∀ i, b.Holds (child i))
    (fresh : ∀ i, ∀ id ∈ (child i).ids, a.size ≤ id)
    (apart : ∀ i j, i ≠ j → ∀ id, id ∈ (child i).ids → id ∉ (child j).ids) :
    a.Adds (b.push ⟨kind, List.ofFn fun i => (child i).top⟩) (.node b.size kind arity child) where
  toExtends := extended.trans (.push _)
  holds := by
    refine .node (b.node?_push_size _) (fun i => (Extends.push _).holds (holds i)) ?_
    refine Tree.nodup_ids_node.mpr ⟨fun i member => ?_, fun i => (holds i).distinct, apart⟩
    exact Nat.lt_irrefl _ ((holds i).stored.lt_size member)
  fresh := by
    intro id member
    rcases Tree.mem_ids_node.mp member with rfl | ⟨i, member⟩
    · exact extended.grows
    · exact fresh i id member

/-- A node above trees that have been added takes the place of a tree. -/
theorem Reworks.replace {arity : Nat} (kind : NodeKind) (child : Fin arity → Tree) (old : a.Holds t)
    (extended : a.Extends b) (holds : ∀ i, b.Holds (child i))
    (fresh : ∀ i, ∀ id ∈ (child i).ids, a.size ≤ id)
    (apart : ∀ i j, i ≠ j → ∀ id, id ∈ (child i).ids → id ∉ (child j).ids) :
    a.Reworks (b.setNode t.top ⟨kind, List.ofFn fun i => (child i).top⟩) t
      (.node t.top kind arity child) := by
  have bound : t.top < a.size := old.stored.lt_size old.stored.top_mem
  have outside : ∀ i, t.top ∉ (child i).ids := fun i member =>
    Nat.not_lt_of_le (fresh i _ member) bound
  refine ⟨.node (b.node?_setNode_self _ (bound.trans_le extended.grows)) (fun i => ?_) ?_, rfl,
    extended.root, by simpa using extended.grows, fun id lt notIn => ?_, fun id member => ?_⟩
  · exact (holds i).frame fun id member =>
      b.node?_setNode_ne _ fun same => outside i (same ▸ member)
  · exact Tree.nodup_ids_node.mpr ⟨outside, fun i => (holds i).distinct, apart⟩
  · have ne : id ≠ t.top := fun same => notIn (same ▸ old.stored.top_mem)
    rw [b.node?_setNode_ne _ ne, extended.frame id lt]
  · rcases Tree.mem_ids_node.mp member with rfl | ⟨i, member⟩
    · exact .inl old.stored.top_mem
    · exact .inr (fresh i id member)

/-- Steps that each add a copy of one child. -/
theorem Steps.adds {arity : Nat} {child : Fin arity → Tree}
    {step : Fin arity → Arena → Nat → Arena → Prop}
    (each : ∀ i a b r, (child i).Stored a → step i a r b →
      ∃ t, a.Adds b t ∧ t.top = r ∧ Tree.Renumbered (child i) t)
    {indices : List (Fin arity)} {rs : List Nat} (steps : Steps step indices a rs b)
    (stored : ∀ i, (child i).Stored a) (distinct : indices.Nodup) :
    ∃ after : Fin arity → Tree, a.Extends b ∧ rs = indices.map (fun i => (after i).top) ∧
      (∀ i ∈ indices, Tree.Renumbered (child i) (after i) ∧ b.Holds (after i) ∧
        ∀ id ∈ (after i).ids, a.size ≤ id) ∧
      ∀ i ∈ indices, ∀ j ∈ indices, i ≠ j → ∀ id ∈ (after i).ids, id ∉ (after j).ids := by
  induction steps with
  | nil => exact ⟨child, .refl, by simp⟩
  | @cons i rest a m b r rs head tail ih =>
    obtain ⟨new, distinct⟩ := List.nodup_cons.mp distinct
    obtain ⟨t, added, rfl, renumbered⟩ := each i a m r (stored i) head
    obtain ⟨after, extended, rfl, copies, apart⟩ :=
      ih (fun j => added.toExtends.stored (stored j)) distinct
    have ne : ∀ j ∈ rest, j ≠ i := fun j member eq => new (eq ▸ member)
    have early : ∀ id ∈ t.ids, id < m.size := fun id member => added.holds.stored.lt_size member
    have later : ∀ j ∈ rest, ∀ id ∈ (after j).ids, m.size ≤ id := fun j member =>
      (copies j member).2.2
    refine ⟨Function.update after i t, added.toExtends.trans extended, ?_, ?_, ?_⟩
    · simp only [List.map_cons, Function.update_self]
      congr 1
      exact List.map_congr_left fun j member => by rw [Function.update_of_ne (ne j member)]
    · intro j member
      rcases List.mem_cons.mp member with rfl | member
      · simp only [Function.update_self]
        exact ⟨renumbered, extended.holds added.holds, added.fresh⟩
      · rw [Function.update_of_ne (ne j member)]
        obtain ⟨renumbered, holds, fresh⟩ := copies j member
        exact ⟨renumbered, holds, fun id inside => added.grows.trans (fresh id inside)⟩
    · intro j hj l hl apartIndices id
      rcases List.mem_cons.mp hj with rfl | inRest <;> rcases List.mem_cons.mp hl with rfl | inRest'
      · exact absurd rfl apartIndices
      · rw [Function.update_self, Function.update_of_ne (ne l inRest')]
        intro inside outside
        have := early id inside
        have := later l inRest' id outside
        omega
      · rw [Function.update_self, Function.update_of_ne (ne j inRest)]
        intro inside outside
        have := early id outside
        have := later j inRest id inside
        omega
      · rw [Function.update_of_ne (ne j inRest), Function.update_of_ne (ne l inRest')]
        exact apart j inRest l inRest' apartIndices id

end Arena

namespace Edit

variable {a b : Arena} {t : Tree} {r : Nat}

theorem copyLevels_adds {levels : Nat} (stored : t.Stored a)
    (does : (copyLevels levels t.top).Does a r b) :
    ∃ copy, a.Adds b copy ∧ copy.top = r ∧ t.Renumbered copy := by
  induction t generalizing a b levels r with
  | missing => exact stored.elim
  | node id kind arity child ih =>
    cases levels with
    | zero => exact absurd does does_refuse
    | succ levels =>
      simp only [copyLevels, does_bind, does_nodeAt, Tree.top_node, does_push] at does
      obtain ⟨n, _, ⟨here, rfl⟩, tops, m, mapped, rfl, rfl⟩ := does
      obtain rfl : ⟨kind, List.ofFn fun i => (child i).top⟩ = n := by
        simpa using stored.1.symm.trans here
      rw [List.ofFn_eq_map] at mapped
      obtain ⟨after, extended, rfl, copies, apart⟩ := (steps_of_mapM mapped).adds
        (fun i a b r stored does => ih i stored does) stored.2 (List.nodup_finRange arity)
      rw [← List.ofFn_eq_map]
      have all : ∀ i, i ∈ List.finRange arity := List.mem_finRange
      exact ⟨_, .above kind after extended (fun i => (copies i (all i)).2.1)
        (fun i => (copies i (all i)).2.2) (fun i j ne => apart i (all i) j (all j) ne), rfl,
        .node fun i => (copies i (all i)).1⟩

theorem copySubtree_adds (stored : t.Stored a) (does : (copySubtree t.top).Does a r b) :
    ∃ copy, a.Adds b copy ∧ copy.top = r ∧ t.Renumbered copy := by
  simp only [copySubtree, does_bind, does_get] at does
  obtain ⟨_, _, ⟨rfl, rfl⟩, does⟩ := does
  exact copyLevels_adds stored does

/-- A copy below a new filter. -/
theorem branch_adds {m : Arena} (f : Filter) (stored : t.Stored a)
    (does : (copySubtree t.top).Does a r m) :
    ∃ copy, copy.top = r ∧ t.Renumbered copy ∧
      a.Adds (m.push ⟨.filter f, [r]⟩) (.node m.size (.filter f) 1 fun _ => copy) := by
  obtain ⟨copy, added, rfl, renumbered⟩ := copySubtree_adds stored does
  exact ⟨copy, rfl, renumbered, .above (.filter f) (fun _ : Fin 1 => copy) added.toExtends
    (fun _ => added.holds) (fun _ => added.fresh) fun i j ne => absurd (Subsingleton.elim i j) ne⟩

/-- Filters at the first of two positions, each above a copy of a tree at the second. -/
inductive Branches (t : Tree) : List Filter → List (Nat × Nat) → List Tree → Prop where
  | nil : Branches t [] [] []
  | cons {f : Filter} {filters : List Filter} {id : Nat} {copy : Tree} {rs : List (Nat × Nat)}
    {branches : List Tree} (renumbered : t.Renumbered copy)
    (rest : Branches t filters rs branches) :
    Branches t (f :: filters) ((id, copy.top) :: rs)
      (.node id (.filter f) 1 (fun _ => copy) :: branches)

theorem Branches.tops {filters : List Filter} {rs : List (Nat × Nat)} {branches : List Tree}
    (h : Branches t filters rs branches) : rs.map (·.1) = branches.map Tree.top := by
  induction h with
  | nil => rfl
  | cons renumbered rest ih => simp [ih]

/-- The branches are new and stand apart from each other. -/
theorem copyBehind_adds {filters : List Filter} {rs : List (Nat × Nat)} (stored : t.Stored a)
    (does : (copyBehind t.top filters).Does a rs b) :
    ∃ branches, Branches t filters rs branches ∧ a.Extends b ∧
      (∀ branch ∈ branches, b.Holds branch ∧ ∀ id ∈ branch.ids, a.size ≤ id) ∧
      branches.Pairwise fun s s' => ∀ id ∈ s.ids, id ∉ s'.ids := by
  induction filters generalizing a rs with
  | nil =>
    obtain ⟨rfl, rfl⟩ := does_pure.mp does
    exact ⟨[], .nil, .refl, by simp, .nil⟩
  | cons f filters ih =>
    simp only [copyBehind, does_bind, does_push, does_pure] at does
    obtain ⟨r, m, copied, _, _, ⟨rfl, rfl⟩, others, _, later, rfl, rfl⟩ := does
    obtain ⟨copy, rfl, renumbered, added⟩ := branch_adds f stored copied
    obtain ⟨branches, isBranches, extended, each, apart⟩ :=
      ih (added.toExtends.stored stored) later
    refine ⟨_, .cons renumbered isBranches, added.toExtends.trans extended, ?_, .cons ?_ apart⟩
    · intro branch member
      rcases List.mem_cons.mp member with rfl | member
      · exact ⟨extended.holds added.holds, added.fresh⟩
      · obtain ⟨holds, fresh⟩ := each branch member
        exact ⟨holds, fun id inside => added.grows.trans (fresh id inside)⟩
    · intro branch member id inside outside
      have early := added.holds.stored.lt_size inside
      have late := (each branch member).2 id outside
      omega

theorem apart_of_pairwise {branches : List Tree}
    (h : branches.Pairwise fun s s' => ∀ id ∈ s.ids, id ∉ s'.ids) (i j : Fin branches.length)
    (ne : i ≠ j) : ∀ id ∈ (branches.get i).ids, id ∉ (branches.get j).ids := by
  intro id inside outside
  rcases Nat.lt_or_gt_of_ne (Fin.val_ne_of_ne ne) with lt | lt
  · exact List.pairwise_iff_get.mp h i j lt id inside outside
  · exact List.pairwise_iff_get.mp h j i lt id outside inside

/-- Filters with a copy of a tree below each take its place. -/
theorem insertSequence_branches {filters : List Filter} {rs : List Nat} (holds : a.Holds t)
    (does : (insertSequence t.top filters).Does a rs b) :
    ∃ pairs branches, rs = pairs.map (·.2) ∧ Branches t filters pairs branches ∧
      (∀ branch ∈ branches, ∀ id ∈ branch.ids, a.size ≤ id) ∧
      a.Reworks b t (.node t.top .sequence branches.length branches.get) := by
  simp only [insertSequence, does_bind, does_nodeAt, does_setNode, does_pure] at does
  obtain ⟨-, _, ⟨-, rfl⟩, pairs, m, copied, _, _, rfl, rfl, rfl⟩ := does
  obtain ⟨branches, isBranches, extended, each, apart⟩ := copyBehind_adds holds.stored copied
  refine ⟨pairs, branches, rfl, isBranches, fun branch member => (each branch member).2, ?_⟩
  rw [isBranches.tops, ← Arena.ofFn_top_get]
  apply Arena.Reworks.replace .sequence branches.get holds extended
  · exact fun i => (each _ (List.get_mem branches i)).1
  · exact fun i => (each _ (List.get_mem branches i)).2
  · exact apart_of_pairwise apart

/-- Two filters with a copy of a tree below each take its place. -/
theorem insertSequence_reworks {f g : Filter} {rs : List Nat} (holds : a.Holds t)
    (does : (insertSequence t.top [f, g]).Does a rs b) :
    ∃ i j c d, rs = [c.top, d.top] ∧ t.Renumbered c ∧ t.Renumbered d ∧ a.size ≤ i ∧
      a.Reworks b t (.node t.top .sequence 2
        ![.node i (.filter f) 1 fun _ => c, .node j (.filter g) 1 fun _ => d]) := by
  obtain ⟨pairs, branches, rfl, isBranches, fresh, reworks⟩ := insertSequence_branches holds does
  cases isBranches with
  | @cons _ _ i c _ _ renumbered rest =>
    cases rest with
    | @cons _ _ j d _ _ renumbered' rest =>
      cases rest
      have new := fresh (.node i (.filter f) 1 fun _ => c) (by simp) i (by simp [Tree.ids])
      have same : [Tree.node i (.filter f) 1 fun _ => c, .node j (.filter g) 1 fun _ => d].get =
          ![.node i (.filter f) 1 fun _ => c, .node j (.filter g) 1 fun _ => d] :=
        funext (Fin.forall_fin_two.mpr ⟨rfl, rfl⟩)
      rw [same] at reworks
      exact ⟨i, j, c, d, rfl, renumbered, renumbered', new, reworks⟩

end Edit

/-! ## Compact arenas -/

def Arena.Shows (a : Arena) (start : Nat) (nodes : List Node) : Prop :=
  ∀ (i : Nat) (n : Node), nodes[i]? = some n → a.node? (start + i) = some n

theorem Arena.Shows.append {a : Arena} {start : Nat} {first second : List Node}
    (shown : a.Shows start (first ++ second)) :
    a.Shows start first ∧ a.Shows (start + first.length) second := by
  refine ⟨fun i n h => shown i n ?_, fun i n h => ?_⟩
  · rw [List.getElem?_append_left (List.getElem?_eq_some_iff.mp h).1, h]
  · rw [Nat.add_assoc]
    refine shown _ n ?_
    rw [List.getElem?_append_right (Nat.le_add_right _ _), Nat.add_sub_cancel_left, h]

namespace Tree

/-- The nodes are those of a copy of the tree that is numbered from a position on. -/
structure Numbered (t : Tree) (start : Nat) (nodes : List Node) (copy : Tree) : Prop where
  renumbered : t.Renumbered copy
  top : copy.top = start
  ids : copy.ids = List.range' start nodes.length
  stored : ∀ a : Arena, a.Shows start nodes → copy.Stored a

/-- The children come after their node, one after the other. -/
theorem numbered_of_foldlM {arity start : Nat} {child : Fin arity → Tree}
    (each : ∀ i top nodes, (child i).store top = .ok nodes →
      ∃ copy, (child i).Numbered top nodes copy)
    {indices : List (Fin arity)} {tops tops' : List Nat} {nodes nodes' : List Node}
    (h : indices.foldlM (fun (tops, nodes) i => do
      let top := start + nodes.length
      let own ← (child i).store top
      return (tops ++ [top], nodes ++ own)) (tops, nodes) = (.ok (tops', nodes') : Checked _)) :
    ∃ copies new, List.Forall₂ (fun i copy => (child i).Renumbered copy) indices copies ∧
      tops' = tops ++ copies.map Tree.top ∧ nodes' = nodes ++ new ∧
      copies.flatMap Tree.ids = List.range' (start + nodes.length) new.length ∧
      ∀ a : Arena, a.Shows (start + nodes.length) new → ∀ copy ∈ copies, copy.Stored a := by
  induction indices generalizing tops nodes with
  | nil =>
    cases h
    exact ⟨[], [], .nil, by simp, by simp, by simp, by simp⟩
  | cons i rest ih =>
    simp only [List.foldlM_cons, Checked.bind_eq_ok_iff] at h
    obtain ⟨_, ⟨own, hown, h⟩, later⟩ := h
    cases h
    obtain ⟨copy, numbered⟩ := each i _ own hown
    obtain ⟨copies, new, renumbered, rfl, rfl, ids, stored⟩ := ih later
    refine ⟨copy :: copies, own ++ new, .cons numbered.renumbered renumbered,
      by simp [numbered.top], by simp, ?_, fun a shown => ?_⟩
    · rw [List.flatMap_cons, numbered.ids, ids, List.length_append, List.length_append,
        ← Nat.add_assoc, List.range'_append_1]
    · obtain ⟨first, second⟩ := shown.append
      rw [List.length_append, ← Nat.add_assoc] at stored
      intro c member
      rcases List.mem_cons.mp member with rfl | member
      · exact numbered.stored a first
      · exact stored a second c member

theorem numbered_of_store {t : Tree} {start : Nat} {nodes : List Node}
    (h : t.store start = .ok nodes) : ∃ copy, t.Numbered start nodes copy := by
  induction t generalizing start nodes with
  | missing => cases h
  | node id kind arity child ih =>
    simp only [store, Checked.bind_eq_ok_iff] at h
    obtain ⟨⟨tops, below⟩, folded, h⟩ := h
    cases h
    obtain ⟨copies, new, renumbered, rfl, rfl, ids, stored⟩ :=
      numbered_of_foldlM (fun i _ _ => ih i) folded
    have length : copies.length = arity := by simpa using renumbered.length_eq.symm
    subst length
    refine ⟨.node start kind copies.length copies.get, .node fun i => ?_, rfl, ?_,
      fun a shown => ?_⟩
    · simpa using renumbered.get (i := i) (by simp) (by simp)
    · simp only [Tree.ids, Arena.flatMap_finRange_get, ids]
      simp [List.range'_succ]
    · refine ⟨?_, fun i => stored a ?_ _ (List.get_mem copies i)⟩
      · simpa [Arena.ofFn_top_get] using shown 0 _ rfl
      · rw [← List.singleton_append] at shown
        exact shown.append.2

end Tree

/-- A compact arena holds the tree of the arena that it was made of, numbered from zero, and nothing
else. -/
theorem Arena.renumbered_of_compact {a b : Arena} {t : Tree} (holds : a.Holds t)
    (root : a.root = t.top) (h : a.compact = .ok b) :
    ∃ copy, b.Holds copy ∧ b.root = copy.top ∧ t.Renumbered copy ∧
      copy.ids = List.range b.size := by
  have whole : a.tree = t := by rw [tree, root, holds.treeAt_eq]
  simp only [compact, whole, Checked.bind_eq_ok_iff] at h
  obtain ⟨nodes, stored, h⟩ := h
  cases h
  obtain ⟨copy, numbered⟩ := Tree.numbered_of_store stored
  refine ⟨copy, ⟨numbered.stored _ fun i n here => ?_, ?_⟩, numbered.top.symm, numbered.renumbered,
    ?_⟩
  · simpa [Arena.node?] using here
  · rw [numbered.ids]
    exact List.nodup_range'
  · rw [numbered.ids, List.range_eq_range']
    simp [Arena.size]

/-- A compact arena holds a copy of the tree of the arena that it was made of. -/
theorem Arena.holds_of_compact {a b : Arena} {t : Tree} (holds : a.Holds t) (root : a.root = t.top)
    (h : a.compact = .ok b) : ∃ copy, b.Holds copy ∧ b.root = copy.top ∧ t.Alike copy := by
  obtain ⟨copy, holdsCopy, rootCopy, renumbered, -⟩ := renumbered_of_compact holds root h
  exact ⟨copy, holdsCopy, rootCopy, renumbered.alike⟩

end LoopNest
