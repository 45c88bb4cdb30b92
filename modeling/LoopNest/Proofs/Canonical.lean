import LoopNest.Proofs.Failures
import LoopNest.Proofs.Pieces

/-! Trees that differ in numbering only are stored in the same way when they are made compact. So a
compact arena stands for all arenas with the same tree: it is their canonical form. What a schedule
says about instances does not depend on numbering, nor on marks and loop options. -/

namespace LoopNest

namespace NodeKind

theorem mayPass_plain (stmt : Nat) (kind : NodeKind) :
    kind.plain.mayPass stmt = kind.mayPass stmt := by
  cases kind <;> rfl

theorem extend_plain (stmt position : Nat) (piece : Piece) (kind : NodeKind) :
    kind.plain.extend stmt position piece = kind.extend stmt position piece := by
  cases kind <;> rfl

end NodeKind

namespace Tree

/-! ## Schedules do not see numbers, marks and loop options -/

namespace Alike

variable {s t : Tree}

theorem pieces (h : Alike s t) (stmt : Nat) (start : Piece) :
    s.pieces stmt start = t.pieces stmt start := by
  induction h generalizing start with
  | @node id id' kind kind' arity child child' kinds children ih =>
    by_cases leaf : kind = .leaf
    · obtain rfl : kind' = .leaf := by rw [← plain_eq_leaf, ← kinds, leaf, plain_eq_leaf]
      subst leaf
      rfl
    · have leaf' : kind' ≠ .leaf := by rwa [ne_eq, ← plain_eq_leaf, ← kinds, plain_eq_leaf]
      have passes : kind.mayPass stmt = kind'.mayPass stmt := by
        rw [← NodeKind.mayPass_plain, kinds, NodeKind.mayPass_plain]
      have extend : ∀ i, kind.extend stmt i start = kind'.extend stmt i start := by
        intro i
        rw [← NodeKind.extend_plain, kinds, NodeKind.extend_plain]
      rw [pieces_node stmt leaf, pieces_node stmt leaf', passes]
      simp only [extend, ih]

end Alike

/-! ## Trees that differ in numbering only -/

namespace Renumbered

variable {s t u : Tree}

theorem symm (h : Renumbered s t) : Renumbered t s := by
  induction h with
  | node children ih => exact .node ih

theorem length_ids (h : Renumbered s t) : s.ids.length = t.ids.length := by
  induction h with
  | node children ih => simp only [ids, List.length_cons, List.length_flatMap, ih]

/-- Positions are given anew when a tree is stored, so the old ones do not matter. -/
theorem store (h : Renumbered s t) (next : Nat) : s.store next = t.store next := by
  induction h generalizing next with
  | node children ih => simp only [Tree.store, ih]

end Renumbered

end Tree

namespace Arena

variable {a b : Arena} {s t : Tree}

theorem all_zip_ofFn {n : Nat} {f g : Fin n → Nat} {p : Nat × Nat → Bool} :
    ((List.ofFn f).zip (List.ofFn g)).all p = true ↔ ∀ i, p (f i, g i) = true := by
  rw [List.ofFn_eq_map, List.ofFn_eq_map, List.zip_map', List.all_map, List.all_eq_true]
  simp

/-- Nodes agree exactly if the trees below them differ in numbering only. -/
theorem agreeAt_iff (left : s.Stored a) (right : t.Stored b) {levels : Nat}
    (enough : s.ids.length < levels) :
    a.agreeAt b levels s.top t.top = true ↔ s.Renumbered t := by
  induction s generalizing t levels with
  | missing => exact left.elim
  | node id kind arity child ih =>
    cases t with
    | missing => exact right.elim
    | node id' kind' arity' child' =>
      cases levels with
      | zero => omega
      | succ levels =>
        simp only [Tree.top_node, agreeAt, left.1, right.1, List.length_ofFn, Bool.and_eq_true,
          decide_eq_true_eq]
        have fits : ∀ i, (child i).ids.length < levels := by
          intro i
          have := @Tree.length_ids_child id _ kind child i
          omega
        constructor
        · rintro ⟨⟨rfl, rfl⟩, below⟩
          rw [all_zip_ofFn] at below
          exact .node fun i => (ih i (left.2 i) (right.2 i) (fits i)).mp (below i)
        · intro h
          cases h with
          | node children =>
            rw [all_zip_ofFn]
            exact ⟨⟨rfl, rfl⟩, fun i => (ih i (left.2 i) (right.2 i) (fits i)).mpr (children i)⟩

/-- Arenas agree exactly if their trees differ in numbering only. -/
theorem agrees_iff (left : a.isWellFormed = true) (right : b.isWellFormed = true) :
    a.agrees b = true ↔ a.tree.Renumbered b.tree := by
  obtain ⟨holds, top⟩ := holds_tree left
  obtain ⟨holds', top'⟩ := holds_tree right
  have enough : a.tree.ids.length < (a.size + 1) * (b.size + 1) + 1 := by
    have size := holds.length_ids_le
    have product : a.size + 1 ≤ (a.size + 1) * (b.size + 1) :=
      Nat.le_mul_of_pos_right _ (Nat.succ_pos _)
    omega
  rw [agrees, ← top, ← top', agreeAt_iff holds.stored holds'.stored enough]

/-! ## What a schedule says is a matter of its tree -/

section SameTree

variable (left : a.isWellFormed = true) (right : b.isWellFormed = true)
  (alike : a.tree.Alike b.tree)

include left right alike

theorem domains?_of_alike : a.domains? = b.domains? := by
  obtain ⟨holds, top⟩ := holds_tree left
  obtain ⟨holds', top'⟩ := holds_tree right
  rw [domains?, domains?, ← top, ← top']
  generalize a.tree = s at holds alike
  generalize b.tree = t at holds' alike
  cases alike with
  | @node id id' kind kind' arity child child' kinds children =>
    rw [Tree.top_node, Tree.top_node, kind?_eq holds.stored.1, kind?_eq holds'.stored.1]
    cases kind <;> cases kind' <;> simp_all [NodeKind.plain]

theorem timestamp_of_alike (stmt : Nat) (point params : List Int) :
    a.timestamp stmt point params = b.timestamp stmt point params := by
  have entries := alike.entries stmt point params
  rw [timestamp, timestamp, bind_pure_comp, bind_pure_comp, visits, visits,
    domains?_of_alike left right alike]
  cases b.domains? with
  | none => rfl
  | some domains =>
    dsimp only
    cases domains.get? stmt with
    | none => rfl
    | some domain =>
      dsimp only
      split
      · rfl
      · exact entries

theorem executionOrder_of_alike (params : List Int) :
    a.executionOrder params = b.executionOrder params := by
  simp only [executionOrder, instancesOf, domains?_of_alike left right alike,
    timestamp_of_alike left right alike]

theorem flatten_of_alike : a.flatten = b.flatten := by
  simp only [flatten, domains?_of_alike left right alike, alike.pieces]

end SameTree

/-! ## The canonical form -/

theorem compact_of_renumbered (renumbered : a.tree.Renumbered b.tree) : a.compact = b.compact := by
  rw [compact, compact, renumbered.store]

/-- A compact arena has the nodes of the tree that it was made of, numbered in pre-order. -/
theorem exists_compact (wellFormed : a.isWellFormed = true) :
    ∃ c, a.compact = .ok c ∧ c.isWellFormed = true ∧ a.tree.Renumbered c.tree ∧
      c.subtree c.root = List.range c.size := by
  obtain ⟨holds, top⟩ := holds_tree wellFormed
  obtain ⟨nodes, stored⟩ := Tree.exists_store holds.stored 0
  have compacted : a.compact = .ok ⟨nodes.toArray, 0⟩ := by
    rw [compact, Checked.bind_eq_ok_iff]
    exact ⟨nodes, stored, rfl⟩
  obtain ⟨copy, holdsCopy, root, renumbered, ids⟩ :=
    renumbered_of_compact holds top.symm compacted
  have roots : Roots ⟨nodes.toArray, 0⟩ copy := ⟨holdsCopy, root⟩
  refine ⟨_, compacted, isWellFormed_of_holds holdsCopy root, ?_, ?_⟩
  · rwa [roots.tree_eq]
  · rw [root, holdsCopy.subtree_eq, ids]

/-- Compaction is a canonical form. The compact arena of a well-formed one has its nodes and no
others, numbered in pre-order. It agrees with the arena and schedules in the same way, compaction
leaves it as it is, and the arenas that agree are those with the same compact arena. -/
theorem compact_canonical (wellFormed : a.isWellFormed = true) :
    ∃ c, a.compact = .ok c ∧ c.isWellFormed = true ∧
      (a.subtree a.root).Nodup ∧ c.size = (a.subtree a.root).length ∧
      c.subtree c.root = List.range c.size ∧ a.agrees c = true ∧
      (∀ stmt point params, c.timestamp stmt point params = a.timestamp stmt point params) ∧
      (∀ params, c.executionOrder params = a.executionOrder params) ∧
      c.flatten = a.flatten ∧ c.compact = .ok c ∧
      ∀ b, b.isWellFormed = true → (a.agrees b = true ↔ b.compact = .ok c) := by
  obtain ⟨c, compacted, wellFormed', renumbered, numbers⟩ := exists_compact wellFormed
  have alike := renumbered.symm.alike
  obtain ⟨holds, top⟩ := holds_tree wellFormed
  obtain ⟨holds', top'⟩ := holds_tree wellFormed'
  have nodes : a.subtree a.root = a.tree.ids := by rw [← top, holds.subtree_eq]
  have nodes' : c.subtree c.root = c.tree.ids := by rw [← top', holds'.subtree_eq]
  refine ⟨c, compacted, wellFormed', nodes ▸ holds.distinct, ?_, numbers,
    (agrees_iff wellFormed wellFormed').mpr renumbered,
    timestamp_of_alike wellFormed' wellFormed alike,
    executionOrder_of_alike wellFormed' wellFormed alike,
    flatten_of_alike wellFormed' wellFormed alike, ?_, fun b right => ?_⟩
  · rw [nodes, renumbered.length_ids, ← nodes', numbers, List.length_range]
  · rw [← compact_of_renumbered renumbered, compacted]
  · rw [agrees_iff wellFormed right]
    constructor
    · intro same
      rw [← compact_of_renumbered same, compacted]
    · intro same
      obtain ⟨c', compacted', -, renumbered', -⟩ := exists_compact right
      cases same.symm.trans compacted'
      exact renumbered.trans renumbered'.symm

/-- Two statements in sequence, with a node that is not reached, whose reference leads nowhere. -/
def scattered : Arena :=
  let domains : StmtMap Polyhedron := .ofList [(0, Scop.gridDomain), (1, Scop.gridDomain)]
  ⟨#[⟨.leaf, []⟩, ⟨.filter (.statements (.ofList [1])), [0]⟩, ⟨.set, [9]⟩, ⟨.sequence, [5, 1]⟩,
    ⟨.domain domains, [3]⟩, ⟨.band (.identity domains [⟨true, true⟩]), [6]⟩, ⟨.leaf, []⟩], 4⟩

def shuffled : Arena :=
  let domains : StmtMap Polyhedron := .ofList [(0, Scop.gridDomain), (1, Scop.gridDomain)]
  ⟨#[⟨.domain domains, [5]⟩, ⟨.leaf, []⟩, ⟨.leaf, []⟩,
    ⟨.band (.identity domains [⟨true, true⟩]), [1]⟩, ⟨.filter (.statements (.ofList [1])), [2]⟩,
    ⟨.sequence, [3, 4]⟩], 0⟩

theorem scattered_compact_canonical : ∃ c, scattered.compact = .ok c ∧ shuffled.compact = .ok c ∧
    scattered.size = 7 ∧ c.size = 6 ∧ c.subtree c.root = [0, 1, 2, 3, 4, 5] ∧
    (∀ params, c.executionOrder params = scattered.executionOrder params) ∧
    c.flatten = scattered.flatten ∧ c.compact = .ok c := by
  obtain ⟨c, compacted, -, -, size, numbers, -, -, order, flat, again, unique⟩ :=
    compact_canonical (a := scattered) (by decide +kernel)
  have six : c.size = 6 := size.trans (by decide +kernel)
  refine ⟨c, compacted, (unique shuffled (by decide +kernel)).mp (by decide +kernel), rfl, six, ?_,
    order, flat, again⟩
  rw [numbers, six]
  rfl

end Arena

end LoopNest
