import LoopNest.Schedule.Tree
import Mathlib.Data.List.FinRange
import Mathlib.Data.List.Lattice
import Mathlib.Data.List.Nodup
import Mathlib.Data.List.Pairwise
import Mathlib.Logic.Function.Basic

/-! A tree is stored in an arena if each of its nodes stands at its position, with references to its
children. A stored tree without repeated positions is what the arena unfolds to at its top. The
arenas that are well formed are those that hold such a tree at their root. -/

namespace LoopNest

namespace Arena

variable (a : Arena)

@[simp] theorem size_push (n : Node) : (a.push n).size = a.size + 1 := by simp [size, push]

@[simp] theorem size_setNode (id : Nat) (n : Node) : (a.setNode id n).size = a.size := by
  simp [size, setNode]

theorem node?_push (n : Node) (id : Nat) :
    (a.push n).node? id = if id = a.size then some n else a.node? id := by
  rw [node?, push, Array.getElem?_push]
  rfl

@[simp] theorem node?_push_size (n : Node) : (a.push n).node? a.size = some n := by
  simp [node?_push]

theorem node?_push_of_lt (n : Node) {id : Nat} (bound : id < a.size) :
    (a.push n).node? id = a.node? id := by
  rw [node?_push, if_neg (by omega)]

theorem node?_setNode_self (n : Node) {id : Nat} (bound : id < a.size) :
    (a.setNode id n).node? id = some n := by
  have : id < a.nodes.size := bound
  simp [node?, setNode, this]

theorem node?_setNode_ne (n : Node) {id other : Nat} (ne : other ≠ id) :
    (a.setNode id n).node? other = a.node? other := by
  simp [node?, setNode, Array.getElem?_setIfInBounds_ne (Ne.symm ne)]

theorem setNode_push (n m : Node) {id : Nat} (bound : id < a.size) :
    (a.push n).setNode id m = (a.setNode id m).push n := by
  have inside : id < a.nodes.size := bound
  have inside' : id < (a.nodes.push n).size := by
    rw [Array.size_push]
    exact Nat.lt_succ_of_lt inside
  simp only [push, setNode, Array.setIfInBounds, dif_pos inside, dif_pos inside', Array.set_push]

theorem setNode_comm (n m : Node) {id other : Nat} (ne : id ≠ other) :
    (a.setNode id n).setNode other m = (a.setNode other m).setNode id n := by
  simp [setNode, Array.setIfInBounds_comm _ _ ne]

@[simp] theorem setNode_setNode (n m : Node) (id : Nat) :
    (a.setNode id n).setNode id m = a.setNode id m := by
  simp [setNode]

theorem lt_size_of_node? {a : Arena} {id : Nat} {n : Node} (h : a.node? id = some n) :
    id < a.size :=
  (Array.getElem?_eq_some_iff.mp h).1

theorem children_eq {a : Arena} {id : Nat} {n : Node} (h : a.node? id = some n) :
    a.children id = n.children := by
  simp [children, h]

theorem kind?_eq {a : Arena} {id : Nat} {n : Node} (h : a.node? id = some n) :
    a.kind? id = some n.kind := by
  simp [kind?, h]

end Arena

namespace Tree

def top : Tree → Nat
  | missing id => id
  | node id _ _ _ => id

@[simp] theorem top_node (id : Nat) (kind : NodeKind) (arity : Nat) (child : Fin arity → Tree) :
    (node id kind arity child).top = id := rfl

theorem mem_ids_node {id other arity : Nat} {kind : NodeKind} {child : Fin arity → Tree} :
    other ∈ (node id kind arity child).ids ↔ other = id ∨ ∃ i, other ∈ (child i).ids := by
  simp [ids, List.mem_flatMap]

theorem nodup_ids_node {id arity : Nat} {kind : NodeKind} {child : Fin arity → Tree} :
    (node id kind arity child).ids.Nodup ↔
      (∀ i, id ∉ (child i).ids) ∧ (∀ i, (child i).ids.Nodup) ∧
        ∀ i j, i ≠ j → ∀ other, other ∈ (child i).ids → other ∉ (child j).ids := by
  simp only [ids, List.nodup_cons, List.mem_flatMap, List.mem_finRange, true_and, not_exists,
    List.nodup_flatMap, forall_const]
  refine and_congr_right fun _ => and_congr_right fun _ => ⟨fun apart i j ne other => ?_, ?_⟩
  · have : Std.Symm (Function.onFun List.Disjoint fun i => (child i).ids) :=
      ⟨fun _ _ h => List.Disjoint.symm h⟩
    exact fun here there => apart.forall (by simp) (by simp) ne here there
  · intro apart
    exact (List.nodup_finRange arity).imp fun ne other h => apart _ _ ne other h

/-- Each node stands at its position, with references to its children. -/
def Stored (a : Arena) : Tree → Prop
  | missing _ => False
  | node id kind _ child =>
    a.node? id = some ⟨kind, List.ofFn fun i => (child i).top⟩ ∧ ∀ i, (child i).Stored a

namespace Stored

variable {a b : Arena} {t : Tree}

theorem top_mem (stored : t.Stored a) : t.top ∈ t.ids := by
  cases t with
  | missing => exact stored.elim
  | node id kind arity child => simp [ids]

theorem lt_size (stored : t.Stored a) {id : Nat} (member : id ∈ t.ids) : id < a.size := by
  induction t with
  | missing => exact stored.elim
  | node top kind arity child ih =>
    rcases mem_ids_node.mp member with rfl | ⟨i, member⟩
    · exact Arena.lt_size_of_node? stored.1
    · exact ih i (stored.2 i) member

/-- A tree stays stored as long as its own nodes stay. -/
theorem frame (stored : t.Stored a) (same : ∀ id ∈ t.ids, b.node? id = a.node? id) :
    t.Stored b := by
  induction t with
  | missing => exact stored
  | node id kind arity child ih =>
    refine ⟨(same id (by simp [ids])).trans stored.1,
      fun i => ih i (stored.2 i) fun other member => ?_⟩
    exact same other (mem_ids_node.mpr (.inr ⟨i, member⟩))

end Stored

theorem node_congr {id m n : Nat} {kind : NodeKind} {f : Fin m → Tree} {g : Fin n → Tree}
    (arity : m = n) (same : ∀ i : Fin m, f i = g (i.cast arity)) :
    node id kind m f = node id kind n g := by
  subst arity
  congr
  exact funext same

theorem length_ids_child {id arity : Nat} {kind : NodeKind} (child : Fin arity → Tree)
    (i : Fin arity) : (child i).ids.length < (node id kind arity child).ids.length := by
  have part : (child i).ids.Sublist ((List.finRange arity).flatMap fun i => (child i).ids) :=
    List.sublist_flatten_of_mem (List.mem_map.mpr ⟨i, by simp, rfl⟩)
  have := part.length_le
  simp only [ids, List.length_cons]
  omega

/-- An arena unfolds to what is stored in it. -/
theorem Stored.unfold_eq {a : Arena} {t : Tree} (stored : t.Stored a) {levels : Nat}
    (enough : t.ids.length ≤ levels) : a.unfold levels t.top = t := by
  induction t generalizing levels with
  | missing => exact stored.elim
  | node id kind arity child ih =>
    obtain ⟨here, children⟩ := stored
    cases levels with
    | zero => simp [ids] at enough
    | succ levels =>
      simp only [top_node, Arena.unfold, here]
      refine node_congr (by simp) fun i => ?_
      have fits : (child (i.cast (by simp))).ids.length ≤ levels := by
        have := @length_ids_child id _ kind child (i.cast (by simp))
        omega
      rw [Fin.getElem_fin, List.getElem_ofFn]
      exact ih _ (children _) fits

/-- The nodes of what an arena unfolds to are in the arena, also where references lead nowhere. -/
theorem lt_size_of_mem_unfold {a : Arena} {levels top id : Nat}
    (member : id ∈ (a.unfold levels top).ids) : id < a.size := by
  induction levels generalizing top with
  | zero => simp [Arena.unfold, ids] at member
  | succ levels ih =>
    rw [Arena.unfold] at member
    cases here : a.node? top with
    | none => simp [here, ids] at member
    | some n =>
      rw [here] at member
      rcases mem_ids_node.mp member with rfl | ⟨i, below⟩
      · exact Arena.lt_size_of_node? here
      · exact ih below

end Tree

theorem Arena.length_le_size {a : Arena} {ids : List Nat} (distinct : ids.Nodup)
    (inside : ∀ id ∈ ids, id < a.size) : ids.length ≤ a.size := by
  have within : ids ⊆ List.range a.size := fun id member => List.mem_range.mpr (inside id member)
  simpa using (List.subperm_of_subset distinct within).length_le

/-- The tree is stored, and no position occurs in it twice. -/
structure Arena.Holds (a : Arena) (t : Tree) : Prop where
  stored : t.Stored a
  distinct : t.ids.Nodup

namespace Arena.Holds

variable {a b : Arena} {t : Tree}

/-- A tree without repeated positions is no larger than its arena. -/
theorem length_ids_le (holds : a.Holds t) : t.ids.length ≤ a.size :=
  length_le_size holds.distinct fun _ => holds.stored.lt_size

theorem treeAt_eq (holds : a.Holds t) : a.treeAt t.top = t :=
  holds.stored.unfold_eq holds.length_ids_le

theorem subtree_eq (holds : a.Holds t) : a.subtree t.top = t.ids := by
  rw [Arena.subtree, holds.treeAt_eq]

theorem child {id arity : Nat} {kind : NodeKind} {child : Fin arity → Tree}
    (holds : a.Holds (.node id kind arity child)) (i : Fin arity) : a.Holds (child i) :=
  ⟨holds.stored.2 i, (Tree.nodup_ids_node.mp holds.distinct).2.1 i⟩

theorem frame (holds : a.Holds t) (same : ∀ id ∈ t.ids, b.node? id = a.node? id) : b.Holds t :=
  ⟨holds.stored.frame same, holds.distinct⟩

theorem band?_eq {id arity : Nat} {band : Band} {child : Fin arity → Tree}
    (holds : a.Holds (.node id (.band band) arity child)) : a.band? id = some band := by
  rw [Arena.band?, Arena.kind?_eq holds.stored.1]

theorem band?_eq_none {id arity : Nat} {kind : NodeKind} {child : Fin arity → Tree}
    (holds : a.Holds (.node id kind arity child)) (other : ¬∃ band, kind = .band band) :
    a.band? id = none := by
  rw [Arena.band?, Arena.kind?_eq holds.stored.1]
  cases kind with
  | band band => exact absurd ⟨band, rfl⟩ other
  | _ => rfl

end Arena.Holds

namespace Arena

theorem flatMap_finRange_get {α β : Type} (items : List α) (f : α → List β) :
    ((List.finRange items.length).flatMap fun i => f (items.get i)) = items.flatMap f := by
  conv_rhs => rw [← List.map_get_finRange items]
  rw [List.flatMap_map]

theorem ofFn_top_get (trees : List Tree) :
    (List.ofFn fun i => (trees.get i).top) = trees.map Tree.top := by
  conv_rhs => rw [← List.ofFn_get trees, List.map_ofFn]
  rfl

/-- What the search for repeated references has seen when it ends well: a tree at each reference on
the stack, apart from each other and from what was seen before. -/
theorem trees_of_wellFormedFrom {a : Arena} {unseen : Nat} {seen stack : List Nat}
    (h : a.wellFormedFrom unseen seen stack = true) :
    ∃ trees : List Tree, trees.map Tree.top = stack ∧ (∀ t ∈ trees, t.Stored a) ∧
      (trees.flatMap Tree.ids).Nodup ∧ ∀ id ∈ trees.flatMap Tree.ids, id ∉ seen := by
  induction unseen generalizing seen stack with
  | zero =>
    cases stack with
    | nil => exact ⟨[], by simp⟩
    | cons => simp [wellFormedFrom] at h
  | succ unseen ih =>
    cases stack with
    | nil => exact ⟨[], by simp⟩
    | cons id stack =>
      simp only [wellFormedFrom] at h
      cases here : a.node? id with
      | none => simp [here] at h
      | some n =>
        simp only [here, Bool.and_eq_true, Bool.not_eq_true', List.contains_eq_mem,
          decide_eq_false_iff_not] at h
        obtain ⟨unseenHere, h⟩ := h
        obtain ⟨trees, tops, stored, distinct, new⟩ := ih h
        obtain ⟨children, rest, rfl, below, beside⟩ := List.map_eq_append_iff.mp tops
        have idsHere : (Tree.node id n.kind children.length children.get).ids =
            id :: children.flatMap Tree.ids := by
          rw [Tree.ids, flatMap_finRange_get]
        refine ⟨.node id n.kind children.length children.get :: rest, by simp [beside], ?_, ?_, ?_⟩
        · intro t member
          rcases List.mem_cons.mp member with rfl | member
          · refine ⟨?_, fun i => stored _ (by simp)⟩
            rw [here, ofFn_top_get, below]
          · exact stored t (by simp [member])
        · rw [List.flatMap_cons, idsHere, List.cons_append, ← List.flatMap_append]
          exact List.nodup_cons.mpr ⟨fun member => new id member (by simp), distinct⟩
        · rw [List.flatMap_cons, idsHere, List.cons_append, ← List.flatMap_append]
          intro other member
          rcases List.mem_cons.mp member with rfl | member
          · exact unseenHere
          · exact fun before => new other member (by simp [before])

/-- A well-formed arena holds its tree. -/
theorem holds_tree {a : Arena} (h : a.isWellFormed = true) :
    a.Holds a.tree ∧ a.tree.top = a.root := by
  obtain ⟨trees, tops, stored, distinct, -⟩ := trees_of_wellFormedFrom h
  match trees with
  | [] => simp at tops
  | _ :: _ :: _ => simp at tops
  | [t] =>
    have top : t.top = a.root := by simpa using tops
    have holds : a.Holds t := ⟨stored t (by simp), by simpa using distinct⟩
    have same : a.tree = t := by rw [tree, ← top, holds.treeAt_eq]
    rw [same]
    exact ⟨holds, top⟩

/-- The search for repeated references ends well if each reference on the stack has a tree, apart
from the others and from what was seen, and as many steps may be taken as there are nodes. -/
theorem wellFormedFrom_of_trees {a : Arena} {unseen : Nat} {seen : List Nat} {trees : List Tree}
    (stored : ∀ t ∈ trees, t.Stored a) (distinct : (trees.flatMap Tree.ids).Nodup)
    (new : ∀ id ∈ trees.flatMap Tree.ids, id ∉ seen)
    (enough : (trees.flatMap Tree.ids).length ≤ unseen) :
    a.wellFormedFrom unseen seen (trees.map Tree.top) = true := by
  induction unseen generalizing seen trees with
  | zero =>
    match trees with
    | [] => rfl
    | .missing id :: _ => exact (stored (.missing id) (by simp)).elim
    | .node .. :: _ => simp [Tree.ids] at enough
  | succ unseen ih =>
    match trees with
    | [] => rfl
    | .missing id :: _ => exact (stored (.missing id) (by simp)).elim
    | .node id kind arity child :: rest =>
      obtain ⟨here, children⟩ := stored (.node id kind arity child) (by simp)
      have flat : (Tree.node id kind arity child :: rest).flatMap Tree.ids =
          id :: (List.ofFn child ++ rest).flatMap Tree.ids := by
        simp [Tree.ids, List.flatMap_append, List.ofFn_eq_map, List.flatMap_map]
      rw [flat] at distinct new enough
      obtain ⟨outside, distinct⟩ := List.nodup_cons.mp distinct
      have later : a.wellFormedFrom unseen (id :: seen)
          ((List.ofFn child ++ rest).map Tree.top) = true := by
        apply ih _ distinct
        · intro other member
          simp only [List.mem_cons, not_or]
          exact ⟨fun same => outside (same ▸ member), new other (List.mem_cons_of_mem id member)⟩
        · simpa using enough
        · intro t member
          rcases List.mem_append.mp member with member | member
          · obtain ⟨i, rfl⟩ := List.mem_ofFn.mp member
            exact children i
          · exact stored t (by simp [member])
      have unseenHere : id ∉ seen := new id (by simp)
      simpa [wellFormedFrom, here, unseenHere, List.map_ofFn, Function.comp_def] using later

/-- An arena that holds a tree at its root is well formed. -/
theorem isWellFormed_of_holds {a : Arena} {t : Tree} (holds : a.Holds t) (root : a.root = t.top) :
    a.isWellFormed = true := by
  rw [isWellFormed, root]
  have search : a.wellFormedFrom a.size [] ([t].map Tree.top) = true := by
    apply wellFormedFrom_of_trees
    · simpa using holds.stored
    · simpa using holds.distinct
    · simp
    · simpa using holds.length_ids_le
  exact search

end Arena

end LoopNest
