import LoopNest.Proofs.Stored
import Mathlib.Data.Fintype.Card

/-! A way from a node is given by the positions of the children that it takes. An arena has the
shape of a tree if no way from the root leads out of it and no two lead to the same node. A node
that lies below itself, that two nodes refer to, or that one node refers to twice, is the end of two
ways. The arenas of this shape are the well-formed ones. -/

namespace LoopNest

namespace Arena

def follow? (a : Arena) : List Nat → Nat → Option Nat
  | [], id => some id
  | position :: way, id => (a.children id)[position]?.bind (a.follow? way)

/-- All ways from the root stay in the arena, and each leads to a node of its own. -/
structure IsTreeShaped (a : Arena) : Prop where
  inside : ∀ {way id}, a.follow? way a.root = some id → id < a.size
  unique : ∀ {way other id}, a.follow? way a.root = some id → a.follow? other a.root = some id →
    way = other

theorem follow?_append (a : Arena) (way rest : List Nat) (id : Nat) :
    a.follow? (way ++ rest) id = (a.follow? way id).bind (a.follow? rest) := by
  induction way generalizing id with
  | nil => rfl
  | cons position way ih =>
    rw [List.cons_append, follow?, follow?, Option.bind_assoc]
    exact congrArg _ (funext ih)

@[simp] theorem top_unfold (a : Arena) (levels id : Nat) : (a.unfold levels id).top = id := by
  cases levels with
  | zero => rfl
  | succ levels =>
    rw [unfold]
    cases a.node? id <;> rfl

end Arena

namespace Tree.Stored

variable {a : Arena} {t : Tree}

/-- A way to a child leads on as it does from there. -/
theorem follow?_cons {id arity position other : Nat} {kind : NodeKind} {child : Fin arity → Tree}
    {way : List Nat} (stored : (node id kind arity child).Stored a) :
    a.follow? (position :: way) id = some other ↔
      ∃ i : Fin arity, i.val = position ∧ a.follow? way (child i).top = some other := by
  rw [Arena.follow?, Arena.children_eq stored.1, List.getElem?_ofFn]
  by_cases bound : position < arity
  · rw [dif_pos bound, Option.bind_some]
    refine ⟨fun leads => ⟨⟨position, bound⟩, rfl, leads⟩, ?_⟩
    rintro ⟨i, rfl, leads⟩
    exact leads
  · rw [dif_neg bound, Option.bind_none]
    refine ⟨fun leads => by simp at leads, ?_⟩
    rintro ⟨i, rfl, -⟩
    exact absurd i.isLt bound

theorem mem_ids_iff (stored : t.Stored a) {id : Nat} :
    id ∈ t.ids ↔ ∃ way, a.follow? way t.top = some id := by
  induction t with
  | missing => exact stored.elim
  | node top kind arity child ih =>
    rw [mem_ids_node, top_node]
    constructor
    · rintro (rfl | ⟨i, member⟩)
      · exact ⟨[], rfl⟩
      · obtain ⟨way, leads⟩ := (ih i (stored.2 i)).mp member
        exact ⟨i.val :: way, stored.follow?_cons.mpr ⟨i, rfl, leads⟩⟩
    · rintro ⟨_ | ⟨position, way⟩, leads⟩
      · exact .inl (Option.some.inj leads).symm
      · obtain ⟨i, -, leads⟩ := stored.follow?_cons.mp leads
        exact .inr ⟨i, (ih i (stored.2 i)).mpr ⟨way, leads⟩⟩

/-- A way that goes on from the top of a tree without repeated nodes does not come back to it. -/
theorem follow?_ne_top {id arity position : Nat} {kind : NodeKind} {child : Fin arity → Tree}
    {way : List Nat} (stored : (node id kind arity child).Stored a)
    (distinct : (node id kind arity child).ids.Nodup) :
    a.follow? (position :: way) id ≠ some id := by
  intro back
  obtain ⟨i, -, leads⟩ := stored.follow?_cons.mp back
  exact (nodup_ids_node.mp distinct).1 i ((stored.2 i).mem_ids_iff.mpr ⟨way, leads⟩)

theorem ways_eq_of_nodup (stored : t.Stored a) (distinct : t.ids.Nodup) {way other : List Nat}
    {id : Nat} (leads : a.follow? way t.top = some id) (leads' : a.follow? other t.top = some id) :
    way = other := by
  induction t generalizing way other with
  | missing => exact stored.elim
  | node top kind arity child ih =>
    cases way with
    | nil =>
      obtain rfl : top = id := Option.some.inj leads
      cases other with
      | nil => rfl
      | cons => exact absurd leads' (stored.follow?_ne_top distinct)
    | cons position rest =>
      cases other with
      | nil =>
        obtain rfl : top = id := Option.some.inj leads'
        exact absurd leads (stored.follow?_ne_top distinct)
      | cons position' rest' =>
        obtain ⟨i, rfl, below⟩ := stored.follow?_cons.mp leads
        obtain ⟨j, rfl, below'⟩ := stored.follow?_cons.mp leads'
        obtain ⟨-, within, apart⟩ := nodup_ids_node.mp distinct
        by_cases same : i = j
        · subst same
          rw [ih i (stored.2 i) (within i) below below']
        · have here : id ∈ (child i).ids := (stored.2 i).mem_ids_iff.mpr ⟨rest, below⟩
          have there : id ∈ (child j).ids := (stored.2 j).mem_ids_iff.mpr ⟨rest', below'⟩
          exact absurd there (apart i j same id here)

theorem nodup_of_ways_eq (stored : t.Stored a)
    (unique : ∀ way other id, a.follow? way t.top = some id → a.follow? other t.top = some id →
      way = other) : t.ids.Nodup := by
  induction t with
  | missing => exact stored.elim
  | node top kind arity child ih =>
    have lift : ∀ {i : Fin arity} {way id}, a.follow? way (child i).top = some id →
        a.follow? (i.val :: way) top = some id :=
      fun {i way id} leads => stored.follow?_cons.mpr ⟨i, rfl, leads⟩
    rw [nodup_ids_node]
    refine ⟨fun i back => ?_, fun i => ?_, fun i j ne id here there => ?_⟩
    · obtain ⟨way, leads⟩ := (stored.2 i).mem_ids_iff.mp back
      exact absurd (unique [] (i.val :: way) top rfl (lift leads)) (by simp)
    · apply ih i (stored.2 i)
      intro way other id leads leads'
      exact (List.cons.inj (unique _ _ id (lift leads) (lift leads'))).2
    · obtain ⟨way, leads⟩ := (stored.2 i).mem_ids_iff.mp here
      obtain ⟨other, leads'⟩ := (stored.2 j).mem_ids_iff.mp there
      exact ne (Fin.ext (List.cons.inj (unique _ _ id (lift leads) (lift leads'))).1)

end Tree.Stored

namespace Arena

variable {a : Arena}

namespace IsTreeShaped

/-- The parts of a way lead to nodes that differ, so a way has fewer positions than there are
nodes. -/
theorem length_lt (shaped : a.IsTreeShaped) {way : List Nat} {id : Nat}
    (leads : a.follow? way a.root = some id) : way.length < a.size := by
  have part : ∀ count : Fin (way.length + 1), ∃ node : Fin a.size,
      a.follow? (way.take count) a.root = some node := by
    intro count
    rw [← List.take_append_drop count way, follow?_append] at leads
    obtain ⟨node, there, -⟩ := Option.bind_eq_some_iff.mp leads
    exact ⟨⟨node, shaped.inside there⟩, there⟩
  choose node leadsTo using part
  have injective : Function.Injective node := by
    intro i j same
    have ways : way.take i = way.take j := shaped.unique (leadsTo i) (same ▸ leadsTo j)
    have lengths := congrArg List.length ways
    rw [List.length_take, List.length_take] at lengths
    exact Fin.ext (by omega)
  have := Fintype.card_le_of_injective node injective
  simp only [Fintype.card_fin] at this
  omega

theorem stored_unfold (shaped : a.IsTreeShaped) (way : List Nat) {levels id : Nat}
    (leads : a.follow? way a.root = some id) (enough : a.size ≤ way.length + levels) :
    (a.unfold levels id).Stored a := by
  induction levels generalizing way id with
  | zero =>
    have := shaped.length_lt leads
    omega
  | succ levels ih =>
    have bound : id < a.nodes.size := shaped.inside leads
    have here : a.node? id = some a.nodes[id] := Array.getElem?_eq_getElem bound
    rw [unfold, here]
    refine ⟨by simp [here], fun i => ih (way ++ [i.val]) ?_ ?_⟩
    · simp [follow?_append, leads, follow?, children_eq here]
    · simp
      omega

end IsTreeShaped

/-- The well-formed arenas are those that have the shape of a tree. -/
theorem isWellFormed_iff : a.isWellFormed = true ↔ a.IsTreeShaped := by
  constructor
  · intro wellFormed
    obtain ⟨holds, top⟩ := holds_tree wellFormed
    refine ⟨fun {way id} leads => ?_, fun {way other id} leads leads' => ?_⟩
    · exact holds.stored.lt_size (holds.stored.mem_ids_iff.mpr ⟨way, top.symm ▸ leads⟩)
    · rw [← top] at leads leads'
      exact holds.stored.ways_eq_of_nodup holds.distinct leads leads'
  · intro shaped
    have stored : a.tree.Stored a := shaped.stored_unfold [] rfl (Nat.le_add_left _ _)
    have top : a.tree.top = a.root := a.top_unfold a.size a.root
    have distinct : a.tree.ids.Nodup := by
      apply stored.nodup_of_ways_eq
      rw [top]
      exact fun way other id => shaped.unique
    exact isWellFormed_of_holds ⟨stored, distinct⟩ top.symm

end Arena

end LoopNest
