import LoopNest.Proofs.Stored
import LoopNest.Proofs.Way
import LoopNest.Tiling.FullTile

/-! An edit works on the tree below one node. It may change the nodes of that tree and add new ones,
and it leaves every other node alone, so the tree around it stays. What an edit reads of its
surroundings is given by the nodes on the way from the root: their bands and their filters. -/

namespace LoopNest

/-- From one arena to another, a tree has become another in the same place. -/
structure Arena.Reworks (a b : Arena) (t t' : Tree) : Prop where
  holds : b.Holds t'
  top : t'.top = t.top
  root : b.root = a.root
  grows : a.size ≤ b.size
  frame : ∀ id < a.size, id ∉ t.ids → b.node? id = a.node? id
  fresh : ∀ id ∈ t'.ids, id ∈ t.ids ∨ a.size ≤ id

namespace Arena.Reworks

variable {a b c : Arena} {t t' t'' : Tree}

theorem refl (holds : a.Holds t) : a.Reworks a t t :=
  ⟨holds, rfl, rfl, le_refl _, fun _ _ _ => rfl, fun _ member => .inl member⟩

theorem trans (first : a.Reworks b t t') (second : b.Reworks c t' t'') : a.Reworks c t t'' where
  holds := second.holds
  top := second.top.trans first.top
  root := second.root.trans first.root
  grows := first.grows.trans second.grows
  frame := by
    intro id bound outside
    have outside' : id ∉ t'.ids := by
      intro member
      rcases first.fresh id member with member | new
      · exact outside member
      · omega
    rw [second.frame id (bound.trans_le first.grows) outside', first.frame id bound outside]
  fresh := by
    intro id member
    rcases second.fresh id member with member | new
    · exact first.fresh id member
    · exact .inr (first.grows.trans new)

/-- A tree apart from the one that is reworked stays. -/
theorem holds_of_apart {u : Tree} (rework : a.Reworks b t t') (holds : a.Holds u)
    (apart : ∀ id ∈ u.ids, id ∉ t.ids) : b.Holds u :=
  holds.frame fun id member => rework.frame id (holds.stored.lt_size member) (apart id member)

section Child

variable {id arity : Nat} {kind : NodeKind} {child : Fin arity → Tree} {i : Fin arity}

theorem stored_child (rework : a.Reworks b (child i) t')
    (holds : a.Holds (.node id kind arity child)) :
    (Tree.node id kind arity (Function.update child i t')).Stored b := by
  obtain ⟨above, -, apart⟩ := Tree.nodup_ids_node.mp holds.distinct
  have bound : id < a.size := holds.stored.lt_size (by simp [Tree.ids])
  refine ⟨?_, fun j => ?_⟩
  · rw [rework.frame id bound (above i), holds.stored.1]
    congr 3
    funext j
    by_cases same : j = i
    · subst same
      simp [rework.top]
    · simp [same]
  · by_cases same : j = i
    · subst same
      simpa using rework.holds.stored
    · simpa [same] using (rework.holds_of_apart (holds.child j) (apart j i same)).stored

/-- The nodes of a reworked child are its own or new, so they are not among those beside it. -/
theorem distinct_child (rework : a.Reworks b (child i) t')
    (holds : a.Holds (.node id kind arity child)) :
    (Tree.node id kind arity (Function.update child i t')).ids.Nodup := by
  obtain ⟨above, each, apart⟩ := Tree.nodup_ids_node.mp holds.distinct
  have new : ∀ other ∈ t'.ids, other ∉ (child i).ids → a.size ≤ other :=
    fun other member outside => (rework.fresh other member).resolve_left outside
  have beside : ∀ j, j ≠ i → ∀ other ∈ (child j).ids, other ∉ t'.ids := by
    intro j ne other member inside
    have := new other inside (apart j i ne other member)
    have := (holds.child j).stored.lt_size member
    omega
  refine Tree.nodup_ids_node.mpr ⟨fun j => ?_, fun j => ?_, fun j l ne other => ?_⟩
  · by_cases same : j = i
    · subst same
      simp only [Function.update_self]
      intro member
      have := new id member (above j)
      have : id < a.size := holds.stored.lt_size (by simp [Tree.ids])
      omega
    · simpa [same] using above j
  · by_cases same : j = i
    · subst same
      simpa using rework.holds.distinct
    · simpa [same] using each j
  · by_cases left : j = i
    · subst left
      simp only [Function.update_self, Function.update_of_ne (Ne.symm ne)]
      exact fun inside member => beside l (Ne.symm ne) other member inside
    · rw [Function.update_of_ne left]
      by_cases right : l = i
      · subst right
        simpa using beside j ne other
      · simpa [right] using apart j l ne other

end Child

/-- Reworking a child reworks the tree. -/
theorem child {id arity : Nat} {kind : NodeKind} {child : Fin arity → Tree} {i : Fin arity}
    (holds : a.Holds (.node id kind arity child)) (rework : a.Reworks b (child i) t') :
    a.Reworks b (.node id kind arity child)
      (.node id kind arity (Function.update child i t')) := by
  refine ⟨⟨rework.stored_child holds, rework.distinct_child holds⟩, rfl, rework.root, rework.grows,
    fun other bound outside => ?_, fun other member => ?_⟩
  · exact rework.frame other bound fun member => outside (Tree.mem_ids_node.mpr (.inr ⟨i, member⟩))
  · rcases Tree.mem_ids_node.mp member with rfl | ⟨j, member⟩
    · exact .inl (by simp [Tree.ids])
    · by_cases same : j = i
      · subst same
        simp only [Function.update_self] at member
        rcases rework.fresh other member with member | new
        · exact .inl (Tree.mem_ids_node.mpr (.inr ⟨j, member⟩))
        · exact .inr new
      · simp only [Function.update_of_ne same] at member
        exact .inl (Tree.mem_ids_node.mpr (.inr ⟨j, member⟩))

end Arena.Reworks

/-- A node on the way to a tree: its position and its kind. -/
abbrev Frame := Nat × NodeKind

namespace Tree

/-- A tree stands in another below the given nodes. -/
inductive Under : List Frame → Tree → Tree → Prop where
  | here (t : Tree) : Under [] t t
  | inside {above : List Frame} {id arity : Nat} {kind : NodeKind} {child : Fin arity → Tree}
    {t : Tree} (i : Fin arity) (under : Under above (child i) t) :
    Under ((id, kind) :: above) (.node id kind arity child) t

/-- A tree that stands in another has been replaced. -/
inductive Grafted (t t' : Tree) : List Frame → Tree → Tree → Prop where
  | here : Grafted t t' [] t t'
  | inside {above : List Frame} {id arity : Nat} {kind : NodeKind} {child : Fin arity → Tree}
    {c : Tree} (i : Fin arity) (graft : Grafted t t' above (child i) c) :
    Grafted t t' ((id, kind) :: above) (.node id kind arity child)
      (.node id kind arity (Function.update child i c))

theorem Grafted.under {above : List Frame} {t t' whole whole' : Tree}
    (graft : Grafted t t' above whole whole') : Under above whole' t' := by
  induction graft with
  | here => exact .here t'
  | @inside above id arity kind child c i graft ih => exact .inside i (by simpa using ih)

namespace Under

variable {a b : Arena} {above : List Frame} {whole t t' : Tree}

theorem holds (under : Under above whole t) (holds : a.Holds whole) : a.Holds t := by
  induction under with
  | here => exact holds
  | inside i under ih => exact ih (holds.child i)

theorem everyBand {P : Band → Prop} (under : Under above whole t) (bands : whole.EveryBand P) :
    t.EveryBand P := by
  induction under with
  | here => exact bands
  | inside i under ih => exact ih (bands.2 i)

theorem mem_ids (under : Under above whole t) {id : Nat} (member : id ∈ t.ids) :
    id ∈ whole.ids := by
  induction under with
  | here => exact member
  | inside i under ih => exact mem_ids_node.mpr (.inr ⟨i, ih member⟩)

theorem snoc {id arity : Nat} {kind : NodeKind} {child : Fin arity → Tree}
    (under : Under above whole (.node id kind arity child)) (i : Fin arity) :
    Under (above ++ [(id, kind)]) whole (child i) := by
  generalize eq : Tree.node id kind arity child = t at under
  induction under with
  | here =>
    subst eq
    exact .inside i (.here _)
  | inside j under ih => exact .inside j (ih eq)

/-- Reworking a tree reworks the tree around it. -/
theorem rework (under : Under above whole t) (holds : a.Holds whole) (rework : a.Reworks b t t') :
    ∃ whole', Grafted t t' above whole whole' ∧ a.Reworks b whole whole' := by
  induction under with
  | here => exact ⟨t', .here, rework⟩
  | inside i under ih =>
    obtain ⟨c, graft, reworked⟩ := ih (holds.child i) rework
    exact ⟨_, .inside i graft, .child holds reworked⟩

/-- The nodes above a tree stand in the arena. -/
theorem node? (under : Under above whole t) (holds : a.Holds whole) :
    ∀ frame ∈ above, ∃ children, a.node? frame.1 = some ⟨frame.2, children⟩ := by
  induction under with
  | here => simp
  | inside i under ih =>
    intro frame member
    rcases List.mem_cons.mp member with rfl | member
    · exact ⟨_, holds.stored.1⟩
    · exact ih (holds.child i) frame member

end Under

theorem pathTo?_eq_none {a : Arena} {t : Tree} (stored : t.Stored a) {target : Nat}
    (outside : target ∉ t.ids) : t.pathTo? target = none := by
  induction t with
  | missing => exact stored.elim
  | node id kind arity child ih =>
    have ne : id ≠ target := fun same => outside (by simp [ids, same])
    rw [pathTo?, if_neg ne, Option.map_eq_none_iff, List.findSome?_eq_none_iff]
    exact fun i _ => ih i (stored.2 i) fun member => outside (mem_ids_node.mpr (.inr ⟨i, member⟩))

theorem findSome?_of_unique {α β : Type} {f : α → Option β} {items : List α} {item : α} {value : β}
    (member : item ∈ items) (found : f item = some value)
    (others : ∀ other ∈ items, other ≠ item → f other = none) :
    items.findSome? f = some value := by
  induction items with
  | nil => simp at member
  | cons head rest ih =>
    by_cases same : head = item
    · subst same
      simp [found]
    · rw [List.findSome?_cons, others head (by simp) same]
      have inside : item ∈ rest := (List.mem_cons.mp member).resolve_left (Ne.symm same)
      exact ih inside fun other m ne => others other (by simp [m]) ne

/-- There is one way to each node, and it leads past the nodes above it. -/
theorem Under.pathTo? {a : Arena} {above : List Frame} {whole t : Tree}
    (under : Under above whole t) (holds : a.Holds whole) :
    whole.pathTo? t.top = some (above.map (·.1) ++ [t.top]) := by
  induction under with
  | here t =>
    cases t with
    | missing => exact holds.stored.elim
    | node id kind arity child => simp [Tree.pathTo?]
  | @inside above id arity kind child t i under ih =>
    obtain ⟨outside, -, apart⟩ := nodup_ids_node.mp holds.distinct
    have member : t.top ∈ (child i).ids :=
      under.mem_ids (under.holds (holds.child i)).stored.top_mem
    have ne : id ≠ t.top := fun same => outside i (same ▸ member)
    have unique := findSome?_of_unique (List.mem_finRange i) (ih (holds.child i)) fun j _ other =>
      pathTo?_eq_none (holds.child j).stored (apart i j (Ne.symm other) t.top member)
    rw [Tree.pathTo?, if_neg ne, unique]
    simp

end Tree

namespace Arena

/-- The arena holds a tree at its root, and in it the given one below the given nodes. -/
def Locates (a : Arena) (above : List Frame) (t : Tree) : Prop :=
  ∃ whole, a.root = whole.top ∧ a.Holds whole ∧ Tree.Under above whole t

namespace Locates

variable {a b : Arena} {above : List Frame} {t t' : Tree}

theorem holds (located : a.Locates above t) : a.Holds t := by
  obtain ⟨whole, -, holds, under⟩ := located
  exact under.holds holds

theorem child {id arity : Nat} {kind : NodeKind} {child : Fin arity → Tree}
    (located : a.Locates above (.node id kind arity child)) (i : Fin arity) :
    a.Locates (above ++ [(id, kind)]) (child i) := by
  obtain ⟨whole, top, holds, under⟩ := located
  exact ⟨whole, top, holds, under.snoc i⟩

theorem rework (located : a.Locates above t) (rework : a.Reworks b t t') : b.Locates above t' := by
  obtain ⟨whole, top, holds, under⟩ := located
  obtain ⟨whole', graft, reworked⟩ := under.rework holds rework
  exact ⟨whole', by rw [reworked.root, top, reworked.top], reworked.holds, graft.under⟩

theorem node? (located : a.Locates above t) :
    ∀ frame ∈ above, ∃ children, a.node? frame.1 = some ⟨frame.2, children⟩ := by
  obtain ⟨whole, -, holds, under⟩ := located
  exact under.node? holds

theorem pathTo? (located : a.Locates above t) :
    a.pathTo? t.top = some (above.map (·.1) ++ [t.top]) := by
  obtain ⟨whole, top, holds, under⟩ := located
  rw [Arena.pathTo?, tree, top, holds.treeAt_eq, under.pathTo? holds]

theorem domains? {root : Nat} {domains : StmtMap Polyhedron}
    (located : a.Locates ((root, .domain domains) :: above) t) : a.domains? = some domains := by
  obtain ⟨whole, top, holds, under⟩ := located
  cases under with
  | inside i under =>
    rw [Arena.domains?, top, Tree.top_node, kind?_eq holds.stored.1]

/-- A band stands below the domains, if there are domains at the root. -/
theorem frames_eq {id arity : Nat} {band : Band} {child : Fin arity → Tree}
    {domains : StmtMap Polyhedron}
    (located : a.Locates above (.node id (.band band) arity child))
    (found : a.domains? = some domains) : ∃ rest, above = (a.root, .domain domains) :: rest := by
  obtain ⟨whole, top, holds, under⟩ := located
  unfold Arena.domains? at found
  cases under with
  | here =>
    rw [top, Tree.top_node, kind?_eq holds.stored.1] at found
    cases found
  | @inside rest _ _ kind _ _ i under =>
    rw [top, Tree.top_node, kind?_eq holds.stored.1] at found
    cases kind with
    | domain own =>
      cases found
      exact ⟨rest, by rw [top, Tree.top_node]⟩
    | _ => cases found

end Locates

end Arena

def NodeKind.lets (stmt : Nat) : NodeKind → Bool
  | .filter f => f.mayPass stmt
  | _ => true

def NodeKind.exprs (stmt : Nat) : NodeKind → List Quasi
  | .band b => (b.schedule.get? stmt).getD []
  | _ => []

def Tree.exprs (stmt : Nat) : Tree → List Quasi
  | .missing _ => []
  | .node _ kind arity child =>
    kind.exprs stmt ++ (List.finRange arity).flatMap fun i => (child i).exprs stmt

def Tree.Bandless (t : Tree) : Prop := t.EveryBand fun _ => False

namespace Arena

variable {a : Arena} {above : List Frame} {t : Tree}

theorem lets_eq {id : Nat} {n : Node} (h : a.node? id = some n) (stmt : Nat) :
    a.lets stmt id = n.kind.lets stmt := by
  rw [lets, kind?_eq h]
  cases n.kind <;> rfl

theorem exprs_eq {id : Nat} {n : Node} (h : a.node? id = some n) (stmt : Nat) :
    ((a.band? id).bind (·.schedule.get? stmt)).getD [] = n.kind.exprs stmt := by
  rw [band?, kind?_eq h]
  cases n.kind <;> rfl

theorem band?_isSome {id : Nat} {n : Node} (h : a.node? id = some n) :
    (a.band? id).isSome = true ↔ ∃ band, n.kind = .band band := by
  rw [band?, kind?_eq h]
  cases n.kind <;> simp

/-- Nodes let through what their kinds let through. -/
theorem all_lets {frames : List Frame}
    (stand : ∀ frame ∈ frames, ∃ children, a.node? frame.1 = some ⟨frame.2, children⟩)
    (stmt : Nat) : (frames.map (·.1)).all (a.lets stmt) = (frames.map (·.2)).all (·.lets stmt) := by
  rw [Bool.eq_iff_iff, List.all_map, List.all_map, List.all_eq_true, List.all_eq_true]
  refine forall₂_congr fun frame member => ?_
  obtain ⟨children, here⟩ := stand frame member
  exact Bool.eq_iff_iff.mp (lets_eq here stmt)

/-- The statements that may come to a tree are those that the nodes on the way to it let through. -/
theorem Locates.reaching_of_domains {id arity : Nat} {kind : NodeKind} {child : Fin arity → Tree}
    {domains : StmtMap Polyhedron} (located : a.Locates above (.node id kind arity child))
    (found : a.domains? = some domains) :
    a.reaching id = domains.keySet.filter fun stmt =>
      (above.map (·.2) ++ [kind]).all (·.lets stmt) := by
  have path := located.pathTo?
  rw [Tree.top_node] at path
  rw [Arena.reaching, found, path]
  refine congrArg (StmtMap.filter · _) (funext fun stmt => ?_)
  simp only [Option.getD_some, List.all_append, List.all_cons, List.all_nil,
    all_lets located.node? stmt, lets_eq located.holds.stored.1]

/-- The domains at the root let everything through. -/
theorem Locates.reaching {id arity root : Nat} {kind : NodeKind} {child : Fin arity → Tree}
    {domains : StmtMap Polyhedron}
    (located : a.Locates ((root, .domain domains) :: above) (.node id kind arity child)) :
    a.reaching id = domains.keySet.filter fun stmt =>
      (above.map (·.2) ++ [kind]).all (·.lets stmt) := by
  rw [located.reaching_of_domains located.domains?]
  simp only [List.map_cons, List.cons_append, List.all_cons, NodeKind.lets, Bool.true_and]

theorem Locates.bandExprs (located : a.Locates above t) (stmt : Nat) :
    a.bandExprs (above.map (·.1)) stmt = above.flatMap fun frame => frame.2.exprs stmt := by
  rw [Arena.bandExprs, List.flatMap_map]
  refine List.flatMap_congr fun frame member => ?_
  obtain ⟨children, here⟩ := located.node? frame member
  exact exprs_eq here stmt

theorem Holds.bandExprs (holds : a.Holds t) (stmt : Nat) :
    a.bandExprs t.ids stmt = t.exprs stmt := by
  induction t with
  | missing => exact holds.stored.elim
  | node id kind arity child ih =>
    rw [Arena.bandExprs, Tree.ids, List.flatMap_cons, exprs_eq holds.stored.1, Tree.exprs,
      List.flatMap_assoc]
    refine congrArg _ (List.flatMap_congr fun i _ => ?_)
    exact ih i (holds.child i)

/-- The expressions strictly below the top of a tree. -/
theorem Holds.bandExprs_below {id arity : Nat} {kind : NodeKind} {child : Fin arity → Tree}
    (holds : a.Holds (.node id kind arity child)) (stmt : Nat) :
    a.bandExprs ((a.subtree id).drop 1) stmt =
      (List.finRange arity).flatMap fun i => (child i).exprs stmt := by
  have subtree := holds.subtree_eq
  rw [Tree.top_node] at subtree
  rw [subtree, Tree.ids, List.drop_one, List.tail_cons, Arena.bandExprs, List.flatMap_assoc]
  exact List.flatMap_congr fun i _ => (holds.child i).bandExprs stmt

theorem mem_bands (holds : a.Holds t) (root : a.root = t.top) {id : Nat} :
    id ∈ a.bands ↔ id ∈ t.ids ∧ (a.band? id).isSome = true := by
  rw [bands, root, holds.subtree_eq, List.mem_filter]

theorem Holds.everyBand {P : Band → Prop} (holds : a.Holds t)
    (each : ∀ id ∈ t.ids, ∀ band, a.band? id = some band → P band) : t.EveryBand P := by
  induction t with
  | missing => trivial
  | node id kind arity child ih =>
    refine ⟨fun band eq => each id (by simp [Tree.ids]) band ?_, fun i => ih i (holds.child i) ?_⟩
    · simp [band?, kind?_eq holds.stored.1, eq]
    · exact fun other member => each other (Tree.mem_ids_node.mpr (.inr ⟨i, member⟩))

theorem Holds.bandless (holds : a.Holds t) :
    (t.ids.any fun id => (a.band? id).isSome) = false ↔ t.Bandless := by
  induction t with
  | missing => exact holds.stored.elim
  | node id kind arity child ih =>
    rw [Tree.ids, List.any_cons, Bool.or_eq_false_iff, List.any_flatMap, List.any_eq_false]
    refine and_congr ?_ ?_
    · rw [Bool.eq_false_iff, ne_eq, band?_isSome holds.stored.1, not_exists]
    · simp only [List.mem_finRange, forall_const, Bool.not_eq_true]
      exact forall_congr' fun i => ih i (holds.child i)

theorem Holds.hasBandBelow {id arity : Nat} {kind : NodeKind} {child : Fin arity → Tree}
    (holds : a.Holds (.node id kind arity child)) :
    a.hasBandBelow id = false ↔ ∀ i, (child i).Bandless := by
  have subtree := holds.subtree_eq
  rw [Tree.top_node] at subtree
  rw [Arena.hasBandBelow, subtree, Tree.ids, List.drop_one, List.tail_cons, List.any_flatMap]
  simp only [List.any_eq_false, List.mem_finRange, forall_const]
  refine forall_congr' fun i => ?_
  rw [← (holds.child i).bandless, Bool.not_eq_true]

/-- Steps that follow each other, one for each of some children, with what they give. -/
inductive Steps {arity : Nat} {α : Type} (step : Fin arity → Arena → α → Arena → Prop) :
    List (Fin arity) → Arena → List α → Arena → Prop where
  | nil {a : Arena} : Steps step [] a [] a
  | cons {i : Fin arity} {rest : List (Fin arity)} {a b c : Arena} {r : α} {rs : List α}
    (head : step i a r b) (tail : Steps step rest b rs c) : Steps step (i :: rest) a (r :: rs) c

/-- Steps that each rework one child rework the tree child by child. -/
theorem Steps.rework {id arity : Nat} {α : Type} {kind : NodeKind} {child : Fin arity → Tree}
    {step : Fin arity → Arena → α → Arena → Prop} {R : Fin arity → α → Tree → Prop}
    (each : ∀ i a b r, a.Locates (above ++ [(id, kind)]) (child i) → step i a r b →
      ∃ c, a.Reworks b (child i) c ∧ R i r c)
    {indices : List (Fin arity)} {a b : Arena} {rs : List α} (steps : Steps step indices a rs b)
    {current : Fin arity → Tree} (located : a.Locates above (.node id kind arity current))
    (distinct : indices.Nodup) (same : ∀ i ∈ indices, current i = child i) :
    ∃ after, a.Reworks b (.node id kind arity current) (.node id kind arity after) ∧
      List.Forall₂ (fun i r => R i r (after i)) indices rs ∧
      ∀ i, i ∉ indices → after i = current i := by
  induction steps generalizing current with
  | nil => exact ⟨current, .refl located.holds, .nil, fun _ _ => rfl⟩
  | @cons i rest a b c r rs head tail ih =>
    obtain ⟨new, distinct⟩ := List.nodup_cons.mp distinct
    have here : current i = child i := same i (by simp)
    obtain ⟨t, reworked, result⟩ := each i a b r (here ▸ located.child i) head
    have first := Reworks.child located.holds (here ▸ reworked : a.Reworks b (current i) t)
    have ne : ∀ j ∈ rest, j ≠ i := fun j member eq => new (eq ▸ member)
    obtain ⟨after, second, results, others⟩ := ih (located.rework first) distinct fun j member => by
      rw [Function.update_of_ne (ne j member), same j (by simp [member])]
    refine ⟨after, first.trans second, .cons ?_ results, fun j outside => ?_⟩
    · rw [others i new, Function.update_self]
      exact result
    · have apart : j ≠ i ∧ j ∉ rest := by simpa using outside
      rw [others j apart.2, Function.update_of_ne apart.1]

end Arena

end LoopNest
