import LoopNest.Proofs.Copies
import LoopNest.Tiling.Vector

/-! A band that moves down ends up above the leaves that statements of it may reach. An instance
that comes to such a leaf gets the entries of the band last; one whose way ends elsewhere loses
them. -/

namespace LoopNest

namespace Tree

/-- A band has been put above the leaves that statements of it may reach. -/
inductive Sunk (band : Band) : StmtSet → Tree → Tree → Prop where
  | bare {stmts : StmtSet} {id arity : Nat} {child : Fin arity → Tree}
    (none : stmts.isEmpty = true) :
    Sunk band stmts (.node id .leaf arity child) (.node id .leaf arity child)
  | leaf {stmts : StmtSet} {id arity : Nat} {child : Fin arity → Tree} (moved : Nat)
    (some : stmts.isEmpty = false) :
    Sunk band stmts (.node id .leaf arity child)
      (.node id (.band (band.restrict stmts)) 1 fun _ => .node moved .leaf arity child)
  | filter {stmts : StmtSet} {id arity : Nat} {f : Filter} {child child' : Fin arity → Tree}
    (children : ∀ i, Sunk band (stmts.filter f.mayPass) (child i) (child' i)) :
    Sunk band stmts (.node id (.filter f) arity child) (.node id (.filter f) arity child')
  | inner {stmts : StmtSet} {id arity : Nat} {kind : NodeKind} {child child' : Fin arity → Tree}
    (notLeaf : kind ≠ .leaf) (notFilter : ∀ f, kind ≠ .filter f)
    (children : ∀ i, Sunk band stmts (child i) (child' i)) :
    Sunk band stmts (.node id kind arity child) (.node id kind arity child')

namespace Sunk

variable {band : Band} {stmts : StmtSet} {t t' : Tree}

theorem admits (sunk : Sunk band stmts t t') (x : Iteration) : t'.admits x = t.admits x := by
  cases sunk with
  | bare | leaf | filter => rfl
  | @inner _ _ arity kind _ _ notLeaf notFilter children =>
    cases kind with
    | filter f => exact absurd rfl (notFilter f)
    | _ => rfl

theorem accepts (sunk : Sunk band stmts t t') (stmt : Nat) (point params : List Int) :
    t'.accepts stmt point params = t.accepts stmt point params := by
  cases sunk with
  | bare | leaf | filter => rfl
  | @inner _ _ arity kind _ _ notLeaf notFilter children =>
    cases kind with
    | filter f => exact absurd rfl (notFilter f)
    | _ => rfl

/-- What is added behind the entries of the children is added behind those of the tree. -/
theorem stamp_node {x : Iteration} {id arity : Nat} {kind : NodeKind}
    {child child' : Fin arity → Tree} {entries : List Int} (notLeaf : kind ≠ .leaf)
    (same : ∀ i, (child' i).admits x = (child i).admits x)
    (each : ∀ i, onward x child kind ≠ none → (child' i).stamp x =
      ((child i).stamp x).map (· ++ if (child i).endsAtLeaf x then entries else [])) :
    (node id kind arity child').stamp x = ((node id kind arity child).stamp x).map
      (· ++ if (node id kind arity child).endsAtLeaf x then entries else []) := by
  rw [Tree.stamp_node, Tree.stamp_node, onward_congr kind same, endsAtLeaf]
  cases step : onward x child kind with
  | none => rfl
  | some r =>
    obtain ⟨own, next?⟩ := r
    cases next? with
    | none => simp [after, notLeaf]
    | some i =>
      simp only [Option.bind_some, after, each i (by simp [step])]
      cases (child i).stamp x <;> simp

theorem contains_of_passed {x : Iteration} {arity : Nat} {f : Filter} {child : Fin arity → Tree}
    (passed : onward x child (.filter f) ≠ none) (member : stmts.contains x.stmt = true) :
    (stmts.filter f.mayPass).contains x.stmt = true := by
  have admitted : f.admits x = true := by
    by_contra refused
    simp [onward, refused] at passed
  simpa [StmtMap.contains, Filter.mayPass_of_admits admitted] using member

/-- An instance of the band gets the entries of the band last if its way ends at a leaf. -/
theorem stamp (sunk : Sunk band stmts t t') {x : Iteration} {exprs : List Quasi}
    (member : stmts.contains x.stmt = true) (found : band.schedule.get? x.stmt = some exprs) :
    t'.stamp x = (t.stamp x).map (· ++ if t.endsAtLeaf x then x.values exprs else []) := by
  induction sunk with
  | @bare stmts id arity child none =>
    have : stmts.entries = [] := by simpa [StmtMap.isEmpty] using none
    simp [StmtMap.contains, StmtMap.get?, this] at member
  | @leaf stmts id arity child moved some =>
    simp [stamp_band, Band.restrict, member, found, after, endsAtLeaf, onward]
  | @filter stmts id arity f child child' children ih =>
    exact stamp_node (by simp) (fun i => (children i).admits x) fun i passed =>
      ih i (contains_of_passed passed member)
  | @inner stmts id arity kind child child' notLeaf notFilter children ih =>
    exact stamp_node notLeaf (fun i => (children i).admits x) fun i _ => ih i member

theorem endsAtLeaf_node {x : Iteration} {id arity : Nat} {kind : NodeKind}
    {child child' : Fin arity → Tree} (same : ∀ i, (child' i).admits x = (child i).admits x)
    (each : ∀ i, onward x child kind ≠ none → (child' i).endsAtLeaf x = (child i).endsAtLeaf x) :
    (node id kind arity child').endsAtLeaf x = (node id kind arity child).endsAtLeaf x := by
  rw [Tree.endsAtLeaf, Tree.endsAtLeaf, onward_congr kind same]
  cases step : onward x child kind with
  | none => rfl
  | some r =>
    obtain ⟨own, next?⟩ := r
    cases next? with
    | none => rfl
    | some i => exact each i (by simp [step])

/-- The ways end where they ended. -/
theorem endsAtLeaf (sunk : Sunk band stmts t t') {x : Iteration} {exprs : List Quasi}
    (member : stmts.contains x.stmt = true) (found : band.schedule.get? x.stmt = some exprs) :
    t'.endsAtLeaf x = t.endsAtLeaf x := by
  induction sunk with
  | bare none => rfl
  | leaf moved some =>
    simp [Tree.endsAtLeaf, onward, Band.restrict, member, found]
  | @filter stmts id arity f child child' children ih =>
    exact endsAtLeaf_node (fun i => (children i).admits x) fun i passed =>
      ih i (contains_of_passed passed member)
  | inner notLeaf notFilter children ih =>
    exact endsAtLeaf_node (fun i => (children i).admits x) fun i _ => ih i member

end Sunk

def branches : Tree → List Nat
  | .node _ .sequence _ child => List.ofFn fun i => (child i).top
  | _ => []

theorem mem_ids_of_mem_branches {a : Arena} {t : Tree} (stored : t.Stored a) {id : Nat}
    (member : id ∈ t.branches) : id ∈ t.ids := by
  cases t with
  | missing => exact stored.elim
  | node top kind arity child =>
    cases kind with
    | sequence =>
      obtain ⟨i, rfl⟩ := List.mem_ofFn.mp member
      exact mem_ids_node.mpr (.inr ⟨i, (stored.2 i).top_mem⟩)
    | _ => simp [branches] at member

theorem Sunk.top {band : Band} {stmts : StmtSet} {t t' : Tree} (sunk : Sunk band stmts t t') :
    t'.top = t.top := by
  cases sunk <;> rfl

theorem Sunk.branches {band : Band} {stmts : StmtSet} {t t' : Tree} (sunk : Sunk band stmts t t') :
    t'.branches = t.branches := by
  cases sunk with
  | bare | leaf | filter => rfl
  | @inner _ _ arity kind child child' notLeaf notFilter children =>
    cases kind with
    | sequence => simp [Tree.branches, fun i => (children i).top]
    | _ => rfl

theorem Renumbered.refl {a : Arena} {t : Tree} (stored : t.Stored a) : Renumbered t t := by
  induction t with
  | missing => exact stored.elim
  | node id kind arity child ih => exact .node fun i => ih i (stored.2 i)

/-- A loop over points has been put above the leaves of a tree and marked for vector code. The top
of the tree has moved. -/
def Sunken (points : Band) (t t' : Tree) : Prop :=
  ∃ s, t.Renumbered s ∧ s.Sunk (Edit.markVector points) points.schedule.keySet t'

namespace Sunken

variable {points : Band} {t t' : Tree}

theorem of_renumbered {s : Tree} (renumbered : t.Renumbered s) (sunken : s.Sunken points t') :
    t.Sunken points t' := by
  obtain ⟨u, again, sunk⟩ := sunken
  exact ⟨u, renumbered.trans again, sunk⟩

theorem endsAtLeaf (sunken : t.Sunken points t') {x : Iteration} {exprs : List Quasi}
    (found : points.schedule.get? x.stmt = some exprs) : t'.endsAtLeaf x = t.endsAtLeaf x := by
  obtain ⟨s, renumbered, sunk⟩ := sunken
  rw [sunk.endsAtLeaf (StmtMap.contains_keySet found) found, renumbered.alike.endsAtLeaf]

theorem stamp (sunken : t.Sunken points t') {x : Iteration} {exprs : List Quasi}
    (found : points.schedule.get? x.stmt = some exprs) :
    t'.stamp x = (t.stamp x).map (· ++ if t.endsAtLeaf x then x.values exprs else []) := by
  obtain ⟨s, renumbered, sunk⟩ := sunken
  rw [sunk.stamp (StmtMap.contains_keySet found) found, renumbered.alike.stamp,
    renumbered.alike.endsAtLeaf]

end Sunken

theorem leaves_inner {stmts : StmtSet} {id arity : Nat} {kind : NodeKind} {child : Fin arity → Tree}
    (notLeaf : kind ≠ .leaf) (notFilter : ∀ f, kind ≠ .filter f) :
    (node id kind arity child).leaves stmts = (do
      let below ← (List.finRange arity).mapM fun i => (child i).leaves stmts
      return below.flatten) := by
  cases kind with
  | leaf => exact absurd rfl notLeaf
  | filter f => exact absurd rfl (notFilter f)
  | _ => rfl

theorem leaves_sublist_children {arity : Nat} {child : Fin arity → Tree} {stmts : StmtSet}
    (each : ∀ i leaves, (child i).leaves stmts = .ok leaves →
      (leaves.map (·.1)).Sublist (child i).ids)
    {indices : List (Fin arity)} {below : List (List (Nat × StmtSet))}
    (parts : List.Forall₂ (fun i leaves => (child i).leaves stmts = .ok leaves) indices below) :
    (below.flatten.map (·.1)).Sublist (indices.flatMap fun i => (child i).ids) := by
  induction parts with
  | nil => exact .slnil
  | @cons i leaves _ _ head _ ih =>
    rw [List.flatten_cons, List.map_append, List.flatMap_cons]
    exact (each i leaves head).append ih

/-- Leaves are found where the tree has them, each once. -/
theorem leaves_sublist {t : Tree} {stmts : StmtSet} {leaves : List (Nat × StmtSet)}
    (found : t.leaves stmts = .ok leaves) : (leaves.map (·.1)).Sublist t.ids := by
  induction t generalizing stmts leaves with
  | missing => cases found
  | node id kind arity child ih =>
    by_cases isLeaf : kind = .leaf
    · subst isLeaf
      cases found
      exact (List.nil_sublist _).cons_cons id
    · by_cases isFilter : ∃ f, kind = .filter f
      · obtain ⟨f, rfl⟩ := isFilter
        obtain ⟨below, mapped, h⟩ := Checked.bind_eq_ok_iff.mp found
        cases h
        exact (leaves_sublist_children (fun i _ => ih i) (mapM_eq_ok mapped)).cons id
      · rw [leaves_inner isLeaf fun f eq => isFilter ⟨f, eq⟩] at found
        obtain ⟨below, mapped, h⟩ := Checked.bind_eq_ok_iff.mp found
        cases h
        exact (leaves_sublist_children (fun i _ => ih i) (mapM_eq_ok mapped)).cons id

end Tree

/-! ## Moving a band down -/

namespace Edit

variable {a b : Arena} {above : List Frame} {t : Tree} {band : Band} {ids : List Nat}

theorem does_insertAbove {id moved : Nat} {kind : NodeKind} :
    (insertAbove id kind).Does a moved b ↔ ∃ n, a.node? id = some n ∧ moved = a.size ∧
      b = (a.push n).setNode id ⟨kind, [a.size]⟩ := by
  simp only [insertAbove, does_bind, does_nodeAt, does_push, does_setNode, does_pure]
  constructor
  · rintro ⟨n, _, ⟨here, rfl⟩, _, _, ⟨rfl, rfl⟩, _, _, rfl, rfl, rfl⟩
    exact ⟨n, here, rfl, rfl⟩
  · rintro ⟨n, here, rfl, rfl⟩
    exact ⟨n, a, ⟨here, rfl⟩, _, _, ⟨rfl, rfl⟩, (), _, rfl, rfl, rfl⟩

theorem insertAboveLeaves_append {xs ys : List (Nat × StmtSet)}
    (does : (insertAboveLeaves band (xs ++ ys)).Does a ids b) :
    ∃ r r' m, ids = r ++ r' ∧ (insertAboveLeaves band xs).Does a r m ∧
      (insertAboveLeaves band ys).Does m r' b := by
  induction xs generalizing a ids with
  | nil => exact ⟨[], ids, a, rfl, does_pure.mpr ⟨rfl, rfl⟩, does⟩
  | cons head rest ih =>
    obtain ⟨leaf, stmts⟩ := head
    simp only [List.cons_append, insertAboveLeaves] at does ⊢
    by_cases none : stmts.isEmpty = true
    · simp only [if_pos none] at does ⊢
      exact ih does
    · simp only [if_neg none, does_bind, does_pure] at does ⊢
      obtain ⟨moved, m, inserted, others, _, later, rfl, rfl⟩ := does
      obtain ⟨r, r', m', rfl, first, second⟩ := ih later
      exact ⟨leaf :: r, r', m', rfl, ⟨moved, m, inserted, r, m', first, rfl, rfl⟩, second⟩

theorem steps_of_insertAboveLeaves {arity : Nat} {R : Fin arity → List (Nat × StmtSet) → Prop}
    {indices : List (Fin arity)} {below : List (List (Nat × StmtSet))}
    (parts : List.Forall₂ R indices below)
    (does : (insertAboveLeaves band below.flatten).Does a ids b) :
    ∃ rs, ids = rs.flatten ∧ Arena.Steps
      (fun i a r b => ∃ leaves, R i leaves ∧ (insertAboveLeaves band leaves).Does a r b)
      indices a rs b := by
  induction parts generalizing a ids with
  | nil =>
    obtain ⟨rfl, rfl⟩ := does_pure.mp does
    exact ⟨[], rfl, .nil⟩
  | @cons i leaves _ _ head _ ih =>
    obtain ⟨r, r', m, rfl, first, second⟩ := insertAboveLeaves_append does
    obtain ⟨rs, rfl, steps⟩ := ih second
    exact ⟨r :: rs, rfl, .cons ⟨leaves, head, first⟩ steps⟩

/-- The band is put above the leaves of each child in turn. -/
theorem insertAboveLeaves_children {id arity : Nat} {kind : NodeKind} {child : Fin arity → Tree}
    {stmts : StmtSet} {below : List (List (Nat × StmtSet))}
    (each : ∀ i a b ids leaves, a.Locates (above ++ [(id, kind)]) (child i) →
      (child i).leaves stmts = .ok leaves → (insertAboveLeaves band leaves).Does a ids b →
      ∃ t', a.Reworks b (child i) t' ∧ Tree.Sunk band stmts (child i) t')
    (located : a.Locates above (.node id kind arity child))
    (found : (List.finRange arity).mapM (fun i => (child i).leaves stmts) = .ok below)
    (does : (insertAboveLeaves band below.flatten).Does a ids b) :
    ∃ after, a.Reworks b (.node id kind arity child) (.node id kind arity after) ∧
      ∀ i, Tree.Sunk band stmts (child i) (after i) := by
  obtain ⟨rs, rfl, steps⟩ := steps_of_insertAboveLeaves (mapM_eq_ok found) does
  obtain ⟨after, reworked, results, -⟩ := steps.rework
    (R := fun i _ c => Tree.Sunk band stmts (child i) c)
    (fun i a b r located step => by
      obtain ⟨leaves, found, does⟩ := step
      exact each i a b r leaves located found does)
    located (List.nodup_finRange arity) fun _ _ => rfl
  obtain ⟨forChild, -⟩ := exists_of_forall₂ results
  refine ⟨after, reworked, fun i => ?_⟩
  obtain ⟨_, -, sunk⟩ := forChild i (List.mem_finRange i)
  exact sunk

theorem insertAboveLeaves_reworks {stmts : StmtSet} {leaves : List (Nat × StmtSet)}
    (located : a.Locates above t) (found : t.leaves stmts = .ok leaves)
    (does : (insertAboveLeaves band leaves).Does a ids b) :
    ∃ t', a.Reworks b t t' ∧ Tree.Sunk band stmts t t' := by
  induction t generalizing a b above stmts leaves ids with
  | missing => cases found
  | node id kind arity child ih =>
    by_cases isLeaf : kind = .leaf
    · subst isLeaf
      cases found
      simp only [insertAboveLeaves] at does
      by_cases none : stmts.isEmpty = true
      · simp only [if_pos none, does_pure] at does
        obtain ⟨rfl, rfl⟩ := does
        exact ⟨_, .refl located.holds, .bare none⟩
      · simp only [if_neg none, does_bind, does_pure, does_insertAbove] at does
        obtain ⟨_, _, ⟨n, here, rfl, rfl⟩, _, _, ⟨rfl, rfl⟩, rfl, rfl⟩ := does
        obtain rfl : ⟨.leaf, List.ofFn fun i => (child i).top⟩ = n := by
          simpa using located.holds.stored.1.symm.trans here
        exact ⟨_, .stack located.holds (.band (band.restrict stmts)) .leaf,
          .leaf _ (by simpa using none)⟩
    · by_cases isFilter : ∃ f, kind = .filter f
      · obtain ⟨f, rfl⟩ := isFilter
        obtain ⟨below, mapped, h⟩ := Checked.bind_eq_ok_iff.mp found
        cases h
        obtain ⟨after, reworked, sunk⟩ := insertAboveLeaves_children
          (fun i a b ids leaves => ih i) located mapped does
        exact ⟨_, reworked, .filter sunk⟩
      · have notFilter : ∀ f, kind ≠ .filter f := fun f eq => isFilter ⟨f, eq⟩
        rw [Tree.leaves_inner isLeaf notFilter] at found
        obtain ⟨below, mapped, h⟩ := Checked.bind_eq_ok_iff.mp found
        cases h
        obtain ⟨after, reworked, sunk⟩ := insertAboveLeaves_children
          (fun i a b ids leaves => ih i) located mapped does
        exact ⟨_, reworked, .inner isLeaf notFilter sunk⟩

/-- Nodes that are not leaves are neither read nor changed. -/
theorem insertAboveLeaves_elsewhere {id : Nat} {leaves : List (Nat × StmtSet)} (bound : id < a.size)
    (outside : id ∉ leaves.map (·.1)) (does : (insertAboveLeaves band leaves).Does a ids b) :
    b.node? id = a.node? id ∧
      ∀ n, (insertAboveLeaves band leaves).Does (a.setNode id n) ids (b.setNode id n) := by
  induction leaves generalizing a ids with
  | nil =>
    obtain ⟨rfl, rfl⟩ := does_pure.mp does
    exact ⟨rfl, fun n => does_pure.mpr ⟨rfl, rfl⟩⟩
  | cons head rest ih =>
    obtain ⟨leaf, stmts⟩ := head
    obtain ⟨ne, outside⟩ := List.ne_and_not_mem_of_not_mem_cons outside
    simp only [insertAboveLeaves] at does ⊢
    by_cases none : stmts.isEmpty = true
    · simp only [if_pos none] at does ⊢
      exact ih bound outside does
    · simp only [if_neg none, does_bind, does_pure, does_insertAbove] at does ⊢
      obtain ⟨_, _, ⟨node, here, rfl, rfl⟩, others, _, later, rfl, rfl⟩ := does
      obtain ⟨same, sets⟩ := ih (by simpa using Nat.lt_succ_of_lt bound) outside later
      refine ⟨?_, fun n => ⟨_, _, ⟨node, ?_, rfl, rfl⟩, others, _, ?_, rfl, rfl⟩⟩
      · rw [same, Arena.node?_setNode_ne _ _ ne, Arena.node?_push_of_lt _ _ bound]
      · rw [Arena.node?_setNode_ne _ _ (Ne.symm ne), here]
      · rw [← Arena.setNode_push _ _ _ bound, Arena.setNode_comm _ _ _ ne, Arena.size_setNode]
        exact sets n

/-- Bands that are changed after they have been put above the leaves could have been changed
before. -/
theorem insertAboveLeaves_marked {f : Band → Band} {m : Arena} {r : Unit}
    {leaves : List (Nat × StmtSet)}
    (restricts : ∀ stmts, f (band.restrict stmts) = (f band).restrict stmts)
    (distinct : (leaves.map (·.1)).Nodup) (does : (insertAboveLeaves band leaves).Does a ids m)
    (marks : (ids.forM fun id => updateBand id f).Does m r b) :
    (insertAboveLeaves (f band) leaves).Does a ids b := by
  induction leaves generalizing a ids m with
  | nil =>
    obtain ⟨rfl, rfl⟩ := does_pure.mp does
    obtain ⟨-, rfl⟩ := does_pure.mp marks
    exact does_pure.mpr ⟨rfl, rfl⟩
  | cons head rest ih =>
    obtain ⟨leaf, stmts⟩ := head
    obtain ⟨outside, distinct⟩ := List.nodup_cons.mp distinct
    simp only [insertAboveLeaves] at does ⊢
    by_cases none : stmts.isEmpty = true
    · simp only [if_pos none] at does ⊢
      exact ih distinct does marks
    · simp only [if_neg none, does_bind, does_pure, does_insertAbove] at does ⊢
      obtain ⟨_, _, ⟨node, here, rfl, rfl⟩, others, _, later, rfl, rfl⟩ := does
      simp only [List.forM_eq_forM, List.forM_cons, does_bind, does_updateBand] at marks
      obtain ⟨_, _, rfl, marks⟩ := marks
      have bound : leaf < (a.push node).size := by
        simpa using Nat.lt_succ_of_lt (Arena.lt_size_of_node? here)
      obtain ⟨kept, sets⟩ := insertAboveLeaves_elsewhere (by simpa using bound) outside later
      rw [Arena.node?_setNode_self _ _ bound] at kept
      rw [Arena.updateBand_eq _ kept] at marks
      have marked := sets ⟨.band (f (band.restrict stmts)), [a.size]⟩
      rw [Arena.setNode_setNode, restricts] at marked
      rw [restricts] at marks
      exact ⟨_, _, ⟨node, here, rfl, rfl⟩, others, _, ih distinct marked marks, rfl, rfl⟩

/-- The child of a band takes its place, and the band is put above the leaves. -/
theorem bandSink_cases {id arity : Nat} {child : Fin arity → Tree}
    (located : a.Locates above (.node id (.band band) arity child))
    (does : (bandSink id).Does a ids b) :
    ∃ other kind n below m leaves,
      Tree.node id (.band band) arity child =
        .node id (.band band) 1 (fun _ => .node other kind n below) ∧
      a.Reworks m (.node id (.band band) arity child) (.node id kind n below) ∧
      (Tree.node id kind n below).leaves band.schedule.keySet = .ok leaves ∧
      (insertAboveLeaves band leaves).Does m ids b := by
  have here := located.holds.stored.1
  simp only [bandSink, does_bind, does_bandAt, does_get] at does
  obtain ⟨own, _, ⟨kind, rfl⟩, _, _, ⟨rfl, rfl⟩, does⟩ := does
  obtain rfl : band = own := by simpa [Arena.kind?_eq here] using kind
  rw [Arena.children_eq here] at does
  split at does
  · rename_i top only
    obtain rfl : arity = 1 := by simpa using congrArg List.length only
    obtain ⟨c, rfl⟩ : ∃ c, child = fun _ => c := ⟨child 0, funext fun i => by rw [Fin.eq_zero i]⟩
    obtain rfl : c.top = top := by simpa using only
    cases c with
    | missing => exact (located.holds.stored.2 0).elim
    | node other kind n below =>
      simp only [Tree.top_node, (located.holds.child 0).stored.1, does_bind, does_setNode, does_get,
        does_lift] at does
      obtain ⟨_, m, lifted, _, _, ⟨rfl, rfl⟩, leaves, _, ⟨found, rfl⟩, does⟩ := does
      have first := Arena.Reworks.lift located.holds
      rw [← lifted] at first
      have unfolded := first.holds.treeAt_eq
      rw [Tree.top_node] at unfolded
      rw [unfolded] at found
      exact ⟨other, kind, n, below, m, leaves, rfl, first, found, does⟩
  · exact absurd does does_refuse

theorem bandSink_reworks {id arity : Nat} {child : Fin arity → Tree}
    (located : a.Locates above (.node id (.band band) arity child))
    (does : (bandSink id).Does a ids b) :
    ∃ t', a.Reworks b (.node id (.band band) arity child) t' := by
  obtain ⟨_, _, _, _, _, _, -, first, found, does⟩ := bandSink_cases located does
  obtain ⟨t', second, -⟩ := insertAboveLeaves_reworks (located.rework first) found does
  exact ⟨t', first.trans second⟩

/-- A loop over points moves down and is marked. -/
theorem sink_reworks {id arity : Nat} {child : Fin arity → Tree} {m : Arena} {r : Unit}
    (located : a.Locates above (.node id (.band band) arity child))
    (sinks : (bandSink id).Does a ids m)
    (marks : (ids.forM fun id => updateBand id markVector).Does m r b) :
    ∃ c t', Tree.node id (.band band) arity child = .node id (.band band) 1 (fun _ => c) ∧
      a.Reworks b (.node id (.band band) arity child) t' ∧ c.Sunken band t' ∧
      t'.branches = c.branches := by
  obtain ⟨other, kind, n, below, m, leaves, shape, first, found, sinks⟩ :=
    bandSink_cases located sinks
  have distinct := (Tree.leaves_sublist found).nodup first.holds.distinct
  have marked := insertAboveLeaves_marked (fun _ => rfl) distinct sinks marks
  obtain ⟨t', second, sunk⟩ := insertAboveLeaves_reworks (located.rework first) found marked
  refine ⟨.node other kind n below, t', shape, first.trans second, ⟨_, .node fun i => ?_, sunk⟩, ?_⟩
  · exact .refl (first.holds.child i).stored
  · rw [sunk.branches]
    cases kind <;> rfl

/-- Loops over points move down one after the other. -/
theorem sinkPoints_cons {id arity : Nat} {child : Fin arity → Tree} {rest : List Nat} {r : Unit}
    (located : a.Locates above (.node id (.band band) arity child))
    (does : (sinkPoints (id :: rest)).Does a r b) :
    ∃ c t' m, Tree.node id (.band band) arity child = .node id (.band band) 1 (fun _ => c) ∧
      a.Reworks m (.node id (.band band) arity child) t' ∧ c.Sunken band t' ∧
      t'.branches = c.branches ∧ (sinkPoints rest).Does m r b := by
  simp only [sinkPoints, does_bind] at does
  obtain ⟨ids, _, sinks, _, m, marks, later⟩ := does
  obtain ⟨c, t', shape, reworked, sunken, branches⟩ := sink_reworks located sinks marks
  exact ⟨c, t', m, shape, reworked, sunken, branches, later⟩

end Edit

end LoopNest
