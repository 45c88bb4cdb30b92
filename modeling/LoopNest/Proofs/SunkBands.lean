import LoopNest.Proofs.VectorLoops
import LoopNest.Proofs.Walks

/-! A band that moves down gives its entries last. The leaves get copies of it by what the filters
above them may let through, and an instance finds its leaf by what they do let through, so there is
a copy for it at the leaf that it comes to. What the copies evaluate has been evaluated above, hence
no instance faults there. -/

namespace LoopNest

namespace StmtMap

variable {α : Type}

theorem filter_congr {m : StmtMap α} {keep keep' : Nat → Bool}
    (same : ∀ stmt, m.contains stmt = true → keep stmt = keep' stmt) :
    m.filter keep = m.filter keep' := by
  unfold filter
  congr 1
  refine List.filter_congr fun e member => same e.1 (mem_keys_iff.mp ?_)
  exact List.mem_map.mpr ⟨e, member, rfl⟩

theorem filter_filter (m : StmtMap α) (keep keep' : Nat → Bool) :
    (m.filter keep).filter keep' = m.filter fun stmt => keep stmt && keep' stmt := by
  unfold filter
  congr 1
  rw [List.filter_filter]
  exact List.filter_congr fun e _ => Bool.and_comm _ _

@[simp] theorem filter_true (m : StmtMap α) : (m.filter fun _ => true) = m := by
  unfold filter
  simp

theorem contains_filter_keySet {m : StmtMap α} {keep : Nat → Bool} {stmt : Nat}
    (member : m.contains stmt = true) : (m.keySet.filter keep).contains stmt = keep stmt := by
  obtain ⟨value, found⟩ := Option.isSome_iff_exists.mp member
  cases kept : keep stmt <;> simp [contains, keySet, found, kept]

end StmtMap

/-- Expressions that can be evaluated can be evaluated on a walk. -/
theorem Eval.mapM_lift {α β : Type} {f : α → Checked β} {items : List α} {results : List β}
    (h : items.mapM f = .ok results) :
    (items.mapM fun item => (liftM (f item) : Eval β)) = pure results := by
  induction items generalizing results with
  | nil =>
    cases h
    rfl
  | cons item rest ih =>
    rw [List.mapM_cons, Checked.bind_eq_ok_iff] at h
    obtain ⟨value, first, h⟩ := h
    obtain ⟨values, later, h⟩ := Checked.bind_eq_ok_iff.mp h
    cases h
    rw [List.mapM_cons, first, ih later]
    rfl

namespace Tree

/-! ## Walks through a band -/

section Walk

variable {x : Iteration} {id arity : Nat} {kind : NodeKind} {child child' : Fin arity → Tree}
  {band : Band} {v : List Int}

/-- A walk through a band evaluates the expressions of the statement, and goes on to the first
child. -/
theorem step_band {exprs : List Quasi} (found : band.schedule.get? x.stmt = some exprs)
    (values : exprs.mapM (·.eval x.point x.params) = .ok v) :
    step child x.stmt x.point x.params (.band band) = pure (v, first arity) := by
  rw [step, found]
  dsimp only
  rw [Eval.mapM_lift values]
  rfl

end Walk

namespace Sunk

variable {band : Band} {stmts : StmtSet} {t t' : Tree} {x : Iteration} {visits : List Visit}
  {v : List Int}

/-- What is added behind the entries of the children is added behind those of the tree. -/
theorem timestamp_node {id arity : Nat} {kind : NodeKind} {child child' : Fin arity → Tree}
    (notLeaf : kind ≠ .leaf)
    (same : ∀ i, (child i).accepts x.stmt x.point x.params =
      (child' i).accepts x.stmt x.point x.params)
    (walk : (node id kind arity child).visits x.stmt x.point x.params = pure visits)
    (ends : (node id kind arity child).endsAtLeaf x = true)
    (each : ∀ i later, onward x child kind ≠ none →
      (child i).visits x.stmt x.point x.params = pure later → (child i).endsAtLeaf x = true →
      (child' i).timestamp x = pure (later.flatMap (·.entries) ++ v)) :
    (node id kind arity child').timestamp x = pure (visits.flatMap (·.entries) ++ v) := by
  obtain ⟨entries, later, rfl, ⟨stepped, rfl⟩ | ⟨i, stepped, below⟩⟩ := visits_run walk
  · have exact := (step_agrees child x kind).eq_some stepped
    exact absurd (by simpa [Tree.endsAtLeaf, exact] using ends) notLeaf
  · have exact := (step_agrees child x kind).eq_some stepped
    have endsBelow : (child i).endsAtLeaf x = true := by simpa [Tree.endsAtLeaf, exact] using ends
    have stepped' : step child' x.stmt x.point x.params kind = pure (entries, some i) :=
      (step_congr kind same).symm.trans stepped
    rw [timestamp_next stepped', each i later (by simp [exact]) below endsBelow]
    simp

/-- An instance whose walk ends at a leaf gets the entries of the band last. -/
theorem timestamp (sunk : Sunk band stmts t t') {exprs : List Quasi}
    (member : stmts.contains x.stmt = true) (found : band.schedule.get? x.stmt = some exprs)
    (values : exprs.mapM (·.eval x.point x.params) = .ok v)
    (walk : t.visits x.stmt x.point x.params = pure visits) (ends : t.endsAtLeaf x = true) :
    t'.timestamp x = pure (visits.flatMap (·.entries) ++ v) := by
  induction sunk generalizing visits with
  | @bare stmts id arity child none =>
    have : stmts.entries = [] := by simpa [StmtMap.isEmpty] using none
    simp [StmtMap.contains, StmtMap.get?, this] at member
  | @leaf stmts id arity child moved some =>
    obtain ⟨_, _, rfl, ⟨⟨⟩, rfl⟩ | ⟨_, ⟨⟩, -⟩⟩ := visits_run walk
    have restricted : (band.restrict stmts).schedule.get? x.stmt = .some exprs := by
      simp [Band.restrict, member, found]
    rw [timestamp_next (i := 0) (step_band restricted values)]
    simp [Tree.timestamp, Tree.visits, step]
  | @filter stmts id arity f child child' children ih =>
    refine timestamp_node (by simp) (fun i => ((children i).accepts _ _ _).symm) walk ends ?_
    exact fun i later passed => ih i (contains_of_passed passed member)
  | @inner stmts id arity kind child child' notLeaf notFilter children ih =>
    refine timestamp_node notLeaf (fun i => ((children i).accepts _ _ _).symm) walk ends ?_
    exact fun i later _ => ih i member

/-! The child of a band takes its place before the band moves down. -/

section Lifted

variable {a : Arena} {id other n : Nat} {kind : NodeKind} {below : Fin n → Tree}
  {later : List Visit}

/-- What takes the place of a band takes the instances that went through it. -/
theorem accepts_lifted (sunk : Sunk band stmts (.node id kind n below) t')
    (walk : (Tree.node id (.band band) 1 fun _ => .node other kind n below).visits x.stmt x.point
      x.params = pure visits) : t'.accepts x.stmt x.point x.params = .ok true := by
  obtain ⟨_, _, _, rfl, -, -, walkBelow⟩ := visits_band walk
  have accepted := accepts_of_visits walkBelow
  rw [sunk.accepts]
  cases kind <;> exact accepted

/-- What takes the place of a band gives the entries of its child, and then its own. -/
theorem timestamp_lifted
    (sunk : Sunk band band.schedule.keySet (.node id kind n below) t')
    (stored : (Tree.node other kind n below).Stored a)
    (walk : (Tree.node id (.band band) 1 fun _ => .node other kind n below).visits x.stmt x.point
      x.params = pure (⟨id, v⟩ :: later))
    (ends : (Tree.node id (.band band) 1 fun _ => .node other kind n below).endsAtLeaf x = true) :
    t'.timestamp x = pure (later.flatMap (·.entries) ++ v) := by
  obtain ⟨_, _, exprs, same, found, values, walkBelow⟩ := visits_band walk
  cases same
  have alike : (Tree.node other kind n below).Alike (.node id kind n below) :=
    (Renumbered.node fun i => .refl (stored.2 i)).alike
  have stamp : (Tree.node id kind n below).timestamp x = pure (later.flatMap (·.entries)) := by
    rw [← alike.timestamp, Tree.timestamp, ← visitsBelow_one, walkBelow]
    rfl
  obtain ⟨visits, walkHere, entries⟩ := Eval.of_map_eq_pure stamp
  have endsHere : (Tree.node id kind n below).endsAtLeaf x = true := by
    rw [← alike.endsAtLeaf]
    simpa [Tree.endsAtLeaf, onward, found] using ends
  rw [sunk.timestamp (StmtMap.contains_keySet found) found values walkHere endsHere, entries]

end Lifted

end Sunk

/-! ## Where the copies stand -/

/-- A leaf below an inner node is a leaf below one of its children, with what the node lets
through. -/
theorem exists_part_of_leaves {stmts : StmtSet} {id arity : Nat} {kind : NodeKind}
    {child : Fin arity → Tree} {leaves : List (Nat × StmtSet)} (notLeaf : kind ≠ .leaf)
    (found : (node id kind arity child).leaves stmts = .ok leaves) {leaf : Nat × StmtSet}
    (member : leaf ∈ leaves) :
    ∃ i part, (child i).leaves (stmts.filter fun stmt => kind.lets stmt) = .ok part ∧
      leaf ∈ part := by
  have below : ∃ parts, (List.finRange arity).mapM (fun i =>
      (child i).leaves (stmts.filter fun stmt => kind.lets stmt)) = .ok parts ∧
      parts.flatten = leaves := by
    cases kind with
    | leaf => exact absurd rfl notLeaf
    | filter f =>
      obtain ⟨parts, mapped, h⟩ := Checked.bind_eq_ok_iff.mp found
      cases h
      exact ⟨parts, mapped, rfl⟩
    | _ =>
      obtain ⟨parts, mapped, h⟩ := Checked.bind_eq_ok_iff.mp found
      cases h
      exact ⟨parts, by simpa [NodeKind.lets] using mapped, rfl⟩
  obtain ⟨parts, mapped, rfl⟩ := below
  obtain ⟨part, inParts, inside⟩ := List.mem_flatten.mp member
  obtain ⟨i, -, own⟩ := (exists_of_forall₂ (mapM_eq_ok mapped)).2 part inParts
  exact ⟨i, part, own, inside⟩

/-- Above each leaf that is listed with statements, there is a copy of the band for them. They are
those that the nodes above it let through. -/
theorem Sunk.exists_under {band : Band} {stmts : StmtSet} {t t' : Tree}
    (sunk : Sunk band stmts t t') {leaves : List (Nat × StmtSet)}
    (found : t.leaves stmts = .ok leaves) {k : Nat} {given : StmtSet} (member : (k, given) ∈ leaves)
    (nonempty : given.isEmpty = false) :
    ∃ frames leaf arity child, Under frames t' (.node k (.band (band.restrict given)) 1
        fun _ => .node leaf .leaf arity child) ∧
      given = stmts.filter fun stmt => (frames.map (·.2)).all (·.lets stmt) := by
  induction sunk generalizing leaves with
  | @bare stmts id arity child none =>
    cases found
    obtain ⟨rfl, rfl⟩ : k = id ∧ given = stmts := by simpa using member
    simp [none] at nonempty
  | @leaf stmts id arity child moved _ =>
    cases found
    obtain ⟨rfl, rfl⟩ : k = id ∧ given = stmts := by simpa using member
    exact ⟨[], moved, arity, child, .here _, by simp⟩
  | @filter stmts id arity f child child' children ih =>
    obtain ⟨i, part, own, inside⟩ := exists_part_of_leaves (by simp) found member
    obtain ⟨frames, leaf, n, below, under, rfl⟩ := ih i own inside
    refine ⟨(id, .filter f) :: frames, leaf, n, below, .inside i under, ?_⟩
    rw [StmtMap.filter_filter]
    rfl
  | @inner stmts id arity kind child child' notLeaf notFilter children ih =>
    obtain ⟨i, part, own, inside⟩ := exists_part_of_leaves notLeaf found member
    have lets : ∀ stmt, kind.lets stmt = true := by
      intro stmt
      cases kind with
      | filter f => exact absurd rfl (notFilter f)
      | _ => rfl
    simp only [lets, StmtMap.filter_true] at own
    obtain ⟨frames, leaf, n, below, under, rfl⟩ := ih i own inside
    exact ⟨(id, kind) :: frames, leaf, n, below, .inside i under, by simp [lets]⟩

theorem Under.head? {frames : List Frame} {whole t : Tree} (under : Under frames whole t) :
    (frames.map (·.1) ++ [t.top]).head? = some whole.top := by
  cases under <;> rfl

end Tree

namespace Edit

variable {a b : Arena} {id : Nat} {ids : List Nat} {band : Band}

theorem ids_of_insertAboveLeaves {leaves : List (Nat × StmtSet)}
    (does : (insertAboveLeaves band leaves).Does a ids b) :
    ids = (leaves.filter fun leaf => !leaf.2.isEmpty).map (·.1) := by
  induction leaves generalizing a ids with
  | nil => exact (does_pure.mp does).1.symm
  | cons head rest ih =>
    obtain ⟨leaf, stmts⟩ := head
    simp only [insertAboveLeaves] at does
    by_cases none : stmts.isEmpty = true
    · rw [if_pos none] at does
      simp [none, ih does]
    · simp only [if_neg none, does_bind, does_pure] at does
      obtain ⟨_, _, -, others, _, later, rfl, rfl⟩ := does
      simp [none, ih later]

end Edit

namespace Arena.Locates

variable {a b : Arena} {above : List Frame} {t t' : Tree} {band : Band}

/-- Above each leaf that is listed with statements, there is a copy of the band for those statements
that the nodes on the way from the top let through. -/
theorem copy_of_sunk (located : b.Locates above t')
    (sunk : t.Sunk band band.schedule.keySet t') {leaves : List (Nat × StmtSet)}
    (found : t.leaves band.schedule.keySet = .ok leaves) {k : Nat} {given : StmtSet}
    (member : (k, given) ∈ leaves) (nonempty : given.isEmpty = false) :
    b.IsAboveLeaf k ∧ ∃ above way, b.pathTo? k = some (above ++ way) ∧ way.head? = some t'.top ∧
      b.band? k =
        some { band with schedule := band.schedule.filter fun stmt => way.all (b.lets stmt) } := by
  obtain ⟨frames, leaf, arity, child, under, rfl⟩ := sunk.exists_under found member nonempty
  have holds := under.holds located.holds
  obtain ⟨whole, top, holdsWhole, around⟩ := located
  have path := pathTo? ⟨whole, top, holdsWhole, around.trans under⟩
  refine ⟨holds.isAboveLeaf, above.map (·.1), frames.map (·.1) ++ [k], ?_, under.head?, ?_⟩
  · simpa using path
  · have lets : ∀ stmt, (frames.map (·.1) ++ [k]).all (b.lets stmt) =
        (frames.map (·.2)).all (·.lets stmt) := by
      intro stmt
      have own : b.lets stmt k = true := by
        rw [Arena.lets_eq holds.stored.1]
        rfl
      rw [List.all_append, all_lets (under.node? (around.holds holdsWhole))]
      simp [own]
    rw [holds.band?_eq, Band.restrict]
    congr 2
    apply StmtMap.filter_congr
    intro stmt scheduled
    rw [StmtMap.contains_filter_keySet scheduled, lets]

end Arena.Locates

namespace Edit

variable {a b : Arena} {id : Nat} {ids : List Nat}

/-- A band that moves down gives its entries last. Instances of it whose walk ends at a leaf get
them there, and instances that do not come to it keep their time stamps. The band is found again
directly above leaves, once above each, for the statements of it that the filters on the way there
from its old position may let through. -/
theorem bandSink_moves_entries (h : (bandSink id).commit a = .ok (.ok (ids, b)))
    (wellFormed : a.isWellFormed = true) (reached : id ∈ a.bands) :
    ∃ band, a.band? id = some band ∧
      (∀ (x : Iteration) pre v later,
        (a.visits x.stmt x.point x.params).run = .ok (.ok (pre ++ ⟨id, v⟩ :: later)) →
        a.EndsAtLeaf (pre ++ ⟨id, v⟩ :: later) →
        (b.timestamp x.stmt x.point x.params).run =
          .ok (.ok (pre.flatMap (·.entries) ++ later.flatMap (·.entries) ++ v))) ∧
      (∀ (x : Iteration) visits, (a.visits x.stmt x.point x.params).run = .ok (.ok visits) →
        (∀ visit ∈ visits, visit.id ≠ id) →
        (b.timestamp x.stmt x.point x.params).run = .ok (.ok (visits.flatMap (·.entries)))) ∧
      ids.Nodup ∧ ∀ k ∈ ids, b.IsAboveLeaf k ∧
        ∃ above way, b.pathTo? k = some (above ++ way) ∧ way.head? = some id ∧
          b.band? k = some
            { band with schedule := band.schedule.filter fun stmt => way.all (b.lets stmt) } := by
  obtain ⟨above, band, arity, child, located⟩ := Arena.exists_locates_band wellFormed reached
  obtain ⟨other, kind, n, below, m, leaves, shape, first, found, does⟩ :=
    bandSink_cases located (commit_eq_ok.mp h)
  cases shape
  obtain ⟨t', second, sunk⟩ := insertAboveLeaves_reworks (located.rework first) found does
  have rework := first.trans second
  refine ⟨band, located.holds.band?_eq, ?_, ?_, ?_, ?_⟩
  · intro x pre v later walk ends
    have takes : ∀ later, (Tree.node id (.band band) 1 fun _ => .node other kind n below).visits
        x.stmt x.point x.params = pure later → t'.accepts x.stmt x.point x.params = .ok true :=
      fun _ => sunk.accepts_lifted
    obtain ⟨old, new⟩ := (located.exchanges_band rework walk).timestamp_through takes walk
    have endsHere := ends.below located.holds.stored ((Tree.visits_agrees x _).eq_some old)
    rw [new, sunk.timestamp_lifted (located.holds.child 0).stored old endsHere, List.append_assoc]
    rfl
  · intro x visits walk avoids
    exact (located.exchanges_band rework walk).timestamp_elsewhere rfl walk avoids
  · rw [ids_of_insertAboveLeaves does]
    have distinct := (Tree.leaves_sublist found).nodup first.holds.distinct
    exact distinct.sublist (List.filter_sublist.map _)
  · intro _ member
    rw [ids_of_insertAboveLeaves does] at member
    obtain ⟨⟨k, given⟩, inside, rfl⟩ := List.mem_map.mp member
    obtain ⟨inLeaves, nonempty⟩ := List.mem_filter.mp inside
    have copy := (located.rework rework).copy_of_sunk sunk found inLeaves (by simpa using nonempty)
    rwa [rework.top] at copy

/-- Two statements in one band. Below it stand a branch for the last rows of the first statement,
one for nothing, and one for all that is left. -/
def partedGrid : Arena :=
  let domains : StmtMap Polyhedron := .ofList [(0, Scop.gridDomain), (1, Scop.gridDomain)]
  let rows : Filter := .tiles ⟨.full, 4, .ofList [(0, some [.affine ⟨-4, [1, 0], []⟩])]⟩
  ⟨#[⟨.domain domains, [1]⟩, ⟨.band (.identity domains [⟨true, true⟩, ⟨true, true⟩]), [2]⟩,
    ⟨.sequence, [3, 5, 7]⟩, ⟨.filter rows, [4]⟩, ⟨.leaf, []⟩,
    ⟨.filter (.statements (.ofList [])), [6]⟩, ⟨.leaf, []⟩,
    ⟨.filter (.statements domains.keySet), [8]⟩, ⟨.leaf, []⟩], 0⟩

theorem partedGrid_moves_entries : ∃ b, (bandSink 1).commit partedGrid = .ok (.ok ([4, 8], b)) ∧
    (partedGrid.timestamp 0 [5, 6] []).run = .ok (.ok [5, 6, 0]) ∧
    (b.timestamp 0 [5, 6] []).run = .ok (.ok [0, 5, 6]) ∧
    (partedGrid.timestamp 0 [1, 6] []).run = .ok (.ok [1, 6, 2]) ∧
    (b.timestamp 0 [1, 6] []).run = .ok (.ok [2, 1, 6]) ∧ b.IsAboveLeaf 4 ∧ b.IsAboveLeaf 8 := by
  obtain ⟨⟨ids, b⟩, h, same⟩ : ∃ value : List Nat × Arena,
      (bandSink 1).commit partedGrid = .ok (.ok value) ∧ decide (value.1 = [4, 8]) = true :=
    exists_ok_of_any (by decide +kernel)
  obtain rfl : ids = [4, 8] := of_decide_eq_true same
  obtain ⟨band, -, through, -, -, copies⟩ :=
    bandSink_moves_entries h (by decide +kernel) (by decide +kernel)
  refine ⟨b, h, by decide +kernel, ?_, by decide +kernel, ?_, (copies 4 (by simp)).1,
    (copies 8 (by simp)).1⟩
  · exact through ⟨0, [5, 6], []⟩ [⟨0, []⟩] [5, 6] [⟨2, [0]⟩, ⟨3, []⟩, ⟨4, []⟩] (by decide +kernel)
      (by decide +kernel)
  · exact through ⟨0, [1, 6], []⟩ [⟨0, []⟩] [1, 6] [⟨2, [2]⟩, ⟨7, []⟩, ⟨8, []⟩] (by decide +kernel)
      (by decide +kernel)

end Edit

end LoopNest
