import LoopNest.Proofs.Walks

/-! A band and the two parts it is split into are the same loops in the same order, so nothing that
is computed from a schedule tells them apart: neither time stamps, whatever comes of them, nor
pieces. Reordering a band twice is reordering it once, by one order after the other, and every order
has one that undoes it. -/

namespace LoopNest

theorem Checked.mapM_eq_map {α β : Type} {f : α → Checked β} {g : α → β} {items : List α}
    (each : ∀ item ∈ items, f item = .ok (g item)) : items.mapM f = .ok (items.map g) := by
  induction items with
  | nil => rfl
  | cons item rest ih =>
    obtain ⟨here, later⟩ := List.forall_mem_cons.mp each
    rw [List.mapM_cons, here, ih later]
    rfl

namespace StmtMap

variable {α β γ : Type}

theorem map_congr {m : StmtMap α} {f g : Nat → α → β}
    (same : ∀ e ∈ m.entries, f e.1 e.2 = g e.1 e.2) : m.map f = m.map g := by
  unfold map
  congr 1
  exact List.map_congr_left fun e member => by rw [same e member]

theorem map_map (m : StmtMap α) (f : Nat → α → β) (g : Nat → β → γ) :
    (m.map f).map g = m.map fun stmt value => g stmt (f stmt value) := by
  unfold map
  congr 1
  rw [List.map_map]
  rfl

@[simp] theorem map_value (m : StmtMap α) : (m.map fun _ value => value) = m := by
  unfold map
  simp

/-- A computation that succeeds on each value of a table succeeds on the table. -/
theorem traverse_eq_ok {f : α → Checked β} {m : StmtMap α} {g : α → β}
    (each : ∀ e ∈ m.entries, f e.2 = .ok (g e.2)) :
    m.traverse f = .ok (m.map fun _ value => g value) := by
  rw [traverse, Checked.mapM_eq_map (g := fun e => (e.1, g e.2)) fun e member => by
    rw [each e member]
    rfl]
  exact congrArg Except.ok (ofList_entries (m.map fun _ value => g value))

end StmtMap

/-! ## Items at positions -/

namespace Band

section Pick

variable {α : Type} {items : List α} {positions : List Nat}

theorem pick_eq_ok (bound : ∀ p ∈ positions, p < items.length) :
    pick items positions = .ok (positions.filterMap (items[·]?)) := by
  induction positions with
  | nil => rfl
  | cons p rest ih =>
    obtain ⟨here, later⟩ := List.forall_mem_cons.mp bound
    rw [pick] at ih ⊢
    rw [List.mapM_cons, ih later, List.filterMap_cons, List.getElem?_eq_getElem here]
    rfl

theorem length_filterMap_getElem? (bound : ∀ p ∈ positions, p < items.length) :
    (positions.filterMap (items[·]?)).length = positions.length :=
  (mapM_eq_ok (pick_eq_ok bound)).length_eq.symm

theorem filterMap_getElem?_range (items : List α) :
    (List.range items.length).filterMap (items[·]?) = items := by
  have inside : ∀ p ∈ List.range items.length, p < items.length := fun p => List.mem_range.mp
  rw [pick_range (pick_eq_ok inside), List.take_length]

end Pick

end Band

/-! ## Orders of members -/

namespace Edit

/-- The order `p` and then the order `q`: the old position at `i` is `p[q[i]]`. -/
def compose (p q : List Nat) : List Nat := q.filterMap (p[·]?)

/-- The order that undoes another: at `i` comes the position to which it has taken `i`. -/
def inverse (p : List Nat) : List Nat := (List.range p.length).map p.idxOf

variable {p q : List Nat} {n : Nat}

/-- The check on positions accepts the orders of all members and nothing else. -/
theorem isPermutation_iff : isPermutation p n = true ↔ p.Perm (List.range n) := by
  simp only [isPermutation, Bool.and_eq_true, decide_eq_true_eq, List.all_eq_true]
  constructor
  · rintro ⟨⟨length, bound⟩, distinct⟩
    exact Band.perm_range length bound distinct
  · intro perm
    refine ⟨⟨by simpa using perm.length_eq, fun i member => ?_⟩, ?_⟩
    · exact List.mem_range.mp (perm.mem_iff.mp member)
    · exact perm.nodup_iff.mpr List.nodup_range

theorem compose_perm (first : p.Perm (List.range n)) (second : q.Perm (List.range n)) :
    (compose p q).Perm (List.range n) := by
  have length : n = p.length := by simpa using first.length_eq.symm
  have all : (compose p q).Perm p := by
    have := second.filterMap (p[·]?)
    rwa [length, Band.filterMap_getElem?_range] at this
  exact all.trans first

theorem getElem?_compose (first : p.Perm (List.range n)) (second : q.Perm (List.range n))
    (i : Nat) : (compose p q)[i]? = q[i]?.bind (p[·]?) := by
  have length : p.length = n := by simpa using first.length_eq
  have bound : ∀ k ∈ q, k < p.length := fun k member =>
    length ▸ List.mem_range.mp (second.mem_iff.mp member)
  exact Band.getElem?_pick (Band.pick_eq_ok bound) i

theorem inverse_perm (perm : p.Perm (List.range n)) : (inverse p).Perm (List.range n) := by
  have length : p.length = n := by simpa using perm.length_eq
  have inside : ∀ i ∈ List.range p.length, i ∈ p := fun i member =>
    perm.mem_iff.mpr (length ▸ member)
  apply Band.perm_range
  · simp [inverse, length]
  · intro i member
    obtain ⟨k, within, rfl⟩ := List.mem_map.mp member
    rw [← length]
    exact List.idxOf_lt_length_of_mem (inside k within)
  · refine List.Nodup.map_on (fun i here j there same => ?_) List.nodup_range
    exact (List.idxOf_inj (inside i here)).mp same

theorem compose_inverse (perm : p.Perm (List.range n)) : compose p (inverse p) = List.range n := by
  have length : p.length = n := by simpa using perm.length_eq
  have found : ∀ i ∈ List.range n, p[p.idxOf i]? = some i := fun i member =>
    List.getElem?_idxOf (perm.mem_iff.mpr member)
  rw [compose, inverse, List.filterMap_map, length]
  exact (List.filterMap_congr found).trans List.filterMap_some

end Edit

/-! ## Members at positions -/

namespace Band

/-- The members at the given positions, in that order, as far as there are such members. -/
def membersAt (band : Band) (positions : List Nat) : Band :=
  { band with
    members := positions.filterMap (band.members[·]?)
    schedule := band.schedule.map fun _ exprs => positions.filterMap (exprs[·]?) }

variable {band : Band} {positions p q : List Nat}

/-- Members that exist can be selected. -/
theorem select_eq_membersAt (arity : band.HasArity)
    (bound : ∀ p ∈ positions, p < band.nMembers) :
    band.select positions = .ok (band.membersAt positions) := by
  have exprs : ∀ e ∈ band.schedule.entries,
      pick e.2 positions = .ok (positions.filterMap (e.2[·]?)) := by
    intro e member
    apply pick_eq_ok
    rwa [arity e member]
  rw [select, pick_eq_ok bound,
    StmtMap.traverse_eq_ok (g := fun exprs => positions.filterMap (exprs[·]?)) exprs]
  rfl

theorem nMembers_membersAt (bound : ∀ p ∈ positions, p < band.nMembers) :
    (band.membersAt positions).nMembers = positions.length :=
  length_filterMap_getElem? bound

theorem HasArity.membersAt (arity : band.HasArity) (bound : ∀ p ∈ positions, p < band.nMembers) :
    (band.membersAt positions).HasArity := by
  intro e member
  obtain ⟨own, inside, rfl⟩ := List.mem_map.mp member
  rw [nMembers_membersAt bound]
  apply length_filterMap_getElem?
  rwa [arity own inside]

theorem membersAt_range (arity : band.HasArity) :
    band.membersAt (List.range band.nMembers) = band := by
  have exprs : ∀ e ∈ band.schedule.entries,
      (List.range band.nMembers).filterMap (e.2[·]?) = e.2 := by
    intro e member
    rw [← arity e member, filterMap_getElem?_range]
  have schedule := StmtMap.map_congr (g := fun _ es => es)
    (f := fun _ es => (List.range band.nMembers).filterMap (es[·]?)) exprs
  rw [Band.membersAt, schedule, StmtMap.map_value, nMembers, filterMap_getElem?_range]

/-- Choosing by one order and then by another. -/
theorem filterMap_compose {α : Type} {items : List α} (bound : ∀ i ∈ p, i < items.length) :
    q.filterMap ((p.filterMap (items[·]?))[·]?) = (Edit.compose p q).filterMap (items[·]?) := by
  rw [Edit.compose, List.filterMap_filterMap]
  exact List.filterMap_congr fun i _ => getElem?_pick (pick_eq_ok bound) i

theorem membersAt_membersAt (arity : band.HasArity) (bound : ∀ i ∈ p, i < band.nMembers) :
    (band.membersAt p).membersAt q = band.membersAt (Edit.compose p q) := by
  have exprs : ∀ e ∈ band.schedule.entries, q.filterMap ((p.filterMap (e.2[·]?))[·]?) =
      (Edit.compose p q).filterMap (e.2[·]?) := by
    intro e member
    apply filterMap_compose
    rwa [arity e member]
  have schedule := StmtMap.map_congr (f := fun _ es => q.filterMap ((p.filterMap (es[·]?))[·]?))
    (g := fun _ es => (Edit.compose p q).filterMap (es[·]?)) exprs
  rw [membersAt, membersAt, membersAt, StmtMap.map_map, schedule, filterMap_compose bound]

end Band

/-! ## Reordering -/

/-- Putting a band in the place of another. -/
theorem Arena.reordered {a : Arena} {id : Nat} {kind : NodeKind} {children : List Nat}
    (here : a.node? id = some ⟨kind, children⟩) (band : Band) :
    (a.setNode id ⟨.band band, children⟩).band? id = some band ∧
      (a.setNode id ⟨.band band, children⟩).children id = a.children id ∧
      ∀ i, i ≠ id → (a.setNode id ⟨.band band, children⟩).node? i = a.node? i := by
  have stands := a.node?_setNode_self ⟨.band band, children⟩ (Arena.lt_size_of_node? here)
  refine ⟨?_, ?_, fun i other => a.node?_setNode_ne _ other⟩
  · rw [Arena.band?, Arena.kind?_eq stands]
  · rw [Arena.children_eq stands, Arena.children_eq here]

/-- Putting a node where it stands changes nothing. -/
theorem Arena.setNode_self {a : Arena} {id : Nat} {n : Node} (here : a.node? id = some n) :
    a.setNode id n = a := by
  obtain ⟨bound, same⟩ := Array.getElem?_eq_some_iff.mp here
  rw [Arena.setNode, Array.setIfInBounds, dif_pos bound, ← same, Array.set_getElem_self]

namespace Edit

variable {a : Arena} {id : Nat} {band : Band} {children p q : List Nat}

/-- An order of all members is accepted, and the members stand in it afterwards. -/
theorem bandPermute_does (here : a.node? id = some ⟨.band band, children⟩) (arity : band.HasArity)
    (perm : p.Perm (List.range band.nMembers)) :
    (bandPermute id p).Does a () (a.setNode id ⟨.band (band.membersAt p), children⟩) := by
  have bound : ∀ i ∈ p, i < band.nMembers := fun i member =>
    List.mem_range.mp (perm.mem_iff.mp member)
  simp only [bandPermute, does_bind, does_bandAt]
  refine ⟨band, a, ⟨Arena.kind?_eq here, rfl⟩, ?_⟩
  rw [if_pos (isPermutation_iff.mpr perm)]
  simp only [does_bind, does_lift, does_updateBand]
  refine ⟨_, a, ⟨Band.select_eq_membersAt arity bound, rfl⟩, ?_⟩
  rw [Arena.updateBand_eq _ here]

/-- Nothing but an order of all members is accepted. -/
theorem perm_of_bandPermute {b : Arena} (own : a.band? id = some band)
    (does : (bandPermute id p).Does a () b) : p.Perm (List.range band.nMembers) := by
  simp only [bandPermute, does_bind, does_bandAt] at does
  obtain ⟨other, _, ⟨kind, rfl⟩, does⟩ := does
  obtain rfl : band = other := by simpa [Arena.band?, kind] using own.symm
  by_cases accepted : isPermutation p band.nMembers = true
  · exact isPermutation_iff.mp accepted
  · rw [if_neg accepted] at does
    exact absurd does does_refuse

/-- One order after the other. -/
theorem bandPermute_bandPermute (here : a.node? id = some ⟨.band band, children⟩)
    (arity : band.HasArity) (first : p.Perm (List.range band.nMembers))
    (second : q.Perm (List.range band.nMembers)) :
    (bandPermute id q).Does (a.setNode id ⟨.band (band.membersAt p), children⟩) ()
      (a.setNode id ⟨.band (band.membersAt (compose p q)), children⟩) := by
  have bound : ∀ i ∈ p, i < band.nMembers := fun i member =>
    List.mem_range.mp (first.mem_iff.mp member)
  have stands := a.node?_setNode_self ⟨.band (band.membersAt p), children⟩
    (Arena.lt_size_of_node? here)
  have count : (band.membersAt p).nMembers = band.nMembers := by
    rw [Band.nMembers_membersAt bound, first.length_eq, List.length_range]
  have does := bandPermute_does stands (arity.membersAt bound) (count ▸ second)
  rwa [Arena.setNode_setNode, Band.membersAt_membersAt arity bound] at does

end Edit

/-! ## Splitting -/

namespace Tree

variable {x : Iteration} {id below arity count : Nat} {band upper lower : Band}
  {child : Fin arity → Tree}

/-- The parts of a band evaluate what the band evaluates, in the same order. -/
theorem timestamp_split (split : band.Split count upper lower) :
    (node id (.band upper) 1 fun _ => node below (.band lower) arity child).timestamp x =
      (node id (.band band) arity child).timestamp x := by
  cases own : band.schedule.get? x.stmt with
  | none =>
    have first : upper.schedule.get? x.stmt = none := by
      rw [split.upperExprs, own]
      rfl
    rw [timestamp, timestamp, visits_unscheduled own, visits_unscheduled first]
  | some exprs =>
    have first : upper.schedule.get? x.stmt = some (exprs.take count) := by
      rw [split.upperExprs, own]
      rfl
    have second : lower.schedule.get? x.stmt = some (exprs.drop count) := by
      rw [split.lowerExprs, own]
      rfl
    rw [timestamp, timestamp, visits_scheduled own, visits_scheduled first, visitsBelow_one,
      visits_scheduled second]
    conv_rhs => rw [← List.take_append_drop count exprs, List.mapM_append]
    simp only [map_bind, Functor.map_map, bind_assoc, pure_bind, List.flatMap_cons,
      List.append_assoc]

theorem pieces_split (split : band.Split count upper lower) (stmt : Nat) (start : Piece) :
    (node id (.band upper) 1 fun _ => node below (.band lower) arity child).pieces stmt start =
      (node id (.band band) arity child).pieces stmt start := by
  have exprs : (band.schedule.get? stmt).getD [] =
      (upper.schedule.get? stmt).getD [] ++ (lower.schedule.get? stmt).getD [] := by
    rw [split.upperExprs, split.lowerExprs]
    cases band.schedule.get? stmt <;> simp
  simp [pieces, exprs, List.finRange_succ]

theorem Grafted.pieces {above : List Frame} {t t' whole whole' : Tree} {stmt : Nat}
    (graft : Grafted t t' above whole whole')
    (same : ∀ start, t'.pieces stmt start = t.pieces stmt start) (start : Piece) :
    whole'.pieces stmt start = whole.pieces stmt start := by
  induction graft generalizing start with
  | here => exact same start
  | @inside above id arity kind child c i graft ih =>
    by_cases leaf : kind = .leaf
    · subst leaf
      rfl
    · have each : ∀ j start, (Function.update child i c j).pieces stmt start =
          (child j).pieces stmt start := by
        intro j start
        by_cases here : j = i
        · subst here
          rw [Function.update_self, ih]
        · rw [Function.update_of_ne here]
      simp only [pieces_node stmt leaf, each]

end Tree

namespace Arena

variable {a b : Arena} {above : List Frame} {t t' : Tree}

theorem Exchanges.flatten_eq (exchange : a.Exchanges b above t t')
    (same : ∀ stmt start, t'.pieces stmt start = t.pieces stmt start) : b.flatten = a.flatten := by
  simp only [flatten, exchange.domains, exchange.graft.pieces (same _)]

/-- There are no domains above a band at the root. -/
theorem Locates.domains?_eq_none {id arity : Nat} {band : Band} {child : Fin arity → Tree}
    (located : a.Locates [] (.node id (.band band) arity child)) : a.domains? = none := by
  obtain ⟨whole, top, holds, ⟨⟩⟩ := located
  rw [Arena.domains?, top, Tree.top_node, kind?_eq holds.stored.1]

variable {id below arity count : Nat} {band upper lower : Band} {child : Fin arity → Tree}

/-- A schedule is the same when a band has been split. -/
theorem Locates.split_invisible (located : a.Locates above (.node id (.band band) arity child))
    (split : band.Split count upper lower)
    (rework : a.Reworks b (.node id (.band band) arity child)
      (.node id (.band upper) 1 fun _ => .node below (.band lower) arity child)) :
    (∀ stmt point params, b.timestamp stmt point params = a.timestamp stmt point params) ∧
      b.flatten = a.flatten := by
  by_cases root : above = []
  · subst root
    have before := located.domains?_eq_none
    have after := (located.rework rework).domains?_eq_none
    constructor
    · intro stmt point params
      simp only [timestamp, visits, before, after]
    · simp only [flatten, before, after]
  · have exchange := located.exchanges rework root
    refine ⟨fun stmt point params => ?_, exchange.flatten_eq (Tree.pieces_split split)⟩
    rcases exchange.timestamp_cases (x := ⟨stmt, point, params⟩) rfl with same | ⟨pre, old, new⟩
    · exact same
    · rw [old, new, Tree.timestamp_split split]

end Arena

namespace Edit

variable {a b : Arena} {id count r : Nat} {band : Band} {children : List Nat}

/-- A band is split at a position strictly inside it and nowhere else. -/
theorem bandSplit_does_iff (here : a.node? id = some ⟨.band band, children⟩)
    (arity : band.HasArity) :
    (∃ r b, (bandSplit id count).Does a r b) ↔ 0 < count ∧ count < band.nMembers := by
  simp only [bandSplit, does_bind, does_bandAt, Arena.kind?_eq here]
  constructor
  · rintro ⟨r, b, other, _, ⟨same, rfl⟩, does⟩
    cases same
    by_cases outside : count = 0 ∨ band.nMembers ≤ count
    · rw [if_pos outside] at does
      exact absurd does does_refuse
    · omega
  · rintro ⟨pos, lt⟩
    have upper : band.select (List.range count) = .ok (band.membersAt (List.range count)) :=
      Band.select_eq_membersAt arity fun p member => (List.mem_range.mp member).trans lt
    have lower : band.select (List.range' count (band.nMembers - count)) =
        .ok (band.membersAt (List.range' count (band.nMembers - count))) := by
      refine Band.select_eq_membersAt arity fun p member => ?_
      have := List.mem_range'_1.mp member
      omega
    obtain ⟨r, b, stacked⟩ : ∃ r b, (stackBands id (band.membersAt (List.range count))
        { band.membersAt (List.range' count (band.nMembers - count)) with
          marks := [] }).Does a r b := ⟨_, _, rfl⟩
    refine ⟨r, b, band, a, ⟨rfl, rfl⟩, ?_⟩
    rw [if_neg (by omega)]
    simp only [does_bind, does_lift]
    exact ⟨_, a, ⟨upper, rfl⟩, _, a, ⟨lower, rfl⟩, stacked⟩

/-- Splitting a band shows nowhere, and reordering it is acting by permutations. A band is split at
any position strictly inside it; all time stamps, faults and errors included, and all pieces stay.
It is reordered by the orders of all its members and by nothing else, and nothing but its members
moves. Two orders in turn do what the one composed of them does, and the inverse of an order brings
back the arena as it was. -/
theorem regrouping_laws (wellFormed : a.isWellFormed = true)
    (arities : ∀ i ∈ a.bands, ∀ band ∈ a.band? i, band.HasArity) (reached : id ∈ a.bands)
    (own : a.band? id = some band) :
    (∀ count, ((∃ r b, (bandSplit id count).commit a = .ok (.ok (r, b))) ↔
        0 < count ∧ count < band.nMembers) ∧
      ∀ r b, (bandSplit id count).commit a = .ok (.ok (r, b)) →
        (∀ stmt point params, b.timestamp stmt point params = a.timestamp stmt point params) ∧
        b.flatten = a.flatten) ∧
    (∀ p, ((∃ b, (bandPermute id p).commit a = .ok (.ok ((), b))) ↔
        p.Perm (List.range band.nMembers)) ∧
      ∀ b, (bandPermute id p).commit a = .ok (.ok ((), b)) →
        b.band? id = some (band.membersAt p) ∧ b.children id = a.children id ∧
        ∀ i, i ≠ id → b.node? i = a.node? i) ∧
    (∀ p q, p.Perm (List.range band.nMembers) → q.Perm (List.range band.nMembers) →
      (∀ i : Nat, (compose p q)[i]? = q[i]?.bind (p[·]?)) ∧
      ∃ b c, (bandPermute id p).commit a = .ok (.ok ((), b)) ∧
        (bandPermute id q).commit b = .ok (.ok ((), c)) ∧
        (bandPermute id (compose p q)).commit a = .ok (.ok ((), c)) ∧
        c.band? id = some (band.membersAt (compose p q))) ∧
    ∀ p, p.Perm (List.range band.nMembers) →
      ∃ b, (bandPermute id p).commit a = .ok (.ok ((), b)) ∧
        (bandPermute id (inverse p)).commit b = .ok (.ok ((), a)) := by
  obtain ⟨above, _, arity, child, located⟩ := Arena.exists_locates_band wellFormed reached
  cases own.symm.trans located.holds.band?_eq
  have here := located.holds.stored.1
  have fits : band.HasArity := arities id reached band own
  simp only [commit_eq_ok]
  refine ⟨fun count => ⟨bandSplit_does_iff here fits, fun r b does => ?_⟩,
    fun p => ⟨⟨?_, ?_⟩, ?_⟩, ?_, ?_⟩
  · obtain ⟨upper, lower, split, rework⟩ := bandSplit_reworks located.holds fits does
    exact located.split_invisible split rework
  · rintro ⟨b, does⟩
    exact perm_of_bandPermute own does
  · intro perm
    exact ⟨_, bandPermute_does here fits perm⟩
  · intro b does
    have perm := perm_of_bandPermute own does
    cases (bandPermute_does here fits perm).symm.trans does
    exact Arena.reordered here _
  · intro p q first second
    refine ⟨getElem?_compose first second, _, _, bandPermute_does here fits first,
      bandPermute_bandPermute here fits first second,
      bandPermute_does here fits (compose_perm first second), ?_⟩
    exact (Arena.reordered here _).1
  · intro p perm
    have back := bandPermute_bandPermute here fits perm (inverse_perm perm)
    rw [compose_inverse perm, Band.membersAt_range fits, Arena.setNode_self here] at back
    exact ⟨_, bandPermute_does here fits perm, back⟩

/-- Three loops over one of two statements, with a mark and an option. The second overflows where
`j` is the greatest word. -/
def threeLoops : Arena :=
  let domains : StmtMap Polyhedron := .ofList [(0, .whole 2 0), (1, .whole 2 0)]
  ⟨#[⟨.domain domains, [1]⟩,
    ⟨.band ⟨[⟨true, true⟩, ⟨true, false⟩, ⟨false, false⟩],
      .ofList [(0, [.var 0 2 0, .affine ⟨1, [0, 1], []⟩, .const 7 2 0])], [.simd], .unroll⟩, [2]⟩,
    ⟨.leaf, []⟩], 0⟩

theorem threeLoops_regrouping :
    (∃ b, (bandPermute 1 [1, 2, 0]).commit threeLoops = .ok (.ok ((), b)) ∧
      b.band? 1 = some ⟨[⟨true, false⟩, ⟨false, false⟩, ⟨true, true⟩],
        .ofList [(0, [.affine ⟨1, [0, 1], []⟩, .const 7 2 0, .var 0 2 0])], [.simd], .unroll⟩ ∧
      (bandPermute 1 [2, 0, 1]).commit b = .ok (.ok ((), threeLoops))) ∧
    ∃ r b, (bandSplit 1 2).commit threeLoops = .ok (.ok (r, b)) ∧ b.flatten = threeLoops.flatten ∧
      (b.timestamp 0 [3, 4] []).run = .ok (.ok [3, 5, 7]) ∧
      (b.timestamp 0 [3, Word.greatest] []).run = .error .overflow ∧
      (b.timestamp 1 [3, 4] []).run = .ok (.error (.unscheduled 1 [3, 4] .notInBand)) := by
  have reached : 1 ∈ threeLoops.bands := by decide +kernel
  obtain ⟨split, reorder, -, undone⟩ :=
    regrouping_laws (by decide +kernel) (by decide +kernel) reached rfl
  obtain ⟨m, permuted, back⟩ := undone [1, 2, 0] (by decide)
  obtain ⟨splits, invisible⟩ := split 2
  obtain ⟨r, b, committed⟩ := splits.mpr ⟨by decide, by decide⟩
  obtain ⟨stamps, flat⟩ := invisible r b committed
  refine ⟨⟨m, permuted, ((reorder _).2 m permuted).1, back⟩, r, b, committed, flat, ?_, ?_, ?_⟩
  · rw [stamps]
    decide +kernel
  · rw [stamps]
    decide +kernel
  · rw [stamps]
    decide +kernel

end Edit

end LoopNest
