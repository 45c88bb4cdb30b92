import LoopNest.Proofs.FullGroups
import LoopNest.Proofs.Isolation

/-! When a member of a band becomes a vector loop, the instances that do not come to the band keep
their time stamps, and those that fail keep their errors. An instance that comes to the band and
ends at a leaf gets the number of its tile in place of the entry of the member, the number of its
branch if full tiles are kept apart, and the remainder of the entry last. The loops that give the
remainders stand directly above leaves and are marked for vector code; every other loop was there
before, is a part of the band, or is the loop over the tiles. -/

namespace LoopNest

/-! ## Loops that are made of a member -/

/-- A band of one member of a band, which has for each of its expressions the one that `f` gives. -/
structure Band.OfMember (band : Band) (member : Nat) (f : Quasi → Checked Quasi) (loop : Band) :
    Prop where
  flags : ∃ flags, band.members[member]? = some flags ∧ loop.members = [flags]
  exprs : ∀ stmt es, loop.schedule.get? stmt = some es →
    ∃ q e, band.memberExpr? stmt member = some q ∧ f q = .ok e ∧ es = [e]

/-- A band has the members before a member, those behind it, or goes over its tiles. -/
inductive Band.IsPart (band : Band) (member : Nat) (width : Int) (loop : Band) : Prop where
  | before (pos : 0 < member) (members : loop.members = band.members.take member)
    (exprs : ∀ stmt, loop.schedule.get? stmt = (band.schedule.get? stmt).map (·.take member))
  | tiles (of : band.OfMember member (·.floorDiv width) loop)
  | behind (members : loop.members = band.members.drop (member + 1))
    (exprs : ∀ stmt, loop.schedule.get? stmt = (band.schedule.get? stmt).map (·.drop (member + 1)))

/-- A band goes over the points in the tiles of a member, in vector code. -/
structure Band.IsVector (band : Band) (member : Nat) (width : Int) (loop : Band) : Prop where
  of : band.OfMember member (·.modulo width) loop
  simd : loop.hasMark .simd = true
  noUnroll : loop.loopOption = .noUnroll

namespace Band

variable {band head upper lower loop tiles points : Band} {member : Nat} {width : Int}
  {f : Quasi → Checked Quasi}

theorem OfMember.of_lower (split : band.Split member upper lower) (of : lower.OfMember 0 f loop) :
    band.OfMember member f loop := by
  refine ⟨?_, fun stmt es found => ?_⟩
  · obtain ⟨flags, here, members⟩ := of.flags
    rw [split.lowerMembers, List.getElem?_drop, Nat.add_zero] at here
    exact ⟨flags, here, members⟩
  · obtain ⟨q, e, here, image, rfl⟩ := of.exprs stmt es found
    refine ⟨q, e, ?_, image, rfl⟩
    rw [memberExpr?, split.lowerExprs] at here
    rw [memberExpr?]
    cases own : band.schedule.get? stmt with
    | none => simp [own] at here
    | some fs => simpa [own] using here

theorem OfMember.tile (of : band.OfMember member .ok head)
    (tiled : head.Tiled [width] tiles points) :
    band.OfMember member (·.floorDiv width) tiles ∧
      band.OfMember member (·.modulo width) points := by
  have exprs : ∀ stmt, (∀ ts, tiles.schedule.get? stmt = some ts →
      ∃ q e, band.memberExpr? stmt member = some q ∧ q.floorDiv width = .ok e ∧ ts = [e]) ∧
      ∀ ps, points.schedule.get? stmt = some ps →
      ∃ q e, band.memberExpr? stmt member = some q ∧ q.modulo width = .ok e ∧ ps = [e] := by
    intro stmt
    cases own : head.schedule.get? stmt with
    | none => simp [tiled.unscheduled stmt own]
    | some es =>
      obtain ⟨ts, ps, foundTiles, foundPoints, tiling⟩ := tiled.scheduled stmt es own
      obtain ⟨q, _, here, same, rfl⟩ := of.exprs stmt es own
      cases same
      cases tiling with
      | @cons _ _ _ tile point _ _ _ floor modulo rest =>
        cases rest
        refine ⟨fun _ found => ⟨q, tile, here, floor, ?_⟩,
          fun _ found => ⟨q, point, here, modulo, ?_⟩⟩
        · exact Option.some.inj (found.symm.trans foundTiles)
        · exact Option.some.inj (found.symm.trans foundPoints)
  exact ⟨⟨tiled.tileMembers ▸ of.flags, fun stmt => (exprs stmt).1⟩,
    ⟨tiled.pointMembers ▸ of.flags, fun stmt => (exprs stmt).2⟩⟩

theorem IsPart.of_lower (split : band.Split member upper lower) (part : lower.IsPart 0 width loop) :
    band.IsPart member width loop := by
  cases part with
  | before pos => exact absurd pos (Nat.lt_irrefl 0)
  | tiles of => exact .tiles (of.of_lower split)
  | behind members exprs =>
    refine .behind ?_ fun stmt => ?_
    · rw [members, split.lowerMembers, List.drop_drop]
    · rw [exprs, split.lowerExprs, Option.map_map]
      simp [Function.comp_def]

theorem IsVector.of_lower (split : band.Split member upper lower)
    (vector : lower.IsVector 0 width loop) : band.IsVector member width loop :=
  ⟨vector.of.of_lower split, vector.simd, vector.noUnroll⟩

theorem isVector_of_points (of : band.OfMember member (·.modulo width) points) (stmts : StmtSet) :
    band.IsVector member width ((Edit.markVector points).restrict stmts) := by
  refine ⟨⟨of.flags, fun stmt es found => of.exprs stmt es ?_⟩, ?_, rfl⟩
  · have own : _ = some es := (StmtMap.get?_filter _ _ _).symm.trans found
    split at own
    · exact own
    · cases own
  · simp [hasMark, restrict, Edit.markVector]

end Band

namespace Tree

variable {x : Iteration} {domains : StmtMap Polyhedron} {above : List NodeKind} {width : Int}
  {tiles points head : Band} {t c t' : Tree}

/-! ## What stops an instance -/

theorem Renumbered.obstacle? (renumbered : t.Renumbered t') :
    t'.obstacle? x = t.obstacle? x := by
  induction renumbered with
  | node children ih =>
    exact obstacle?_congr (fun i => ((children i).alike.admits x).symm) fun i _ => ih i

/-- A band that statements of it meet above the leaves stops none of their instances. -/
theorem Sunk.obstacle? {band : Band} {stmts : StmtSet} (sunk : Sunk band stmts t t')
    {exprs : List Quasi} (member : stmts.contains x.stmt = true)
    (found : band.schedule.get? x.stmt = some exprs) : t'.obstacle? x = t.obstacle? x := by
  induction sunk with
  | bare none => rfl
  | leaf moved some => simp [Tree.obstacle?, onward, Band.restrict, member, found]
  | filter children ih =>
    exact obstacle?_congr (fun i => (children i).admits x) fun i passed =>
      ih i (contains_of_passed passed member)
  | inner notLeaf notFilter children ih =>
    exact obstacle?_congr (fun i => (children i).admits x) fun i _ => ih i member

theorem Sunken.obstacle? (sunken : c.Sunken points t') {exprs : List Quasi}
    (found : points.schedule.get? x.stmt = some exprs) : t'.obstacle? x = c.obstacle? x := by
  obtain ⟨s, renumbered, sunk⟩ := sunken
  rw [sunk.obstacle? (StmtMap.contains_keySet found) found, renumbered.obstacle?]

theorem Stripped.obstacle? (stripped : c.Stripped domains above tiles points width t')
    {exprs : List Quasi} (found : points.schedule.get? x.stmt = some exprs) :
    t'.obstacle? x = c.obstacle? x := by
  cases stripped with
  | together sunken branches => exact sunken.obstacle? found
  | @apart id i j stmt guard full partly separates fullTiles partialTiles =>
    rcases onward_apart x i j stmt width guard full partly with
      ⟨-, step, passes⟩ | ⟨-, step, passes⟩
    · rw [obstacle?_next step]
      exact (obstacle?_next passes).trans (fullTiles.obstacle? found)
    · rw [obstacle?_next step]
      exact (obstacle?_next passes).trans (partialTiles.obstacle? found)

theorem obstacle?_split {id arity count : Nat} {band upper lower : Band} (position : Nat)
    (child : Fin arity → Tree) (split : band.Split count upper lower) :
    (node id (.band upper) 1 fun _ => node position (.band lower) arity child).obstacle? x =
      (node id (.band band) arity child).obstacle? x := by
  cases own : band.schedule.get? x.stmt with
  | none => simp [Tree.obstacle?, onward, split.upperExprs, own, NodeKind.obstacle]
  | some es =>
    simp only [Tree.obstacle?, onward, split.upperExprs, split.lowerExprs, own, Option.map_some,
      first_one]
    cases first arity <;> rfl

theorem Heads.obstacle? (heads : Heads t head c) (id : Nat) :
    t.obstacle? x = (node id (.band head) 1 fun _ => c).obstacle? x := by
  cases heads with
  | whole single => exact obstacle?_congr (fun _ => rfl) fun _ _ => rfl
  | @split _ position _ _ _ _ child split =>
    rw [← obstacle?_split position child split]
    exact obstacle?_congr (fun _ => rfl) fun _ _ => rfl

/-- A vector loop stops the instances that the band stopped. -/
theorem Vectorized.obstacle? {own member : Nat}
    (vectorized : Vectorized domains width own member above t t') :
    t'.obstacle? x = t.obstacle? x := by
  induction vectorized with
  | @first above t c t' head tiles points here heads tiled stripped =>
    rw [heads.obstacle? own]
    cases found : head.schedule.get? x.stmt with
    | none =>
      obtain ⟨absent, -⟩ := tiled.unscheduled x.stmt found
      simp [Tree.obstacle?, onward, found, absent, NodeKind.obstacle]
    | some es =>
      obtain ⟨ts, ps, foundTiles, foundPoints, -⟩ := tiled.scheduled x.stmt es found
      rw [obstacle?_next (onward_of_found foundTiles), obstacle?_next (onward_of_found found)]
      exact stripped.obstacle? foundPoints
  | @later member id arity above band upper lower child t' split rest ih =>
    rw [← obstacle?_split own child split]
    exact obstacle?_congr (fun _ => by cases rest <;> rfl) fun _ _ => ih

/-! ## Where a way ends -/

/-- The way of an instance ends with a loop of the band, which gives the entries, and with a leaf
below it. -/
def EndsIn (x : Iteration) (loop : Band) (entries : List Int) (t : Tree) : Prop :=
  ∃ frames front stmts id leaf arity child,
    t.way x = some (front ++ [⟨id, entries⟩, ⟨leaf, []⟩]) ∧
    Under frames t (node id (.band (loop.restrict stmts)) 1 fun _ => node leaf .leaf arity child)

theorem EndsIn.inside {id arity : Nat} {kind : NodeKind} {child : Fin arity → Tree} {i : Fin arity}
    {own entries : List Int} {loop : Band} (step : onward x child kind = some (own, some i))
    (ends : (child i).EndsIn x loop entries) :
    (node id kind arity child).EndsIn x loop entries := by
  obtain ⟨frames, front, stmts, k, leaf, n, below, way, under⟩ := ends
  refine ⟨_, ⟨id, own⟩ :: front, stmts, k, leaf, n, below, ?_, .inside i under⟩
  rw [way_next step, way, Option.map_some, List.cons_append]

theorem endsAtLeaf_cases {id arity : Nat} {kind : NodeKind} {child : Fin arity → Tree}
    (ends : (node id kind arity child).endsAtLeaf x = true) :
    kind = .leaf ∨ ∃ own i, onward x child kind = some (own, some i) ∧
      (child i).endsAtLeaf x = true := by
  rw [endsAtLeaf] at ends
  cases step : onward x child kind with
  | none => simp [step] at ends
  | some r =>
    obtain ⟨own, next?⟩ := r
    cases next? with
    | none => exact .inl (by simpa [step] using ends)
    | some i => exact .inr ⟨own, i, rfl, by simpa [step] using ends⟩

theorem Sunk.endsIn {band : Band} {stmts : StmtSet} (sunk : Sunk band stmts t t')
    {exprs : List Quasi} (member : stmts.contains x.stmt = true)
    (found : band.schedule.get? x.stmt = some exprs) (ends : t.endsAtLeaf x = true) :
    t'.EndsIn x band (x.values exprs) := by
  induction sunk with
  | @bare stmts id arity child none =>
    have : stmts.entries = [] := by simpa [StmtMap.isEmpty] using none
    simp [StmtMap.contains, StmtMap.get?, this] at member
  | @leaf stmts id arity child moved some =>
    refine ⟨[], [], stmts, id, moved, arity, child, ?_, .here _⟩
    have here : (band.restrict stmts).schedule.get? x.stmt = .some exprs := by
      simp [Band.restrict, member, found]
    rw [way_next (onward_of_found here)]
    simp [way, onward]
  | @filter stmts id arity f child child' children ih =>
    rcases endsAtLeaf_cases ends with isLeaf | ⟨own, i, step, ends⟩
    · cases isLeaf
    · have passed : onward x child (.filter f) ≠ none := by simp [step]
      rw [← onward_congr _ fun i => (children i).admits x] at step
      exact .inside step (ih i (contains_of_passed passed member) ends)
  | inner notLeaf notFilter children ih =>
    rcases endsAtLeaf_cases ends with isLeaf | ⟨own, i, step, ends⟩
    · exact absurd isLeaf notLeaf
    · rw [← onward_congr _ fun i => (children i).admits x] at step
      exact .inside step (ih i member ends)

theorem Sunken.endsIn (sunken : c.Sunken points t') {exprs : List Quasi}
    (found : points.schedule.get? x.stmt = some exprs) (ends : c.endsAtLeaf x = true) :
    t'.EndsIn x (Edit.markVector points) (x.values exprs) := by
  obtain ⟨s, renumbered, sunk⟩ := sunken
  rw [renumbered.alike.endsAtLeaf] at ends
  exact sunk.endsIn (StmtMap.contains_keySet found) found ends

theorem Stripped.endsIn (stripped : c.Stripped domains above tiles points width t')
    {exprs : List Quasi} (found : points.schedule.get? x.stmt = some exprs)
    (ends : c.endsAtLeaf x = true) : t'.EndsIn x (Edit.markVector points) (x.values exprs) := by
  cases stripped with
  | together sunken branches => exact sunken.endsIn found ends
  | @apart id i j stmt guard full partly separates fullTiles partialTiles =>
    rcases onward_apart x i j stmt width guard full partly with
      ⟨-, step, passes⟩ | ⟨-, step, passes⟩
    · exact .inside step (.inside passes (fullTiles.endsIn found ends))
    · exact .inside step (.inside passes (partialTiles.endsIn found ends))

/-! ## All loops -/

/-- Every band has the first property, or it has the second and stands directly above a leaf. -/
def EveryLoop (P V : Band → Prop) : Tree → Prop
  | missing _ => True
  | node _ kind arity child =>
    (∀ loop, kind = .band loop → P loop ∨
      V loop ∧ arity = 1 ∧ ∃ leaf n below, ∀ i, child i = node leaf .leaf n below) ∧
    ∀ i, (child i).EveryLoop P V

variable {P V : Band → Prop}

theorem EveryBand.everyLoop (bands : t.EveryBand P) : t.EveryLoop P V := by
  induction t with
  | missing => trivial
  | node id kind arity child ih =>
    exact ⟨fun loop isBand => .inl (bands.1 loop isBand), fun i => ih i (bands.2 i)⟩

theorem Renumbered.everyBand (renumbered : t.Renumbered t') (bands : t.EveryBand P) :
    t'.EveryBand P := by
  induction renumbered with
  | node children ih => exact ⟨bands.1, fun i => ih i (bands.2 i)⟩

theorem Sunk.everyLoop {band : Band} {stmts : StmtSet} (sunk : Sunk band stmts t t')
    (vector : ∀ stmts, V (band.restrict stmts)) (bands : t.EveryBand P) : t'.EveryLoop P V := by
  induction sunk with
  | bare none => exact bands.everyLoop
  | @leaf stmts id arity child moved some =>
    refine ⟨fun loop isBand => .inr ?_, fun _ => bands.everyLoop⟩
    cases isBand
    exact ⟨vector stmts, rfl, moved, arity, child, fun _ => rfl⟩
  | filter children ih => exact ⟨nofun, fun i => ih i (bands.2 i)⟩
  | inner notLeaf notFilter children ih =>
    exact ⟨fun loop isBand => .inl (bands.1 loop isBand), fun i => ih i (bands.2 i)⟩

theorem Sunken.everyLoop (sunken : c.Sunken points t')
    (vector : ∀ stmts, V ((Edit.markVector points).restrict stmts)) (bands : c.EveryBand P) :
    t'.EveryLoop P V := by
  obtain ⟨s, renumbered, sunk⟩ := sunken
  exact sunk.everyLoop vector (renumbered.everyBand bands)

theorem Stripped.everyLoop (stripped : c.Stripped domains above tiles points width t')
    (vector : ∀ stmts, V ((Edit.markVector points).restrict stmts)) (bands : c.EveryBand P) :
    t'.EveryLoop P V := by
  cases stripped with
  | together sunken branches => exact sunken.everyLoop vector bands
  | apart separates fullTiles partialTiles =>
    refine ⟨nofun, Fin.forall_fin_two.mpr ⟨?_, ?_⟩⟩
    · exact ⟨nofun, fun _ => fullTiles.everyLoop vector bands⟩
    · exact ⟨nofun, fun _ => partialTiles.everyLoop vector bands⟩

variable {id arity own member : Nat} {band : Band} {child : Fin arity → Tree}

theorem Heads.ofMember (heads : Heads (node id (.band band) arity child) head c)
    (arities : band.HasArity) : band.OfMember 0 .ok head := by
  have lengths := Band.hasArity_iff.mp arities
  cases heads with
  | whole single =>
    obtain ⟨flags, members⟩ := List.length_eq_one_iff.mp single
    refine ⟨⟨flags, by simp [members], members⟩, fun stmt es found => ?_⟩
    obtain ⟨q, rfl⟩ := List.length_eq_one_iff.mp ((lengths stmt es found).trans single)
    exact ⟨q, q, by simp [Band.memberExpr?, found], rfl, rfl⟩
  | split split =>
    refine ⟨?_, fun stmt es found => ?_⟩
    · have some : 0 < band.members.length := Nat.zero_lt_of_lt split.lt
      refine ⟨band.members.get ⟨0, some⟩, by simp, ?_⟩
      rw [split.upperMembers, List.take_one, List.head?_eq_getElem?]
      simp [some]
    · rw [split.upperExprs, Option.map_eq_some_iff] at found
      obtain ⟨fs, own, rfl⟩ := found
      cases fs with
      | nil =>
        have := split.lt
        have := lengths stmt [] own
        simp only [List.length_nil] at this
        omega
      | cons q rest => exact ⟨q, q, by simp [Band.memberExpr?, own], rfl, rfl⟩

theorem Vectorized.everyLoop_first
    (vectorized : Vectorized domains width own 0 above (node id (.band band) arity child) t')
    (arities : band.HasArity) (kept : ∀ i, (child i).EveryBand P)
    (part : ∀ loop, band.IsPart 0 width loop → P loop)
    (vector : ∀ loop, band.IsVector 0 width loop → V loop) : t'.EveryLoop P V := by
  cases vectorized with
  | later split => exact absurd split.pos (Nat.lt_irrefl 0)
  | first here heads tiled stripped =>
    obtain ⟨ofTiles, ofPoints⟩ := (heads.ofMember arities).tile tiled
    refine ⟨fun loop isBand => .inl ?_, fun _ =>
      stripped.everyLoop (fun stmts => vector _ (Band.isVector_of_points ofPoints stmts)) ?_⟩
    · cases isBand
      exact part _ (.tiles ofTiles)
    · cases heads with
      | whole single => exact kept 0
      | split split =>
        exact everyBand_band.mpr ⟨part _ (.behind split.lowerMembers split.lowerExprs), kept⟩

/-- The loops of a tree in which a member has become a vector loop. -/
theorem Vectorized.everyLoop
    (vectorized : Vectorized domains width own member above (node id (.band band) arity child) t')
    (arities : band.HasArity) (kept : ∀ i, (child i).EveryBand P)
    (part : ∀ loop, band.IsPart member width loop → P loop)
    (vector : ∀ loop, band.IsVector member width loop → V loop) : t'.EveryLoop P V := by
  cases vectorized with
  | first here heads tiled stripped =>
    exact (Vectorized.first here heads tiled stripped).everyLoop_first arities kept part vector
  | later split rest =>
    refine ⟨fun loop isBand => .inl ?_, fun _ => ?_⟩
    · cases isBand
      exact part _ (.before split.pos split.upperMembers split.upperExprs)
    · apply rest.everyLoop_first (split.hasArity arities).2 kept
      · exact fun loop isPart => part loop (isPart.of_lower split)
      · exact fun loop isVector => vector loop (isVector.of_lower split)

theorem Vectorized.endsIn_first
    (vectorized : Vectorized domains width own 0 above (node id (.band band) arity child) t')
    (arities : band.HasArity) {es : List Quasi} (found : band.schedule.get? x.stmt = some es)
    {q : Quasi} (atMember : es[0]? = some q)
    (ends : (node id (.band band) arity child).endsAtLeaf x = true) :
    ∃ points, band.OfMember 0 (·.modulo width) points ∧
      t'.EndsIn x (Edit.markVector points) [(x.value q).fmod width] := by
  cases vectorized with
  | later split => exact absurd split.pos (Nat.lt_irrefl 0)
  | @first _ _ _ _ _ _ points here heads tiled stripped =>
    obtain ⟨_, _, rfl, loop, -⟩ := heads.exprs arities found
    cases atMember
    obtain ⟨ts, ps, foundTiles, foundPoints, tiling⟩ := tiled.scheduled x.stmt _ loop
    rw [heads.endsAtLeaf loop] at ends
    have below := stripped.endsIn foundPoints ends
    rw [tiling.values_points] at below
    exact ⟨points, ((heads.ofMember arities).tile tiled).2,
      .inside (onward_of_found foundTiles) below⟩

/-- The last loop on the way to a leaf is a vector loop, and gives the remainder. -/
theorem Vectorized.endsIn
    (vectorized : Vectorized domains width own member above (node id (.band band) arity child) t')
    (arities : band.HasArity) {es : List Quasi} (found : band.schedule.get? x.stmt = some es)
    {q : Quasi} (atMember : es[member]? = some q)
    (ends : (node id (.band band) arity child).endsAtLeaf x = true) :
    ∃ points, band.OfMember member (·.modulo width) points ∧
      t'.EndsIn x (Edit.markVector points) [(x.value q).fmod width] := by
  cases vectorized with
  | first here heads tiled stripped =>
    exact (Vectorized.first here heads tiled stripped).endsIn_first arities found atMember ends
  | @later _ _ _ _ _ upper lower _ _ split rest =>
    have foundUpper : upper.schedule.get? x.stmt = some (es.take member) := by
      simp [split.upperExprs, found]
    have foundLower : lower.schedule.get? x.stmt = some (es.drop member) := by
      simp [split.lowerExprs, found]
    rw [endsAtLeaf_band found] at ends
    obtain ⟨points, of, below⟩ := rest.endsIn_first (split.hasArity arities).2 foundLower
      (by simpa using atMember) ((endsAtLeaf_band foundLower).trans ends)
    exact ⟨points, of.of_lower split, .inside (onward_of_found foundUpper) below⟩

/-- A node of the new tree stands in what replaces a tree, or stood outside of the tree. -/
theorem Grafted.inside_or_outside {a : Arena} {frames : List Frame} {whole whole' : Tree}
    (graft : Grafted t t' frames whole whole') (holds : a.Holds whole) {k : Nat}
    (inside : k ∈ whole'.ids) : k ∈ t'.ids ∨ k ∈ whole.ids ∧ k ∉ t.ids := by
  induction graft with
  | here => exact .inl inside
  | @inside above id arity kind child c i graft ih =>
    obtain ⟨outside, -, apart⟩ := nodup_ids_node.mp holds.distinct
    have within : ∀ k ∈ t.ids, k ∈ (child i).ids := fun _ => graft.symm.under.mem_ids
    rcases mem_ids_node.mp inside with rfl | ⟨j, inside⟩
    · exact .inr ⟨mem_ids_node.mpr (.inl rfl), fun old => outside i (within _ old)⟩
    · by_cases here : j = i
      · subst here
        rw [Function.update_self] at inside
        rcases ih (holds.child j) inside with new | ⟨old, other⟩
        · exact .inl new
        · exact .inr ⟨mem_ids_node.mpr (.inr ⟨j, old⟩), other⟩
      · rw [Function.update_of_ne here] at inside
        refine .inr ⟨mem_ids_node.mpr (.inr ⟨j, inside⟩), fun old => ?_⟩
        exact apart j i here k inside (within k old)

end Tree

namespace Arena

variable {a b : Arena}

def IsAboveLeaf (b : Arena) (id : Nat) : Prop :=
  ∃ leaf, b.children id = [leaf] ∧ b.kind? leaf = some .leaf

theorem Holds.isAboveLeaf {id leaf arity : Nat} {kind : NodeKind} {child : Fin arity → Tree}
    (holds : b.Holds (.node id kind 1 fun _ => .node leaf .leaf arity child)) : b.IsAboveLeaf id :=
  ⟨leaf, by simp [children_eq holds.stored.1], kind?_eq (holds.child 0).stored.1⟩

theorem Holds.of_everyLoop {P V : Band → Prop} {t : Tree} (holds : b.Holds t)
    (every : t.EveryLoop P V) {id : Nat} (inside : id ∈ t.ids) {loop : Band}
    (here : b.band? id = some loop) : P loop ∨ V loop ∧ b.IsAboveLeaf id := by
  induction t with
  | missing => exact holds.stored.elim
  | node top kind arity child ih =>
    rcases Tree.mem_ids_node.mp inside with rfl | ⟨i, inside⟩
    · have isBand : kind = .band loop := by
        rw [band?, kind?_eq holds.stored.1] at here
        cases kind <;> simp_all
      rcases every.1 loop isBand with kept | ⟨vector, rfl, leaf, n, below, only⟩
      · exact .inl kept
      · obtain rfl : child = fun _ => .node leaf .leaf n below := funext only
        exact .inr ⟨vector, holds.isAboveLeaf⟩
    · exact ih i (holds.child i) (every.2 i) inside

/-- Full tiles have been kept apart below the loop at `own`, by new filters for the width. -/
def KeepsApart (a b : Arena) (own : Nat) (width : Int) (full : TileFilter) : Prop :=
  ∃ seq i j, b.children own = [seq] ∧ b.kind? seq = some .sequence ∧ b.children seq = [i, j] ∧
    a.size ≤ i ∧ b.kind? i = some (.filter (.tiles full)) ∧
    b.kind? j = some (.filter (.tiles { full with kind := .partly })) ∧
    full.kind = .full ∧ full.width = width

/-- What an instance gets for its branch: nothing if full tiles have not been kept apart, and else 0
or 1, as it passes the filter for full tiles or does not. -/
def BranchEntry (a b : Arena) (own : Nat) (width : Int) (x : Iteration) (branch : List Int) :
    Prop :=
  (∀ full, ¬a.KeepsApart b own width full) ∧ branch = [] ∨
    ∃ full, a.KeepsApart b own width full ∧
      branch = [if Filter.admits x (.tiles full) then 0 else 1]

end Arena

/-! ## Time stamps at leaves -/

namespace Tree

variable {a b : Arena} {x : Iteration} {domains : StmtMap Polyhedron} {width : Int}
  {own member id arity : Nat} {band head tiles points : Band} {child : Fin arity → Tree}
  {around : List NodeKind} {c s t' : Tree}

theorem Under.top_notMem {frames : List Frame} {whole : Tree} {kind : NodeKind}
    (under : Under frames whole (node id kind arity child)) (holds : b.Holds whole)
    (i : Fin arity) : whole.top ∉ (child i).ids := by
  intro inside
  cases under with
  | here => exact (nodup_ids_node.mp holds.distinct).1 i inside
  | inside j under =>
    refine (nodup_ids_node.mp holds.distinct).1 j ?_
    exact under.mem_ids (mem_ids_node.mpr (.inr ⟨i, inside⟩))

/-- Below the loop over tiles an instance gets the entry of its branch. -/
theorem VectorLoop.exists_branch
    (loop : VectorLoop domains width own member id band child t' around head tiles points c s)
    (holds : a.Holds (node id (.band band) arity child))
    (rework : a.Reworks b (node id (.band band) arity child) t') {exprs : List Quasi}
    (found : points.schedule.get? x.stmt = some exprs) (ends : c.endsAtLeaf x = true) :
    ∃ branch, a.BranchEntry b own width x branch ∧
      s.stamp x = (c.stamp x).map fun r => branch ++ (r ++ x.values exprs) := by
  obtain ⟨frames, under⟩ := loop.under
  have held := under.holds rework.holds
  cases loop.stripped with
  | together sunken same =>
    refine ⟨[], .inl ⟨?_, rfl⟩, by simp [sunken.stamp found, ends]⟩
    rintro full ⟨seq, i, j, below, isSequence, branches, new, -⟩
    have stored := (held.child 0).stored
    have inside : i ∈ c.branches := by
      rw [← same]
      cases s with
      | missing => exact stored.elim
      | node top kind n child' =>
        obtain rfl : top = seq := by simpa [Arena.children_eq held.stored.1] using below
        obtain rfl : kind = .sequence := by simpa [Arena.kind?_eq stored.1] using isSequence
        have tops : (List.ofFn fun k => (child' k).top) = [i, j] :=
          (Arena.children_eq stored.1).symm.trans branches
        rw [Tree.branches, tops]
        exact List.mem_cons_self
    obtain ⟨k, old⟩ := loop.branches i inside
    exact Nat.not_lt_of_le new ((holds.child k).stored.lt_size old)
  | @apart seq i j stmt guard full partly separates fullTiles partialTiles new =>
    have inS : i ∈ (keptApart seq i j stmt width guard full partly).ids := by
      simp [Tree.ids, List.finRange_succ]
    have fresh : a.size ≤ i := by
      have inT : i ∈ t'.ids := under.mem_ids (mem_ids_node.mpr (.inr ⟨0, inS⟩))
      rcases rework.fresh i inT with old | fresh
      · rcases mem_ids_node.mp old with rfl | ⟨k, old⟩
        · exact absurd (rework.top ▸ inS) (under.top_notMem rework.holds 0)
        · exact absurd (loop.covers k i old) new
      · exact fresh
    refine ⟨[if (TileFilter.ofGuard .full width stmt guard).isFull x then 0 else 1],
      .inr ⟨.ofGuard .full width stmt guard,
        ⟨seq, i, j, ?_, ?_, ?_, fresh, ?_, ?_, rfl, rfl⟩, rfl⟩, ?_⟩
    · simp [Arena.children_eq held.stored.1]
    · exact Arena.kind?_eq (held.child 0).stored.1
    · simp [Arena.children_eq (held.child 0).stored.1]
    · exact Arena.kind?_eq ((held.child 0).child 0).stored.1
    · exact Arena.kind?_eq ((held.child 0).child 1).stored.1
    · rw [stamp_apart, fullTiles.stamp found, partialTiles.stamp found, ends]
      split <;> simp [Function.comp_def]

/-- The time stamp of an instance that comes to the band and ends at a leaf. -/
theorem VectorLoop.stamp_leaf
    (loop : VectorLoop domains width own member id band child t' around head tiles points c s)
    (holds : a.Holds (node id (.band band) arity child))
    (rework : a.Reworks b (node id (.band band) arity child) t') {vs : List Int}
    {later : List Visit}
    (way : (node id (.band band) arity child).way x = some (⟨id, vs⟩ :: later))
    (ends : (node id (.band band) arity child).endsAtLeaf x = true) :
    ∃ es q branch, band.schedule.get? x.stmt = some es ∧ es[member]? = some q ∧
      vs = x.values es ∧ a.BranchEntry b own width x branch ∧
      t'.stamp x = some (vs.take member ++ (x.value q).fdiv width :: (branch ++
        (vs.drop (member + 1) ++ later.flatMap (·.entries) ++ [(x.value q).fmod width]))) := by
  have stamp : (node id (.band band) arity child).stamp x =
      some (vs ++ later.flatMap (·.entries)) := by
    rw [Tree.stamp, way, Option.map_some, List.flatMap_cons]
  obtain ⟨es, -, found, -, -⟩ := stamp_band_eq_some.mp stamp
  obtain ⟨_, split⟩ := entries_of_way way found
  cases split
  obtain ⟨q, atMember, loopHere⟩ := loop.loop _ _ found
  obtain ⟨ts, ps, -, foundPoints, tiling⟩ := loop.tiled.scheduled _ _ loopHere
  rw [loop.ends x es found] at ends
  obtain ⟨branch, entry, below⟩ := loop.exists_branch holds rework foundPoints ends
  rw [loop.old x es q found atMember, Option.map_eq_some_iff] at stamp
  obtain ⟨rest, belowOld, same⟩ := stamp
  have parts : x.values es = x.values (es.take member) ++ x.value q ::
      x.values (es.drop (member + 1)) := by
    obtain ⟨bound, rfl⟩ := List.getElem?_eq_some_iff.mp atMember
    simp only [Iteration.values, ← List.map_cons, ← List.map_append]
    rw [← List.drop_eq_getElem_cons bound, List.take_append_drop]
  rw [parts, List.append_assoc, List.append_cancel_left_eq, List.cons_append,
    List.cons.injEq] at same
  refine ⟨es, q, branch, found, atMember, rfl, entry, ?_⟩
  rw [loop.new x es q found atMember, below, belowOld, same.2, tiling.values_points]
  simp [Iteration.values]

end Tree

namespace Edit

variable {a b : Arena} {id own member : Nat} {width : Int}

/-- The last loop on the way of an instance, once a band has been replaced. -/
theorem exists_last {x : Iteration} {t' : Tree} {band points : Band} {entries : List Int}
    (holds : b.Holds t') (of : band.OfMember member (·.modulo width) points)
    (ends : t'.EndsIn x (markVector points) entries) :
    ∃ front k leaf loop, t'.way x = some (front ++ [⟨k, entries⟩, ⟨leaf, []⟩]) ∧
      b.band? k = some loop ∧ band.IsVector member width loop ∧ b.IsAboveLeaf k := by
  obtain ⟨inner, front, stmts, k, leaf, n, below, found, under⟩ := ends
  have held := under.holds holds
  exact ⟨front, k, leaf, _, found, held.band?_eq, Band.isVector_of_points of stmts,
    held.isAboveLeaf⟩

/-- Each loop of the new tree was there before, is a part of the band, or is a vector loop. -/
theorem loops_of_vectorized {frames : List Frame} {band : Band} {arity : Nat}
    {child : Fin arity → Tree} {t' : Tree} {domains : StmtMap Polyhedron} {above : List NodeKind}
    (located : a.Locates frames (.node id (.band band) arity child)) (arities : band.HasArity)
    (reworks : a.Reworks b (.node id (.band band) arity child) t')
    (replaces : a.Replaces b frames (.node id (.band band) arity child) t')
    (vectorized : Tree.Vectorized domains width own member above
      (.node id (.band band) arity child) t') {k : Nat} {loop : Band} (reached : k ∈ b.bands)
    (here : b.band? k = some loop) :
    (∃ k' ∈ a.bands, k' ≠ id ∧ a.band? k' = some loop) ∨ band.IsPart member width loop ∨
      band.IsVector member width loop ∧ b.IsAboveLeaf k := by
  have inBands : ∀ k, k ∈ a.bands ↔ k ∈ a.tree.ids ∧ (a.band? k).isSome = true := fun _ =>
    Arena.mem_bands replaces.holds located.root_eq
  obtain ⟨outside, -, -⟩ := Tree.nodup_ids_node.mp located.holds.distinct
  obtain ⟨inside, -⟩ :=
    (Arena.mem_bands replaces.holds' (located.rework reworks).root_eq).mp reached
  rcases replaces.graft.inside_or_outside replaces.holds inside with new | ⟨old, other⟩
  · have kept : ∀ i, (child i).EveryBand fun loop =>
        (∃ k' ∈ a.bands, k' ≠ id ∧ a.band? k' = some loop) ∨ band.IsPart member width loop := by
      intro i
      refine (located.holds.child i).everyBand fun k' member loop found => .inl ⟨k', ?_, ?_, found⟩
      · refine (inBands k').mpr ⟨replaces.graft.symm.under.mem_ids ?_, by simp [found]⟩
        exact Tree.mem_ids_node.mpr (.inr ⟨i, member⟩)
      · rintro rfl
        exact outside i member
    have every := vectorized.everyLoop arities kept (fun _ part => .inr part)
      (V := band.IsVector member width) fun _ vector => vector
    rcases reworks.holds.of_everyLoop every new here with (kept | part) | vector
    · exact .inl kept
    · exact .inr (.inl part)
    · exact .inr (.inr vector)
  · have same := reworks.frame k (replaces.holds.stored.lt_size old) other
    rw [Arena.band?, Arena.kind?, same] at here
    refine .inl ⟨k, (inBands k).mpr ⟨old, ?_⟩, ?_, here⟩
    · rw [Arena.band?, Arena.kind?, here]
      rfl
    · rintro rfl
      exact other (Tree.mem_ids_node.mpr (.inl rfl))

/-- The effect of making a member of a band a vector loop. The instances that do not come to the
band keep their time stamps, and those without a time stamp their errors. An instance that comes to
the band and ends at a leaf gets the number of its tile in place of the entry of the member, then
the entry of its branch, and the remainder last. This comes from a vector loop, and each other loop
was there before or is a part of the band. The only exception is a word that overflows. -/
theorem prevectorize_exact (h : (prevectorize id member width).commit a = .ok (.ok (own, b)))
    (wellFormed : a.isWellFormed = true)
    (arities : ∀ i ∈ a.bands, ∀ band ∈ a.band? i, band.HasArity) (reached : id ∈ a.bands) :
    ∃ band, a.band? id = some band ∧ a.KeepsElsewhere b id ∧
      (∀ (x : Iteration) pre vs later,
        (a.visits x.stmt x.point x.params).run = .ok (.ok (pre ++ ⟨id, vs⟩ :: later)) →
        a.EndsAtLeaf (pre ++ ⟨id, vs⟩ :: later) →
        ∃ v branch front k leaf loop, vs[member]? = some v ∧ a.BranchEntry b own width x branch ∧
          (b.timestamp x.stmt x.point x.params).Yields
            (.ok (pre.flatMap (·.entries) ++ vs.take member ++ [v.fdiv width] ++ branch ++
              vs.drop (member + 1) ++ later.flatMap (·.entries) ++ [v.fmod width])) ∧
          (b.visits x.stmt x.point x.params).Yields
            (.ok (front ++ [⟨k, [v.fmod width]⟩, ⟨leaf, []⟩])) ∧
          b.band? k = some loop ∧ band.IsVector member width loop ∧ b.IsAboveLeaf k) ∧
      ∀ k ∈ b.bands, ∀ loop ∈ b.band? k,
        (∃ k' ∈ a.bands, k' ≠ id ∧ a.band? k' = some loop) ∨ band.IsPart member width loop ∨
          band.IsVector member width loop ∧ b.IsAboveLeaf k := by
  have everyBand := Optimizer.everyBand_of_bands wellFormed arities
  obtain ⟨frames, band, arity, child, t', located, bands, reworks, replaces, vectorized⟩ :=
    prevectorize_replaces h wellFormed everyBand reached
  have arityHere := bands.1 band rfl
  obtain ⟨around, head, tiles, points, c, s, loop⟩ := vectorized.loop located.holds.stored.2 bands
  refine ⟨band, located.holds.band?_eq, replaces.keepsElsewhere (fun _ => vectorized.obstacle?)
    (fun _ => vectorized.proper), ?_, fun k inside own here =>
      loops_of_vectorized located arityHere reworks replaces vectorized inside here⟩
  intro x pre vs later walk leaf
  obtain ⟨-, below⟩ := replaces.arrives walk
  have ends : (Tree.node id (.band band) arity child).endsAtLeaf x = true := by
    rw [Arena.EndsAtLeaf, List.getLast?_append, List.getLast?_cons, Option.some_or,
      ← List.getLast?_cons] at leaf
    exact (Tree.endsAtLeaf_iff located.holds.stored below).mpr leaf
  obtain ⟨es, q, branch, found, atMember, rfl, entry, stamp⟩ :=
    loop.stamp_leaf located.holds reworks below ends
  obtain ⟨points, of, endsIn⟩ := vectorized.endsIn arityHere found atMember ends
  obtain ⟨front, k, leaf, last, way, here, vector, aboveLeaf⟩ :=
    exists_last reworks.holds of endsIn
  refine ⟨x.value q, branch, pre ++ front, k, leaf, last, by simp [Iteration.values, atMember],
    entry, ?_, ?_, here, vector, aboveLeaf⟩
  · simpa using replaces.yields_through vectorized.proper walk stamp
  · rw [List.append_assoc]
    exact replaces.yields_way vectorized.proper walk way

/-- The first of the two loops of the grid becomes a vector loop. -/
theorem grid_vectorized_exact : ∃ b band branch k leaf loop front,
    (prevectorize 1 0 4).commit Scop.grid.schedule = .ok (.ok (1, b)) ∧
    Scop.grid.schedule.band? 1 = some band ∧ Scop.grid.schedule.KeepsElsewhere b 1 ∧
    Scop.grid.schedule.BranchEntry b 1 4 ⟨0, [5, 6], []⟩ branch ∧
    (b.timestamp 0 [5, 6] []).run = .ok (.ok ([1] ++ branch ++ [6] ++ [1])) ∧
    (b.visits 0 [5, 6] []).run = .ok (.ok (front ++ [⟨k, [1]⟩, ⟨leaf, []⟩])) ∧
    b.band? k = some loop ∧ band.IsVector 0 4 loop ∧ b.IsAboveLeaf k := by
  obtain ⟨⟨own, b⟩, h, facts⟩ : ∃ value : Nat × Arena,
      (prevectorize 1 0 4).commit Scop.grid.schedule = .ok (.ok value) ∧
      decide (value.1 = 1 ∧ (value.2.timestamp 0 [5, 6] []).run = .ok (.ok [1, 0, 6, 1]) ∧
        (value.2.visits 0 [5, 6] []).run = .ok (.ok [⟨0, []⟩, ⟨1, [1]⟩, ⟨4, [0]⟩, ⟨8, []⟩,
          ⟨7, [6]⟩, ⟨5, [1]⟩, ⟨13, []⟩])) = true :=
    exists_ok_of_any (by decide +kernel)
  obtain ⟨rfl, stamp, way⟩ := of_decide_eq_true facts
  have old : (Scop.grid.schedule.visits 0 [5, 6] []).run =
      .ok (.ok ([⟨0, []⟩] ++ ⟨1, [5, 6]⟩ :: [⟨2, []⟩])) := by decide +kernel
  obtain ⟨band, here, keeps, through, -⟩ :=
    prevectorize_exact h (by decide +kernel) (by decide +kernel) (by decide +kernel)
  obtain ⟨v, branch, front, k, leaf, loop, isFirst, entry, stamps, ways, found, vector,
    aboveLeaf⟩ := through ⟨0, [5, 6], []⟩ _ _ _ old (by decide +kernel)
  obtain rfl : 5 = v := Option.some.inj isFirst
  refine ⟨b, band, branch, k, leaf, loop, front, h, here, keeps, entry, ?_, ?_, found, vector,
    aboveLeaf⟩
  · rw [stamp, ← stamps.eq_of_run stamp]
    simp
  · exact way.trans (congrArg _ (ways.eq_of_run way).symm)

/-- An instance that comes to the band and ends at a filter without a child gets the number of its
tile in place of the entry of the member, and nothing more. -/
theorem leaflessGrid_loses_remainder : ∃ b,
    Scop.leaflessGrid.schedule.isWellFormed = true ∧
    (∀ i ∈ Scop.leaflessGrid.schedule.bands, ∀ band ∈ Scop.leaflessGrid.schedule.band? i,
      band.HasArity) ∧
    1 ∈ Scop.leaflessGrid.schedule.bands ∧
    (prevectorize 1 1 4).commit Scop.leaflessGrid.schedule = .ok (.ok (5, b)) ∧
    (Scop.leaflessGrid.schedule.visits 0 [0, 5] []).run =
      .ok (.ok [⟨0, []⟩, ⟨1, [0, 5]⟩, ⟨2, [0]⟩, ⟨3, []⟩]) ∧
    Scop.leaflessGrid.schedule.kind? 3 ≠ some .leaf ∧
    (Scop.leaflessGrid.schedule.timestamp 0 [0, 5] []).run = .ok (.ok [0, 5, 0]) ∧
    (b.timestamp 0 [0, 5] []).run = .ok (.ok [0, 1, 0, 0]) := by
  obtain ⟨⟨own, b⟩, h, facts⟩ : ∃ value : Nat × Arena,
      (prevectorize 1 1 4).commit Scop.leaflessGrid.schedule = .ok (.ok value) ∧
      decide (value.1 = 5 ∧ (value.2.timestamp 0 [0, 5] []).run = .ok (.ok [0, 1, 0, 0])) = true :=
    exists_ok_of_any (by decide +kernel)
  obtain ⟨rfl, stamp⟩ := of_decide_eq_true facts
  exact ⟨b, by decide +kernel, by decide +kernel, by decide +kernel, h, by decide +kernel,
    by decide +kernel, by decide +kernel, stamp⟩

end Edit

end LoopNest
