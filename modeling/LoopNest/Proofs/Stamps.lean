import LoopNest.Proofs.Inherited

/-! What splitting a band, and making one of its loops a vector loop, does to the time stamps of the
instances that come to it. The entries of the members before and behind stay; the entry of the
vector loop is divided by the width, and its remainder comes last. -/

namespace LoopNest

namespace Tree

variable {x : Iteration}

theorem stamp_only (id : Nat) (band : Band) (c : Tree) :
    (node id (.band band) 1 fun _ => c).stamp x =
      (band.schedule.get? x.stmt).bind fun exprs => (c.stamp x).map (x.values exprs ++ ·) := by
  rw [stamp_band, first_one, after_some]

theorem onward_band {arity : Nat} {child : Fin arity → Tree} {band : Band} {es : List Quasi}
    {entries : List Int} {next? : Option (Fin arity)}
    (h : onward x child (.band band) = some (entries, next?))
    (found : band.schedule.get? x.stmt = some es) : entries = x.values es := by
  simp only [onward, found, Option.map_some, Option.some.injEq, Prod.mk.injEq] at h
  exact h.1.symm

theorem entries_of_way {id arity : Nat} {band : Band} {child : Fin arity → Tree}
    {visits : List Visit} {es : List Quasi}
    (way : (node id (.band band) arity child).way x = some visits)
    (found : band.schedule.get? x.stmt = some es) :
    ∃ later, visits = ⟨id, x.values es⟩ :: later := by
  obtain ⟨entries, later, rfl, ⟨on, -⟩ | ⟨i, on, -⟩⟩ := way_eq_some way <;>
  exact ⟨later, by rw [onward_band on found]⟩

theorem endsAtLeaf_band {id arity : Nat} {band : Band} {child : Fin arity → Tree}
    {exprs : List Quasi} (found : band.schedule.get? x.stmt = some exprs) :
    (node id (.band band) arity child).endsAtLeaf x =
      ((first arity).elim false fun i => (child i).endsAtLeaf x) := by
  simp only [endsAtLeaf, onward, found, Option.map_some]
  cases first arity <;> simp

/-- Splitting a band keeps time stamps. -/
theorem stamp_split {id arity count : Nat} {band upper lower : Band} (position : Nat)
    (child : Fin arity → Tree) (split : band.Split count upper lower) :
    (node id (.band upper) 1 fun _ => node position (.band lower) arity child).stamp x =
      (node id (.band band) arity child).stamp x := by
  rw [stamp_only, stamp_band, stamp_band, split.upperExprs, split.lowerExprs]
  cases band.schedule.get? x.stmt with
  | none => rfl
  | some exprs =>
    simp only [Option.map_some, Option.bind_some, Option.map_map]
    congr 1
    funext rest
    simp [Iteration.values, ← List.append_assoc]

theorem Heads.stamp {t c : Tree} {head : Band} (heads : Heads t head c) (id : Nat) :
    t.stamp x = (node id (.band head) 1 fun _ => c).stamp x := by
  cases heads with
  | whole single => rw [stamp_only, stamp_only]
  | split split => exact (stamp_split _ _ split).symm.trans (by rw [stamp_only, stamp_only])

theorem Heads.endsAtLeaf {t c : Tree} {head : Band} {exprs : List Quasi} (heads : Heads t head c)
    (found : head.schedule.get? x.stmt = some exprs) : t.endsAtLeaf x = c.endsAtLeaf x := by
  cases heads with
  | whole single => exact endsAtLeaf_band found
  | @split _ _ _ band _ rest _ split =>
    rw [split.upperExprs, Option.map_eq_some_iff] at found
    obtain ⟨es, own, -⟩ := found
    have foundRest : rest.schedule.get? x.stmt = some (es.drop 1) := by simp [split.lowerExprs, own]
    rw [endsAtLeaf_band own, endsAtLeaf_band foundRest]

/-- The first expression of a band is that of its head, and the others come below it. -/
theorem Heads.exprs {id arity : Nat} {band head : Band} {child : Fin arity → Tree} {c : Tree}
    (heads : Heads (node id (.band band) arity child) head c) (arities : band.HasArity) {stmt : Nat}
    {es : List Quasi} (found : band.schedule.get? stmt = some es) :
    ∃ q rest, es = q :: rest ∧ head.schedule.get? stmt = some [q] ∧
      ∀ e ∈ rest, e ∈ c.exprs stmt := by
  have length := Band.hasArity_iff.mp arities stmt es found
  cases heads with
  | whole single =>
    obtain ⟨q, rfl⟩ := List.length_eq_one_iff.mp (length.trans single)
    exact ⟨q, [], rfl, found, by simp⟩
  | @split _ _ _ _ _ rest _ split =>
    cases es with
    | nil =>
      have := split.lt
      simp only [List.length_nil] at length
      omega
    | cons q others =>
      refine ⟨q, others, rfl, by simp [split.upperExprs, found], fun e member => ?_⟩
      have foundRest : rest.schedule.get? stmt = some others := by simp [split.lowerExprs, found]
      simp [Tree.exprs, NodeKind.exprs, foundRest, member]

/-- An instance goes through the filter for full tiles or through the one for partial tiles. -/
theorem onward_apart (x : Iteration) (i j stmt : Nat) (width : Int) (guard : Guard)
    (full partly : Tree) :
    (TileFilter.ofGuard .full width stmt guard).isFull x = true ∧
      onward x ![node i (.filter (.tiles (.ofGuard .full width stmt guard))) 1 fun _ => full,
        node j (.filter (.tiles (.ofGuard .partly width stmt guard))) 1 fun _ => partly]
          .sequence = some ([0], some 0) ∧
      onward x (fun _ : Fin 1 => full) (.filter (.tiles (.ofGuard .full width stmt guard))) =
        some ([], some 0) ∨
    (TileFilter.ofGuard .full width stmt guard).isFull x = false ∧
      onward x ![node i (.filter (.tiles (.ofGuard .full width stmt guard))) 1 fun _ => full,
        node j (.filter (.tiles (.ofGuard .partly width stmt guard))) 1 fun _ => partly]
          .sequence = some ([1], some 1) ∧
      onward x (fun _ : Fin 1 => partly) (.filter (.tiles (.ofGuard .partly width stmt guard))) =
        some ([], some 0) := by
  have branches : List.finRange 2 = [0, 1] := rfl
  have whole : Filter.admits x (.tiles (.ofGuard .full width stmt guard)) =
      (TileFilter.ofGuard .full width stmt guard).isFull x := rfl
  have others : Filter.admits x (.tiles (.ofGuard .partly width stmt guard)) =
      !(TileFilter.ofGuard .full width stmt guard).isFull x := rfl
  cases inFull : (TileFilter.ofGuard .full width stmt guard).isFull x with
  | true => simp [onward, branches, admits, whole, inFull]
  | false => simp [onward, branches, admits, whole, others, inFull]

/-- Full tiles come first, partial tiles second. -/
theorem stamp_apart {id i j stmt : Nat} {width : Int} {guard : Guard} {full partly : Tree} :
    (node id .sequence 2
      ![node i (.filter (.tiles (.ofGuard .full width stmt guard))) 1 fun _ => full,
        node j (.filter (.tiles (.ofGuard .partly width stmt guard))) 1 fun _ => partly]).stamp x =
      if (TileFilter.ofGuard .full width stmt guard).isFull x then (full.stamp x).map (0 :: ·)
      else (partly.stamp x).map (1 :: ·) := by
  rcases onward_apart x i j stmt width guard full partly with
    ⟨inFull, step, passes⟩ | ⟨inPart, step, passes⟩
  · simp [stamp_node, step, passes, after, inFull]
  · simp [stamp_node, step, passes, after, inPart]

/-- Below the loop over tiles an instance gets the number of its branch, if full tiles are kept
apart, then its entries, then those of the loop over points if its way ends at a leaf. -/
theorem Stripped.stamp {domains : StmtMap Polyhedron} {above : List NodeKind} {tiles points : Band}
    {width : Int} {c t' : Tree} (stripped : c.Stripped domains above tiles points width t') :
    ∃ choice : Iteration → List Int, (∀ x y, (choice x).length = (choice y).length) ∧
      (∀ x y, (∀ stmt guard,
        Separates domains above tiles points (c.exprs stmt) width stmt guard →
          (TileFilter.ofGuard .full width stmt guard).isFull x =
            (TileFilter.ofGuard .full width stmt guard).isFull y) → choice x = choice y) ∧
      ∀ x exprs, points.schedule.get? x.stmt = some exprs → t'.stamp x =
        (c.stamp x).map fun r => choice x ++ (r ++ if c.endsAtLeaf x then
          x.values exprs else []) := by
  cases stripped with
  | together sunken branches =>
    exact ⟨fun _ => [], fun _ _ => rfl, fun _ _ _ => rfl, fun x exprs found => sunken.stamp found⟩
  | @apart id i j stmt guard full partly separates fullTiles partialTiles =>
    refine ⟨fun x => if (TileFilter.ofGuard .full width stmt guard).isFull x then [0] else [1],
      fun x y => ?_, fun x y same => ?_, fun x exprs found => ?_⟩
    · dsimp only
      split <;> split <;> rfl
    · simp only [same stmt guard separates]
    · rw [stamp_apart, fullTiles.stamp found, partialTiles.stamp found]
      by_cases inFull : (TileFilter.ofGuard .full width stmt guard).isFull x = true <;>
        simp [inFull, Function.comp_def]

end Tree

end LoopNest
