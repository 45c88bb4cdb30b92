import LoopNest.Proofs.Way
import LoopNest.Schedule.Edit
import Mathlib.Data.List.Basic
import Mathlib.Data.List.Nodup
import Mathlib.Data.List.Perm.Basic

/-! Tiling, splitting and reordering make bands of the expressions of a band. What they make is said
here statement by statement, together with what it means for the values that the members take. -/

namespace LoopNest

namespace StmtMap

variable {α β : Type}

theorem get?_eq_some_iff {m : StmtMap α} {stmt : Nat} {value : α} :
    m.get? stmt = some value ↔ (stmt, value) ∈ m.entries := by
  obtain ⟨entries, sorted⟩ := m
  simp only [get?]
  induction entries with
  | nil => simp
  | cons head rest ih =>
    obtain ⟨s, v⟩ := head
    obtain ⟨above, tail⟩ := List.pairwise_cons.mp sorted
    by_cases same : s = stmt
    · subst same
      have outside : (s, value) ∉ rest := fun member => absurd (above _ member) (by simp)
      simp [outside, eq_comm]
    · simpa [same, Ne.symm same] using ih tail

theorem contains_keySet {m : StmtMap α} {stmt : Nat} {value : α}
    (found : m.get? stmt = some value) : m.keySet.contains stmt = true := by
  simp [contains, keySet, found]

theorem mem_keys_iff {m : StmtMap α} {stmt : Nat} : stmt ∈ m.keys ↔ m.contains stmt = true := by
  simp only [contains, Option.isSome_iff_exists, get?_eq_some_iff, keys, List.mem_map]
  constructor
  · rintro ⟨⟨s, v⟩, member, rfl⟩
    exact ⟨v, member⟩
  · rintro ⟨v, member⟩
    exact ⟨_, member, rfl⟩

section Entries

variable {old : List (Nat × α)} {new : List (Nat × β)}

theorem keys_eq_of_forall₂ (each : List.Forall₂ (fun e e' => e.1 = e'.1) old new) :
    old.map (·.1) = new.map (·.1) := by
  induction each with
  | nil => rfl
  | cons head _ ih => simp [head, ih]

theorem rel_find?_of_forall₂ (R : α → β → Prop) (stmt : Nat)
    (each : List.Forall₂ (fun e e' => e.1 = e'.1 ∧ R e.2 e'.2) old new) :
    Option.Rel R ((old.find? (·.1 = stmt)).map (·.2)) ((new.find? (·.1 = stmt)).map (·.2)) := by
  induction each with
  | nil => exact .none
  | @cons e e' _ _ head _ ih =>
    by_cases here : e.1 = stmt
    · simpa [here, ← head.1] using Option.Rel.some head.2
    · simpa [here, ← head.1] using ih

end Entries

/-- What a computation on all values of a table does to the value of one statement. -/
theorem get?_traverse {f : α → Checked β} {m : StmtMap α} {m' : StmtMap β}
    (h : m.traverse f = .ok m') (stmt : Nat) :
    Option.Rel (fun v w => f v = .ok w) (m.get? stmt) (m'.get? stmt) := by
  simp only [traverse, Checked.bind_eq_ok_iff] at h
  obtain ⟨entries, mapped, h⟩ := h
  cases h
  have each : List.Forall₂ (fun e e' => e.1 = e'.1 ∧ f e.2 = .ok e'.2) m.entries entries := by
    refine (mapM_eq_ok mapped).imp fun e e' h => ?_
    obtain ⟨w, hw, h⟩ := Checked.bind_eq_ok_iff.mp h
    cases h
    exact ⟨rfl, hw⟩
  have sorted : entries.Pairwise fun a b => a.1 < b.1 := by
    have := List.pairwise_map.mpr m.sorted
    rw [keys_eq_of_forall₂ (each.imp fun _ _ h => h.1)] at this
    exact List.pairwise_map.mp this
  simp only [get?, entries_ofList sorted]
  exact rel_find?_of_forall₂ (fun v w => f v = .ok w) stmt each

theorem get?_traverse_none {f : α → Checked β} {m : StmtMap α} {m' : StmtMap β} {stmt : Nat}
    (h : m.traverse f = .ok m') (absent : m.get? stmt = none) : m'.get? stmt = none := by
  have rel := get?_traverse h stmt
  rw [absent] at rel
  generalize m'.get? stmt = w at rel
  cases rel
  rfl

theorem get?_traverse_some {f : α → Checked β} {m : StmtMap α} {m' : StmtMap β} {stmt : Nat}
    {value : α} (h : m.traverse f = .ok m') (found : m.get? stmt = some value) :
    ∃ w, m'.get? stmt = some w ∧ f value = .ok w := by
  have rel := get?_traverse h stmt
  rw [found] at rel
  generalize m'.get? stmt = w at rel
  cases rel with
  | some computed => exact ⟨_, rfl, computed⟩

end StmtMap

namespace Band

instance (band : Band) : Decidable band.HasArity := by
  unfold HasArity; infer_instance

/-- The expressions of a scheduled statement are as many as the members. -/
theorem hasArity_iff {band : Band} : band.HasArity ↔
    ∀ stmt exprs, band.schedule.get? stmt = some exprs → exprs.length = band.nMembers := by
  simp only [HasArity, StmtMap.get?_eq_some_iff]
  exact ⟨fun h stmt exprs member => h _ member, fun h e member => h _ _ member⟩

theorem getElem?_pick {α : Type} {items picked : List α} {positions : List Nat}
    (h : pick items positions = .ok picked) (i : Nat) :
    picked[i]? = positions[i]?.bind (items[·]?) := by
  have each : List.Forall₂ (fun p item => items[p]? = some item) positions picked := by
    refine (mapM_eq_ok h).imp fun p item found => ?_
    cases here : items[p]? with
    | none => simp [here] at found
    | some other =>
      simp only [here, Except.ok.injEq] at found
      rw [found]
  clear h
  induction each generalizing i with
  | nil => simp
  | cons head _ ih =>
    cases i with
    | zero => simp [head]
    | succ i => simpa using ih i

theorem pick_range {α : Type} {items picked : List α} {count : Nat}
    (h : pick items (List.range count) = .ok picked) : picked = items.take count := by
  refine List.ext_getElem? fun i => ?_
  rw [getElem?_pick h, List.getElem?_take]
  by_cases bound : i < count <;> simp [bound]

theorem pick_range' {α : Type} {items picked : List α} {start count : Nat}
    (length : items.length = start + count)
    (h : pick items (List.range' start count) = .ok picked) : picked = items.drop start := by
  refine List.ext_getElem? fun i => ?_
  rw [getElem?_pick h, List.getElem?_drop]
  by_cases bound : i < count
  · simp [bound]
  · rw [List.getElem?_eq_none (by simpa using bound), List.getElem?_eq_none (by omega)]
    rfl

theorem select_eq_ok {band selected : Band} {positions : List Nat}
    (h : band.select positions = .ok selected) :
    pick band.members positions = .ok selected.members ∧
      band.schedule.traverse (pick · positions) = .ok selected.schedule := by
  simp only [select, Checked.bind_eq_ok_iff] at h
  obtain ⟨members, hm, schedule, hs, h⟩ := h
  cases h
  exact ⟨hm, hs⟩

/-- One band has the first members of a band, another the rest. -/
structure Split (band : Band) (count : Nat) (upper lower : Band) : Prop where
  pos : 0 < count
  lt : count < band.nMembers
  upperMembers : upper.members = band.members.take count
  lowerMembers : lower.members = band.members.drop count
  upperExprs : ∀ stmt, upper.schedule.get? stmt = (band.schedule.get? stmt).map (·.take count)
  lowerExprs : ∀ stmt, lower.schedule.get? stmt = (band.schedule.get? stmt).map (·.drop count)

theorem split_of_select {band upper lower : Band} {count : Nat} (arity : band.HasArity)
    (pos : 0 < count) (lt : count < band.nMembers)
    (hu : band.select (List.range count) = .ok upper)
    (hl : band.select (List.range' count (band.nMembers - count)) = .ok lower) :
    band.Split count upper lower := by
  obtain ⟨um, ue⟩ := select_eq_ok hu
  obtain ⟨lm, le⟩ := select_eq_ok hl
  have whole : count + (band.nMembers - count) = band.nMembers := by omega
  refine ⟨pos, lt, pick_range um, pick_range' whole.symm lm, fun stmt => ?_, fun stmt => ?_⟩
  · cases own : band.schedule.get? stmt with
    | none => exact StmtMap.get?_traverse_none ue own
    | some es =>
      obtain ⟨us, found, picked⟩ := StmtMap.get?_traverse_some ue own
      rw [found, pick_range picked, Option.map_some]
  · cases own : band.schedule.get? stmt with
    | none => exact StmtMap.get?_traverse_none le own
    | some es =>
      obtain ⟨ls, found, picked⟩ := StmtMap.get?_traverse_some le own
      have length : es.length = count + (band.nMembers - count) := by
        rw [hasArity_iff.mp arity stmt es own, whole]
      rw [found, pick_range' length picked, Option.map_some]

theorem Split.nMembers_upper {band upper lower : Band} {count : Nat}
    (split : band.Split count upper lower) : upper.nMembers = count := by
  have := split.lt
  rw [nMembers] at this
  rw [nMembers, split.upperMembers, List.length_take]
  omega

theorem Split.nMembers_lower {band upper lower : Band} {count : Nat}
    (split : band.Split count upper lower) : lower.nMembers = band.nMembers - count := by
  rw [nMembers, split.lowerMembers, List.length_drop, nMembers]

theorem Split.hasArity {band upper lower : Band} {count : Nat}
    (split : band.Split count upper lower) (arity : band.HasArity) :
    upper.HasArity ∧ lower.HasArity := by
  constructor <;> refine hasArity_iff.mpr fun stmt exprs found => ?_
  · rw [split.upperExprs, Option.map_eq_some_iff] at found
    obtain ⟨es, own, rfl⟩ := found
    have := split.lt
    rw [List.length_take, hasArity_iff.mp arity stmt es own, split.nMembers_upper]
    omega
  · rw [split.lowerExprs, Option.map_eq_some_iff] at found
    obtain ⟨es, own, rfl⟩ := found
    rw [List.length_drop, hasArity_iff.mp arity stmt es own, split.nMembers_lower]

/-- Expressions, each with that of its tile and that of its position in the tile. -/
inductive Tiling : List Int → List Quasi → List Quasi → List Quasi → Prop where
  | nil : Tiling [] [] [] []
  | cons {size : Int} {sizes : List Int} {e tile point : Quasi} {es tiles points : List Quasi}
    (floor : e.floorDiv size = .ok tile) (modulo : e.modulo size = .ok point)
    (rest : Tiling sizes es tiles points) :
    Tiling (size :: sizes) (e :: es) (tile :: tiles) (point :: points)

theorem tiling_of_zipSizes {es tiles points : List Quasi} {sizes : List Int}
    (length : es.length = sizes.length) (ht : zipSizes Quasi.floorDiv es sizes = .ok tiles)
    (hp : zipSizes Quasi.modulo es sizes = .ok points) : Tiling sizes es tiles points := by
  induction es generalizing sizes tiles points with
  | nil =>
    obtain rfl : sizes = [] := by simpa using length.symm
    cases ht
    cases hp
    exact .nil
  | cons e es ih =>
    cases sizes with
    | nil => simp at length
    | cons size sizes =>
      simp only [zipSizes, List.zip_cons_cons, List.mapM_cons, Checked.bind_eq_ok_iff] at ht hp
      obtain ⟨tile, floor, ts, hts, ht⟩ := ht
      obtain ⟨point, modulo, ps, hps, hp⟩ := hp
      cases ht
      cases hp
      exact .cons floor modulo (ih (by simpa using length) hts hps)

namespace Tiling

variable {sizes : List Int} {es tiles points : List Quasi}

theorem values_tiles (tiling : Tiling sizes es tiles points) (x : Iteration) :
    x.values tiles = (x.values es).zipWith Int.fdiv sizes := by
  induction tiling with
  | nil => rfl
  | cons floor modulo rest ih =>
    simpa [Iteration.values, Iteration.value, Quasi.value_floorDiv floor] using ih

theorem values_points (tiling : Tiling sizes es tiles points) (x : Iteration) :
    x.values points = (x.values es).zipWith Int.fmod sizes := by
  induction tiling with
  | nil => rfl
  | cons floor modulo rest ih =>
    simpa [Iteration.values, Iteration.value, Quasi.value_modulo modulo] using ih

theorem lengths (tiling : Tiling sizes es tiles points) :
    sizes.length = es.length ∧ tiles.length = es.length ∧ points.length = es.length := by
  induction tiling with
  | nil => exact ⟨rfl, rfl, rfl⟩
  | cons floor modulo rest ih => simpa using ih

theorem pos (tiling : Tiling sizes es tiles points) {size : Int} (member : size ∈ sizes) :
    0 < size := by
  induction tiling with
  | nil => simp at member
  | cons floor modulo rest ih =>
    rcases List.mem_cons.mp member with rfl | member
    · exact (Quasi.floorDiv_cases floor).1
    · exact ih member

theorem row (tiling : Tiling sizes es tiles points) {i : Nat} (within : i < es.length) :
    ∃ size e tile point, sizes[i]? = some size ∧ es[i]? = some e ∧ tiles[i]? = some tile ∧
      points[i]? = some point ∧ e.floorDiv size = .ok tile ∧ e.modulo size = .ok point := by
  induction tiling generalizing i with
  | nil => simp at within
  | @cons size _ e tile point _ _ _ floor modulo rest ih =>
    cases i with
    | zero => exact ⟨size, e, tile, point, rfl, rfl, rfl, rfl, floor, modulo⟩
    | succ i => simpa using ih (by simpa using within)

end Tiling

/-- One band goes over the tiles of a band, another over the points of a tile. -/
structure Tiled (band : Band) (sizes : List Int) (tiles points : Band) : Prop where
  tileMembers : tiles.members = band.members
  pointMembers : points.members = band.members
  unscheduled : ∀ stmt, band.schedule.get? stmt = none →
    tiles.schedule.get? stmt = none ∧ points.schedule.get? stmt = none
  scheduled : ∀ stmt es, band.schedule.get? stmt = some es →
    ∃ ts ps, tiles.schedule.get? stmt = some ts ∧ points.schedule.get? stmt = some ps ∧
      Tiling sizes es ts ps

theorem tiled_of_tiles_points {band tiles points : Band} {sizes : List Int} (arity : band.HasArity)
    (length : sizes.length = band.nMembers) (ht : band.tiles sizes = .ok tiles)
    (hp : band.points sizes = .ok points) : band.Tiled sizes tiles points := by
  simp only [Band.tiles, Band.points, Checked.bind_eq_ok_iff] at ht hp
  obtain ⟨tileExprs, hts, ht⟩ := ht
  obtain ⟨pointExprs, hps, hp⟩ := hp
  cases ht
  cases hp
  refine ⟨rfl, rfl, fun stmt absent => ?_, fun stmt es own => ?_⟩
  · exact ⟨StmtMap.get?_traverse_none hts absent, StmtMap.get?_traverse_none hps absent⟩
  · obtain ⟨ts, foundTiles, tile⟩ := StmtMap.get?_traverse_some hts own
    obtain ⟨ps, foundPoints, point⟩ := StmtMap.get?_traverse_some hps own
    refine ⟨ts, ps, foundTiles, foundPoints, tiling_of_zipSizes ?_ tile point⟩
    rw [hasArity_iff.mp arity stmt es own, length]

theorem Tiled.exists_exprs {band tiles points : Band} {sizes : List Int}
    (tiled : band.Tiled sizes tiles points) {stmt : Nat} {ps : List Quasi}
    (found : points.schedule.get? stmt = some ps) :
    ∃ es ts, band.schedule.get? stmt = some es ∧ tiles.schedule.get? stmt = some ts ∧
      Tiling sizes es ts ps := by
  cases own : band.schedule.get? stmt with
  | none => simp [tiled.unscheduled stmt own] at found
  | some es =>
    obtain ⟨ts, ps', foundTiles, found', tiling⟩ := tiled.scheduled stmt es own
    cases found.symm.trans found'
    exact ⟨es, ts, rfl, foundTiles, tiling⟩

theorem Tiled.hasArity {band tiles points : Band} {sizes : List Int}
    (tiled : band.Tiled sizes tiles points) (arity : band.HasArity) :
    tiles.HasArity ∧ points.HasArity := by
  have sameTiles : tiles.nMembers = band.nMembers := congrArg List.length tiled.tileMembers
  have samePoints : points.nMembers = band.nMembers := congrArg List.length tiled.pointMembers
  constructor <;> refine hasArity_iff.mpr fun stmt exprs found => ?_
  all_goals
    cases own : band.schedule.get? stmt with
    | none => simp [tiled.unscheduled stmt own] at found
    | some es =>
      obtain ⟨ts, ps, foundTiles, foundPoints, tiling⟩ := tiled.scheduled stmt es own
      obtain ⟨-, lengthTiles, lengthPoints⟩ := tiling.lengths
      have length := hasArity_iff.mp arity stmt es own
      simp_all

theorem Tiled.isSome {stmt : Nat} {band tiles points : Band} {sizes : List Int}
    (tiled : band.Tiled sizes tiles points) :
    (tiles.schedule.get? stmt).isSome = (band.schedule.get? stmt).isSome ∧
      (points.schedule.get? stmt).isSome = (band.schedule.get? stmt).isSome := by
  cases own : band.schedule.get? stmt with
  | none => simp [tiled.unscheduled stmt own]
  | some es =>
    obtain ⟨ts, ps, foundTiles, foundPoints, -⟩ := tiled.scheduled stmt es own
    simp [foundTiles, foundPoints]

/-- The old member at `positions[i]` is the new member at `i`. -/
structure Permuted (band : Band) (positions : List Nat) (permuted : Band) : Prop where
  length : positions.length = band.nMembers
  bound : ∀ p ∈ positions, p < band.nMembers
  distinct : positions.Nodup
  members : ∀ i : Nat, permuted.members[i]? = positions[i]?.bind (band.members[·]?)
  unscheduled : ∀ stmt, band.schedule.get? stmt = none → permuted.schedule.get? stmt = none
  scheduled : ∀ stmt es, band.schedule.get? stmt = some es →
    ∃ fs, permuted.schedule.get? stmt = some fs ∧ ∀ i : Nat, fs[i]? = positions[i]?.bind (es[·]?)

theorem permuted_of_select {band permuted : Band} {positions : List Nat}
    (permutation : Edit.isPermutation positions band.nMembers = true)
    (h : band.select positions = .ok permuted) : band.Permuted positions permuted := by
  obtain ⟨members, exprs⟩ := select_eq_ok h
  simp only [Edit.isPermutation, Bool.and_eq_true, decide_eq_true_eq, List.all_eq_true]
    at permutation
  obtain ⟨⟨length, bound⟩, distinct⟩ := permutation
  refine ⟨length, bound, distinct, getElem?_pick members, fun stmt absent => ?_,
    fun stmt es own => ?_⟩
  · exact StmtMap.get?_traverse_none exprs absent
  · obtain ⟨fs, found, picked⟩ := StmtMap.get?_traverse_some exprs own
    exact ⟨fs, found, getElem?_pick picked⟩

theorem Permuted.exists_exprs {band permuted : Band} {positions : List Nat}
    (h : band.Permuted positions permuted) {stmt : Nat} {fs : List Quasi}
    (found : permuted.schedule.get? stmt = some fs) :
    ∃ es, band.schedule.get? stmt = some es ∧ ∀ i : Nat, fs[i]? = positions[i]?.bind (es[·]?) := by
  cases own : band.schedule.get? stmt with
  | none => simp [h.unscheduled stmt own] at found
  | some es =>
    obtain ⟨fs', found', each⟩ := h.scheduled stmt es own
    cases found.symm.trans found'
    exact ⟨es, rfl, each⟩

theorem Permuted.isSome {stmt : Nat} {band permuted : Band} {positions : List Nat}
    (h : band.Permuted positions permuted) :
    (permuted.schedule.get? stmt).isSome = (band.schedule.get? stmt).isSome := by
  cases own : band.schedule.get? stmt with
  | none => simp [h.unscheduled stmt own]
  | some es =>
    obtain ⟨fs, found, -⟩ := h.scheduled stmt es own
    simp [found]

/-- Distinct positions below a bound, as many as there are, are all of them. -/
theorem perm_range {positions : List Nat} {n : Nat} (length : positions.length = n)
    (bound : ∀ p ∈ positions, p < n) (distinct : positions.Nodup) :
    positions.Perm (List.range n) := by
  have subset : positions ⊆ List.range n := fun q member => List.mem_range.mpr (bound q member)
  exact (List.subperm_of_subset distinct subset).perm_of_length_le (by simp [length])

/-- Every old member is a new member. -/
theorem Permuted.exists_position {band permuted : Band} {positions : List Nat}
    (h : band.Permuted positions permuted) {p : Nat} (within : p < band.nMembers) :
    ∃ i : Nat, positions[i]? = some p := by
  have all := perm_range h.length h.bound h.distinct
  exact List.mem_iff_getElem?.mp (all.mem_iff.mpr (List.mem_range.mpr within))

/-- A list that a permutation makes of another is as long. -/
theorem length_of_getElem?_permuted {α : Type} {positions : List Nat} {old new : List α}
    (length : positions.length = old.length) (bound : ∀ p ∈ positions, p < old.length)
    (each : ∀ i : Nat, new[i]? = positions[i]?.bind (old[·]?)) : new.length = old.length := by
  have within : ∀ i : Nat, new.length ≤ i ↔ positions.length ≤ i := by
    intro i
    rw [← List.getElem?_eq_none_iff, each i]
    by_cases inside : i < positions.length
    · have := bound positions[i] (by simp)
      simp [inside, this]
    · simp [inside, Nat.le_of_not_lt inside]
  have := within new.length
  have := within positions.length
  omega

theorem Permuted.nMembers_eq {band permuted : Band} {positions : List Nat}
    (h : band.Permuted positions permuted) : permuted.nMembers = band.nMembers :=
  length_of_getElem?_permuted h.length h.bound h.members

theorem Permuted.hasArity {band permuted : Band} {positions : List Nat}
    (h : band.Permuted positions permuted) (arity : band.HasArity) : permuted.HasArity := by
  refine hasArity_iff.mpr fun stmt fs found => ?_
  obtain ⟨es, own, each⟩ := h.exists_exprs found
  have length := hasArity_iff.mp arity stmt es own
  have exprs := length_of_getElem?_permuted (h.length.trans length.symm)
    (fun p member => length ▸ h.bound p member) each
  rw [exprs, length, h.nMembers_eq]

/-- Loops that may be exchanged may still be exchanged in another order. -/
theorem Permuted.isPermutable {band permuted : Band} {positions : List Nat}
    (h : band.Permuted positions permuted) (permutable : band.isPermutable = true) :
    permuted.isPermutable = true := by
  have count := h.nMembers_eq
  simp only [Band.isPermutable, Bool.and_eq_true, Bool.not_eq_true', List.isEmpty_eq_false_iff,
    List.all_eq_true, nMembers] at permutable count ⊢
  refine ⟨?_, fun member inside => ?_⟩
  · rw [← List.length_pos_iff_ne_nil, count]
    exact List.length_pos_iff_ne_nil.mpr permutable.1
  · obtain ⟨i, found⟩ := List.mem_iff_getElem?.mp inside
    rw [h.members, Option.bind_eq_some_iff] at found
    obtain ⟨p, -, old⟩ := found
    exact permutable.2 member (List.mem_of_getElem? old)

/-! ## Values of the members at two instances -/

variable {x y : Iteration}

theorem length_values_eq {band : Band} (arity : band.HasArity) {es fs : List Quasi}
    (foundX : band.schedule.get? x.stmt = some es) (foundY : band.schedule.get? y.stmt = some fs) :
    (x.values es).length = (y.values fs).length := by
  simp [hasArity_iff.mp arity _ _ foundX, hasArity_iff.mp arity _ _ foundY]

/-- A quotient and a remainder tell the value. -/
theorem value_eq_of_tiled {e e' tile tile' point point' : Quasi} {size : Int}
    (floor : e.floorDiv size = .ok tile) (floor' : e'.floorDiv size = .ok tile')
    (modulo : e.modulo size = .ok point) (modulo' : e'.modulo size = .ok point')
    (tiles : x.value tile = y.value tile') (points : x.value point = y.value point') :
    x.value e = y.value e' := by
  simp only [Iteration.value, Quasi.value_floorDiv floor, Quasi.value_floorDiv floor',
    Quasi.value_modulo modulo, Quasi.value_modulo modulo'] at tiles points ⊢
  rw [← Int.mul_fdiv_add_fmod (e.value x.point x.params) size, tiles, points,
    Int.mul_fdiv_add_fmod]

theorem Tiling.values_eq {sizes : List Int} {es fs ts us ps qs : List Quasi}
    (left : Tiling sizes es ts ps) (right : Tiling sizes fs us qs)
    (tiles : x.values ts = y.values us) (points : x.values ps = y.values qs) :
    x.values es = y.values fs := by
  induction left generalizing fs us qs with
  | nil =>
    cases right
    rfl
  | @cons size sizes e tile point es ts ps floor modulo rest ih =>
    cases right with
    | @cons _ _ e' tile' point' fs us qs floor' modulo' rest' =>
      simp only [Iteration.values, List.map_cons, List.cons.injEq] at tiles points ⊢
      exact ⟨value_eq_of_tiled floor floor' modulo modulo' tiles.1 points.1,
        ih rest' tiles.2 points.2⟩

/-- The expressions stay the same ones. -/
theorem Permuted.mem_iff {band permuted : Band} {positions : List Nat}
    (h : band.Permuted positions permuted) {es fs : List Quasi} (length : es.length = band.nMembers)
    (each : ∀ i : Nat, fs[i]? = positions[i]?.bind (es[·]?)) {e : Quasi} : e ∈ fs ↔ e ∈ es := by
  simp only [List.mem_iff_getElem?]
  constructor
  · rintro ⟨i, here⟩
    rw [each, Option.bind_eq_some_iff] at here
    obtain ⟨p, -, here⟩ := here
    exact ⟨p, here⟩
  · rintro ⟨p, here⟩
    obtain ⟨i, position⟩ := h.exists_position (length ▸ (List.getElem?_eq_some_iff.mp here).1)
    exact ⟨i, by rw [each, position, Option.bind_some, here]⟩

theorem Permuted.getElem?_values {positions : List Nat} {es fs : List Quasi}
    (each : ∀ i : Nat, fs[i]? = positions[i]?.bind (es[·]?)) (i : Nat) :
    (x.values fs)[i]? = positions[i]?.bind ((x.values es)[·]?) := by
  simp only [Iteration.values, List.getElem?_map, each i, Option.map_bind]
  rfl

/-- Members in another order tell the values. -/
theorem Permuted.values_eq {band permuted : Band} {positions : List Nat}
    (h : band.Permuted positions permuted) (arity : band.HasArity) {es fs es' fs' : List Quasi}
    (foundX : band.schedule.get? x.stmt = some es) (foundY : band.schedule.get? y.stmt = some fs)
    (eachX : ∀ i : Nat, es'[i]? = positions[i]?.bind (es[·]?))
    (eachY : ∀ i : Nat, fs'[i]? = positions[i]?.bind (fs[·]?))
    (same : x.values es' = y.values fs') : x.values es = y.values fs := by
  refine List.ext_getElem? fun p => ?_
  by_cases within : p < band.nMembers
  · obtain ⟨i, here⟩ := h.exists_position within
    have left := getElem?_values (x := x) eachX i
    have right := getElem?_values (x := y) eachY i
    rw [here, Option.bind_some] at left right
    rw [← left, ← right, same]
  · rw [List.getElem?_eq_none, List.getElem?_eq_none]
    · simpa [hasArity_iff.mp arity _ _ foundY] using within
    · simpa [hasArity_iff.mp arity _ _ foundX] using within

end Band

end LoopNest
