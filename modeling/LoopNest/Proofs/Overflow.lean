import LoopNest.Proofs.Bands
import LoopNest.Tiling.FullTile

/-! Sums, multiples and substitutions of expressions have a result unless a word overflows. So have
quotients and remainders if the divisor is positive, and all that tiling and the guards of full
tiles are made of. -/

namespace LoopNest

namespace Checked

variable {α β : Type}

/-- Unless it has a result, the computation overflows. -/
def OnlyOverflows (c : Checked α) : Prop := ∀ fault, c = .error fault → fault = .overflow

/-- A computation in two steps fails in the first step, or in the second. -/
theorem bind_eq_error_iff {β : Type} {x : Checked α} {f : α → Checked β} {fault : Fault} :
    x >>= f = .error fault ↔ x = .error fault ∨ ∃ a, x = .ok a ∧ f a = .error fault := by
  cases x <;> simp [bind, Except.bind]

@[simp] theorem onlyOverflows_ok {value : α} : OnlyOverflows (.ok value : Checked α) := by
  intro fault h
  cases h

@[simp] theorem onlyOverflows_pure {value : α} : OnlyOverflows (pure value : Checked α) :=
  onlyOverflows_ok

/-- A later step may fail only where the first has a result. -/
@[simp] theorem onlyOverflows_bind {c : Checked α} {f : α → Checked β} :
    (c >>= f).OnlyOverflows ↔ c.OnlyOverflows ∧ ∀ r, c = .ok r → (f r).OnlyOverflows := by
  cases c with
  | error fault => simp [OnlyOverflows, bind, Except.bind]
  | ok value => simp [bind, Except.bind]

@[simp] theorem onlyOverflows_map {c : Checked α} {f : α → β} :
    (f <$> c).OnlyOverflows ↔ c.OnlyOverflows := by
  cases c with
  | error fault => simp [OnlyOverflows, Functor.map, Except.map]
  | ok value => simp [Functor.map, Except.map]

@[simp] theorem onlyOverflows_mapM {f : α → Checked β} {items : List α}
    (each : ∀ item ∈ items, (f item).OnlyOverflows) : (items.mapM f).OnlyOverflows := by
  induction items with
  | nil => simp
  | cons item rest ih =>
    have later := ih fun other member => each other (by simp [member])
    simp [List.mapM_cons, each item (by simp), later]

@[simp] theorem onlyOverflows_foldlM {f : β → α → Checked β} {items : List α} {start : β}
    (each : ∀ before item, (f before item).OnlyOverflows) :
    (items.foldlM f start).OnlyOverflows := by
  induction items generalizing start with
  | nil => simp
  | cons item rest ih => simp [List.foldlM_cons, each, ih]

/-- Unless it overflows, the computation has a result, and the result has the property. -/
def Ensures (c : Checked α) (property : α → Prop) : Prop :=
  c = .error .overflow ∨ ∃ result, c = .ok result ∧ property result

theorem ensures_iff {c : Checked α} {property : α → Prop} :
    c.Ensures property ↔ c.OnlyOverflows ∧ ∀ result, c = .ok result → property result := by
  cases c with
  | error fault => simp [Ensures, OnlyOverflows]
  | ok value => simp [Ensures]

theorem ensures_pure {value : α} {property : α → Prop} (holds : property value) :
    (pure value : Checked α).Ensures property := .inr ⟨value, rfl, holds⟩

theorem Ensures.bind {c : Checked α} {f : α → Checked β} {first : α → Prop} {second : β → Prop}
    (now : c.Ensures first) (next : ∀ r, first r → (f r).Ensures second) :
    (c >>= f).Ensures second := by
  rcases now with rfl | ⟨r, rfl, holds⟩
  · exact .inl rfl
  · exact next r holds

theorem Ensures.imp {c : Checked α} {weak strong : α → Prop} (h : c.Ensures strong)
    (weaken : ∀ r, strong r → weak r) : c.Ensures weak := by
  rcases h with overflows | ⟨r, found, holds⟩
  · exact .inl overflows
  · exact .inr ⟨r, found, weaken r holds⟩

end Checked

open Checked

namespace Word

variable {a b : Int}

@[simp] theorem onlyOverflows_narrow : (narrow a).OnlyOverflows := by
  unfold narrow
  split
  · simp
  · intro fault h
    cases h
    rfl

@[simp] theorem onlyOverflows_add : (add a b).OnlyOverflows := onlyOverflows_narrow

@[simp] theorem onlyOverflows_sub : (sub a b).OnlyOverflows := onlyOverflows_narrow

@[simp] theorem onlyOverflows_mul : (mul a b).OnlyOverflows := onlyOverflows_narrow

@[simp] theorem onlyOverflows_neg : (neg a).OnlyOverflows := onlyOverflows_narrow

@[simp] theorem onlyOverflows_abs : (abs a).OnlyOverflows := onlyOverflows_narrow

theorem onlyOverflows_truncDiv (nonzero : b ≠ 0) : (truncDiv a b).OnlyOverflows := by
  rw [truncDiv, if_neg nonzero]
  exact onlyOverflows_narrow

theorem onlyOverflows_truncRem (nonzero : b ≠ 0) : (truncRem a b).OnlyOverflows := by
  have whole := onlyOverflows_truncDiv (a := a) nonzero
  unfold truncRem
  cases divided : truncDiv a b with
  | error fault =>
    intro _ h
    cases h
    exact whole fault divided
  | ok quotient => simp [Except.map]

theorem onlyOverflows_ceilDiv (nonzero : b ≠ 0) : (ceilDiv a b).OnlyOverflows := by
  rw [ceilDiv, if_neg nonzero]
  exact onlyOverflows_narrow

theorem ensures_narrow : (narrow a).Ensures (· = a) :=
  ensures_iff.mpr ⟨onlyOverflows_narrow, fun _ h => (narrow_eq_ok_iff.mp h).2.symm⟩

theorem ensures_add : (add a b).Ensures (· = a + b) := ensures_narrow

theorem ensures_sub : (sub a b).Ensures (· = a - b) := ensures_narrow

theorem ensures_mul : (mul a b).Ensures (· = a * b) := ensures_narrow

theorem ensures_truncDiv (nonzero : b ≠ 0) : (truncDiv a b).Ensures (· = a.tdiv b) := by
  rw [truncDiv, if_neg nonzero]
  exact ensures_narrow

theorem ensures_truncRem (nonzero : b ≠ 0) : (truncRem a b).Ensures (· = a.tmod b) :=
  ensures_iff.mpr ⟨onlyOverflows_truncRem nonzero, fun r h => by
    unfold truncRem at h
    cases divided : truncDiv a b with
    | error fault => simp [divided, Except.map] at h
    | ok quotient => simpa [divided, Except.map, eq_comm] using h⟩

end Word

namespace Affine

@[simp] theorem onlyOverflows_scale {e : Affine} {factor : Int} :
    (e.scale factor).OnlyOverflows := by
  simp [scale]

@[simp] theorem onlyOverflows_addCoeffs {as bs : List Int} : (addCoeffs as bs).OnlyOverflows := by
  induction as generalizing bs with
  | nil => simp [addCoeffs]
  | cons a as ih => cases bs <;> simp [addCoeffs, ih]

@[simp] theorem onlyOverflows_add {a b : Affine} : (a.add b).OnlyOverflows := by
  simp [add]

theorem onlyOverflows_allDivisible {divisor : Int} {values : List Int} (nonzero : divisor ≠ 0) :
    (allDivisible divisor values).OnlyOverflows := by
  induction values with
  | nil => simp [allDivisible]
  | cons v vs ih =>
    simp only [allDivisible, onlyOverflows_bind]
    refine ⟨Word.onlyOverflows_truncRem nonzero, fun remainder _ => ?_⟩
    split
    · exact ih
    · simp

@[simp] theorem onlyOverflows_exactDiv {e : Affine} {divisor : Int} :
    (e.exactDiv? divisor).OnlyOverflows := by
  unfold exactDiv?
  split
  · simp
  · rename_i nonzero
    simp only [onlyOverflows_bind]
    refine ⟨onlyOverflows_allDivisible nonzero, fun divisible _ => ?_⟩
    split
    · simp [Word.onlyOverflows_truncDiv nonzero]
    · simp

end Affine

namespace Quasi

@[simp] theorem onlyOverflows_mergeTerm {term : FloorTerm} {terms : List FloorTerm} :
    (mergeTerm term terms).OnlyOverflows := by
  induction terms with
  | nil => simp [mergeTerm]
  | cons t ts ih =>
    unfold mergeTerm
    split
    · simp
    · simp [ih]

@[simp] theorem onlyOverflows_pushTerm {terms : List FloorTerm} {term : FloorTerm} :
    (pushTerm terms term).OnlyOverflows := by
  unfold pushTerm
  split <;> simp

@[simp] theorem onlyOverflows_add {a b : Quasi} : (a.add b).OnlyOverflows := by
  simp [add]

@[simp] theorem onlyOverflows_scale {q : Quasi} {factor : Int} :
    (q.scale factor).OnlyOverflows := by
  unfold scale
  split
  · simp
  · simp [scaleTerm]

@[simp] theorem onlyOverflows_sub {a b : Quasi} : (a.sub b).OnlyOverflows := by
  simp [sub]

theorem onlyOverflows_floorDiv {q : Quasi} {divisor : Int} (pos : 1 ≤ divisor) :
    (q.floorDiv divisor).OnlyOverflows := by
  unfold floorDiv
  rw [if_neg (by omega)]
  dsimp only
  split
  · simp
  · cases q with
    | affine e =>
      simp only [affine?, onlyOverflows_bind, Affine.onlyOverflows_exactDiv, true_and]
      intro exact _
      cases exact <;> simp
    | plus rest c n d => simp [affine?]

theorem onlyOverflows_modulo {q : Quasi} {divisor : Int} (pos : 1 ≤ divisor) :
    (q.modulo divisor).OnlyOverflows := by
  unfold modulo
  split
  · simp
  · simp [onlyOverflows_floorDiv pos]

@[simp] theorem onlyOverflows_substTerms {dim : Nat} {replacement q : Quasi} :
    (substTerms dim replacement q).OnlyOverflows := by
  induction q with
  | affine e => simp [substTerms]
  | plus rest c n d outer inner => simp [substTerms, substBase, outer, inner]

@[simp] theorem onlyOverflows_subst {q replacement : Quasi} {dim : Nat} :
    (q.subst dim replacement).OnlyOverflows := by
  simp [subst, substBase]

end Quasi

/-! ## Guards of full tiles -/

@[simp] theorem Polyhedron.onlyOverflows_inequalities {s : Polyhedron} :
    s.inequalities.OnlyOverflows := by
  have each : ∀ c ∈ s.constraints, c.inequalities.OnlyOverflows := by
    intro c _
    unfold Constraint.inequalities
    split <;> simp [Affine.neg]
  simp [inequalities, onlyOverflows_mapM each]

namespace FullTile

theorem onlyOverflows_blockEnds {dim nDim nParam : Nat} {width : Int} (pos : 1 ≤ width) :
    (blockEnds dim width nDim nParam).OnlyOverflows := by
  simp [blockEnds, Quasi.onlyOverflows_modulo pos]

theorem onlyOverflows_guardFrom {fixed : Nat → Bool} {nDim dim : Nat} {ends : List Quasi}
    {constraints : List Affine} : (guardFrom fixed nDim dim ends constraints).OnlyOverflows := by
  induction constraints with
  | nil => simp [guardFrom]
  | cons c cs ih =>
    unfold guardFrom
    split
    · exact ih
    · split
      · simp
      · simp [ih]

theorem onlyOverflows_guardOf {domain : Polyhedron} {e : Quasi} {dim : Nat}
    {above below : List Quasi} {width : Int} (pos : 1 ≤ width) :
    (guardOf domain e dim above below width).OnlyOverflows := by
  unfold guardOf
  dsimp only
  split
  · simp [onlyOverflows_blockEnds pos, onlyOverflows_guardFrom]
  · simp

end FullTile

theorem Arena.onlyOverflows_fullTileGuard {a : Arena} {path : List Nat} {points stmt : Nat}
    {width : Int} (pos : 1 ≤ width) : (a.fullTileGuard path points stmt width).OnlyOverflows := by
  unfold fullTileGuard
  dsimp only
  split
  · simp only [onlyOverflows_bind, Quasi.onlyOverflows_scale, Quasi.onlyOverflows_add, true_and]
    intro whole _ e _
    split
    · simp
    · exact FullTile.onlyOverflows_guardOf pos
  · simp

/-! ## Bands -/

theorem StmtMap.onlyOverflows_traverse {α β : Type} {f : α → Checked β} {m : StmtMap α}
    (each : ∀ stmt value, m.get? stmt = some value → (f value).OnlyOverflows) :
    (m.traverse f).OnlyOverflows := by
  have entries : ∀ e ∈ m.entries, (f e.2).OnlyOverflows := by
    rintro ⟨stmt, value⟩ member
    exact each stmt value (get?_eq_some_iff.mpr member)
  simp only [traverse, onlyOverflows_bind, onlyOverflows_pure, implies_true, and_true]
  apply onlyOverflows_mapM
  intro e member
  simpa using entries e member

namespace Band

variable {band : Band}

theorem onlyOverflows_zipSizes {f : Quasi → Int → Checked Quasi} {exprs : List Quasi}
    {sizes : List Int} (each : ∀ q, ∀ size ∈ sizes, (f q size).OnlyOverflows) :
    (zipSizes f exprs sizes).OnlyOverflows := by
  apply onlyOverflows_mapM
  rintro ⟨q, size⟩ member
  exact each q size (List.of_mem_zip member).2

theorem onlyOverflows_tiles {sizes : List Int} (pos : ∀ size ∈ sizes, 1 ≤ size) :
    (band.tiles sizes).OnlyOverflows := by
  have each : ∀ exprs, (zipSizes Quasi.floorDiv exprs sizes).OnlyOverflows := fun exprs =>
    onlyOverflows_zipSizes fun q size member => Quasi.onlyOverflows_floorDiv (pos size member)
  simp [tiles, StmtMap.onlyOverflows_traverse fun _ exprs _ => each exprs]

theorem onlyOverflows_points {sizes : List Int} (pos : ∀ size ∈ sizes, 1 ≤ size) :
    (band.points sizes).OnlyOverflows := by
  have each : ∀ exprs, (zipSizes Quasi.modulo exprs sizes).OnlyOverflows := fun exprs =>
    onlyOverflows_zipSizes fun q size member => Quasi.onlyOverflows_modulo (pos size member)
  simp [points, StmtMap.onlyOverflows_traverse fun _ exprs _ => each exprs]

theorem onlyOverflows_pick {α : Type} {items : List α} {positions : List Nat}
    (bound : ∀ p ∈ positions, p < items.length) : (pick items positions).OnlyOverflows := by
  apply onlyOverflows_mapM
  intro p member
  simp [bound p member]

/-- Members can be selected at positions that exist, if there is an expression for each. -/
theorem onlyOverflows_select {positions : List Nat} (arities : band.HasArity)
    (bound : ∀ p ∈ positions, p < band.nMembers) : (band.select positions).OnlyOverflows := by
  have exprs : (band.schedule.traverse (pick · positions)).OnlyOverflows := by
    apply StmtMap.onlyOverflows_traverse
    intro stmt es found
    apply onlyOverflows_pick
    rwa [hasArity_iff.mp arities stmt es found]
  have members : (pick band.members positions).OnlyOverflows := onlyOverflows_pick bound
  simp [select, members, exprs]

end Band

end LoopNest
