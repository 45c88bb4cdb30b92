import LoopNest.Proofs.Bands
import LoopNest.Proofs.Rounding

/-! The bounds on an iterator admit exactly the values at which the constraints that end with it
hold, so no point is cut off on the way, and what is left at the end is tested. A set that can be
enumerated is listed point by point, in increasing order. -/

namespace LoopNest

theorem Checked.map_eq_ok_iff {α β : Type} {c : Checked α} {f : α → β} {r : β} :
    f <$> c = .ok r ↔ ∃ a, c = .ok a ∧ f a = r := by
  cases c <;> simp [Functor.map, Except.map]

/-- An evaluation in two steps has an answer exactly if both steps have one. -/
theorem Eval.run_bind_eq_ok_iff {α β : Type} {e : Eval α} {f : α → Eval β} {b : β} :
    (e >>= f).run = .ok (.ok b) ↔ ∃ a, e.run = .ok (.ok a) ∧ (f a).run = .ok (.ok b) := by
  constructor
  · intro h
    rcases run_bind_ok h with ⟨_, _, ⟨⟩⟩ | found
    exact found
  · rintro ⟨a, first, second⟩
    rw [ExceptT.run_bind, first]
    exact second

theorem Eval.mapM_eq_ok {α β : Type} {f : α → Eval β} {items : List α} {results : List β}
    (h : (items.mapM f).run = .ok (.ok results)) :
    List.Forall₂ (fun x y => (f x).run = .ok (.ok y)) items results := by
  induction items generalizing results with
  | nil =>
    cases h
    exact .nil
  | cons item rest ih =>
    rw [List.mapM_cons] at h
    obtain ⟨first, found, h⟩ := run_bind_eq_ok_iff.mp h
    obtain ⟨later, others, h⟩ := run_bind_eq_ok_iff.mp h
    cases h
    exact .cons found (ih others)

theorem Eval.run_lift_eq_ok_iff {α : Type} {c : Checked α} {a : α} :
    (liftM c : Eval α).run = .ok (.ok a) ↔ c = .ok a := by
  cases c with
  | error fault => exact ⟨nofun, nofun⟩
  | ok b =>
    constructor
    · rintro ⟨⟩
      rfl
    · rintro ⟨⟩
      rfl

/-! ## Bounds on one iterator -/

/-- Values that belong to separate parts of an expression. -/
theorem Affine.dotValue_append {as bs xs ys : List Int} (same : as.length = xs.length) :
    dotValue (as ++ bs) (xs ++ ys) = dotValue as xs + dotValue bs ys := by
  induction as generalizing xs with
  | nil =>
    cases xs with
    | nil => simp [dotValue]
    | cons => simp at same
  | cons a as ih =>
    cases xs with
    | nil => simp at same
    | cons x xs =>
      simp only [List.cons_append, dotValue]
      rw [ih (by simpa using same)]
      ring

namespace Constraint

variable {c : Constraint} {dim : Nat} {outer params : List Int}

/-- The coefficients end with that of the last iterator, zeros apart. -/
theorem lastDim?_eq_some (h : c.lastDim? = some dim) : ∃ before coeff n,
    c.expr.coeffs = before ++ coeff :: List.replicate n 0 ∧ before.length = dim ∧ coeff ≠ 0 := by
  obtain ⟨⟨coeff, d⟩, found, rfl⟩ := Option.map_eq_some_iff.mp h
  obtain ⟨nonzero, later, earlier, split, zeros⟩ := List.find?_eq_some_iff_append.mp found
  rw [List.reverse_eq_iff, List.reverse_append, List.reverse_cons, List.append_assoc,
    List.singleton_append] at split
  obtain ⟨before, rest, coeffs, -, same⟩ := List.zipIdx_eq_append_iff.mp split
  obtain ⟨a, after, rfl, here, others⟩ := List.zipIdx_eq_cons_iff.mp same.symm
  obtain ⟨rfl, rfl⟩ := Prod.mk.inj here
  refine ⟨before, coeff, after.length, ?_, by simp, by simpa using nonzero⟩
  have entries : later.reverse.map (·.1) = after := by
    rw [others]
    exact List.zipIdx_map_fst ..
  have zero : ∀ b ∈ after, b = 0 := by
    rw [← entries, List.forall_mem_map]
    intro other member
    simpa using zeros other (List.mem_reverse.mp member)
  rw [coeffs, ← List.eq_replicate_of_mem zero]

/-- What a constraint says of its last iterator, whatever comes after it. -/
theorem holds_iff_last (h : c.lastDim? = some dim) (length : outer.length = dim) (x : Int)
    (later : List Int) : c.Holds (outer ++ x :: later) params ↔
      c.kind.holds (c.expr.coeff dim * x + (c.expr.withoutDim dim).value outer params) = true := by
  obtain ⟨before, coeff, n, coeffs, position, -⟩ := lastDim?_eq_some h
  have own : c.expr.coeff dim = coeff := by
    rw [Affine.coeff, coeffs, ← position]
    simp
  have rest : Affine.dotValue (c.expr.withoutDim dim).coeffs outer =
      Affine.dotValue before outer := by
    rw [Affine.withoutDim, coeffs, ← position, List.set_append_right _ _ le_rfl]
    simpa using @Affine.dotValue_append before (0 :: List.replicate n 0) outer []
      (position.trans length.symm)
  have value : c.expr.value (outer ++ x :: later) params =
      c.expr.coeff dim * x + (c.expr.withoutDim dim).value outer params := by
    rw [Affine.value, Affine.value, rest, coeffs, own,
      Affine.dotValue_append (position.trans length.symm), Affine.dotValue,
      Affine.dotValue_replicate_zero]
    simp only [Affine.withoutDim]
    ring
  rw [Holds, value]

end Constraint

namespace Polyhedron

variable {s : Polyhedron} {params outer : List Int}

namespace Bounds

def Admits (bounds : Bounds) (x : Int) : Prop :=
  (∀ l ∈ bounds.lower, l ≤ x) ∧ ∀ u ∈ bounds.upper, x ≤ u

variable {a b : Bounds} {x : Int}

theorem admits_unlimited : unlimited.Admits x := by simp [Admits, unlimited]

theorem admits_lower {l : Int} : Admits ⟨some l, none⟩ x ↔ l ≤ x := by simp [Admits]

theorem admits_upper {u : Int} : Admits ⟨none, some u⟩ x ↔ x ≤ u := by simp [Admits]

theorem admits_both {l u : Int} : Admits ⟨some l, some u⟩ x ↔ l ≤ x ∧ x ≤ u := by simp [Admits]

theorem admits_meet : (a.meet b).Admits x ↔ a.Admits x ∧ b.Admits x := by
  obtain ⟨lower, upper⟩ := a
  obtain ⟨lower', upper'⟩ := b
  have below : (∀ l ∈ Option.merge max lower lower', l ≤ x) ↔
      (∀ l ∈ lower, l ≤ x) ∧ ∀ l ∈ lower', l ≤ x := by
    cases lower <;> cases lower' <;> simp
  have above : (∀ u ∈ Option.merge min upper upper', x ≤ u) ↔
      (∀ u ∈ upper, x ≤ u) ∧ ∀ u ∈ upper', x ≤ u := by
    cases upper <;> cases upper' <;> simp
  simp only [Admits, meet, below, above]
  tauto

end Bounds

/-- A constraint on one value gives bounds that admit exactly the values at which it holds. -/
theorem admits_boundsOf {kind : Relation} {coeff rest : Int} {bounds : Bounds}
    (h : boundsOf kind coeff rest = .ok bounds) (nonzero : coeff ≠ 0) (x : Int) :
    bounds.Admits x ↔ kind.holds (coeff * x + rest) = true := by
  unfold boundsOf at h
  rcases lt_or_gt_of_ne nonzero with sign | sign
  · have flipped : -coeff * x = -(coeff * x) := Int.neg_mul ..
    cases kind with
    | inequality =>
      simp only [if_neg (show ¬0 < coeff by omega), if_pos sign, reduceCtorEq, or_false, pure_bind,
        Checked.bind_eq_ok_iff, Checked.map_eq_ok_iff, Word.neg_eq_ok_iff] at h
      obtain ⟨_, ⟨-, rfl⟩, _, ⟨u, upper, rfl⟩, h⟩ := h
      cases h
      rw [Bounds.admits_upper, Word.le_floorDiv_iff upper (by omega), Relation.holds,
        decide_eq_true_eq]
      omega
    | equality =>
      simp only [if_neg (show ¬0 < coeff by omega), or_true, if_true, pure_bind,
        Checked.bind_eq_ok_iff, Checked.map_eq_ok_iff, Word.neg_eq_ok_iff] at h
      obtain ⟨_, ⟨-, rfl⟩, _, ⟨l, lower, rfl⟩, _, ⟨u, upper, rfl⟩, h⟩ := h
      cases h
      rw [Bounds.admits_both, Word.ceilDiv_le_iff lower (by omega),
        Word.le_floorDiv_iff upper (by omega), Relation.holds, decide_eq_true_eq]
      omega
  · cases kind with
    | inequality =>
      simp only [if_pos sign, if_neg (show ¬coeff < 0 by omega), reduceCtorEq, or_false, pure_bind,
        Checked.bind_eq_ok_iff, Checked.map_eq_ok_iff, Word.neg_eq_ok_iff] at h
      obtain ⟨_, ⟨-, rfl⟩, _, ⟨l, lower, rfl⟩, h⟩ := h
      cases h
      rw [Bounds.admits_lower, Word.ceilDiv_le_iff lower sign, Relation.holds, decide_eq_true_eq]
      omega
    | equality =>
      simp only [if_pos sign, or_true, if_true, pure_bind, Checked.bind_eq_ok_iff,
        Checked.map_eq_ok_iff, Word.neg_eq_ok_iff] at h
      obtain ⟨_, ⟨-, rfl⟩, _, ⟨l, lower, rfl⟩, _, ⟨u, upper, rfl⟩, h⟩ := h
      cases h
      rw [Bounds.admits_both, Word.ceilDiv_le_iff lower sign, Word.le_floorDiv_iff upper sign,
        Relation.holds, decide_eq_true_eq]
      omega

/-- One more constraint, with what it says of the iterator if this is its last. -/
theorem admits_narrowBounds {bounds narrowed : Bounds} {c : Constraint}
    (h : narrowBounds outer.length outer params bounds c = .ok narrowed) (x : Int)
    (later : List Int) : narrowed.Admits x ↔ bounds.Admits x ∧
      (c.lastDim? = some outer.length → c.Holds (outer ++ x :: later) params) := by
  unfold narrowBounds at h
  by_cases last : c.lastDim? = some outer.length
  · rw [if_pos last] at h
    simp only [Checked.bind_eq_ok_iff] at h
    obtain ⟨rest, evaluated, own, bounded, h⟩ := h
    cases h
    obtain ⟨before, coeff, n, coeffs, position, nonzero⟩ := Constraint.lastDim?_eq_some last
    have apart : c.expr.coeff outer.length ≠ 0 := by
      rw [Affine.coeff, coeffs, ← position]
      simpa using nonzero
    rw [Bounds.admits_meet, admits_boundsOf bounded apart, Constraint.holds_iff_last last rfl,
      Affine.eq_value_of_eval evaluated]
    simp [last]
  · rw [if_neg last] at h
    cases h
    simp [last]

theorem admits_foldlM_narrowBounds {constraints : List Constraint} {bounds narrowed : Bounds}
    (h : constraints.foldlM (narrowBounds outer.length outer params) bounds = .ok narrowed)
    (x : Int) (later : List Int) : narrowed.Admits x ↔ bounds.Admits x ∧
      ∀ c ∈ constraints, c.lastDim? = some outer.length →
        c.Holds (outer ++ x :: later) params := by
  induction constraints generalizing bounds with
  | nil =>
    cases h
    simp
  | cons c cs ih =>
    simp only [List.foldlM_cons, Checked.bind_eq_ok_iff] at h
    obtain ⟨next, step, h⟩ := h
    rw [ih h, admits_narrowBounds step x later, List.forall_mem_cons, and_assoc]

/-- The value that a point of the set has next lies within the bounds. -/
theorem admits_boundsAt {bounds : Bounds} (h : s.boundsAt outer.length outer params = .ok bounds)
    {x : Int} {later : List Int} (mem : s.Mem (outer ++ x :: later) params) :
    bounds.Admits x :=
  (admits_foldlM_narrowBounds h x later).mpr
    ⟨Bounds.admits_unlimited, fun c member _ => mem.2 c member⟩

/-! ## Points in order -/

theorem allSatisfied_eq_true_iff {point : List Int} {constraints : List Constraint} {all : Bool}
    (h : allSatisfied point params constraints = .ok all) :
    all = true ↔ ∀ c ∈ constraints, c.Holds point params := by
  induction constraints with
  | nil =>
    cases h
    simp
  | cons c cs ih =>
    simp only [allSatisfied, Constraint.isSatisfied, Checked.bind_eq_ok_iff] at h
    obtain ⟨satisfied, ⟨value, evaluated, own⟩, h⟩ := h
    cases own
    rw [Affine.eq_value_of_eval evaluated] at h
    rw [List.forall_mem_cons, Constraint.Holds]
    split at h
    · rename_i holds
      rw [ih h]
      simp [holds]
    · rename_i fails
      cases h
      simp [fails]

theorem contains_eq_true_iff {point : List Int} {inside : Bool}
    (h : s.contains point params = .ok inside) : inside = true ↔ s.Mem point params := by
  unfold contains at h
  split at h
  · rename_i length
    rw [allSatisfied_eq_true_iff h]
    simp [Mem, length]
  · rename_i length
    cases h
    simp [Mem, length]

/-- The points of a set that start with given values, in increasing order. -/
structure Lists (s : Polyhedron) (params outer : List Int) (points : List (List Int)) : Prop where
  exact : ∀ p, p ∈ points ↔ s.Mem p params ∧ outer <+: p
  increasing : points.Pairwise fun p q => precedes p q = true

/-- Points that part at one iterator are in the order of its values. -/
theorem precedes_of_lt {p q : List Int} {v w : Int} (left : outer ++ [v] <+: p)
    (right : outer ++ [w] <+: q) (lt : v < w) : precedes p q = true := by
  obtain ⟨after, rfl⟩ := left
  obtain ⟨after', rfl⟩ := right
  induction outer with
  | nil => simp [precedes, lt]
  | cons o os ih => simpa [precedes] using ih

/-- What is found at successive values of one iterator, put one after the other. -/
theorem lists_overRange {find : Int → Eval (List (List Int))} {count : Nat} {value : Int}
    {points : List (List Int)} (h : (overRange find count value).run = .ok (.ok points))
    (each : ∀ v part, (find v).run = .ok (.ok part) → s.Lists params (outer ++ [v]) part) :
    (∀ p, p ∈ points ↔ s.Mem p params ∧
      ∃ v, value ≤ v ∧ v < value + count ∧ outer ++ [v] <+: p) ∧
    points.Pairwise fun p q => precedes p q = true := by
  induction count generalizing value points with
  | zero =>
    cases h
    refine ⟨fun p => ?_, .nil⟩
    simp only [List.not_mem_nil, false_iff, not_and, not_exists]
    omega
  | succ count ih =>
    rw [overRange] at h
    obtain ⟨here, first, h⟩ := Eval.run_bind_eq_ok_iff.mp h
    obtain ⟨later, rest, h⟩ := Eval.run_bind_eq_ok_iff.mp h
    cases h
    obtain ⟨exact, increasing⟩ := each value here first
    obtain ⟨exact', increasing'⟩ := ih rest
    constructor
    · intro p
      rw [List.mem_append, exact, exact', ← and_or_left]
      refine and_congr_right fun _ => ⟨?_, ?_⟩
      · rintro (starts | ⟨v, lower, upper, starts⟩)
        · exact ⟨value, le_rfl, by omega, starts⟩
        · exact ⟨v, by omega, by omega, starts⟩
      · rintro ⟨v, lower, upper, starts⟩
        by_cases same : v = value
        · exact .inl (same ▸ starts)
        · exact .inr ⟨v, by omega, by omega, starts⟩
    · refine List.pairwise_append.mpr ⟨increasing, increasing', fun p left q right => ?_⟩
      obtain ⟨-, v, lower, -, starts⟩ := (exact' q).mp right
      exact precedes_of_lt ((exact p).mp left).2 starts (by omega)

/-- All values are given, and the test decides. -/
theorem lists_whole {inside : Bool} (h : s.contains outer params = .ok inside)
    (length : outer.length = s.nDim) :
    s.Lists params outer (if inside then [outer] else []) := by
  have tested := contains_eq_true_iff h
  have only : ∀ p, s.Mem p params ∧ outer <+: p ↔ s.Mem outer params ∧ p = outer := by
    intro p
    constructor
    · rintro ⟨mem, starts⟩
      obtain rfl := starts.eq_of_length (length.trans mem.1.symm)
      exact ⟨mem, rfl⟩
    · rintro ⟨mem, rfl⟩
      exact ⟨mem, List.prefix_rfl⟩
  cases inside with
  | true => exact ⟨fun p => by simp [only, tested.mp rfl], List.pairwise_singleton ..⟩
  | false =>
    have outside : ¬s.Mem outer params := fun mem => by simpa using tested.mpr mem
    exact ⟨fun p => by simp [only, outside], .nil⟩

/-- No point is cut off by the bounds on the next iterator. -/
theorem exists_next {p : List Int} {lower upper : Int}
    (h : s.boundsAt outer.length outer params = .ok ⟨some lower, some upper⟩)
    (more : outer.length < s.nDim) (mem : s.Mem p params) (starts : outer <+: p) :
    ∃ v, lower ≤ v ∧ v ≤ upper ∧ outer ++ [v] <+: p := by
  obtain ⟨rest, rfl⟩ := starts
  cases rest with
  | nil =>
    have := mem.1
    simp at this
    omega
  | cons v later =>
    obtain ⟨above, below⟩ := Bounds.admits_both.mp (admits_boundsAt h mem)
    exact ⟨v, above, below, later, by simp⟩

theorem lists_enumerateFrom {count : Nat} {points : List (List Int)}
    (h : (s.enumerateFrom params count outer).run = .ok (.ok points))
    (length : outer.length + count = s.nDim) : s.Lists params outer points := by
  induction count generalizing outer points with
  | zero =>
    rw [enumerateFrom] at h
    obtain ⟨inside, tested, h⟩ := Eval.run_bind_eq_ok_iff.mp h
    cases h
    exact lists_whole (Eval.run_lift_eq_ok_iff.mp tested) length
  | succ count ih =>
    rw [enumerateFrom] at h
    obtain ⟨⟨lower?, upper?⟩, bounded, h⟩ := Eval.run_bind_eq_ok_iff.mp h
    cases lower? with
    | none => cases h
    | some lower =>
      cases upper? with
      | none => cases h
      | some upper =>
        obtain ⟨exact, increasing⟩ := lists_overRange h fun v part found =>
          ih found (by rw [List.length_append, List.length_singleton]; omega)
        refine ⟨fun p => ?_, increasing⟩
        rw [exact]
        refine and_congr_right fun mem => ⟨?_, fun starts => ?_⟩
        · rintro ⟨v, -, -, starts⟩
          exact (List.prefix_append ..).trans starts
        · obtain ⟨v, above, below, next⟩ :=
            exists_next (Eval.run_lift_eq_ok_iff.mp bounded) (by omega) mem starts
          exact ⟨v, above, by omega, next⟩

theorem lists_enumerate {points : List (List Int)}
    (h : (s.enumerate params).run = .ok (.ok points)) : s.Lists params [] points := by
  unfold enumerate at h
  split at h
  · cases h
  · exact lists_enumerateFrom h (Nat.zero_add _)

theorem Lists.nodup {points : List (List Int)} (lists : s.Lists params outer points) :
    points.Nodup := by
  refine lists.increasing.imp fun {p q} before same => ?_
  rw [same, precedes_irrefl] at before
  cases before

end Polyhedron

end LoopNest
