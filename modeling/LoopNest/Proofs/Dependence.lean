import LoopNest.Proofs.Value

/-! An expression has the same value at points that agree on the iterators that appear in it, and
the checked evaluation has the same result or the same fault there. Tiling an expression keeps its
iterators: the tile number depends on all of them, and the offset in the tile either on all of them
or on none. -/

namespace LoopNest

/-- Two computations that start alike are alike if they go on alike from every result. -/
theorem Checked.bind_congr {α β : Type} {x : Checked α} {f g : α → Checked β}
    (same : ∀ a, x = .ok a → f a = g a) : x >>= f = x >>= g := by
  cases x with
  | error => rfl
  | ok a => exact same a rfl

namespace Affine

theorem dotValue_congr {coeffs : List Int} {xs ys : List Int} (length : xs.length = ys.length)
    (agree : ∀ d : Nat, coeffs[d]?.getD 0 ≠ 0 → xs[d]? = ys[d]?) :
    dotValue coeffs xs = dotValue coeffs ys := by
  induction coeffs generalizing xs ys with
  | nil => rfl
  | cons c cs ih =>
    match xs, ys with
    | [], [] => rfl
    | [], _ :: _ => simp at length
    | _ :: _, [] => simp at length
    | x :: xs, y :: ys =>
      have rest := @ih xs ys (by simpa using length) fun d nonzero => by
        simpa using agree (d + 1) (by simpa using nonzero)
      by_cases zero : c = 0
      · simp [dotValue, zero, rest]
      · have head : x = y := by simpa using agree 0 (by simpa using zero)
        simp [dotValue, head, rest]

theorem value_congr {e : Affine} {xs ys : List Int} (params : List Int)
    (length : xs.length = ys.length) (agree : ∀ d, e.dependsOn d = true → xs[d]? = ys[d]?) :
    e.value xs params = e.value ys params := by
  simp only [value]
  rw [dotValue_congr length fun d nonzero => agree d (decide_eq_true nonzero)]

/-- A coefficient that is zero skips its value. The sum that is carried on has been checked before.
-/
theorem dotFrom_zero {sum : Int} (fits : Word.Fits sum) (coeffs values : List Int) :
    dotFrom sum (0 :: coeffs) values = dotFrom sum coeffs values.tail := by
  cases values with
  | nil => cases coeffs <;> rfl
  | cons v vs =>
    have product : Word.mul 0 v = .ok 0 := Word.mul_eq_ok_iff.mpr ⟨by simp; decide, by simp⟩
    have next : Word.add sum 0 = .ok sum := Word.add_eq_ok_iff.mpr ⟨by simpa using fits, by simp⟩
    rw [dotFrom, product, List.tail_cons]
    exact congrArg (· >>= fun sum => dotFrom sum coeffs vs) next

/-- The checked sum of products reads the values that have a coefficient, and no others. -/
theorem dotFrom_congr {coeffs xs ys : List Int} {sum : Int} (fits : Word.Fits sum)
    (agree : ∀ d : Nat, coeffs[d]?.getD 0 ≠ 0 → xs[d]? = ys[d]?) :
    dotFrom sum coeffs xs = dotFrom sum coeffs ys := by
  induction coeffs generalizing xs ys sum with
  | nil => rfl
  | cons c cs ih =>
    have rest : ∀ d : Nat, cs[d]?.getD 0 ≠ 0 → xs.tail[d]? = ys.tail[d]? := by
      intro d nonzero
      rw [List.getElem?_tail, List.getElem?_tail]
      exact agree (d + 1) (by simpa using nonzero)
    by_cases zero : c = 0
    · rw [zero, dotFrom_zero fits, dotFrom_zero fits]
      exact ih fits rest
    · have head : xs.head? = ys.head? := by
        rw [List.head?_eq_getElem?, List.head?_eq_getElem?]
        exact agree 0 (by simpa using zero)
      cases xs with
      | nil => rw [List.head?_eq_none_iff.mp head.symm]
      | cons x xs =>
        obtain ⟨ys, rfl⟩ := List.head?_eq_some_iff.mp head.symm
        apply Checked.bind_congr
        intro product _
        apply Checked.bind_congr
        intro next added
        obtain ⟨fits, rfl⟩ := Word.add_eq_ok_iff.mp added
        exact ih fits rest

/-- The checked value, or the fault, is the same at points that agree on the iterators that appear.
-/
theorem eval_congr {e : Affine} {xs ys : List Int} (params : List Int)
    (agree : ∀ d, e.dependsOn d = true → xs[d]? = ys[d]?) :
    e.eval xs params = e.eval ys params := by
  have dims : dot e.coeffs xs = dot e.coeffs ys :=
    dotFrom_congr (by decide) fun d nonzero => agree d (decide_eq_true nonzero)
  rw [eval, eval, dims]

@[simp] theorem coeff_const (value : Int) (nDim nParam dim : Nat) :
    (const value nDim nParam).coeff dim = 0 := by
  simp only [coeff, const, List.getElem?_replicate]
  split <;> rfl

@[simp] theorem coeff_zero (nDim nParam dim : Nat) : (zero nDim nParam).coeff dim = 0 :=
  coeff_const ..

@[simp] theorem coeff_times (e : Affine) (factor : Int) (dim : Nat) :
    (e.times factor).coeff dim = e.coeff dim * factor := by
  simp only [coeff, times, List.getElem?_map]
  cases e.coeffs[dim]? <;> simp

theorem getElem?_addCoeffs {as bs sum : List Int} (h : addCoeffs as bs = .ok sum) (dim : Nat) :
    sum[dim]?.getD 0 = as[dim]?.getD 0 + bs[dim]?.getD 0 := by
  induction as generalizing bs sum dim with
  | nil =>
    cases h
    simp
  | cons a as ih =>
    cases bs with
    | nil =>
      cases h
      simp
    | cons b bs =>
      simp only [addCoeffs, Checked.bind_eq_ok_iff, Word.add_eq_ok_iff] at h
      obtain ⟨head, ⟨-, rfl⟩, tail, ht, h⟩ := h
      cases h
      cases dim with
      | zero => simp
      | succ dim => simpa using ih ht dim

theorem coeff_add {a b r : Affine} (h : a.add b = .ok r) (dim : Nat) :
    r.coeff dim = a.coeff dim + b.coeff dim := by
  simp only [add, Checked.bind_eq_ok_iff] at h
  obtain ⟨constant, -, coeffs, hc, paramCoeffs, -, h⟩ := h
  cases h
  exact getElem?_addCoeffs hc dim

theorem coeff_exactDiv {e r : Affine} {divisor : Int} (h : e.exactDiv? divisor = .ok (some r))
    (dim : Nat) : e.coeff dim = divisor * r.coeff dim := by
  rw [eq_times_of_exactDiv h, coeff_times, Int.mul_comm]

end Affine

namespace Quasi

/-- An iterator appears in the affine part or in a numerator. -/
theorem dependsOn_iff (q : Quasi) (dim : Nat) :
    q.dependsOn dim = true ↔
      q.base.coeff dim ≠ 0 ∨ ∃ t ∈ q.terms, t.numerator.dependsOn dim = true := by
  induction q with
  | affine e => simp [dependsOn, Affine.dependsOn, base, terms]
  | plus rest c n d ih _ =>
    simp only [dependsOn, Bool.or_eq_true, ih, base, terms, List.mem_append, List.mem_singleton]
    constructor
    · rintro ((h | ⟨t, member, h⟩) | h)
      · exact .inl h
      · exact .inr ⟨t, .inl member, h⟩
      · exact .inr ⟨_, .inr rfl, h⟩
    · rintro (h | ⟨t, member | rfl, h⟩)
      · exact .inl (.inl h)
      · exact .inl (.inr ⟨t, member, h⟩)
      · exact .inr h

theorem value_congr {q : Quasi} {xs ys : List Int} (params : List Int)
    (length : xs.length = ys.length) (agree : ∀ d, q.dependsOn d = true → xs[d]? = ys[d]?) :
    q.value xs params = q.value ys params := by
  induction q with
  | affine e => exact Affine.value_congr params length agree
  | plus rest c n d outer inner =>
    rw [value, value, outer fun d h => agree d (by simp [dependsOn, h]),
      inner fun d h => agree d (by simp [dependsOn, h])]

theorem dependsOn_of_base {q : Quasi} {dim : Nat} (h : q.base.dependsOn dim = true) :
    q.dependsOn dim = true :=
  (dependsOn_iff q dim).mpr (.inl (of_decide_eq_true h))

theorem evalTerms_congr {q : Quasi} {xs ys : List Int} (params : List Int)
    (agree : ∀ d, q.dependsOn d = true → xs[d]? = ys[d]?) :
    q.evalTerms xs params = q.evalTerms ys params := by
  induction q with
  | affine e => rfl
  | plus rest c n d outer inner =>
    have base : n.base.eval xs params = n.base.eval ys params := by
      apply Affine.eval_congr
      intro d depends
      exact agree d (by simp [dependsOn, dependsOn_of_base depends])
    rw [evalTerms, evalTerms, outer fun d h => agree d (by simp [dependsOn, h]),
      inner fun d h => agree d (by simp [dependsOn, h]), base]

/-- The checked value, or the fault, is the same at points that agree on the iterators that appear.
-/
theorem eval_congr {q : Quasi} {xs ys : List Int} (params : List Int)
    (agree : ∀ d, q.dependsOn d = true → xs[d]? = ys[d]?) :
    q.eval xs params = q.eval ys params := by
  have base : q.base.eval xs params = q.base.eval ys params :=
    Affine.eval_congr params fun d depends => agree d (dependsOn_of_base depends)
  rw [eval, eval, evalTerms_congr params agree, base]

theorem base_coeff_scale {q r : Quasi} {factor : Int} (h : q.scale factor = .ok r) (dim : Nat) :
    r.base.coeff dim = q.base.coeff dim * factor := by
  rw [base_scale h, Affine.coeff_times]

theorem base_coeff_add {a b r : Quasi} (h : a.add b = .ok r) (dim : Nat) :
    r.base.coeff dim = a.base.coeff dim + b.base.coeff dim := by
  rw [Affine.coeff_add (parts_of_add h).1]

theorem base_coeff_sub {a b r : Quasi} (h : a.sub b = .ok r) (dim : Nat) :
    r.base.coeff dim = a.base.coeff dim - b.base.coeff dim := by
  simp only [sub, Checked.bind_eq_ok_iff] at h
  obtain ⟨negated, hn, h⟩ := h
  rw [base_coeff_add h, base_coeff_scale hn]
  ring

/-- A tile number times its width and the offset add up to the affine part of what was tiled. -/
theorem base_coeff_tiled {q tile point : Quasi} {width : Int} (ht : q.floorDiv width = .ok tile)
    (hp : q.modulo width = .ok point) (dim : Nat) :
    tile.base.coeff dim * width + point.base.coeff dim = q.base.coeff dim := by
  rcases modulo_cases hp with ⟨rfl, rfl⟩ | ⟨-, quotient, whole, hq, hw, hs⟩
  · obtain ⟨-, ⟨-, rfl⟩ | ⟨e, d, rfl, exact, rfl⟩ | ⟨h, -⟩⟩ := floorDiv_cases ht
    · simp [const, base]
    · simp [const, base, Affine.coeff_exactDiv exact]
    · exact absurd rfl h
  · rw [ht] at hq
    cases hq
    rw [base_coeff_sub hs, base_coeff_scale hw]
    ring

theorem dependsOn_floorDiv {q tile : Quasi} {width : Int} (h : q.floorDiv width = .ok tile)
    (dim : Nat) : tile.dependsOn dim = q.dependsOn dim := by
  obtain ⟨positive, ⟨-, rfl⟩ | ⟨e, d, rfl, exact, rfl⟩ | ⟨-, rfl⟩⟩ := floorDiv_cases h
  · rfl
  · simp only [dependsOn, Affine.dependsOn, Affine.coeff_exactDiv exact dim]
    have : width ≠ 0 := by omega
    simp [this]
  · simp [dependsOn, Affine.dependsOn]

/-- No expression is a numerator of its own. -/
theorem sizeOf_numerator_lt {q : Quasi} {t : FloorTerm} (member : t ∈ q.terms) :
    sizeOf t.numerator < sizeOf q := by
  induction q with
  | affine e => simp [terms] at member
  | plus rest c n d ih _ =>
    simp only [terms, List.mem_append, List.mem_singleton] at member
    rcases member with member | rfl
    · have := ih member
      simp only [plus.sizeOf_spec]
      omega
    · simp only [plus.sizeOf_spec]
      omega

theorem numerator_ne {q : Quasi} {t : FloorTerm} (member : t ∈ q.terms) : t.numerator ≠ q := by
  intro same
  have := sizeOf_numerator_lt member
  rw [same] at this
  omega

/-- Merging keeps to the floors that are there. -/
theorem mem_mergeTerm {term t : FloorTerm} {terms merged : List FloorTerm}
    (h : mergeTerm term terms = .ok merged) (member : t ∈ merged) :
    ∃ s ∈ term :: terms, s.numerator = t.numerator ∧ s.denominator = t.denominator := by
  induction terms generalizing merged with
  | nil =>
    cases h
    exact ⟨t, member, rfl, rfl⟩
  | cons head rest ih =>
    simp only [mergeTerm] at h
    split at h
    · simp only [Checked.bind_eq_ok_iff] at h
      obtain ⟨sum, -, h⟩ := h
      cases h
      rcases List.mem_cons.mp member with rfl | member
      · exact ⟨head, by simp, rfl, rfl⟩
      · exact ⟨t, by simp [member], rfl, rfl⟩
    · simp only [Checked.bind_eq_ok_iff] at h
      obtain ⟨tail, ht, h⟩ := h
      cases h
      rcases List.mem_cons.mp member with rfl | member
      · exact ⟨t, by simp, rfl, rfl⟩
      · obtain ⟨s, inside, same⟩ := ih ht member
        refine ⟨s, ?_, same⟩
        rcases List.mem_cons.mp inside with rfl | inside <;> simp [*]

theorem mem_pushTerm {term t : FloorTerm} {terms pushed : List FloorTerm}
    (h : pushTerm terms term = .ok pushed) (member : t ∈ pushed) :
    ∃ s ∈ term :: terms, s.numerator = t.numerator ∧ s.denominator = t.denominator := by
  unfold pushTerm at h
  split at h
  · cases h
    exact ⟨t, by simp [member], rfl, rfl⟩
  · simp only [Checked.bind_eq_ok_iff] at h
    obtain ⟨merged, hm, h⟩ := h
    cases h
    exact mem_mergeTerm hm (List.mem_of_mem_filter member)

theorem mem_foldlM_pushTerm {t : FloorTerm} {terms start pushed : List FloorTerm}
    (h : terms.foldlM pushTerm start = .ok pushed) (member : t ∈ pushed) :
    ∃ s ∈ start ++ terms, s.numerator = t.numerator ∧ s.denominator = t.denominator := by
  induction terms generalizing start with
  | nil =>
    cases h
    exact ⟨t, by simpa using member, rfl, rfl⟩
  | cons head rest ih =>
    simp only [List.foldlM_cons, Checked.bind_eq_ok_iff] at h
    obtain ⟨next, hn, h⟩ := h
    obtain ⟨s, inside, same⟩ := ih h
    rcases List.mem_append.mp inside with inside | inside
    · obtain ⟨u, here, also⟩ := mem_pushTerm hn inside
      refine ⟨u, ?_, also.1.trans same.1, also.2.trans same.2⟩
      rcases List.mem_cons.mp here with rfl | here <;> simp [*]
    · exact ⟨s, by simp [inside], same⟩

theorem mergeTerm_of_new {term : FloorTerm} {terms : List FloorTerm}
    (new : ∀ t ∈ terms, t.sameFloor term = false) :
    mergeTerm term terms = .ok (terms ++ [term]) := by
  induction terms with
  | nil => rfl
  | cons head rest ih =>
    obtain ⟨other, later⟩ := List.forall_mem_cons.mp new
    rw [mergeTerm, other, ih later]
    rfl

theorem terms_scale {q r : Quasi} {factor : Int} (nonzero : factor ≠ 0)
    (h : q.scale factor = .ok r) :
    r.terms = q.terms.map fun t => { t with coeff := t.coeff * factor } := by
  unfold scale at h
  rw [if_neg nonzero] at h
  simp only [Checked.bind_eq_ok_iff] at h
  obtain ⟨base, -, ts, scaled, h⟩ := h
  cases h
  rw [terms_ofTerms]
  have relate := mapM_eq_ok scaled
  clear scaled
  generalize q.terms = terms at relate
  induction relate with
  | nil => rfl
  | cons head _ ih =>
    simp only [scaleTerm, Checked.bind_eq_ok_iff, Word.mul_eq_ok_iff] at head
    obtain ⟨_, ⟨-, rfl⟩, head⟩ := head
    cases head
    rw [ih, List.map_cons]

theorem parts_of_sub {a b r : Quasi} (h : a.sub b = .ok r) :
    a.base.add (b.base.times (-1)) = .ok r.base ∧
      (a.terms ++ b.terms.map fun t : FloorTerm =>
        { t with coeff := t.coeff * -1 }).foldlM pushTerm [] = .ok r.terms := by
  simp only [sub, Checked.bind_eq_ok_iff] at h
  obtain ⟨negated, negates, h⟩ := h
  have parts := parts_of_add h
  rwa [base_scale negates, terms_scale (by decide) negates] at parts

/-- The offset that a proper floor leaves still has the floor in it. -/
theorem terms_sub_floor {q whole r : Quasi} {width : Int} (nonzero : width ≠ 0)
    (hw : (plus (affine (.zero q.nDim q.nParam)) 1 q width).scale width = .ok whole)
    (hs : q.sub whole = .ok r) :
    (∃ t ∈ r.terms, t.numerator = q) ∧
      ∀ t ∈ r.terms, t.numerator = q ∨ ∃ s ∈ q.terms, s.numerator = t.numerator := by
  have floor : whole.terms = [⟨width, q, width⟩] := by
    simp [terms_scale nonzero hw, terms]
  obtain ⟨-, pushed⟩ := parts_of_sub hs
  rw [floor, List.map_singleton, List.foldlM_append] at pushed
  obtain ⟨own, ho, ht⟩ := Checked.bind_eq_ok_iff.mp pushed
  have smaller : ∀ t ∈ own, ∃ s ∈ q.terms, s.numerator = t.numerator := by
    intro t member
    obtain ⟨s, inside, same, -⟩ := mem_foldlM_pushTerm ho member
    exact ⟨s, by simpa using inside, same⟩
  have new : ∀ t ∈ own, t.sameFloor ⟨width * -1, q, width⟩ = false := by
    intro t member
    obtain ⟨s, inside, eq⟩ := smaller t member
    simp [FloorTerm.sameFloor, ← eq, numerator_ne inside]
  rw [List.foldlM_cons, pushTerm, if_neg (by simpa using nonzero), mergeTerm_of_new new] at ht
  rw [← Except.ok.inj ht]
  constructor
  · refine ⟨_, List.mem_filter.mpr ⟨List.mem_append_right _ (List.mem_singleton.mpr rfl), ?_⟩, rfl⟩
    simpa using nonzero
  · intro t member
    rcases List.mem_append.mp (List.mem_of_mem_filter member) with member | member
    · exact .inr (smaller t member)
    · exact .inl (by rw [List.mem_singleton.mp member])

/-- The offset in a tile contains no iterator, or it contains what the expression contains, and that
outside the floors too. -/
theorem dependsOn_modulo {q r : Quasi} {width : Int} (h : q.modulo width = .ok r) :
    (∀ dim, r.dependsOn dim = false) ∨
      (∀ dim, r.dependsOn dim = q.dependsOn dim) ∧ ∀ dim, r.base.coeff dim = q.base.coeff dim := by
  rcases modulo_cases h with ⟨rfl, rfl⟩ | ⟨other, quotient, whole, hq, hw, hs⟩
  · exact .inl fun dim => by simp [const, dependsOn, Affine.dependsOn]
  obtain ⟨positive, ⟨one, -⟩ | ⟨e, d, rfl, exact, rfl⟩ | ⟨-, rfl⟩⟩ := floorDiv_cases hq
  · exact absurd one other
  · refine .inl fun dim => ?_
    have zero : r.base.coeff dim = 0 := by
      rw [base_coeff_sub hs, base_coeff_scale hw]
      simp only [base, Affine.coeff_exactDiv exact]
      ring
    have none : r.terms = [] := by
      obtain ⟨-, pushed⟩ := parts_of_sub hs
      rw [terms_scale (by omega) hw] at pushed
      exact (Except.ok.inj pushed).symm
    rw [Bool.eq_false_iff, ne_eq, dependsOn_iff, none]
    simp [zero]
  · have coeffs : ∀ dim, r.base.coeff dim = q.base.coeff dim := fun dim => by
      rw [base_coeff_sub hs, base_coeff_scale hw]
      simp [base]
    obtain ⟨⟨t, member, whole⟩, only⟩ := terms_sub_floor (by omega) hw hs
    refine .inr ⟨fun dim => Bool.eq_iff_iff.mpr ⟨fun depends => ?_, fun depends => ?_⟩, coeffs⟩
    · rcases (dependsOn_iff r dim).mp depends with base | ⟨s, inside, depends⟩
      · exact (dependsOn_iff q dim).mpr (.inl (coeffs dim ▸ base))
      · rcases only s inside with same | ⟨u, own, same⟩
        · exact same ▸ depends
        · exact (dependsOn_iff q dim).mpr (.inr ⟨u, own, same ▸ depends⟩)
    · exact (dependsOn_iff r dim).mpr (.inr ⟨t, member, whole ▸ depends⟩)

/-! ## Floors -/

/-- All floors have a property of their numerators and denominators. -/
def EveryFloor (P : Quasi → Int → Prop) (q : Quasi) : Prop :=
  ∀ t ∈ q.terms, P t.numerator t.denominator

namespace EveryFloor

variable {P : Quasi → Int → Prop} {q r a b : Quasi}

theorem affine (e : Affine) : (Quasi.affine e).EveryFloor P := by
  simp [EveryFloor, terms]

theorem add (left : a.EveryFloor P) (right : b.EveryFloor P) (h : a.add b = .ok r) :
    r.EveryFloor P := by
  intro t member
  obtain ⟨s, inside, numerators, denominators⟩ := mem_foldlM_pushTerm (parts_of_add h).2 member
  rw [← numerators, ← denominators]
  rcases List.mem_append.mp inside with inside | inside
  · simp at inside
  · rcases List.mem_append.mp inside with inside | inside
    · exact left s inside
    · exact right s inside

theorem scale {factor : Int} (every : q.EveryFloor P) (h : q.scale factor = .ok r) :
    r.EveryFloor P := by
  by_cases zero : factor = 0
  · rw [Quasi.scale, if_pos zero] at h
    cases h
    exact affine _
  · rw [EveryFloor, terms_scale zero h, List.forall_mem_map]
    exact every

theorem sub (left : a.EveryFloor P) (right : b.EveryFloor P) (h : a.sub b = .ok r) :
    r.EveryFloor P := by
  obtain ⟨negated, negates, adds⟩ := Checked.bind_eq_ok_iff.mp h
  exact left.add (right.scale negates) adds

theorem floorDiv {divisor : Int} (every : q.EveryFloor P) (own : 0 < divisor → P q divisor)
    (h : q.floorDiv divisor = .ok r) : r.EveryFloor P := by
  obtain ⟨positive, ⟨-, rfl⟩ | ⟨_, _, -, -, rfl⟩ | ⟨-, rfl⟩⟩ := floorDiv_cases h
  · exact every
  · exact affine _
  · simpa [EveryFloor, terms] using own positive

theorem modulo {divisor : Int} (every : q.EveryFloor P) (own : 0 < divisor → P q divisor)
    (h : q.modulo divisor = .ok r) : r.EveryFloor P := by
  rcases modulo_cases h with ⟨-, rfl⟩ | ⟨-, quotient, whole, floor, scaled, subtracted⟩
  · exact affine _
  · exact every.sub ((every.floorDiv own floor).scale scaled) subtracted

end EveryFloor

end Quasi

end LoopNest
