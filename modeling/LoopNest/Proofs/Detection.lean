import LoopNest.MatMul.Shape
import LoopNest.Proofs.Bands

/-! A band is found to be a matrix multiplication by its coefficients. What is found is a property
of the instances: along one of three iterators, the written cell stays where it is, and every access
stays or moves on by one in one direction. -/

namespace LoopNest

/-! ## One iterator further -/

theorem Affine.value_next {e : Affine} {it : Nat} {point : List Int} {v : Int} (params : List Int)
    (here : point[it]? = some v) :
    e.value (point.set it (v + 1)) params = e.value point params + e.coeff it := by
  rw [Affine.value_set _ _ _ _ _ (List.getElem?_eq_some_iff.mp here).1, here, Option.getD_some]
  ring

namespace AccessMap

def cell (m : AccessMap) (point params : List Int) : List Int :=
  m.outputs.map (·.value point params)

variable {m : AccessMap} {it : Nat} {point params : List Int} {v : Int}

/-- How far a cell moves when an iterator grows by one. -/
theorem cell_next (here : point[it]? = some v) :
    List.zipWith (· - ·) (m.cell (point.set it (v + 1)) params) (m.cell point params) =
      m.stepAlong it := by
  rw [cell, cell, List.zipWith_map, List.zipWith_self, stepAlong]
  refine List.map_congr_left fun e _ => ?_
  rw [Affine.value_next params here]
  ring

theorem cell_next_eq_iff (here : point[it]? = some v) :
    m.cell (point.set it (v + 1)) params = m.cell point params ↔ m.dependsOn it = false := by
  simp [cell, dependsOn, Affine.dependsOn, Affine.value_next params here]

end AccessMap

namespace MatMul

def IsZeroOrUnit (move : List Int) : Prop :=
  (∃ n, move = List.replicate n 0) ∨ ∃ m n, move = List.replicate m 0 ++ 1 :: List.replicate n 0

theorem filter_eq_nil_iff {move : List Int} :
    move.filter (· ≠ 0) = [] ↔ ∃ n, move = List.replicate n 0 := by
  simp [List.filter_eq_nil_iff, List.eq_replicate_iff]

theorem filter_eq_one_iff {move : List Int} : move.filter (· ≠ 0) = [1] ↔
    ∃ m n, move = List.replicate m 0 ++ 1 :: List.replicate n 0 := by
  rw [List.filter_eq_cons_iff]
  constructor
  · rintro ⟨before, after, rfl, zeros, -, rest⟩
    obtain ⟨n, rfl⟩ := filter_eq_nil_iff.mp rest
    exact ⟨before.length, n, by rw [← List.eq_replicate_of_mem (by simpa using zeros)]⟩
  · rintro ⟨m, n, rfl⟩
    exact ⟨_, _, rfl, by simp, by simp, by simp⟩

theorem isZeroOrUnit_iff {move : List Int} : isZeroOrUnit move = true ↔ IsZeroOrUnit move := by
  rw [IsZeroOrUnit, ← filter_eq_nil_iff, ← filter_eq_one_iff, isZeroOrUnit]
  generalize move.filter (· ≠ 0) = nonzero
  split <;> simp_all

end MatMul

theorem filter_zipIdx_eq_nil_iff {coeffs : List Int} {start : Nat} :
    (coeffs.zipIdx start).filter (·.1 ≠ 0) = [] ↔ ∃ n, coeffs = List.replicate n 0 := by
  rw [← MatMul.filter_eq_nil_iff, List.filter_eq_nil_iff, List.filter_eq_nil_iff]
  conv_rhs => rw [← List.zipIdx_map_fst start coeffs, List.forall_mem_map]

theorem filter_zipIdx_eq_one_iff {coeffs : List Int} {it : Nat} :
    coeffs.zipIdx.filter (·.1 ≠ 0) = [(1, it)] ↔
      ∃ n, coeffs = List.replicate it 0 ++ 1 :: List.replicate n 0 := by
  constructor
  · intro only
    obtain ⟨before, after, split, zeros, -, rest⟩ := List.filter_eq_cons_iff.mp only
    obtain ⟨outer, inner, rfl, rfl, same⟩ := List.zipIdx_eq_append_iff.mp split
    obtain ⟨c, others, rfl, here, rfl⟩ := List.zipIdx_eq_cons_iff.mp same.symm
    obtain ⟨n, rfl⟩ := filter_zipIdx_eq_nil_iff.mp rest
    obtain ⟨m, rfl⟩ := filter_zipIdx_eq_nil_iff.mp (List.filter_eq_nil_iff.mpr zeros)
    obtain ⟨rfl, rfl⟩ : 1 = c ∧ it = m := by simpa using here
    exact ⟨n, rfl⟩
  · rintro ⟨n, rfl⟩
    rw [List.zipIdx_append, List.filter_append, filter_zipIdx_eq_nil_iff.mpr ⟨_, rfl⟩,
      List.zipIdx_cons, List.filter_cons_of_pos (by simp), filter_zipIdx_eq_nil_iff.mpr ⟨_, rfl⟩]
    simp

theorem set_replicate_zero (m n : Nat) : (List.replicate (m + n + 1) (0 : Int)).set m 1 =
    List.replicate m 0 ++ 1 :: List.replicate n 0 := by
  rw [Nat.add_assoc, List.replicate_add, List.set_append_right _ _ (by simp), List.length_replicate,
    Nat.sub_self]
  rfl

theorem Affine.singleVar?_eq_some_iff {e : Affine} {it : Nat} :
    e.singleVar? = some it ↔ ∃ nDim nParam, it < nDim ∧ e = .var it nDim nParam := by
  constructor
  · intro h
    unfold singleVar? at h
    split at h
    · cases h
    · rename_i still
      split at h
      · rename_i dim only
        cases h
        obtain ⟨n, coeffs⟩ := filter_zipIdx_eq_one_iff.mp only
        obtain ⟨constant, params⟩ : e.constant = 0 ∧ ∀ c ∈ e.paramCoeffs, c = 0 := by
          simpa [involvesParams] using still
        have zeros := List.eq_replicate_of_mem params
        refine ⟨it + n + 1, e.paramCoeffs.length, by omega, ?_⟩
        show e = ⟨0, (List.replicate (it + n + 1) 0).set it 1, List.replicate _ 0⟩
        rw [set_replicate_zero, ← coeffs, ← zeros, ← constant]
      · cases h
  · rintro ⟨nDim, nParam, bound, rfl⟩
    obtain ⟨n, rfl⟩ := Nat.exists_eq_add_of_lt bound
    have only : ((var it (it + n + 1) nParam).coeffs.zipIdx).filter (·.1 ≠ 0) = [(1, it)] :=
      filter_zipIdx_eq_one_iff.mpr ⟨n, set_replicate_zero it n⟩
    unfold singleVar?
    rw [only]
    simp [var, zero, const, involvesParams]

def Quasi.IsIterator (e : Quasi) (it : Nat) : Prop :=
  ∃ nDim nParam, it < nDim ∧ e = .var it nDim nParam

theorem Quasi.isIterator_iff {e : Quasi} {it : Nat} :
    e.affine?.bind (·.singleVar?) = some it ↔ e.IsIterator it := by
  cases e with
  | affine e => simp [affine?, Affine.singleVar?_eq_some_iff, IsIterator, var]
  | plus => simp [affine?, IsIterator, var]

theorem mapM_eq_some_iff {α β : Type} {f : α → Option β} {items : List α} {results : List β} :
    items.mapM f = some results ↔
      List.Forall₂ (fun item result => f item = some result) items results := by
  induction items generalizing results with
  | nil => simp [eq_comm]
  | cons item rest ih =>
    simp only [List.mapM_cons, Option.bind_eq_bind, Option.bind_eq_some_iff, ih, Option.pure_def,
      Option.some.injEq, List.forall₂_cons_left_iff]
    constructor
    · rintro ⟨result, head, others, tail, rfl⟩
      exact ⟨result, others, head, tail, rfl⟩
    · rintro ⟨result, others, head, tail, rfl⟩
      exact ⟨result, head, others, tail, rfl⟩

namespace MatMul

/-! ## Reductions -/

variable {stmt i j k it : Nat} {accesses : List Access} {write : Access} {shape : MatMulShape}

/-- Whatever the instance, one step of an iterator leaves the written cell where it is, and moves
every access by one cell in one direction or not at all. -/
def ReducesAlong (accesses : List Access) (write : Access) (it : Nat) : Prop :=
  ∀ (point params : List Int) (v : Int), point[it]? = some v →
    write.relation.cell (point.set it (v + 1)) params = write.relation.cell point params ∧
      ∀ access ∈ accesses, IsZeroOrUnit (List.zipWith (· - ·)
        (access.relation.cell (point.set it (v + 1)) params) (access.relation.cell point params))

/-- The coefficients decide what happens at every instance. -/
theorem isReduction_iff :
    isReduction accesses write it = true ↔ ReducesAlong accesses write it := by
  simp only [isReduction, Bool.and_eq_true, List.all_eq_true, Bool.not_eq_true', isZeroOrUnit_iff]
  constructor
  · rintro ⟨moves, still⟩ point params v here
    rw [AccessMap.cell_next_eq_iff here]
    refine ⟨still, fun access member => ?_⟩
    rw [AccessMap.cell_next here]
    exact moves access member
  · intro reduces
    have here : (List.replicate (it + 1) (0 : Int))[it]? = some 0 := by simp
    obtain ⟨still, moves⟩ := reduces _ [] 0 here
    refine ⟨fun access member => ?_, (AccessMap.cell_next_eq_iff here).mp still⟩
    rw [← AccessMap.cell_next here]
    exact moves access member

def IsInnermost (P : Nat → Prop) (iterators : List Nat) (d : Nat) : Prop :=
  ∃ outer it inner, iterators = outer ++ it :: inner ∧ outer.length = d ∧ P it ∧
    ∀ other ∈ inner, ¬ P other

@[simp]
theorem stmt_shapeWith (reduction : Nat) (x y : Nat × Nat) :
    (shapeWith stmt write reduction x y).stmt = stmt := by
  unfold shapeWith
  split <;> rfl

@[simp]
theorem reduction_shapeWith (reduction : Nat) (x y : Nat × Nat) :
    (shapeWith stmt write reduction x y).reduction = reduction := by
  unfold shapeWith
  split <;> rfl

theorem isSome_shapeOf? : (shapeOf? stmt accesses write i j k).isSome = true ↔
    ∃ it ∈ [i, j, k], ReducesAlong accesses write it := by
  simp only [shapeOf?, ← isReduction_iff]
  split_ifs <;> simp_all

theorem permutation_shapeWith (reduction : Nat) (x y : Nat × Nat) :
    (shapeWith stmt write reduction x y).permutation.Perm [reduction, x.1, y.1] := by
  unfold shapeWith
  split
  · exact .cons _ (.swap ..)
  · rfl

/-- The innermost reduction is found, and the other two members are given their parts. -/
theorem exists_of_shapeOf? (found : shapeOf? stmt accesses write i j k = some shape) :
    ∃ reduction x y, shape = shapeWith stmt write reduction x y ∧
      [reduction, x.1, y.1].Perm (List.range 3) ∧
      IsInnermost (ReducesAlong accesses write) [i, j, k] reduction := by
  simp only [IsInnermost, ← isReduction_iff]
  unfold shapeOf? at found
  split_ifs at found with isK isJ isI
  · cases found
    have perm : [2, 0, 1].Perm (List.range 3) := by decide
    exact ⟨2, (0, i), (1, j), rfl, perm, [i, j], k, [], rfl, rfl, isK, by simp⟩
  · cases found
    have perm : [1, 0, 2].Perm (List.range 3) := by decide
    exact ⟨1, (0, i), (2, k), rfl, perm, [i], j, [k], rfl, rfl, isJ, by simpa using isK⟩
  · cases found
    exact ⟨0, (1, j), (2, k), rfl, .rfl, [], i, [j, k], rfl, rfl, isI, by simp [isJ, isK]⟩

theorem perm_of_shapeOf? (found : shapeOf? stmt accesses write i j k = some shape) :
    shape.permutation.Perm (List.range 3) := by
  obtain ⟨reduction, x, y, rfl, perm, -⟩ := exists_of_shapeOf? found
  exact (permutation_shapeWith reduction x y).trans perm

theorem isInnermost_of_shapeOf? (found : shapeOf? stmt accesses write i j k = some shape) :
    shape.stmt = stmt ∧ IsInnermost (ReducesAlong accesses write) [i, j, k] shape.reduction := by
  obtain ⟨reduction, x, y, rfl, -, innermost⟩ := exists_of_shapeOf? found
  simpa using innermost

/-- The write at the end of the accesses, which are reads otherwise. -/
theorem finalWrite?_eq_some_iff : finalWrite? accesses = some write ↔ write.isWrite = true ∧
    ∃ reads, reads ≠ [] ∧ accesses = reads ++ [write] ∧ ∀ access ∈ reads, access.isRead = true := by
  rcases accesses.eq_nil_or_concat with rfl | ⟨reads, last, rfl⟩
  · simp [finalWrite?]
  · simp only [finalWrite?, List.concat_eq_append, List.getLast?_append_cons,
      List.getLast?_singleton, List.dropLast_concat]
    constructor
    · intro found
      split at found
      · cases found
        simp_all
      · cases found
    · rintro ⟨isWrite, others, some, same, isRead⟩
      obtain ⟨rfl, rfl⟩ := List.append_singleton_inj.mp same
      simp_all

theorem isPermutation_of_perm {positions : List Nat} {n : Nat}
    (perm : positions.Perm (List.range n)) : Edit.isPermutation positions n = true := by
  have length : positions.length = n := by simpa using perm.length_eq
  have bound : ∀ d ∈ positions, d < n := fun d member => by simpa using perm.mem_iff.mp member
  simpa [Edit.isPermutation, length] using ⟨bound, perm.nodup_iff.mpr List.nodup_range⟩

/-! ## Candidates -/

/-- What a node is, the moves of its accesses aside: a band of three loops over distinct iterators
that is reached by one statement, which reads and then writes. -/
structure Candidate (a : Arena) (scop : Scop) (id stmt : Nat) (s : Statement)
    (iterators : List Nat) (write : Access) : Prop where
  band : ∃ band exprs, a.band? id = some band ∧ band.nMembers = 3 ∧
    band.schedule.get? stmt = some exprs ∧ List.Forall₂ Quasi.IsIterator exprs iterators
  distinct : iterators.Nodup
  reached : (a.reaching id).keys = [stmt]
  known : scop.statement? stmt = some s
  writes : write.isWrite = true
  reads : ∃ reads, reads ≠ [] ∧ s.accesses = reads ++ [write] ∧
    ∀ access ∈ reads, access.isRead = true

variable {a : Arena} {scop : Scop} {id : Nat} {s : Statement} {iterators : List Nat}

theorem Candidate.matMulShape?_eq (h : Candidate a scop id stmt s [i, j, k] write) :
    a.matMulShape? scop id = .ok (shapeOf? stmt s.accesses write i j k) := by
  obtain ⟨band, exprs, own, three, scheduled, each⟩ := h.band
  have plain : exprs.mapM (fun e => e.affine?.bind (·.singleVar?)) = some [i, j, k] := by
    simpa only [mapM_eq_some_iff, Quasi.isIterator_iff] using each
  have final := finalWrite?_eq_some_iff.mpr ⟨h.writes, h.reads⟩
  obtain ⟨⟨ij, ik⟩, jk⟩ : (i ≠ j ∧ i ≠ k) ∧ j ≠ k := by simpa using h.distinct
  simp [Arena.matMulShape?, own, three, h.reached, h.known, scheduled, plain, final, ij, ik, jk]

theorem Candidate.exists_iterators (h : Candidate a scop id stmt s iterators write)
    (arity : ∀ band, a.band? id = some band → band.HasArity) : ∃ i j k, iterators = [i, j, k] := by
  obtain ⟨band, exprs, own, three, scheduled, each⟩ := h.band
  have length := Band.hasArity_iff.mp (arity band own) stmt exprs scheduled
  exact List.length_eq_three.mp (each.length_eq.symm.trans (length.trans three))

/-- A node is passed over, or it is looked at as a candidate. -/
theorem matMulShape?_eq_none_or_candidate (scop : Scop)
    (arity : ∀ band, a.band? id = some band → band.HasArity) :
    a.matMulShape? scop id = .ok none ∨
      ∃ stmt s i j k write, Candidate a scop id stmt s [i, j, k] write := by
  cases own : a.band? id with
  | none => exact .inl (by simp [Arena.matMulShape?, own])
  | some band =>
    by_cases three : band.nMembers = 3
    · simp only [Arena.matMulShape?, own, three, ne_eq, not_true_eq_false, if_false]
      split
      · rename_i stmt reached
        split
        · rename_i s exprs known scheduled
          have length := (Band.hasArity_iff.mp (arity band own) stmt exprs scheduled).trans three
          cases plain : exprs.mapM fun e => e.affine?.bind (·.singleVar?) with
          | none => exact .inl rfl
          | some iterators =>
            have each := mapM_eq_some_iff.mp plain
            obtain ⟨i, j, k, rfl⟩ := List.length_eq_three.mp (each.length_eq.symm.trans length)
            by_cases distinct : [i, j, k].Nodup
            · cases final : finalWrite? s.accesses with
              | none => exact .inl (by simp)
              | some write =>
                obtain ⟨writes, reads⟩ := finalWrite?_eq_some_iff.mp final
                simp only [Quasi.isIterator_iff] at each
                exact .inr ⟨stmt, s, i, j, k, write, ⟨band, exprs, own, three, scheduled, each⟩,
                  distinct, reached, known, writes, reads⟩
            · have twice : i = j ∨ j = k ∨ i = k := by
                simp at distinct
                omega
              rcases twice with rfl | same
              · exact .inl (by simp)
              · exact .inl (by simp [same])
        · exact .inl rfl
      · exact .inl rfl
    · exact .inl (by simp [Arena.matMulShape?, own, three])

theorem exists_answer (scop : Scop) (arity : ∀ band, a.band? id = some band → band.HasArity) :
    ∃ shape?, a.matMulShape? scop id = .ok shape? := by
  rcases matMulShape?_eq_none_or_candidate scop arity with passed | ⟨_, _, _, _, _, _, h⟩
  · exact ⟨none, passed⟩
  · exact ⟨_, h.matMulShape?_eq⟩

theorem exists_candidate (arity : ∀ band, a.band? id = some band → band.HasArity)
    (found : a.matMulShape? scop id = .ok (some shape)) :
    ∃ s i j k write, Candidate a scop id shape.stmt s [i, j, k] write ∧
      shapeOf? shape.stmt s.accesses write i j k = some shape := by
  rcases matMulShape?_eq_none_or_candidate scop arity with passed | ⟨stmt, s, i, j, k, write, h⟩
  · cases found.symm.trans passed
  · have shapes := Except.ok.inj (h.matMulShape?_eq.symm.trans found)
    obtain ⟨rfl, -⟩ := isInnermost_of_shapeOf? shapes
    exact ⟨s, i, j, k, write, h, shapes⟩

end MatMul

namespace Arena

variable {a : Arena} {id : Nat}

/-- A band that has an expression for each of its loops is looked at without a fault. A matrix
multiplication has three loops, and its parts are an order of them. -/
theorem exists_matMulShape? {band : Band} (scop : Scop) (own : a.band? id = some band)
    (arities : band.HasArity) :
    ∃ shape?, a.matMulShape? scop id = .ok shape? ∧ ∀ shape, shape? = some shape →
      band.nMembers = 3 ∧ Edit.isPermutation shape.permutation 3 = true := by
  have arity : ∀ band, a.band? id = some band → band.HasArity := by simpa [own] using arities
  rcases MatMul.matMulShape?_eq_none_or_candidate scop arity with
    passed | ⟨stmt, s, i, j, k, write, h⟩
  · exact ⟨none, passed, by simp⟩
  · obtain ⟨_, _, same, three, -⟩ := h.band
    cases own.symm.trans same
    refine ⟨_, h.matMulShape?_eq, fun shape found => ⟨three, ?_⟩⟩
    exact MatMul.isPermutation_of_perm (MatMul.perm_of_shapeOf? found)

/-- What is found is a matrix multiplication, all of them are found, and the reduction is the
innermost one that there is. -/
theorem matMulShape_detects (a : Arena) (scop : Scop) (id : Nat)
    (arity : ∀ band, a.band? id = some band → band.HasArity) :
    ∃ shape?, a.matMulShape? scop id = .ok shape? ∧
      (shape?.isSome = true ↔ ∃ stmt s iterators write,
        MatMul.Candidate a scop id stmt s iterators write ∧
          ∃ it ∈ iterators, MatMul.ReducesAlong s.accesses write it) ∧
      ∀ shape, shape? = some shape → shape.permutation.Perm [0, 1, 2] ∧
        ∃ s iterators write, MatMul.Candidate a scop id shape.stmt s iterators write ∧
          MatMul.IsInnermost (MatMul.ReducesAlong s.accesses write) iterators shape.reduction := by
  obtain ⟨shape?, answer⟩ := MatMul.exists_answer scop arity
  refine ⟨shape?, answer, ⟨fun isShape => ?_, ?_⟩, fun shape found => ?_⟩
  · obtain ⟨shape, rfl⟩ := Option.isSome_iff_exists.mp isShape
    obtain ⟨s, i, j, k, write, h, shapes⟩ := MatMul.exists_candidate arity answer
    exact ⟨_, s, _, write, h, MatMul.isSome_shapeOf?.mp (shapes ▸ isShape)⟩
  · rintro ⟨stmt, s, iterators, write, h, reduces⟩
    obtain ⟨i, j, k, rfl⟩ := h.exists_iterators arity
    cases h.matMulShape?_eq.symm.trans answer
    exact MatMul.isSome_shapeOf?.mpr reduces
  · subst found
    obtain ⟨s, i, j, k, write, h, shapes⟩ := MatMul.exists_candidate arity answer
    exact ⟨MatMul.perm_of_shapeOf? shapes, s, _, write, h,
      (MatMul.isInnermost_of_shapeOf? shapes).2⟩

end Arena

/-- `C[i][j] += A[i][k] * B[k][j]`, with the loops `k`, `j`, `i` from the outermost in. -/
def Scop.product : Scop :=
  let cell (array : String) (kind : AccessKind) (dims : List Nat) : Access :=
    ⟨array, kind, .projection 3 0 dims⟩
  let loops : Band := .ofSchedule [⟨true, true⟩, ⟨true, true⟩, ⟨true, true⟩]
    (.ofList [(0, [.var 2 3 0, .var 1 3 0, .var 0 3 0])])
  { name := "product"
    parameters := []
    context := .whole 0 0
    statements := [⟨0, "S", ["i", "j", "k"], .whole 3 0, [cell "C" .read [0, 1],
      cell "A" .read [0, 2], cell "B" .read [2, 1], cell "C" .write [0, 1]]⟩]
    schedule :=
      ⟨#[⟨.domain (.ofList [(0, .whole 3 0)]), [1]⟩, ⟨.band loops, [2]⟩, ⟨.leaf, []⟩], 0⟩ }

/-- The outermost loop is the reduction, and the rows of `C` are in the innermost one. -/
theorem Scop.product_detected : (∀ band ∈ product.schedule.band? 1, band.HasArity) ∧
    product.schedule.matMulShape? product 1 = .ok (some ⟨0, 0, 2, 1⟩) ∧
      ∃ s iterators write, MatMul.Candidate product.schedule product 1 0 s iterators write ∧
        MatMul.IsInnermost (MatMul.ReducesAlong s.accesses write) iterators 0 := by
  have answer : product.schedule.matMulShape? product 1 = .ok (some ⟨0, 0, 2, 1⟩) := by
    decide +kernel
  have arity : ∀ band ∈ product.schedule.band? 1, band.HasArity := by decide +kernel
  obtain ⟨shape?, same, -, found⟩ := Arena.matMulShape_detects product.schedule product 1 arity
  cases answer.symm.trans same
  exact ⟨arity, answer, (found _ rfl).2⟩

end LoopNest
