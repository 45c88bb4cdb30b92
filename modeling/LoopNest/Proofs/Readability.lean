import LoopNest.Proofs.Dependence
import LoopNest.Proofs.Sums
import LoopNest.Quasi.Text
import Mathlib.Data.List.DropRight

/-! The text of an expression is that of a sum: the iterators and parameters that appear, the
constant, and the floors, whose numerators are written in the same way. The sum is read from the
text, and the coefficients are read from the sum, so expressions with one text differ at most in
zeros at the ends of their lists of coefficients. -/

namespace LoopNest

/-! ## Zeros at the end of a list -/

section Zeros

variable {xs ys : List Int}

theorem exists_zeros (xs : List Int) :
    ∃ n, xs = xs.rdropWhile (· = 0) ++ List.replicate n 0 := by
  have zero : ∀ x ∈ xs.rtakeWhile (· = 0), x = 0 := by
    intro x mem
    simpa using List.mem_rtakeWhile_imp mem
  refine ⟨(xs.rtakeWhile (· = 0)).length, ?_⟩
  rw [← List.eq_replicate_of_mem zero, List.rdropWhile_append_rtakeWhile]

theorem getD_rdropWhile (xs : List Int) (d : Nat) :
    (xs.rdropWhile (· = 0))[d]?.getD 0 = xs[d]?.getD 0 := by
  obtain ⟨n, split⟩ := exists_zeros xs
  generalize xs.rdropWhile (· = 0) = front at split
  subst split
  rw [List.getElem?_append]
  split
  · rfl
  · rename_i beyond
    rw [List.getElem?_eq_none (by omega), List.getElem?_replicate]
    split <;> rfl

/-- A list that does not end with a zero is no longer than one with the same entries. -/
theorem length_le_of_getD (same : ∀ d : Nat, xs[d]?.getD 0 = ys[d]?.getD 0)
    (last : ∀ ne : xs ≠ [], xs.getLast ne ≠ 0) : xs.length ≤ ys.length := by
  by_contra longer
  have ne : xs ≠ [] := by
    rintro rfl
    simp at longer
  have final := same (xs.length - 1)
  rw [← List.getLast?_eq_getElem?, List.getLast?_eq_some_getLast ne,
    List.getElem?_eq_none (by omega)] at final
  exact last ne final

/-- Lists with the same entries are equal without their last zeros. -/
theorem rdropWhile_eq_of_getD (same : ∀ d : Nat, xs[d]?.getD 0 = ys[d]?.getD 0) :
    xs.rdropWhile (· = 0) = ys.rdropWhile (· = 0) := by
  have last (zs : List Int) (ne : zs.rdropWhile (· = 0) ≠ []) :
      (zs.rdropWhile (· = 0)).getLast ne ≠ 0 := by
    simpa using List.rdropWhile_last_not _ zs ne
  have entries (d : Nat) :
      (xs.rdropWhile (· = 0))[d]?.getD 0 = (ys.rdropWhile (· = 0))[d]?.getD 0 := by
    rw [getD_rdropWhile, getD_rdropWhile, same]
  have lengths := Nat.le_antisymm (length_le_of_getD entries (last xs))
    (length_le_of_getD (fun d => (entries d).symm) (last ys))
  refine List.ext_getElem lengths fun d h h' => ?_
  simpa [h, h'] using entries d

theorem filter_zipIdx_rdropWhile (xs : List Int) :
    (xs.rdropWhile (· = 0)).zipIdx.filter (·.1 ≠ 0) = xs.zipIdx.filter (·.1 ≠ 0) := by
  obtain ⟨n, split⟩ := exists_zeros xs
  generalize xs.rdropWhile (· = 0) = front at split
  subst split
  have zeros (k : Nat) : ((List.replicate n (0 : Int)).zipIdx k).filter (·.1 ≠ 0) = [] := by
    rw [List.filter_eq_nil_iff]
    rintro ⟨x, i⟩ mem
    simpa using (List.mem_replicate.mp (List.fst_mem_of_mem_zipIdx mem)).2
  rw [List.zipIdx_append, List.filter_append, zeros, List.append_nil]

end Zeros

/-! ## Affine expressions as sums -/

def orZero (summands : List Summand) : List Summand :=
  if summands = [] then [⟨0, .one⟩] else summands

theorem orZero_of_ne {summands : List Summand} (ne : summands ≠ []) :
    orZero summands = summands := if_neg ne

/-- A zero is written only if there is nothing else. -/
theorem eq_of_orZero {summands others : List Summand} (zero : ⟨0, .one⟩ ∉ summands)
    (zero' : ⟨0, .one⟩ ∉ others) (same : orZero summands = orZero others) : summands = others := by
  by_cases none : summands = [] <;> by_cases none' : others = [] <;>
    simp only [orZero, none, none', if_true, if_false] at same
  · rw [none, none']
  · simp [← same] at zero'
  · simp [same] at zero
  · exact same

namespace Affine

variable {e e' : Affine}

/-- Without the zeros at the ends of the lists. -/
def trimmed (e : Affine) : Affine where
  constant := e.constant
  coeffs := e.coeffs.rdropWhile (· = 0)
  paramCoeffs := e.paramCoeffs.rdropWhile (· = 0)

def coeffOf (e : Affine) : Factor → Int
  | .one => e.constant
  | .dim index => e.coeff index
  | .param index => e.paramCoeff index
  | .floor _ _ => 0

def named (e : Affine) : List Summand :=
  ((e.coeffs.zipIdx.filter (·.1 ≠ 0)).map fun (c, d) => ⟨c, .dim d⟩) ++
    (e.paramCoeffs.zipIdx.filter (·.1 ≠ 0)).map fun (c, k) => ⟨c, .param k⟩

def summands (e : Affine) : List Summand :=
  e.named ++ if e.constant = 0 then [] else [⟨e.constant, .one⟩]

theorem mem_zipIdx_filter {xs : List Int} {c : Int} {d : Nat} :
    (c, d) ∈ xs.zipIdx.filter (·.1 ≠ 0) ↔ c ≠ 0 ∧ xs[d]?.getD 0 = c := by
  rw [List.mem_filter, List.mem_zipIdx_iff_getElem?]
  cases xs[d]? with
  | none => grind
  | some x => grind

/-- A sum shows all coefficients that are not zero. -/
theorem mem_summands {s : Summand} :
    s ∈ e.summands ↔ s.coeff ≠ 0 ∧ e.coeffOf s.factor = s.coeff := by
  have last : s ∈ (if e.constant = 0 then [] else [(⟨e.constant, .one⟩ : Summand)]) ↔
      s.factor = .one ∧ s.coeff ≠ 0 ∧ e.constant = s.coeff := by
    cases s
    split <;> grind
  rw [summands, named, List.mem_append, List.mem_append, last, List.mem_map, List.mem_map]
  simp only [Prod.exists, mem_zipIdx_filter]
  obtain ⟨c, factor⟩ := s
  cases factor <;> simp [coeffOf, coeff, paramCoeff] <;> grind

theorem trimmed_eq_of_summands (same : e.summands = e'.summands) : e.trimmed = e'.trimmed := by
  have coeffs (factor : Factor) : e.coeffOf factor = e'.coeffOf factor := by
    have shown := @mem_summands e ⟨e.coeffOf factor, factor⟩
    have shown' := @mem_summands e' ⟨e'.coeffOf factor, factor⟩
    rw [same, mem_summands] at shown
    rw [← same, mem_summands] at shown'
    simp only [and_true] at shown shown'
    grind
  rw [trimmed, trimmed, rdropWhile_eq_of_getD fun d => coeffs (.dim d),
    rdropWhile_eq_of_getD fun k => coeffs (.param k)]
  exact congrArg (Affine.mk · _ _) (coeffs .one)

/-! ## The sum is what is written -/

theorem namedTerms_eq (e : Affine) :
    e.namedTerms .none = e.named.map fun s => (s.coeff, s.factor.text) := by
  simp only [namedTerms, named, List.filter_map, List.map_append, List.map_map]
  rfl

theorem factor_ne_one {s : Summand} (member : s ∈ e.named) : s.factor ≠ .one := by
  simp only [named, List.mem_append, List.mem_map] at member
  rcases member with ⟨_, -, rfl⟩ | ⟨_, -, rfl⟩ <;> simp

end Affine

theorem body_of_magnitude {s : Summand} {term : String} (proper : s.factor ≠ .one)
    (h : magnitude s.coeff s.factor.text = .ok term) : term = s.body := by
  simp only [magnitude, Word.abs, Checked.bind_eq_ok_iff, Word.narrow_eq_ok_iff] at h
  obtain ⟨_, ⟨-, rfl⟩, h⟩ := h
  rw [Summand.body, if_neg proper, ← Except.ok.inj h]
  by_cases unit : s.coeff.natAbs = 1
  · rw [if_pos unit, if_pos (by omega)]
  · rw [if_neg unit, if_neg (by omega)]
    rfl

namespace Affine

theorem eq_foldl_of_renderTerms {summands : List Summand} {text result : String}
    (proper : ∀ s ∈ summands, s.factor ≠ .one)
    (h : renderTerms text text.isEmpty (summands.map fun s => (s.coeff, s.factor.text)) =
      .ok result) : result = summands.foldl Summand.append text := by
  induction summands generalizing text with
  | nil => exact (Except.ok.inj h).symm
  | cons s rest ih =>
    obtain ⟨here, later⟩ := List.forall_mem_cons.mp proper
    simp only [List.map_cons, renderTerms, Checked.bind_eq_ok_iff] at h
    obtain ⟨term, written, h⟩ := h
    obtain rfl := body_of_magnitude here written
    have started : (Summand.append text s).isEmpty = false := by
      simpa using Summand.append_ne text s
    rw [← started] at h
    exact ih later h

theorem append_constant {text : String} (started : text ≠ "") (c : Int) :
    Summand.append text ⟨c, .one⟩ =
      text ++ (if c < 0 then " - " else " + ") ++ toString c.natAbs := by
  have inside : text.isEmpty = false := by simpa using started
  by_cases negative : c < 0 <;>
    simp [Summand.append, appendSigned, Summand.body, inside, negative]

/-- The constant alone has its sign in front. -/
theorem sumText_constant (c : Int) : sumText [⟨c, .one⟩] = toString c := by
  rw [← String.toList_inj]
  rcases Json.numeral_cases c with ⟨n, rfl, text⟩ | ⟨n, positive, rfl, text⟩ <;>
    rw [text, toList_sumText_cons, Summand.body_one rfl]
  · simp
  · simp [positive]

theorem eq_sumText_of_render {e : Affine} {text : String} (h : e.render .none = .ok text) :
    text = sumText (orZero e.summands) := by
  simp only [render, namedTerms_eq, Checked.bind_eq_ok_iff] at h
  obtain ⟨start, rendered, h⟩ := h
  obtain rfl : start = sumText e.named :=
    eq_foldl_of_renderTerms (fun s member => factor_ne_one member) rendered
  cases named : e.named with
  | nil =>
    have alone : orZero e.summands = [⟨e.constant, .one⟩] := by
      by_cases zero : e.constant = 0 <;> simp [summands, named, orZero, zero]
    rw [named] at h
    rw [alone, sumText_constant]
    exact (Except.ok.inj h).symm
  | cons s rest =>
    have started : sumText e.named ≠ "" := by
      rw [named]
      exact sumText_ne s rest
    have more : e.summands ≠ [] := by simp [summands, named]
    have last (nonzero : e.constant ≠ 0) :
        sumText e.summands = Summand.append (sumText e.named) ⟨e.constant, .one⟩ := by
      rw [summands, if_neg nonzero, sumText_concat]
    rw [orZero_of_ne more]
    rw [if_neg (by simpa using started)] at h
    have numeral (n : Nat) : toString (n : Int) = toString n := rfl
    rcases lt_trichotomy e.constant 0 with negative | zero | positive
    · rw [if_neg (by omega), if_pos negative, Checked.bind_eq_ok_iff] at h
      obtain ⟨size, negated, h⟩ := h
      obtain ⟨-, rfl⟩ := Word.neg_eq_ok_iff.mp negated
      rw [last (by omega), append_constant started, if_pos negative, ← Except.ok.inj h, ← numeral,
        Int.ofNat_natAbs_of_nonpos (by omega)]
      rfl
    · rw [if_neg (by omega), if_neg (by omega)] at h
      rw [summands, if_pos zero, List.append_nil]
      exact (Except.ok.inj h).symm
    · rw [if_pos positive] at h
      rw [last (by omega), append_constant started, if_neg (by omega), ← Except.ok.inj h, ← numeral,
        Int.natAbs_of_nonneg (by omega)]
      rfl

theorem summands_eq_nil_iff {e : Affine} : e.summands = [] ↔ e.isZero = true := by
  have zeros (xs : List Int) : xs.zipIdx.filter (·.1 ≠ 0) = [] ↔ xs.all (· = 0) = true := by
    conv_rhs => rw [← List.zipIdx_map_fst 0 xs]
    rw [List.filter_eq_nil_iff, List.all_eq_true, List.forall_mem_map]
    simp
  rw [summands, named, List.append_eq_nil_iff, List.append_eq_nil_iff, List.map_eq_nil_iff,
    List.map_eq_nil_iff, zeros, zeros, isZero, isConstant]
  by_cases zero : e.constant = 0 <;> simp [zero]

end Affine

/-! ## Expressions with floors -/

structure FloorTerm.WrittenAs (term : FloorTerm) (s : Summand) : Prop where
  coeff : s.coeff = term.coeff
  factor : ∃ inner, term.numerator.render .none = .ok inner ∧
    s.factor = .floor inner term.denominator

namespace Quasi

variable {q a b : Quasi} {text : String}

theorem renderFloors_plus (names : Names) (rest : Quasi) (c : Int) (n : Quasi) (d : Int) :
    (plus rest c n d).renderFloors names = do
      let text ← rest.renderFloors names
      let inner ← n.render names
      let term ← magnitude c s!"floor(({inner})/{d})"
      return appendSigned text (c < 0) term text.isEmpty := by
  cases n <;> rfl

theorem exists_floors_of_renderFloors (h : q.renderFloors .none = .ok text) :
    ∃ floors, List.Forall₂ FloorTerm.WrittenAs q.terms floors ∧
      text = sumText (q.base.summands ++ floors) := by
  induction q generalizing text with
  | affine e =>
    refine ⟨[], .nil, ?_⟩
    rw [List.append_nil, base]
    rw [renderFloors] at h
    by_cases zero : e.isZero = true
    · rw [if_pos zero] at h
      rw [Affine.summands_eq_nil_iff.mpr zero]
      exact (Except.ok.inj h).symm
    · rw [if_neg zero] at h
      rw [Affine.eq_sumText_of_render h,
        orZero_of_ne fun none => zero (Affine.summands_eq_nil_iff.mp none)]
  | plus rest c n d outer _ =>
    simp only [renderFloors_plus, Checked.bind_eq_ok_iff] at h
    obtain ⟨before, first, inner, numerator, term, sized, h⟩ := h
    obtain ⟨floors, written, rfl⟩ := outer first
    have last : term = (⟨c, .floor inner d⟩ : Summand).body := body_of_magnitude (by simp) sized
    refine ⟨floors ++ [⟨c, .floor inner d⟩], ?_, ?_⟩
    · exact List.rel_append written (.cons ⟨rfl, inner, numerator, rfl⟩ .nil)
    · rw [← Except.ok.inj h, last, base, ← List.append_assoc, sumText_concat]
      rfl

/-- The text of an expression is that of a sum. -/
theorem exists_floors_of_render (h : q.render .none = .ok text) :
    ∃ floors, List.Forall₂ FloorTerm.WrittenAs q.terms floors ∧
      text = sumText (orZero (q.base.summands ++ floors)) := by
  cases q with
  | affine e =>
    refine ⟨[], .nil, ?_⟩
    rw [List.append_nil]
    exact Affine.eq_sumText_of_render h
  | plus rest c n d =>
    obtain ⟨floors, written, rfl⟩ := exists_floors_of_renderFloors h
    have some : floors ≠ [] := by
      rintro rfl
      have lengths := written.length_eq
      simp [terms] at lengths
    exact ⟨floors, written, by rw [orZero_of_ne (by simp [some])]⟩

/-! ## Reading an expression -/

/-- A fact about an expression follows from the fact for all its numerators. -/
theorem induction_on_numerators {motive : Quasi → Prop}
    (step : ∀ q, (∀ t ∈ q.terms, motive t.numerator) → motive q) (q : Quasi) : motive q :=
  step q fun t _ => induction_on_numerators step t.numerator
termination_by sizeOf q
decreasing_by exact sizeOf_numerator_lt ‹_›

section Written

variable {floors : List Summand}

theorem not_isFloor {e : Affine} {s : Summand} (member : s ∈ e.summands) :
    s.factor.isFloor = false := by
  obtain ⟨nonzero, shown⟩ := Affine.mem_summands.mp member
  cases factor : s.factor with
  | floor =>
    rw [factor] at shown
    exact absurd shown.symm nonzero
  | _ => rfl

theorem isFloor_of_written (written : List.Forall₂ FloorTerm.WrittenAs q.terms floors)
    {s : Summand} (member : s ∈ floors) : s.factor.isFloor = true := by
  obtain ⟨t, -, -, inner, -, factor⟩ := (exists_of_forall₂ written).2 s member
  rw [factor]
  rfl

theorem writable_of_written (written : List.Forall₂ FloorTerm.WrittenAs q.terms floors)
    (nested : ∀ t ∈ q.terms, ∀ inner, t.numerator.render .none = .ok inner → Nested inner.toList) :
    ∀ s ∈ orZero (q.base.summands ++ floors), s.factor.Writable := by
  have each : ∀ s ∈ q.base.summands ++ floors, s.factor.Writable := by
    intro s member
    rcases List.mem_append.mp member with member | member
    · have plain := not_isFloor member
      cases factor : s.factor with
      | floor =>
        rw [factor] at plain
        cases plain
      | _ => trivial
    · obtain ⟨t, inside, -, inner, rendered, factor⟩ := (exists_of_forall₂ written).2 s member
      rw [factor]
      exact nested t inside inner rendered
  unfold orZero
  split
  · simp [Factor.Writable]
  · exact each

theorem zero_not_mem (written : List.Forall₂ FloorTerm.WrittenAs q.terms floors) :
    ⟨0, .one⟩ ∉ q.base.summands ++ floors := by
  intro member
  rcases List.mem_append.mp member with member | member
  · exact (Affine.mem_summands.mp member).1 rfl
  · cases isFloor_of_written written member

/-- The floors come behind the affine part. -/
theorem filter_written (written : List.Forall₂ FloorTerm.WrittenAs q.terms floors) :
    (q.base.summands ++ floors).filter (·.factor.isFloor) = floors ∧
      (q.base.summands ++ floors).filter (!·.factor.isFloor) = q.base.summands := by
  have plain (s : Summand) (member : s ∈ q.base.summands) := not_isFloor member
  have proper (s : Summand) (member : s ∈ floors) := isFloor_of_written written member
  rw [List.filter_append, List.filter_append]
  constructor
  · rw [List.filter_eq_nil_iff.mpr (by simpa using plain), List.filter_eq_self.mpr proper,
      List.nil_append]
  · rw [List.filter_eq_self.mpr (by simpa using plain),
      List.filter_eq_nil_iff.mpr (by simpa using proper), List.append_nil]

end Written

theorem nested_of_render (h : q.render .none = .ok text) : Nested text.toList := by
  induction q using induction_on_numerators generalizing text with
  | step q ih =>
    obtain ⟨floors, written, rfl⟩ := exists_floors_of_render h
    exact nested_sumText (writable_of_written written fun t member inner => ih t member)

/-- Without the zeros at the ends of the lists, in the numerators too. -/
def trimmed : Quasi → Quasi
  | affine e => affine e.trimmed
  | plus rest c n d => plus rest.trimmed c n.trimmed d

theorem base_trimmed (q : Quasi) : q.trimmed.base = q.base.trimmed := by
  induction q with
  | affine e => rfl
  | plus rest c n d outer _ => exact outer

theorem terms_trimmed (q : Quasi) :
    q.trimmed.terms = q.terms.map fun t => { t with numerator := t.numerator.trimmed } := by
  induction q with
  | affine e => rfl
  | plus rest c n d outer _ => simp [trimmed, terms, outer]

theorem trimmed_terms_eq {terms others : List FloorTerm} {floors : List Summand}
    (read : ∀ t ∈ terms, ∀ (b : Quasi) (text : String), t.numerator.render .none = .ok text →
      b.render .none = .ok text → t.numerator.trimmed = b.trimmed)
    (written : List.Forall₂ FloorTerm.WrittenAs terms floors)
    (written' : List.Forall₂ FloorTerm.WrittenAs others floors) :
    (terms.map fun t => { t with numerator := t.numerator.trimmed }) =
      others.map fun t => { t with numerator := t.numerator.trimmed } := by
  induction written generalizing others with
  | nil =>
    cases written'
    rfl
  | @cons t s _ _ head _ ih =>
    obtain ⟨here, later⟩ := List.forall_mem_cons.mp read
    cases written' with
    | @cons t' _ _ _ head' tail' =>
      obtain ⟨coeff, inner, rendered, factor⟩ := head
      obtain ⟨coeff', inner', rendered', factor'⟩ := head'
      obtain ⟨rfl, denominators⟩ := Factor.floor.inj (factor.symm.trans factor')
      rw [List.map_cons, List.map_cons, ih later tail', here t'.numerator inner rendered rendered',
        ← coeff, coeff', denominators]

/-- Expressions with one text are equal up to zeros at the ends of lists. -/
theorem trimmed_eq_of_render (first : a.render .none = .ok text)
    (second : b.render .none = .ok text) : a.trimmed = b.trimmed := by
  induction a using induction_on_numerators generalizing b text with
  | step a ih =>
    obtain ⟨floors, written, rfl⟩ := exists_floors_of_render first
    obtain ⟨floors', written', same⟩ := exists_floors_of_render second
    have sums := eq_of_orZero (zero_not_mem written) (zero_not_mem written')
      (eq_of_sumText (writable_of_written written fun _ _ _ => nested_of_render)
        (writable_of_written written' fun _ _ _ => nested_of_render) same)
    obtain ⟨floorsOf, affineOf⟩ := filter_written written
    obtain ⟨floorsOf', affineOf'⟩ := filter_written written'
    rw [sums] at floorsOf affineOf
    obtain rfl : floors = floors' := floorsOf.symm.trans floorsOf'
    have bases := Affine.trimmed_eq_of_summands (affineOf.symm.trans affineOf')
    rw [← ofTerms_base_terms a.trimmed, ← ofTerms_base_terms b.trimmed, base_trimmed, base_trimmed,
      terms_trimmed, terms_trimmed, bases]
    exact congrArg _ (trimmed_terms_eq (fun t member b text => ih t member) written written')

end Quasi

/-! ## Zeros at the ends of lists do not show -/

namespace Affine

theorem named_trimmed (e : Affine) : e.trimmed.named = e.named := by
  simp only [named, trimmed, filter_zipIdx_rdropWhile]

theorem isZero_trimmed (e : Affine) : e.trimmed.isZero = e.isZero := by
  have summands : e.trimmed.summands = e.summands := by
    rw [Affine.summands, Affine.summands, named_trimmed]
    rfl
  rw [Bool.eq_iff_iff, ← summands_eq_nil_iff, ← summands_eq_nil_iff, summands]

theorem render_trimmed (e : Affine) : e.trimmed.render .none = e.render .none := by
  rw [render, render, namedTerms_eq, namedTerms_eq, named_trimmed]
  rfl

end Affine

namespace Quasi

theorem renderFloors_trimmed (q : Quasi) :
    q.trimmed.renderFloors .none = q.renderFloors .none ∧
      q.trimmed.render .none = q.render .none := by
  induction q with
  | affine e =>
    constructor
    · rw [trimmed, renderFloors, renderFloors, e.isZero_trimmed, e.render_trimmed]
    · exact e.render_trimmed
  | plus rest c n d outer inner =>
    have floors : (plus rest c n d).trimmed.renderFloors .none =
        (plus rest c n d).renderFloors .none := by
      rw [trimmed, renderFloors_plus, renderFloors_plus, outer.1, inner.2]
    exact ⟨floors, floors⟩

/-- Two expressions have the same text exactly if they are equal up to zeros at the ends of their
lists of coefficients, at every level: the constant, the coefficients of iterators and parameters,
and the floors with their coefficients, denominators and numerators can be read from the text. -/
theorem render_eq_iff_trimmed_eq {a : Quasi} {text : String}
    (printed : a.render .none = .ok text) (b : Quasi) :
    b.render .none = .ok text ↔ a.trimmed = b.trimmed := by
  constructor
  · exact trimmed_eq_of_render printed
  · intro same
    rw [← (renderFloors_trimmed b).2, ← same, (renderFloors_trimmed a).2, printed]

/-- A floor within a floor, with lists of `n` coefficients. -/
def nestedFloors (n : Nat) : Quasi :=
  .plus (.affine (.zero n n)) (-1)
    (.plus (.affine { Affine.var 10 (11 + n) n with constant := -3 }) 12
      (.affine (.param 1 n (2 + n))) 4) 8

/-- The text does not show how long the lists are, but all else. -/
theorem nestedFloors_read :
    (nestedFloors 0).render .none = .ok "-floor((i10 - 3 + 12*floor((p1)/4))/8)" ∧
      (nestedFloors 2).render .none = .ok "-floor((i10 - 3 + 12*floor((p1)/4))/8)" ∧
      nestedFloors 0 ≠ nestedFloors 2 ∧ (nestedFloors 0).trimmed = (nestedFloors 2).trimmed := by
  have short : (nestedFloors 0).render .none =
      .ok "-floor((i10 - 3 + 12*floor((p1)/4))/8)" := by decide +kernel
  have long : (nestedFloors 2).render .none =
      .ok "-floor((i10 - 3 + 12*floor((p1)/4))/8)" := by decide +kernel
  exact ⟨short, long, by decide, (render_eq_iff_trimmed_eq short _).mp long⟩

end Quasi

end LoopNest
