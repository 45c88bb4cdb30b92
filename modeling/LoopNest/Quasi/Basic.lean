import LoopNest.Affine.Basic

/-! An affine expression plus integer multiples of floors of quotients whose numerators are
quasi-affine again. Sums merge equal floors, so that a tile index times its width and the offset in
the tile add up to the expression that was tiled. -/

namespace LoopNest

/-- `plus rest c n d` is `rest + c * ⌊n / d⌋`. -/
inductive Quasi where
  | affine (expr : Affine)
  | plus (rest : Quasi) (coeff : Int) (numerator : Quasi) (denominator : Int)
  deriving DecidableEq, Repr

/-- `coeff * ⌊numerator / denominator⌋`. -/
structure FloorTerm where
  coeff : Int
  numerator : Quasi
  denominator : Int
  deriving DecidableEq, Repr

def FloorTerm.sameFloor (s t : FloorTerm) : Bool :=
  s.denominator = t.denominator && s.numerator = t.numerator

namespace Quasi

def base : Quasi → Affine
  | affine e => e
  | plus rest _ _ _ => rest.base

def terms : Quasi → List FloorTerm
  | affine _ => []
  | plus rest c n d => rest.terms ++ [⟨c, n, d⟩]

def ofTerms (base : Affine) (terms : List FloorTerm) : Quasi :=
  terms.foldl (fun q t => plus q t.coeff t.numerator t.denominator) (affine base)

theorem base_foldl_plus (q : Quasi) (terms : List FloorTerm) :
    (terms.foldl (fun q t => plus q t.coeff t.numerator t.denominator) q).base = q.base := by
  induction terms generalizing q with
  | nil => rfl
  | cons t ts ih => rw [List.foldl_cons, ih, base]

theorem terms_foldl_plus (q : Quasi) (terms : List FloorTerm) :
    (terms.foldl (fun q t => plus q t.coeff t.numerator t.denominator) q).terms =
      q.terms ++ terms := by
  induction terms generalizing q with
  | nil => simp
  | cons t ts ih => simp [ih, Quasi.terms]

@[simp]
theorem base_ofTerms (base : Affine) (terms : List FloorTerm) : (ofTerms base terms).base = base :=
  base_foldl_plus (affine base) terms

@[simp]
theorem terms_ofTerms (base : Affine) (terms : List FloorTerm) :
    (ofTerms base terms).terms = terms :=
  terms_foldl_plus (affine base) terms

/-- An expression is known by its affine part and its floor terms. -/
@[simp]
theorem ofTerms_base_terms (q : Quasi) : ofTerms q.base q.terms = q := by
  induction q with
  | affine e => rfl
  | plus rest c n d ih _ =>
    rw [ofTerms] at ih
    simp [ofTerms, terms, base, List.foldl_append, ih]

def const (value : Int) (nDim nParam : Nat) : Quasi := affine (.const value nDim nParam)

def var (dim nDim nParam : Nat) : Quasi := affine (.var dim nDim nParam)

def nDim (q : Quasi) : Nat := q.base.nDim

def nParam (q : Quasi) : Nat := q.base.nParam

def affine? : Quasi → Option Affine
  | affine e => some e
  | plus .. => none

def isAffine (q : Quasi) : Bool := q.affine?.isSome

/-- An iterator appears, be it inside a floor. -/
def dependsOn (dim : Nat) : Quasi → Bool
  | affine e => e.dependsOn dim
  | plus rest _ n _ => rest.dependsOn dim || n.dependsOn dim

def involvesParams : Quasi → Bool
  | affine e => e.involvesParams
  | plus rest _ n _ => rest.involvesParams || n.involvesParams

def value (point params : List Int) : Quasi → Int
  | affine e => e.value point params
  | plus rest c n d => rest.value point params + c * (n.value point params).fdiv d

def evalTerms (point params : List Int) : Quasi → Checked Int
  | affine _ => .ok 0
  | plus rest c n d => do
    let before ← rest.evalTerms point params
    let inner ← n.evalTerms point params
    let outer ← n.base.eval point params
    let numerator ← Word.add outer inner
    let quotient ← Word.floorDiv numerator d
    let term ← Word.mul c quotient
    Word.add before term

def eval (q : Quasi) (point params : List Int) : Checked Int := do
  let floors ← q.evalTerms point params
  let rest ← q.base.eval point params
  Word.add rest floors

theorem eq_value_of_evalTerms {q : Quasi} {point params : List Int} {sum : Int}
    (h : q.evalTerms point params = .ok sum) :
    q.base.value point params + sum = q.value point params := by
  induction q generalizing sum with
  | affine e =>
    cases h
    simp [value, base]
  | plus rest c n d outer inner =>
    simp only [evalTerms, Checked.bind_eq_ok_iff, Word.add_eq_ok_iff, Word.mul_eq_ok_iff,
      Word.floorDiv_eq_ok_iff] at h
    obtain ⟨before, hb, low, hl, high, hh, numerator, ⟨-, rfl⟩, quotient, ⟨-, -, rfl⟩, term,
      ⟨-, rfl⟩, -, rfl⟩ := h
    rw [value, base, ← outer hb, Affine.eq_value_of_eval hh, inner hl, Int.add_assoc]

/-- A value that exists is the exact one. -/
theorem eq_value_of_eval {q : Quasi} {point params : List Int} {result : Int}
    (h : q.eval point params = .ok result) : result = q.value point params := by
  simp only [eval, Checked.bind_eq_ok_iff, Word.add_eq_ok_iff] at h
  obtain ⟨floors, hf, rest, hr, -, rfl⟩ := h
  rw [Affine.eq_value_of_eval hr, eq_value_of_evalTerms hf]

/-- Adds a term to the first one with the same floor, or at the end. -/
def mergeTerm (term : FloorTerm) : List FloorTerm → Checked (List FloorTerm)
  | [] => .ok [term]
  | t :: ts =>
    if t.sameFloor term then do
      let sum ← Word.add t.coeff term.coeff
      return { t with coeff := sum } :: ts
    else do
      let rest ← mergeTerm term ts
      return t :: rest

/-- Terms that vanish are dropped. -/
def pushTerm (terms : List FloorTerm) (term : FloorTerm) : Checked (List FloorTerm) :=
  if term.coeff = 0 then .ok terms
  else do
    let merged ← mergeTerm term terms
    return merged.filter (·.coeff ≠ 0)

def add (a b : Quasi) : Checked Quasi := do
  let sum ← a.base.add b.base
  let terms ← (a.terms ++ b.terms).foldlM pushTerm []
  return ofTerms sum terms

def scaleTerm (factor : Int) (term : FloorTerm) : Checked FloorTerm := do
  let coeff ← Word.mul term.coeff factor
  return { term with coeff }

def scale (q : Quasi) (factor : Int) : Checked Quasi :=
  if factor = 0 then .ok (const 0 q.nDim q.nParam)
  else do
    let scaled ← q.base.scale factor
    let terms ← q.terms.mapM (scaleTerm factor)
    return ofTerms scaled terms

def sub (a b : Quasi) : Checked Quasi := do
  let negated ← b.scale (-1)
  a.add negated

/-- The floor of a quotient. A quotient that is affine with integer coefficients is written as such.
-/
def floorDiv (q : Quasi) (divisor : Int) : Checked Quasi := do
  if divisor ≤ 0 then
    throw (.nonPositiveDivisor divisor)
  if divisor = 1 then
    return q
  let exact ← match q.affine? with
    | some e => e.exactDiv? divisor
    | none => pure none
  match exact with
  | some e => return affine e
  | none => return plus (affine (.zero q.nDim q.nParam)) 1 q divisor

def modulo (q : Quasi) (divisor : Int) : Checked Quasi := do
  if divisor = 1 then
    return const 0 q.nDim q.nParam
  let quotient ← q.floorDiv divisor
  let whole ← quotient.scale divisor
  q.sub whole

/-- Puts the replacement in for an iterator of the affine part, next to terms that are done. -/
def substBase (dim : Nat) (replacement : Quasi) (base : Affine) (terms : List FloorTerm) :
    Checked Quasi := do
  let scaled ← replacement.scale (base.coeff dim)
  (ofTerms (base.withoutDim dim) terms).add scaled

def substTerms (dim : Nat) (replacement : Quasi) : Quasi → Checked (List FloorTerm)
  | affine _ => .ok []
  | plus rest c n d => do
    let before ← substTerms dim replacement rest
    let inner ← substTerms dim replacement n
    let numerator ← substBase dim replacement n.base inner
    pushTerm before ⟨c, numerator, d⟩

def subst (q : Quasi) (dim : Nat) (replacement : Quasi) : Checked Quasi := do
  let terms ← substTerms dim replacement q
  substBase dim replacement q.base terms

end Quasi

end LoopNest
