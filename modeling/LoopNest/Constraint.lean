import LoopNest.Affine.Text

/-! An affine expression that must not be negative, or must be zero. -/

namespace LoopNest

inductive Relation where
  | inequality
  | equality
  deriving DecidableEq, Repr

def Relation.holds (kind : Relation) (value : Int) : Bool :=
  match kind with
  | .inequality => 0 ≤ value
  | .equality => value = 0

/-- `expr ≥ 0` or `expr = 0`. -/
structure Constraint where
  expr : Affine
  kind : Relation
  deriving DecidableEq, Repr

namespace Constraint

def nonneg (expr : Affine) : Constraint := ⟨expr, .inequality⟩

def zero (expr : Affine) : Constraint := ⟨expr, .equality⟩

def ge (lhs rhs : Affine) : Checked Constraint := nonneg <$> lhs.sub rhs

def le (lhs rhs : Affine) : Checked Constraint := nonneg <$> rhs.sub lhs

def lowerBound (dim : Nat) (lower : Int) (nDim nParam : Nat) : Checked Constraint :=
  ge (.var dim nDim nParam) (.const lower nDim nParam)

def strictUpperBound (dim : Nat) (upper : Int) (nDim nParam : Nat) : Checked Constraint := do
  let greatest ← Word.sub upper 1
  le (.var dim nDim nParam) (.const greatest nDim nParam)

def belowParam (dim index nDim nParam : Nat) : Checked Constraint :=
  le (.var dim nDim nParam) { Affine.param index nDim nParam with constant := -1 }

def isEquality (c : Constraint) : Bool := c.kind = .equality

def Holds (c : Constraint) (point params : List Int) : Prop :=
  c.kind.holds (c.expr.value point params) = true

def isSatisfied (c : Constraint) (point params : List Int) : Checked Bool := do
  let value ← c.expr.eval point params
  return c.kind.holds value

/-- Expressions that are all nonnegative exactly if the constraint holds. -/
def inequalities (c : Constraint) : Checked (List Affine) :=
  match c.kind with
  | .inequality => .ok [c.expr]
  | .equality => do
    let negated ← c.expr.neg
    return [c.expr, negated]

def lastDim? (c : Constraint) : Option Nat :=
  (c.expr.coeffs.zipIdx.reverse.find? (·.1 ≠ 0)).map (·.2)

def render (c : Constraint) (names : Names) : Checked String := do
  let text ← c.expr.render names
  return match c.kind with
    | .inequality => s!"{text} >= 0"
    | .equality => s!"{text} = 0"

end Constraint

end LoopNest
