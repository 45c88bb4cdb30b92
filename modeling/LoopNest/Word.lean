/-! Coefficients, tile sizes and time stamps are integers that fit in a signed word of 64 bits. They
are held as `Int`; an operation whose exact result does not fit, or whose divisor is zero, is a
fault and has no result. -/

namespace LoopNest

inductive Fault where
  | overflow
  | zeroDivisor
  | outOfBounds
  | nonPositiveDivisor (divisor : Int)
  deriving DecidableEq, Repr

def Fault.message : Fault → String
  | .overflow => "overflow"
  | .zeroDivisor => "zero divisor"
  | .outOfBounds => "index out of bounds"
  | .nonPositiveDivisor divisor => s!"floor division by non-positive {divisor}"

abbrev Checked := Except Fault

/-- A computation in two steps has a result exactly if both steps have one. -/
theorem Checked.bind_eq_ok_iff {α β : Type} {x : Checked α} {f : α → Checked β} {b : β} :
    x >>= f = .ok b ↔ ∃ a, x = .ok a ∧ f a = .ok b := by
  cases x <;> simp [bind, Except.bind]

namespace Word

def least : Int := -9223372036854775808

def greatest : Int := 9223372036854775807

def Fits (value : Int) : Prop := least ≤ value ∧ value ≤ greatest

instance (value : Int) : Decidable (Fits value) := by unfold Fits; infer_instance

def narrow (value : Int) : Checked Int :=
  if Fits value then .ok value else .error .overflow

def add (a b : Int) : Checked Int := narrow (a + b)

def sub (a b : Int) : Checked Int := narrow (a - b)

def mul (a b : Int) : Checked Int := narrow (a * b)

def neg (a : Int) : Checked Int := narrow (-a)

def abs (a : Int) : Checked Int := narrow a.natAbs

def truncDiv (a b : Int) : Checked Int :=
  if b = 0 then .error .zeroDivisor else narrow (a.tdiv b)

/-- The remainder of `truncDiv`. It faults with its quotient. -/
def truncRem (a b : Int) : Checked Int :=
  (truncDiv a b).map fun _ => a.tmod b

/-- The greatest integer that is at most `a / b`. -/
def floorDiv (a b : Int) : Checked Int :=
  if b = 0 then .error .zeroDivisor else narrow (a.fdiv b)

def ceilDiv (a b : Int) : Checked Int :=
  if b = 0 then .error .zeroDivisor else narrow (-((-a).fdiv b))

theorem narrow_eq_ok_iff {value result : Int} :
    narrow value = .ok result ↔ Fits value ∧ value = result := by
  unfold narrow
  split <;> simp_all

/-- A sum that exists is the exact sum. -/
theorem add_eq_ok_iff {a b result : Int} :
    add a b = .ok result ↔ Fits (a + b) ∧ a + b = result := narrow_eq_ok_iff

theorem sub_eq_ok_iff {a b result : Int} :
    sub a b = .ok result ↔ Fits (a - b) ∧ a - b = result := narrow_eq_ok_iff

theorem neg_eq_ok_iff {a result : Int} :
    neg a = .ok result ↔ Fits (-a) ∧ -a = result := narrow_eq_ok_iff

theorem mul_eq_ok_iff {a b result : Int} :
    mul a b = .ok result ↔ Fits (a * b) ∧ a * b = result := narrow_eq_ok_iff

theorem floorDiv_eq_ok_iff {a b result : Int} :
    floorDiv a b = .ok result ↔ b ≠ 0 ∧ Fits (a.fdiv b) ∧ a.fdiv b = result := by
  unfold floorDiv
  split <;> simp_all [narrow_eq_ok_iff]

end Word

end LoopNest
