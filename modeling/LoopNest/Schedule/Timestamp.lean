import LoopNest.Schedule.Tree

/-! A schedule gives an instance the values of the loops on its way from the root to a leaf, with
the position of the branch taken at every sequence and set. The way is kept node by node; its
entries in order are the time stamp. Instances run in the lexicographic order of their time stamps.
-/

namespace LoopNest

/-- What one node on the way of an instance adds to its time stamp. -/
structure Visit where
  id : Nat
  entries : List Int
  deriving DecidableEq, Repr

namespace Tree

def accepts (stmt : Nat) (point params : List Int) : Tree → Checked Bool
  | missing _ => .ok false
  | node _ (.filter filter) _ _ => filter.passes stmt point params
  | node _ _ _ _ => .ok true

def branch? {arity : Nat} (child : Fin arity → Tree) (stmt : Nat) (point params : List Int) :
    Checked (Option (Fin arity)) :=
  (List.finRange arity).findM? fun i => (child i).accepts stmt point params

/-- What a node adds to the time stamp of an instance, and the child to which its way goes on. From
a node that does not choose, it goes on to the first child; without one it ends. -/
def step {arity : Nat} (child : Fin arity → Tree) (stmt : Nat) (point params : List Int) :
    NodeKind → Eval (List Int × Option (Fin arity))
  | .domain _ => return ([], first)
  | .band band =>
    match band.schedule.get? stmt with
    | none => throw (.unscheduled stmt point .notInBand)
    | some exprs => do
      let entries ← exprs.mapM (·.eval point params)
      return (entries, first)
  | .sequence => branching
  | .set => branching
  | .filter filter => do
    let passes ← filter.passes stmt point params
    if passes then return ([], first) else throw (.unscheduled stmt point .filteredOut)
  | .leaf => return ([], none)
where
  first : Option (Fin arity) := (List.finRange arity).head?
  branching : Eval (List Int × Option (Fin arity)) := do
    match ← branch? child stmt point params with
    | none => throw (.unscheduled stmt point .noBranch)
    | some i => return ([(i.val : Int)], some i)

def visits (stmt : Nat) (point params : List Int) : Tree → Eval (List Visit)
  | missing _ => throw (.unscheduled stmt point .danglingNode)
  | node id kind _ child => do
    let (entries, next?) ← step child stmt point params kind
    match next? with
    | none => return [⟨id, entries⟩]
    | some i => do
      let below ← (child i).visits stmt point params
      return ⟨id, entries⟩ :: below

end Tree

namespace Arena

def visits (a : Arena) (stmt : Nat) (point params : List Int) : Eval (List Visit) :=
  match a.domains? with
  | none => throw (.unscheduled stmt point .noDomainRoot)
  | some domains =>
    match domains.get? stmt with
    | none => throw (.unknownStatement stmt)
    | some domain =>
      if params.length < domain.nParam then
        throw (.missingParameter domain.nParam params.length)
      else
        a.tree.visits stmt point params

def timestamp (a : Arena) (stmt : Nat) (point params : List Int) : Eval (List Int) := do
  let visits ← a.visits stmt point params
  return visits.flatMap (·.entries)

end Arena

structure Instance where
  timestamp : List Int
  stmt : Nat
  point : List Int
  deriving DecidableEq, Repr

/-- The strict lexicographic order: a list comes before its own extensions. -/
def precedes : List Int → List Int → Bool
  | _, [] => false
  | [], _ :: _ => true
  | a :: as, b :: bs => a < b || a = b && precedes as bs

theorem precedes_irrefl (as : List Int) : precedes as as = false := by
  induction as with
  | nil => rfl
  | cons a as ih => simp [precedes, ih]

theorem precedes_trans {as bs cs : List Int} (first : precedes as bs) (second : precedes bs cs) :
    precedes as cs := by
  induction as generalizing bs cs with
  | nil =>
    cases cs with
    | nil => cases bs <;> simp [precedes] at second
    | cons => rfl
  | cons a as ih =>
    match bs, cs with
    | [], _ => simp [precedes] at first
    | _ :: _, [] => simp [precedes] at second
    | b :: bs, c :: cs =>
      simp only [precedes, Bool.or_eq_true, Bool.and_eq_true, decide_eq_true_eq] at first second ⊢
      rcases first with first | ⟨rfl, first⟩ <;> rcases second with second | ⟨rfl, second⟩
      · exact .inl (Int.lt_trans first second)
      · exact .inl first
      · exact .inl second
      · exact .inr ⟨rfl, ih first second⟩

/-- Two lists that come in neither order are one list. -/
theorem eq_of_not_precedes {as bs : List Int} (first : precedes as bs = false)
    (second : precedes bs as = false) : as = bs := by
  induction as generalizing bs with
  | nil =>
    cases bs with
    | nil => rfl
    | cons => simp [precedes] at first
  | cons a as ih =>
    cases bs with
    | nil => simp [precedes] at second
    | cons b bs =>
      simp only [precedes, Bool.or_eq_false_iff, Bool.and_eq_false_iff, decide_eq_false_iff_not]
        at first second
      have heads : a = b := by omega
      subst heads
      simp only [not_true_eq_false, false_or] at first second
      rw [ih first.2 second.2]

/-- By time stamp, then by statement, then by point. -/
def Instance.atMost (a b : Instance) : Bool :=
  precedes a.timestamp b.timestamp ||
    a.timestamp = b.timestamp &&
      (a.stmt < b.stmt || a.stmt = b.stmt && !precedes b.point a.point)

namespace Arena

def instancesOf (a : Arena) (params : List Int) (stmt : Nat) (domain : Polyhedron) :
    Eval (List Instance) := do
  let points ← domain.enumerate params
  points.mapM fun point => do
    let timestamp ← a.timestamp stmt point params
    return ⟨timestamp, stmt, point⟩

def executionOrder (a : Arena) (params : List Int) : Eval (List Instance) :=
  match a.domains? with
  | none => return []
  | some domains => do
    let parts ← domains.entries.mapM fun (stmt, domain) => a.instancesOf params stmt domain
    return parts.flatten.mergeSort Instance.atMost

end Arena

end LoopNest
