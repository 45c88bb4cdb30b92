import LoopNest.Word

/-! An evaluation may have no answer although nothing faults: a domain may be infinite, and a tree
need not schedule every instance. -/

namespace LoopNest

def listText (items : List String) : String := "[" ++ ", ".intercalate items ++ "]"

def stmtLabel (stmt : Nat) : String := s!"S{stmt}"

def instanceLabel (stmt : Nat) (point : List Int) : String :=
  stmtLabel stmt ++ listText (point.map toString)

/-- Why a tree does not schedule an instance. -/
inductive Obstacle where
  | noDomainRoot
  | danglingNode
  | notInBand
  | noBranch
  | filteredOut
  deriving DecidableEq, Repr

def Obstacle.message : Obstacle → String
  | .noDomainRoot => "tree has no domain root"
  | .danglingNode => "dangling node"
  | .notInBand => "band does not schedule the statement"
  | .noBranch => "no branch admits the instance"
  | .filteredOut => "filtered out"

inductive EvalError where
  | unboundedDomain (dim : Nat)
  | missingParameter (expected given : Nat)
  | unknownStatement (stmt : Nat)
  | unscheduled (stmt : Nat) (point : List Int) (obstacle : Obstacle)
  deriving DecidableEq, Repr

def EvalError.message : EvalError → String
  | .unboundedDomain dim => s!"domain is unbounded along dimension {dim}"
  | .missingParameter expected given => s!"expected {expected} parameter values, got {given}"
  | .unknownStatement stmt => "statement " ++ stmtLabel stmt ++ " is not in the tree's domain"
  | .unscheduled stmt point obstacle =>
    "instance " ++ instanceLabel stmt point ++ " is not scheduled: " ++ obstacle.message

/-- An evaluation that may fault or have no answer. -/
abbrev Eval := ExceptT EvalError Checked

end LoopNest
