import LoopNest.Evaluation
import LoopNest.Scop.Basic

/-! The parts of a scop must fit together: statements with the parameters, names and accesses with
the dimension of their domain, and the loops of the schedule with the domains at its root. -/

namespace LoopNest

inductive Defect where
  | paramCount (stmt : String) (own scop : Nat)
  | iteratorCount (stmt : String) (names dims : Nat)
  | accessInputs (array stmt : String) (inputs : Nat)
  | malformedTree
  | noDomainRoot
  | unboundStatement (stmt : String)
  | unboundInBand (band stmt : Nat)
  | bandArity (band members exprs stmt : Nat)
  | bandSpace (band stmt exprDims exprParams dims params : Nat)
  deriving DecidableEq, Repr

def Defect.message : Defect → String
  | paramCount stmt own scop => "statement " ++ stmt ++ s!" has {own} parameters, scop has {scop}"
  | iteratorCount stmt names dims =>
    "statement " ++ stmt ++ s!" names {names} iterators for a {dims}-dimensional domain"
  | accessInputs array stmt inputs =>
    "access to " ++ array ++ " in statement " ++ stmt ++ s!" has {inputs} inputs"
  | malformedTree => "schedule tree is malformed"
  | noDomainRoot => "schedule tree has no domain root"
  | unboundStatement stmt => "statement " ++ stmt ++ " is not bound by the schedule tree"
  | unboundInBand band stmt =>
    "band " ++ nodeLabel band ++ " schedules unbound statement " ++ stmtLabel stmt
  | bandArity band members exprs stmt =>
    "band " ++ nodeLabel band ++ s!" has {members} members but {exprs} expressions for " ++
      stmtLabel stmt
  | bandSpace band stmt exprDims exprParams dims params =>
    "band " ++ nodeLabel band ++ " maps " ++ stmtLabel stmt ++
      s!" from {exprDims} dimensions and {exprParams} parameters, domain has {dims} and {params}"

namespace Scop

def checkStatement (nParam : Nat) (s : Statement) : Except Defect Unit :=
  if s.domain.nParam ≠ nParam then
    .error (.paramCount s.name s.domain.nParam nParam)
  else if s.iterators.length ≠ s.depth then
    .error (.iteratorCount s.name s.iterators.length s.depth)
  else match s.accesses.find? (·.relation.nIn ≠ s.depth) with
    | some access => .error (.accessInputs access.array s.name access.relation.nIn)
    | none => .ok ()

def checkExprs (nParam : Nat) (domains : StmtMap Polyhedron) (id : Nat) (band : Band)
    (stmt : Nat) (exprs : List Quasi) : Except Defect Unit :=
  match domains.get? stmt with
  | none => .error (.unboundInBand id stmt)
  | some domain =>
    if exprs.length ≠ band.nMembers then
      .error (.bandArity id band.nMembers exprs.length stmt)
    else match exprs.find? fun e => e.nDim ≠ domain.nDim || e.nParam ≠ nParam with
      | some e => .error (.bandSpace id stmt e.nDim e.nParam domain.nDim nParam)
      | none => .ok ()

def checkBand (nParam : Nat) (domains : StmtMap Polyhedron) (schedule : Arena) (id : Nat) :
    Except Defect Unit :=
  match schedule.band? id with
  | none => .ok ()
  | some band => band.schedule.entries.forM fun (stmt, exprs) =>
    checkExprs nParam domains id band stmt exprs

def validate (scop : Scop) : Except Defect Unit := do
  scop.statements.forM (checkStatement scop.nParam)
  if !scop.schedule.isWellFormed then
    throw .malformedTree
  match scop.schedule.domains? with
  | none => throw .noDomainRoot
  | some domains =>
    scop.statements.forM fun s =>
      if domains.contains s.id then .ok () else .error (.unboundStatement s.name)
    scop.schedule.bands.forM (checkBand scop.nParam domains scop.schedule)

end Scop

end LoopNest
