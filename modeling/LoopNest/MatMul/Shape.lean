import LoopNest.Scop.Basic

/-! A band of three loops over plain iterators is a matrix multiplication if its one statement reads
and then writes, a loop leaves the written cell alone, and along that loop every access moves by one
cell in one direction or not at all. -/

namespace LoopNest

/-- The parts that the members of a band play in `C[i][j] += A[i][k] * B[k][j]`. -/
structure MatMulShape where
  stmt : Nat
  /-- `k`: the written cell does not depend on it. -/
  reduction : Nat
  /-- `i`. -/
  other : Nat
  /-- `j`: the last subscript of the written cell depends on it. -/
  contiguous : Nat
  deriving DecidableEq, Repr

def MatMulShape.permutation (s : MatMulShape) : List Nat := [s.reduction, s.other, s.contiguous]

namespace MatMul

def isZeroOrUnit (step : List Int) : Bool :=
  match step.filter (· ≠ 0) with
  | [] | [1] => true
  | _ => false

/-- The write at the end, if all accesses before it are reads and there is one. -/
def finalWrite? (accesses : List Access) : Option Access :=
  match accesses.getLast? with
  | some last =>
    let reads := accesses.dropLast
    if last.isWrite && !reads.isEmpty && reads.all (·.isRead) then some last else none
  | none => none

def isReduction (accesses : List Access) (write : Access) (iterator : Nat) : Bool :=
  accesses.all (fun a => isZeroOrUnit (a.relation.stepAlong iterator)) &&
    !write.relation.dependsOn iterator

def isContiguous (write : Access) (iterator : Nat) : Bool :=
  match write.relation.outputs.getLast? with
  | some e => e.dependsOn iterator
  | none => false

/-- Gives the members that are left, of which `b` is the inner one, their parts. -/
def shapeWith (stmt : Nat) (write : Access) (reduction : Nat) (a b : Nat × Nat) : MatMulShape :=
  if !isContiguous write b.2 && isContiguous write a.2 then ⟨stmt, reduction, b.1, a.1⟩
  else ⟨stmt, reduction, a.1, b.1⟩

/-- Tries the members as reductions from the innermost out. -/
def shapeOf? (stmt : Nat) (accesses : List Access) (write : Access) (i j k : Nat) :
    Option MatMulShape :=
  if isReduction accesses write k then some (shapeWith stmt write 2 (0, i) (1, j))
  else if isReduction accesses write j then some (shapeWith stmt write 1 (0, i) (2, k))
  else if isReduction accesses write i then some (shapeWith stmt write 0 (1, j) (2, k))
  else none

end MatMul

namespace Arena

def matMulShape? (a : Arena) (scop : Scop) (id : Nat) : Checked (Option MatMulShape) :=
  match a.band? id with
  | none => .ok none
  | some band =>
    if band.nMembers ≠ 3 then .ok none
    else match (a.reaching id).keys with
      | [stmt] =>
        match scop.statement? stmt, band.schedule.get? stmt with
        | some s, some exprs =>
          match exprs.mapM fun e => e.affine?.bind (·.singleVar?) with
          | none => .ok none
          | some (i :: j :: rest) =>
            if i = j then .ok none
            else match rest with
              | k :: _ =>
                if j = k ∨ i = k then .ok none
                else match MatMul.finalWrite? s.accesses with
                  | some write => .ok (MatMul.shapeOf? stmt s.accesses write i j k)
                  | none => .ok none
              | [] => .error .outOfBounds
          | some _ => .error .outOfBounds
        | _, _ => .ok none
      | _ => .ok none

end Arena

end LoopNest
