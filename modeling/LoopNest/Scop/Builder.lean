import LoopNest.Affine.Text
import LoopNest.Scop.Valid

/-! A scop is put together from statements and a schedule and is checked as a whole. What is left
out takes the most general form. -/

namespace LoopNest

namespace Statement

/-- A statement needs a domain. Its iterators have names of their own unless as many are given as it
has. -/
def build? (id : Nat) (name : String) (iterators : List String) (domain : Option Polyhedron)
    (accesses : List Access) : Option Statement :=
  domain.map fun domain =>
    let named := if iterators.length = domain.nDim then iterators
      else (List.range domain.nDim).map Names.none.dim
    ⟨id, name, named, domain, accesses⟩

def reads (s : Statement) : List Access := s.accesses.filter (·.isRead)

def writes (s : Statement) : List Access := s.accesses.filter (·.isWrite)

end Statement

def Scop.build (name : String) (parameters : List String) (context : Option Polyhedron)
    (statements : List Statement) (schedule : Arena) : Except Defect Scop := do
  let scop : Scop := ⟨name, parameters, context.getD (.whole 0 parameters.length), statements,
    schedule⟩
  scop.validate
  return scop

end LoopNest
