import LoopNest.AccessMap
import LoopNest.Json.Reader
import LoopNest.Polyhedron
import LoopNest.Quasi.Basic
import LoopNest.StmtMap

/-! Documents of expressions, sets and maps. -/

namespace LoopNest.Json

def ofInts (values : List Int) : Json := array (values.map int)

def ofNats (values : List Nat) : Json := array (values.map nat)

def ofTexts (values : List String) : Json := array (values.map text)

def ofOption {α : Type} (write : α → Json) : Option α → Json
  | none => null
  | some value => write value

/-- One field for each statement, named by its number. -/
def ofStmtMap {α : Type} (write : α → Json) (m : StmtMap α) : Json :=
  object (m.entries.map fun (stmt, value) => (toString stmt, write value))

def ofAffine (e : Affine) : Json :=
  record [("constant", int e.constant), ("coeffs", ofInts e.coeffs),
    ("param_coeffs", ofInts e.paramCoeffs)]

def ofFloorTerm (coeff : Int) (numerator : Json) (denominator : Int) : Json :=
  record [("coeff", int coeff), ("numerator", numerator), ("denominator", int denominator)]

/-- Shares the affine part of an expression and the list of its floor terms. -/
def ofQuasiParts (base : Affine) (terms : List Json) : Json :=
  record [("affine", ofAffine base), ("divs", array terms)]

def ofQuasiTerms : Quasi → List Json
  | .affine _ => []
  | .plus rest c n d =>
    ofQuasiTerms rest ++ [ofFloorTerm c (ofQuasiParts n.base (ofQuasiTerms n)) d]

def ofQuasi (q : Quasi) : Json := ofQuasiParts q.base (ofQuasiTerms q)

def ofQuasis (qs : List Quasi) : Json := array (qs.map ofQuasi)

def ofRelation : Relation → Json
  | .inequality => text "Inequality"
  | .equality => text "Equality"

def ofConstraint (c : Constraint) : Json :=
  record [("expr", ofAffine c.expr), ("kind", ofRelation c.kind)]

def ofPolyhedron (s : Polyhedron) : Json :=
  record [("n_dim", nat s.nDim), ("n_param", nat s.nParam),
    ("constraints", array (s.constraints.map ofConstraint))]

def ofAccessMap (m : AccessMap) : Json :=
  record [("n_in", nat m.nIn), ("n_param", nat m.nParam),
    ("outputs", array (m.outputs.map ofAffine))]

namespace Reader

def stmtMap {α : Type} (value : Reader α) : Reader (StmtMap α) := fun depth j =>
  (numbered value depth j).map StmtMap.ofList

def affine : Reader Affine
  | depth + 1, j => do
    let m ← j.members ["constant", "coeffs", "param_coeffs"]
    let constant ← m.required "constant" int depth
    let coeffs ← m.required "coeffs" (list int) depth
    let paramCoeffs ← m.required "param_coeffs" (list int) depth
    return ⟨constant, coeffs, paramCoeffs⟩
  | 0, _ => none

/-- An expression, its list of floor terms and a floor term are three levels. -/
def quasi : Reader Quasi
  | depth + 3, j => do
    let m ← j.members ["affine", "divs"]
    let base ← m.required "affine" affine (depth + 2)
    let divs ← m.lookup "divs"
    match divs with
    | array items =>
      let terms ← items.mapM fun item => do
        let t ← item.members ["coeff", "numerator", "denominator"]
        let coeff ← t.required "coeff" int depth
        let inner ← t.lookup "numerator"
        let numerator ← quasi depth inner
        let denominator ← t.required "denominator" int depth
        return (⟨coeff, numerator, denominator⟩ : FloorTerm)
      return .ofTerms base terms
    | _ => none
  | _, _ => none

def relation : Reader Relation := oneOf [("Inequality", .inequality), ("Equality", .equality)]

def constraint : Reader Constraint
  | depth + 1, j => do
    let m ← j.members ["expr", "kind"]
    let expr ← m.required "expr" affine depth
    let kind ← m.required "kind" relation depth
    return ⟨expr, kind⟩
  | 0, _ => none

def polyhedron : Reader Polyhedron
  | depth + 1, j => do
    let m ← j.members ["n_dim", "n_param", "constraints"]
    let nDim ← m.required "n_dim" nat depth
    let nParam ← m.required "n_param" nat depth
    let constraints ← m.required "constraints" (list constraint) depth
    return ⟨nDim, nParam, constraints⟩
  | 0, _ => none

def accessMap : Reader AccessMap
  | depth + 1, j => do
    let m ← j.members ["n_in", "n_param", "outputs"]
    let nIn ← m.required "n_in" nat depth
    let nParam ← m.required "n_param" nat depth
    let outputs ← m.required "outputs" (list affine) depth
    return ⟨nIn, nParam, outputs⟩
  | 0, _ => none

end Reader

end LoopNest.Json
