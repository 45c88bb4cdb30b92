import LoopNest.Json.Schedule
import LoopNest.Scop.Valid

/-! Main function: `Scop.load`, which reads a scop from a text and checks that it is valid. -/

namespace LoopNest

namespace Json

def ofAccessKind : AccessKind → Json
  | .read => text "Read"
  | .write => text "Write"

def ofAccess (a : Access) : Json :=
  record [("array", text a.array), ("kind", ofAccessKind a.kind),
    ("relation", ofAccessMap a.relation)]

def ofStatement (s : Statement) : Json :=
  record [("id", nat s.id), ("name", text s.name), ("iterators", ofTexts s.iterators),
    ("domain", ofPolyhedron s.domain), ("accesses", array (s.accesses.map ofAccess))]

def ofScop (scop : Scop) : Json :=
  record [("name", text scop.name), ("parameters", ofTexts scop.parameters),
    ("context", ofPolyhedron scop.context),
    ("statements", array (scop.statements.map ofStatement)),
    ("schedule", ofArena scop.schedule)]

namespace Reader

def accessKind : Reader AccessKind := oneOf [("Read", .read), ("Write", .write)]

def access : Reader Access
  | depth + 1, j => do
    let m ← j.members ["array", "kind", "relation"]
    let array ← m.required "array" text depth
    let kind ← m.required "kind" accessKind depth
    let relation ← m.required "relation" accessMap depth
    return ⟨array, kind, relation⟩
  | 0, _ => none

def statement : Reader Statement
  | depth + 1, j => do
    let m ← j.members ["id", "name", "iterators", "domain", "accesses"]
    let id ← m.required "id" nat depth
    let name ← m.required "name" text depth
    let iterators ← m.required "iterators" (list text) depth
    let domain ← m.required "domain" polyhedron depth
    let accesses ← m.required "accesses" (list access) depth
    return ⟨id, name, iterators, domain, accesses⟩
  | 0, _ => none

def scop : Reader Scop
  | depth + 1, j => do
    let m ← j.members ["name", "parameters", "context", "statements", "schedule"]
    let name ← m.required "name" text depth
    let parameters ← m.required "parameters" (list text) depth
    let context ← m.required "context" polyhedron depth
    let statements ← m.required "statements" (list statement) depth
    let schedule ← m.required "schedule" arena depth
    return ⟨name, parameters, context, statements, schedule⟩
  | 0, _ => none

end Reader

def readText? {α : Type} (value : Reader α) (text : String) : Option α :=
  (parse? text).bind (value depthLimit)

end Json

inductive LoadError where
  | malformed
  | invalid (name : String) (defect : Defect)
  deriving DecidableEq, Repr

def LoadError.context : LoadError → String
  | malformed => "malformed scop JSON"
  | invalid name _ => "invalid scop " ++ "`" ++ name ++ "`"

def Scop.load (text : String) : Except LoadError Scop :=
  match Json.readText? Json.Reader.scop text with
  | none => .error .malformed
  | some scop =>
    match scop.validate with
    | .error defect => .error (.invalid scop.name defect)
    | .ok () => .ok scop

end LoopNest
