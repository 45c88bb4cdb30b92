import LoopNest.Json.Expression
import LoopNest.Schedule.Flat
import LoopNest.Schedule.Timestamp

/-! Documents of schedules. -/

namespace LoopNest.Json

def ofMember (m : Member) : Json :=
  record [("permutable", bool m.permutable), ("coincident", bool m.coincident)]

def ofMark : Mark → Json
  | .tiles label => record [("Tiles", text label)]
  | .points label => record [("Points", text label)]
  | .simd => text "Simd"

def ofLoopOption : LoopOption → Json
  | .standard => text "Default"
  | .unroll => text "Unroll"
  | .noUnroll => text "NoUnroll"

def ofBand (band : Band) : Json :=
  record [("members", array (band.members.map ofMember)),
    ("schedule", ofStmtMap ofQuasis band.schedule),
    ("marks", array (band.marks.map ofMark)),
    ("loop_option", ofLoopOption band.loopOption)]

def ofTileKind : TileKind → Json
  | .full => text "Full"
  | .partly => text "Partial"

def ofStmtSet (stmts : StmtSet) : Json := ofNats stmts.keys

def ofFilter : Filter → Json
  | .statements stmts => record [("Statements", ofStmtSet stmts)]
  | .tiles t => record [("Tiles", record [("kind", ofTileKind t.kind), ("width", int t.width),
      ("guards", ofStmtMap (ofOption ofQuasis) t.guards)])]

def ofNodeKind : NodeKind → Json
  | .domain domains => record [("Domain", ofStmtMap ofPolyhedron domains)]
  | .band band => record [("Band", ofBand band)]
  | .sequence => text "Sequence"
  | .set => text "Set"
  | .filter filter => record [("Filter", ofFilter filter)]
  | .leaf => text "Leaf"

def ofNode (node : Node) : Json :=
  record [("kind", ofNodeKind node.kind), ("children", ofNats node.children)]

def ofArena (a : Arena) : Json :=
  record [("nodes", array (a.nodes.toList.map ofNode)), ("root", nat a.root)]

def ofInstance (i : Instance) : Json := array [nat i.stmt, ofInts i.point, ofInts i.timestamp]

def ofFlatDim : FlatDim → Json
  | .expr e => record [("expr", ofQuasi e)]
  | .position index => record [("pos", nat index)]

def ofFlatCondition (c : FlatCondition) : Json :=
  record [("kind", ofTileKind c.kind), ("width", int c.width), ("guard", ofOption ofQuasis c.guard)]

def ofPiece (piece : Piece) : Json :=
  record [("conditions", array (piece.conditions.map ofFlatCondition)),
    ("dims", array (piece.dims.map ofFlatDim))]

def ofFlat (flat : StmtMap (List Piece)) : Json :=
  array (flat.entries.map fun (stmt, pieces) => array [nat stmt, array (pieces.map ofPiece)])

namespace Reader

def stmtSet : Reader StmtSet := fun depth j => (list nat depth j).map StmtSet.ofList

def member : Reader Member
  | depth + 1, j => do
    let m ← j.members ["permutable", "coincident"]
    let permutable ← m.required "permutable" bool depth
    let coincident ← m.required "coincident" bool depth
    return ⟨permutable, coincident⟩
  | 0, _ => none

def mark : Reader Mark := fun depth j => do
  let c ← choice depth j
  match c.name with
  | "Tiles" => (c.read text).map .tiles
  | "Points" => (c.read text).map .points
  | "Simd" => if c.isUnit then some .simd else none
  | _ => none

def loopOption : Reader LoopOption :=
  oneOf [("Default", .standard), ("Unroll", .unroll), ("NoUnroll", .noUnroll)]

def band : Reader Band
  | depth + 1, j => do
    let m ← j.members ["members", "schedule", "marks", "loop_option"]
    let members ← m.required "members" (list member) depth
    let schedule ← m.required "schedule" (stmtMap (list quasi)) depth
    let marks ← m.required "marks" (list mark) depth
    let loopOption ← m.required "loop_option" loopOption depth
    return ⟨members, schedule, marks, loopOption⟩
  | 0, _ => none

def tileKind : Reader TileKind := oneOf [("Full", .full), ("Partial", .partly)]

def tileFilter : Reader TileFilter
  | depth + 1, j => do
    let m ← j.members ["kind", "width", "guards"]
    let kind ← m.required "kind" tileKind depth
    let width ← m.required "width" int depth
    let guards ← m.required "guards" (stmtMap (optional (list quasi))) depth
    return ⟨kind, width, guards⟩
  | 0, _ => none

def filter : Reader Filter := fun depth j => do
  let c ← choice depth j
  match c.name with
  | "Statements" => (c.read stmtSet).map .statements
  | "Tiles" => (c.read tileFilter).map .tiles
  | _ => none

def nodeKind : Reader NodeKind := fun depth j => do
  let c ← choice depth j
  let unit (kind : NodeKind) : Option NodeKind := if c.isUnit then some kind else none
  match c.name with
  | "Domain" => (c.read (stmtMap polyhedron)).map .domain
  | "Band" => (c.read band).map .band
  | "Sequence" => unit .sequence
  | "Set" => unit .set
  | "Filter" => (c.read filter).map .filter
  | "Leaf" => unit .leaf
  | _ => none

def node : Reader Node
  | depth + 1, j => do
    let m ← j.members ["kind", "children"]
    let kind ← m.required "kind" nodeKind depth
    let children ← m.required "children" (list nat) depth
    return ⟨kind, children⟩
  | 0, _ => none

def arena : Reader Arena
  | depth + 1, j => do
    let m ← j.members ["nodes", "root"]
    let nodes ← m.required "nodes" (list node) depth
    let root ← m.required "root" nat depth
    return ⟨nodes.toArray, root⟩
  | 0, _ => none

end Reader

end LoopNest.Json
