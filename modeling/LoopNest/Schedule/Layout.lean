import LoopNest.Quasi.Text
import LoopNest.Scop.Basic

/-! A tree is written with a line for each node and the trees below it indented by two blanks. Marks
stand on lines before their band. Domains, loops and guards follow on indented lines, one for each
statement. -/

namespace LoopNest

structure Line where
  depth : Nat
  text : String

def Line.join (lines : List Line) : String :=
  "\n".intercalate <| lines.map fun line =>
    String.join (List.replicate line.depth "  ") ++ line.text

namespace Layout

def namesFor (scop : Option Scop) (stmt : Nat) : Names where
  dims := ((scop.bind (·.statement? stmt)).map (·.iterators)).getD []
  params := (scop.map (·.parameters)).getD []

def stmtTitle (scop : Option Scop) (stmt : Nat) : String :=
  match scop.bind (·.statement? stmt) with
  | some s => stmtLabel stmt ++ " \"" ++ s.name ++ "\""
  | none => stmtLabel stmt

def flag (value : Bool) : String := if value then "1" else "0"

def domainLines (scop : Option Scop) (depth : Nat) (domains : StmtMap Polyhedron) :
    Checked (List Line) := do
  let below ← domains.entries.mapM fun (stmt, domain) => do
    let text ← domain.render (namesFor scop stmt)
    return ⟨depth + 1, stmtTitle scop stmt ++ ": " ++ text⟩
  return ⟨depth, "domain:"⟩ :: below

def optionText : LoopOption → String
  | .standard => ""
  | .unroll => ", options: unroll"
  | .noUnroll => ", options: no-unroll"

def bandLines (scop : Option Scop) (depth : Nat) (band : Band) : Checked (List Line) := do
  let marks := band.marks.map fun mark => (⟨depth, "mark: \"" ++ mark.text ++ "\""⟩ : Line)
  let flags := listText (band.members.map fun m => flag m.coincident)
  let head : Line := ⟨depth,
    "band: permutable: " ++ flag band.isPermutable ++ ", coincident: " ++ flags ++
      optionText band.loopOption⟩
  let below ← band.schedule.entries.mapM fun (stmt, exprs) => do
    let texts ← exprs.mapM (·.render (namesFor scop stmt))
    return (⟨depth + 1, stmtLabel stmt ++ " -> " ++ listText texts⟩ : Line)
  return marks ++ head :: below

def guardText (scop : Option Scop) (stmt : Nat) : Option Guard → Checked String
  | none => .ok "no full tiles"
  | some guard => do
    let texts ← guard.mapM (·.render (namesFor scop stmt))
    return " and ".intercalate (texts.map (· ++ " >= 0"))

def filterLines (scop : Option Scop) (depth : Nat) : Filter → Checked (List Line)
  | .statements stmts =>
    .ok [⟨depth, "filter: \x7b " ++ ", ".intercalate (stmts.keys.map stmtLabel) ++ " \x7d"⟩]
  | .tiles t => do
    let kind := match t.kind with
      | .full => "full"
      | .partly => "partial"
    let below ← t.guards.entries.mapM fun (stmt, guard) => do
      let text ← guardText scop stmt guard
      return (⟨depth + 1, stmtLabel stmt ++ ": " ++ text⟩ : Line)
    return ⟨depth, "filter: " ++ kind ++ s!" tiles of width {t.width}"⟩ :: below

def kindLines (scop : Option Scop) (depth : Nat) : NodeKind → Checked (List Line)
  | .domain domains => domainLines scop depth domains
  | .band band => bandLines scop depth band
  | .sequence => .ok [⟨depth, "sequence:"⟩]
  | .set => .ok [⟨depth, "set:"⟩]
  | .filter filter => filterLines scop depth filter
  | .leaf => .ok [⟨depth, "leaf"⟩]

def treeLines (scop : Option Scop) (depth : Nat) : Tree → Checked (List Line)
  | .missing id => .ok [⟨depth, "<missing node " ++ nodeLabel id ++ ">"⟩]
  | .node _ kind arity child => do
    let own ← kindLines scop depth kind
    let below ← (List.finRange arity).mapM fun i => treeLines scop (depth + 1) (child i)
    return own ++ below.flatten

end Layout

def Arena.render (a : Arena) (scop : Option Scop) : Checked String := do
  let lines ← Layout.treeLines scop 0 a.tree
  return Line.join lines

end LoopNest
