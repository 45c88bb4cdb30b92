import LoopNest.MatMul.Blocking
import LoopNest.Optimizer.Config
import LoopNest.Schedule.Flat
import LoopNest.Scop.Valid
import LoopNest.Tiling.Vector

/-! Every band is looked at once, after those below it. An innermost band whose loops may be
exchanged is blocked if it is a matrix multiplication; otherwise, if it has more than one loop, it
is tiled and its innermost coincident loop is made a vector loop. The result is kept if it schedules
some statement in another way. -/

namespace LoopNest

inductive Action where
  | notTileable
  | singleMember
  | matMul (shape : MatMulShape) (micro : MicroKernel) (blocks : MacroKernel)
  | standard (stages : List String) (vectorMember : Option Nat) (vectorWidth : Option Int)
  deriving DecidableEq, Repr

structure Decision where
  node : Nat
  members : Nat
  statements : List Nat
  action : Action
  deriving DecidableEq, Repr

def Arena.isTileable (a : Arena) (id : Nat) : Bool :=
  match a.band? id with
  | some band => band.isPermutable && !a.hasBandBelow id
  | none => false

structure Optimizer where
  scop : Scop
  config : Config
  target : Option Target

namespace Optimizer

def vectorWidth (o : Optimizer) : Int :=
  match o.target with
  | some target => target.simdWidth
  | none => o.config.vectorWidth

/-- Applies stages one after the other, each to the points of the one before. -/
def applyStages : List TilingStage → Nat → Edit Nat
  | [], id => return id
  | stage :: rest, id => do
    let points ← stage.apply id
    applyStages rest points

def innermostCoincident? (band : Band) : Option Nat :=
  (band.members.zipIdx.reverse.find? (·.1.coincident)).map (·.2)

/-- Tiles a band and makes a loop of the innermost points a vector loop. -/
def standardBand (o : Optimizer) (id : Nat) : Edit Action := do
  let stages := o.config.stages
  let points ← applyStages stages id
  let labels := stages.map (·.label)
  let a ← get
  let member := if o.config.enableVectorization then (a.band? points).bind innermostCoincident?
    else none
  match member with
  | some member =>
    let _ ← Edit.prevectorize points member o.vectorWidth
    return .standard labels (some member) (some o.vectorWidth)
  | none => return .standard labels none none

def bandAction (o : Optimizer) (id : Nat) : Edit Action := do
  let a ← get
  if !a.isTileable id then
    return .notTileable
  let shape ← if o.config.enablePatternMatching then a.matMulShape? o.scop id else pure none
  match shape with
  | some shape =>
    let target := o.target.getD .generic
    let micro ← MicroKernel.forTarget target
    let blocks ← MacroKernel.forTarget target micro
    let _ ← Edit.blockMatMul o.scop o.target id
    return .matMul shape micro blocks
  | none =>
    if (a.band? id).all (·.nMembers ≤ 1) then
      return .singleMember
    else
      o.standardBand id

def bandDecision (o : Optimizer) (id : Nat) (band : Band) : Edit Decision := do
  let a ← get
  let action ← o.bandAction id
  return ⟨id, band.nMembers, (a.reaching id).keys, action⟩

/-- Goes down a number of levels, children first. -/
def optimizeLevels (o : Optimizer) : Nat → Nat → Edit (List Decision)
  | 0, _ => return []
  | levels + 1, id => do
    let before ← get
    let below ← (before.children id).mapM (optimizeLevels o levels)
    let a ← get
    match a.band? id with
    | some band =>
      let own ← o.bandDecision id band
      return below.flatten ++ [own]
    | none => return below.flatten

def optimizeNode (o : Optimizer) (id : Nat) : Edit (List Decision) := do
  let a ← get
  o.optimizeLevels a.descentLimit id

/-- Optimizes all bands and compacts the arena. -/
def optimizeSchedule (o : Optimizer) : Edit (List Decision) := do
  if o.config.enableTiling then
    let a ← get
    let decisions ← o.optimizeNode a.root
    Edit.compact
    return decisions
  else
    return []

end Optimizer

/-- A schedule differs from that of the scop in more than marks and loop options. -/
def Scop.isProfitable (scop : Scop) (schedule : Arena) : Bool :=
  decide (scop.schedule.flatten ≠ schedule.flatten)

inductive Failure where
  | invalid (defect : Defect)
  | refused (refusal : Refusal)
  deriving DecidableEq, Repr

def Failure.chain : Failure → List String
  | invalid defect => ["Invalid scop: " ++ defect.message]
  | refused refusal => ["Transformation error: " ++ refusal.message, refusal.message]

structure Optimized where
  schedule : Arena
  decisions : List Decision
  /-- The schedule is a new one. -/
  profitable : Bool
  deriving DecidableEq, Repr

def Optimized.failureContext (name : String) : String := "failed to optimize scop `" ++ name ++ "`"

/-- Optimizes the schedule of a valid scop, and keeps the old one unless the new one is profitable.
-/
def Scop.optimize (scop : Scop) (config : Config) (target : Option Target) :
    Checked (Except Failure Optimized) :=
  match scop.validate with
  | .error defect => .ok (.error (.invalid defect))
  | .ok () => do
    let o : Optimizer := ⟨scop, config, target⟩
    let result ← o.optimizeSchedule.commit scop.schedule
    match result with
    | .error refusal => return .error (.refused refusal)
    | .ok (decisions, candidate) =>
      let profitable := scop.isProfitable candidate
      return .ok ⟨if profitable then candidate else scop.schedule, decisions, profitable⟩

end LoopNest
