import LoopNest.Command.Arguments
import LoopNest.Command.Files
import LoopNest.Json.Settings
import LoopNest.Schedule.Layout
import LoopNest.Text.Quoted

/-! The command reads a scop, optimizes its schedule and writes what was asked for. -/

namespace LoopNest.Command

def versionText : String := "schedopt 0.1.0"

def usageText : String := "Usage: schedopt [OPTIONS] <FILE>"

inductive Error where
  | unreadableInput (path : String)
  | load (error : LoadError)
  | unusableConfig (path : String)
  | optimization (name : String) (failure : Failure)
  | missingParams (parameters : List String)
  | evaluation (error : EvalError)
  | unwritableOutput (path : String)
  deriving DecidableEq, Repr

def Error.message : Error → String
  | unreadableInput path => "Failed to read input file: " ++ Text.quote path
  | load error => error.context
  | unusableConfig path => "Failed to load configuration: " ++ Text.quote path
  | optimization name _ => Optimized.failureContext name
  | missingParams parameters => "--emit=order needs --params for " ++ Text.quoteAll parameters
  | evaluation _ => "Failed to evaluate the optimized schedule"
  | unwritableOutput path => "Failed to write output file: " ++ Text.quote path

abbrev Task := ExceptT Error Checked

def emitText (a : Arguments) (scop : Scop) (result : Optimized) : Task String :=
  match a.emit with
  | .tree => result.schedule.render (some scop)
  | .json => return (Json.ofScop { scop with schedule := result.schedule }).pretty 0
  | .report => return (Json.ofDecisions result.decisions).pretty 0
  | .order =>
    match a.params with
    | none => throw (.missingParams scop.parameters)
    | some params => do
      let order ← (result.schedule.executionOrder params).run
      match order with
      | .error e => throw (.evaluation e)
      | .ok instances =>
        return "\n".intercalate (instances.map fun i => instanceLabel i.stmt i.point)

def compute (a : Arguments) (input config : Option String) : Task String := do
  let some source := input | throw (.unreadableInput a.input)
  let scop ← match Scop.load source with
    | .ok scop => pure scop
    | .error e => throw (.load e)
  let base ← match a.config with
    | none => pure Config.standard
    | some path =>
      match config.bind Config.load? with
      | some config => pure config
      | none => throw (.unusableConfig path)
  let result ← scop.optimize (a.configure base) a.target
  match result with
  | .ok result => emitText a scop result
  | .error e => throw (.optimization scop.name e)

inductive Ending where
  | done (output : String)
  | failed (error : Error)
  | misused
  | faulted (fault : Fault)
  deriving DecidableEq, Repr

namespace Ending

def exitCode : Ending → Nat
  | done _ => 0
  | failed _ => 1
  | misused => 2
  | faulted _ => 101

def output : Ending → String
  | done output => output
  | _ => ""

def complaint? : Ending → Option String
  | done _ => none
  | failed error => some ("Error: " ++ error.message)
  | misused => some usageText
  | faulted fault => some fault.message

end Ending

def Halt.ending : Halt → Ending
  | usage => .misused
  | version => .done (versionText ++ "\n")
  | help => .done (usageText ++ "\n")

def Task.finish (task : Task String) : Except Ending String :=
  match ExceptT.run task with
  | .error fault => .error (.faulted fault)
  | .ok (.error error) => .error (.failed error)
  | .ok (.ok text) => .ok text

def run (words : List String) (files : Files) : Ending × Files :=
  match Arguments.parse words with
  | .error halt => (halt.ending, files)
  | .ok a =>
    match Task.finish (compute a (files.read? a.input) (a.config.bind files.read?)) with
    | .error ending => (ending, files)
    | .ok text =>
      match a.output with
      | none => (.done (text ++ "\n"), files)
      | some path =>
        match files.write? path text with
        | some files => (.done "", files)
        | none => (.failed (.unwritableOutput path), files)

end LoopNest.Command
