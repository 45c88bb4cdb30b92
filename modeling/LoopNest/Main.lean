import LoopNest.Command.Run

/-! The command. -/

namespace LoopNest.Command

def readText (path : String) : IO (Option String) :=
  try
    let text ← IO.FS.readFile path
    return some text
  catch _ => return none

def close (ending : Ending) : IO UInt32 := do
  IO.print ending.output
  match ending.complaint? with
  | some message => IO.eprintln message
  | none => pure ()
  return ending.exitCode.toUInt32

def writeText (output : Option String) (text : String) : IO Ending :=
  match output with
  | none => return .done (text ++ "\n")
  | some path =>
    try
      IO.FS.writeFile path text
      return .done ""
    catch _ => return .failed (.unwritableOutput path)

end LoopNest.Command

open LoopNest.Command in
def main (words : List String) : IO UInt32 := do
  match Arguments.parse words with
  | .error halt => close halt.ending
  | .ok a =>
    let input ← readText a.input
    let config ← match a.config with
      | some path => readText path
      | none => pure none
    match Task.finish (compute a input config) with
    | .error ending => close ending
    | .ok text =>
      let ending ← writeText a.output text
      close ending
