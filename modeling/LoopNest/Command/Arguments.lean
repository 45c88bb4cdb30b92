import LoopNest.Command.Option
import LoopNest.Machine.Target
import LoopNest.Optimizer.Config

/-! Options other than lists and the wish for more messages are given at most once. The first wrong
word makes the command line wrong, unless the version or help was asked for before it. -/

namespace LoopNest.Command

inductive Emit where
  | tree
  | json
  | order
  | report
  deriving DecidableEq, Repr

structure Arguments where
  input : String
  output : Option String
  config : Option String
  target : Option Target
  tileSizes : Option (List Int)
  defaultTileSize : Option Int
  noTiling : Bool
  secondLevelTiling : Bool
  registerTiling : Bool
  noVectorize : Bool
  vectorWidth : Option Int
  noPatternMatching : Bool
  emit : Emit
  params : Option (List Int)
  deriving DecidableEq, Repr

inductive Halt where
  | usage
  | version
  | help
  deriving DecidableEq, Repr

/-- Digits with an optional sign, of a number that fits in a word. -/
def parseInt? (text : String) : Option Int :=
  let signed (negative : Bool) (digits : List Char) : Option Int :=
    if digits ≠ [] ∧ digits.all (fun c => '0' ≤ c ∧ c ≤ '9') then
      let size : Int := digits.foldl (fun value c => 10 * value + (c.toNat - 48 : Nat)) (0 : Nat)
      let value := if negative then -size else size
      if Word.Fits value then some value else none
    else none
  match text.toList with
  | '-' :: digits => signed true digits
  | '+' :: digits => signed false digits
  | digits => signed false digits

def parsePath? (text : String) : Option String := if text.isEmpty then none else some text

def parseTarget? (text : String) : Option (Option Target) :=
  if text = "none" then some none else (Target.byName? text).map some

def parseEmit? (text : String) : Option Emit :=
  [("tree", Emit.tree), ("json", .json), ("order", .order), ("report", .report)].lookup text

/-- The numbers of words, each of which may hold several with commas between them. -/
def parseInts? (words : List String) : Option (List Int) :=
  (words.flatMap (·.splitOn ",")).mapM parseInt?

structure Draft where
  input : Option String
  output : Option String
  config : Option String
  target : Option (Option Target)
  tileSizes : Option (List Int)
  defaultTileSize : Option Int
  flags : List Opt
  vectorWidth : Option Int
  emit : Option Emit
  params : Option (List Int)

namespace Draft

def empty : Draft := ⟨none, none, none, none, none, none, [], none, none, none⟩

def once {α : Type} (old : Option α) (parse : String → Option α) :
    List String → Except Halt (Option α)
  | [text] =>
    match old, parse text with
    | none, some value => .ok (some value)
    | _, _ => .error .usage
  | _ => .error .usage

def append (old : Option (List Int)) (words : List String) : Except Halt (Option (List Int)) :=
  match words, parseInts? words with
  | _ :: _, some values => .ok (some (old.getD [] ++ values))
  | _, _ => .error .usage

def withFlag (d : Draft) (option : Opt) : Except Halt Draft :=
  if d.flags.contains option then .error .usage else .ok { d with flags := option :: d.flags }

def apply (d : Draft) : Event → Except Halt Draft
  | .unknown => .error .usage
  | .free word => do return { d with input := ← once d.input parsePath? [word] }
  | .given .output values => do return { d with output := ← once d.output parsePath? values }
  | .given .config values => do return { d with config := ← once d.config parsePath? values }
  | .given .target values => do return { d with target := ← once d.target parseTarget? values }
  | .given .emit values => do return { d with emit := ← once d.emit parseEmit? values }
  | .given .defaultTileSize values => do
    return { d with defaultTileSize := ← once d.defaultTileSize parseInt? values }
  | .given .vectorWidth values => do
    return { d with vectorWidth := ← once d.vectorWidth parseInt? values }
  | .given .tileSizes words => do return { d with tileSizes := ← append d.tileSizes words }
  | .given .params words => do return { d with params := ← append d.params words }
  | .given .verbose _ => .ok d
  | .given .help _ => .error .help
  | .given .version _ => .error .version
  | .given option _ => d.withFlag option

def finish (d : Draft) : Except Halt Arguments :=
  match d.input with
  | none => .error .usage
  | some input => .ok {
      input
      output := d.output
      config := d.config
      target := d.target.getD (some .generic)
      tileSizes := d.tileSizes
      defaultTileSize := d.defaultTileSize
      noTiling := d.flags.contains .noTiling
      secondLevelTiling := d.flags.contains .secondLevelTiling
      registerTiling := d.flags.contains .registerTiling
      noVectorize := d.flags.contains .noVectorize
      vectorWidth := d.vectorWidth
      noPatternMatching := d.flags.contains .noPatternMatching
      emit := d.emit.getD .tree
      params := d.params }

end Draft

def Arguments.parse (words : List String) : Except Halt Arguments := do
  let draft ← (eventsOf words).foldlM Draft.apply .empty
  draft.finish

def Arguments.configure (a : Arguments) (config : Config) : Config where
  enableTiling := config.enableTiling && !a.noTiling
  firstLevel :=
    { config.firstLevel with
      sizes := a.tileSizes.getD config.firstLevel.sizes
      default := a.defaultTileSize.getD config.firstLevel.default }
  secondLevel :=
    { config.secondLevel with enabled := config.secondLevel.enabled || a.secondLevelTiling }
  registerTiling :=
    { config.registerTiling with enabled := config.registerTiling.enabled || a.registerTiling }
  enableVectorization := config.enableVectorization && !a.noVectorize
  vectorWidth := a.vectorWidth.getD config.vectorWidth
  enablePatternMatching := config.enablePatternMatching && !a.noPatternMatching

end LoopNest.Command
