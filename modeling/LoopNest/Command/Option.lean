/-! The words of a command line are sorted into options with their values and free words. An option
that takes a list takes all words up to the next option, unless its value is attached to it. -/

namespace LoopNest.Command

inductive Opt where
  | output
  | config
  | target
  | tileSizes
  | defaultTileSize
  | noTiling
  | secondLevelTiling
  | registerTiling
  | noVectorize
  | vectorWidth
  | noPatternMatching
  | emit
  | params
  | verbose
  | quiet
  | help
  | version
  deriving DecidableEq, Repr

inductive Arity where
  | none
  | one
  | list
  deriving DecidableEq, Repr

namespace Opt

def all : List Opt :=
  [output, config, target, tileSizes, defaultTileSize, noTiling, secondLevelTiling, registerTiling,
    noVectorize, vectorWidth, noPatternMatching, emit, params, verbose, quiet, help, version]

def long : Opt → String
  | output => "output"
  | config => "config"
  | target => "target"
  | tileSizes => "tile-sizes"
  | defaultTileSize => "default-tile-size"
  | noTiling => "no-tiling"
  | secondLevelTiling => "second-level-tiling"
  | registerTiling => "register-tiling"
  | noVectorize => "no-vectorize"
  | vectorWidth => "vector-width"
  | noPatternMatching => "no-pattern-matching"
  | emit => "emit"
  | params => "params"
  | verbose => "verbose"
  | quiet => "quiet"
  | help => "help"
  | version => "version"

def short? : Opt → Option Char
  | output => some 'o'
  | target => some 't'
  | verbose => some 'v'
  | quiet => some 'q'
  | help => some 'h'
  | version => some 'V'
  | _ => .none

def arity : Opt → Arity
  | output | config | target | defaultTileSize | vectorWidth | emit => .one
  | tileSizes | params => .list
  | _ => .none

def byLong? (name : String) : Option Opt := all.find? (·.long = name)

def byShort? (letter : Char) : Option Opt := all.find? (·.short? = some letter)

end Opt

inductive Event where
  | given (option : Opt) (values : List String)
  | free (word : String)
  | unknown
  deriving DecidableEq, Repr

/-- What has been read: the events, last first, and the option that waits for values. -/
structure Scan where
  events : List Event
  waiting : Option (Opt × List String)
  /-- All further words are free. -/
  onlyFree : Bool

namespace Scan

def start : Scan := ⟨[], none, false⟩

def add (s : Scan) (event : Event) : Scan := { s with events := event :: s.events }

def settle (s : Scan) : Scan :=
  match s.waiting with
  | some (option, values) => { s with waiting := none }.add (.given option values)
  | none => s

def long (s : Scan) (name : String) (value : Option String) : Scan :=
  match Opt.byLong? name with
  | none => s.add .unknown
  | some option =>
    match option.arity, value with
    | .none, none => s.add (.given option [])
    | .none, some _ => s.add .unknown
    | _, some value => s.add (.given option [value])
    | _, none => { s with waiting := some (option, []) }

/-- Letters behind one dash. What stands behind the letter of an option that takes a value is the
value. -/
def letters (s : Scan) : List Char → Scan
  | [] => s
  | letter :: rest =>
    match Opt.byShort? letter with
    | none => s.add .unknown
    | some option =>
      match option.arity, rest with
      | .none, _ => (s.add (.given option [])).letters rest
      | _, [] => { s with waiting := some (option, []) }
      | _, '=' :: value => s.add (.given option [String.ofList value])
      | _, value => s.add (.given option [String.ofList value])

/-- A word that is no option is a value of the option that waits for one, or free. -/
def plain (s : Scan) (word : String) : Scan :=
  match s.waiting with
  | none => s.add (.free word)
  | some (option, values) =>
    match option.arity with
    | .list => { s with waiting := some (option, values ++ [word]) }
    | _ => { s with waiting := none }.add (.given option (values ++ [word]))

def splitLong (body : List Char) : String × Option String :=
  let name := body.takeWhile (· ≠ '=')
  match body.drop name.length with
  | [] => (String.ofList name, none)
  | _ :: value => (String.ofList name, some (String.ofList value))

def word (s : Scan) (text : String) : Scan :=
  if s.onlyFree then s.add (.free text)
  else match text.toList with
    | ['-', '-'] => { s.settle with onlyFree := true }
    | '-' :: '-' :: body =>
      let (name, value) := splitLong body
      s.settle.long name value
    | '-' :: letter :: rest => s.settle.letters (letter :: rest)
    | _ => s.plain text

end Scan

def eventsOf (words : List String) : List Event :=
  (words.foldl Scan.word .start).settle.events.reverse

end LoopNest.Command
