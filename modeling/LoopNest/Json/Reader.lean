import LoopNest.Json.Value

/-! A reader takes a document apart down to a limited depth of nested lists and fields. A record may
be written with named fields, in any order and with unknown ones between them, or as the list of its
values. A choice without content is a string; a choice with content is a single named field. -/

namespace LoopNest.Json

def digitsValue (digits : List Char) : Nat :=
  digits.foldl (fun value c => 10 * value + (c.toNat - 48)) 0

/-- An unsigned number of at most 64 bits, without superfluous zeros. -/
def decimal? (raw : List Char) : Option Nat :=
  if raw ≠ [] ∧ raw.all isDigit ∧ (raw = ['0'] ∨ raw.head? ≠ some '0') ∧
      digitsValue raw < 18446744073709551616 then
    some (digitsValue raw)
  else none

/-- Reads a value that may be nested to a depth. -/
abbrev Reader (α : Type) := Nat → Json → Option α

def depthLimit : Nat := 127

namespace Reader

variable {α : Type}

def nat : Reader Nat
  | _, number raw => decimal? raw.toList
  | _, _ => none

/-- A signed number of at most 64 bits. A minus sign before zero is not taken. -/
def int : Reader Int
  | _, number raw =>
    match raw.toList with
    | '-' :: digits =>
      match decimal? digits with
      | some n => if 0 < n ∧ n ≤ 9223372036854775808 then some (-n) else none
      | none => none
    | digits =>
      match decimal? digits with
      | some n => if n < 9223372036854775808 then some n else none
      | none => none
  | _, _ => none

def bool : Reader Bool
  | _, .bool value => some value
  | _, _ => none

def text : Reader String
  | _, string raw => unescape? raw
  | _, _ => none

def list (item : Reader α) : Reader (List α)
  | depth + 1, array items => items.mapM (item depth)
  | _, _ => none

def optional (value : Reader α) : Reader (Option α)
  | _, null => some none
  | depth, j => (value depth j).map some

def numbered (value : Reader α) : Reader (List (Nat × α))
  | depth + 1, object fields => fields.mapM fun (raw, j) => do
    let number ← decimal? raw.toList
    let content ← value depth j
    return (number, content)
  | _, _ => none

end Reader

abbrev Members := List (String × Json)

/-- Keeps the fields that are known and refuses one that repeats. -/
def knownFields (names : List String) : List (String × Json) → Option Members
  | [] => some []
  | (raw, value) :: fields => do
    let name ← unescape? raw
    let rest ← knownFields names fields
    if names.contains name then
      if (rest.lookup name).isSome then none else return (name, value) :: rest
    else return rest

def members (names : List String) : Json → Option Members
  | object fields => knownFields names fields
  | array items => if items.length ≤ names.length then some (names.zip items) else none
  | _ => none

variable {α : Type}

namespace Members

def required (m : Members) (name : String) (value : Reader α) (depth : Nat) : Option α :=
  (m.lookup name).bind (value depth)

def withDefault (m : Members) (name : String) (value : Reader α) (default : α) (depth : Nat) :
    Option α :=
  match m.lookup name with
  | some j => value depth j
  | none => some default

end Members

structure Choice where
  name : String
  content : Option Json
  depth : Nat

def choice : Nat → Json → Option Choice
  | depth, string raw => do
    let name ← unescape? raw
    return ⟨name, none, depth⟩
  | depth + 1, object [(raw, content)] => do
    let name ← unescape? raw
    return ⟨name, some content, depth⟩
  | _, _ => none

namespace Choice

/-- A choice without content may carry null. -/
def isUnit (c : Choice) : Bool :=
  match c.content with
  | none | some null => true
  | _ => false

def read (c : Choice) (value : Reader α) : Option α := c.content.bind (value c.depth)

end Choice

def oneOf (options : List (String × α)) : Reader α := fun depth j => do
  let c ← choice depth j
  if c.isUnit then options.lookup c.name else none

end LoopNest.Json
