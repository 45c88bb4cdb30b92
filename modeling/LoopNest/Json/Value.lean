import LoopNest.Json.Token

/-! A document is null, a truth value, a number, a string, a list, or a list of named fields. Fields
keep their order and may repeat; names, like strings, are kept as written. -/

namespace LoopNest

inductive Json where
  | null
  | bool (value : Bool)
  | number (raw : String)
  | string (raw : String)
  | array (items : List Json)
  | object (fields : List (String × Json))

namespace Json

def text (value : String) : Json := string (escape value)

def int (value : Int) : Json := number (toString value)

def nat (value : Nat) : Json := number (toString value)

def record (fields : List (String × Json)) : Json :=
  object (fields.map fun (name, value) => (escape name, value))

mutual

def tokens : Json → List Token
  | null => [.null]
  | bool value => [.bool value]
  | number raw => [.number raw]
  | string raw => [.string raw]
  | array items => .openArray :: itemTokens items
  | object fields => .openObject :: fieldTokens fields

def itemTokens : List Json → List Token
  | [] => [.closeArray]
  | [item] => item.tokens ++ [.closeArray]
  | item :: items => item.tokens ++ .comma :: itemTokens items

def fieldTokens : List (String × Json) → List Token
  | [] => [.closeObject]
  | [(name, value)] => .string name :: .colon :: value.tokens ++ [.closeObject]
  | (name, value) :: fields =>
    .string name :: .colon :: value.tokens ++ .comma :: fieldTokens fields

end

def compact (value : Json) : String := String.join (value.tokens.map Token.text)

def lineBreak (depth : Nat) : String := "\n" ++ String.join (List.replicate depth "  ")

mutual

/-- The text with a line for each item and field, indented by two blanks for each level. -/
def pretty (depth : Nat) : Json → String
  | array [] => "[]"
  | array items => "[" ++ ",".intercalate (prettyItems (depth + 1) items) ++ lineBreak depth ++ "]"
  | object [] => "\x7b\x7d"
  | object fields =>
    "\x7b" ++ ",".intercalate (prettyFields (depth + 1) fields) ++ lineBreak depth ++ "\x7d"
  | null => Token.text .null
  | bool value => Token.text (.bool value)
  | number raw => raw
  | string raw => Token.text (.string raw)

def prettyItems (depth : Nat) : List Json → List String
  | [] => []
  | item :: items => (lineBreak depth ++ item.pretty depth) :: prettyItems depth items

def prettyFields (depth : Nat) : List (String × Json) → List String
  | [] => []
  | (name, value) :: fields =>
    (lineBreak depth ++ Token.text (.string name) ++ ": " ++ value.pretty depth) ::
      prettyFields depth fields

end

mutual

def parseValue : Nat → List Token → Option (Json × List Token)
  | 0, _ => none
  | _ + 1, .null :: rest => some (null, rest)
  | _ + 1, .bool value :: rest => some (bool value, rest)
  | _ + 1, .number raw :: rest => some (number raw, rest)
  | _ + 1, .string raw :: rest => some (string raw, rest)
  | _ + 1, .openArray :: .closeArray :: rest => some (array [], rest)
  | fuel + 1, .openArray :: rest => parseItems fuel [] rest
  | _ + 1, .openObject :: .closeObject :: rest => some (object [], rest)
  | fuel + 1, .openObject :: rest => parseFields fuel [] rest
  | _ + 1, _ => none

/-- Reads at least one item, up to the closing bracket. `done` is reversed. -/
def parseItems : Nat → List Json → List Token → Option (Json × List Token)
  | 0, _, _ => none
  | fuel + 1, done, tokens =>
    match parseValue fuel tokens with
    | some (item, .comma :: rest) => parseItems fuel (item :: done) rest
    | some (item, .closeArray :: rest) => some (array (item :: done).reverse, rest)
    | _ => none

def parseFields : Nat → List (String × Json) → List Token → Option (Json × List Token)
  | 0, _, _ => none
  | fuel + 1, done, .string name :: .colon :: tokens =>
    match parseValue fuel tokens with
    | some (value, .comma :: rest) => parseFields fuel ((name, value) :: done) rest
    | some (value, .closeObject :: rest) => some (object ((name, value) :: done).reverse, rest)
    | _ => none
  | _ + 1, _, _ => none

end

/-- Reads a document that is one value. No token is met more than twice on the way down. -/
def parse? (text : String) : Option Json := do
  let tokens ← tokenize? text
  match parseValue (2 * tokens.length) tokens with
  | some (value, []) => some value
  | _ => none

end Json

end LoopNest
