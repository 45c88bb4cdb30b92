import LoopNest.Json.Text

/-! A document is a sequence of tokens with blanks between them. Numbers and strings are kept as
they are written, since what they must look like depends on where they stand. -/

namespace LoopNest.Json

inductive Token where
  | openObject
  | closeObject
  | openArray
  | closeArray
  | comma
  | colon
  | null
  | bool (value : Bool)
  | number (raw : String)
  | string (raw : String)
  deriving DecidableEq, Repr

def Token.text : Token → String
  | .openObject => "\x7b"
  | .closeObject => "\x7d"
  | .openArray => "["
  | .closeArray => "]"
  | .comma => ","
  | .colon => ":"
  | .null => "null"
  | .bool value => if value then "true" else "false"
  | .number raw => raw
  | .string raw => "\"" ++ raw ++ "\""

def isBlank (c : Char) : Bool := c = ' ' || c = '\n' || c = '\t' || c = '\r'

def isDigit (c : Char) : Bool := '0' ≤ c && c ≤ '9'

/-- Reads to the closing quote. `done` is what has been read, reversed. -/
def scanString (done : List Char) : List Char → Option (List Char × List Char)
  | [] => none
  | '"' :: rest => some (done.reverse, rest)
  | '\\' :: 'u' :: a :: b :: c :: d :: rest =>
    if (hexQuad? a b c d).isSome then scanString (d :: c :: b :: a :: 'u' :: '\\' :: done) rest
    else none
  | '\\' :: c :: rest =>
    if (simpleEscape? c).isSome then scanString (c :: '\\' :: done) rest else none
  | c :: rest =>
    if c = '\\' ∨ c.toNat < 32 then none else scanString (c :: done) rest

/-- An optional minus sign and digits without a superfluous zero. -/
def scanInteger (cs : List Char) : Option (List Char × List Char) :=
  let (sign, cs) := match cs with
    | '-' :: rest => (['-'], rest)
    | _ => ([], cs)
  match cs with
  | '0' :: rest => some (sign ++ ['0'], rest)
  | c :: _ => if isDigit c then some (sign ++ cs.takeWhile isDigit, cs.dropWhile isDigit) else none
  | [] => none

def scanFraction (cs : List Char) : List Char × List Char :=
  match cs with
  | '.' :: c :: rest =>
    if isDigit c then ('.' :: (c :: rest).takeWhile isDigit, (c :: rest).dropWhile isDigit)
    else ([], cs)
  | _ => ([], cs)

def scanExponent (cs : List Char) : List Char × List Char :=
  match cs with
  | mark :: rest =>
    if mark = 'e' ∨ mark = 'E' then
      let (sign, digits) := match rest with
        | '+' :: rest => (['+'], rest)
        | '-' :: rest => (['-'], rest)
        | _ => ([], rest)
      match digits with
      | c :: _ =>
        if isDigit c then
          (mark :: sign ++ digits.takeWhile isDigit, digits.dropWhile isDigit)
        else ([], cs)
      | [] => ([], cs)
    else ([], cs)
  | [] => ([], cs)

def scanNumber (cs : List Char) : Option (List Char × List Char) := do
  let (whole, cs) ← scanInteger cs
  let (fraction, cs) := scanFraction cs
  let (exponent, cs) := scanExponent cs
  return (whole ++ fraction ++ exponent, cs)

/-- The token at the start of a text that does not start with a blank. -/
def scanToken : List Char → Option (Token × List Char)
  | '\x7b' :: rest => some (.openObject, rest)
  | '\x7d' :: rest => some (.closeObject, rest)
  | '[' :: rest => some (.openArray, rest)
  | ']' :: rest => some (.closeArray, rest)
  | ',' :: rest => some (.comma, rest)
  | ':' :: rest => some (.colon, rest)
  | 'n' :: 'u' :: 'l' :: 'l' :: rest => some (.null, rest)
  | 't' :: 'r' :: 'u' :: 'e' :: rest => some (.bool true, rest)
  | 'f' :: 'a' :: 'l' :: 's' :: 'e' :: rest => some (.bool false, rest)
  | '"' :: rest => (scanString [] rest).map fun (raw, rest) => (.string (String.ofList raw), rest)
  | cs => (scanNumber cs).map fun (raw, rest) => (.number (String.ofList raw), rest)

def scanTokens (done : List Token) : Nat → List Char → Option (List Token)
  | 0, _ => none
  | fuel + 1, cs =>
    match cs.dropWhile isBlank with
    | [] => some done.reverse
    | cs =>
      match scanToken cs with
      | none => none
      | some (token, rest) => scanTokens (token :: done) fuel rest

/-- The tokens of a text; a token has at least one character. -/
def tokenize? (text : String) : Option (List Token) :=
  scanTokens [] (text.length + 1) text.toList

end LoopNest.Json
