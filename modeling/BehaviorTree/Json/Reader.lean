import BehaviorTree.Json.Numeral

/-!
# Reading JSON text

`Json.read` takes a whole text. Each reader takes the characters left and gives what it read with
the characters after it. The grammar is strict: no leading zeros, no bare point, no comma before a
closing bracket, no control character inside a string, and blanks are space, tab and line ends.
-/

namespace BehaviorTree.Json

def isBlank (c : Char) : Bool := c == ' ' || c == '\t' || c == '\n' || c == '\r'

def skipBlanks (cs : List Char) : List Char := cs.dropWhile isBlank

def isDigit (c : Char) : Bool := '0' ≤ c && c ≤ '9'

/-! ## Numbers -/

/-- A nonempty run of digits. -/
def readDigits (cs : List Char) : Option (List Char × List Char) :=
  match cs.takeWhile isDigit with
  | [] => none
  | ds => some (ds, cs.dropWhile isDigit)

/-- The digits of the whole part, where zero leads only itself. -/
def readWhole (cs : List Char) : Option (List Char × List Char) :=
  match readDigits cs with
  | some ('0' :: _ :: _, _) => none
  | other => other

/-- The digits after a point, if there is one. -/
def readFraction : List Char → Option (List Char × List Char)
  | '.' :: rest => readDigits rest
  | cs => some ([], cs)

/-- The exponent after an `e`. -/
def readSignedDigits : List Char → Option (Int × List Char)
  | '-' :: rest => (readDigits rest).map fun (ds, rest) => (-(digitsValue ds : Int), rest)
  | '+' :: rest => (readDigits rest).map fun (ds, rest) => ((digitsValue ds : Int), rest)
  | cs => (readDigits cs).map fun (ds, rest) => ((digitsValue ds : Int), rest)

/-- The exponent, if there is one. -/
def readExponent : List Char → Option (Option Int × List Char)
  | 'e' :: rest => (readSignedDigits rest).map fun (e, rest) => (some e, rest)
  | 'E' :: rest => (readSignedDigits rest).map fun (e, rest) => (some e, rest)
  | cs => some (none, cs)

def readMagnitude (negative : Bool) (cs : List Char) : Option (Json × List Char) := do
  let (whole, cs) ← readWhole cs
  let (fraction, cs) ← readFraction cs
  let (exponent, cs) ← readExponent cs
  return (ofNumeral negative whole fraction exponent, cs)

def readNumber : List Char → Option (Json × List Char)
  | '-' :: rest => readMagnitude true rest
  | cs => readMagnitude false cs

/-! ## Strings -/

def hexDigit? (c : Char) : Option Nat :=
  if '0' ≤ c && c ≤ '9' then some (c.toNat - '0'.toNat)
  else if 'a' ≤ c && c ≤ 'f' then some (c.toNat - 'a'.toNat + 10)
  else if 'A' ≤ c && c ≤ 'F' then some (c.toNat - 'A'.toNat + 10)
  else none

/-- The code unit that four hexadecimal digits denote. -/
def codeUnit? (a b c d : Char) : Option Nat := do
  return (((← hexDigit? a) * 16 + (← hexDigit? b)) * 16 + (← hexDigit? c)) * 16 + (← hexDigit? d)

def isLeadUnit (unit : Nat) : Bool := 0xD800 ≤ unit && unit < 0xDC00

def isTrailUnit (unit : Nat) : Bool := 0xDC00 ≤ unit && unit < 0xE000

/-- The character a surrogate pair stands for. -/
def pairChar (lead trail : Nat) : Char :=
  Char.ofNat (0x10000 + (lead - 0xD800) * 0x400 + (trail - 0xDC00))

/-- The character of a one-letter escape. -/
def escapeChar? : Char → Option Char
  | '"' => some '"'
  | '\\' => some '\\'
  | '/' => some '/'
  | 'b' => some '\x08'
  | 'f' => some '\x0c'
  | 'n' => some '\n'
  | 'r' => some '\r'
  | 't' => some '\t'
  | _ => none

/-- One character of a string literal as it is written. -/
inductive Piece where
  /-- A character, plain or by its one-letter escape. -/
  | char (c : Char)
  /-- A code unit in hexadecimal digits. -/
  | unit (n : Nat)

/-- The pieces of a string after its opening quote. -/
def readPieces : List Char → Option (List Piece × List Char)
  | [] => none
  | '"' :: rest => some ([], rest)
  | '\\' :: 'u' :: a :: b :: c :: d :: rest => do
    let unit ← codeUnit? a b c d
    let (pieces, rest) ← readPieces rest
    return (.unit unit :: pieces, rest)
  | '\\' :: c :: rest => do
    let c ← escapeChar? c
    let (pieces, rest) ← readPieces rest
    return (.char c :: pieces, rest)
  | c :: rest =>
    if c.toNat < 0x20 then none
    else do
      let (pieces, rest) ← readPieces rest
      return (.char c :: pieces, rest)

/-- The text that pieces spell, if no half of a surrogate pair stands alone among them. -/
def spell : List Piece → Option (List Char)
  | [] => some []
  | .char c :: rest => (spell rest).map (c :: ·)
  | .unit n :: rest =>
    if isTrailUnit n then none
    else if isLeadUnit n then
      match rest with
      | .unit m :: rest =>
        if isTrailUnit m then (spell rest).map (pairChar n m :: ·) else none
      | _ => none
    else (spell rest).map (Char.ofNat n :: ·)

/-- A string after its opening quote; the text is missing if it cannot be spelled. -/
def readStringBody (cs : List Char) : Option (Option (List Char) × List Char) :=
  (readPieces cs).map fun (pieces, rest) => (spell pieces, rest)

/-! ## Values -/

mutual

/-- The value at the front of `cs`, inside `depth` containers. The fuel bounds the nesting and the
count of items; the length of the text is always enough. -/
def readValue (fuel depth : Nat) (cs : List Char) : Option (Json × List Char) :=
  match fuel with
  | 0 => none
  | fuel + 1 =>
    match skipBlanks cs with
    | 'n' :: 'u' :: 'l' :: 'l' :: rest => some (.null, rest)
    | 't' :: 'r' :: 'u' :: 'e' :: rest => some (.bool true, rest)
    | 'f' :: 'a' :: 'l' :: 's' :: 'e' :: rest => some (.bool false, rest)
    | '"' :: rest => do
      let (text, rest) ← readStringBody rest
      return (match text with
        | some text => .string (String.ofList text)
        | none => .unreadable, rest)
    | '[' :: rest => do
      let (items, rest) ← match skipBlanks rest with
        | ']' :: rest => some ([], rest)
        | rest => readItems fuel (depth + 1) rest
      return (if depth < maxDepth then .array items else .unreadable, rest)
    | '\x7b' :: rest => do
      let (members, rest) ← match skipBlanks rest with
        | '\x7d' :: rest => some (some [], rest)
        | rest => readMembers fuel (depth + 1) rest
      return (match members with
        | some members => if depth < maxDepth then .object members else .unreadable
        | none => .unreadable, rest)
    | cs => readNumber cs

/-- The items of an array, of which there is at least one, and the closing bracket. -/
def readItems (fuel depth : Nat) (cs : List Char) : Option (List Json × List Char) :=
  match fuel with
  | 0 => none
  | fuel + 1 => do
    let (item, rest) ← readValue fuel depth cs
    match skipBlanks rest with
    | ']' :: rest => return ([item], rest)
    | ',' :: rest =>
      let (items, rest) ← readItems fuel depth rest
      return (item :: items, rest)
    | _ => none

/-- The members of an object, of which there is at least one, and the closing brace; missing if a
key cannot be read. -/
def readMembers (fuel depth : Nat) (cs : List Char) :
    Option (Option (List (String × Json)) × List Char) :=
  match fuel with
  | 0 => none
  | fuel + 1 =>
    match skipBlanks cs with
    | '"' :: rest => do
      let (key, rest) ← readStringBody rest
      match skipBlanks rest with
      | ':' :: rest =>
        let (value, rest) ← readValue fuel depth rest
        let member := key.map fun key => (String.ofList key, value)
        match skipBlanks rest with
        | '\x7d' :: rest => return (member.map ([·]), rest)
        | ',' :: rest =>
          let (members, rest) ← readMembers fuel depth rest
          return (do return (← member) :: (← members), rest)
        | _ => none
      | _ => none
    | _ => none

end

/-- The tree of a whole JSON text. -/
def read (cs : List Char) : Option Json := do
  let (value, rest) ← readValue (2 * cs.length + 2) 0 cs
  if (skipBlanks rest).isEmpty then some value else none

end BehaviorTree.Json
