import BehaviorTree.Json.Basic
import BehaviorTree.Number.Text

/-!
# Writing JSON text

Two forms: compact, without any blank, and pretty, with one member a line and two blanks for each
level. Strings escape the quote, the backslash and the control characters and nothing else. A
number that JSON cannot express becomes `null`.
-/

namespace BehaviorTree.Json

/-- The hexadecimal digit of a number below sixteen. -/
def hexChar (n : Nat) : Char := (Nat.digitChar n)

/-- A character inside a string literal. -/
def escape (c : Char) : List Char :=
  match c with
  | '"' => ['\\', '"']
  | '\\' => ['\\', '\\']
  | '\x08' => ['\\', 'b']
  | '\x0c' => ['\\', 'f']
  | '\n' => ['\\', 'n']
  | '\r' => ['\\', 'r']
  | '\t' => ['\\', 't']
  | c =>
    if c.toNat < 0x20 then ['\\', 'u', '0', '0', hexChar (c.toNat / 16), hexChar (c.toNat % 16)]
    else [c]

def quote (s : String) : List Char := '"' :: s.toList.flatMap escape ++ ['"']

def integerText (n : Int) : List Char :=
  if n < 0 then '-' :: decimalDigits n.natAbs else decimalDigits n.natAbs

mutual

/-- The compact form. -/
def compact : Json → List Char
  | .null | .unreadable => ['n', 'u', 'l', 'l']
  | .bool true => ['t', 'r', 'u', 'e']
  | .bool false => ['f', 'a', 'l', 's', 'e']
  | .integer n => integerText n
  | .number x => x.render Number.jsonLayout
  | .string s => quote s
  | .array [] => ['[', ']']
  | .array (item :: items) => '[' :: compact item ++ compactItems items
  | .object [] => ['\x7b', '\x7d']
  | .object ((key, value) :: members) =>
    '\x7b' :: quote key ++ ':' :: compact value ++ compactMembers members

/-- The items after the first, and the closing bracket. -/
def compactItems : List Json → List Char
  | [] => [']']
  | item :: items => ',' :: compact item ++ compactItems items

/-- The members after the first, and the closing brace. -/
def compactMembers : List (String × Json) → List Char
  | [] => ['\x7d']
  | (key, value) :: members =>
    ',' :: quote key ++ ':' :: compact value ++ compactMembers members

end

/-- A line end and the blanks of a level. -/
def newLine (level : Nat) : List Char := '\n' :: List.replicate (2 * level) ' '

mutual

/-- The pretty form, inside `level` containers. -/
def pretty (level : Nat) : Json → List Char
  | .null | .unreadable => ['n', 'u', 'l', 'l']
  | .bool true => ['t', 'r', 'u', 'e']
  | .bool false => ['f', 'a', 'l', 's', 'e']
  | .integer n => integerText n
  | .number x => x.render Number.jsonLayout
  | .string s => quote s
  | .array [] => ['[', ']']
  | .array (item :: items) =>
    '[' :: newLine (level + 1) ++ pretty (level + 1) item ++ prettyItems level items
  | .object [] => ['\x7b', '\x7d']
  | .object ((key, value) :: members) =>
    '\x7b' :: newLine (level + 1) ++ quote key ++ ':' :: ' ' :: pretty (level + 1) value ++
      prettyMembers level members

/-- The items after the first, and the closing bracket. -/
def prettyItems (level : Nat) : List Json → List Char
  | [] => newLine level ++ [']']
  | item :: items =>
    ',' :: newLine (level + 1) ++ pretty (level + 1) item ++ prettyItems level items

/-- The members after the first, and the closing brace. -/
def prettyMembers (level : Nat) : List (String × Json) → List Char
  | [] => newLine level ++ ['\x7d']
  | (key, value) :: members =>
    ',' :: newLine (level + 1) ++ quote key ++ ':' :: ' ' :: pretty (level + 1) value ++
      prettyMembers level members

end

end BehaviorTree.Json
