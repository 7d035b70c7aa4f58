import BehaviorTree.Number.Text
import BehaviorTree.Value.Basic

/-!
# Value text

How a value is written in messages: like JSON, but with whole numbers as integers, keys and
strings without escapes, and a blank after each comma and colon.
-/

namespace BehaviorTree.Value

/-- A number in messages: without a point if it is whole and otherwise with all its digits. -/
def numberText (x : Number) : String :=
  if x.isIntegral then toString x.toInt64 else x.plainText

mutual

/-- The value as it stands in messages. -/
def text : Value → String
  | .null => "null"
  | .bool b => if b then "true" else "false"
  | .number x => numberText x
  | .string s => "\"" ++ s ++ "\""
  | .array items => "[" ++ ", ".intercalate (itemTexts items) ++ "]"
  | .object entries => "\x7b" ++ ", ".intercalate (entryTexts entries) ++ "\x7d"

def itemTexts : List Value → List String
  | [] => []
  | v :: rest => text v :: itemTexts rest

def entryTexts : List (String × Value) → List String
  | [] => []
  | (key, v) :: rest => (key ++ ": " ++ text v) :: entryTexts rest

end

end BehaviorTree.Value
