import BehaviorTree.Binary.Codec
import BehaviorTree.Value.Basic

/-!
# Values in binary form

Bytes do not say by themselves what they hold, so each value begins with the position of its
kind: null, truth value, number, string, array, object.
-/

namespace BehaviorTree.Value

mutual

/-- The bytes of a value. -/
def write : Value → List UInt8
  | .null => Codec.writeInteger 0
  | .bool b => Codec.writeInteger 1 ++ Codec.bool.write b
  | .number x => Codec.writeInteger 2 ++ Codec.number.write x
  | .string s => Codec.writeInteger 3 ++ Codec.string.write s
  | .array items => Codec.writeInteger 4 ++ Codec.writeInteger items.length ++ writeItems items
  | .object entries =>
    Codec.writeInteger 5 ++ Codec.writeInteger entries.length ++ writeEntries entries

def writeItems : List Value → List UInt8
  | [] => []
  | item :: items => write item ++ writeItems items

def writeEntries : List (String × Value) → List UInt8
  | [] => []
  | (key, value) :: entries => Codec.string.write key ++ write value ++ writeEntries entries

end

/-- A value whose containers nest at most `depth` deep. -/
def readWithin : Nat → ByteReader Value
  | 0 => failure
  | depth + 1 => do
    match ← Codec.readInteger 4 with
    | 0 => return .null
    | 1 => return .bool (← Codec.bool.read)
    | 2 => return .number (← Codec.number.read)
    | 3 => return .string (← Codec.string.read)
    | 4 =>
      let count ← Codec.length.read
      return .array (← Codec.readCount (readWithin depth) count)
    | 5 =>
      let count ← Codec.length.read
      let entry : ByteReader (String × Value) := do
        return (← Codec.string.read, ← readWithin depth)
      return .object (Entries.ofList (← Codec.readCount entry count))
    | _ => failure

/-- Values in binary form. Each level of nesting takes a byte, so the bytes bound the depth. -/
def codec : Codec Value where
  write := write
  read := fun bytes => (readWithin bytes.length).run bytes

end BehaviorTree.Value
