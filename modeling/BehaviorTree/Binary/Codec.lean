import BehaviorTree.Dict
import BehaviorTree.Named
import BehaviorTree.Number.Basic

/-!
# The binary form

A `Codec` writes a thing as bytes and reads it from the front of bytes. Lengths and positions are
integers of variable length: one byte below 251, and otherwise a mark and two, four or eight bytes
with the low one first. Reading accepts a form longer than needed. Everything else is a
concatenation: a list follows its length, a record is its fields in order, and a thing that may be
missing follows a byte that says so.
-/

namespace BehaviorTree

/-- Reads from the front of a list of bytes and leaves the rest; fails without a result. -/
abbrev ByteReader (α : Type) := StateT (List UInt8) Option α

/-- A way to write things of a type as bytes and to read them again. -/
structure Codec (α : Type) where
  write : α → List UInt8
  read : ByteReader α

namespace Codec

variable {α β : Type}

/-! ## Integers -/

/-- The low `count` bytes of a number, the lowest first. -/
def lowBytes : Nat → Nat → List UInt8
  | 0, _ => []
  | count + 1, n => UInt8.ofNat n :: lowBytes count (n / 256)

/-- One byte. -/
def readByte : ByteReader UInt8 := fun bytes =>
  match bytes with
  | [] => none
  | b :: rest => some (b, rest)

/-- A number of `count` bytes, the lowest first. -/
def readLow : Nat → ByteReader Nat
  | 0 => pure 0
  | count + 1 => do
    let low ← readByte
    let high ← readLow count
    return low.toNat + 256 * high

/-- An integer below `2 ^ 64` in the form of variable length. -/
def writeInteger (n : Nat) : List UInt8 :=
  if n < 251 then [UInt8.ofNat n]
  else if n < UInt16.size then 251 :: lowBytes 2 n
  else if n < UInt32.size then 252 :: lowBytes 4 n
  else 253 :: lowBytes 8 n

/-- An integer in the form of variable length, of at most `width` bytes after its mark. -/
def readInteger (width : Nat) : ByteReader Nat := do
  let mark ← readByte
  if mark < 251 then return mark.toNat
  else if mark == 251 then readLow 2
  else if mark == 252 then readLow 4
  else if mark == 253 && 8 ≤ width then readLow 8
  else failure

/-- Lengths. -/
def length : Codec Nat := ⟨writeInteger, readInteger 8⟩

/-! ## Scalars -/

/-- A truth value as one byte, zero or one. -/
def bool : Codec Bool where
  write b := [if b then 1 else 0]
  read := do
    let b ← readByte
    if b == 0 then return false else if b == 1 then return true else failure

/-- The eight bytes of a number's bits, the lowest first. -/
def number : Codec Number where
  write x := lowBytes 8 x.bits.toNat
  read := do return ⟨UInt64.ofNat (← readLow 8)⟩

/-- A given count of bytes. -/
def readBytes (count : Nat) : ByteReader (List UInt8) := fun bytes =>
  if count ≤ bytes.length then some (bytes.take count, bytes.drop count) else none

/-- UTF-8 text after its length in bytes. -/
def string : Codec String where
  write s := writeInteger s.utf8ByteSize ++ s.toByteArray.data.toList
  read := do
    let count ← length.read
    let bytes ← readBytes count
    match String.fromUTF8? ⟨bytes.toArray⟩ with
    | some s => return s
    | none => failure

/-- A member of an enumeration, by its position. -/
def named [Named α] : Codec α where
  write a := writeInteger (Named.position a)
  read := do
    match Named.ofPosition? (← readInteger 4) with
    | some a => return a
    | none => failure

/-! ## Compounds -/

/-- One thing after the other. -/
def pair (a : Codec α) (b : Codec β) : Codec (α × β) where
  write p := a.write p.1 ++ b.write p.2
  read := do return (← a.read, ← b.read)

/-- A codec for a type whose things are made from those of another. -/
def map (c : Codec α) (make : α → β) (view : β → α) : Codec β where
  write b := c.write (view b)
  read := do return make (← c.read)

/-- A thing that may be missing. -/
def option (c : Codec α) : Codec (Option α) where
  write
    | none => bool.write false
    | some a => bool.write true ++ c.write a
  read := do if ← bool.read then return some (← c.read) else return none

/-- The given count of things. -/
def readCount (read : ByteReader α) : Nat → ByteReader (List α)
  | 0 => pure []
  | count + 1 => do return (← read) :: (← readCount read count)

/-- Things after their number. -/
def list (c : Codec α) : Codec (List α) where
  write xs := writeInteger xs.length ++ xs.flatMap c.write
  read := do readCount c.read (← length.read)

/-- The entries of a dictionary; of repeated keys the last stays. -/
def dict (c : Codec α) : Codec (Dict α) :=
  (list (pair string c)).map Dict.ofList Dict.entries

end Codec

end BehaviorTree
