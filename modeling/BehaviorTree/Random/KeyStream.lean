/-!
# The key stream of random numbers

A stream cipher of twelve rounds turns a key of eight words and the number of a block into sixteen
words. The state is a square of four rows; a round works on whole rows, and every other round on
the rows shifted so that the columns become diagonals.
-/

namespace BehaviorTree.Random

structure Row where
  w0 : UInt32
  w1 : UInt32
  w2 : UInt32
  w3 : UInt32
deriving DecidableEq

namespace Row

def zipWith (f : UInt32 → UInt32 → UInt32) (r s : Row) : Row :=
  ⟨f r.w0 s.w0, f r.w1 s.w1, f r.w2 s.w2, f r.w3 s.w3⟩

def map (f : UInt32 → UInt32) (r : Row) : Row := ⟨f r.w0, f r.w1, f r.w2, f r.w3⟩

/-- The row one place to the left, with the first word at the end. -/
def shift (r : Row) : Row := ⟨r.w1, r.w2, r.w3, r.w0⟩

def toList (r : Row) : List UInt32 := [r.w0, r.w1, r.w2, r.w3]

end Row

/-- Rotates the bits of a word to the left. -/
def rotateLeft (w : UInt32) (bits : Nat) : UInt32 :=
  (w <<< UInt32.ofNat bits) ||| (w >>> UInt32.ofNat (32 - bits))

structure Square where
  a : Row
  b : Row
  c : Row
  d : Row
deriving DecidableEq

namespace Square

def add (r s : Row) : Row := r.zipWith (· + ·) s

/-- The rows `r` and `s` mixed and rotated. -/
def mix (r s : Row) (bits : Nat) : Row := (r.zipWith (· ^^^ ·) s).map (rotateLeft · bits)

/-- One round on the columns. -/
def round (s : Square) : Square :=
  let a := add s.a s.b
  let d := mix s.d a 16
  let c := add s.c d
  let b := mix s.b c 12
  let a := add a b
  let d := mix d a 8
  let c := add c d
  let b := mix b c 7
  ⟨a, b, c, d⟩

/-- One round on the columns and one on the diagonals. -/
def doubleRound (s : Square) : Square :=
  let s := s.round
  let s := (⟨s.a, s.b.shift, s.c.shift.shift, s.d.shift.shift.shift⟩ : Square).round
  ⟨s.a, s.b.shift.shift.shift, s.c.shift.shift, s.d.shift⟩

def rounds : Nat → Square → Square
  | 0, s => s
  | n + 1, s => rounds n s.doubleRound

def sum (s t : Square) : Square := ⟨add s.a t.a, add s.b t.b, add s.c t.c, add s.d t.d⟩

def toList (s : Square) : List UInt32 := s.a.toList ++ s.b.toList ++ s.c.toList ++ s.d.toList

end Square

/-- A key of eight words. -/
structure Key where
  low : Row
  high : Row
deriving DecidableEq

/-- The sixteen words of a block. -/
def block (key : Key) (number : UInt64) : List UInt32 :=
  let start : Square :=
    ⟨⟨0x61707865, 0x3320646e, 0x79622d32, 0x6b206574⟩, key.low, key.high,
      ⟨number.toUInt32, (number >>> 32).toUInt32, 0, 0⟩⟩
  ((start.rounds 6).sum start).toList

/-- One step of the generator that stretches a seed to a key: the next state and a word. -/
def stretchStep (state : UInt64) : UInt64 × UInt32 :=
  let state := state * 6364136223846793005 + 11634580027462260723
  let word := (((state >>> 18) ^^^ state) >>> 27).toUInt32
  let turn := 32 - (state >>> 59).toNat
  (state, rotateLeft word (turn % 32))

/-- Four words of a key. -/
def stretchRow (state : UInt64) : UInt64 × Row :=
  let (s0, w0) := stretchStep state
  let (s1, w1) := stretchStep s0
  let (s2, w2) := stretchStep s1
  let (s3, w3) := stretchStep s2
  (s3, ⟨w0, w1, w2, w3⟩)

/-- The key of a seed. -/
def Key.ofSeed (seed : UInt64) : Key :=
  let (state, low) := stretchRow seed
  ⟨low, (stretchRow state).2⟩

end BehaviorTree.Random
