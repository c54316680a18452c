import DiceNotation.Random.Source

/-!
# xoshiro256++

A generator with 256 bits of state, which are mixed by shifts, rotations and exclusive or. `ofSeed` fills the state from
a 64-bit seed with SplitMix64, `ofBytes` reads it from 32 bytes. The state that is all zero would stay so and is
replaced by the one of seed 0.
-/

namespace DiceNotation

/-! ## SplitMix64 -/

/-- One output of SplitMix64 and its next state. -/
def splitMix (x : UInt64) : UInt64 × UInt64 :=
  let x := x + 0x9e3779b97f4a7c15
  let z := (x ^^^ (x >>> 30)) * 0xbf58476d1ce4e5b9
  let z := (z ^^^ (z >>> 27)) * 0x94d049bb133111eb
  (z ^^^ (z >>> 31), x)

/-! ## The generator -/

structure Xoshiro where
  s0 : UInt64
  s1 : UInt64
  s2 : UInt64
  s3 : UInt64
  deriving DecidableEq

namespace Xoshiro

def rotateLeft (x n : UInt64) : UInt64 :=
  (x <<< n) ||| (x >>> (64 - n))

def next (g : Xoshiro) : UInt64 × Xoshiro :=
  let s2 := g.s2 ^^^ g.s0
  let s3 := g.s3 ^^^ g.s1
  (rotateLeft (g.s0 + g.s3) 23 + g.s0, ⟨g.s0 ^^^ s3, g.s1 ^^^ s2, s2 ^^^ (g.s1 <<< 17), rotateLeft s3 45⟩)

instance : WordSource Xoshiro where
  next := next
  period _ := Nat.pow 2 256 - 1

/-- Four successive outputs of SplitMix64 started at the seed. -/
def ofSeed (seed : UInt64) : Xoshiro :=
  let (s0, x) := splitMix seed
  let (s1, x) := splitMix x
  let (s2, x) := splitMix x
  let (s3, _) := splitMix x
  ⟨s0, s1, s2, s3⟩

/-- A word from its bytes, least significant first. -/
def wordOfBytes (bytes : List UInt8) : UInt64 :=
  bytes.foldr (fun b w => (w <<< 8) ||| b.toUInt64) 0

/-- Four words of eight bytes each. -/
def ofBytes (bytes : List UInt8) : Xoshiro :=
  let word (i : Nat) := wordOfBytes ((bytes.drop (8 * i)).take 8)
  let g : Xoshiro := ⟨word 0, word 1, word 2, word 3⟩
  if g = ⟨0, 0, 0, 0⟩ then ofSeed 0 else g

/-- The eight bytes of a word, least significant first. -/
def bytesOfWord (w : UInt64) : List UInt8 :=
  (List.range 8).map fun i => (w >>> (8 * i).toUInt64).toUInt8

/-- The bytes from which `ofBytes` makes this state, unless it is all zero. -/
def toBytes (g : Xoshiro) : List UInt8 :=
  [g.s0, g.s1, g.s2, g.s3].flatMap bytesOfWord

end Xoshiro

end DiceNotation
