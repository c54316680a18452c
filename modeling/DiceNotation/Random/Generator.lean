import DiceNotation.Random.Xoshiro

/-!
# Generators

A generator is chosen by how it starts: from a seed, from the bytes of its state, or from a list of words to repeat.
-/

namespace DiceNotation

inductive Generator where
  | xoshiro (state : Xoshiro)
  | words (cycle : Cycle)

namespace Generator

def ofSeed (seed : UInt64) : Generator :=
  .xoshiro (Xoshiro.ofSeed seed)

def ofBytes (bytes : List UInt8) : Generator :=
  .xoshiro (Xoshiro.ofBytes bytes)

def ofWords (words : List UInt64) : Generator :=
  .words (Cycle.ofList words)

def next : Generator → UInt64 × Generator
  | .xoshiro g =>
    let (w, g) := WordSource.next g
    (w, .xoshiro g)
  | .words c =>
    let (w, c) := WordSource.next c
    (w, .words c)

instance : WordSource Generator where
  next := next
  period
    | .xoshiro g => WordSource.period g
    | .words c => WordSource.period c

end Generator

end DiceNotation
