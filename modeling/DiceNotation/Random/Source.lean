/-!
# Sources of random words

A source gives one 64-bit word after another. `Cycle` repeats a given list of words; `Metered` counts the words that are
taken from another source.
-/

namespace DiceNotation

class WordSource (γ : Type) where
  next : γ → UInt64 × γ
  /-- How many words a die takes at most: after so many words the source repeats itself. -/
  period : γ → Nat

/-! ## A repeated list -/

/-- `rest` is what is left of this round through `all`. -/
structure Cycle where
  all : List UInt64
  rest : List UInt64

namespace Cycle

def ofList (words : List UInt64) : Cycle :=
  ⟨words, words⟩

/-- The next word; an empty list gives zeros. -/
def next (c : Cycle) : UInt64 × Cycle :=
  match c.rest, c.all with
  | w :: ws, all => (w, ⟨all, ws⟩)
  | [], w :: ws => (w, ⟨w :: ws, ws⟩)
  | [], [] => (0, c)

instance : WordSource Cycle where
  next := next
  period c := c.all.length

end Cycle

/-! ## Counting -/

structure Metered (γ : Type) where
  source : γ
  drawn : Nat := 0

instance {γ : Type} [WordSource γ] : WordSource (Metered γ) where
  next m :=
    let (w, source) := WordSource.next m.source
    (w, ⟨source, m.drawn + 1⟩)
  period m := WordSource.period m.source

end DiceNotation
