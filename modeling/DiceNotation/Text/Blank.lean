/-!
# Blank characters

The characters with the Unicode property White_Space. `isBlank` separates words, and a line that holds nothing else
counts as empty.
-/

namespace DiceNotation.Text

/-- The code points of White_Space as inclusive ranges, in ascending order. -/
def blankRanges : List (Nat × Nat) :=
  [(0x09, 0x0d), (0x20, 0x20), (0x85, 0x85), (0xa0, 0xa0), (0x1680, 0x1680), (0x2000, 0x200a), (0x2028, 0x2029),
    (0x202f, 0x202f), (0x205f, 0x205f), (0x3000, 0x3000)]

def isBlank (c : Char) : Bool :=
  blankRanges.any fun (lo, hi) => lo ≤ c.toNat && c.toNat ≤ hi

/-- White_Space has 25 members. -/
example : (blankRanges.flatMap fun (lo, hi) => List.range' lo (hi + 1 - lo)).length = 25 := rfl

end DiceNotation.Text
