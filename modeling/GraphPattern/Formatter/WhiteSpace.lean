/-!
The characters with the Unicode property `White_Space`. The language itself knows
five ASCII blanks only; this wider class is for texts that come from outside it.
-/

namespace GraphPattern.Formatter

/-- The ranges of the property, both ends included. -/
def whiteSpaceRanges : List (Nat × Nat) :=
  [(0x9, 0xD), (0x20, 0x20), (0x85, 0x85), (0xA0, 0xA0), (0x1680, 0x1680), (0x2000, 0x200A),
    (0x2028, 0x2029), (0x202F, 0x202F), (0x205F, 0x205F), (0x3000, 0x3000)]

def isWhiteSpace (c : Char) : Bool :=
  whiteSpaceRanges.any fun (first, last) => first ≤ c.toNat && c.toNat ≤ last

end GraphPattern.Formatter
