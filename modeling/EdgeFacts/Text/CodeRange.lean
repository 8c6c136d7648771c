/-
# Sets of characters as ranges of code points

A character class of the Unicode standard is given as a table of closed ranges
of code points. `inRanges` is membership in such a table.

Key definitions: `inRanges`.
-/

namespace EdgeFacts.Text

/-- Whether the code point of `c` lies in one of the closed ranges. -/
def inRanges (table : List (Nat × Nat)) (c : Char) : Bool :=
  table.any fun r => r.1 ≤ c.toNat && c.toNat ≤ r.2

end EdgeFacts.Text
