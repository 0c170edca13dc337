/-!
# Sets of characters as ranges

A character property is given by the list of the code point ranges that have
it. Membership scans the list, so that a closed instance is decided by
computation.
-/

namespace Whittle.Text

/-- Closed ranges of code points. -/
abbrev Ranges := List (Nat × Nat)

/-- Whether a character lies in one of the ranges. -/
def Ranges.has (rs : Ranges) (c : Char) : Bool :=
  rs.any fun r => r.1 ≤ c.toNat && c.toNat ≤ r.2

end Whittle.Text
