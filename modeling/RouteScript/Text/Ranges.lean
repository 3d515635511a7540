/-!
# Ranges of characters

A class of characters as the ranges of its code points, both ends included, in ascending order.
-/

namespace RouteScript

/-- Ranges of code points. -/
abbrev Ranges := List (Nat × Nat)

namespace Ranges

/-- One of the ranges holds the code point. -/
def holds : Ranges → Nat → Bool
  | [], _ => false
  | (low, high) :: ranges, n => low ≤ n && (n ≤ high || holds ranges n)

end Ranges

end RouteScript
