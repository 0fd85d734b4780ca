/-!
# Ranges of code points

A property of characters is given as an ascending list of ranges of code points,
both ends included.  A look-up stops at the first range that begins beyond the
character.
-/

namespace CallTargets

namespace Text

/-- Whether a number lies in one of some ascending ranges. -/
def inRanges : List (Nat × Nat) → Nat → Bool
  | [], _ => false
  | (lo, hi) :: rest, n => if n < lo then false else n ≤ hi || inRanges rest n

end Text

end CallTargets
