import Ephp.Text.Basic

/-!
# Ranges of code points

A character property is given by the ranges of code points that have it, in ascending order.
-/

namespace Ephp
namespace Text

/-- Whether a code point lies in one of the ranges, whose two ends belong to them. -/
def inRanges (ranges : List (Nat × Nat)) (code : Nat) : Bool :=
  ranges.any fun (low, high) => low ≤ code && code ≤ high

end Text
end Ephp
