import Behavioral.Number.Shortest

/-!
# The double nearest to a decimal

`Decimal.toFloat` rounds `digits · 10 ^ place` to the nearest double. Far beyond the largest double
the answer is infinity and far below the smallest it is zero, whatever the digits are, so a decimal
with an enormous power of ten is never expanded.
-/

namespace Behavioral

/-- The number that a list of decimal digits spells; other characters count as zero. -/
def digitsValue (digits : List Char) : Nat :=
  digits.foldl (fun n c => 10 * n + (if c.isDigit then c.toNat - '0'.toNat else 0)) 0

namespace Decimal

def toFloat (d : Decimal) : Float :=
  let order := (decimalLength d.digits : Int) + d.place
  if d.digits = 0 ∨ order < -330 then 0
  else if 310 < order then 1 / 0
  else Float.ofScientific d.digits (decide (d.place < 0)) d.place.natAbs

end Decimal

end Behavioral
