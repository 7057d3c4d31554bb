/-!
# Approximate equality

Two doubles are close when they are equal, when they differ by at most `2 ^ -52`, or when at most
four steps from one double to the next separate them. Steps are counted on the bit patterns put in
the order of the numbers, so a not-a-number is close to itself and infinity is one step past the
largest finite double.
-/

namespace Behavioral

/-- Places the bit patterns in the order of the numbers they stand for. -/
def ordered (x : Float) : UInt64 :=
  let bits := x.toBits
  if bits >>> 63 = 1 then ~~~bits else bits ^^^ ((1 : UInt64) <<< 63)

/-- How many doubles lie from one to the other, read as a signed word. -/
def stepsApart (x y : Float) : Nat :=
  (ordered x - ordered y).toInt64.toInt.natAbs

def close (x y : Float) : Bool :=
  x == y || (x - y).abs ≤ 2.220446049250313e-16 || stepsApart x y ≤ 4

end Behavioral
