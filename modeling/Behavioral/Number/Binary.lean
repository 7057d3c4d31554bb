/-!
# The number a double stands for

A double is a sign, an eleven-bit exponent field and a fifty-two-bit fraction. Read as a number it
is `± significand · 2 ^ exponent`, with the significand a natural number below `2 ^ 53`; the largest
exponent field holds the infinities and the not-a-numbers, the smallest holds zero and the
subnormals, which have no hidden bit.
-/

namespace Behavioral

inductive Binary where
  | nan
  | infinite (negative : Bool)
  | finite (negative : Bool) (significand : Nat) (exponent : Int)
deriving DecidableEq, Repr

namespace Binary

def ofBits (bits : Nat) : Binary :=
  let negative := bits / Nat.pow 2 63 % 2 == 1
  let field : Nat := bits / Nat.pow 2 52 % Nat.pow 2 11
  let fraction : Nat := bits % Nat.pow 2 52
  if field = 2047 then
    if fraction = 0 then .infinite negative else .nan
  else if field = 0 then
    .finite negative fraction (-1074)
  else
    .finite negative (Nat.pow 2 52 + fraction) ((field : Int) - 1075)

def ofFloat (x : Float) : Binary :=
  ofBits x.toBits.toNat

/-- `significand · 2 ^ exponent` as a quotient of natural numbers. -/
def quotient (significand : Nat) (exponent : Int) : Nat × Nat :=
  if 0 ≤ exponent then
    (significand * Nat.pow 2 exponent.toNat, 1)
  else
    (significand, Nat.pow 2 (-exponent).toNat)

end Binary

/-- How many digits `n` has in base ten; zero has one. -/
def decimalLength (n : Nat) : Nat :=
  (Nat.toDigits 10 n).length

/-- The power of ten that `num / den` reaches but does not pass the next of, for a positive
quotient. -/
def decimalOrder (num den : Nat) : Int :=
  if den ≤ num then
    (decimalLength (num / den) : Int) - 1
  else
    -(decimalLength ((den + num - 1) / num - 1) : Int)

/-- `num / den` in units of `10 ^ place`, as a quotient again. -/
def inUnits (num den : Nat) (place : Int) : Nat × Nat :=
  if 0 ≤ place then
    (num, den * Nat.pow 10 place.toNat)
  else
    (num * Nat.pow 10 (-place).toNat, den)

end Behavioral
