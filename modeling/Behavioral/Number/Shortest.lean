import Behavioral.Number.Binary

/-!
# The fewest digits that read back

Every decimal in a double's rounding interval reads back as that double. The interval reaches half
way to each neighbour, and holds its ends when the significand is even; below a power of two the
lower neighbour is half as far. On the grids of one, two, … seventeen digits the value's own two
neighbours are tried in turn, since a grid that meets the interval at all meets it at one of them.
The first grid with a hit wins, of two hits the nearer, and of two equally near ones the even.
-/

namespace Behavioral

/-- `digits · 10 ^ place`. -/
structure Decimal where
  digits : Nat
  place : Int
deriving DecidableEq, Repr

namespace Decimal

/-- The same number without zeros at the end of its digits; `fuel` bounds how many are dropped. -/
def trim : Nat → Decimal → Decimal
  | 0, d => d
  | fuel + 1, d =>
    if d.digits ≠ 0 ∧ d.digits % 10 = 0 then trim fuel ⟨d.digits / 10, d.place + 1⟩ else d

end Decimal

namespace Shortest

/-- The reals that round to `significand · 2 ^ exponent`, in quarters of `2 ^ exponent`. -/
structure Interval where
  low : Nat
  high : Nat
  closed : Bool

def interval (significand : Nat) (exponent : Int) : Interval where
  low := if significand = Nat.pow 2 52 ∧ exponent ≠ -1074 then 4 * significand - 1
    else 4 * significand - 2
  high := 4 * significand + 2
  closed := significand % 2 == 0

/-- Whether `candidate`, in units in which a quarter of the last binary place is `num / den`, lies
in the interval. -/
def Interval.holds (i : Interval) (num den candidate : Nat) : Bool :=
  let scaled := candidate * den
  if i.closed then
    decide (i.low * num ≤ scaled) && decide (scaled ≤ i.high * num)
  else
    decide (i.low * num < scaled) && decide (scaled < i.high * num)

/-- The better of the value's two neighbours on the grid of multiples of `10 ^ place`. -/
def onGrid (significand : Nat) (exponent : Int) (place : Int) : Option Nat :=
  let (num, den) := Binary.quotient 1 exponent
  let (num, den) := inUnits num (4 * den) place
  let i := interval significand exponent
  let value := 4 * significand * num
  let below := value / den
  let above := below + 1
  match i.holds num den below, i.holds num den above with
  | true, true =>
    let down := value - below * den
    let up := above * den - value
    if down < up then some below
    else if up < down then some above
    else some (if below % 2 = 0 then below else above)
  | true, false => some below
  | false, true => some above
  | false, false => none

/-- Tries grids of `count`, `count + 1`, … digits, at most `fuel` of them. -/
def search (significand : Nat) (exponent order : Int) : Nat → Nat → Decimal
  | 0, count => ⟨0, count⟩
  | fuel + 1, count =>
    let place := order - count + 1
    match onGrid significand exponent place with
    | some digits => ⟨digits, place⟩
    | none => search significand exponent order fuel (count + 1)

end Shortest

/-- The decimal of fewest digits that reads back as `significand · 2 ^ exponent`, the nearest of
those. -/
def Decimal.shortest (significand : Nat) (exponent : Int) : Decimal :=
  if significand = 0 then ⟨0, 0⟩
  else
    let (num, den) := Binary.quotient significand exponent
    (Shortest.search significand exponent (decimalOrder num den) 17 1).trim 400

end Behavioral
