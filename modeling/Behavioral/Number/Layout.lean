import Behavioral.Number.Shortest

/-!
# Writing a number as text

A finite number is written with the fewest digits that read back. Where its decimal point falls
decides the form: with the point at or before the digits' end it stands among them, with a few
zeros in front of the first digit these are written out, and otherwise the number is in scientific
form with a signed exponent. A number with no fractional digits gets `.0`.
-/

namespace Behavioral

/-- How far the point may lie from the first digit for the number to be written positionally. -/
structure NumberLayout where
  /-- Most digits in front of the point. -/
  wholeDigits : Nat
  /-- Most zeros between the point and the first digit. -/
  leadingZeros : Nat
  /-- What stands for a number that is not finite. -/
  notFinite : String

namespace NumberLayout

def zeros (n : Nat) : String :=
  String.ofList (List.replicate n '0')

/-- A point after the first digit of at least two. -/
def pointed (digits : List Char) : String :=
  match digits with
  | [] => ""
  | [d] => String.ofList [d]
  | d :: rest => String.ofList (d :: '.' :: rest)

/-- The digits and the power of ten of the place in front of the first, written out. -/
def digitsText (layout : NumberLayout) (digits : List Char) (point : Int) : String :=
  let count : Int := digits.length
  if count ≤ point ∧ point ≤ layout.wholeDigits then
    String.ofList digits ++ zeros (point - count).toNat ++ ".0"
  else if 0 < point ∧ point ≤ layout.wholeDigits then
    String.ofList (digits.take point.toNat) ++ "." ++ String.ofList (digits.drop point.toNat)
  else if -(layout.leadingZeros : Int) ≤ point ∧ point ≤ 0 then
    "0." ++ zeros (-point).toNat ++ String.ofList digits
  else
    let exponent := point - 1
    let sign := if exponent < 0 then "-" else "+"
    pointed digits ++ "e" ++ sign ++ toString exponent.natAbs

def text (layout : NumberLayout) (x : Float) : String :=
  match Binary.ofFloat x with
  | .nan => layout.notFinite
  | .infinite _ => layout.notFinite
  | .finite negative significand exponent =>
    let sign := if negative then "-" else ""
    if significand = 0 then sign ++ "0.0"
    else
      let d := Decimal.shortest significand exponent
      let digits := Nat.toDigits 10 d.digits
      sign ++ layout.digitsText digits (digits.length + d.place)

end NumberLayout

end Behavioral
