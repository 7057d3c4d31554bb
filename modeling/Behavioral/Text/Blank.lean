/-!
# Blanks

The characters of the Unicode property `White_Space`. They separate tokens and words, and are
trimmed from the ends of a line.
-/

namespace Behavioral

def isBlank (c : Char) : Bool :=
  let n := c.toNat
  (9 ≤ n && n ≤ 13) || n == 0x20 || n == 0x85 || n == 0xa0 || n == 0x1680 ||
    (0x2000 ≤ n && n ≤ 0x200a) || n == 0x2028 || n == 0x2029 || n == 0x202f || n == 0x205f ||
    n == 0x3000

/-- Without the blanks at either end. -/
def trimBlanks (cs : List Char) : List Char :=
  ((cs.dropWhile isBlank).reverse.dropWhile isBlank).reverse

/-- The maximal runs of characters that are not separators, in order. -/
def splitWords (separator : Char → Bool) : List Char → List (List Char)
  | [] => []
  | c :: rest =>
    if separator c then splitWords separator rest
    else
      match rest, splitWords separator rest with
      | d :: _, w :: ws => if separator d then [c] :: w :: ws else (c :: w) :: ws
      | _, ws => [c] :: ws

end Behavioral
