/-!
# ASCII letters and digits

Names, mnemonics and suffixes are compared without regard to the case of ASCII letters; other
letters keep their case.
-/

namespace Behavioral

def isAsciiDigit (c : Char) : Bool :=
  '0' ≤ c && c ≤ '9'

def isAsciiLetter (c : Char) : Bool :=
  ('a' ≤ c && c ≤ 'z') || ('A' ≤ c && c ≤ 'Z')

/-- The capital of an ASCII letter, and any other character itself. -/
def capital (c : Char) : Char :=
  if 'a' ≤ c && c ≤ 'z' then Char.ofNat (c.toNat - 32) else c

def capitals (s : String) : String :=
  String.ofList (s.toList.map capital)

/-- Equality up to the case of ASCII letters. -/
def sameLetters (s t : String) : Bool :=
  capitals s == capitals t

end Behavioral
