import Behavioral.Text.StartRanges
import Behavioral.Text.ContinueRanges
import Behavioral.Text.Letters

/-!
# Identifier characters

A name starts with a letter in the sense of Unicode or with one of `_ . @ #`, and goes on with
letters, digits, marks and the same four. The ASCII part is decided without the tables.
-/

namespace Behavioral

def inRanges (ranges : List (Nat × Nat)) (c : Char) : Bool :=
  ranges.any fun r => r.1 ≤ c.toNat && c.toNat ≤ r.2

/-- The Unicode property `XID_Start`. -/
def startsIdentifier (c : Char) : Bool :=
  if c.toNat < 128 then isAsciiLetter c else inRanges startRanges c

/-- The Unicode property `XID_Continue`. -/
def continuesIdentifier (c : Char) : Bool :=
  if c.toNat < 128 then isAsciiLetter c || isAsciiDigit c || c == '_'
  else inRanges startRanges c || inRanges continueRanges c

def startsName (c : Char) : Bool :=
  startsIdentifier c || c == '_' || c == '.' || c == '@' || c == '#'

def continuesName (c : Char) : Bool :=
  continuesIdentifier c || c == '.' || c == '@' || c == '#'

theorem continuesIdentifier_of_startsIdentifier {c : Char} (h : startsIdentifier c = true) :
    continuesIdentifier c = true := by
  unfold startsIdentifier at h
  unfold continuesIdentifier
  split <;> simp_all

theorem continuesName_of_startsName {c : Char} (h : startsName c = true) :
    continuesName c = true := by
  simp only [startsName, Bool.or_eq_true, beq_iff_eq] at h
  simp only [continuesName, Bool.or_eq_true, beq_iff_eq]
  rcases h with (((h | rfl) | rfl) | rfl) | rfl
  · exact .inl (.inl (.inl (continuesIdentifier_of_startsIdentifier h)))
  all_goals decide

end Behavioral
