/-!
# A place in a text

A cursor is the text still to be read and the byte offset at which it starts. Reading moves it
forward only.
-/

namespace Behavioral

structure Cursor where
  offset : Nat
  rest : List Char

namespace Cursor

/-- How many bytes the characters take. -/
def bytes (cs : List Char) : Nat :=
  (cs.map Char.utf8Size).foldr (· + ·) 0

def ofString (s : String) : Cursor :=
  ⟨0, s.toList⟩

/-- Past the next `n` characters. -/
def advance (c : Cursor) (n : Nat) : Cursor :=
  ⟨c.offset + bytes (c.rest.take n), c.rest.drop n⟩

/-- Past the maximal run of characters that satisfy `p`, which is returned. -/
def takeRun (p : Char → Bool) (c : Cursor) : List Char × Cursor :=
  (c.rest.takeWhile p, ⟨c.offset + bytes (c.rest.takeWhile p), c.rest.dropWhile p⟩)

def skipRun (p : Char → Bool) (c : Cursor) : Cursor :=
  (c.takeRun p).2

theorem rest_advance (c : Cursor) (n : Nat) : (c.advance n).rest = c.rest.drop n := rfl

theorem length_rest_skipRun_le (p : Char → Bool) (c : Cursor) :
    (c.skipRun p).rest.length ≤ c.rest.length :=
  (List.dropWhile_sublist p).length_le

theorem length_rest_takeRun_le (p : Char → Bool) (c : Cursor) :
    (c.takeRun p).2.rest.length ≤ c.rest.length :=
  (List.dropWhile_sublist p).length_le

theorem length_rest_advance_le (c : Cursor) (n : Nat) :
    (c.advance n).rest.length ≤ c.rest.length := by
  simp [advance]

/-- A run that starts is not empty. -/
theorem length_rest_takeRun_lt {p : Char → Bool} {c : Cursor} {d : Char} {ds : List Char}
    (h : c.rest = d :: ds) (hd : p d = true) :
    (c.takeRun p).2.rest.length < c.rest.length := by
  simp only [takeRun, h, List.dropWhile_cons, hd, ↓reduceIte, List.length_cons]
  exact Nat.lt_succ_of_le (List.dropWhile_sublist p).length_le

end Cursor

end Behavioral
