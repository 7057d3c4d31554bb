import Behavioral.Proofs.Runs
import Behavioral.Token.Lexeme

/-!
# A numeral and what follows it

Reading a numeral looks past its end only to see that it does not go on: what is read of a text is
read of its own characters alone, and again of those with anything behind them that no numeral goes
on with (`scan_append`). All its characters are ASCII, so it has as many bytes as characters
(`narrow_scan`).
-/

namespace Behavioral.Numeral

variable {cs xs tail : List Char} {c : Char} {n : Nat}

/-! ### The stages of reading -/

/-- The power of ten that a text starts with, and how many characters it has. -/
def powerPart : List Char → Option (Bool × List Char) × Nat
  | c :: rest =>
    if c == 'e' || c == 'E' then
      (some ((scanPower rest).1, (scanPower rest).2.1),
        1 + (scanPower rest).2.2 + (scanPower rest).2.1.length)
    else (none, 0)
  | [] => (none, 0)

/-- What follows the whole digits of a text. -/
def afterWhole (cs : List Char) : List Char :=
  cs.drop (cs.takeWhile isAsciiDigit).length

/-- How many characters a numeral has in front of its power of ten. -/
def mantissaLength (cs : List Char) : Nat :=
  (cs.takeWhile isAsciiDigit).length + (scanFraction (afterWhole cs)).2 +
    (scanFraction (afterWhole cs)).1.length

/-- How many characters a numeral has in front of its letters. -/
def digitsLength (cs : List Char) : Nat :=
  mantissaLength cs + (powerPart (cs.drop (mantissaLength cs))).2

theorem scan_eq (cs : List Char) : scan cs =
    { whole := cs.takeWhile isAsciiDigit
      fraction := (scanFraction (afterWhole cs)).1
      power := (powerPart (cs.drop (mantissaLength cs))).1
      letters := (cs.drop (digitsLength cs)).takeWhile isAsciiLetter
      length := digitsLength cs + ((cs.drop (digitsLength cs)).takeWhile isAsciiLetter).length } :=
  rfl

/-! ### One byte a character -/

theorem narrow_fraction (cs : List Char) :
    Narrow ((scanFraction cs).2 + (scanFraction cs).1.length) cs := by
  unfold scanFraction
  split
  · next rest =>
    have := (Narrow.takeWhile (fun c => utf8Size_of_isAsciiDigit) rest).cons
      (c := '.') (by decide)
    rwa [Nat.add_comm] at this
  · exact Narrow.zero

theorem narrow_scanPower (cs : List Char) :
    Narrow ((scanPower cs).2.2 + (scanPower cs).2.1.length) cs := by
  have hdigits := Narrow.takeWhile fun c => utf8Size_of_isAsciiDigit
  unfold scanPower
  split
  · next rest =>
    have := (hdigits rest).cons (c := '-') (by decide)
    rwa [Nat.add_comm] at this
  · next rest =>
    have := (hdigits rest).cons (c := '+') (by decide)
    rwa [Nat.add_comm] at this
  · have := hdigits cs
    rwa [← Nat.zero_add (List.length _)] at this

theorem narrow_powerPart (cs : List Char) : Narrow (powerPart cs).2 cs := by
  unfold powerPart
  split
  · next c rest =>
    split
    · next he =>
      have hc : c.utf8Size = 1 := by
        rcases Bool.or_eq_true_iff.1 he with he | he <;> rw [eq_of_beq he] <;> rfl
      have := (narrow_scanPower rest).cons hc
      rwa [Nat.add_comm, ← Nat.add_assoc] at this
    · exact Narrow.zero
  · exact Narrow.zero

theorem narrow_mantissa (cs : List Char) : Narrow (mantissaLength cs) cs := by
  have := (Narrow.takeWhile (fun c => utf8Size_of_isAsciiDigit) cs).add
    (narrow_fraction (afterWhole cs))
  rwa [← Nat.add_assoc] at this

theorem narrow_digits (cs : List Char) : Narrow (digitsLength cs) cs :=
  (narrow_mantissa cs).add (narrow_powerPart _)

theorem narrow_scan (cs : List Char) : Narrow (scan cs).length cs := by
  rw [scan_eq]
  exact (narrow_digits cs).add (Narrow.takeWhile (fun c => utf8Size_of_isAsciiLetter) _)

/-! ### What follows -/

theorem afterWhole_append (h : Stops isAsciiDigit tail) :
    afterWhole (xs ++ tail) = afterWhole xs ++ tail := by
  rw [afterWhole, takeWhile_append_stops h,
    List.drop_append_of_le_length (List.takeWhile_prefix _).length_le, afterWhole]

theorem scanFraction_append (hdigit : Stops isAsciiDigit tail) (hpoint : Stops (· == '.') tail) :
    scanFraction (xs ++ tail) = scanFraction xs := by
  match xs with
  | [] =>
    match tail with
    | [] => rfl
    | c :: rest =>
      have hc : c ≠ '.' := by simpa using hpoint c rfl
      rw [List.nil_append]
      unfold scanFraction
      split
      · next h => exact absurd (List.cons.inj h).1 hc
      · rfl
  | c :: rest =>
    by_cases hc : c = '.'
    · subst hc
      rw [List.cons_append, scanFraction, takeWhile_append_stops hdigit, scanFraction]
    · simp only [scanFraction, List.cons_append]
      split
      · next h => exact absurd (List.cons.inj h).1 hc
      · split
        · next h => exact absurd (List.cons.inj h).1 hc
        · rfl

theorem mantissaLength_append (hdigit : Stops isAsciiDigit tail) (hpoint : Stops (· == '.') tail) :
    mantissaLength (xs ++ tail) = mantissaLength xs := by
  rw [mantissaLength, takeWhile_append_stops hdigit, afterWhole_append hdigit,
    scanFraction_append hdigit hpoint, mantissaLength]

theorem scanPower_of_not_sign (h : Stops isSign cs) :
    scanPower cs = (false, cs.takeWhile isAsciiDigit, 0) := by
  unfold scanPower
  split
  · exact absurd (h '-' rfl) (by decide)
  · exact absurd (h '+' rfl) (by decide)
  · rfl

theorem scanPower_append (hdigit : Stops isAsciiDigit tail) (h : xs = [] → Stops isSign tail) :
    scanPower (xs ++ tail) = scanPower xs := by
  match xs with
  | [] =>
    rw [List.nil_append, scanPower_of_not_sign (h rfl), ← List.nil_append tail,
      takeWhile_append_stops hdigit]
    rfl
  | c :: rest =>
    by_cases hc : isSign c = true
    · rcases Bool.or_eq_true_iff.1 hc with hc | hc
      all_goals
        obtain rfl := eq_of_beq hc
        rw [List.cons_append, scanPower, takeWhile_append_stops hdigit, scanPower]
    · have hstops (ys : List Char) : Stops isSign (c :: ys) := fun d hd => by
        obtain rfl : c = d := by simpa using hd
        simpa using hc
      rw [List.cons_append, scanPower_of_not_sign (hstops _), scanPower_of_not_sign (hstops _),
        ← List.cons_append, takeWhile_append_stops hdigit]

/-- The sign behind an `e` belongs to the power of ten, also where the `e` ends what was read. -/
theorem powerPart_append (hdigit : Stops isAsciiDigit tail) (hletter : Stops isAsciiLetter tail)
    (hsign : ∀ c, xs = [c] → (c == 'e' || c == 'E') = true → Stops isSign tail) :
    powerPart (xs ++ tail) = powerPart xs := by
  match xs with
  | [] =>
    match tail with
    | [] => rfl
    | c :: rest =>
      have hc : ¬ (c == 'e' || c == 'E') = true := by
        intro he
        have := hletter c rfl
        rcases Bool.or_eq_true_iff.1 he with he | he <;> rw [eq_of_beq he] at this <;> cases this
      rw [List.nil_append, powerPart, if_neg hc, powerPart]
  | c :: rest =>
    by_cases hc : (c == 'e' || c == 'E') = true
    · have hpower : scanPower (rest ++ tail) = scanPower rest :=
        scanPower_append hdigit fun hrest => hsign c (by rw [hrest]) hc
      rw [List.cons_append, powerPart, if_pos hc, hpower, powerPart, if_pos hc]
    · rw [List.cons_append, powerPart, if_neg hc, powerPart, if_neg hc]

/-- A text's numeral is that of its start, if the rest starts with no digit, letter or point, and
with no sign if the start ends in an `e` behind the digits. -/
theorem scan_append_of_sign (h : Stops continuesNumeral tail)
    (hsign : ∀ c, xs.drop (mantissaLength xs) = [c] → (c == 'e' || c == 'E') = true →
      Stops isSign tail) : scan (xs ++ tail) = scan xs := by
  have hdigit := h.digit
  have hpoint := h.point
  have hmantissa : mantissaLength (xs ++ tail) = mantissaLength xs :=
    mantissaLength_append hdigit hpoint
  have hdrop : (xs ++ tail).drop (mantissaLength xs) = xs.drop (mantissaLength xs) ++ tail :=
    List.drop_append_of_le_length (narrow_mantissa xs).1
  have hpower : powerPart (xs.drop (mantissaLength xs) ++ tail) =
      powerPart (xs.drop (mantissaLength xs)) := powerPart_append hdigit h.letter hsign
  have hdigits : digitsLength (xs ++ tail) = digitsLength xs := by
    rw [digitsLength, hmantissa, hdrop, hpower, digitsLength]
  rw [scan_eq, scan_eq, hdigits, hmantissa, hdrop, hpower, takeWhile_append_stops hdigit,
    afterWhole_append hdigit, scanFraction_append hdigit hpoint,
    List.drop_append_of_le_length (narrow_digits xs).1, takeWhile_append_stops h.letter]

/-- No sign follows, or the numeral ends before it. -/
theorem scan_append (h : Stops continuesNumeral tail)
    (hsign : Stops isSign tail ∨ (scan (xs ++ tail)).length ≤ xs.length) :
    scan (xs ++ tail) = scan xs := by
  refine scan_append_of_sign h fun c hc he => hsign.elim id fun hlength => ?_
  -- a sign after an `e` that ends what was read would make the power longer than that
  have hle := (narrow_mantissa xs).1
  have hone : xs.length - mantissaLength xs = 1 := by
    rw [← List.length_drop, hc, List.length_singleton]
  rw [scan_eq] at hlength
  simp only [digitsLength, mantissaLength_append h.digit h.point,
    List.drop_append_of_le_length hle, hc, List.cons_append, List.nil_append, powerPart,
    if_pos he] at hlength
  have hnone : (scanPower tail).2.2 = 0 := by omega
  intro d hd
  by_contra hsigned
  rw [Bool.not_eq_false, isSign, Bool.or_eq_true] at hsigned
  match tail, hd with
  | _ :: rest, rfl =>
    rcases hsigned with hd | hd <;> rw [eq_of_beq hd] at hnone <;> cases hnone

/-- A numeral whose power of ten has its digits does not go on with a sign. -/
theorem scan_append_of_power (h : Stops continuesNumeral tail)
    (hpower : (scan xs).powerMissing = false) : scan (xs ++ tail) = scan xs := by
  refine scan_append_of_sign h fun c hc he => ?_
  rw [scan_eq] at hpower
  simp only [powerMissing, hc, powerPart, if_pos he] at hpower
  cases hpower

/-- The letters of a numeral are all that follow its digits. -/
theorem stops_drop_scan (cs : List Char) : Stops isAsciiLetter (cs.drop (scan cs).length) := by
  rw [scan_eq, ← List.drop_drop, drop_length_takeWhile]
  exact stops_dropWhile _ _

theorem stops_numeral (h : Stops (fun d => isAsciiDigit d || d == '.') (cs.drop (scan cs).length)) :
    Stops continuesNumeral (cs.drop (scan cs).length) := fun d hd => by
  have hnot := Bool.or_eq_false_iff.1 (h d hd)
  rw [continuesNumeral, hnot.1, hnot.2, stops_drop_scan cs d hd]
  rfl

/-- The characters of a numeral alone are read as the same numeral. -/
theorem scan_take (h : Stops continuesNumeral (cs.drop (scan cs).length)) :
    scan (cs.take (scan cs).length) = scan cs := by
  have hsplit := List.take_append_drop (scan cs).length cs
  have hlength := List.length_take_of_le (narrow_scan cs).1
  have happend := scan_append h (.inr (by rw [hsplit, hlength]))
  rw [← happend, hsplit]

end Behavioral.Numeral
