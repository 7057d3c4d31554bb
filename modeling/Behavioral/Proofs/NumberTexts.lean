import Behavioral.Number.Layout
import Behavioral.Proofs.Doubles
import Behavioral.Proofs.Numerals
import Behavioral.Proofs.Rounding

/-!
# The texts of numbers

A double is told by its sign, significand and exponent (`Double.ofFloat_injective`). In every layout
the digits of a decimal are written in one of two forms (`NumberLayout.writes_digitsText`), and what
is written is read as the same number again (`Numeral.Writes.value_scan`). So the texts of two
finite doubles are equal only if the doubles are (`NumberLayout.text_injective`). Doubles that are
not finite share one text.
-/

namespace Behavioral

open Float.Model UnpackedFloat

/-! ### The fields of a double -/

namespace Double

/-- What an unpacked double is as a significand and an exponent. -/
def toBinary : UnpackedFloat → Binary
  | .notANumber => .nan
  | .infinity s => .infinite (s == .negative)
  | .zero s => .finite (s == .negative) 0 (-1074)
  | .finite s m e _ => .finite (s == .negative) m e

theorem toNat_word (s : UnpackedFloat.Sign) (e : BitVec 11) (m : BitVec 52) :
    (word s e m).toNat = (s.toBitVec.toNat * 2 ^ 11 + e.toNat) * 2 ^ 52 + m.toNat := by
  have h : (word s e m).toNat = ((s.toBitVec ++ e) ++ m).toNat := rfl
  rw [h, BitVec.toNat_append, BitVec.toNat_append, ← Nat.shiftLeft_add_eq_or_of_lt m.isLt,
    ← Nat.shiftLeft_add_eq_or_of_lt e.isLt, Nat.shiftLeft_eq, Nat.shiftLeft_eq]

theorem fraction_word (s : UnpackedFloat.Sign) (e : BitVec 11) (m : BitVec 52) :
    (word s e m).toNat % Nat.pow 2 52 = m.toNat := by
  have hm := m.isLt
  rw [toNat_word]
  simp only [Nat.pow_eq]
  omega

theorem exponent_word (s : UnpackedFloat.Sign) (e : BitVec 11) (m : BitVec 52) :
    (word s e m).toNat / Nat.pow 2 52 % Nat.pow 2 11 = e.toNat := by
  have hm := m.isLt
  have he := e.isLt
  rw [toNat_word]
  simp only [Nat.pow_eq]
  omega

theorem sign_word (s : UnpackedFloat.Sign) (e : BitVec 11) (m : BitVec 52) :
    ((word s e m).toNat / Nat.pow 2 63 % 2 == 1) = (s == .negative) := by
  have hm := m.isLt
  have he := e.isLt
  have hs : s.toBitVec.toNat < 2 := s.toBitVec.isLt
  have hbit : (word s e m).toNat / Nat.pow 2 63 % 2 = s.toBitVec.toNat := by
    rw [toNat_word]
    simp only [Nat.pow_eq]
    omega
  rw [hbit]
  cases s <;> rfl

theorem ofBits_word (s : UnpackedFloat.Sign) (e : BitVec 11) (m : BitVec 52) :
    Binary.ofBits (word s e m).toNat = toBinary (decode s e m) := by
  have hall : e = -1#11 ↔ e.toNat = 2047 := by
    rw [← BitVec.toNat_inj]
    rfl
  have hnone : e = 0#11 ↔ e.toNat = 0 := by
    rw [← BitVec.toNat_inj]
    rfl
  have hzero : m = 0#52 ↔ m.toNat = 0 := by
    rw [← BitVec.toNat_inj]
    rfl
  simp only [Binary.ofBits, decode, fraction_word, exponent_word, sign_word, hall, hnone, hzero]
  split
  · split <;> rfl
  · split
    · split
      · next h => rw [h]; rfl
      · rfl
    · rw [toBinary, toNat_hidden]
      rfl

theorem ofFloat_eq (x : Float) : Binary.ofFloat x = toBinary x.toModel.unpack := by
  obtain ⟨s, e, m, h⟩ := fields x.toModel.toBits.toBitVec
  have hbits : x.toBits.toNat = (word s e m).toNat := congrArg BitVec.toNat h
  rw [Binary.ofFloat, hbits, ofBits_word, Float.Model.unpack, h, unpack_word]

theorem toBinary_injective {u v : UnpackedFloat} (h : toBinary u = toBinary v) : u = v := by
  have hsign : ∀ {s t : UnpackedFloat.Sign}, (s == .negative) = (t == .negative) → s = t := by
    rintro (_ | _) (_ | _) h <;> first | rfl | cases h
  rcases u with s | _ | s | ⟨s, m, e, hm⟩ <;> rcases v with t | _ | t | ⟨t, n, f, hn⟩
  all_goals
    simp only [toBinary, reduceCtorEq, Binary.infinite.injEq, Binary.finite.injEq, and_true] at h
  · rw [hsign h]
  · rfl
  · rw [hsign h]
  · omega
  · omega
  · obtain ⟨hs, rfl, rfl⟩ := h
    rw [hsign hs]

/-- A double is told by its sign, significand and exponent. -/
theorem ofFloat_injective {x y : Float} (h : Binary.ofFloat x = Binary.ofFloat y) : x = y := by
  rw [ofFloat_eq, ofFloat_eq] at h
  obtain ⟨x⟩ := x
  obtain ⟨y⟩ := y
  exact congrArg Float.ofModel (unpack_injective (toBinary_injective h))

theorem canonical_decode {s : UnpackedFloat.Sign} {e : BitVec 11} {m : BitVec 52}
    (h : (decode s e m).isFinite = true) :
    ∃ negative significand exponent,
      toBinary (decode s e m) = .finite negative significand exponent ∧
        Binary.Canonical significand exponent := by
  have hm := m.isLt
  unfold decode at h ⊢
  split at h
  · split at h <;> cases h
  · next hall =>
    rw [if_neg hall]
    split
    · split
      · exact ⟨_, _, _, rfl, ⟨by decide, le_rfl, fun h => absurd rfl h⟩⟩
      · exact ⟨_, _, _, rfl, ⟨by omega, le_rfl, fun h => absurd rfl h⟩⟩
    · next hzero =>
      have : e.toNat ≠ 0 := fun h => hzero (BitVec.eq_of_toNat_eq h)
      refine ⟨_, _, _, rfl, ⟨?_, by omega, fun _ => ?_⟩⟩ <;> rw [toNat_hidden] <;> omega

theorem ofFloat_finite {x : Float} (h : x.isFinite = true) :
    ∃ negative significand exponent, Binary.ofFloat x = .finite negative significand exponent ∧
      Binary.Canonical significand exponent := by
  obtain ⟨s, e, m, hx⟩ := exists_decode x.toModel
  rw [ofFloat_eq, hx]
  refine canonical_decode ?_
  rw [← hx]
  exact h

theorem ofFloat_not_finite {x : Float} (h : x.isFinite = false) :
    Binary.ofFloat x = .nan ∨ ∃ negative, Binary.ofFloat x = .infinite negative := by
  have h : x.toModel.unpack.isFinite = false := h
  rw [ofFloat_eq]
  generalize x.toModel.unpack = u at h ⊢
  rcases u with s | _ | s | _
  · exact .inr ⟨_, rfl⟩
  · exact .inl rfl
  · cases h
  · cases h

/-- A double that is neither finite nor infinite is the not-a-number. -/
theorem isNaN_of_not_finite {x : Float} (h : x.isFinite = false) (hinf : x.isInf = false) :
    x.isNaN = true := by
  have h : x.toModel.unpack.isFinite = false := h
  have hinf : x.toModel.unpack.isInf = false := hinf
  have hnan : x.isNaN = x.toModel.unpack.isNaN := rfl
  rw [hnan]
  generalize x.toModel.unpack = u at h hinf ⊢
  rcases u with s | _ | s | _
  · cases hinf
  · rfl
  · cases h
  · cases h

end Double

/-! ### Digits -/

variable {cs digits whole fraction tail : List Char} {layout : NumberLayout} {point : Int}

/-- Decimal digits only. -/
def Digits (cs : List Char) : Prop :=
  ∀ c ∈ cs, isAsciiDigit c = true

theorem digits_zeros (n : Nat) : Digits (List.replicate n '0') := fun _ hc => by
  rw [List.eq_of_mem_replicate hc]
  rfl

theorem digits_append {xs ys : List Char} (hx : Digits xs) (hy : Digits ys) : Digits (xs ++ ys) :=
  List.forall_mem_append.2 ⟨hx, hy⟩

theorem digits_toDigits (n : Nat) : Digits (Nat.toDigits 10 n) := fun _ hc =>
  Nat.isDigit_of_mem_toDigits (by decide) (by decide) hc

theorem digitsValue_eq (h : Digits cs) : digitsValue cs = Nat.ofDigitChars 10 cs 0 :=
  List.foldl_ext _ _ 0 fun _ c hc => by
    have hdigit : c.isDigit = true := h c hc
    rw [if_pos hdigit]

theorem digitsValue_append {xs ys : List Char} (hx : Digits xs) (hy : Digits ys) :
    digitsValue (xs ++ ys) = digitsValue xs * 10 ^ ys.length + digitsValue ys := by
  rw [digitsValue_eq (digits_append hx hy), Nat.ofDigitChars_append,
    Nat.ofDigitChars_eq_ofDigitChars_zero, ← digitsValue_eq hx, ← digitsValue_eq hy, Nat.mul_comm]

theorem digitsValue_zeros (n : Nat) : digitsValue (List.replicate n '0') = 0 := by
  induction n with
  | zero => rfl
  | succ n ih => exact ih

theorem digitsValue_toDigits (n : Nat) : digitsValue (Nat.toDigits 10 n) = n := by
  rw [digitsValue_eq (digits_toDigits n), Nat.ofDigitChars_toDigits (by decide) (by decide)]

/-! ### Reading what was written -/

namespace Numeral

/-- The characters that the texts of numbers are made of. -/
def continuesNumber (c : Char) : Bool :=
  continuesNumeral c || isSign c

/-- A fraction behind its point, or nothing if there is no fraction. -/
def pointText : List Char → List Char
  | [] => []
  | c :: cs => '.' :: c :: cs

theorem pointText_of_ne_nil (h : cs ≠ []) : pointText cs = '.' :: cs := by
  cases cs with
  | nil => exact absurd rfl h
  | cons c cs => rfl

theorem stops_pointText (h : Stops isAsciiDigit tail) :
    Stops isAsciiDigit (pointText fraction ++ tail) := by
  cases fraction with
  | nil => exact h
  | cons c cs => simp [pointText, isAsciiDigit]

theorem scanFraction_pointText (hfraction : Digits fraction) (hdigit : Stops isAsciiDigit tail)
    (hpoint : Stops (· == '.') tail) :
    (scanFraction (pointText fraction ++ tail)).1 = fraction ∧
      (scanFraction (pointText fraction ++ tail)).2 + fraction.length =
        (pointText fraction).length := by
  cases fraction with
  | nil =>
    have h := @scanFraction_append [] tail hdigit hpoint
    rw [pointText, h]
    exact ⟨rfl, rfl⟩
  | cons c cs =>
    have h : scanFraction (pointText (c :: cs) ++ tail) =
        ((c :: cs ++ tail).takeWhile isAsciiDigit, 1) := rfl
    rw [h, takeWhile_append_of_all hfraction hdigit]
    refine ⟨rfl, ?_⟩
    simp only [pointText, List.length_cons]
    omega

/-- A numeral's digits and power of ten are read one behind the other. -/
theorem scan_written (hwhole : Digits whole) (hfraction : Digits fraction)
    (hdigit : Stops isAsciiDigit tail) (hpoint : Stops (· == '.') tail) :
    (scan (whole ++ (pointText fraction ++ tail))).whole = whole ∧
      (scan (whole ++ (pointText fraction ++ tail))).fraction = fraction ∧
      (scan (whole ++ (pointText fraction ++ tail))).power = (powerPart tail).1 := by
  have hstop := @stops_pointText fraction tail hdigit
  have htake := takeWhile_append_of_all hwhole hstop
  have hafter :
      afterWhole (whole ++ (pointText fraction ++ tail)) = pointText fraction ++ tail := by
    rw [afterWhole, htake, List.drop_left]
  obtain ⟨hscan, hlength⟩ := scanFraction_pointText hfraction hdigit hpoint
  have hmantissa : mantissaLength (whole ++ (pointText fraction ++ tail)) =
      (whole ++ pointText fraction).length := by
    rw [mantissaLength, htake, hafter, hscan, Nat.add_assoc, hlength, List.length_append]
  rw [scan_eq]
  refine ⟨htake, by rw [hafter, hscan], ?_⟩
  simp only [hmantissa]
  rw [← List.append_assoc, List.drop_left]

/-- The power of ten of the scientific form. -/
def powerText (exponent : Int) : List Char :=
  'e' :: (if exponent < 0 then '-' else '+') :: Nat.toDigits 10 exponent.natAbs

theorem powerPart_powerText (exponent : Int) : (powerPart (powerText exponent)).1 =
    some (decide (exponent < 0), Nat.toDigits 10 exponent.natAbs) := by
  have hall : (Nat.toDigits 10 exponent.natAbs).takeWhile isAsciiDigit =
      Nat.toDigits 10 exponent.natAbs :=
    List.takeWhile_eq_self_iff.2 (digits_toDigits _)
  unfold powerText
  split
  · next h =>
    have hpower : (powerPart ('e' :: '-' :: Nat.toDigits 10 exponent.natAbs)).1 =
        some (true, (Nat.toDigits 10 exponent.natAbs).takeWhile isAsciiDigit) := rfl
    rw [hpower, hall, decide_eq_true h]
  · next h =>
    have hpower : (powerPart ('e' :: '+' :: Nat.toDigits 10 exponent.natAbs)).1 =
        some (false, (Nat.toDigits 10 exponent.natAbs).takeWhile isAsciiDigit) := rfl
    rw [hpower, hall, decide_eq_false h]

theorem exponent_of_power {n : Numeral} {exponent : Int}
    (h : n.power = some (decide (exponent < 0), Nat.toDigits 10 exponent.natAbs)) :
    n.exponent = exponent := by
  unfold Numeral.exponent
  rw [h]
  by_cases hneg : exponent < 0
  · simp only [hneg, decide_true, digitsValue_toDigits]
    omega
  · simp only [hneg, decide_false, digitsValue_toDigits]
    omega

/-- The forms in which a number that is not negative is written, and the number. -/
inductive Writes : List Char → ℚ → Prop where
  | positional {whole fraction : List Char} (hwhole : Digits whole) (hfraction : Digits fraction)
      (hfirst : whole ≠ []) (hpoint : fraction ≠ []) :
      Writes (whole ++ pointText fraction)
        (digitsValue (whole ++ fraction) * 10 ^ (-(fraction.length : Int)))
  | scientific {whole fraction : List Char} (hwhole : Digits whole) (hfraction : Digits fraction)
      (hfirst : whole ≠ []) (exponent : Int) :
      Writes (whole ++ (pointText fraction ++ powerText exponent))
        (digitsValue (whole ++ fraction) * 10 ^ (exponent - fraction.length))

variable {v w : ℚ}

/-- What is written is read as the number again. -/
theorem Writes.value_scan (h : Writes cs v) : (scan cs).decimal.value = v := by
  cases h with
  | @positional whole fraction hwhole hfraction _ _ =>
    obtain ⟨hw, hf, hp⟩ := scan_written hwhole hfraction stops_nil stops_nil
    rw [List.append_nil] at hw hf hp
    have hexponent : (scan (whole ++ pointText fraction)).exponent = 0 := by
      rw [Numeral.exponent, hp]
      rfl
    rw [Decimal.value, decimal, hw, hf, hexponent, zero_sub]
  | @scientific whole fraction hwhole hfraction _ exponent =>
    obtain ⟨hw, hf, hp⟩ := @scan_written whole fraction (powerText exponent) hwhole hfraction
      (stops_cons.2 rfl) (stops_cons.2 rfl)
    rw [Decimal.value, decimal, hw, hf, exponent_of_power (hp.trans (powerPart_powerText exponent))]

theorem Writes.unique (h : Writes cs v) (h' : Writes cs w) : v = w :=
  h.value_scan.symm.trans h'.value_scan

theorem Writes.head_digit (h : Writes cs v) :
    ∃ c rest, cs = c :: rest ∧ isAsciiDigit c = true := by
  cases h <;> next whole _ hwhole _ hfirst _ =>
    obtain ⟨c, rest, rfl⟩ := List.exists_cons_of_ne_nil hfirst
    exact ⟨c, _, rfl, hwhole c List.mem_cons_self⟩

theorem Writes.mem_mark (h : Writes cs v) : '.' ∈ cs ∨ 'e' ∈ cs := by
  cases h with
  | positional _ _ _ hpoint => simp [pointText_of_ne_nil hpoint]
  | scientific => simp [powerText]

theorem continuesNumber_of_digits (h : Digits cs) : ∀ c ∈ cs, continuesNumber c = true :=
  fun c hc => by simp [Numeral.continuesNumber, continuesNumeral, h c hc]

theorem Writes.continuesNumber (h : Writes cs v) : ∀ c ∈ cs, continuesNumber c = true := by
  have hpoint : ∀ {fraction : List Char}, Digits fraction →
      ∀ c ∈ pointText fraction, Numeral.continuesNumber c = true := by
    intro fraction hfraction c hc
    cases fraction with
    | nil => cases hc
    | cons d fraction =>
      rcases List.mem_cons.1 hc with rfl | hc
      · rfl
      · exact continuesNumber_of_digits hfraction c hc
  cases h with
  | positional hwhole hfraction =>
    exact List.forall_mem_append.2 ⟨continuesNumber_of_digits hwhole, hpoint hfraction⟩
  | @scientific _ _ hwhole hfraction _ exponent =>
    refine List.forall_mem_append.2 ⟨continuesNumber_of_digits hwhole,
      List.forall_mem_append.2 ⟨hpoint hfraction, ?_⟩⟩
    have hdigits := continuesNumber_of_digits (digits_toDigits exponent.natAbs)
    unfold powerText
    split <;> exact List.forall_mem_cons.2 ⟨rfl, List.forall_mem_cons.2 ⟨rfl, hdigits⟩⟩

theorem Writes.of_eq {xs : List Char} (h : Writes xs v) (hcs : cs = xs) (hv : w = v) :
    Writes cs w :=
  hcs ▸ hv ▸ h

end Numeral

namespace NumberLayout

open Numeral

theorem toList_zeros (n : Nat) : (zeros n).toList = List.replicate n '0' :=
  String.toList_ofList

theorem toList_pointed {d : Char} {rest : List Char} :
    (pointed (d :: rest)).toList = [d] ++ pointText rest := by
  cases rest <;> exact String.toList_ofList

/-- The point behind all digits. -/
theorem writes_behind (hd : Digits digits) (hne : digits ≠ []) (k : Nat) :
    Writes (String.ofList digits ++ zeros k ++ ".0").toList
      (digitsValue digits * 10 ^ (k : Int)) := by
  have hwhole := digits_append hd (digits_zeros k)
  have hfirst : digits ++ List.replicate k '0' ≠ [] := by simp [hne]
  refine (Writes.positional hwhole (digits_zeros 1) hfirst (List.cons_ne_nil _ _)).of_eq ?_ ?_
  · simp [toList_zeros, pointText]
  · rw [List.append_assoc, List.replicate_append_replicate,
      digitsValue_append hd (digits_zeros _), digitsValue_zeros, List.length_replicate,
      List.length_replicate]
    push_cast
    rw [zpow_neg, zpow_natCast, pow_succ]
    field_simp
    ring

/-- The point among the digits. -/
theorem writes_among (hd : Digits digits) {k : Nat} (hpos : 0 < k) (hk : k < digits.length) :
    Writes (String.ofList (digits.take k) ++ "." ++ String.ofList (digits.drop k)).toList
      (digitsValue digits * 10 ^ ((k : Int) - digits.length)) := by
  have htake : Digits (digits.take k) := fun c hc => hd c (List.mem_of_mem_take hc)
  have hdrop : Digits (digits.drop k) := fun c hc => hd c (List.mem_of_mem_drop hc)
  have hfirst : digits.take k ≠ [] := by
    rw [← List.length_pos_iff, List.length_take]
    omega
  have hrest : digits.drop k ≠ [] := by
    rw [← List.length_pos_iff, List.length_drop]
    omega
  refine (Writes.positional htake hdrop hfirst hrest).of_eq ?_ ?_
  · simp [pointText_of_ne_nil hrest]
  · rw [List.take_append_drop, List.length_drop]
    congr 2
    omega

/-- The point and zeros in front of the digits. -/
theorem writes_before (hd : Digits digits) (hne : digits ≠ []) (k : Nat) :
    Writes ("0." ++ zeros k ++ String.ofList digits).toList
      (digitsValue digits * 10 ^ (-(k : Int) - digits.length)) := by
  have hfraction := digits_append (digits_zeros k) hd
  have hrest : List.replicate k '0' ++ digits ≠ [] := by simp [hne]
  refine (Writes.positional (digits_zeros 1) hfraction (List.cons_ne_nil _ _) hrest).of_eq ?_ ?_
  · simp [toList_zeros, pointText_of_ne_nil hrest]
  · rw [← List.append_assoc, List.replicate_append_replicate,
      digitsValue_append (digits_zeros _) hd, digitsValue_zeros, Nat.zero_mul, Nat.zero_add,
      List.length_append, List.length_replicate]
    congr 2
    omega

/-- The scientific form. -/
theorem writes_scientific (hd : Digits digits) (hne : digits ≠ []) (exponent : Int) :
    Writes (pointed digits ++ "e" ++ (if exponent < 0 then "-" else "+") ++
        toString exponent.natAbs).toList
      (digitsValue digits * 10 ^ (exponent + 1 - digits.length)) := by
  obtain ⟨d, rest, rfl⟩ := List.exists_cons_of_ne_nil hne
  have hrest : Digits rest := fun c hc => hd c (List.mem_cons_of_mem d hc)
  have hfirst : Digits [d] := List.forall_mem_singleton.2 (hd d List.mem_cons_self)
  refine (Writes.scientific hfirst hrest (List.cons_ne_nil d []) exponent).of_eq ?_ ?_
  · rw [String.toList_append, String.toList_append, String.toList_append, toList_pointed, powerText]
    split <;> simp [toString, Nat.repr]
  · rw [List.singleton_append, List.length_cons]
    congr 2
    push_cast
    ring

/-- Digits are written as the number with the point where it is said to be. -/
theorem writes_digitsText (layout : NumberLayout) (hd : Digits digits) (hne : digits ≠ [])
    (point : Int) :
    Writes (layout.digitsText digits point).toList
      (digitsValue digits * 10 ^ (point - digits.length)) := by
  unfold digitsText
  simp only []
  split
  · obtain ⟨k, hk⟩ : ∃ k : Nat, point - digits.length = k :=
      ⟨(point - digits.length).toNat, by omega⟩
    rw [hk, Int.toNat_natCast]
    exact writes_behind hd hne k
  · split
    · next h =>
      obtain ⟨k, rfl⟩ := Int.eq_ofNat_of_zero_le h.1.le
      exact writes_among hd (by omega) (by omega)
    · split
      · next h =>
        obtain ⟨k, rfl⟩ : ∃ k : Nat, point = -k := ⟨(-point).toNat, by omega⟩
        rw [Int.neg_neg, Int.toNat_natCast]
        exact writes_before hd hne k
      · rw [← Int.sub_add_cancel point 1, Int.add_sub_cancel]
        exact writes_scientific hd hne (point - 1)

/-- A finite double without its sign, as it is written. -/
def magnitudeText (layout : NumberLayout) (significand : Nat) (exponent : Int) : String :=
  if significand = 0 then "0.0"
  else
    let d := Decimal.shortest significand exponent
    let digits := Nat.toDigits 10 d.digits
    layout.digitsText digits (digits.length + d.place)

theorem text_finite {x : Float} {negative : Bool} {significand : Nat} {exponent : Int}
    (h : Binary.ofFloat x = .finite negative significand exponent) :
    layout.text x =
      (if negative then "-" else "") ++ layout.magnitudeText significand exponent := by
  simp only [text, h, magnitudeText]
  split <;> rfl

theorem text_not_finite {x : Float} (h : x.isFinite = false) :
    layout.text x = layout.notFinite := by
  rw [text]
  rcases Double.ofFloat_not_finite h with h | ⟨_, h⟩ <;> rw [h]

/-- A finite double is written as its shortest decimal. -/
theorem writes_magnitude (layout : NumberLayout) (significand : Nat) (exponent : Int) :
    Writes (layout.magnitudeText significand exponent).toList
      (Decimal.shortest significand exponent).value := by
  unfold magnitudeText
  split
  · next h =>
    subst h
    have hne : List.replicate 1 '0' ≠ [] := List.cons_ne_nil _ _
    refine (Writes.positional (digits_zeros 1) (digits_zeros 1) hne hne).of_eq rfl ?_
    rw [List.replicate_append_replicate, digitsValue_zeros, Decimal.shortest, if_pos rfl,
      Decimal.value, Nat.cast_zero, zero_mul, zero_mul]
  · refine (writes_digitsText layout (digits_toDigits _) Nat.toDigits_ne_nil _).of_eq rfl ?_
    rw [digitsValue_toDigits, Decimal.value]
    congr 2
    omega

/-- Finite doubles with the same text are the same one. -/
theorem text_injective {x y : Float} (hx : x.isFinite = true) (hy : y.isFinite = true)
    (h : layout.text x = layout.text y) : x = y := by
  obtain ⟨b, m, e, hx, hm⟩ := Double.ofFloat_finite hx
  obtain ⟨c, n, f, hy, hn⟩ := Double.ofFloat_finite hy
  have hwx := writes_magnitude layout m e
  have hwy := writes_magnitude layout n f
  obtain ⟨d, rest, hd, hdigit⟩ := hwx.head_digit
  obtain ⟨d', rest', hd', hdigit'⟩ := hwy.head_digit
  rw [text_finite hx, text_finite hy, ← String.toList_inj, String.toList_append,
    String.toList_append] at h
  -- a magnitude starts with a digit, which is no sign
  have hsign : b = c := by
    rw [hd, hd'] at h
    cases b <;> cases c
    · rfl
    · rw [(List.cons.inj h).1] at hdigit
      cases hdigit
    · rw [← (List.cons.inj h).1] at hdigit'
      cases hdigit'
    · rfl
  subst hsign
  rw [List.append_cancel_left h] at hwx
  obtain ⟨rfl, rfl⟩ := shortest_injective hm hn (hwx.unique hwy)
  exact Double.ofFloat_injective (hx.trans hy.symm)

/-- The text of a finite double: a sign, and what is written of its magnitude. -/
theorem text_eq {x : Float} (h : x.isFinite = true) : ∃ (negative : Bool) (cs : List Char) (v : ℚ),
    Writes cs v ∧ (layout.text x).toList = (if negative then ['-'] else []) ++ cs := by
  obtain ⟨negative, m, e, hx, -⟩ := Double.ofFloat_finite h
  refine ⟨negative, _, _, writes_magnitude layout m e, ?_⟩
  rw [text_finite hx, String.toList_append]
  cases negative <;> rfl

end NumberLayout

end Behavioral
