import Behavioral.Proofs.Ordering

/-!
# What the operations round

An operation on doubles makes its exact result, shifts the significand to the places that a double
has and rounds it. The round bit and the sticky bit tell between which halves of the last place the
exact result lies (`Lies`), and that is all that rounding asks for, so the result is the double in
whose rounding interval the exact one is (`roundsTo_roundWithAccuracy`). These intervals have no
point in common: an operation depends on its exact result only (`RoundsTo.unique`).
-/

namespace Behavioral.Double

open Float.Model UnpackedFloat Shortest

variable {em : ExtendedMantissa} {m n d : Nat} {e f : ℤ} {q v : ℚ} {s : UnpackedFloat.Sign}
  {u w : UnpackedFloat} {accuracy : Accuracy} {x y : Float}

/-! ### Significands with two more bits -/

/-- Where a number lies between the significand and the next, in units of the last place. -/
def Lies (em : ExtendedMantissa) (q : ℚ) : Prop :=
  match em.accuracy with
  | .exact => q = em.mantissa
  | .inexact .lt => em.mantissa < q ∧ q < em.mantissa + 1 / 2
  | .inexact .eq => q = em.mantissa + 1 / 2
  | .inexact .gt => em.mantissa + 1 / 2 < q ∧ q < em.mantissa + 1

theorem Lies.shiftRightOne (h : Lies em q) : Lies em.shiftRightOne (q / 2) := by
  obtain ⟨m, round, sticky⟩ := em
  obtain ⟨n, rfl | rfl⟩ : ∃ n, m = 2 * n ∨ m = 2 * n + 1 := ⟨m / 2, by omega⟩ <;>
    cases round <;> cases sticky <;>
    simp [Lies, ExtendedMantissa.accuracy, ExtendedMantissa.shiftRightOne,
      Nat.mul_add_div] at h ⊢ <;>
    first | (constructor <;> linarith) | linarith

theorem Lies.shiftRight (h : Lies em q) (k : Nat) : Lies (em >>> k) (q / 2 ^ k) := by
  induction k with
  | zero => rwa [pow_zero, div_one]
  | succ k ih =>
    rw [pow_succ, ← div_div]
    exact ih.shiftRightOne

theorem Lies.bounds (h : Lies em q) : em.mantissa ≤ q ∧ q < em.mantissa + 1 := by
  obtain ⟨m, round, sticky⟩ := em
  cases round <;> cases sticky <;> simp [Lies, ExtendedMantissa.accuracy] at h ⊢ <;>
    constructor <;> linarith

theorem lies_exact (m : Nat) : Lies (ExtendedMantissa.ofMantissaAndAccuracy m .exact) m := by
  simp [Lies, ExtendedMantissa.ofMantissaAndAccuracy, ExtendedMantissa.accuracy]

/-- The remainder of a division tells where the quotient lies. -/
theorem lies_quotient (n : Nat) (hd : 0 < d) :
    Lies (ExtendedMantissa.ofMantissaAndAccuracy (n / d) (accuracyOfFraction (n % d) d))
      ((n : ℚ) / d) := by
  have hd' : (0 : ℚ) < d := by exact_mod_cast hd
  have hr : ((n % d : Nat) : ℚ) < d := by exact_mod_cast Nat.mod_lt n hd
  have hn : (n : ℚ) / d = (n / d : Nat) + (n % d : Nat) / d := by
    rw [div_eq_iff hd'.ne', add_mul, div_mul_cancel₀ _ hd'.ne']
    exact_mod_cast (Nat.div_add_mod' n d).symm
  rw [hn, accuracyOfFraction]
  generalize n % d = r at hr ⊢
  split
  · simp_all [Lies, ExtendedMantissa.ofMantissaAndAccuracy, ExtendedMantissa.accuracy]
  · rename_i hne
    have hpos : (0 : ℚ) < r := by exact_mod_cast Nat.pos_of_ne_zero hne
    have hone := (div_lt_one hd').2 hr
    have hzero := div_pos hpos hd'
    rcases lt_trichotomy (2 * r) d with h | h | h
    · have hcast : (2 * r : ℚ) < d := by exact_mod_cast h
      have hhalf : (r : ℚ) / d < 1 / 2 := (div_lt_iff₀ hd').2 (by linarith)
      rw [compare_lt_iff_lt.2 h]
      exact ⟨lt_add_of_pos_right _ hzero, (add_lt_add_iff_left _).2 hhalf⟩
    · have hcast : (2 * r : ℚ) = d := by exact_mod_cast h
      have hhalf : (r : ℚ) / d = 1 / 2 := (div_eq_iff hd'.ne').2 (by linarith)
      rw [compare_eq_iff_eq.2 h, hhalf]
      rfl
    · have hcast : (d : ℚ) < 2 * r := by exact_mod_cast h
      have hhalf : 1 / 2 < (r : ℚ) / d := (lt_div_iff₀ hd').2 (by linarith)
      rw [compare_gt_iff_gt.2 h]
      exact ⟨(add_lt_add_iff_left _).2 hhalf, (add_lt_add_iff_left _).2 hone⟩

theorem roundedMantissa_le (em : ExtendedMantissa) : em.roundedMantissa ≤ em.mantissa + 1 := by
  obtain ⟨m, round, sticky⟩ := em
  cases round <;> cases sticky <;> simp [ExtendedMantissa.roundedMantissa,
    ExtendedMantissa.accuracy, Accuracy.roundToNearestEven]
  omega

/-- The rounded significand is half a unit away at most, and less than that if it is odd. -/
theorem Lies.rounded (h : Lies em q) : |q - em.roundedMantissa| ≤ 1 / 2 ∧
    (em.roundedMantissa % 2 = 1 → |q - em.roundedMantissa| < 1 / 2) := by
  obtain ⟨m, round, sticky⟩ := em
  rw [abs_le, abs_lt]
  cases round <;> cases sticky <;>
    simp only [Lies, ExtendedMantissa.roundedMantissa, ExtendedMantissa.accuracy,
      Accuracy.roundToNearestEven] at h ⊢
  · simp [h]
  · exact ⟨⟨by linarith, by linarith⟩, fun _ => ⟨by linarith, by linarith⟩⟩
  · rcases Nat.mod_two_eq_zero_or_one m with hm | hm
    · rw [hm, h]
      norm_num [hm]
    · rw [hm, h]
      norm_num [Nat.add_mod, hm]
  · push_cast
    exact ⟨⟨by linarith, by linarith⟩, fun _ => ⟨by linarith, by linarith⟩⟩

/-! ### Rounding -/

/-- A number with the sign whose rounding interval the exact magnitude is in. -/
inductive RoundsTo (s : UnpackedFloat.Sign) (v : ℚ) : UnpackedFloat → Prop
  | zero : Rounds 0 (-1074) v → RoundsTo s v (.zero s)
  | finite {m : Nat} {e : ℤ} {hm : 0 < m} : Binary.Canonical m e → Rounds m e v →
      RoundsTo s v (.finite s m e hm)

theorem canonical_zero : Binary.Canonical 0 (-1074) :=
  ⟨by decide, le_rfl, fun h => absurd rfl h⟩

theorem RoundsTo.unique (hu : RoundsTo s v u) (hw : RoundsTo s v w) : u = w := by
  cases hu with
  | zero hu =>
    cases hw with
    | zero => rfl
    | @finite n f hn hcanonical hw =>
      exact absurd (rounds_unique canonical_zero hcanonical hu hw).1 hn.ne
  | @finite m e hm hcanonical hu =>
    cases hw with
    | zero hw => exact absurd (rounds_unique hcanonical canonical_zero hu hw).1 hm.ne'
    | finite hcanonical' hw =>
      obtain ⟨rfl, rfl⟩ := rounds_unique hcanonical hcanonical' hu hw
      rfl

/-- The interval of a significand reaches half a unit to each side, and below a power of two a
quarter. -/
theorem rounds_of_near (hq : 0 ≤ q) (hnear : |q - n| ≤ 1 / 2)
    (hodd : n % 2 = 1 → |q - n| < 1 / 2)
    (hstart : n = 2 ^ 52 → e ≠ -1074 → n - 1 / 4 ≤ q) : Rounds n e (q * 2 ^ e) := by
  have hunit : q * 2 ^ e / (2 ^ e / 4) = 4 * q := by
    have hpow : (2 : ℚ) ^ e ≠ 0 := by positivity
    field_simp
  have hhigh : ((interval n e).high : ℚ) = 4 * n + 2 := by
    simp [interval]
  rw [Rounds, hunit, Interval.Contains, hhigh]
  split
  · obtain ⟨hbelow, habove⟩ := abs_le.1 hnear
    refine ⟨?_, by linarith⟩
    rw [interval]
    split
    · rename_i hpow
      have hn : n = 2 ^ 52 := hpow.1
      have hquarter := hstart hn hpow.2
      rw [Nat.cast_sub (by omega)]
      push_cast
      linarith
    · rcases Nat.eq_zero_or_pos n with rfl | hpos
      · simpa using hq
      · rw [Nat.cast_sub (by omega)]
        push_cast
        linarith
  · rename_i hopen
    have hn := closed_eq_false.1 (Bool.eq_false_iff.2 hopen)
    obtain ⟨hbelow, habove⟩ := abs_lt.1 (hodd hn)
    refine ⟨?_, by linarith⟩
    rw [interval, if_neg (by rintro ⟨rfl, -⟩; exact absurd hn (by decide)),
      Nat.cast_sub (by omega)]
    push_cast
    linarith

/-- Significands whose leading bit is where a double has it, or behind. -/
def Leads (m : Nat) (e : ℤ) : Prop :=
  e ≤ -1074 ∨ 2 ^ 52 ≤ m

theorem mantissa_ofMantissaAndAccuracy (m : Nat) (accuracy : Accuracy) :
    (ExtendedMantissa.ofMantissaAndAccuracy m accuracy).mantissa = m := by
  rcases accuracy with _ | _ | _ | _ <;> rfl

/-- The first shift leads to the places of a double. -/
theorem shiftToTargetExponent_eq (hlead : Leads m e)
    (h : shiftToTargetExponent Format.binary64 m e accuracy = (em, f)) :
    ∃ k : Nat, em = ExtendedMantissa.ofMantissaAndAccuracy m accuracy >>> k ∧ f = e + k ∧
      -1074 ≤ f ∧ em.mantissa < 2 ^ 53 ∧ (f ≠ -1074 → 2 ^ 52 ≤ em.mantissa) := by
  simp only [shiftToTargetExponent, shiftToExponent, Prod.mk.injEq, targetExponent_eq,
    totalExponent] at h
  obtain ⟨hem, hf⟩ := h
  refine ⟨_, hem.symm, hf.symm, ?_⟩
  rw [← hem, mantissa_shiftRight, mantissa_ofMantissaAndAccuracy]
  have hlog : e ≤ -1074 ∨ 52 ≤ m.log2 := by
    refine hlead.imp id fun hm => (Nat.le_log2 (by omega)).2 hm
  generalize hk : (max ((m.log2 : ℤ) + 1 + e - 53) (-1074) - e).toNat = k at hf ⊢
  refine ⟨by omega, ?_, fun hne => ?_⟩
  · rw [Nat.div_lt_iff_lt_mul (Nat.two_pow_pos k), ← Nat.pow_add]
    exact Nat.lt_log2_self.trans_le (Nat.pow_le_pow_right (by decide) (by omega))
  · rw [Nat.le_div_iff_mul_le (Nat.two_pow_pos k), ← Nat.pow_add]
    have hm : m ≠ 0 := by
      rintro rfl
      rw [Nat.log2_zero] at hlog hk
      omega
    exact (Nat.le_log2 hm).1 (by omega)

/-- The second shift leaves a significand that has its place. -/
theorem shiftToTargetExponent_of_lt (hm : m < 2 ^ 53) (he : -1074 ≤ e) :
    shiftToTargetExponent Format.binary64 m e .exact =
      (ExtendedMantissa.ofMantissaAndAccuracy m .exact, e) := by
  have hlog : m.log2 ≤ 52 := by
    rcases Nat.eq_zero_or_pos m with rfl | hpos
    · decide
    · exact Nat.lt_succ_iff.1 ((Nat.log2_lt hpos.ne').2 hm)
  have hk : (max ((m.log2 : ℤ) + 1 + e - 53) (-1074) - e).toNat = 0 := by omega
  simp only [shiftToTargetExponent, shiftToExponent, targetExponent_eq, totalExponent, hk,
    Nat.cast_zero, add_zero]
  rfl

/-- A significand that rounding has carried into the next place is halved. -/
theorem shiftToTargetExponent_carry (he : -1074 ≤ e) :
    shiftToTargetExponent Format.binary64 (2 ^ 53) e .exact =
      (ExtendedMantissa.ofMantissaAndAccuracy (2 ^ 52) .exact, e + 1) := by
  have hk : (max (((2 ^ 53 : Nat).log2 : ℤ) + 1 + e - 53) (-1074) - e).toNat = 1 := by
    rw [Nat.log2_two_pow]
    omega
  simp only [shiftToTargetExponent, shiftToExponent, targetExponent_eq, totalExponent, hk]
  rfl

/-- A number that rounding has carried into the next place is a quarter of the new unit away at most,
so it is in the rounding interval there, also where that interval is half as wide below. -/
theorem rounds_of_carry {r : ℚ} (hnear : |r - (2 ^ 53 : Nat)| ≤ 1 / 2) :
    Rounds (2 ^ 52) (f + 1) (r * 2 ^ f) := by
  obtain ⟨hlow, hhigh⟩ := abs_le.1 hnear
  push_cast at hlow hhigh
  have hhalf : r * 2 ^ f = r / 2 * 2 ^ (f + 1) := by
    rw [zpow_add_one₀ two_ne_zero]
    ring
  have hquarter : |r / 2 - (2 ^ 52 : Nat)| ≤ 1 / 4 := by
    rw [abs_le]
    push_cast
    constructor <;> linarith
  rw [hhalf]
  exact rounds_of_near (by linarith) (hquarter.trans (by norm_num))
    (fun hodd => absurd hodd (by decide)) fun _ _ => by linarith [(abs_le.1 hquarter).1]

/-- Shifting and rounding leads to the number whose interval the exact magnitude is in. -/
theorem roundsTo_roundWithAccuracy (s : UnpackedFloat.Sign) (hlead : Leads m e)
    (h : Lies (ExtendedMantissa.ofMantissaAndAccuracy m accuracy) q) :
    RoundsTo s (q * 2 ^ e) (roundWithAccuracy Format.binary64 s m e accuracy) := by
  rcases hfirst : shiftToTargetExponent Format.binary64 m e accuracy with ⟨em, f⟩
  obtain ⟨k, rfl, rfl, hleast, hbounded, hhidden⟩ := shiftToTargetExponent_eq hlead hfirst
  have hlies := h.shiftRight k
  obtain ⟨hnear, hodd⟩ := hlies.rounded
  have hcarry := roundedMantissa_le (ExtendedMantissa.ofMantissaAndAccuracy m accuracy >>> k)
  have hfloor := le_roundedMantissa (ExtendedMantissa.ofMantissaAndAccuracy m accuracy >>> k)
  have hq : 0 ≤ q / 2 ^ k := (Nat.cast_nonneg _).trans hlies.bounds.1
  have hvalue : q * 2 ^ e = q / 2 ^ k * 2 ^ (e + k) := by
    rw [zpow_add₀ two_ne_zero, zpow_natCast]
    field_simp
  rw [roundWithAccuracy, hfirst, hvalue]
  have hbelow := hlies.bounds.1
  dsimp only
  generalize (ExtendedMantissa.ofMantissaAndAccuracy m accuracy >>> k).mantissa = floor at *
  generalize (ExtendedMantissa.ofMantissaAndAccuracy m accuracy >>> k).roundedMantissa = n at *
  generalize q / 2 ^ k = r at *
  generalize e + (k : ℤ) = f at *
  have hstart : n = 2 ^ 52 → f ≠ -1074 → (n : ℚ) - 1 / 4 ≤ r := by
    rintro rfl hne
    have hhidden : (2 ^ 52 : ℚ) ≤ floor := by exact_mod_cast hhidden hne
    push_cast
    linarith
  rcases Nat.lt_or_ge n (2 ^ 53) with hn | hn
  · have hrounds := rounds_of_near hq hnear hodd hstart
    rw [shiftToTargetExponent_of_lt hn hleast]
    dsimp only
    split
    · rename_i hzero
      obtain rfl : n = 0 := hzero
      obtain rfl : f = -1074 := by
        by_contra hne
        have := hhidden hne
        omega
      exact .zero hrounds
    · exact .finite ⟨hn, hleast, fun hne => (hhidden hne).trans hfloor⟩ hrounds
  · obtain rfl : n = 2 ^ 53 := by omega
    rw [shiftToTargetExponent_carry hleast]
    dsimp only
    rw [dif_neg (by decide)]
    exact .finite ⟨by decide, by omega, fun _ => le_rfl⟩ (rounds_of_carry hnear)

/-! ### Operations -/

theorem rounds_self (m : Nat) (e : ℤ) : Rounds m e (m * 2 ^ e) := by
  refine rounds_of_near (Nat.cast_nonneg m) ?_ (fun _ => ?_) fun _ _ => by linarith
  · norm_num
  · norm_num

theorem roundsTo_self (s : UnpackedFloat.Sign) (hm : 0 < m) (h : Binary.Canonical m e) :
    RoundsTo s (m * 2 ^ e) (.finite s m e hm) :=
  .finite h (rounds_self m e)

/-- A product of two significands is long enough, unless both numbers are subnormal. -/
theorem roundsTo_mul (s t : UnpackedFloat.Sign) (hm : 0 < m) (hn : 0 < n)
    (hu : Binary.Canonical m e) (hw : Binary.Canonical n f) :
    RoundsTo (s * t) (m * 2 ^ e * (n * 2 ^ f))
      (UnpackedFloat.mul Format.binary64 (.finite s m e hm) (.finite t n f hn)) := by
  have hlead : Leads (m * n) (e + f) := by
    by_cases he : e = -1074
    · by_cases hf : f = -1074
      · exact .inl (by omega)
      · exact .inr ((hw.hidden hf).trans (Nat.le_mul_of_pos_left n hm))
    · exact .inr ((hu.hidden he).trans (Nat.le_mul_of_pos_right m hn))
  have hexact : (m * 2 ^ e * (n * 2 ^ f) : ℚ) = (m * n : Nat) * 2 ^ (e + f) := by
    rw [zpow_add₀ two_ne_zero]
    push_cast
    ring
  rw [hexact]
  exact roundsTo_roundWithAccuracy (s * t) hlead (lies_exact _)

theorem shiftLeft_mul_zpow (m : Nat) {k : Nat} (h : e = f + k) :
    (m * 2 ^ e : ℚ) = (m <<< k : Nat) * 2 ^ f := by
  rw [h, zpow_add₀ two_ne_zero, zpow_natCast, Nat.shiftLeft_eq]
  push_cast
  ring

theorem two_pow_le_shiftLeft {k : Nat} (hm : m ≠ 0) : 2 ^ (m.log2 + k) ≤ m <<< k := by
  rw [Nat.shiftLeft_eq, Nat.pow_add]
  exact Nat.mul_le_mul_right _ (Nat.log2_self_le hm)

/-- A dividend is extended until the quotient is long enough. -/
theorem roundsTo_div (s t : UnpackedFloat.Sign) (hm : 0 < m) (hn : 0 < n) (e f : ℤ) :
    RoundsTo (s / t) (m * 2 ^ e / (n * 2 ^ f))
      (UnpackedFloat.div Format.binary64 (.finite s m e hm) (.finite t n f hn)) := by
  simp only [UnpackedFloat.div, divCore, targetExponent_eq, totalExponent]
  generalize hg : min (e - f)
    (max ((m.log2 : ℤ) + 1 + e - (n.log2 + 1 + f) - 53) (-1074)) = g
  generalize hk : (e - f - g).toNat = k
  have hlead : Leads (m <<< k / n) g := by
    by_cases hleast : g ≤ -1074
    · exact .inl hleast
    · have hlong : 52 + (n.log2 + 1) ≤ m.log2 + k := by omega
      refine .inr ((Nat.le_div_iff_mul_le hn).2 ?_)
      calc 2 ^ 52 * n ≤ 2 ^ 52 * 2 ^ (n.log2 + 1) :=
            Nat.mul_le_mul_left _ Nat.lt_log2_self.le
        _ = 2 ^ (52 + (n.log2 + 1)) := (Nat.pow_add ..).symm
        _ ≤ 2 ^ (m.log2 + k) := Nat.pow_le_pow_right (by decide) hlong
        _ ≤ m <<< k := two_pow_le_shiftLeft hm.ne'
  have hexact : (m * 2 ^ e / (n * 2 ^ f) : ℚ) = (m <<< k : Nat) / n * 2 ^ g := by
    rw [shiftLeft_mul_zpow m (show e = g + f + k by omega), zpow_add₀ two_ne_zero]
    field_simp
  rw [hexact]
  exact roundsTo_roundWithAccuracy (s / t) hlead (lies_quotient _ hn)

theorem roundsTo_round (s : UnpackedFloat.Sign) (hm : 0 < m) (e : ℤ) :
    RoundsTo s (m * 2 ^ e) (UnpackedFloat.round Format.binary64 s m e) := by
  simp only [UnpackedFloat.round, decreaseExponent, targetExponent_eq, totalExponent]
  generalize hk : (e - max ((m.log2 : ℤ) + 1 + e - 53) (-1074)).toNat = k
  have hlead : Leads (m <<< k) (e - k) := by
    by_cases hleast : e - k ≤ -1074
    · exact .inl hleast
    · exact .inr ((Nat.pow_le_pow_right (by decide) (by omega)).trans
        (two_pow_le_shiftLeft hm.ne'))
  rw [shiftLeft_mul_zpow m (show e = e - k + k by omega)]
  exact roundsTo_roundWithAccuracy s hlead (lies_exact _)

/-- The number that a finite double stands for. -/
def value : UnpackedFloat → ℚ
  | .finite s m e _ => s.apply m * 2 ^ e
  | _ => 0

@[simp]
theorem value_zero (s : UnpackedFloat.Sign) : value (.zero s) = 0 := rfl

@[simp]
theorem value_positive (hm : 0 < m) : value (.finite .positive m e hm) = m * 2 ^ e := by
  simp [value, UnpackedFloat.Sign.apply]

@[simp]
theorem value_negative (hm : 0 < m) : value (.finite .negative m e hm) = -(m * 2 ^ e) := by
  simp [value, UnpackedFloat.Sign.apply]

theorem abs_value_finite (s : UnpackedFloat.Sign) (hm : 0 < m) :
    |value (.finite s m e hm)| = m * 2 ^ e := by
  have hpos : (0 : ℚ) ≤ m * 2 ^ e := by positivity
  cases s <;> simp [abs_of_nonneg hpos]

theorem roundsTo_normalize {d : ℤ} (hd : 0 < d) (e : ℤ) :
    RoundsTo .positive (d * 2 ^ e) (UnpackedFloat.normalize Format.binary64 d e .positive) := by
  obtain ⟨m, rfl⟩ := Int.eq_ofNat_of_zero_le hd.le
  rw [UnpackedFloat.normalize, compare_gt_iff_gt.2 hd]
  exact roundsTo_round .positive (Int.natCast_pos.1 hd) e

theorem apply_shiftLeft_mul (s : UnpackedFloat.Sign) (m : Nat) (h : f ≤ e) :
    (s.apply (m <<< (e - f).toNat : Nat) : ℚ) * 2 ^ f = s.apply m * 2 ^ e := by
  have hshift := shiftLeft_mul_zpow m (show e = f + (e - f).toNat by omega)
  cases s <;> simp only [UnpackedFloat.Sign.apply, Int.cast_neg, Int.cast_natCast] <;> linarith

/-- A number in the form in which doubles are unpacked. -/
def IsCanonical (u : UnpackedFloat) : Prop :=
  ∀ s m e hm, u = .finite s m e hm → Binary.Canonical m e

theorem isCanonical_unpack (x : Float) : IsCanonical x.toModel.unpack :=
  fun _ _ _ _ h => canonical_unpack h

theorem IsCanonical.canonical {hm : 0 < m} (h : IsCanonical (.finite s m e hm)) :
    Binary.Canonical m e :=
  h s m e hm rfl

/-- A positive difference is rounded, or is one of the two numbers if the other is a zero. -/
theorem roundsTo_sub (hu : IsCanonical u) (hw : IsCanonical w) (hfinite : u.isFinite = true)
    (hfinite' : w.isFinite = true) (hlt : value w < value u) :
    RoundsTo .positive (value u - value w) (UnpackedFloat.sub Format.binary64 u w) := by
  rcases u with _ | _ | s | ⟨s, m, e, hm⟩ <;> try cases hfinite
  all_goals rcases w with _ | _ | t | ⟨t, n, f, hn⟩ <;> try cases hfinite'
  · exact absurd hlt (lt_irrefl _)
  · have hpos : (0 : ℚ) < n * 2 ^ f := by positivity
    cases t with
    | negative =>
      rw [value_zero, value_negative, sub_neg_eq_add, zero_add]
      exact roundsTo_self .positive hn hw.canonical
    | positive =>
      rw [value_zero, value_positive] at hlt
      exact absurd hlt hpos.not_gt
  · have hpos : (0 : ℚ) < m * 2 ^ e := by positivity
    cases s with
    | negative =>
      rw [value_zero, value_negative, neg_pos] at hlt
      exact absurd hlt hpos.not_gt
    | positive =>
      rw [value_zero, value_positive, sub_zero]
      exact roundsTo_self .positive hm hu.canonical
  · simp only [UnpackedFloat.sub, decreaseExponent]
    generalize hd : s.apply (m <<< (e - min e f).toNat : Nat) -
      t.apply (n <<< (f - min e f).toNat : Nat) = d
    have hexact : (d : ℚ) * 2 ^ min e f = s.apply m * 2 ^ e - t.apply n * 2 ^ f := by
      rw [← hd, Int.cast_sub, sub_mul, apply_shiftLeft_mul s m (min_le_left e f),
        apply_shiftLeft_mul t n (min_le_right e f)]
    have hpos : 0 < d := by
      have hlt : (0 : ℚ) < d * 2 ^ min e f := by
        rw [hexact]
        exact sub_pos.2 hlt
      exact_mod_cast pos_of_mul_pos_left hlt (by positivity)
    rw [value, value, ← hexact]
    exact roundsTo_normalize hpos _

/-! ### Comparisons -/

theorem mul_zpow_lt (hm : Binary.Canonical m e) (hn : Binary.Canonical n f)
    (h : e < f ∨ e = f ∧ m < n) : (m * 2 ^ e : ℚ) < n * 2 ^ f := by
  have hlt : ((m <<< (e - min e f).toNat : Nat) : ℚ) < (n <<< (f - min e f).toNat : Nat) := by
    exact_mod_cast shiftLeft_lt hm hn h
  rw [shiftLeft_mul_zpow m (show e = min e f + (e - min e f).toNat by omega),
    shiftLeft_mul_zpow n (show f = min e f + (f - min e f).toNat by omega)]
  exact mul_lt_mul_of_pos_right hlt (by positivity)

theorem value_lt_of_compare (hu : IsCanonical u) (hw : IsCanonical w)
    (hfinite : u.isFinite = true) (hfinite' : w.isFinite = true) (h : u.compare w = some .lt) :
    value u < value w := by
  rcases u with _ | _ | s | ⟨_ | _, m, e, hm⟩ <;> try cases hfinite
  all_goals rcases w with _ | _ | t | ⟨_ | _, n, f, hn⟩ <;> try cases hfinite'
  all_goals try cases h
  all_goals simp only [value_zero, value_positive, value_negative]
  · positivity
  · rw [neg_lt_zero]
    positivity
  · have hlt : f < e ∨ f = e ∧ n < m := by
      simp only [UnpackedFloat.compare, then_compare, Option.some.injEq, Ordering.swap_eq_lt] at h
      grind
    exact neg_lt_neg (mul_zpow_lt hw.canonical hu.canonical hlt)
  · exact (neg_neg_of_pos (by positivity)).trans (by positivity)
  · have hlt : e < f ∨ e = f ∧ m < n := by
      simp only [UnpackedFloat.compare, then_compare, Option.some.injEq] at h
      grind
    exact mul_zpow_lt hu.canonical hw.canonical hlt

/-- The number that a finite double stands for. -/
def toRat (x : Float) : ℚ :=
  value x.toModel.unpack

theorem isNaN_of_isFinite (hx : x.isFinite = true) : x.isNaN = false := by
  have hx : x.toModel.unpack.isFinite = true := hx
  show x.toModel.unpack.isNaN = false
  cases h : x.toModel.unpack <;> rw [h] at hx <;> first | rfl | cases hx

/-- Finite doubles compare as the numbers they stand for. -/
theorem lt_iff_toRat (hx : x.isFinite = true) (hy : y.isFinite = true) :
    x < y ↔ toRat x < toRat y := by
  have toRat_lt {x y : Float} (hx : x.isFinite = true) (hy : y.isFinite = true) (h : x < y) :
      toRat x < toRat y :=
    value_lt_of_compare (isCanonical_unpack x) (isCanonical_unpack y) hx hy (lt_def.1 h)
  have hx' := isNaN_of_isFinite hx
  have hy' := isNaN_of_isFinite hy
  refine ⟨toRat_lt hx hy, fun h => (lt_iff hx' hy').2 ?_⟩
  by_contra hnot
  rcases (not_lt.1 hnot).lt_or_eq with hgt | heq
  · exact h.not_gt (toRat_lt hy hx ((lt_iff hy' hx').2 hgt))
  · have hcompare : x.toModel.unpack.compare y.toModel.unpack = some .eq := by
      rw [compare_eq hx' hy', (cmp_eq_eq_iff _ _).2 heq.symm]
    rw [toRat, toRat] at h
    rcases eq_or_zero_of_compare hcompare with heq | ⟨⟨s, hx⟩, t, hy⟩
    · rw [heq] at h
      exact lt_irrefl _ h
    · rw [hx, hy] at h
      exact lt_irrefl _ h

theorem toRat_pos_of_pos (hx : x.isFinite = true) (h : 0 < x) : 0 < toRat x := by
  have hzero : toRat 0 = 0 := by rw [toRat, unpack_zero, value_zero]
  rw [lt_iff_toRat (by decide +kernel) hx, hzero] at h
  exact h

/-! ### Packing -/

theorem finite_eq_decode (s : UnpackedFloat.Sign) (hm : 0 < m) (h : Binary.Canonical m e)
    (he : e ≤ 971) : ∃ field fraction, UnpackedFloat.finite s m e hm = decode s field fraction := by
  have hleast := h.least
  have hbounded := h.bounded
  rcases Nat.lt_or_ge m (2 ^ 52) with hsmall | hlarge
  · obtain rfl : e = -1074 := by
      by_contra hne
      exact hsmall.not_ge (h.hidden hne)
    have hfraction : (BitVec.ofNat 52 m).toNat = m := by
      rw [BitVec.toNat_ofNat, Nat.mod_eq_of_lt hsmall]
    have hne : BitVec.ofNat 52 m ≠ 0#52 := fun h => by
      rw [h] at hfraction
      exact hm.ne hfraction
    refine ⟨0#11, BitVec.ofNat 52 m, ?_⟩
    rw [decode, if_neg (by decide), if_pos rfl, dif_neg hne]
    simp only [hfraction]
  · have hfield : (BitVec.ofNat 11 (e + 1075).toNat).toNat = (e + 1075).toNat := by
      rw [BitVec.toNat_ofNat, Nat.mod_eq_of_lt (by omega)]
    have hfraction : (BitVec.ofNat 52 (m - 2 ^ 52)).toNat = m - 2 ^ 52 := by
      rw [BitVec.toNat_ofNat, Nat.mod_eq_of_lt (by omega)]
    have hinfinite : BitVec.ofNat 11 (e + 1075).toNat ≠ -1#11 := fun h => by
      have hall : (-1#11 : BitVec 11).toNat = 2047 := by decide
      rw [h, hall] at hfield
      omega
    have hzero : BitVec.ofNat 11 (e + 1075).toNat ≠ 0#11 := fun h => by
      have hnone : (0#11 : BitVec 11).toNat = 0 := by decide
      rw [h, hnone] at hfield
      omega
    refine ⟨BitVec.ofNat 11 (e + 1075).toNat, BitVec.ofNat 52 (m - 2 ^ 52), ?_⟩
    rw [decode, if_neg hinfinite, if_neg hzero]
    simp only [toNat_hidden, hfield, hfraction, UnpackedFloat.finite.injEq, true_and]
    omega

/-- What a number becomes when it is packed into a double. -/
def packed (w : UnpackedFloat) : UnpackedFloat :=
  UnpackedFloat.unpack Format.binary64 (UnpackedFloat.pack Format.binary64 w)

theorem packed_infinity (s : UnpackedFloat.Sign) : packed (.infinity s) = .infinity s :=
  unpack_pack_decode s (-1#11) 0#52

theorem packed_zero (s : UnpackedFloat.Sign) : packed (.zero s) = .zero s :=
  unpack_pack_decode s 0#11 0#52

theorem packed_notANumber : packed .notANumber = .notANumber :=
  unpack_pack_decode .positive (-1#11) 1#52

/-- A rounded number is packed as it is, unless it is too large. -/
theorem packed_eq_or_infinity (h : RoundsTo s v w) : packed w = w ∨ packed w = .infinity s := by
  cases h with
  | zero => exact .inl (packed_zero s)
  | @finite m e hm hcanonical =>
    by_cases he : e ≤ 971
    · obtain ⟨field, fraction, hdecode⟩ := finite_eq_decode s hm hcanonical he
      rw [hdecode]
      exact .inl (unpack_pack_decode s field fraction)
    · have bias : Format.binary64.exponentBias = 1023 := by decide
      have hlarge : 2 ^ 11 ≤ (e + 1023 + 52).toNat + 1 := by omega
      have hpack : UnpackedFloat.pack Format.binary64 (.finite s m e hm) =
          UnpackedFloat.pack Format.binary64 (.infinity s) := by
        simp only [UnpackedFloat.pack, bias]
        exact if_pos hlarge
      rw [packed, hpack]
      exact .inr (packed_infinity s)

/-- What is finite after packing is what was rounded. -/
theorem RoundsTo.packed (h : RoundsTo s v w) (hfinite : (packed w).isFinite = true) :
    RoundsTo s v (packed w) := by
  rcases packed_eq_or_infinity h with hpack | hpack
  · rwa [hpack]
  · rw [hpack] at hfinite
    cases hfinite

theorem unpack_mul (x y : Float) : (x * y).toModel.unpack =
    packed (UnpackedFloat.mul Format.binary64 x.toModel.unpack y.toModel.unpack) := rfl

theorem unpack_div (x y : Float) : (x / y).toModel.unpack =
    packed (UnpackedFloat.div Format.binary64 x.toModel.unpack y.toModel.unpack) := rfl

end Behavioral.Double
