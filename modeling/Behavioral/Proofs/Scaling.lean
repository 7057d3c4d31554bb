import Behavioral.Proofs.Arithmetic

/-!
# Arithmetic in another unit

Multiplying by a power of two moves the exponent and keeps the significand, and so does rounding as
long as nothing gets too large or too small (`RoundsTo.scaled`). Operations on scaled doubles are
then the scaled ones (`sub_rescaled`, `div_rescaled`), and where one factor is scaled up and the
other down the product is the same, even if it is too large or too small itself
(`mul_eq_of_rescaled`).
-/

namespace Behavioral.Double

open Float.Model UnpackedFloat Shortest

variable {m n : Nat} {e f k : ℤ} {v : ℚ} {s : UnpackedFloat.Sign} {u w : UnpackedFloat}
  {a b c d r x y : Float}

/-! ### Rounding in another unit -/

theorem exists_canonical (hm : m < 2 ^ 53) (he : -1074 ≤ e) :
    ∃ n f, Binary.Canonical n f ∧ (n * 2 ^ f : ℚ) = m * 2 ^ e := by
  obtain ⟨j, rfl⟩ : ∃ j : Nat, e = -1074 + j := ⟨(e + 1074).toNat, by omega⟩
  induction j generalizing m with
  | zero => exact ⟨m, _, ⟨hm, by omega, by omega⟩, rfl⟩
  | succ j ih =>
    by_cases hhidden : 2 ^ 52 ≤ m
    · exact ⟨m, _, ⟨hm, by omega, fun _ => hhidden⟩, rfl⟩
    · obtain ⟨n, f, hcanonical, hvalue⟩ := ih (m := 2 * m) (by omega) (by omega)
      refine ⟨n, f, hcanonical, hvalue.trans ?_⟩
      push_cast
      rw [← add_assoc, zpow_add_one₀ two_ne_zero]
      ring

theorem interval_eq (h : m = 2 ^ 52 → (e = -1074 ↔ f = -1074)) : interval m e = interval m f := by
  have hlow : (m = Nat.pow 2 52 ∧ e ≠ -1074) ↔ (m = Nat.pow 2 52 ∧ f ≠ -1074) :=
    and_congr_right fun hm => not_congr (h hm)
  simp only [interval, hlow]

def leastNormal : ℚ :=
  2 ^ (-1022 : ℤ)

/-- A normal number is far enough into the interval it is rounded in. -/
theorem large_of_normal (hnormal : leastNormal ≤ v) :
    4 * 2 ^ 52 ≤ v / (2 ^ (-1074 : ℤ) / 4) := by
  have hpow : leastNormal = 2 ^ 52 * 2 ^ (-1074 : ℤ) := by
    rw [leastNormal, show (-1022 : ℤ) = (52 : Nat) + -1074 by norm_num, zpow_add₀ two_ne_zero,
      zpow_natCast]
  have hunit : (0 : ℚ) < 2 ^ (-1074 : ℤ) := by positivity
  rw [hpow] at hnormal
  generalize (2 : ℚ) ^ (-1074 : ℤ) = unit at *
  rw [le_div_iff₀ (by linarith)]
  linarith

theorem hidden_of_normal (hm : Binary.Canonical m e) (hv : Rounds m e v)
    (hnormal : leastNormal ≤ v) : 2 ^ 52 ≤ m := by
  by_contra hsmall
  obtain rfl : e = -1074 := by
    by_contra hne
    exact hsmall (hm.hidden hne)
  have hm : (m : ℚ) + 1 ≤ 2 ^ 52 := by exact_mod_cast Nat.not_le.1 hsmall
  have hlarge := large_of_normal hnormal
  have hhigh := (Interval.Contains.le hv).2
  generalize v / (2 ^ (-1074 : ℤ) / 4) = q at hlarge hhigh
  simp only [interval] at hhigh
  push_cast at hhigh
  linarith

/-- The rounding interval grows with the unit, but at the least exponent, where the neighbours are
not closer below a power of two than above. -/
theorem rounds_up (hk : 0 ≤ k) (hm : Binary.Canonical m e) (hv : Rounds m e v)
    (hnormal : leastNormal ≤ v) : Rounds m (e + k) (v * 2 ^ k) := by
  have hleast := hm.least
  have hunit : v * 2 ^ k / (2 ^ (e + k) / 4) = v / (2 ^ e / 4) := by
    rw [zpow_add₀ two_ne_zero]
    field_simp
  rw [Rounds, hunit]
  by_cases hend : m = 2 ^ 52 → (e = -1074 ↔ e + k = -1074)
  · rwa [← interval_eq hend]
  · obtain ⟨rfl, he⟩ := Classical.not_imp.1 hend
    obtain ⟨rfl, hpos⟩ : e = -1074 ∧ -1074 + k ≠ -1074 := by omega
    have hlow : (interval (2 ^ 52) (-1074 + k)).low ≤ 4 * 2 ^ 52 := by
      simp only [interval]
      split <;> omega
    have hlow : ((interval (2 ^ 52) (-1074 + k)).low : ℚ) ≤ 4 * 2 ^ 52 := by
      exact_mod_cast hlow
    exact ⟨hlow.trans (large_of_normal hnormal), (Interval.Contains.le hv).2⟩

/-- What is rounded in a smaller unit without becoming subnormal, or exactly, is rounded alike in a
larger one. -/
theorem rounds_scaled (hk : 0 ≤ k) (hm : Binary.Canonical m e) (hv : Rounds m e v)
    (hn : Binary.Canonical n f) (hv' : Rounds n f (v * 2 ^ k))
    (hfits : leastNormal ≤ v ∨ m * 2 ^ e = v) : (n * 2 ^ f : ℚ) = m * 2 ^ e * 2 ^ k := by
  have hleast := hm.least
  rcases hfits with hnormal | rfl
  · have hcanonical : Binary.Canonical m (e + k) :=
      ⟨hm.bounded, by omega, fun _ => hidden_of_normal hm hv hnormal⟩
    obtain ⟨rfl, rfl⟩ := rounds_unique hn hcanonical hv' (rounds_up hk hm hv hnormal)
    rw [zpow_add₀ two_ne_zero, mul_assoc]
  · obtain ⟨n', f', hcanonical, hvalue⟩ := exists_canonical hm.bounded (e := e + k) (by omega)
    have hexact : (m * 2 ^ e * 2 ^ k : ℚ) = n' * 2 ^ f' := by
      rw [hvalue, zpow_add₀ two_ne_zero, mul_assoc]
    rw [hexact] at hv' ⊢
    obtain ⟨rfl, rfl⟩ := rounds_unique hn hcanonical hv' (rounds_self n' f')
    rfl

/-- The same double in another unit: its number times `2 ^ k`. -/
inductive Scaled (k : ℤ) : UnpackedFloat → UnpackedFloat → Prop
  | infinity (s : UnpackedFloat.Sign) : Scaled k (.infinity s) (.infinity s)
  | notANumber : Scaled k .notANumber .notANumber
  | zero (s : UnpackedFloat.Sign) : Scaled k (.zero s) (.zero s)
  | finite {s : UnpackedFloat.Sign} {m n : Nat} {e f : ℤ} {hm : 0 < m} {hn : 0 < n} :
      (n * 2 ^ f : ℚ) = m * 2 ^ e * 2 ^ k → Scaled k (.finite s m e hm) (.finite s n f hn)

theorem Scaled.value_eq (h : Scaled k u w) : value w = value u * 2 ^ k := by
  cases h with
  | @finite s _ _ _ _ _ _ h => cases s <;> simp [h]
  | _ => simp [value]

theorem Scaled.isFinite_eq (h : Scaled k u w) : w.isFinite = u.isFinite := by
  cases h <;> rfl

theorem Scaled.symm (h : Scaled k u w) : Scaled (-k) w u := by
  cases h with
  | infinity s => exact .infinity s
  | notANumber => exact .notANumber
  | zero s => exact .zero s
  | finite h =>
    refine .finite ?_
    rw [h, mul_assoc, ← zpow_add₀ two_ne_zero, add_neg_cancel, zpow_zero, mul_one]

/-- The significand and the exponent of a rounded number, of which the first is zero for a zero. -/
theorem RoundsTo.exists (h : RoundsTo s v u) : ∃ m e, Binary.Canonical m e ∧ Rounds m e v ∧
    |value u| = m * 2 ^ e ∧ (m = 0 ∧ u = .zero s ∨ ∃ hm : 0 < m, u = .finite s m e hm) := by
  cases h with
  | zero h => exact ⟨0, -1074, canonical_zero, h, by simp, .inl ⟨rfl, rfl⟩⟩
  | @finite m e hm hcanonical h =>
    exact ⟨m, e, hcanonical, h, abs_value_finite s hm, .inr ⟨hm, rfl⟩⟩

/-- A magnitude does not become subnormal in rounding, unless it is not rounded at all. -/
def Keeps (v : ℚ) (u : UnpackedFloat) : Prop :=
  leastNormal ≤ v ∨ |value u| = v

theorem RoundsTo.scaled_up (hk : 0 ≤ k) (hu : RoundsTo s v u) (hw : RoundsTo s (v * 2 ^ k) w)
    (hkeeps : Keeps v u) : Scaled k u w := by
  obtain ⟨m, e, hm, hv, hvalue, hu⟩ := hu.exists
  obtain ⟨n, f, hn, hv', -, hw⟩ := hw.exists
  have hscaled := rounds_scaled hk hm hv hn hv' (hkeeps.imp id fun h => hvalue.symm.trans h)
  have hpow : (2 : ℚ) ^ f ≠ 0 := by positivity
  have hpow' : (2 : ℚ) ^ e * 2 ^ k ≠ 0 := by positivity
  rcases hu with ⟨rfl, rfl⟩ | ⟨hm, rfl⟩ <;> rcases hw with ⟨rfl, rfl⟩ | ⟨hn, rfl⟩
  · exact .zero s
  · simp [hpow] at hscaled
    exact absurd hscaled hn.ne'
  · rw [mul_assoc] at hscaled
    simp [hpow'] at hscaled
    exact absurd hscaled hm.ne'
  · exact .finite hscaled

/-- Rounding commutes with scaling. -/
theorem RoundsTo.scaled (hu : RoundsTo s v u) (hw : RoundsTo s (v * 2 ^ k) w) (hkeeps : Keeps v u)
    (hkeeps' : Keeps (v * 2 ^ k) w) : Scaled k u w := by
  rcases le_total 0 k with hk | hk
  · exact hu.scaled_up hk hw hkeeps
  · have hback : v * 2 ^ k * 2 ^ (-k) = v := by
      rw [mul_assoc, ← zpow_add₀ two_ne_zero, add_neg_cancel, zpow_zero, mul_one]
    rw [← hback] at hu
    have hscaled := hw.scaled_up (by omega) hu hkeeps'
    rw [← Int.neg_neg k]
    exact hscaled.symm

/-! ### Operations in another unit -/

/-- `x` in another unit. -/
def Rescaled (k : ℤ) (x y : Float) : Prop :=
  Scaled k x.toModel.unpack y.toModel.unpack

/-- The result of an operation is neither too large nor, unless it is exact, too small. -/
def Fits (exact : ℚ) (x : Float) : Prop :=
  x.isFinite = true ∧ (leastNormal ≤ |exact| ∨ toRat x = exact)

instance {exact : ℚ} {x : Float} : Decidable (Fits exact x) :=
  inferInstanceAs (Decidable (_ ∧ _))

theorem Rescaled.toRat_eq (h : Rescaled k x y) : toRat y = toRat x * 2 ^ k :=
  Scaled.value_eq h

theorem Rescaled.isFinite (h : Rescaled k x y) (hx : x.isFinite = true) : y.isFinite = true :=
  (Scaled.isFinite_eq h).trans hx

/-- Numbers compare alike in all units. -/
theorem Rescaled.lt_iff (hac : Rescaled k a c) (hbd : Rescaled k b d) (ha : a.isFinite = true)
    (hb : b.isFinite = true) : c < d ↔ a < b := by
  rw [lt_iff_toRat (hac.isFinite ha) (hbd.isFinite hb), lt_iff_toRat ha hb, hac.toRat_eq,
    hbd.toRat_eq, mul_lt_mul_iff_left₀ (by positivity)]

theorem Fits.keeps {exact : ℚ} (h : Fits exact x) : Keeps |exact| x.toModel.unpack :=
  h.2.imp id fun h => congrArg (|·|) h

theorem sub_rescaled (hac : Rescaled k a c) (hbd : Rescaled k b d) (ha : a.isFinite = true)
    (hb : b.isFinite = true) (hlt : b < a) (hfits : Fits (toRat a - toRat b) (a - b))
    (hfits' : Fits (toRat c - toRat d) (c - d)) : Rescaled k (a - b) (c - d) := by
  have rounds {x y : Float} (hx : x.isFinite = true) (hy : y.isFinite = true)
      (hlt : toRat y < toRat x) (hfinite : (x - y).isFinite = true) :
      RoundsTo .positive (toRat x - toRat y) (x - y).toModel.unpack :=
    (roundsTo_sub (isCanonical_unpack x) (isCanonical_unpack y) hx hy hlt).packed hfinite
  have hlt := (lt_iff_toRat hb ha).1 hlt
  have hexact : toRat c - toRat d = (toRat a - toRat b) * 2 ^ k := by
    rw [hac.toRat_eq, hbd.toRat_eq, sub_mul]
  have hpos : 0 < toRat a - toRat b := sub_pos.2 hlt
  have hpos' : 0 < toRat c - toRat d := by
    rw [hexact]
    positivity
  have hrounds := rounds ha hb hlt hfits.1
  have hrounds' := rounds (hac.isFinite ha) (hbd.isFinite hb) (sub_pos.1 hpos') hfits'.1
  have hkeeps := hfits.keeps
  have hkeeps' := hfits'.keeps
  rw [abs_of_pos hpos] at hkeeps
  rw [abs_of_pos hpos', hexact] at hkeeps'
  rw [hexact] at hrounds'
  exact hrounds.scaled hrounds' hkeeps hkeeps'

theorem exists_of_toRat_pos (h : 0 < toRat x) :
    ∃ m e hm, x.toModel.unpack = .finite .positive m e hm ∧ m * 2 ^ e = toRat x := by
  rw [toRat] at h ⊢
  generalize x.toModel.unpack = u at h ⊢
  rcases u with _ | _ | _ | ⟨_ | _, m, e, hm⟩ <;> try exact absurd h (lt_irrefl 0)
  · have hpos : (0 : ℚ) ≤ m * 2 ^ e := by positivity
    rw [value_negative, neg_pos] at h
    exact absurd h hpos.not_gt
  · exact ⟨m, e, hm, rfl, (value_positive hm).symm⟩

/-- A number times a power of two is that number in another unit. -/
theorem mul_rescaled (hx : x.isFinite = true) (hy : toRat y = 2 ^ k)
    (hfits : Fits (toRat x * 2 ^ k) (x * y)) : Rescaled k x (x * y) := by
  obtain ⟨n, f, hn, hunpack, hpow⟩ := exists_of_toRat_pos (x := y) (by rw [hy]; positivity)
  have hfinite : (x * y).toModel.unpack.isFinite = true := hfits.1
  have hkeeps := hfits.keeps
  have hcanonical := isCanonical_unpack x
  have hcanonical' := isCanonical_unpack y
  have hone (t : UnpackedFloat.Sign) : t * .positive = t := by cases t <;> rfl
  rw [toRat, abs_mul, abs_of_pos (show (0 : ℚ) < 2 ^ k by positivity)] at hkeeps
  rw [unpack_mul, hunpack] at hfinite hkeeps
  rw [hunpack] at hcanonical'
  rw [Rescaled, unpack_mul, hunpack]
  have hx : x.toModel.unpack.isFinite = true := hx
  generalize x.toModel.unpack = u at *
  rcases u with _ | _ | t | ⟨t, m, e, hm⟩ <;> try cases hx
  · rw [UnpackedFloat.mul, hone, packed_zero]
    exact .zero t
  · have hrounds := (roundsTo_mul t .positive hm hn hcanonical.canonical
      hcanonical'.canonical).packed hfinite
    rw [hone, hpow, hy] at hrounds
    rw [abs_value_finite] at hkeeps
    exact (roundsTo_self t hm hcanonical.canonical).scaled hrounds (.inr (abs_value_finite t hm))
      hkeeps

theorem roundsTo_unpack_div {l : Nat} {g : ℤ} {hl : 0 < l} {hm : 0 < m}
    (hx : x.toModel.unpack = .finite s l g hl) (hy : y.toModel.unpack = .finite .positive m e hm)
    (hfinite : (x / y).isFinite = true) :
    RoundsTo s (l * 2 ^ g / (m * 2 ^ e)) (x / y).toModel.unpack := by
  have hfinite : (x / y).toModel.unpack.isFinite = true := hfinite
  have hone : s / .positive = s := by cases s <;> rfl
  rw [unpack_div, hx, hy] at hfinite ⊢
  have hrounds := (roundsTo_div s .positive hl hm g e).packed hfinite
  rwa [hone] at hrounds

/-- A quotient of which only the divisor is in another unit. -/
theorem div_rescaled (hbd : Rescaled k b d) (hb : 0 < toRat b)
    (hfits : r.isFinite = true → Fits (toRat r / toRat b) (r / b))
    (hfits' : r.isFinite = true → Fits (toRat r / toRat d) (r / d)) :
    Rescaled (-k) (r / b) (r / d) := by
  have hd : 0 < toRat d := by
    rw [hbd.toRat_eq]
    positivity
  obtain ⟨m, e, hm, hunpack, hvalue⟩ := exists_of_toRat_pos hb
  obtain ⟨n, f, hn, hunpack', hvalue'⟩ := exists_of_toRat_pos hd
  rw [Rescaled]
  rcases hr : r.toModel.unpack with s | _ | s | ⟨s, l, g, hl⟩
  · simp only [unpack_div, hr, hunpack, hunpack', UnpackedFloat.div, packed_infinity]
    exact .infinity _
  · simp only [unpack_div, hr, UnpackedFloat.div, packed_notANumber]
    exact .notANumber
  · simp only [unpack_div, hr, hunpack, hunpack', UnpackedFloat.div, packed_zero]
    exact .zero _
  · have hfinite : r.isFinite = true := by
      show r.toModel.unpack.isFinite = true
      rw [hr]
      rfl
    have hvaluer : |toRat r| = l * 2 ^ g := by
      rw [toRat, hr, abs_value_finite]
    have hexact : (l * 2 ^ g / toRat d : ℚ) = l * 2 ^ g / toRat b * 2 ^ (-k) := by
      rw [hbd.toRat_eq, zpow_neg]
      field_simp
    have hrounds := roundsTo_unpack_div hr hunpack (hfits hfinite).1
    have hrounds' := roundsTo_unpack_div hr hunpack' (hfits' hfinite).1
    have hkeeps := (hfits hfinite).keeps
    have hkeeps' := (hfits' hfinite).keeps
    rw [abs_div, hvaluer, abs_of_pos hb] at hkeeps
    rw [abs_div, hvaluer, abs_of_pos hd, hexact] at hkeeps'
    rw [hvalue] at hrounds
    rw [hvalue', hexact] at hrounds'
    exact hrounds.scaled hrounds' hkeeps hkeeps'

theorem mul_eq_of_scaled {u' w' : UnpackedFloat} (huu : Scaled k u u') (hww : Scaled (-k) w w')
    (hu : IsCanonical u) (hu' : IsCanonical u') (hw : IsCanonical w) (hw' : IsCanonical w') :
    UnpackedFloat.mul Format.binary64 u w = UnpackedFloat.mul Format.binary64 u' w' := by
  cases huu <;> cases hww <;> first | rfl | skip
  case finite.finite s m n e f hm hn hmn t m' n' e' f' hm' hn' hmn' =>
    have hproduct := roundsTo_mul s t hm hm' hu.canonical hw.canonical
    have hproduct' := roundsTo_mul s t hn hn' hu'.canonical hw'.canonical
    have hexact : (n * 2 ^ f * (n' * 2 ^ f') : ℚ) = m * 2 ^ e * (m' * 2 ^ e') := by
      rw [hmn, hmn', mul_mul_mul_comm, ← zpow_add₀ two_ne_zero, add_neg_cancel, zpow_zero, mul_one]
    rw [hexact] at hproduct'
    exact hproduct.unique hproduct'

/-- A product is the same when one factor is scaled up and the other down. -/
theorem mul_eq_of_rescaled (hac : Rescaled k a c) (hbd : Rescaled (-k) b d) : a * b = c * d :=
  congrArg (fun u => Float.ofModel (.pack u)) (mul_eq_of_scaled hac hbd (isCanonical_unpack a)
    (isCanonical_unpack c) (isCanonical_unpack b) (isCanonical_unpack d))

end Behavioral.Double
