import Behavioral.Number.Shortest
import Mathlib.Algebra.Order.Field.Power
import Mathlib.Data.Nat.Cast.Order.Field
import Mathlib.Data.Rat.Cast.Order
import Mathlib.Tactic.FieldSimp
import Mathlib.Tactic.Linarith
import Mathlib.Tactic.Positivity
import Mathlib.Tactic.Ring

/-!
# Rounding intervals

The decimals that read back as a double lie in its rounding interval (`Rounds`). The intervals of
two doubles have no point in common: they meet at most at an end, and of two neighbours one has an
odd significand and is open there (`not_rounds`). A grid of seventeen digits is fine enough to meet
every interval, so the search for the fewest digits ends with a decimal of the interval
(`rounds_shortest`), and doubles with the same shortest decimal are the same one
(`shortest_injective`).
-/

namespace Behavioral

open Shortest Binary

variable {m n : Nat} {e f place order : Int} {v x : ℚ}

/-- The number that a decimal stands for. -/
def Decimal.value (d : Decimal) : ℚ :=
  d.digits * 10 ^ d.place

/-- The significands and exponents of the finite doubles: there is a hidden bit unless the exponent
is the least. -/
structure Binary.Canonical (significand : Nat) (exponent : Int) : Prop where
  bounded : significand < 2 ^ 53
  least : -1074 ≤ exponent
  hidden : exponent ≠ -1074 → 2 ^ 52 ≤ significand

namespace Shortest

/-! ### The interval of a double -/

/-- The interval without its ends, unless it is closed. -/
def Interval.Contains (i : Interval) (x : ℚ) : Prop :=
  if i.closed then i.low ≤ x ∧ x ≤ i.high else i.low < x ∧ x < i.high

/-- `v` is in the rounding interval of `significand · 2 ^ exponent`. -/
def Rounds (significand : Nat) (exponent : Int) (v : ℚ) : Prop :=
  (interval significand exponent).Contains (v / (2 ^ exponent / 4))

theorem Interval.Contains.le {i : Interval} (h : i.Contains x) : i.low ≤ x ∧ x ≤ i.high := by
  unfold Contains at h
  split at h
  · exact h
  · exact ⟨h.1.le, h.2.le⟩

theorem Rounds.le (h : Rounds m e v) : (interval m e).low ≤ v / (2 ^ e / 4) :=
  (Interval.Contains.le h).1

theorem Interval.Contains.lt {i : Interval} (h : i.Contains x) (hopen : i.closed = false) :
    i.low < x ∧ x < i.high := by
  rwa [Contains, hopen, if_neg Bool.false_ne_true] at h

theorem closed_eq_false : (interval m e).closed = false ↔ m % 2 = 1 := by
  simp [interval]

/-- The interval of a double ends where that of a later one starts, or before. If their ends meet
then one of the two is open. -/
theorem high_le_low (hm : Canonical m e) (hn : Canonical n f) (h : e < f ∨ e = f ∧ m < n) :
    (interval m e).high ≤ (interval n f).low * 2 ^ (f - e).toNat ∧
      (m % 2 = 0 → n % 2 = 0 →
        (interval m e).high < (interval n f).low * 2 ^ (f - e).toNat) := by
  have hlow : 4 * n - 2 ≤ (interval n f).low := by
    simp only [interval]
    split <;> omega
  have hbounded := hm.bounded
  simp only [interval]
  rcases h with h | ⟨rfl, h⟩
  · obtain ⟨k, hk⟩ : ∃ k, (f - e).toNat = k + 1 := ⟨(f - e).toNat - 1, by omega⟩
    have hleast := hm.least
    have hhidden := hn.hidden (by omega)
    have hpow : 2 ≤ 2 ^ (f - e).toNat := by
      rw [hk, Nat.pow_succ]
      have := Nat.one_le_two_pow (n := k)
      omega
    -- below a power of two the lower neighbour is half as far
    have hstart : 2 ^ 54 - 1 ≤ (interval n f).low := by
      have : Nat.pow 2 52 = 2 ^ 52 := rfl
      simp only [interval]
      split <;> omega
    have := Nat.mul_le_mul hstart hpow
    simp only [interval] at this
    omega
  · simp only [Int.sub_self, Int.toNat_zero, Nat.pow_zero, Nat.mul_one]
    simp only [interval] at hlow
    omega

/-- The rounding intervals of two doubles have no point in common. -/
theorem not_rounds (hm : Canonical m e) (hn : Canonical n f) (h : e < f ∨ e = f ∧ m < n)
    (hv : Rounds m e v) : ¬Rounds n f v := by
  intro hw
  obtain ⟨k, rfl⟩ : ∃ k : Nat, f = e + k := ⟨(f - e).toNat, by omega⟩
  have hk : (e + k - e).toNat = k := by omega
  obtain ⟨hle, hlt⟩ := high_le_low hm hn h
  rw [hk] at hle hlt
  have hscale : v / (2 ^ e / 4) = v / (2 ^ (e + k : Int) / 4) * 2 ^ k := by
    rw [zpow_add₀ two_ne_zero, zpow_natCast]
    field_simp
  have hpow : (0 : ℚ) < 2 ^ k := by positivity
  unfold Rounds at hv hw
  rw [hscale] at hv
  generalize v / (2 ^ (e + k : Int) / 4) = y at hv hw
  have hfrom := mul_le_mul_of_nonneg_right hw.le.1 hpow.le
  have hgap : ((interval m e).high : ℚ) ≤ (interval n (e + k)).low * 2 ^ k := by exact_mod_cast hle
  by_cases hodd : m % 2 = 1
  · have := (hv.lt (closed_eq_false.2 hodd)).2
    linarith
  · by_cases hodd' : n % 2 = 1
    · have := mul_lt_mul_of_pos_right (hw.lt (closed_eq_false.2 hodd')).1 hpow
      have := hv.le.2
      linarith
    · have hgap : ((interval m e).high : ℚ) < (interval n (e + k)).low * 2 ^ k := by
        exact_mod_cast hlt (by omega) (by omega)
      have := hv.le.2
      linarith

theorem rounds_unique (hm : Canonical m e) (hn : Canonical n f) (hv : Rounds m e v)
    (hw : Rounds n f v) : m = n ∧ e = f := by
  rcases lt_trichotomy e f with h | rfl | h
  · exact absurd hw (not_rounds hm hn (.inl h) hv)
  · rcases lt_trichotomy m n with h | rfl | h
    · exact absurd hw (not_rounds hm hn (.inr ⟨rfl, h⟩) hv)
    · exact ⟨rfl, rfl⟩
    · exact absurd hv (not_rounds hn hm (.inr ⟨rfl, h⟩) hw)
  · exact absurd hv (not_rounds hn hm (.inl h) hw)

end Shortest

/-! ### Quotients -/

theorem pos_quotient (h : 0 < m) (e : Int) : 0 < (quotient m e).1 ∧ 0 < (quotient m e).2 := by
  unfold quotient
  split
  · exact ⟨Nat.mul_pos h (Nat.two_pow_pos _), Nat.one_pos⟩
  · exact ⟨h, Nat.two_pow_pos _⟩

theorem quotient_eq (m : Nat) (e : Int) :
    ((quotient m e).1 : ℚ) / (quotient m e).2 = m * 2 ^ e := by
  unfold quotient
  split
  · obtain ⟨k, rfl⟩ := Int.eq_ofNat_of_zero_le ‹0 ≤ e›
    simp
  · obtain ⟨k, rfl⟩ : ∃ k : Nat, e = -k := ⟨(-e).toNat, by omega⟩
    simp [div_eq_mul_inv]

theorem pos_inUnits {num den : Nat} (hnum : 0 < num) (hden : 0 < den) (place : Int) :
    0 < (inUnits num den place).1 ∧ 0 < (inUnits num den place).2 := by
  unfold inUnits
  split
  · exact ⟨hnum, Nat.mul_pos hden (Nat.pow_pos (by decide))⟩
  · exact ⟨Nat.mul_pos hnum (Nat.pow_pos (by decide)), hden⟩

theorem inUnits_eq (num den : Nat) (place : Int) :
    ((inUnits num den place).1 : ℚ) / (inUnits num den place).2 = num / den / 10 ^ place := by
  unfold inUnits
  split
  · obtain ⟨k, rfl⟩ := Int.eq_ofNat_of_zero_le ‹0 ≤ place›
    simp [div_div]
  · obtain ⟨k, rfl⟩ : ∃ k : Nat, place = -k := ⟨(-place).toNat, by omega⟩
    simp [mul_div_right_comm]

theorem lt_pow_decimalLength (n : Nat) : n < 10 ^ decimalLength n :=
  (Nat.length_toDigits_le_iff (by decide) (List.length_pos_iff.2 Nat.toDigits_ne_nil)).1 le_rfl

theorem pow_decimalLength_le (h : 0 < n) : 10 ^ (decimalLength n - 1) ≤ n := by
  by_contra hlt
  rcases Nat.eq_zero_or_pos (decimalLength n - 1) with hzero | hpos
  · rw [hzero] at hlt
    omega
  · have := (Nat.length_toDigits_le_iff (b := 10) (by decide) hpos).2 (Nat.lt_of_not_le hlt)
    unfold decimalLength at *
    omega

theorem decimalOrder_le {num den : Nat} (hnum : 0 < num) (hden : 0 < den) :
    (10 : ℚ) ^ decimalOrder num den ≤ num / den := by
  have hden' : (0 : ℚ) < den := by exact_mod_cast hden
  unfold decimalOrder
  split
  · next hle =>
    have hpos : 0 < num / den := Nat.div_pos hle hden
    have hlength : 0 < decimalLength (num / den) := List.length_pos_iff.2 Nat.toDigits_ne_nil
    have hcast : (decimalLength (num / den) : Int) - 1 = (decimalLength (num / den) - 1 : Nat) := by
      omega
    calc (10 : ℚ) ^ ((decimalLength (num / den) : Int) - 1)
        = ((10 ^ (decimalLength (num / den) - 1) : Nat) : ℚ) := by rw [hcast]; norm_num
      _ ≤ ((num / den : Nat) : ℚ) := by exact_mod_cast pow_decimalLength_le hpos
      _ ≤ num / den := Nat.cast_div_le
  · next hlt =>
    rw [zpow_neg, zpow_natCast, inv_le_comm₀ (by positivity) (by positivity), inv_div,
      div_le_iff₀ (by exact_mod_cast hnum)]
    have hceil : den ≤ 10 ^ decimalLength ((den + num - 1) / num - 1) * num := by
      have hlt := lt_pow_decimalLength ((den + num - 1) / num - 1)
      have : (den + num - 1) / num ≤ 10 ^ decimalLength ((den + num - 1) / num - 1) := by omega
      have := Nat.mul_le_mul_right num this
      have := Nat.lt_div_mul_add (a := den + num - 1) hnum
      omega
    exact_mod_cast hceil

namespace Shortest

/-! ### The search -/

/-- A quarter of the last binary place, in units of `10 ^ place`. -/
def quarter (exponent place : Int) : Nat × Nat :=
  inUnits (quotient 1 exponent).1 (4 * (quotient 1 exponent).2) place

theorem quarter_eq (e place : Int) :
    ((quarter e place).1 : ℚ) / (quarter e place).2 = 2 ^ e / 4 / 10 ^ place := by
  have h := quotient_eq 1 e
  rw [Nat.cast_one, one_mul] at h
  rw [quarter, inUnits_eq, Nat.cast_mul, Nat.cast_ofNat, mul_comm, ← div_div, h]

theorem pos_quarter (e place : Int) : 0 < (quarter e place).1 ∧ 0 < (quarter e place).2 := by
  obtain ⟨hnum, hden⟩ := pos_quotient Nat.one_pos e
  exact pos_inUnits hnum (Nat.mul_pos (by decide) hden) place

theorem Interval.holds_iff (i : Interval) {num den candidate : Nat} (hnum : 0 < num) :
    i.holds num den candidate = true ↔ i.Contains (candidate * den / num) := by
  have hpos : (0 : ℚ) < num := by exact_mod_cast hnum
  unfold holds Contains
  split <;>
    simp only [Bool.and_eq_true, decide_eq_true_eq, le_div_iff₀ hpos, div_le_iff₀ hpos,
      lt_div_iff₀ hpos, div_lt_iff₀ hpos] <;>
    norm_cast

/-- The value's lower neighbour on the grid. -/
def lower (significand : Nat) (exponent place : Int) : Nat :=
  4 * significand * (quarter exponent place).1 / (quarter exponent place).2

/-- Whether a multiple of `10 ^ place` is in the interval. -/
def hits (significand : Nat) (exponent place : Int) (candidate : Nat) : Bool :=
  (interval significand exponent).holds (quarter exponent place).1 (quarter exponent place).2
    candidate

/-- A grid gives a neighbour that is in the interval, or neither neighbour is. -/
theorem onGrid_cases (m : Nat) (e place : Int) :
    (∃ digits, onGrid m e place = some digits ∧ hits m e place digits = true) ∨
      onGrid m e place = none ∧ hits m e place (lower m e place) = false ∧
        hits m e place (lower m e place + 1) = false := by
  unfold onGrid
  simp only []
  split
  · next hbelow habove =>
    refine .inl ?_
    split
    · exact ⟨_, rfl, hbelow⟩
    · split
      · exact ⟨_, rfl, habove⟩
      · refine ⟨_, rfl, ?_⟩
        split
        · exact hbelow
        · exact habove
  · next hbelow _ => exact .inl ⟨_, rfl, hbelow⟩
  · next _ habove => exact .inl ⟨_, rfl, habove⟩
  · next hbelow habove => exact .inr ⟨rfl, hbelow, habove⟩

theorem rounds_of_hits {digits : Nat} (h : hits m e place digits = true) :
    Rounds m e (Decimal.value ⟨digits, place⟩) := by
  obtain ⟨hnum, hden⟩ := pos_quarter e place
  have hscale : Decimal.value ⟨digits, place⟩ / (2 ^ e / 4) =
      digits * (quarter e place).2 / (quarter e place).1 := by
    rw [mul_div_assoc, ← inv_div ((quarter e place).1 : ℚ), quarter_eq, Decimal.value]
    field_simp
  rw [Rounds, hscale]
  exact ((interval m e).holds_iff hnum).1 h

/-- A candidate misses the interval when it is at or beyond one of its ends. -/
theorem Interval.beyond {i : Interval} {num den candidate : Nat}
    (h : i.holds num den candidate = false) :
    candidate * den ≤ i.low * num ∨ i.high * num ≤ candidate * den := by
  unfold holds at h
  simp only [] at h
  split at h
  all_goals
    simp only [Bool.and_eq_false_iff, decide_eq_false_iff_not] at h
    omega

/-- The interval reaches half way to the lower neighbour, or a quarter below a power of two. -/
theorem low_add (h : 0 < m) (e : Int) :
    ∃ width, (width = 2 ∨ width = 1 ∧ m = 2 ^ 52) ∧ (interval m e).low + width = 4 * m := by
  simp only [interval]
  split
  · next hpower => exact ⟨1, .inr ⟨rfl, hpower.1⟩, by omega⟩
  · exact ⟨2, .inl rfl, by omega⟩

/-- On a grid where the value has seventeen digits or more, a neighbour is in the interval. -/
theorem onGrid_ne_none (hm : Canonical m e) (hpos : 0 < m)
    (hfine : 10 ^ 16 * (quarter e place).2 ≤ 4 * m * (quarter e place).1) :
    onGrid m e place ≠ none := by
  intro hnone
  rcases onGrid_cases m e place with ⟨digits, hsome, -⟩ | ⟨-, hbelow, habove⟩
  · rw [hnone] at hsome
    cases hsome
  obtain ⟨hnum, hden⟩ := pos_quarter e place
  have hbelow := Interval.beyond hbelow
  have habove := Interval.beyond habove
  have hfrom := Nat.div_mul_le_self (4 * m * (quarter e place).1) (quarter e place).2
  have hto := Nat.lt_div_mul_add (a := 4 * m * (quarter e place).1) hden
  rw [← lower] at hfrom hto
  generalize (quarter e place).1 = num at *
  generalize (quarter e place).2 = den at *
  have hhigh : (interval m e).high * num = 4 * m * num + 2 * num := Nat.add_mul _ _ _
  obtain ⟨width, hwidth, hlow⟩ := low_add hpos e
  have hlow : (interval m e).low * num + width * num = 4 * m * num := by rw [← Nat.add_mul, hlow]
  rw [Nat.succ_mul] at habove
  -- both neighbours miss, so the grid's step is as wide as the interval
  have hstep : width * num + 2 * num ≤ den := by omega
  have hbounded := hm.bounded
  rcases hwidth with rfl | ⟨rfl, rfl⟩
  · have : 4 * 10 ^ 16 * num ≤ 4 * m * num := by omega
    have := Nat.le_of_mul_le_mul_right this hnum
    omega
  · omega

/-! ### The shortest decimal -/

/-- A number of the order `order` has seventeen digits on the grid of `10 ^ (order - 16)`. -/
theorem seventeen_digits (horder : (10 : ℚ) ^ order ≤ m * 2 ^ e) :
    10 ^ 16 * (quarter e (order - 16)).2 ≤ 4 * m * (quarter e (order - 16)).1 := by
  have h : (10 : ℚ) ^ 16 ≤
      4 * m * ((quarter e (order - 16)).1 / (quarter e (order - 16)).2) := by
    calc (10 : ℚ) ^ 16
        = 10 ^ order / 10 ^ (order - 16) := by
          rw [← zpow_sub₀ (by norm_num), sub_sub_cancel]
          norm_num
      _ ≤ m * 2 ^ e / 10 ^ (order - 16) := by gcongr
      _ = 4 * m * ((quarter e (order - 16)).1 / (quarter e (order - 16)).2) := by
          rw [quarter_eq]
          ring
  rw [← mul_div_assoc, le_div_iff₀ (by exact_mod_cast (pos_quarter e _).2)] at h
  exact_mod_cast h

theorem rounds_search (hm : Canonical m e) (hpos : 0 < m) (horder : (10 : ℚ) ^ order ≤ m * 2 ^ e) :
    ∀ fuel count, fuel + count = 18 → 0 < fuel →
      Rounds m e (search m e order fuel count).value := by
  intro fuel
  induction fuel with
  | zero => omega
  | succ fuel ih =>
    intro count hcount _
    rw [search]
    rcases onGrid_cases m e (order - count + 1) with ⟨digits, hsome, hhits⟩ | ⟨hnone, -⟩
    · rw [hsome]
      exact rounds_of_hits hhits
    · rw [hnone]
      refine ih (count + 1) (by omega) (Nat.pos_of_ne_zero fun hzero => ?_)
      -- the last grid has seventeen digits
      refine onGrid_ne_none hm hpos ?_ hnone
      have hplace : order - count + 1 = order - 16 := by omega
      rw [hplace]
      exact seventeen_digits horder

theorem value_trim (fuel : Nat) (d : Decimal) : (d.trim fuel).value = d.value := by
  induction fuel generalizing d with
  | zero => rfl
  | succ fuel ih =>
    rw [Decimal.trim]
    split
    · next h =>
      have hdigits : d.digits = d.digits / 10 * 10 := by omega
      rw [ih, Decimal.value, Decimal.value, zpow_add_one₀ (by norm_num)]
      nth_rewrite 2 [hdigits]
      push_cast
      ring
    · rfl

end Shortest

theorem rounds_shortest (hm : Canonical m e) (hpos : 0 < m) :
    Rounds m e (Decimal.shortest m e).value := by
  rw [Decimal.shortest, if_neg (by omega)]
  simp only []
  rw [value_trim]
  obtain ⟨hnum, hden⟩ := pos_quotient hpos e
  refine rounds_search hm hpos ?_ 17 1 rfl (by decide)
  rw [← quotient_eq]
  exact decimalOrder_le hnum hden

theorem Shortest.Rounds.pos (h : Rounds m e v) (hpos : 0 < m) : 0 < v := by
  obtain ⟨width, hwidth, hlow⟩ := low_add hpos e
  have hone : 1 ≤ (interval m e).low := by omega
  have hone : (1 : ℚ) ≤ (interval m e).low := by exact_mod_cast hone
  have hunit : (0 : ℚ) < 2 ^ e / 4 := by positivity
  have := (le_div_iff₀ hunit).1 (hone.trans h.le)
  linarith

theorem Binary.Canonical.eq_least (h : Canonical 0 e) : e = -1074 := by
  by_contra hne
  exact absurd (h.hidden hne) (by decide)

theorem value_shortest_eq_zero (hm : Canonical m e) :
    (Decimal.shortest m e).value = 0 ↔ m = 0 := by
  refine ⟨fun h => ?_, fun h => ?_⟩
  · by_contra hne
    have hpos := Nat.pos_of_ne_zero hne
    exact ((rounds_shortest hm hpos).pos hpos).ne' h
  · rw [Decimal.shortest, if_pos h, Decimal.value, Nat.cast_zero, zero_mul]

/-- Doubles with the same shortest decimal are the same one, up to their sign. -/
theorem shortest_injective (hm : Canonical m e) (hn : Canonical n f)
    (h : (Decimal.shortest m e).value = (Decimal.shortest n f).value) : m = n ∧ e = f := by
  by_cases hzero : m = 0
  · have hzero' : n = 0 :=
      (value_shortest_eq_zero hn).1 (h ▸ (value_shortest_eq_zero hm).2 hzero)
    subst hzero hzero'
    exact ⟨rfl, hm.eq_least.trans hn.eq_least.symm⟩
  · have hzero' : n ≠ 0 := fun hzero' =>
      hzero ((value_shortest_eq_zero hm).1 (h.trans ((value_shortest_eq_zero hn).2 hzero')))
    exact rounds_unique hm hn (rounds_shortest hm (Nat.pos_of_ne_zero hzero))
      (h ▸ rounds_shortest hn (Nat.pos_of_ne_zero hzero'))

end Behavioral
