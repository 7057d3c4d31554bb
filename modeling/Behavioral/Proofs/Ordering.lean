import Behavioral.Proofs.NumberTexts

/-!
# The order of doubles

Doubles that are numbers are ordered by a rank: the sign first, then the exponent and the
significand, which run the other way for negative numbers (`lt_iff`, `le_iff`). So their comparisons
are those of a linear order, in which the two zeros share a place.

A difference of two doubles is zero only if they are equal, because no two are closer to each other
than the least positive double: where `x < y`, the rounded difference is positive (`sub_pos_of_lt`).
-/

namespace Behavioral

namespace Double

open Float.Model UnpackedFloat

variable {u v : UnpackedFloat} {x y z : Float}

/-! ### Ranks -/

/-- Where a number stands among the others. -/
def rank : UnpackedFloat → ℤ ×ₗ ℤ ×ₗ ℤ
  | .infinity .negative => toLex (-2, toLex (0, 0))
  | .finite .negative m e _ => toLex (-1, toLex (-e, -m))
  | .notANumber | .zero _ => toLex (0, toLex (0, 0))
  | .finite .positive m e _ => toLex (1, toLex (e, m))
  | .infinity .positive => toLex (2, toLex (0, 0))

theorem then_compare (e f : ℤ) (m n : Nat) : (compare e f).then (compare m n) =
    if e < f ∨ e = f ∧ m < n then .lt else if f < e ∨ f = e ∧ n < m then .gt else .eq := by
  rcases lt_trichotomy e f with h | rfl | h
  · simp [compare_lt_iff_lt.2 h, h]
  · rw [compare_eq_iff_eq.2 rfl, Ordering.then]
    rcases lt_trichotomy m n with h | rfl | h
    · simp [compare_lt_iff_lt.2 h, h]
    · simp
    · simp [compare_gt_iff_gt.2 h, h, h.le]
  · simp [compare_gt_iff_gt.2 h, h, h.not_gt, h.ne']

/-- Numbers compare as their ranks do. -/
theorem compare_eq (hu : u.isNaN = false) (hv : v.isNaN = false) :
    u.compare v = some (cmp (rank u) (rank v)) := by
  rcases u with (_ | _) | _ | s | ⟨_ | _, m, e, hm⟩ <;> try cases hu
  all_goals
    rcases v with (_ | _) | _ | t | ⟨_ | _, n, f, hn⟩ <;> try cases hv
  all_goals
    simp only [UnpackedFloat.compare, rank, cmp, cmpUsing, Prod.Lex.toLex_lt_toLex,
      Option.some.injEq, neg_lt_neg_iff, neg_inj, Int.ofNat_lt, lt_irrefl, then_compare, true_and,
      false_or]
  all_goals try rfl
  split_ifs <;> first | rfl | omega

theorem lt_def : x < y ↔ x.toModel.unpack.compare y.toModel.unpack = some .lt := by
  show decide (x.toModel < y.toModel) = true ↔ _
  rw [decide_eq_true_iff]
  exact beq_iff_eq

theorem le_def : x ≤ y ↔ (x.toModel.unpack.compare y.toModel.unpack).any (·.isLE) = true := by
  show decide (x.toModel ≤ y.toModel) = true ↔ _
  rw [decide_eq_true_iff]
  rfl

theorem lt_iff (hx : x.isNaN = false) (hy : y.isNaN = false) :
    x < y ↔ rank x.toModel.unpack < rank y.toModel.unpack := by
  rw [lt_def, compare_eq hx hy, Option.some_inj, cmp_eq_lt_iff]

theorem le_iff (hx : x.isNaN = false) (hy : y.isNaN = false) :
    x ≤ y ↔ rank x.toModel.unpack ≤ rank y.toModel.unpack := by
  rw [le_def, compare_eq hx hy]
  rcases lt_trichotomy (rank x.toModel.unpack) (rank y.toModel.unpack) with h | h | h
  · simp [h.le, (cmp_eq_lt_iff _ _).2 h]
  · simp [h]
  · simp [h.not_ge, (cmp_eq_gt_iff _ _).2 h]

theorem beq_iff (hx : x.isNaN = false) (hy : y.isNaN = false) :
    (x == y) = true ↔ rank x.toModel.unpack = rank y.toModel.unpack := by
  show (x.toModel.unpack.compare y.toModel.unpack == some .eq) = true ↔ _
  rw [beq_iff_eq, compare_eq hx hy, Option.some_inj, cmp_eq_eq_iff]

/-- Nothing is left of what is not a number. -/
theorem not_lt_of_isNaN (hy : y.isNaN = true) : ¬x < y := by
  rw [lt_def]
  have hnan : y.toModel.unpack.isNaN = true := hy
  generalize y.toModel.unpack = v at hnan
  cases v <;> cases hnan
  generalize x.toModel.unpack = u
  cases u <;> nofun

theorem not_lt_iff (hx : x.isNaN = false) (hy : y.isNaN = false) : ¬x < y ↔ y ≤ x := by
  rw [lt_iff hx hy, le_iff hy hx, not_lt]

theorem trans_lt_le (hx : x.isNaN = false) (hy : y.isNaN = false) (hz : z.isNaN = false)
    (h : x < y) (h' : y ≤ z) : x < z :=
  (lt_iff hx hz).2 (((lt_iff hx hy).1 h).trans_le ((le_iff hy hz).1 h'))

theorem trans_le_lt (hx : x.isNaN = false) (hy : y.isNaN = false) (hz : z.isNaN = false)
    (h : x ≤ y) (h' : y < z) : x < z :=
  (lt_iff hx hz).2 (((le_iff hx hy).1 h).trans_lt ((lt_iff hy hz).1 h'))

theorem trans_le (hx : x.isNaN = false) (hy : y.isNaN = false) (hz : z.isNaN = false)
    (h : x ≤ y) (h' : y ≤ z) : x ≤ z :=
  (le_iff hx hz).2 (((le_iff hx hy).1 h).trans ((le_iff hy hz).1 h'))

theorem beq_of_le (hx : x.isNaN = false) (hy : y.isNaN = false) (h : x ≤ y) (h' : y ≤ x) :
    (x == y) = true :=
  (beq_iff hx hy).2 (((le_iff hx hy).1 h).antisymm ((le_iff hy hx).1 h'))

/-! ### Differences -/

theorem canonical_unpack {s : UnpackedFloat.Sign} {m : Nat} {e : ℤ} {hm : 0 < m}
    (h : x.toModel.unpack = .finite s m e hm) : Binary.Canonical m e := by
  have hfinite : x.isFinite = true := by
    show x.toModel.unpack.isFinite = true
    rw [h]
    rfl
  obtain ⟨negative, n, f, hx, hcanonical⟩ := ofFloat_finite hfinite
  rw [ofFloat_eq, h] at hx
  cases hx
  exact hcanonical

/-- What is greater in exponent or significand is greater at a common exponent. -/
theorem shiftLeft_lt {m n : Nat} {e f : ℤ} (hm : Binary.Canonical m e) (hn : Binary.Canonical n f)
    (h : e < f ∨ e = f ∧ m < n) :
    m <<< (e - min e f).toNat < n <<< (f - min e f).toNat := by
  rcases h with h | ⟨rfl, h⟩
  · have hhidden := hn.hidden (by have := hm.least; omega)
    have hbounded := hm.bounded
    obtain ⟨k, hk⟩ : ∃ k, (f - e).toNat = k + 1 := ⟨(f - e).toNat - 1, by omega⟩
    have hpow : 1 ≤ 2 ^ k := Nat.one_le_two_pow
    rw [min_eq_left h.le, hk, Nat.shiftLeft_eq, Nat.shiftLeft_eq, sub_self, Nat.pow_succ]
    have := Nat.mul_le_mul hhidden hpow
    simp only [Int.toNat_zero, Nat.pow_zero, ← Nat.mul_assoc]
    omega
  · simpa using h

theorem targetExponent_eq (t : ℤ) : Format.binary64.targetExponent t = max (t - 53) (-1074) := by
  rfl

theorem mantissa_shiftRight (em : ExtendedMantissa) (k : Nat) :
    (em >>> k).mantissa = em.mantissa / 2 ^ k := by
  induction k with
  | zero => simp [HShiftRight.hShiftRight, Nat.repeat]
  | succ k ih =>
    show (em >>> k).mantissa / 2 = _
    rw [ih, Nat.div_div_eq_div_mul, Nat.pow_succ]

theorem mantissa_ofExact (m : Nat) :
    (ExtendedMantissa.ofMantissaAndAccuracy m .exact).mantissa = m := rfl

theorem le_roundedMantissa (em : ExtendedMantissa) : em.mantissa ≤ em.roundedMantissa := by
  obtain ⟨m, round, sticky⟩ := em
  cases round <;> cases sticky <;> simp [ExtendedMantissa.roundedMantissa,
    ExtendedMantissa.accuracy, Accuracy.roundToNearestEven]

/-- Above the least exponent, a shift to the exponent of the format drops no significand to zero
and leaves at most 53 bits. -/
theorem shift_bounds {m : Nat} {e : ℤ} (hm : 0 < m) (he : -1074 ≤ e) {k : Nat}
    (hk : k = (Format.binary64.targetExponent (totalExponent m e) - e).toNat) :
    0 < m / 2 ^ k ∧ m / 2 ^ k < 2 ^ 53 := by
  have hlog : k = m.log2 - 52 := by
    rw [hk, targetExponent_eq, totalExponent]
    omega
  constructor
  · exact Nat.div_pos ((Nat.le_log2 hm.ne').1 (by omega)) (Nat.two_pow_pos k)
  · rw [Nat.div_lt_iff_lt_mul (Nat.two_pow_pos k), ← Nat.pow_add, ← Nat.log2_lt hm.ne']
    omega

theorem roundWithAccuracy_finite {m : Nat} {e : ℤ} (s : UnpackedFloat.Sign) (hm : 0 < m)
    (he : -1074 ≤ e) :
    ∃ n f hn, roundWithAccuracy Format.binary64 s m e .exact = .finite s n f hn ∧ n < 2 ^ 53 ∧
      -1074 ≤ f := by
  obtain ⟨hpos, -⟩ := shift_bounds hm he rfl
  let k := (Format.binary64.targetExponent (totalExponent m e) - e).toNat
  let n := (ExtendedMantissa.ofMantissaAndAccuracy m .exact >>> k).roundedMantissa
  have hn : 0 < n := by
    have := le_roundedMantissa (ExtendedMantissa.ofMantissaAndAccuracy m .exact >>> k)
    rw [mantissa_shiftRight, mantissa_ofExact] at this
    exact lt_of_lt_of_le hpos this
  obtain ⟨hpos', hbound⟩ := shift_bounds hn (e := e + k) (by omega) rfl
  simp only [roundWithAccuracy, shiftToTargetExponent, shiftToExponent, mantissa_shiftRight,
    mantissa_ofExact]
  rw [dif_neg hpos'.ne']
  exact ⟨_, _, hpos', rfl, hbound, by omega⟩

/-- Nothing positive is rounded to zero. -/
theorem round_finite {m : Nat} {e : ℤ} (s : UnpackedFloat.Sign) (hm : 0 < m) (he : -1074 ≤ e) :
    ∃ n f hn, UnpackedFloat.round Format.binary64 s m e = .finite s n f hn ∧ n < 2 ^ 53 ∧
      -1074 ≤ f := by
  refine roundWithAccuracy_finite s ?_ ?_
  · rw [Nat.shiftLeft_eq]
    exact Nat.mul_pos hm (Nat.two_pow_pos _)
  · rw [targetExponent_eq]
    omega

/-- A positive number that is packed without losing its significand. -/
def Positive (w : UnpackedFloat) : Prop :=
  w = .infinity .positive ∨
    ∃ m e hm, w = .finite .positive m e hm ∧ m < 2 ^ 53 ∧ -1074 ≤ e

/-- The fields of a positive number say whether it is infinite, and are not those of zero. -/
theorem pack_positive {m : Nat} {e : ℤ} (hm : 0 < m) (hbound : m < 2 ^ 53) (he : -1074 ≤ e) :
    ∃ (field : BitVec 11) (fraction : BitVec 52),
      UnpackedFloat.pack Format.binary64 (.finite .positive m e hm) =
        word .positive field fraction ∧
      (field = -1#11 → fraction = 0#52) ∧ (field = 0#11 → fraction ≠ 0#52) := by
  have bias : Format.binary64.exponentBias = 1023 := by decide
  have hlog := (Nat.log2_lt hm.ne').2 hbound
  simp only [UnpackedFloat.pack, bias, Format.mantissaBits]
  split
  · exact ⟨_, _, rfl, fun _ => rfl, by decide⟩
  · split
    · refine ⟨_, _, rfl, fun h => ?_, fun h => ?_⟩
      · have := congrArg BitVec.toNat h
        simp at this
        omega
      · have := congrArg BitVec.toNat h
        simp at this
        omega
    · refine ⟨_, _, rfl, fun h => absurd h (by decide), fun _ h => ?_⟩
      have hsmall : m < 2 ^ 52 := (Nat.log2_lt hm.ne').1 (by omega)
      have := congrArg BitVec.toNat h
      rw [BitVec.toNat_ofNat, Nat.mod_eq_of_lt hsmall] at this
      exact hm.ne' this

theorem Positive.compare {w : UnpackedFloat} (h : Positive w) :
    UnpackedFloat.compare (.zero .positive)
      (UnpackedFloat.unpack Format.binary64 (UnpackedFloat.pack Format.binary64 w)) = some .lt := by
  obtain rfl | ⟨m, e, hm, rfl, hbound, he⟩ := h
  · decide
  · obtain ⟨field, fraction, hpack, hinfinite, hzero⟩ := pack_positive hm hbound he
    rw [hpack, unpack_word, decode]
    split
    · rw [if_pos (hinfinite ‹_›)]
      rfl
    · split
      · rw [dif_neg (hzero ‹_›)]
        rfl
      · rfl

theorem positive_normalize {d e : ℤ} (hd : 0 < d) (he : -1074 ≤ e) :
    Positive (UnpackedFloat.normalize Format.binary64 d e .positive) := by
  obtain ⟨n, f, hn, hround, hbound, hf⟩ := round_finite .positive (m := d.toNat) (by omega) he
  rw [UnpackedFloat.normalize, compare_gt_iff_gt.2 hd]
  exact .inr ⟨n, f, hn, hround, hbound, hf⟩

theorem unpack_zero : (0 : Float).toModel.unpack = .zero .positive := by
  have h : (0 : Float) = Float.ofModel (.pack (.zero .positive)) := by decide +kernel
  rw [h]
  rfl

theorem shiftLeft_pos {m : Nat} (hm : 0 < m) (k : Nat) : 0 < m <<< k := by
  rw [Nat.shiftLeft_eq]
  exact Nat.mul_pos hm (Nat.two_pow_pos k)

/-- A difference of numbers of different rank is exact before it is rounded. -/
theorem positive_sub (hu : ∀ {s m e hm}, u = .finite s m e hm → Binary.Canonical m e)
    (hv : ∀ {s m e hm}, v = .finite s m e hm → Binary.Canonical m e)
    (h : u.compare v = some .lt) : Positive (UnpackedFloat.sub Format.binary64 v u) := by
  rcases u with (_ | _) | _ | s | ⟨_ | _, m, e, hm⟩ <;>
    rcases v with (_ | _) | _ | t | ⟨_ | _, n, f, hn⟩ <;>
    first | cases h | skip
  -- one of them is infinite
  all_goals first | exact .inl rfl | skip
  · exact .inr ⟨n, f, hn, rfl, (hv rfl).bounded, (hv rfl).least⟩
  · exact .inr ⟨m, e, hm, rfl, (hu rfl).bounded, (hu rfl).least⟩
  · have hleast := (hu rfl).least
    have hlt : f < e ∨ f = e ∧ n < m := by
      simp only [UnpackedFloat.compare, then_compare, Option.some.injEq, Ordering.swap_eq_lt] at h
      grind
    have := shiftLeft_lt (hv rfl) (hu rfl) hlt
    refine positive_normalize ?_ (le_min (hv rfl).least hleast)
    simp only [UnpackedFloat.Sign.apply]
    omega
  · refine positive_normalize ?_ (le_min (hv rfl).least (hu rfl).least)
    have := shiftLeft_pos hm (e - min f e).toNat
    have := shiftLeft_pos hn (f - min f e).toNat
    simp only [UnpackedFloat.Sign.apply]
    omega
  · have hlt : e < f ∨ e = f ∧ m < n := by
      simp only [UnpackedFloat.compare, then_compare, Option.some.injEq] at h
      grind
    have := shiftLeft_lt (hu rfl) (hv rfl) hlt
    refine positive_normalize ?_ (le_min (hv rfl).least (hu rfl).least)
    rw [min_comm] at this
    simp only [UnpackedFloat.Sign.apply]
    omega

/-- The difference of two doubles that differ is not rounded to zero. -/
theorem sub_pos_of_lt (h : x < y) : 0 < y - x := by
  rw [lt_def, unpack_zero]
  exact (positive_sub canonical_unpack canonical_unpack (lt_def.1 h)).compare

end Double

end Behavioral
