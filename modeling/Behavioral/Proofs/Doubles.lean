import Behavioral.Expr.Atom
import Mathlib

/-!
# Equal doubles

A double is a sign, an exponent field and a fraction, and there is a single not-a-number, so reading
a double's fields and writing them back gives the double again (`pack_unpack`). Negating flips the
sign field only, so it undoes itself (`neg_neg`). Two doubles that compare equal are the same one
unless both are zeros (`eq_or_zeros_of_beq`), and so are two numbers that share a constant
(`eq_or_zeros_of_sameNumber`).
-/

namespace Behavioral

namespace Double

open Float.Model UnpackedFloat

/-- A word with the given fields. -/
abbrev word (s : Sign) (e : BitVec 11) (m : BitVec 52) : BitVec 64 :=
  packComponents Format.binary64 s e m

theorem toNat_hidden (m : BitVec 52) : (1#1 ++ m).toNat = 2 ^ 52 + m.toNat := by
  rw [BitVec.toNat_append, ← Nat.shiftLeft_add_eq_or_of_lt m.isLt]
  rfl

/-- What the fields stand for. -/
def decode (s : Sign) (e : BitVec 11) (m : BitVec 52) : UnpackedFloat :=
  if e = -1#11 then
    if m = 0#52 then .infinity s else .notANumber
  else if e = 0#11 then
    if h : m = 0#52 then .zero s
    else .finite s m.toNat (-1074) (by simpa [BitVec.toNat_pos, BitVec.pos_iff_ne_zero] using h)
  else .finite s (1#1 ++ m).toNat ((e.toNat : Int) - 1075) (by rw [toNat_hidden]; omega)

theorem fields (b : BitVec 64) : ∃ s e m, b = word s e m := by
  refine ⟨Sign.ofBitVec (@unpackSign Format.binary64 b),
    @unpackExponent Format.binary64 b, @unpackMantissa Format.binary64 b, ?_⟩
  have hs : ∀ v : BitVec 1, (Sign.ofBitVec v).toBitVec = v := by decide
  refine BitVec.eq_of_getLsbD_eq fun i hi => ?_
  simp only [word, packComponents, hs, unpackSign, unpackExponent, unpackMantissa]
  grind

theorem unpackSign_word (s : Sign) (e : BitVec 11) (m : BitVec 52) :
    Sign.ofBitVec (@unpackSign Format.binary64 (word s e m)) = s := by
  have hs : ∀ s : Sign, Sign.ofBitVec s.toBitVec = s := by
    rintro (_ | _) <;> rfl
  have h : @unpackSign Format.binary64 (word s e m) = s.toBitVec := by
    refine BitVec.eq_of_getLsbD_eq fun i hi => ?_
    simp only [word, packComponents, unpackSign]
    grind
  rw [h, hs]

theorem unpack_word (s : Sign) (e : BitVec 11) (m : BitVec 52) :
    UnpackedFloat.unpack Format.binary64 (word s e m) = decode s e m := by
  have bias : Format.binary64.exponentBias = 1023 := by decide
  unfold UnpackedFloat.unpack decode
  simp only [unpackMantissa_packComponents, unpackExponent_packComponents, unpackSign_word, bias]
  split
  · rfl
  · split
    · rename_i h
      subst h
      rfl
    · simp only [UnpackedFloat.finite.injEq, true_and]
      omega

theorem log2_lt (m : BitVec 52) (h : m ≠ 0#52) : m.toNat.log2 < 52 :=
  (Nat.log2_lt (by simpa [BitVec.toNat_eq] using h)).2 m.isLt

theorem log2_hidden (m : BitVec 52) : (1#1 ++ m).toNat.log2 = 52 := by
  rw [toNat_hidden, Nat.log2_eq_iff (by omega)]
  have := m.isLt
  omega

theorem pack_decode (s : Sign) (e : BitVec 11) (m : BitVec 52) (h : e = -1#11 → m = 0#52) :
    UnpackedFloat.pack Format.binary64 (decode s e m) = word s e m := by
  have bias : Format.binary64.exponentBias = 1023 := by decide
  unfold decode
  split
  · rename_i he
    rw [if_pos (h he), he, h he]
    rfl
  · rename_i he
    split
    · rename_i h0
      split
      · rename_i hm
        rw [h0, hm]
        rfl
      · rename_i hm
        have := log2_lt m hm
        simp [UnpackedFloat.pack, bias, h0, Format.mantissaBits, word]
        omega
    · have : e.toNat + 1 < 2 ^ 11 := by
        have : e.toNat ≠ 2047 := fun h => he (BitVec.eq_of_toNat_eq h)
        omega
      have back : ((e.toNat : Int) - 1075 + 1023 + 52).toNat = e.toNat := by omega
      have low : BitVec.setWidth 52 (1#1 ++ m) = m := by
        apply BitVec.eq_of_toNat_eq
        rw [BitVec.toNat_setWidth, toNat_hidden]
        have := m.isLt
        omega
      simp [UnpackedFloat.pack, bias, Format.mantissaBits, word, log2_hidden, back, low]
      omega

theorem unpack_pack_decode (s : Sign) (e : BitVec 11) (m : BitVec 52) :
    UnpackedFloat.unpack Format.binary64 (UnpackedFloat.pack Format.binary64 (decode s e m)) =
      decode s e m := by
  by_cases h : e = -1#11 → m = 0#52
  · rw [pack_decode s e m h, unpack_word]
  · have : decode s e m = .notANumber := by
      simp only [Classical.not_imp] at h
      rw [decode, if_pos h.1, if_neg h.2]
    rw [this]
    rfl

theorem neg_decode (s : Sign) (e : BitVec 11) (m : BitVec 52) :
    (decode s e m).neg = decode (-s) e m := by
  unfold decode
  split
  · split <;> rfl
  · split
    · split <;> rfl
    · rfl

theorem exists_decode (x : Float.Model) : ∃ s e m, x.unpack = decode s e m := by
  obtain ⟨s, e, m, h⟩ := fields x.toBits.toBitVec
  refine ⟨s, e, m, ?_⟩
  rw [Float.Model.unpack, h, unpack_word]

/-- Reading a double's fields and writing them back gives the double. -/
theorem pack_unpack (x : Float.Model) : Float.Model.pack x.unpack = x := by
  obtain ⟨⟨bits⟩, valid⟩ := x
  obtain ⟨s, e, m, rfl⟩ := fields bits
  suffices h : UnpackedFloat.pack Format.binary64 (decode s e m) = word s e m by
    simp only [Float.Model.pack, Float.Model.unpack, unpack_word, h]
  by_cases h : e = -1#11 → m = 0#52
  · exact pack_decode s e m h
  · simp only [Classical.not_imp] at h
    have := valid.eq_packedNaN
    simp only [word, unpackExponent_packComponents, unpackMantissa_packComponents] at this
    rw [decode, if_pos h.1, if_neg h.2, word, this h.1 h.2]
    rfl

theorem unpack_neg (x : Float.Model) : (-x).unpack = x.unpack.neg := by
  obtain ⟨s, e, m, h⟩ := exists_decode x
  show (Float.Model.pack x.unpack.neg).unpack = _
  rw [h, neg_decode]
  exact unpack_pack_decode (-s) e m

theorem neg_neg (x : Float) : - -x = x := by
  have back : ∀ u : UnpackedFloat, u.neg.neg = u := by
    have signs : ∀ s : Sign, - -s = s := by rintro (_ | _) <;> rfl
    rintro (s | _ | s | ⟨s, m, e, h⟩) <;> simp [UnpackedFloat.neg, signs]
  obtain ⟨x⟩ := x
  show Float.ofModel (Float.Model.pack (-x).unpack.neg) = _
  rw [unpack_neg, back, pack_unpack]

theorem unpack_injective {x y : Float.Model} (h : x.unpack = y.unpack) : x = y := by
  rw [← pack_unpack x, h, pack_unpack]

theorem eq_or_zero_of_compare {u v : UnpackedFloat} (h : u.compare v = some .eq) :
    u = v ∨ (∃ s, u = .zero s) ∧ ∃ s, v = .zero s := by
  have same : ∀ {m n : Nat} {e f : Int},
      (compare e f).then (compare m n) = .eq → m = n ∧ e = f := by
    intro m n e f h
    rw [Ordering.then_eq_eq] at h
    exact ⟨Nat.compare_eq_eq.1 h.2, Int.compare_eq_eq.1 h.1⟩
  rcases u with (_ | _) | _ | s | ⟨(_ | _), m, e, _⟩ <;>
    rcases v with (_ | _) | _ | s | ⟨(_ | _), n, f, _⟩ <;>
    first | (left; rfl) | (right; exact ⟨⟨_, rfl⟩, ⟨_, rfl⟩⟩) | cases h | skip
  all_goals
    simp only [UnpackedFloat.compare, Option.some.injEq, Ordering.swap_eq_eq] at h
    obtain ⟨rfl, rfl⟩ := same h
    exact .inl rfl

/-- Doubles that compare equal are the same one, or are zeros. -/
theorem eq_or_zeros_of_beq {x y : Float} (h : (x == y) = true) :
    x = y ∨ (x = 0 ∨ x = -0) ∧ (y = 0 ∨ y = -0) := by
  have zero : ∀ (x : Float.Model) (s : Sign), x.unpack = .zero s →
      Float.ofModel x = 0 ∨ Float.ofModel x = -0 := by
    intro x s hx
    rw [← pack_unpack x, hx]
    cases s
    · right
      decide +kernel
    · left
      decide +kernel
  obtain ⟨x⟩ := x
  obtain ⟨y⟩ := y
  rcases eq_or_zero_of_compare (eq_of_beq h) with h | ⟨⟨s, hx⟩, t, hy⟩
  · exact .inl (congrArg Float.ofModel (unpack_injective h))
  · exact .inr ⟨zero x s hx, zero y t hy⟩

theorem eq_of_isNaN {x y : Float} (hx : x.isNaN = true) (hy : y.isNaN = true) : x = y := by
  have nan : ∀ {u : UnpackedFloat}, u.isNaN = true → u = .notANumber := by
    rintro (_ | _ | _ | _) h <;> first | rfl | cases h
  obtain ⟨x⟩ := x
  obtain ⟨y⟩ := y
  exact congrArg Float.ofModel (unpack_injective ((nan hx).trans (nan hy).symm))

/-- Numbers that share a constant are the same one, or are zeros. -/
theorem eq_or_zeros_of_sameNumber {x y : Float} (h : Atom.sameNumber x y = true) :
    x = y ∨ (x = 0 ∨ x = -0) ∧ (y = 0 ∨ y = -0) := by
  simp only [Atom.sameNumber, Bool.or_eq_true, Bool.and_eq_true] at h
  rcases h with ⟨hx, hy⟩ | h
  · exact .inl (eq_of_isNaN hx hy)
  · exact eq_or_zeros_of_beq h

theorem eq_two_of_beq {x : Float} (h : (x == 2) = true) : x = 2 := by
  rcases eq_or_zeros_of_beq h with h | ⟨_, h⟩
  · exact h
  · have : ¬((2 : Float) = 0 ∨ (2 : Float) = -0) := by decide +kernel
    exact absurd h this

theorem not_not_ofBool (b : Bool) :
    UnaryOp.apply .not (UnaryOp.apply .not (ofBool b)) = ofBool b := by
  cases b <;> decide +kernel

theorem boolean_apply {op : BinaryOp} (h : op.isBoolean = true) (x y : Float) :
    ∃ b, op.apply x y = ofBool b := by
  cases op <;> first | exact ⟨_, rfl⟩ | cases h

end Double

end Behavioral
