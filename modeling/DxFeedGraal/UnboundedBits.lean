import DxFeedGraal.FixedWidthIntegers
import Mathlib.Data.Int.Bitwise

/-! # The bits of an unbounded integer

A word of a fixed width holds the low bits of an integer in two's complement. Conversions and
shifts are read off one bit at a time, without a case for each width or sign. -/
namespace UnboundedBits

open FixedWidthIntegers

variable {α : Type} [Integral α]

theorem getLsbD_ofInt (w : ℕ) (z : ℤ) (i : ℕ) :
    (BitVec.ofInt w z).getLsbD i = (decide (i < w) && z.testBit i) := by
  cases z with
  | ofNat n =>
    change (BitVec.ofInt w (n : ℤ)).getLsbD i = _
    rw [BitVec.ofInt_natCast, BitVec.getLsbD_ofNat]
    rfl
  | negSucc n =>
    rw [BitVec.ofInt_negSucc_eq_not_ofNat, BitVec.getLsbD_not, BitVec.getLsbD_ofNat]
    cases decide (i < w) with
    | false => rfl
    | true => rfl

theorem testBit_eq_getLsbD {w i : ℕ} (h : i < w) (z : ℤ) :
    z.testBit i = (BitVec.ofInt w z).getLsbD i := by
  rw [getLsbD_ofInt, decide_eq_true h, Bool.true_and]

theorem testBit_neg_one (i : ℕ) : (-1 : ℤ).testBit i = true := by
  change (!(0 : ℕ).testBit i) = true
  simp

theorem testBit_of_lt_two_pow {z : ℤ} {k i : ℕ} (h : 0 ≤ z) (hz : z < 2 ^ k) (hi : k ≤ i) :
    z.testBit i = false := by
  obtain ⟨n, rfl⟩ := Int.eq_ofNat_of_zero_le h
  have hn : n < 2 ^ k := by exact_mod_cast hz
  exact Nat.testBit_lt_two_pow (hn.trans_le (Nat.pow_le_pow_right (by decide) hi))

/-- An integer without bits from a position on is small. -/
theorem lt_two_pow_of_testBit {z : ℤ} {k : ℕ} (h : 0 ≤ z)
    (hz : ∀ i, k ≤ i → z.testBit i = false) : z < 2 ^ k := by
  obtain ⟨n, rfl⟩ := Int.eq_ofNat_of_zero_le h
  have hn : n < 2 ^ k := Nat.lt_pow_two_of_testBit n fun i hi => hz i hi
  exact_mod_cast hn

theorem ofInt_two_pow (w n : ℕ) : BitVec.ofInt w (2 ^ n) = BitVec.twoPow w n := by
  apply BitVec.eq_of_toNat_eq
  have : (2 : ℤ) ^ n = ((2 ^ n : ℕ) : ℤ) := by push_cast; rfl
  rw [this, BitVec.ofInt_natCast, BitVec.toNat_ofNat, BitVec.toNat_twoPow]

theorem testBit_mul_two_pow (z : ℤ) (n i : ℕ) :
    (z * 2 ^ n).testBit i = (decide (n ≤ i) && z.testBit (i - n)) := by
  have hi : i < i + 1 := Nat.lt_succ_self i
  rw [testBit_eq_getLsbD hi, BitVec.ofInt_mul, ofInt_two_pow, ← BitVec.shiftLeft_eq_mul_twoPow,
    BitVec.getLsbD_shiftLeft, getLsbD_ofInt]
  by_cases h : n ≤ i
  · simp [h, show i - n < i + 1 by omega]
  · simp [h, Nat.lt_of_not_le h]

/-! ## Shifts by a count of either sign -/

theorem shiftLeft_of_nonneg {z count : ℤ} (h : 0 ≤ count) :
    z <<< count = z * 2 ^ count.natAbs := by
  obtain ⟨n, rfl⟩ := Int.eq_ofNat_of_zero_le h
  rw [Int.shiftLeft_eq_mul_pow]
  push_cast
  rfl

theorem shiftLeft_of_neg {z count : ℤ} (h : count < 0) : z <<< count = z / 2 ^ count.natAbs := by
  obtain ⟨n, hn⟩ := Int.eq_ofNat_of_zero_le (show 0 ≤ -count by omega)
  obtain rfl : count = -(n : ℤ) := by omega
  rw [Int.shiftLeft_neg, Int.shiftRight_natCast_right, Int.shiftRight_eq_div_pow]
  simp

theorem shiftRight_of_nonneg {z count : ℤ} (h : 0 ≤ count) :
    z >>> count = z / 2 ^ count.natAbs := by
  obtain ⟨n, rfl⟩ := Int.eq_ofNat_of_zero_le h
  rw [Int.shiftRight_natCast_right, Int.shiftRight_eq_div_pow]
  simp

theorem shiftRight_of_neg {z count : ℤ} (h : count < 0) :
    z >>> count = z * 2 ^ count.natAbs := by
  rw [← Int.shiftLeft_neg, shiftLeft_of_nonneg (by omega), Int.natAbs_neg]

theorem testBit_shiftLeft (z : ℤ) (n i : ℕ) :
    (z <<< (n : ℤ)).testBit i = (decide (n ≤ i) && z.testBit (i - n)) := by
  rw [shiftLeft_of_nonneg (Int.natCast_nonneg n), Int.natAbs_natCast, testBit_mul_two_pow]

/-! ## Words -/

theorem getLsbD_toBits (a : α) (i : ℕ) :
    (Integral.toBits a).getLsbD i = (decide (i < Integral.bits α) && (value a).testBit i) := by
  have h : Integral.toBits (wrap (value a) : α) = Integral.toBits a := by rw [wrap_value]
  rw [← h, wrap, Integral.toBits_ofBits, getLsbD_ofInt]

theorem getLsbD_wrap (z : ℤ) (i : ℕ) : (Integral.toBits (wrap z : α)).getLsbD i =
    (decide (i < Integral.bits α) && z.testBit i) := by
  rw [wrap, Integral.toBits_ofBits, getLsbD_ofInt]

theorem ext_of_bits {a b : α} (h : ∀ i < Integral.bits α,
    (Integral.toBits a).getLsbD i = (Integral.toBits b).getLsbD i) : a = b := by
  rw [← Integral.ofBits_toBits a, ← Integral.ofBits_toBits b, BitVec.eq_of_getLsbD_eq h]

/-- The low bits decide the value of a type. -/
theorem wrap_congr {y z : ℤ} (h : y % 2 ^ Integral.bits α = z % 2 ^ Integral.bits α) :
    (wrap y : α) = wrap z := by
  have hofInt : BitVec.ofInt (Integral.bits α) y = BitVec.ofInt (Integral.bits α) z := by
    apply BitVec.eq_of_toNat_eq
    simp [BitVec.toNat_ofInt, h]
  rw [wrap, wrap, hofInt]

theorem testBit_value_unsigned (hs : Integral.signed α = false) (a : α) {i : ℕ}
    (hi : Integral.bits α ≤ i) : (value a).testBit i = false := by
  have hv : value a = ((Integral.toBits a).toNat : ℤ) := by simp [value, hs]
  rw [hv]
  exact Nat.testBit_lt_two_pow ((Integral.toBits a).isLt.trans_le
    (Nat.pow_le_pow_right (by decide) hi))

/-! ## Patterns moved inside a word -/

theorem testBit_pattern (w : ℕ) (z : ℤ) (i : ℕ) :
    (pattern w z).testBit i = (decide (i < w) && z.testBit i) := by
  rw [pattern, BitVec.testBit_toNat, getLsbD_ofInt]

/-- A pattern moved up stays inside its word when no bit of it is set near the top. -/
theorem pattern_mul_two_pow_lt_iff {w n : ℕ} {z : ℤ} :
    pattern w z * 2 ^ n < 2 ^ w ↔ ∀ i < w, w ≤ n + i → z.testBit i = false := by
  constructor
  · intro h i hi htop
    cases hz : z.testBit i with
    | false => rfl
    | true =>
      have hbit : (pattern w z).testBit i = true := by
        rw [testBit_pattern, hz, decide_eq_true hi, Bool.true_and]
      have hge : 2 ^ w ≤ pattern w z * 2 ^ n := by
        calc 2 ^ w ≤ 2 ^ (i + n) := Nat.pow_le_pow_right (by decide) (by omega)
          _ = 2 ^ i * 2 ^ n := Nat.pow_add ..
          _ ≤ pattern w z * 2 ^ n := Nat.mul_le_mul_right _ (Nat.ge_two_pow_of_testBit hbit)
      omega
  · intro h
    have hlow : ∀ i, w - n ≤ i → (pattern w z).testBit i = false := by
      intro i hi
      rw [testBit_pattern]
      by_cases hw : i < w
      · rw [h i hw (by omega), Bool.and_false]
      · rw [decide_eq_false hw, Bool.false_and]
    have hlt : pattern w z < 2 ^ (w - n) := Nat.lt_pow_two_of_testBit _ hlow
    rcases le_total n w with hn | hn
    · calc pattern w z * 2 ^ n < 2 ^ (w - n) * 2 ^ n :=
            Nat.mul_lt_mul_of_pos_right hlt (by positivity)
        _ = 2 ^ w := by rw [← Nat.pow_add, Nat.sub_add_cancel hn]
    · have hzero : pattern w z = 0 := by
        rw [Nat.sub_eq_zero_of_le hn] at hlt
        omega
      rw [hzero, Nat.zero_mul]
      positivity

end UnboundedBits
