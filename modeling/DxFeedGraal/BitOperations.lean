import DxFeedGraal.FixedWidthIntegers
import Mathlib.Tactic.Linarith

/-! # The shift and mask helpers shared by the event classes

The templates take operands of any two integral types and compute in the unsigned
type of the larger operand. Every packed field of an event goes through them. -/
namespace BitOperations

open FixedWidthIntegers

variable {A B V S F M : Type} [Integral A] [Integral B] [Integral V] [Integral S] [Integral F]
  [Integral M]

/-- `value << n` with the guards of the source: no shift, and counts of the width or more. -/
def leftShift (v : V) (n : ℕ) : V :=
  if n = 0 ∨ value v = 0 then v
  else if Integral.bits V ≤ n then wrap 0
  else wrap (value v * 2 ^ n)

def arithmeticRightShift (v : V) (n : ℕ) : V :=
  if n = 0 ∨ value v = 0 then v
  else if Integral.bits V ≤ n then wrap (if value v < 0 then -1 else 0)
  else wrap (value v / 2 ^ n)

def logicalRightShift (v : V) (n : ℕ) : V :=
  if n = 0 ∨ value v = 0 then v
  else if Integral.bits V ≤ n then wrap 0
  else wrap ((Integral.toBits v).toNat / 2 ^ n)

/-- A negative count shifts the other way. -/
def sal (v : V) (shift : S) : V :=
  if value shift < 0 then arithmeticRightShift v (value shift).natAbs
  else leftShift v (value shift).natAbs

def sar (v : V) (shift : S) : V :=
  if value shift < 0 then leftShift v (value shift).natAbs
  else arithmeticRightShift v (value shift).natAbs

def shl (v : V) (shift : S) : V :=
  if value shift < 0 then logicalRightShift v (value shift).natAbs
  else leftShift v (value shift).natAbs

def shr (v : V) (shift : S) : V :=
  if value shift < 0 then leftShift v (value shift).natAbs
  else logicalRightShift v (value shift).natAbs

/-- The width of `std::make_unsigned_t<Max<A, B>>`. -/
def commonBits (A B : Type) [Integral A] [Integral B] : ℕ :=
  if Integral.bits A ≥ Integral.bits B then Integral.bits A else Integral.bits B

def toCommon (A B : Type) [Integral A] [Integral B] (z : ℤ) : BitVec (commonBits A B) :=
  BitVec.ofInt (commonBits A B) z

def andOp (a : A) (b : B) : A :=
  wrap ((toCommon A B (value a) &&& toCommon A B (value b)).toNat : ℤ)

def orOp (a : A) (b : B) : A :=
  wrap ((toCommon A B (value a) ||| toCommon A B (value b)).toNat : ℤ)

def getBits (flags : F) (mask : M) (shift : S) : F := andOp (shr flags shift) mask

/-- The width of `std::make_unsigned_t<Max<F, M, S, B>>`. -/
def maxBits (F M S B : Type) [Integral F] [Integral M] [Integral S] [Integral B] : ℕ :=
  max (Integral.bits F) (max (Integral.bits M) (max (Integral.bits S) (Integral.bits B)))

/-- Operands narrower than `int` are promoted to it. -/
def promotedBits (A : Type) [Integral A] : ℕ := max 32 (Integral.bits A)

def isPromoted (A : Type) [Integral A] : Bool := Integral.bits A < 32

/-- A conversion keeps the value, which only a promoted operand can have negative. -/
def convert {m : ℕ} (promoted : Bool) (n : ℕ) (x : BitVec m) : BitVec n :=
  if promoted then x.signExtend n else x.setWidth n

/-- One unsigned type for all operands where some type is signed, else plain arithmetic. -/
def setBits (flags : F) (mask : M) (shift : S) (bits : B) : F :=
  if Integral.signed F || Integral.signed M || Integral.signed S || Integral.signed B then
    let U := maxBits F M S B
    let m := BitVec.ofInt U (value mask)
    let n := (BitVec.ofInt U (value shift)).toNat
    wrap (((BitVec.ofInt U (value flags) &&& ~~~(m <<< n)) |||
      ((BitVec.ofInt U (value bits) &&& m) <<< n)).toNat : ℤ)
  else
    let n := (value shift).toNat
    let kept := BitVec.ofInt (promotedBits M) (value mask) <<< n
    let common := max (promotedBits B) (promotedBits M)
    let placed := (BitVec.ofInt common (value bits) &&& BitVec.ofInt common (value mask)) <<< n
    let wide := max (promotedBits F) common
    wrap (((BitVec.ofInt wide (value flags) &&& convert (isPromoted M) wide (~~~kept)) |||
      convert (isPromoted B && isPromoted M) wide placed).toNat : ℤ)

theorem andOp_eq (a : A) (b : B) :
    andOp a b = wrap ((pattern (commonBits A B) (value a) &&&
      pattern (commonBits A B) (value b) : ℕ) : ℤ) := by
  simp [andOp, toCommon, pattern]

theorem orOp_eq (a : A) (b : B) :
    orOp a b = wrap ((pattern (commonBits A B) (value a) |||
      pattern (commonBits A B) (value b) : ℕ) : ℤ) := by
  simp [orOp, toCommon, pattern]

theorem leftShift_eq (v : V) (n : ℕ) : leftShift v n = wrap (value v * 2 ^ n) := by
  unfold leftShift
  split
  next h =>
    rcases h with rfl | h
    · simp
    · rw [h, zero_mul, ← h, wrap_value]
  next h =>
    split
    next hn =>
      -- The product is a multiple of the modulus.
      unfold wrap
      congr 1
      apply BitVec.eq_of_toNat_eq
      obtain ⟨m, rfl⟩ := Nat.exists_eq_add_of_le hn
      have : value v * 2 ^ (Integral.bits V + m) = 2 ^ Integral.bits V * (value v * 2 ^ m) := by
        ring
      simp [BitVec.toNat_ofInt, this]
    next => rfl

theorem arithmeticRightShift_eq (v : V) (n : ℕ)
    (hv : -2 ^ Integral.bits V ≤ value v) (hv' : value v < 2 ^ Integral.bits V) :
    arithmeticRightShift v n = wrap (value v / 2 ^ n) := by
  unfold arithmeticRightShift
  split
  next h =>
    rcases h with rfl | h
    · simp
    · rw [h, Int.zero_ediv, ← h, wrap_value]
  next h =>
    split
    next hn =>
      have hp : (2 : ℤ) ^ Integral.bits V ≤ 2 ^ n :=
        pow_le_pow_right₀ (by norm_num) hn
      congr 1
      split
      next hneg =>
        symm
        exact Int.ediv_eq_neg_one_of_neg_of_le hneg (by omega)
      next hneg =>
        symm
        exact Int.ediv_eq_zero_of_lt (by omega) (by omega)
    next => rfl

/-! ## Signed words of any width -/

section SignedWords

theorem value_sar {v : V} {n : S} (hV : Integral.signed V = true) (hn : 0 ≤ value n) :
    value (sar v n) = value v / 2 ^ (value n).natAbs := by
  obtain ⟨h, k⟩ := value_bounds hV v
  have hp : (1 : ℤ) ≤ 2 ^ (value n).natAbs := one_le_pow₀ (by norm_num)
  rw [sar, if_neg (by omega), arithmeticRightShift_eq _ _ (by omega) (by omega)]
  -- The quotient lies between the value and zero.
  rcases lt_or_ge (value v) 0 with hneg | hnonneg
  · have hlow : value v ≤ value v / 2 ^ (value n).natAbs :=
      Int.le_ediv_of_mul_le (by omega) (by nlinarith)
    have hhigh : value v / 2 ^ (value n).natAbs < 0 := Int.ediv_neg_of_neg_of_pos hneg (by omega)
    exact value_wrap_of_bounds hV (by omega) (by omega)
  · have hlow : 0 ≤ value v / 2 ^ (value n).natAbs := Int.ediv_nonneg hnonneg (by omega)
    have hhigh : value v / 2 ^ (value n).natAbs ≤ value v := Int.ediv_le_self _ hnonneg
    exact value_wrap_of_bounds hV (by omega) (by omega)

theorem value_sal {v : V} {n : S} (hV : Integral.signed V = true) (hn : 0 ≤ value n)
    (h : -2 ^ Integral.bits V ≤ value v * 2 ^ (value n).natAbs * 2)
    (k : value v * 2 ^ (value n).natAbs * 2 < 2 ^ Integral.bits V) :
    value (sal v n) = value v * 2 ^ (value n).natAbs := by
  rw [sal, if_neg (by omega), leftShift_eq, value_wrap_of_bounds hV h k]

theorem commonBits_of_le (h : Integral.bits B ≤ Integral.bits A) :
    commonBits A B = Integral.bits A :=
  if_pos h

/-- Masking a word with the low `k` bits, whatever the type of the mask. -/
theorem value_andOp_low {a : A} {m : B} {k : ℕ} (hA : Integral.signed A = true)
    (hB : Integral.bits B ≤ Integral.bits A) (hm : value m = 2 ^ k - 1)
    (hk : k < Integral.bits A) : value (andOp a m) = value a % 2 ^ k := by
  have hpk : (0 : ℤ) < 2 ^ k := by positivity
  have hle : (2 : ℤ) ^ (k + 1) ≤ 2 ^ Integral.bits A := pow_le_pow_right₀ (by norm_num) hk
  rw [pow_succ] at hle
  have hpm : pattern (Integral.bits A) (value m) = 2 ^ k - 1 := by
    have hpat := @pattern_of_bounds (Integral.bits A) (value m) (by omega) (by omega)
    have hcast : ((2 ^ k - 1 : ℕ) : ℤ) = 2 ^ k - 1 := by
      rw [Nat.cast_sub Nat.one_le_two_pow]
      push_cast
      rfl
    have : ((pattern (Integral.bits A) (value m) : ℕ) : ℤ) = ((2 ^ k - 1 : ℕ) : ℤ) := by
      rw [hpat, hm, hcast]
    exact_mod_cast this
  have h₁ := Int.emod_nonneg (value a) hpk.ne'
  have h₂ := Int.emod_lt_of_pos (value a) hpk
  rw [andOp_eq, commonBits_of_le hB, hpm, and_low_mask, pattern_mod hk.le]
  exact value_wrap_of_bounds hA (by omega) (by omega)

/-- Or-ing a value into the free low bits of a word adds it. -/
theorem value_orOp_disjoint {a : A} {m : B} {k : ℕ} (hA : Integral.signed A = true)
    (hB : Integral.bits B ≤ Integral.bits A) (ha : value a % 2 ^ k = 0) (hm : 0 ≤ value m)
    (hm' : value m < 2 ^ k) (hk : k < Integral.bits A) :
    value (orOp a m) = value a + value m := by
  obtain ⟨hlow, hhigh⟩ := value_bounds hA a
  obtain ⟨j, hj⟩ := Nat.exists_eq_add_of_lt hk
  have hpk : (0 : ℤ) < 2 ^ k := by positivity
  have hpow : (2 : ℤ) ^ Integral.bits A = 2 * (2 ^ k * 2 ^ j) := by rw [hj]; ring
  have hpj : (1 : ℤ) ≤ 2 ^ j := one_le_pow₀ (by norm_num)
  have hroom : (2 : ℤ) ^ k ≤ 2 ^ k * 2 ^ j := by nlinarith
  have hpm : (pattern (Integral.bits A) (value m) : ℤ) = value m :=
    pattern_of_bounds hm (by omega)
  have hpa : pattern (Integral.bits A) (value a) % 2 ^ k = 0 := by
    have := pattern_mod hk.le (value a)
    rw [ha] at this
    exact_mod_cast this
  have hlt : pattern (Integral.bits A) (value m) < 2 ^ k := by
    have : ((pattern (Integral.bits A) (value m) : ℕ) : ℤ) < 2 ^ k := by rw [hpm]; exact hm'
    exact_mod_cast this
  -- The sum stays below the sign bit: the word is a multiple of `2 ^ k`.
  have hsum : (value a + value m) * 2 < 2 ^ Integral.bits A := by
    obtain ⟨c, hc⟩ := Int.dvd_of_emod_eq_zero ha
    have hcj : c < 2 ^ j := by
      by_contra hn
      have := Int.mul_le_mul_of_nonneg_left (not_lt.mp hn) hpk.le
      omega
    have hstep : 2 ^ k * (c + 1) ≤ 2 ^ k * 2 ^ j :=
      Int.mul_le_mul_of_nonneg_left (by omega) hpk.le
    rw [mul_add, mul_one] at hstep
    omega
  rw [orOp_eq, commonBits_of_le hB, or_disjoint hpa hlt]
  push_cast
  rw [hpm, pattern_eq, value_wrap_signed hA, ← value_wrap_of_bounds hA (by omega) hsum,
    value_wrap_signed hA]
  exact Int.emod_add_bmod (y := value m) (value a) (2 ^ Integral.bits A)

theorem value_wrap_zero : value (wrap 0 : V) = 0 := by
  cases h : Integral.signed V with
  | true => rw [value_wrap_signed h, Int.zero_bmod]
  | false => rw [value_wrap_unsigned h, Int.zero_emod]

/-- A multiple of `2 ^ k` shares no bit with a smaller value. -/
theorem value_andOp_disjoint {a : A} {b : B} {k : ℕ} (hk : k ≤ commonBits A B)
    (ha : value a % 2 ^ k = 0) (hb : 0 ≤ value b) (hb' : value b < 2 ^ k) :
    value (andOp a b) = 0 := by
  have hle : (2 : ℤ) ^ k ≤ 2 ^ commonBits A B := pow_le_pow_right₀ (by norm_num) hk
  have hpa : pattern (commonBits A B) (value a) % 2 ^ k = 0 := by
    have := pattern_mod hk (value a)
    rw [ha] at this
    exact_mod_cast this
  have hpb : pattern (commonBits A B) (value b) < 2 ^ k := by
    have : ((pattern (commonBits A B) (value b) : ℕ) : ℤ) < 2 ^ k := by
      rw [pattern_of_bounds hb (by omega)]
      exact hb'
    exact_mod_cast this
  obtain ⟨c, hc⟩ := Nat.dvd_of_mod_eq_zero hpa
  rw [andOp_eq, hc, Nat.land_comm, Nat.mul_comm, and_disjoint hpb]
  exact value_wrap_zero

theorem andOp_zero_left {a : A} {b : B} (ha : value a = 0) : andOp a b = a := by
  apply value_injective
  rw [andOp_eq, ha, show pattern (commonBits A B) 0 = 0 by simp [pattern], Nat.zero_and]
  exact value_wrap_zero

end SignedWords

/-! ## The bits of a result -/

section Bits

theorem toBits_wrap (n : ℕ) : Integral.toBits (wrap (n : ℤ) : A) = BitVec.ofNat _ n := by
  rw [wrap, Integral.toBits_ofBits, BitVec.ofInt_natCast]

theorem ofInt_value (a : A) : BitVec.ofInt (Integral.bits A) (value a) = Integral.toBits a := by
  have h : Integral.toBits (wrap (value a) : A) = Integral.toBits a := by rw [wrap_value]
  rwa [wrap, Integral.toBits_ofBits] at h

theorem toBits_andOp (hB : Integral.bits B ≤ Integral.bits A) (a : A) (b : B) :
    Integral.toBits (andOp a b) = Integral.toBits a &&& BitVec.ofInt _ (value b) := by
  unfold andOp toCommon
  rw [commonBits_of_le hB, toBits_wrap, BitVec.ofNat_toNat, BitVec.setWidth_eq, ofInt_value]

theorem toBits_orOp (hB : Integral.bits B ≤ Integral.bits A) (a : A) (b : B) :
    Integral.toBits (orOp a b) = Integral.toBits a ||| BitVec.ofInt _ (value b) := by
  unfold orOp toCommon
  rw [commonBits_of_le hB, toBits_wrap, BitVec.ofNat_toNat, BitVec.setWidth_eq, ofInt_value]

theorem toBits_of_value_eq_zero {a : A} (h : value a = 0) : Integral.toBits a = 0#_ := by
  rw [← ofInt_value, h]
  rfl

theorem toBits_shr (v : V) {shift : S} (h : 0 ≤ value shift) :
    Integral.toBits (shr v shift) = Integral.toBits v >>> (value shift).natAbs := by
  rw [shr, if_neg (by omega)]
  generalize (value shift).natAbs = n
  unfold logicalRightShift
  split
  next hz =>
    rcases hz with rfl | hz
    · simp
    · rw [toBits_of_value_eq_zero hz, BitVec.zero_ushiftRight]
  next =>
    split
    next hn =>
      rw [BitVec.ushiftRight_eq_zero hn]
      exact toBits_of_value_eq_zero value_wrap_zero
    next =>
      have hcast : ((Integral.toBits v).toNat / 2 ^ n : ℤ) =
          (((Integral.toBits v).toNat / 2 ^ n : ℕ) : ℤ) := by push_cast; rfl
      apply BitVec.eq_of_toNat_eq
      rw [hcast, toBits_wrap, BitVec.toNat_ofNat, BitVec.toNat_ushiftRight,
        Nat.shiftRight_eq_div_pow]
      exact Nat.mod_eq_of_lt (lt_of_le_of_lt (Nat.div_le_self _ _) (Integral.toBits v).isLt)

theorem toBits_getBits (hM : Integral.bits M ≤ Integral.bits F) (flags : F) (mask : M) {shift : S}
    (h : 0 ≤ value shift) : Integral.toBits (getBits flags mask shift) =
      (Integral.toBits flags >>> (value shift).natAbs) &&& BitVec.ofInt _ (value mask) := by
  rw [getBits, toBits_andOp hM, toBits_shr flags h]

theorem toBits_setBits (hF : Integral.signed F = true)
    (hU : maxBits F M S B = Integral.bits F) (flags : F) (mask : M) (shift : S) (bits : B) :
    Integral.toBits (setBits flags mask shift bits) =
      let m := BitVec.ofInt (Integral.bits F) (value mask)
      let n := (BitVec.ofInt (Integral.bits F) (value shift)).toNat
      (Integral.toBits flags &&& ~~~(m <<< n)) |||
        ((BitVec.ofInt (Integral.bits F) (value bits) &&& m) <<< n) := by
  unfold setBits
  rw [hF, Bool.true_or, Bool.true_or, Bool.true_or, if_pos rfl]
  dsimp only
  rw [hU, toBits_wrap, BitVec.ofNat_toNat, BitVec.setWidth_eq, ofInt_value]

end Bits

/-! ## The 64-bit words of the events -/

section Words

variable {C : Type} [Integral C]

theorem toInt_sar (w : Int64) (n : UInt64) : (sar w n).toInt = w.toInt / 2 ^ n.toNat :=
  value_sar (v := w) (n := n) rfl (Int.natCast_nonneg n.toNat)

theorem toInt_sal {w : Int64} {n : UInt64} (h : -2 ^ 63 ≤ w.toInt * 2 ^ n.toNat)
    (k : w.toInt * 2 ^ n.toNat < 2 ^ 63) : (sal w n).toInt = w.toInt * 2 ^ n.toNat := by
  have hn : 0 ≤ value n := Int.natCast_nonneg n.toNat
  apply value_sal (v := w) rfl hn
  · change -2 ^ 64 ≤ w.toInt * 2 ^ n.toNat * 2
    omega
  · change w.toInt * 2 ^ n.toNat * 2 < 2 ^ 64
    omega

theorem commonBits_int64 (hC : Integral.bits C ≤ 64) : commonBits Int64 C = 64 :=
  commonBits_of_le hC

theorem toInt_andOp_low {w : Int64} {m : C} {k : ℕ} (hC : Integral.bits C ≤ 64)
    (hm : value m = 2 ^ k - 1) (hk : k < 64) : (andOp w m).toInt = w.toInt % 2 ^ k :=
  value_andOp_low (a := w) rfl hC hm hk

theorem toInt_orOp_disjoint {w : Int64} {m : C} {k : ℕ} (hC : Integral.bits C ≤ 64)
    (hw : w.toInt % 2 ^ k = 0) (hm : 0 ≤ value m) (hm' : value m < 2 ^ k) (hk : k < 64) :
    (orOp w m).toInt = w.toInt + value m :=
  value_orOp_disjoint (a := w) rfl hC hw hm hm' hk

end Words

end BitOperations
