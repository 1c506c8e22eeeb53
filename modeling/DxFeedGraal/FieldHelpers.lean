import DxFeedGraal.ShiftHelpers

/-! # Setting a field of a word and reading it back

The setter shifts with the plain operators in one unsigned type where an operand is signed, and in
the promoted types of the operands where none is. The getter shifts with the guarded helper. -/
namespace FieldHelpers

open FixedWidthIntegers UnboundedBits ShiftHelpers
open BitOperations (maxBits promotedBits isPromoted convert)

def StandardWidth (n : ℕ) : Prop := n = 8 ∨ n = 16 ∨ n = 32 ∨ n = 64

/-- The integer types of the supported platforms. -/
class CppInteger (α : Type) extends Integral α where
  width : StandardWidth bits

instance : CppInteger Int8 where width := .inl rfl
instance : CppInteger Int16 where width := .inr (.inl rfl)
instance : CppInteger Int32 where width := .inr (.inr (.inl rfl))
instance : CppInteger Int64 where width := .inr (.inr (.inr rfl))
instance : CppInteger UInt8 where width := .inl rfl
instance : CppInteger UInt16 where width := .inr (.inl rfl)
instance : CppInteger UInt32 where width := .inr (.inr (.inl rfl))
instance : CppInteger UInt64 where width := .inr (.inr (.inr rfl))

section Definitions

variable (F M S B : Type) [Integral F] [Integral M] [Integral S] [Integral B]

def anySigned : Bool :=
  Integral.signed F || Integral.signed M || Integral.signed S || Integral.signed B

/-- The width in which the mask is shifted. -/
def shiftedBits : ℕ := if anySigned F M S B then max 32 (maxBits F M S B) else promotedBits M

variable {S}

/-- The right operand of the plain shifts: a negative count is converted to a large one. -/
def plainCount (shift : S) : ℕ :=
  if anySigned F M S B then (BitVec.ofInt (maxBits F M S B) (value shift)).toNat
  else (value shift).toNat

variable {F M B}

/-- A plain shift by the width of its operand or more is undefined. The overload for operands of
one type computes the same. -/
def setBits (flags : F) (mask : M) (shift : S) (bits : B) : Checked F :=
  if plainCount F M B shift < shiftedBits F M S B then
    .ok (BitOperations.setBits flags mask shift bits)
  else .error .shiftCount

def getBits (mode : SignedOverflow) (calls : ℕ) (flags : F) (mask : M) (shift : S) : Checked F :=
  match shr mode calls flags shift with
  | .error failure => .error failure
  | .ok shifted => .ok (BitOperations.andOp shifted mask)

/-- Setting a field and reading it gives the masked value, and no bit outside the field moves.
Where the masked value is wider than the flags, what is read is compared in the flags' type. -/
def RoundTrip (mode : SignedOverflow) (flags : F) (mask : M) (shift : S) (bits : B) : Prop :=
  ∃ calls result, setBits flags mask shift bits = .ok result ∧
    getBits mode calls result mask shift = .ok (wrap (Int.land (value bits) (value mask))) ∧
    ∀ i, (value mask <<< value shift).testBit i = false →
      (Integral.toBits result).getLsbD i = (Integral.toBits flags).getLsbD i

end Definitions

/-! ## The count -/

section Counts

variable {F M S B : Type} [CppInteger F] [CppInteger M] [CppInteger S] [CppInteger B]

theorem StandardWidth.max {m n : ℕ} (hm : StandardWidth m) (hn : StandardWidth n) :
    StandardWidth (max m n) := by
  rcases le_total m n with h | h
  · rwa [max_eq_right h]
  · rwa [max_eq_left h]

theorem maxBits_width : StandardWidth (maxBits F M S B) :=
  (CppInteger.width (α := F)).max ((CppInteger.width (α := M)).max
    ((CppInteger.width (α := S)).max (CppInteger.width (α := B))))

theorem bits_shift_le_maxBits : Integral.bits S ≤ maxBits F M S B :=
  (le_max_left _ _).trans ((le_max_right _ _).trans (le_max_right _ _))

theorem plainCount_of_nonneg {shift : S} (h : 0 ≤ value shift) :
    plainCount F M B shift = (value shift).natAbs := by
  unfold plainCount
  split
  next =>
    have hle : (2 : ℤ) ^ Integral.bits S ≤ 2 ^ maxBits F M S B :=
      pow_le_pow_right₀ (by decide) bits_shift_le_maxBits
    have hlt := (value_range shift).2.trans_le hle
    have hpattern : ((BitVec.ofInt (maxBits F M S B) (value shift)).toNat : ℤ) = value shift :=
      pattern_of_bounds h hlt
    omega
  next => omega

/-- The conversion of a negative count is past the width of any operand. -/
theorem shiftedBits_le_of_neg {shift : S} (h : value shift < 0) :
    shiftedBits F M S B ≤ plainCount F M B shift := by
  have hS : Integral.signed S = true := signed_of_neg h
  have hany : anySigned F M S B = true := by simp [anySigned, hS]
  rw [shiftedBits, plainCount, if_pos hany, if_pos hany]
  obtain ⟨hlow, _⟩ := value_bounds hS shift
  have hle : (2 : ℤ) ^ Integral.bits S ≤ 2 ^ maxBits F M S B :=
    pow_le_pow_right₀ (by decide) bits_shift_le_maxBits
  have hpattern : ((BitVec.ofInt (maxBits F M S B) (value shift)).toNat : ℤ) =
      value shift + 2 ^ maxBits F M S B := by
    calc ((BitVec.ofInt (maxBits F M S B) (value shift)).toNat : ℤ)
        = value shift % 2 ^ maxBits F M S B := pattern_eq _ _
      _ = (value shift + 2 ^ maxBits F M S B) % 2 ^ maxBits F M S B :=
        (Int.add_emod_right ..).symm
      _ = value shift + 2 ^ maxBits F M S B := Int.emod_eq_of_lt (by omega) (by omega)
  rcases maxBits_width (F := F) (M := M) (S := S) (B := B) with hw | hw | hw | hw <;>
    rw [hw] at hpattern hle ⊢ <;> omega

theorem plainCount_lt_iff {shift : S} : plainCount F M B shift < shiftedBits F M S B ↔
    0 ≤ value shift ∧ value shift < shiftedBits F M S B := by
  rcases lt_or_ge (value shift) 0 with h | h
  · have hle := shiftedBits_le_of_neg (F := F) (M := M) (B := B) h
    constructor <;> intro hlt <;> omega
  · have hcount := plainCount_of_nonneg (F := F) (M := M) (B := B) h
    constructor <;> intro hlt <;> omega

end Counts

/-! ## The bits of the results -/

section Bits

theorem getLsbD_convert {m n i : ℕ} (promoted : Bool) (x : BitVec m) (hi : i < n) :
    (convert promoted n x).getLsbD i =
      if i < m then x.getLsbD i else promoted && x.msb := by
  cases promoted with
  | false =>
    change (x.setWidth n).getLsbD i = _
    rw [BitVec.getLsbD_setWidth, decide_eq_true hi, Bool.true_and]
    split
    next => rfl
    next h => exact BitVec.getLsbD_of_ge x i (not_lt.mp h)
  | true =>
    change (x.signExtend n).getLsbD i = _
    rw [BitVec.getLsbD_signExtend, decide_eq_true hi, Bool.true_and, Bool.true_and]

theorem getLsbD_shifted {w n i : ℕ} (z : ℤ) (hi : i < w) :
    (BitVec.ofInt w z <<< n).getLsbD i = (decide (n ≤ i) && z.testBit (i - n)) := by
  rw [BitVec.getLsbD_shiftLeft, getLsbD_ofInt, decide_eq_true hi, Bool.true_and]
  by_cases hn : n ≤ i
  · have hin : i - n < w := by omega
    simp [hn, hin, Nat.not_lt.mpr hn]
  · simp [hn, Nat.lt_of_not_le hn]

variable {F M S B : Type} [Integral F] [Integral M] [Integral S] [Integral B]

/-- The bit of the mask that the shift moves to a position. -/
def fieldBit (mask : M) (n i : ℕ) : Bool := decide (n ≤ i) && (value mask).testBit (i - n)

theorem testBit_shiftLeft_mask {mask : M} {shift : S} (h : 0 ≤ value shift) (i : ℕ) :
    (value mask <<< value shift).testBit i = fieldBit mask (value shift).natAbs i := by
  rw [fieldBit, ← testBit_shiftLeft, Int.natAbs_of_nonneg h]

/-- Whether a bit of the flags is kept: past the type of the mask its complement is extended. -/
def keptBit (F S B : Type) [Integral F] [Integral S] [Integral B] (mask : M) (n i : ℕ) : Bool :=
  if anySigned F M S B = true ∨ i < promotedBits M then !fieldBit mask n i
  else isPromoted M && !fieldBit mask n (promotedBits M - 1)

/-- The bit of the shifted value, extended past the common type of value and mask. -/
def placedBit (F S : Type) [Integral F] [Integral S] (mask : M) (bits : B) (n i : ℕ) : Bool :=
  if anySigned F M S B = true ∨ i < max (promotedBits B) (promotedBits M) then
    fieldBit mask n i && (value bits).testBit (i - n)
  else
    isPromoted B && isPromoted M &&
      (fieldBit mask n (max (promotedBits B) (promotedBits M) - 1) &&
        (value bits).testBit (max (promotedBits B) (promotedBits M) - 1 - n))

theorem bits_le_maxBits : Integral.bits F ≤ maxBits F M S B := le_max_left _ _

/-- One unsigned type for all operands. -/
theorem setBits_signed (hany : anySigned F M S B = true) (flags : F) (mask : M) (shift : S)
    (bits : B) : BitOperations.setBits flags mask shift bits =
      let U := maxBits F M S B
      let m := BitVec.ofInt U (value mask)
      let n := plainCount F M B shift
      wrap (((BitVec.ofInt U (value flags) &&& ~~~(m <<< n)) |||
        ((BitVec.ofInt U (value bits) &&& m) <<< n)).toNat : ℤ) := by
  rw [plainCount, if_pos hany]
  exact if_pos hany

/-- The promoted types of the operands. -/
theorem setBits_unsigned (hany : anySigned F M S B = false) (flags : F) (mask : M) (shift : S)
    (bits : B) : BitOperations.setBits flags mask shift bits =
      let n := plainCount F M B shift
      let common := max (promotedBits B) (promotedBits M)
      let wide := max (promotedBits F) common
      let kept := BitVec.ofInt (promotedBits M) (value mask) <<< n
      let placed := (BitVec.ofInt common (value bits) &&& BitVec.ofInt common (value mask)) <<< n
      wrap (((BitVec.ofInt wide (value flags) &&& convert (isPromoted M) wide (~~~kept)) |||
        convert (isPromoted B && isPromoted M) wide placed).toNat : ℤ) := by
  have hnot : ¬ anySigned F M S B = true := by simp [hany]
  rw [plainCount, if_neg hnot]
  exact if_neg hnot

theorem getLsbD_setBits_signed (hany : anySigned F M S B = true) (flags : F) (mask : M)
    (shift : S) (bits : B) {i : ℕ} (hi : i < Integral.bits F) :
    (Integral.toBits (BitOperations.setBits flags mask shift bits)).getLsbD i =
      ((value flags).testBit i && !fieldBit mask (plainCount F M B shift) i ||
        fieldBit mask (plainCount F M B shift) i &&
          (value bits).testBit (i - plainCount F M B shift)) := by
  have hU : i < maxBits F M S B := hi.trans_le bits_le_maxBits
  rw [setBits_signed hany]
  simp only [BitOperations.toBits_wrap, BitVec.getLsbD_ofNat, BitVec.testBit_toNat,
    BitVec.shiftLeft_and_distrib, BitVec.getLsbD_or, BitVec.getLsbD_and, BitVec.getLsbD_not,
    getLsbD_shifted _ hU, getLsbD_ofInt, hi, hU, decide_true, Bool.true_and]
  unfold fieldBit
  cases decide (plainCount F M B shift ≤ i) with
  | false => rfl
  | true => simp only [Bool.true_and, Bool.and_comm]

theorem promotedBits_ge : 32 ≤ promotedBits M := le_max_left _ _

theorem getLsbD_kept (hany : anySigned F M S B = false) (mask : M) (n : ℕ) {w i : ℕ} (hi : i < w) :
    (convert (isPromoted M) w (~~~(BitVec.ofInt (promotedBits M) (value mask) <<< n))).getLsbD i =
      keptBit F S B mask n i := by
  have hlast : promotedBits M - 1 < promotedBits M := by
    have := promotedBits_ge (M := M)
    omega
  rw [getLsbD_convert _ _ hi, keptBit, BitVec.msb_eq_getLsbD_last]
  by_cases hM : i < promotedBits M
  · rw [if_pos hM, if_pos (.inr hM), BitVec.getLsbD_not, getLsbD_shifted _ hM,
      decide_eq_true hM, Bool.true_and]
    rfl
  · rw [if_neg hM, if_neg (by simp [hany, hM]), BitVec.getLsbD_not, getLsbD_shifted _ hlast,
      decide_eq_true hlast, Bool.true_and]
    rfl

theorem getLsbD_placed (hany : anySigned F M S B = false) (mask : M) (bits : B) (n : ℕ) {w i : ℕ}
    (hi : i < w) :
    (convert (isPromoted B && isPromoted M) w
      ((BitVec.ofInt (max (promotedBits B) (promotedBits M)) (value bits) &&&
        BitVec.ofInt (max (promotedBits B) (promotedBits M)) (value mask)) <<< n)).getLsbD i =
      placedBit F S mask bits n i := by
  have hlast : max (promotedBits B) (promotedBits M) - 1 <
      max (promotedBits B) (promotedBits M) := by
    have := promotedBits_ge (M := M)
    omega
  have hbit : ∀ j < max (promotedBits B) (promotedBits M),
      ((BitVec.ofInt (max (promotedBits B) (promotedBits M)) (value bits) &&&
        BitVec.ofInt (max (promotedBits B) (promotedBits M)) (value mask)) <<< n).getLsbD j =
        (fieldBit mask n j && (value bits).testBit (j - n)) := by
    intro j hj
    rw [BitVec.shiftLeft_and_distrib, BitVec.getLsbD_and, getLsbD_shifted _ hj,
      getLsbD_shifted _ hj, fieldBit]
    cases decide (n ≤ j) with
    | false => rfl
    | true => simp only [Bool.true_and, Bool.and_comm]
  rw [getLsbD_convert _ _ hi, placedBit, BitVec.msb_eq_getLsbD_last]
  by_cases hcommon : i < max (promotedBits B) (promotedBits M)
  · rw [if_pos hcommon, if_pos (.inr hcommon), hbit i hcommon]
  · rw [if_neg hcommon, if_neg (by simp [hany, hcommon]), hbit _ hlast]

theorem getLsbD_setBits_unsigned (hany : anySigned F M S B = false) (flags : F) (mask : M)
    (shift : S) (bits : B) {i : ℕ} (hi : i < Integral.bits F) :
    (Integral.toBits (BitOperations.setBits flags mask shift bits)).getLsbD i =
      ((value flags).testBit i && keptBit F S B mask (plainCount F M B shift) i ||
        placedBit F S mask bits (plainCount F M B shift) i) := by
  have hF : i < promotedBits F := hi.trans_le (le_max_right _ _)
  have hwide : i < max (promotedBits F) (max (promotedBits B) (promotedBits M)) :=
    hF.trans_le (le_max_left _ _)
  rw [setBits_unsigned hany]
  simp only [BitOperations.toBits_wrap, BitVec.getLsbD_ofNat, BitVec.testBit_toNat,
    BitVec.getLsbD_or, BitVec.getLsbD_and, getLsbD_kept hany _ _ hwide,
    getLsbD_placed hany _ _ _ hwide, getLsbD_ofInt, hi, hwide, decide_true, Bool.true_and]

theorem getLsbD_setBits (flags : F) (mask : M) (shift : S) (bits : B) {i : ℕ}
    (hi : i < Integral.bits F) :
    (Integral.toBits (BitOperations.setBits flags mask shift bits)).getLsbD i =
      ((value flags).testBit i && keptBit F S B mask (plainCount F M B shift) i ||
        placedBit F S mask bits (plainCount F M B shift) i) := by
  cases hany : anySigned F M S B with
  | false => exact getLsbD_setBits_unsigned hany flags mask shift bits hi
  | true =>
    rw [getLsbD_setBits_signed hany flags mask shift bits hi, keptBit, placedBit,
      if_pos (.inl hany), if_pos (.inl hany)]

theorem getLsbD_andOp (a : F) (b : M) (i : ℕ) :
    (Integral.toBits (BitOperations.andOp a b)).getLsbD i =
      ((Integral.toBits a).getLsbD i && (value b).testBit i) := by
  have hle : Integral.bits F ≤ BitOperations.commonBits F M := by
    unfold BitOperations.commonBits
    split <;> omega
  rw [getLsbD_toBits a, BitOperations.andOp, BitOperations.toBits_wrap, BitVec.getLsbD_ofNat,
    BitVec.testBit_toNat, BitVec.getLsbD_and, BitOperations.toCommon, BitOperations.toCommon,
    getLsbD_ofInt, getLsbD_ofInt]
  by_cases hi : i < Integral.bits F
  · simp [hi, hi.trans_le hle]
  · simp [hi]

theorem getLsbD_getBits (flags : F) (mask : M) {shift : S} (h : 0 ≤ value shift) (i : ℕ) :
    (Integral.toBits (BitOperations.getBits flags mask shift)).getLsbD i =
      ((Integral.toBits flags).getLsbD ((value shift).natAbs + i) && (value mask).testBit i) := by
  rw [BitOperations.getBits, getLsbD_andOp, BitOperations.toBits_shr flags h,
    BitVec.getLsbD_ushiftRight]

end Bits

end FieldHelpers
