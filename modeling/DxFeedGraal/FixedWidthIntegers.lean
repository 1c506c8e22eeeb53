import Mathlib.Data.Int.Basic
import Mathlib.Data.Nat.Bitwise
import Mathlib.Tactic.Ring
import Mathlib.Tactic.NormNum

/-! # Fixed-width integer types of a C-family language

One class covers the signed and unsigned types. Conversions keep the value modulo
two to the width; shifts multiply and divide, rounding towards negative infinity. -/
namespace FixedWidthIntegers

class Integral (α : Type) where
  bits : ℕ
  signed : Bool
  toBits : α → BitVec bits
  ofBits : BitVec bits → α
  ofBits_toBits : ∀ a, ofBits (toBits a) = a
  toBits_ofBits : ∀ b, toBits (ofBits b) = b

instance : Integral Int64 where
  bits := 64
  signed := true
  toBits := Int64.toBitVec
  ofBits := Int64.ofBitVec
  ofBits_toBits := Int64.ofBitVec_toBitVec
  toBits_ofBits := Int64.toBitVec_ofBitVec

instance : Integral Int32 where
  bits := 32
  signed := true
  toBits := Int32.toBitVec
  ofBits := Int32.ofBitVec
  ofBits_toBits := Int32.ofBitVec_toBitVec
  toBits_ofBits := Int32.toBitVec_ofBitVec

instance : Integral UInt64 where
  bits := 64
  signed := false
  toBits := UInt64.toBitVec
  ofBits := UInt64.ofBitVec
  ofBits_toBits _ := rfl
  toBits_ofBits _ := rfl

instance : Integral UInt32 where
  bits := 32
  signed := false
  toBits := UInt32.toBitVec
  ofBits := UInt32.ofBitVec
  ofBits_toBits _ := rfl
  toBits_ofBits _ := rfl

instance : Integral UInt8 where
  bits := 8
  signed := false
  toBits := UInt8.toBitVec
  ofBits := UInt8.ofBitVec
  ofBits_toBits _ := rfl
  toBits_ofBits _ := rfl

instance : Integral UInt16 where
  bits := 16
  signed := false
  toBits := UInt16.toBitVec
  ofBits := UInt16.ofBitVec
  ofBits_toBits _ := rfl
  toBits_ofBits _ := rfl

instance : Integral Int16 where
  bits := 16
  signed := true
  toBits := Int16.toBitVec
  ofBits := Int16.ofBitVec
  ofBits_toBits := Int16.ofBitVec_toBitVec
  toBits_ofBits := Int16.toBitVec_ofBitVec

instance : Integral Int8 where
  bits := 8
  signed := true
  toBits := Int8.toBitVec
  ofBits := Int8.ofBitVec
  ofBits_toBits := Int8.ofBitVec_toBitVec
  toBits_ofBits := Int8.toBitVec_ofBitVec

section Conversions

variable {α β : Type} [Integral α] [Integral β]

def value (a : α) : ℤ :=
  if Integral.signed α then (Integral.toBits a).toInt else ((Integral.toBits a).toNat : ℤ)

/-- The value of the type that is congruent to an integer modulo two to the width. -/
def wrap (z : ℤ) : α := Integral.ofBits (BitVec.ofInt (Integral.bits α) z)

def staticCast (a : α) : β := wrap (value a)

@[simp] theorem wrap_value (a : α) : (wrap (value a) : α) = a := by
  unfold wrap value
  split
  · rw [BitVec.ofInt_toInt, Integral.ofBits_toBits]
  · rw [BitVec.ofInt_natCast, BitVec.ofNat_toNat, BitVec.setWidth_eq, Integral.ofBits_toBits]

theorem value_injective {a b : α} (h : value a = value b) : a = b := by
  rw [← wrap_value a, h, wrap_value]

theorem value_wrap_unsigned (hs : Integral.signed α = false) (z : ℤ) :
    value (wrap z : α) = z % 2 ^ Integral.bits α := by
  have hp : (0 : ℤ) < 2 ^ Integral.bits α := by positivity
  simp only [value, wrap, hs, Integral.toBits_ofBits, BitVec.toNat_ofInt]
  have := Int.emod_nonneg z hp.ne'
  push_cast
  simp [this]

theorem value_wrap_signed (hs : Integral.signed α = true) (z : ℤ) :
    value (wrap z : α) = z.bmod (2 ^ Integral.bits α) := by
  simp [value, wrap, hs, Integral.toBits_ofBits, BitVec.toInt_ofInt]

/-- The range of a signed type, doubled so that no half power is needed. -/
theorem value_bounds (hs : Integral.signed α = true) (a : α) :
    -2 ^ Integral.bits α ≤ value a * 2 ∧ value a * 2 < 2 ^ Integral.bits α := by
  have h := BitVec.le_two_mul_toInt (x := Integral.toBits a)
  have k := BitVec.two_mul_toInt_lt (x := Integral.toBits a)
  simp only [value, hs, if_true]
  omega

theorem value_wrap_of_bounds (hs : Integral.signed α = true) {z : ℤ}
    (h : -2 ^ Integral.bits α ≤ z * 2) (k : z * 2 < 2 ^ Integral.bits α) :
    value (wrap z : α) = z := by
  rw [value_wrap_signed hs]
  apply Int.bmod_eq_of_le_mul_two <;> push_cast <;> assumption

end Conversions

@[simp] theorem value_int64 (a : Int64) : value a = a.toInt := rfl
@[simp] theorem value_int32 (a : Int32) : value a = a.toInt := rfl
@[simp] theorem value_uint64 (a : UInt64) : value a = a.toNat := rfl
@[simp] theorem value_uint32 (a : UInt32) : value a = a.toNat := rfl
@[simp] theorem value_uint8 (a : UInt8) : value a = a.toNat := rfl

theorem int64_bounds (a : Int64) : -2 ^ 63 ≤ a.toInt ∧ a.toInt < 2 ^ 63 :=
  ⟨Int64.le_toInt a, Int64.toInt_lt a⟩

theorem int32_bounds (a : Int32) : -2 ^ 31 ≤ a.toInt ∧ a.toInt < 2 ^ 31 :=
  ⟨Int32.le_toInt a, Int32.toInt_lt a⟩

theorem toInt_wrap_int64 {z : ℤ} (h : -2 ^ 63 ≤ z) (k : z < 2 ^ 63) :
    (wrap z : Int64).toInt = z := by
  have hb : Integral.bits Int64 = 64 := rfl
  rw [← value_int64]
  apply value_wrap_of_bounds rfl <;> rw [hb] <;> omega

theorem toInt_wrap_int32 {z : ℤ} (h : -2 ^ 31 ≤ z) (k : z < 2 ^ 31) :
    (wrap z : Int32).toInt = z := by
  have hb : Integral.bits Int32 = 32 := rfl
  rw [← value_int32]
  apply value_wrap_of_bounds rfl <;> rw [hb] <;> omega

/-! ## Masks and fields of a word -/

theorem and_low_mask (x k : ℕ) : x &&& (2 ^ k - 1) = x % 2 ^ k :=
  Nat.and_two_pow_sub_one_eq_mod x k

/-- Masking with a shifted mask reads the field above the shift. -/
theorem and_shifted (x a k : ℕ) : x &&& (a * 2 ^ k) = ((x / 2 ^ k) &&& a) * 2 ^ k := by
  rw [← Nat.shiftLeft_eq, ← Nat.shiftLeft_eq, ← Nat.shiftRight_eq_div_pow]
  apply Nat.eq_of_testBit_eq
  intro i
  simp only [Nat.testBit_and, Nat.testBit_shiftLeft, Nat.testBit_shiftRight]
  by_cases h : k ≤ i
  · simp [h, Nat.add_sub_cancel' h]
  · simp [h]

theorem and_disjoint {x a k : ℕ} (h : x < 2 ^ k) : x &&& (a * 2 ^ k) = 0 := by
  rw [and_shifted, Nat.div_eq_of_lt h, Nat.zero_and, Nat.zero_mul]

theorem or_disjoint {x b k : ℕ} (hx : x % 2 ^ k = 0) (hb : b < 2 ^ k) : x ||| b = x + b := by
  obtain ⟨c, rfl⟩ := Nat.dvd_of_mod_eq_zero hx
  exact (Nat.two_pow_add_eq_or_of_lt hb c).symm

/-- The unsigned pattern of a value in a word of the given width. -/
def pattern (width : ℕ) (z : ℤ) : ℕ := (BitVec.ofInt width z).toNat

theorem pattern_eq (width : ℕ) (z : ℤ) : (pattern width z : ℤ) = z % 2 ^ width := by
  have hp : (0 : ℤ) < 2 ^ width := by positivity
  have := Int.emod_nonneg z hp.ne'
  simp [pattern, BitVec.toNat_ofInt, this]

theorem pattern_mod {width k : ℕ} (hk : k ≤ width) (z : ℤ) :
    ((pattern width z % 2 ^ k : ℕ) : ℤ) = z % 2 ^ k := by
  push_cast
  rw [pattern_eq, Int.emod_emod_of_dvd _ (pow_dvd_pow 2 hk)]

theorem pattern_of_bounds {width : ℕ} {z : ℤ} (h : 0 ≤ z) (k : z < 2 ^ width) :
    (pattern width z : ℤ) = z := by
  rw [pattern_eq, Int.emod_eq_of_lt h k]

end FixedWidthIntegers
