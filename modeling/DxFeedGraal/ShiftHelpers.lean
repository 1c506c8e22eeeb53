import DxFeedGraal.BitOperations
import DxFeedGraal.UnboundedBits

/-! # The shift helpers as they call each other

A negative count is negated and handed to the opposite helper. The negation is made in the
promoted type of the count, where the least value has no negation. -/
namespace ShiftHelpers

open FixedWidthIntegers UnboundedBits
open BitOperations (leftShift arithmeticRightShift logicalRightShift)

/-- A signed result out of range is undefined, or wraps around where the compiler is told so. -/
inductive SignedOverflow
  | undefined
  | wraps
  deriving DecidableEq, Repr

inductive Failure
  | overflow
  /-- The count of a plain shift is not below the width of its promoted operand. -/
  | shiftCount
  /-- The calls went deeper than they were watched. -/
  | unfinished
  deriving DecidableEq, Repr

abbrev Checked (α : Type) := Except Failure α

/-- `-shift` in the type `T`. -/
def negate (mode : SignedOverflow) (T : Type) [Integral T] (shift : ℤ) : Checked T :=
  if value (wrap (-shift) : T) = -shift then .ok (wrap (-shift))
  else
    match mode with
    | .undefined => .error .overflow
    | .wraps => .ok (wrap (-shift))

variable {V : Type}

/-- The common body of the helpers. `here` shifts by a count that is not negative, `there` is
what the opposite helper does with one; to call that helper is to exchange the two. The negated
count of a type narrower than `int` is an `int`. -/
def shiftBy (mode : SignedOverflow) (here there : V → ℕ → V) :
    ℕ → (S : Type) → [Integral S] → V → S → Checked V
  | 0, _, _, _, _ => .error .unfinished
  | calls + 1, S, _, v, shift =>
    if Integral.signed S = true ∧ value shift < 0 then
      if Integral.bits S < 32 then
        match negate mode Int32 (value shift) with
        | .error failure => .error failure
        | .ok count => shiftBy mode there here calls Int32 v count
      else
        match negate mode S (value shift) with
        | .error failure => .error failure
        | .ok count => shiftBy mode there here calls S v count
    else .ok (here v (value shift).natAbs)

section Helpers

variable {S : Type} [Integral V] [Integral S] (mode : SignedOverflow) (calls : ℕ) (v : V)
  (shift : S)

def leftArithmeticShift : Checked V :=
  shiftBy mode leftShift arithmeticRightShift calls S v shift

def sal : Checked V := leftArithmeticShift mode calls v shift

def rightArithmeticShift : Checked V :=
  shiftBy mode arithmeticRightShift leftShift calls S v shift

def sar : Checked V := rightArithmeticShift mode calls v shift

def leftLogicalShift : Checked V :=
  shiftBy mode leftShift logicalRightShift calls S v shift

def shl : Checked V := leftLogicalShift mode calls v shift

def rightLogicalShift : Checked V :=
  shiftBy mode logicalRightShift leftShift calls S v shift

def shr : Checked V := rightLogicalShift mode calls v shift

end Helpers

/-! ## Negating the count -/

section Counts

variable {S : Type} [Integral S] {mode : SignedOverflow} {shift : S}

/-- The least value of a signed type that no promotion widens. -/
def MinimalCount (shift : S) : Prop :=
  Integral.signed S = true ∧ 32 ≤ Integral.bits S ∧ value shift * 2 = -2 ^ Integral.bits S

instance : Decidable (MinimalCount shift) := inferInstanceAs (Decidable (_ ∧ _ ∧ _))

theorem negate_of_fits {T : Type} [Integral T] {z : ℤ} (hT : Integral.signed T = true)
    (h : -2 ^ Integral.bits T ≤ -z * 2) (k : -z * 2 < 2 ^ Integral.bits T) :
    negate mode T z = .ok (wrap (-z)) :=
  if_pos (value_wrap_of_bounds hT h k)

/-- The negated count of a promoted type is an `int`. -/
theorem negate_promoted (hS : Integral.signed S = true) (hbits : Integral.bits S < 32) :
    ∃ count : Int32, negate mode Int32 (value shift) = .ok count ∧
      value count = -value shift := by
  obtain ⟨hlow, hhigh⟩ := value_bounds hS shift
  have hpow : (2 : ℤ) ^ Integral.bits S ≤ 2 ^ 31 := pow_le_pow_right₀ (by decide) (by omega)
  have hlow' : -2 ^ Integral.bits Int32 ≤ -value shift * 2 := by
    change -2 ^ 32 ≤ _
    omega
  have hhigh' : -value shift * 2 < 2 ^ Integral.bits Int32 := by
    change _ < 2 ^ 32
    omega
  exact ⟨_, negate_of_fits rfl hlow' hhigh', value_wrap_of_bounds rfl hlow' hhigh'⟩

theorem negate_same (hS : Integral.signed S = true) (hbits : 32 ≤ Integral.bits S)
    (h : ¬ MinimalCount shift) :
    ∃ count : S, negate mode S (value shift) = .ok count ∧ value count = -value shift := by
  obtain ⟨hlow, hhigh⟩ := value_bounds hS shift
  have hmin : value shift * 2 ≠ -2 ^ Integral.bits S := fun heq => h ⟨hS, hbits, heq⟩
  have hlow' : -2 ^ Integral.bits S ≤ -value shift * 2 := by omega
  have hhigh' : -value shift * 2 < 2 ^ Integral.bits S := by omega
  exact ⟨_, negate_of_fits hS hlow' hhigh', value_wrap_of_bounds hS hlow' hhigh'⟩

/-- The negation of the least count is out of range, and wraps around to the count itself. -/
theorem negate_minimal (h : MinimalCount shift) :
    negate mode S (value shift) = match mode with
      | .undefined => .error .overflow
      | .wraps => .ok shift := by
  obtain ⟨_, _, hmin⟩ := h
  have hpos : (0 : ℤ) < 2 ^ Integral.bits S := by positivity
  have hnegated : -value shift = value shift + 2 ^ Integral.bits S := by omega
  have hwrap : (wrap (-value shift) : S) = shift := by
    calc (wrap (-value shift) : S) = wrap (value shift) :=
          wrap_congr (by rw [hnegated, Int.add_emod_right])
      _ = shift := wrap_value shift
  have hne : value (wrap (-value shift) : S) ≠ -value shift := by
    rw [hwrap]
    omega
  cases mode with
  | undefined => exact if_neg hne
  | wraps => exact (if_neg hne).trans (congrArg Except.ok hwrap)

end Counts

/-! ## Calls that return and calls that do not -/

section Calls

variable {S : Type} [Integral S] {mode : SignedOverflow} {here there : V → ℕ → V} {shift : S}

theorem shiftBy_nonneg (calls : ℕ) (v : V) (h : 0 ≤ value shift) :
    shiftBy mode here there (calls + 1) S v shift = .ok (here v (value shift).natAbs) :=
  if_neg fun hneg => by omega

theorem signed_of_neg (h : value shift < 0) : Integral.signed S = true := by
  cases hS : Integral.signed S with
  | true => rfl
  | false => simp [value, hS] at h; omega

/-- One negation is enough: the opposite helper gets a count that is not negative. -/
theorem shiftBy_of_not_minimal (calls : ℕ) (v : V) (h : ¬ MinimalCount shift) :
    shiftBy mode here there (calls + 2) S v shift =
      .ok (if value shift < 0 then there v (value shift).natAbs
        else here v (value shift).natAbs) := by
  by_cases hneg : value shift < 0
  · have hS := signed_of_neg hneg
    rw [if_pos hneg, shiftBy, if_pos ⟨hS, hneg⟩]
    by_cases hbits : Integral.bits S < 32
    · obtain ⟨count, hcount, hvalue⟩ := @negate_promoted S _ mode shift hS hbits
      have hnonneg : 0 ≤ value count := by omega
      simp only [if_pos hbits, hcount, shiftBy_nonneg calls v hnonneg, hvalue, Int.natAbs_neg]
    · obtain ⟨count, hcount, hvalue⟩ := @negate_same S _ mode shift hS (not_lt.mp hbits) h
      have hnonneg : 0 ≤ value count := by omega
      simp only [if_neg hbits, hcount, shiftBy_nonneg calls v hnonneg, hvalue, Int.natAbs_neg]
  · rw [if_neg hneg, shiftBy_nonneg (calls + 1) v (not_lt.mp hneg)]

theorem shiftBy_minimal_step (calls : ℕ) (v : V) (h : MinimalCount shift) :
    shiftBy mode here there (calls + 1) S v shift = match mode with
      | .undefined => .error .overflow
      | .wraps => shiftBy mode there here calls S v shift := by
  have hpos : (0 : ℤ) < 2 ^ Integral.bits S := by positivity
  have hneg : value shift < 0 := by
    have := h.2.2
    omega
  rw [shiftBy, if_pos ⟨h.1, hneg⟩, if_neg (Nat.not_lt.mpr h.2.1), negate_minimal h]
  cases mode with
  | undefined => rfl
  | wraps => rfl

/-- Where the negation wraps around, the two helpers call each other with the same count. -/
theorem shiftBy_minimal_unfinished (calls : ℕ) (v : V) (h : MinimalCount shift) :
    shiftBy .wraps here there calls S v shift = .error .unfinished := by
  induction calls generalizing here there with
  | zero => rfl
  | succ calls ih =>
    rw [shiftBy_minimal_step calls v h]
    exact ih

theorem shiftBy_minimal (calls : ℕ) (v r : V) (h : MinimalCount shift) :
    shiftBy mode here there calls S v shift ≠ .ok r := by
  intro hok
  cases mode with
  | undefined =>
    cases calls with
    | zero => cases hok
    | succ calls =>
      rw [shiftBy_minimal_step calls v h] at hok
      cases hok
  | wraps =>
    rw [shiftBy_minimal_unfinished calls v h] at hok
    cases hok

/-- A helper returns its meaning exactly for the counts that have a negation. -/
theorem shiftBy_iff {v r : V} (hr : r = if value shift < 0 then there v (value shift).natAbs
      else here v (value shift).natAbs) :
    (∃ calls, shiftBy mode here there calls S v shift = .ok r) ↔ ¬ MinimalCount shift := by
  constructor
  · rintro ⟨calls, hok⟩ hmin
    exact shiftBy_minimal calls v r hmin hok
  · intro h
    refine ⟨2, ?_⟩
    rw [hr]
    exact shiftBy_of_not_minimal 0 v h

end Calls

/-! ## The shifts of unbounded integers -/

section Meanings

variable {S : Type} [Integral V] [Integral S] {mode : SignedOverflow}

/-- The value in the unsigned type of the same width. -/
def unsignedValue (v : V) : ℤ := ((Integral.toBits v).toNat : ℤ)

theorem value_range (v : V) : -2 ^ Integral.bits V ≤ value v ∧ value v < 2 ^ Integral.bits V := by
  have hpos : (0 : ℤ) < 2 ^ Integral.bits V := by positivity
  cases hV : Integral.signed V with
  | true =>
    obtain ⟨hlow, hhigh⟩ := value_bounds hV v
    constructor <;> omega
  | false =>
    have hvalue : value v = ((Integral.toBits v).toNat : ℤ) := by simp [value, hV]
    have hlt : ((Integral.toBits v).toNat : ℤ) < 2 ^ Integral.bits V := by
      exact_mod_cast (Integral.toBits v).isLt
    constructor <;> omega

theorem unsignedValue_eq_emod (v : V) : unsignedValue v = value v % 2 ^ Integral.bits V := by
  have h := pattern_eq (Integral.bits V) (value v)
  rwa [pattern, BitOperations.ofInt_value] at h

theorem wrap_unsignedValue (v : V) : wrap (unsignedValue v) = v := by
  calc (wrap (unsignedValue v) : V) = wrap (value v) :=
        wrap_congr (by rw [unsignedValue_eq_emod, Int.emod_emod])
    _ = v := wrap_value v

theorem leftShift_unsigned (v : V) (n : ℕ) : leftShift v n = wrap (unsignedValue v * 2 ^ n) := by
  rw [BitOperations.leftShift_eq]
  apply wrap_congr
  rw [unsignedValue_eq_emod, Int.mul_emod (value v % _), Int.emod_emod, ← Int.mul_emod]

theorem arithmeticRightShift_value (v : V) (n : ℕ) :
    arithmeticRightShift v n = wrap (value v / 2 ^ n) :=
  BitOperations.arithmeticRightShift_eq v n (value_range v).1 (value_range v).2

theorem logicalRightShift_unsigned (v : V) (n : ℕ) :
    logicalRightShift v n = wrap (unsignedValue v / 2 ^ n) := by
  unfold logicalRightShift
  split
  next h =>
    rcases h with rfl | h
    · rw [pow_zero, Int.ediv_one, wrap_unsignedValue]
    · rw [unsignedValue_eq_emod, h, Int.zero_emod, Int.zero_ediv, ← h, wrap_value]
  next =>
    split
    next hn =>
      -- All bits of the word leave it.
      have hpow : (2 : ℤ) ^ Integral.bits V ≤ 2 ^ n := pow_le_pow_right₀ (by decide) hn
      have hlt : unsignedValue v < 2 ^ n := by
        have : ((Integral.toBits v).toNat : ℤ) < 2 ^ Integral.bits V := by
          exact_mod_cast (Integral.toBits v).isLt
        exact this.trans_le hpow
      exact congrArg wrap (Int.ediv_eq_zero_of_lt (Int.natCast_nonneg _) hlt).symm
    next => rfl

theorem sal_eq (v : V) (shift : S) :
    BitOperations.sal v shift = wrap (value v <<< value shift) := by
  rcases lt_or_ge (value shift) 0 with h | h
  · rw [BitOperations.sal, if_pos h, shiftLeft_of_neg h, arithmeticRightShift_value]
  · rw [BitOperations.sal, if_neg (not_lt.mpr h), shiftLeft_of_nonneg h,
      BitOperations.leftShift_eq]

theorem sar_eq (v : V) (shift : S) :
    BitOperations.sar v shift = wrap (value v >>> value shift) := by
  rcases lt_or_ge (value shift) 0 with h | h
  · rw [BitOperations.sar, if_pos h, shiftRight_of_neg h, BitOperations.leftShift_eq]
  · rw [BitOperations.sar, if_neg (not_lt.mpr h), shiftRight_of_nonneg h,
      arithmeticRightShift_value]

theorem shl_eq (v : V) (shift : S) :
    BitOperations.shl v shift = wrap (unsignedValue v <<< value shift) := by
  rcases lt_or_ge (value shift) 0 with h | h
  · rw [BitOperations.shl, if_pos h, shiftLeft_of_neg h, logicalRightShift_unsigned]
  · rw [BitOperations.shl, if_neg (not_lt.mpr h), shiftLeft_of_nonneg h, leftShift_unsigned]

theorem shr_eq (v : V) (shift : S) :
    BitOperations.shr v shift = wrap (unsignedValue v >>> value shift) := by
  rcases lt_or_ge (value shift) 0 with h | h
  · rw [BitOperations.shr, if_pos h, shiftRight_of_neg h, leftShift_unsigned]
  · rw [BitOperations.shr, if_neg (not_lt.mpr h), shiftRight_of_nonneg h,
      logicalRightShift_unsigned]

/-! ### What the helpers return -/

variable {v : V} {shift : S}

theorem sal_iff : (∃ calls, sal mode calls v shift = .ok (wrap (value v <<< value shift))) ↔
    ¬ MinimalCount shift :=
  shiftBy_iff (sal_eq v shift).symm

-- A narrow count is negated as an `int`, so its least value is no exception.
example : sal .undefined 2 (-5 : Int32) (-128 : Int8) = .ok (-1) := rfl
example : sal .undefined 1 (0 : Int8) Int64.minValue = .error .overflow := rfl

theorem sar_iff : (∃ calls, sar mode calls v shift = .ok (wrap (value v >>> value shift))) ↔
    ¬ MinimalCount shift :=
  shiftBy_iff (sar_eq v shift).symm

theorem shl_iff :
    (∃ calls, shl mode calls v shift = .ok (wrap (unsignedValue v <<< value shift))) ↔
      ¬ MinimalCount shift :=
  shiftBy_iff (shl_eq v shift).symm

theorem shr_iff :
    (∃ calls, shr mode calls v shift = .ok (wrap (unsignedValue v >>> value shift))) ↔
      ¬ MinimalCount shift :=
  shiftBy_iff (shr_eq v shift).symm

end Meanings

end ShiftHelpers
