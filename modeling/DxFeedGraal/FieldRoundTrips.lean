import DxFeedGraal.FieldHelpers
import DxFeedGraal.PackedFlags

/-! # Round trips of a field through a word

A field is set and read back. The exact condition on the operands is about the count, the bits
that leave the word, and the upper half of flags that are wider than their mask. -/
namespace FieldRoundTrips

open FixedWidthIntegers UnboundedBits ShiftHelpers FieldHelpers
open BitOperations (maxBits promotedBits isPromoted)

section RoundTrips

variable {F M S B : Type} [CppInteger F] [CppInteger M] [CppInteger S] [CppInteger B]
  {mode : SignedOverflow} {flags : F} {mask : M} {shift : S} {bits : B}

theorem getBits_returns (calls : ℕ) (h : 0 ≤ value shift) :
    getBits mode (calls + 1) flags mask shift = .ok (BitOperations.getBits flags mask shift) := by
  have hshr : shr mode (calls + 1) flags shift = .ok (BitOperations.shr flags shift) := by
    rw [BitOperations.shr, if_neg (not_lt.mpr h)]
    exact shiftBy_nonneg calls flags h
  rw [getBits, hshr]
  rfl

theorem eq_of_getBits {calls : ℕ} {r : F} (h : 0 ≤ value shift)
    (hr : getBits mode calls flags mask shift = .ok r) :
    r = BitOperations.getBits flags mask shift := by
  cases calls with
  | zero => cases hr
  | succ calls =>
    rw [getBits_returns calls h] at hr
    exact (Except.ok.inj hr).symm

/-- A setter that returns has a count inside the width of its shifts. -/
theorem setBits_eq_ok {r : F} : setBits flags mask shift bits = .ok r ↔
    (0 ≤ value shift ∧ value shift < shiftedBits F M S B) ∧
      r = BitOperations.setBits flags mask shift bits := by
  rw [← plainCount_lt_iff, setBits]
  split
  next h => simp [h, eq_comm]
  next h => simp [h]

/-- The round trip bit by bit. -/
theorem roundTrip_iff_bits : RoundTrip mode flags mask shift bits ↔
    (0 ≤ value shift ∧ value shift < shiftedBits F M S B) ∧
      let result := Integral.toBits (BitOperations.setBits flags mask shift bits)
      (∀ i < Integral.bits F,
        (result.getLsbD ((value shift).natAbs + i) && (value mask).testBit i) =
          ((value bits).testBit i && (value mask).testBit i)) ∧
      ∀ i < Integral.bits F, fieldBit mask (value shift).natAbs i = false →
        result.getLsbD i = (value flags).testBit i := by
  constructor
  · rintro ⟨calls, r, hset, hget, hframe⟩
    obtain ⟨hrange, rfl⟩ := setBits_eq_ok.mp hset
    refine ⟨hrange, ?_, ?_⟩
    · intro i hi
      have hread := congrArg (fun r => (Integral.toBits r).getLsbD i)
        (eq_of_getBits hrange.1 hget)
      simp only [getLsbD_wrap, getLsbD_getBits _ _ hrange.1, hi, decide_true, Bool.true_and,
        Int.testBit_land] at hread
      exact hread.symm
    · intro i hi hout
      rw [hframe i ((testBit_shiftLeft_mask hrange.1 i).trans hout), getLsbD_toBits,
        decide_eq_true hi, Bool.true_and]
  · rintro ⟨hrange, hread, hframe⟩
    refine ⟨1, _, setBits_eq_ok.mpr ⟨hrange, rfl⟩, ?_, ?_⟩
    · rw [getBits_returns 0 hrange.1]
      congr 1
      apply ext_of_bits
      intro i hi
      rw [getLsbD_getBits _ _ hrange.1, hread i hi, getLsbD_wrap, decide_eq_true hi,
        Bool.true_and, Int.testBit_land]
    · intro i hout
      by_cases hi : i < Integral.bits F
      · rw [hframe i hi ((testBit_shiftLeft_mask hrange.1 i).symm.trans hout), getLsbD_toBits,
          decide_eq_true hi, Bool.true_and]
      · rw [BitVec.getLsbD_of_ge _ _ (not_lt.mp hi), BitVec.getLsbD_of_ge _ _ (not_lt.mp hi)]

theorem fieldBit_add (n i : ℕ) : fieldBit mask n (n + i) = (value mask).testBit i := by
  rw [fieldBit, decide_eq_true (Nat.le_add_right n i), Nat.add_sub_cancel_left, Bool.true_and]

/-- The bit that setting the field has to leave at a position. -/
def wantedBit (flags : F) (mask : M) (bits : B) (n i : ℕ) : Bool :=
  if fieldBit mask n i = true then (value bits).testBit (i - n) else (value flags).testBit i

/-- What is read back is the whole masked value when no bit of it left the flags. -/
theorem roundTrip_iff_wanted : RoundTrip mode flags mask shift bits ↔
    (0 ≤ value shift ∧ value shift < shiftedBits F M S B) ∧
      pattern (Integral.bits F) (Int.land (value bits) (value mask)) *
        2 ^ (value shift).natAbs < 2 ^ Integral.bits F ∧
      ∀ i < Integral.bits F,
        (Integral.toBits (BitOperations.setBits flags mask shift bits)).getLsbD i =
          wantedBit flags mask bits (value shift).natAbs i := by
  rw [roundTrip_iff_bits, pattern_mul_two_pow_lt_iff]
  apply and_congr_right
  intro _
  constructor
  · rintro ⟨hread, hframe⟩
    refine ⟨?_, ?_⟩
    · intro i hi htop
      have hlost := hread i hi
      rw [BitVec.getLsbD_of_ge _ _ htop, Bool.false_and] at hlost
      rw [Int.testBit_land, hlost]
    · intro i hi
      cases hfield : fieldBit mask (value shift).natAbs i with
      | false =>
        rw [wantedBit, hfield]
        exact hframe i hi hfield
      | true =>
        obtain ⟨hle, hmask⟩ : (value shift).natAbs ≤ i ∧
            (value mask).testBit (i - (value shift).natAbs) = true := by
          simpa [fieldBit] using hfield
        have hset := hread (i - (value shift).natAbs) (by omega)
        rw [Nat.add_sub_cancel' hle, hmask, Bool.and_true, Bool.and_true] at hset
        rw [wantedBit, hfield]
        exact hset
  · rintro ⟨hfits, hwanted⟩
    refine ⟨?_, ?_⟩
    · intro i hi
      by_cases htop : Integral.bits F ≤ (value shift).natAbs + i
      · have hlost := hfits i hi htop
        rw [Int.testBit_land] at hlost
        rw [BitVec.getLsbD_of_ge _ _ htop, Bool.false_and, hlost]
      · rw [hwanted _ (not_le.mp htop), wantedBit, fieldBit_add, Nat.add_sub_cancel_left]
        cases (value mask).testBit i with
        | false => rw [Bool.and_false, Bool.and_false]
        | true => rfl
    · intro i hi hout
      rw [hwanted i hi, wantedBit, hout]
      rfl

/-! ### Masks that cover the flags -/

/-- The complement of the shifted mask keeps every bit of the flags above the mask's own type. -/
def CoversFlags (F S B : Type) [Integral F] [Integral S] [Integral B] {M : Type} [Integral M]
    (mask : M) (n : ℕ) : Prop :=
  anySigned F M S B = true ∨ Integral.bits F ≤ promotedBits M ∨
    isPromoted M = true ∧ value mask * 2 ^ n < 2 ^ 31

theorem fieldBit_eq_testBit (mask : M) (n i : ℕ) :
    fieldBit mask n i = (value mask * 2 ^ n).testBit i :=
  (testBit_mul_two_pow (value mask) n i).symm

theorem value_mask_nonneg (hany : anySigned F M S B = false) (mask : M) : 0 ≤ value mask := by
  have hM : Integral.signed M = false := by
    cases h : Integral.signed M with
    | false => rfl
    | true => simp [anySigned, h] at hany
  simp [value, hM]

theorem fieldBit_of_lt {n k i : ℕ} (hany : anySigned F M S B = false)
    (hsmall : value mask * 2 ^ n < 2 ^ k) (hi : k ≤ i) : fieldBit mask n i = false := by
  rw [fieldBit_eq_testBit]
  exact testBit_of_lt_two_pow (mul_nonneg (value_mask_nonneg hany mask) (by positivity)) hsmall hi

theorem keptBit_of_covers {n i : ℕ} (h : CoversFlags F S B mask n) (hi : i < Integral.bits F) :
    keptBit F S B mask n i = !fieldBit mask n i := by
  by_cases hM : anySigned F M S B = true ∨ i < promotedBits M
  · exact if_pos hM
  · have hany : anySigned F M S B = false := by simpa using fun h => hM (.inl h)
    rcases h with h | h | ⟨hpromoted, hsmall⟩
    · exact absurd (.inl h) hM
    · exact absurd (.inr (hi.trans_le h)) hM
    · have hge := promotedBits_ge (M := M)
      rw [keptBit, if_neg hM, hpromoted, fieldBit_of_lt hany hsmall (by omega),
        fieldBit_of_lt hany hsmall (by omega)]
      rfl

theorem placedBit_of_covers {n i : ℕ} (h : CoversFlags F S B mask n) (hi : i < Integral.bits F) :
    placedBit F S mask bits n i = (fieldBit mask n i && (value bits).testBit (i - n)) := by
  by_cases hcommon : anySigned F M S B = true ∨ i < max (promotedBits B) (promotedBits M)
  · exact if_pos hcommon
  · have hany : anySigned F M S B = false := by simpa using fun h => hcommon (.inl h)
    rcases h with h | h | ⟨_, hsmall⟩
    · exact absurd (.inl h) hcommon
    · exact absurd (.inr (hi.trans_le (h.trans (le_max_right _ _)))) hcommon
    · have hge := promotedBits_ge (M := M)
      rw [placedBit, if_neg hcommon, fieldBit_of_lt hany hsmall (i := i) (by omega),
        fieldBit_of_lt hany hsmall (by omega), Bool.false_and, Bool.and_false, Bool.false_and]

theorem setBits_wanted {i : ℕ} (hshift : 0 ≤ value shift) (hi : i < Integral.bits F)
    (hkept : keptBit F S B mask (value shift).natAbs i = !fieldBit mask (value shift).natAbs i)
    (hplaced : placedBit F S mask bits (value shift).natAbs i =
      (fieldBit mask (value shift).natAbs i &&
        (value bits).testBit (i - (value shift).natAbs))) :
    (Integral.toBits (BitOperations.setBits flags mask shift bits)).getLsbD i =
      wantedBit flags mask bits (value shift).natAbs i := by
  rw [getLsbD_setBits flags mask shift bits hi, plainCount_of_nonneg hshift, hkept, hplaced,
    wantedBit]
  cases fieldBit mask (value shift).natAbs i with
  | false => simp
  | true => simp

/-- Where the mask covers the flags, the field is replaced and nothing else. -/
theorem setBits_of_covers {i : ℕ} (hshift : 0 ≤ value shift)
    (h : CoversFlags F S B mask (value shift).natAbs) (hi : i < Integral.bits F) :
    (Integral.toBits (BitOperations.setBits flags mask shift bits)).getLsbD i =
      wantedBit flags mask bits (value shift).natAbs i :=
  setBits_wanted hshift hi (keptBit_of_covers h hi) (placedBit_of_covers h hi)

/-! ### Masks narrower than the flags -/

theorem testBit_wrap {A : Type} [Integral A] (z : ℤ) {i : ℕ} (hi : i < Integral.bits A) :
    (value (wrap z : A)).testBit i = z.testBit i := by
  have h := getLsbD_toBits (wrap z : A) i
  rw [getLsbD_wrap, decide_eq_true hi, Bool.true_and, Bool.true_and] at h
  exact h.symm

theorem promotedBits_of_ne (hB : Integral.bits B ≠ 64) : promotedBits B = 32 := by
  have hle : Integral.bits B ≤ 32 := by
    rcases CppInteger.width (α := B) with h | h | h | h <;> omega
  exact max_eq_left hle

/-- Only flags of 64 bits are wider than the promoted type of a mask. -/
theorem widths_of_not_covers {n : ℕ} (h : ¬ CoversFlags F S B mask n) :
    Integral.bits F = 64 ∧ promotedBits M = 32 ∧ anySigned F M S B = false := by
  have hany : anySigned F M S B = false := by simpa using fun hs => h (.inl hs)
  have hlt : promotedBits M < Integral.bits F := not_le.mp fun hle => h (.inr (.inl hle))
  have hge := promotedBits_ge (M := M)
  have hF : Integral.bits F = 64 := by
    rcases CppInteger.width (α := F) with hF | hF | hF | hF <;> omega
  have hM : Integral.bits M ≠ 64 := by
    intro hM
    have hle : Integral.bits M ≤ promotedBits M := le_max_right _ _
    omega
  exact ⟨hF, promotedBits_of_ne hM, hany⟩

/-- Above a mask that does not cover unsigned flags of 64 bits, its complement is extended with
ones or with zeros and the moved value likewise; the operands have to agree with that already. -/
def UpperBitAgrees (flags : F) (mask : M) (bits : B) (n i : ℕ) : Prop :=
  if isPromoted M = true ∧ fieldBit mask n 31 = false then
    -- The flags stay: a wide value is only added to them, a narrow one does not arrive.
    fieldBit mask n i = true →
      if Integral.bits B = 64 then
        (value flags).testBit i = true → (value bits).testBit (i - n) = true
      else (value flags).testBit i = (value bits).testBit (i - n)
  else if Integral.bits B = 64 then
    fieldBit mask n i = false → (value flags).testBit i = false
  else
    wantedBit flags mask bits n i =
      (isPromoted B && isPromoted M && (value bits).testBit (31 - n))

def UpperBitsAgree (flags : F) (mask : M) (bits : B) (n : ℕ) : Prop :=
  ∀ i, 32 ≤ i → i < 64 → UpperBitAgrees flags mask bits n i

theorem keptBit_upper {n i : ℕ} (h : ¬ CoversFlags F S B mask n) (hi : 32 ≤ i) :
    keptBit F S B mask n i = (isPromoted M && !fieldBit mask n 31) := by
  obtain ⟨_, hM, hany⟩ := widths_of_not_covers h
  have hupper : ¬ (anySigned F M S B = true ∨ i < promotedBits M) := by simp [hany, hM, hi]
  rw [keptBit, if_neg hupper, hM]

theorem placedBit_upper {n i : ℕ} (h : ¬ CoversFlags F S B mask n) (hi : 32 ≤ i) (hi' : i < 64) :
    placedBit F S mask bits n i =
      if Integral.bits B = 64 then fieldBit mask n i && (value bits).testBit (i - n)
      else isPromoted B && isPromoted M &&
        (fieldBit mask n 31 && (value bits).testBit (31 - n)) := by
  obtain ⟨_, hM, hany⟩ := widths_of_not_covers h
  by_cases hB : Integral.bits B = 64
  · have hwide : Integral.bits B ≤ promotedBits B := le_max_right _ _
    have hlt : i < max (promotedBits B) (promotedBits M) := lt_max_of_lt_left (by omega)
    rw [placedBit, if_pos (.inr hlt), if_pos hB]
  · have hcommon : max (promotedBits B) (promotedBits M) = 32 := by
      rw [promotedBits_of_ne hB, hM, max_self]
    have hupper : ¬ (anySigned F M S B = true ∨ i < 32) := by simp [hany, hi]
    rw [placedBit, hcommon, if_neg hupper, if_neg hB]

theorem setBits_upper_iff {i : ℕ} (hshift : 0 ≤ value shift)
    (h : ¬ CoversFlags F S B mask (value shift).natAbs) (hi : 32 ≤ i) (hi' : i < 64) :
    (Integral.toBits (BitOperations.setBits flags mask shift bits)).getLsbD i =
        wantedBit flags mask bits (value shift).natAbs i ↔
      UpperBitAgrees flags mask bits (value shift).natAbs i := by
  have hF : i < Integral.bits F := by
    rw [(widths_of_not_covers h).1]
    exact hi'
  rw [getLsbD_setBits flags mask shift bits hF, plainCount_of_nonneg hshift,
    keptBit_upper h hi, placedBit_upper h hi hi']
  unfold UpperBitAgrees wantedBit
  generalize (value shift).natAbs = n
  generalize fieldBit mask n i = inside
  generalize fieldBit mask n 31 = sign
  generalize (value flags).testBit i = old
  generalize (value bits).testBit (i - n) = new
  generalize (value bits).testBit (31 - n) = last
  by_cases hextends : isPromoted M = true ∧ sign = false
  · rw [if_pos hextends, hextends.1, hextends.2]
    by_cases hB : Integral.bits B = 64
    · simp only [if_pos hB]
      cases inside <;> cases old <;> simp [eq_comm]
    · simp only [if_neg hB]
      cases inside <;> simp
  · have hcleared : (isPromoted M && !sign) = false := by simpa using hextends
    rw [if_neg hextends, hcleared, Bool.and_false, Bool.false_or]
    by_cases hB : Integral.bits B = 64
    · simp only [if_pos hB]
      cases inside <;> simp [eq_comm]
    · -- The sign bit of the moved value is one of the field, so only its own bit counts.
      have hsign : (isPromoted M && (sign && last)) = (isPromoted M && last) := by
        cases hM : isPromoted M with
        | false => rfl
        | true => rw [Bool.eq_true_of_not_eq_false fun hs => hextends ⟨hM, hs⟩, Bool.true_and]
      simp only [if_neg hB, Bool.and_assoc, hsign]
      exact eq_comm

/-! ### Fields that make the round trip -/

/-- The condition on one call: a count inside the width of the plain shifts, no bit of the masked
value moved out of the flags, and upper flags that the mask covers or that agree by chance. -/
structure FieldHolds (flags : F) (mask : M) (shift : S) (bits : B) : Prop where
  nonneg : 0 ≤ value shift
  count_lt : value shift < shiftedBits F M S B
  fits : pattern (Integral.bits F) (Int.land (value bits) (value mask)) *
    2 ^ (value shift).natAbs < 2 ^ Integral.bits F
  upper : CoversFlags F S B mask (value shift).natAbs ∨
    UpperBitsAgree flags mask bits (value shift).natAbs

theorem count_lt_of_not_covers (h : ¬ CoversFlags F S B mask (value shift).natAbs)
    (hlt : value shift < shiftedBits F M S B) (hshift : 0 ≤ value shift) :
    (value shift).natAbs < 32 := by
  obtain ⟨_, hM, hany⟩ := widths_of_not_covers h
  have hwidth : shiftedBits F M S B = 32 := by rw [shiftedBits, hany, if_neg (by simp), hM]
  omega

theorem setBits_lower {i : ℕ} (hshift : 0 ≤ value shift) (hi : i < promotedBits M)
    (hF : i < Integral.bits F) :
    (Integral.toBits (BitOperations.setBits flags mask shift bits)).getLsbD i =
      wantedBit flags mask bits (value shift).natAbs i :=
  setBits_wanted hshift hF (if_pos (.inr hi)) (if_pos (.inr (hi.trans_le (le_max_right _ _))))

theorem roundTrip_iff :
    RoundTrip mode flags mask shift bits ↔ FieldHolds flags mask shift bits := by
  rw [roundTrip_iff_wanted]
  constructor
  · rintro ⟨⟨hnonneg, hlt⟩, hfits, hwanted⟩
    refine ⟨hnonneg, hlt, hfits, ?_⟩
    by_cases hcovers : CoversFlags F S B mask (value shift).natAbs
    · exact .inl hcovers
    · refine .inr fun i hi hi' => (setBits_upper_iff hnonneg hcovers hi hi').mp (hwanted i ?_)
      rwa [(widths_of_not_covers hcovers).1]
  · rintro ⟨hnonneg, hlt, hfits, hupper⟩
    refine ⟨⟨hnonneg, hlt⟩, hfits, ?_⟩
    intro i hi
    by_cases hcovers : CoversFlags F S B mask (value shift).natAbs
    · exact setBits_of_covers hnonneg hcovers hi
    · obtain ⟨hF, hM, -⟩ := widths_of_not_covers hcovers
      rcases lt_or_ge i 32 with hlow | hhigh
      · exact setBits_lower hnonneg (by omega) hi
      · exact (setBits_upper_iff hnonneg hcovers hhigh (by omega)).mpr
          (hupper.resolve_left hcovers i hhigh (by omega))

-- An unsigned mask of 32 bits clears the upper half of 64-bit flags.
example : BitOperations.setBits (0xFFFFFFFFFFFFFFFF : UInt64) (0xFF : UInt32) (0 : UInt32)
    (0 : UInt32) = 0xFFFFFF00 := by decide

/-! ### Fields of all flags and values -/

/-- The count is inside the width of the plain shifts, the mask covers the flags, and no bit of it
that a value of `B` can set leaves them. -/
structure FieldFits (F B : Type) [Integral F] [Integral B] {M S : Type} [Integral M] [Integral S]
    (mask : M) (shift : S) : Prop where
  nonneg : 0 ≤ value shift
  count_lt : value shift < shiftedBits F M S B
  covers : CoversFlags F S B mask (value shift).natAbs
  fits : pattern (Integral.bits F) (Int.land (value (wrap (-1) : B)) (value mask)) *
    2 ^ (value shift).natAbs < 2 ^ Integral.bits F

/-- All ones have every bit that some value of the type has. -/
theorem testBit_all_ones {i : ℕ} (h : (value bits).testBit i = true) :
    (value (wrap (-1) : B)).testBit i = true := by
  by_cases hi : i < Integral.bits B
  · rw [testBit_wrap _ hi, testBit_neg_one]
  · cases hB : Integral.signed B with
    | false =>
      rw [testBit_value_unsigned hB bits (not_lt.mp hi)] at h
      cases h
    | true =>
      have hpow : (2 : ℤ) ≤ 2 ^ Integral.bits B := by
        rcases CppInteger.width (α := B) with hw | hw | hw | hw <;> rw [hw] <;> decide
      rw [value_wrap_of_bounds hB (by omega) (by omega), testBit_neg_one]

theorem shifted_mask_lt {n : ℕ} (hany : anySigned F M S B = false) (hM : promotedBits M = 32)
    (hn : n < 32) : value mask * 2 ^ n < 2 ^ 63 := by
  have hnonneg := value_mask_nonneg hany mask
  have hle : Integral.bits M ≤ promotedBits M := le_max_right _ _
  have hmask : value mask < 2 ^ 32 := by
    calc value mask < 2 ^ Integral.bits M := (value_range mask).2
      _ ≤ 2 ^ 32 := pow_le_pow_right₀ (by decide) (hle.trans_eq hM)
  have hpow : (2 : ℤ) ^ n ≤ 2 ^ 31 := pow_le_pow_right₀ (by decide) (by omega)
  calc value mask * 2 ^ n ≤ value mask * 2 ^ 31 := Int.mul_le_mul_of_nonneg_left hpow hnonneg
    _ < 2 ^ 63 := by omega

/-- All ones and a field of zeros do not agree: an upper bit is lost, or one of the field stays. -/
theorem covers_of_upperBitsAgree {n : ℕ} (hn : n < 32)
    (h : UpperBitsAgree (wrap (-1) : F) mask (wrap 0 : B) n) : CoversFlags F S B mask n := by
  by_contra hcovers
  obtain ⟨hF, hM, hany⟩ := widths_of_not_covers hcovers
  have hones : ∀ i < 64, (value (wrap (-1) : F)).testBit i = true := fun i hi => by
    rw [testBit_wrap _ (by omega), testBit_neg_one]
  have hzero : ∀ i, (value (wrap 0 : B)).testBit i = false := fun i => by
    rw [BitOperations.value_wrap_zero]
    exact Nat.zero_testBit i
  have htop : fieldBit mask n 63 = false :=
    fieldBit_of_lt hany (shifted_mask_lt hany hM hn) le_rfl
  by_cases hextends : isPromoted M = true ∧ fieldBit mask n 31 = false
  · -- Nothing of the field is in the upper half, so the mask covers the flags after all.
    apply hcovers
    refine .inr (.inr ⟨hextends.1, ?_⟩)
    apply lt_two_pow_of_testBit (mul_nonneg (value_mask_nonneg hany mask) (by positivity))
    intro i hi
    rw [← fieldBit_eq_testBit]
    rcases hi.eq_or_lt with rfl | hhigh
    · exact hextends.2
    · by_cases hi' : i < 63
      · have hagrees := h i hhigh (by omega)
        rw [UpperBitAgrees, if_pos hextends, hones i (by omega), hzero] at hagrees
        apply Bool.eq_false_of_not_eq_true
        intro hfield
        have := hagrees hfield
        split at this <;> simp at this
      · exact fieldBit_of_lt hany (shifted_mask_lt hany hM hn) (not_lt.mp hi')
  · have hlast := h 63 (by decide) (by decide)
    rw [UpperBitAgrees, if_neg hextends, wantedBit, htop, hones 63 (by decide), hzero] at hlast
    split at hlast <;> simp [hzero] at hlast

/-- The flags hold the field whatever they and the value are. -/
theorem forall_roundTrip_iff :
    (∀ (flags : F) (bits : B), RoundTrip mode flags mask shift bits) ↔
      FieldFits F B mask shift := by
  constructor
  · intro h
    have hholds := fun flags bits => roundTrip_iff.mp (h flags bits)
    have hlast := hholds (wrap (-1)) (wrap 0)
    have hcovers : CoversFlags F S B mask (value shift).natAbs := by
      by_contra hcovers
      have hlt := count_lt_of_not_covers hcovers hlast.count_lt hlast.nonneg
      exact hcovers (covers_of_upperBitsAgree hlt (hlast.upper.resolve_left hcovers))
    exact ⟨hlast.nonneg, hlast.count_lt, hcovers, (hholds (wrap 0) (wrap (-1))).fits⟩
  · rintro ⟨hnonneg, hlt, hcovers, hfits⟩ flags bits
    refine roundTrip_iff.mpr ⟨hnonneg, hlt, ?_, .inl hcovers⟩
    rw [pattern_mul_two_pow_lt_iff] at hfits ⊢
    intro i hi htop
    have hlost := hfits i hi htop
    rw [Int.testBit_land] at hlost ⊢
    cases hbit : (value bits).testBit i with
    | false => rfl
    | true => rwa [testBit_all_ones hbit] at hlost

end RoundTrips

/-- The shifts return their unbounded meaning for all counts but the least one of a signed type
that is not promoted; a field makes the round trip exactly when its flags hold it. -/
theorem shifts_and_fields_exact (mode : SignedOverflow) :
    (∀ (V S : Type) [Integral V] [Integral S] (v : V) (shift : S),
      ((∃ calls, sal mode calls v shift = .ok (wrap (value v <<< value shift))) ↔
        ¬ MinimalCount shift) ∧
      ((∃ calls, sar mode calls v shift = .ok (wrap (value v >>> value shift))) ↔
        ¬ MinimalCount shift) ∧
      ((∃ calls, shl mode calls v shift = .ok (wrap (unsignedValue v <<< value shift))) ↔
        ¬ MinimalCount shift) ∧
      ((∃ calls, shr mode calls v shift = .ok (wrap (unsignedValue v >>> value shift))) ↔
        ¬ MinimalCount shift)) ∧
    (∀ (F M S B : Type) [CppInteger F] [CppInteger M] [CppInteger S] [CppInteger B]
      (flags : F) (mask : M) (shift : S) (bits : B),
      RoundTrip mode flags mask shift bits ↔ FieldHolds flags mask shift bits) := by
  refine ⟨?_, ?_⟩
  · intro V S _ _ v shift
    exact ⟨sal_iff, sar_iff, shl_iff, shr_iff⟩
  · intro F M S B _ _ _ _ flags mask shift bits
    exact roundTrip_iff

/-- One shifted to the left by the least `int`: the negation is out of range, or the left and the
right shift call each other without end. -/
theorem shifts_and_fields_minimal :
    (¬ ∃ calls, sal .undefined calls (1 : Int32) Int32.minValue =
      .ok (wrap (value (1 : Int32) <<< value Int32.minValue))) ∧
    ¬ ∃ calls, sal .wraps calls (1 : Int32) Int32.minValue =
      .ok (wrap (value (1 : Int32) <<< value Int32.minValue)) := by
  have hmin : MinimalCount Int32.minValue := by decide
  constructor
  · rintro ⟨calls, hok⟩
    exact shiftBy_minimal calls _ _ hmin hok
  · rintro ⟨calls, hok⟩
    exact shiftBy_minimal calls _ _ hmin hok

/-! ## The fields of the event classes -/

section Events

variable {M B : Type} [CppInteger M] [CppInteger B] {mask shift : M}

/-- A field of a flags word that is not empty. -/
theorem fieldFits_of_fits (h : PackedFlags.Fits mask shift)
    (hmask : BitVec.ofInt 32 (value mask) ≠ 0#32) (hB : Integral.bits B ≤ 32) :
    FieldFits Int32 B mask shift := by
  obtain ⟨hnonneg, -, hM, hkeep⟩ := h
  have hlost : ∀ i, 32 ≤ (value shift).natAbs + i →
      (BitVec.ofInt 32 (value mask)).getLsbD i = false := by
    intro i hi
    rw [← hkeep, BitVec.getLsbD_ushiftRight, BitVec.getLsbD_of_ge _ _ hi]
  have hlt : (value shift).natAbs < 32 := by
    by_contra hge
    apply hmask
    apply BitVec.eq_of_getLsbD_eq
    intro i hi
    rw [hlost i (by omega), BitVec.getLsbD_zero]
  have hwidth : shiftedBits Int32 M M B = 32 := by
    change max 32 (max 32 (max (Integral.bits M) (max (Integral.bits M) (Integral.bits B)))) = 32
    omega
  refine ⟨hnonneg, by omega, .inl rfl, ?_⟩
  rw [pattern_mul_two_pow_lt_iff]
  intro i hi htop
  have hbit := hlost i htop
  rw [getLsbD_ofInt, decide_eq_true (show i < 32 from hi), Bool.true_and] at hbit
  rw [Int.testBit_land, hbit, Bool.and_false]

/-- It comes back whatever the flags and the value are. -/
theorem roundTrip_of_fits {mode : SignedOverflow} (h : PackedFlags.Fits mask shift)
    (hmask : BitVec.ofInt 32 (value mask) ≠ 0#32) (hB : Integral.bits B ≤ 32) (flags : Int32)
    (bits : B) : RoundTrip mode flags mask shift bits :=
  forall_roundTrip_iff.mpr (fieldFits_of_fits h hmask hB) flags bits

end Events

end FieldRoundTrips
