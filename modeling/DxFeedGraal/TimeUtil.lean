import DxFeedGraal.FixedWidthIntegers
import Mathlib.Tactic.Linarith

/-! # Time arithmetic of the event classes

Milliseconds since the epoch split into seconds and a millisecond part, nanoseconds into
milliseconds and a nano part. Both splits round down, so the parts are never negative. -/
namespace TimeUtil

open FixedWidthIntegers

/-- Division truncates; a negative inexact quotient is lowered by one. -/
def floorDiv (x y : Int64) : Int64 :=
  let r := x / y
  if (decide (x < 0) != decide (y < 0)) && decide (r * y ≠ x) then r - 1 else r

def floorMod (x y : Int64) : Int64 := x - floorDiv x y * y

def SECOND : Int64 := 1000
def NANOS_IN_MILLIS : Int64 := 1000000

def getMillisFromTime (timeMillis : Int64) : Int32 := staticCast (floorMod timeMillis SECOND)

/-- Seconds saturate at the limits of the 32-bit result. -/
def getSecondsFromTime (timeMillis : Int64) : Int32 :=
  if timeMillis ≥ 0 then
    let seconds := timeMillis / SECOND
    staticCast (if 2147483647 < seconds then 2147483647 else seconds)
  else
    let seconds := (timeMillis + 1) / SECOND - 1
    staticCast (if seconds < -2147483648 then -2147483648 else seconds)

def getNanosFromMillisAndNanoPart (timeMillis : Int64) (timeNanoPart : Int32) : Int64 :=
  timeMillis * NANOS_IN_MILLIS + staticCast timeNanoPart

def getMillisFromNanos (timeNanos : Int64) : Int64 := floorDiv timeNanos NANOS_IN_MILLIS

def getNanoPartFromNanos (timeNanos : Int64) : Int32 :=
  staticCast (floorMod timeNanos NANOS_IN_MILLIS)

theorem toInt_second : SECOND.toInt = 1000 := rfl
theorem toInt_nanos_in_millis : NANOS_IN_MILLIS.toInt = 1000000 := rfl

theorem bmod_int64 {z : ℤ} (h : -2 ^ 63 ≤ z) (k : z < 2 ^ 63) : z.bmod (2 ^ 64) = z :=
  Int.bmod_eq_of_le_mul_two (by push_cast; omega) (by push_cast; omega)

theorem tdiv_of_neg {x y : ℤ} (hx : x < 0) (hy : 0 < y) :
    x.tdiv y = if y ∣ x then x / y else x / y + 1 := by
  rw [Int.tdiv_eq_ediv, Int.sign_eq_one_of_pos hy]
  by_cases hd : y ∣ x
  · simp [hd]
  · simp [hd, hx]

/-- The truncated multiple lies between zero and the dividend. -/
theorem tdiv_mul_between {x y : ℤ} (hy : 0 < y) :
    (0 ≤ x → 0 ≤ x.tdiv y * y ∧ x.tdiv y * y ≤ x) ∧
    (x < 0 → x ≤ x.tdiv y * y ∧ x.tdiv y * y ≤ 0) := by
  have hle : x / y * y ≤ x := Int.ediv_mul_le x hy.ne'
  have hlt : x < (x / y + 1) * y := Int.lt_ediv_add_one_mul_self x hy
  constructor
  · intro hx
    rw [Int.tdiv_eq_ediv_of_nonneg hx]
    exact ⟨Int.mul_nonneg (Int.ediv_nonneg hx hy.le) hy.le, hle⟩
  · intro hx
    have hneg : x / y + 1 ≤ 0 := by
      have := Int.ediv_neg_of_neg_of_pos hx hy
      omega
    rw [tdiv_of_neg hx hy]
    split
    next hd =>
      rw [Int.ediv_mul_cancel hd]
      exact ⟨le_rfl, hx.le⟩
    next => exact ⟨hlt.le, Int.mul_nonpos_of_nonpos_of_nonneg hneg hy.le⟩

theorem tdiv_between {x y : ℤ} (hy : 0 < y) :
    (0 ≤ x → 0 ≤ x.tdiv y ∧ x.tdiv y ≤ x) ∧ (x < 0 → x ≤ x.tdiv y ∧ x.tdiv y ≤ 0) := by
  constructor
  · intro hx
    rw [Int.tdiv_eq_ediv_of_nonneg hx]
    exact ⟨Int.ediv_nonneg hx hy.le, Int.ediv_le_self y hx⟩
  · intro hx
    have hneg : (-x).tdiv y = -x.tdiv y := Int.neg_tdiv x y
    rw [Int.tdiv_eq_ediv_of_nonneg (by omega)] at hneg
    have := Int.ediv_nonneg (show 0 ≤ -x by omega) hy.le
    have := Int.ediv_le_self y (show 0 ≤ -x by omega)
    omega

theorem toInt_div_positive (x : Int64) {y : Int64} (hy : 0 < y.toInt) :
    (x / y).toInt = x.toInt.tdiv y.toInt := by
  have hx := int64_bounds x
  have hb := tdiv_between (x := x.toInt) hy
  rw [Int64.toInt_div, bmod_int64] <;> omega

theorem toInt_div_mul (x : Int64) {y : Int64} (hy : 0 < y.toInt) :
    (x / y * y).toInt = x.toInt.tdiv y.toInt * y.toInt := by
  have hx := int64_bounds x
  have hb := tdiv_mul_between (x := x.toInt) hy
  rw [Int64.toInt_mul, toInt_div_positive x hy, bmod_int64] <;> omega

theorem toInt_floorDiv (x : Int64) {y : Int64} (hy : 0 < y.toInt) :
    (floorDiv x y).toInt = x.toInt / y.toInt := by
  have hxb := int64_bounds x
  have hy' : ¬ y < 0 := by rw [Int64.lt_iff_toInt_lt, Int64.toInt_zero]; omega
  have hexact : x / y * y ≠ x ↔ ¬ y.toInt ∣ x.toInt := by
    rw [not_iff_not, ← Int64.toInt_inj, toInt_div_mul x hy]
    exact ⟨fun h => ⟨_, by rw [mul_comm]; exact h.symm⟩, Int.tdiv_mul_cancel⟩
  by_cases hx : x.toInt < 0
  · have hx' : x < 0 := by rw [Int64.lt_iff_toInt_lt, Int64.toInt_zero]; exact hx
    have hq := toInt_div_positive x hy
    rw [tdiv_of_neg hx hy] at hq
    by_cases hd : y.toInt ∣ x.toInt
    · have : x / y * y = x := by
        by_contra h
        exact hexact.mp h hd
      simp only [floorDiv, this]
      simpa [hd] using hq
    · have hne := hexact.mpr hd
      rw [if_neg hd] at hq
      have hdown : floorDiv x y = x / y - 1 := by simp [floorDiv, hx', hy', hne]
      have hb := tdiv_between (x := x.toInt) hy
      rw [tdiv_of_neg hx hy, if_neg hd] at hb
      have hlow : x.toInt ≤ x.toInt / y.toInt := by
        have h₁ : x.toInt * y.toInt ≤ x.toInt := by nlinarith
        exact (Int.le_ediv_iff_mul_le hy).mpr h₁
      rw [hdown, Int64.toInt_sub, hq, Int64.toInt_one, bmod_int64] <;> omega
  · have hx' : ¬ x < 0 := by rw [Int64.lt_iff_toInt_lt, Int64.toInt_zero]; exact hx
    have hsame : floorDiv x y = x / y := by simp [floorDiv, hx', hy']
    rw [hsame, toInt_div_positive x hy, Int.tdiv_eq_ediv_of_nonneg (by omega)]

theorem toInt_floorMod (x : Int64) {y : Int64} (hy : 0 < y.toInt) :
    (floorMod x y).toInt = x.toInt % y.toInt := by
  have hyb := int64_bounds y
  have h₁ := Int.emod_nonneg x.toInt hy.ne'
  have h₂ := Int.emod_lt_of_pos x.toInt hy
  rw [floorMod, Int64.toInt_sub, Int64.toInt_mul, toInt_floorDiv x hy, Int.sub_bmod_bmod,
    mul_comm, ← Int.emod_def, bmod_int64] <;> omega

theorem toInt_getMillisFromTime (t : Int64) : (getMillisFromTime t).toInt = t.toInt % 1000 := by
  have h := toInt_floorMod t (y := SECOND) (by decide)
  rw [toInt_second] at h
  rw [getMillisFromTime, staticCast, value_int64, h, toInt_wrap_int32] <;> omega

/-- Floor division by a second, saturated to 32 bits; the negative branch rounds down too. -/
theorem toInt_getSecondsFromTime (t : Int64) :
    (getSecondsFromTime t).toInt = max (-2 ^ 31) (min (t.toInt / 1000) (2 ^ 31 - 1)) := by
  have htb := int64_bounds t
  have hge : t ≥ 0 ↔ 0 ≤ t.toInt := by rw [ge_iff_le, Int64.le_iff_toInt_le, Int64.toInt_zero]
  by_cases ht : 0 ≤ t.toInt
  · have hq : (t / SECOND).toInt = t.toInt / 1000 := by
      rw [toInt_div_positive t (by decide), toInt_second, Int.tdiv_eq_ediv_of_nonneg ht]
    have hlt : 2147483647 < t / SECOND ↔ 2 ^ 31 - 1 < t.toInt / 1000 := by
      rw [Int64.lt_iff_toInt_lt, hq]; rfl
    have hval : (if 2147483647 < t / SECOND then (2147483647 : Int64) else t / SECOND).toInt =
        min (t.toInt / 1000) (2 ^ 31 - 1) := by
      simp only [hlt]
      split
      next h => rw [min_eq_right h.le]; rfl
      next h => rw [hq, min_eq_left (by omega)]
    simp only [getSecondsFromTime, hge, ht, if_true]
    rw [staticCast, value_int64, hval, toInt_wrap_int32] <;> omega
  · have hadd : (t + 1).toInt = t.toInt + 1 := by
      rw [Int64.toInt_add, Int64.toInt_one, bmod_int64] <;> omega
    have hq : ((t + 1) / SECOND).toInt = t.toInt / 1000 + 1 := by
      rw [toInt_div_positive (t + 1) (by decide), toInt_second, hadd]
      have hneg := Int.neg_tdiv (-(t.toInt + 1)) 1000
      rw [neg_neg, Int.tdiv_eq_ediv_of_nonneg (a := -(t.toInt + 1)) (by omega)] at hneg
      omega
    have hsub : ((t + 1) / SECOND - 1).toInt = t.toInt / 1000 := by
      rw [Int64.toInt_sub, hq, Int64.toInt_one, bmod_int64] <;> omega
    have hlt : (t + 1) / SECOND - 1 < -2147483648 ↔ t.toInt / 1000 < -2 ^ 31 := by
      rw [Int64.lt_iff_toInt_lt, hsub]; rfl
    have hval : (if (t + 1) / SECOND - 1 < -2147483648 then (-2147483648 : Int64)
        else (t + 1) / SECOND - 1).toInt = max (-2 ^ 31) (t.toInt / 1000) := by
      simp only [hlt]
      split
      next h => rw [max_eq_left h.le]; rfl
      next h => rw [hsub, max_eq_right (by omega)]
    simp only [getSecondsFromTime, hge, ht, if_false]
    rw [staticCast, value_int64, hval, toInt_wrap_int32] <;> omega

theorem toInt_getMillisFromNanos (n : Int64) :
    (getMillisFromNanos n).toInt = n.toInt / 1000000 := by
  rw [getMillisFromNanos, toInt_floorDiv n (by decide), toInt_nanos_in_millis]

theorem toInt_getNanoPartFromNanos (n : Int64) :
    (getNanoPartFromNanos n).toInt = n.toInt % 1000000 := by
  have h := toInt_floorMod n (y := NANOS_IN_MILLIS) (by decide)
  rw [toInt_nanos_in_millis] at h
  rw [getNanoPartFromNanos, staticCast, value_int64, h, toInt_wrap_int32] <;> omega

/-- Recombining the parts of a nanosecond time overflows only below the least 64-bit value. -/
theorem getNanos_of_parts {millis : Int64} {nano : Int32} {n : Int64}
    (hm : millis.toInt = n.toInt / 1000000) (hn : nano.toInt = n.toInt % 1000000) :
    getNanosFromMillisAndNanoPart millis nano = n := by
  have hb := int64_bounds n
  have hnano : (staticCast nano : Int64).toInt = n.toInt % 1000000 := by
    rw [staticCast, value_int32, hn, toInt_wrap_int64] <;> omega
  rw [← Int64.toInt_inj, getNanosFromMillisAndNanoPart, Int64.toInt_add, Int64.toInt_mul, hm,
    hnano, toInt_nanos_in_millis, Int.bmod_add_bmod, bmod_int64] <;> omega

end TimeUtil
