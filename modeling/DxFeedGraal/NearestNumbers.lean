import DxFeedGraal.Numerals
import Mathlib.Data.Int.Log
import Mathlib.Algebra.Order.Archimedean.Basic
import Mathlib.Algebra.Order.Field.Power
import Mathlib.Data.Rat.Floor
import Mathlib.Tactic.Linarith

/-! # Nearest numbers

A rounding takes every number to the nearest of the numbers it keeps. The binary formats are
roundings, with ties to the even significand; so is keeping every number. -/
namespace NearestNumbers

open Numerals

/-- The numbers that are kept are those that round to themselves. -/
structure Rounding where
  nearest : ℚ → ℚ
  neg : ∀ x, nearest (-x) = -nearest x
  one : nearest 1 = 1
  closest : ∀ x y, |x - nearest x| ≤ |x - nearest y|
  integers : ∀ x, nearest x = x → ∀ i : ℤ, |x - i| < 1 → nearest i = i

namespace Rounding

variable (r : Rounding)

def Keeps (x : ℚ) : Prop := r.nearest x = x

theorem keeps_zero : r.Keeps 0 := by
  have hneg := r.neg 0
  rw [neg_zero] at hneg
  rw [Keeps]
  linarith

variable {r}

theorem Keeps.closest {y : ℚ} (h : r.Keeps y) (x : ℚ) : |x - r.nearest x| ≤ |x - y| := by
  have hclosest := r.closest x y
  rwa [h] at hclosest

theorem Keeps.neg {x : ℚ} (h : r.Keeps x) : r.Keeps (-x) := by
  rw [Keeps, r.neg, h]

variable (r)

theorem keeps_nearest (x : ℚ) : r.Keeps (r.nearest x) := by
  have hclosest := r.closest (r.nearest x) x
  rw [sub_self, abs_zero] at hclosest
  have hzero := abs_nonpos_iff.mp hclosest
  rw [Keeps]
  linarith

theorem nearest_nonneg {x : ℚ} (h : 0 ≤ x) : 0 ≤ r.nearest x := by
  have hclosest := r.keeps_zero.closest x
  rw [sub_zero, abs_of_nonneg h] at hclosest
  linarith [le_abs_self (x - r.nearest x)]

theorem nearest_mono {x y : ℚ} (h : x ≤ y) : r.nearest x ≤ r.nearest y := by
  rcases h.eq_or_lt with rfl | hlt
  · exact le_rfl
  · by_contra hnot
    have hdrop := not_le.mp hnot
    have hx := sq_le_sq.mpr (r.closest x y)
    have hy := sq_le_sq.mpr (r.closest y x)
    nlinarith

theorem nearest_abs (x : ℚ) : r.nearest |x| = |r.nearest x| := by
  rcases le_total 0 x with hx | hx
  · rw [abs_of_nonneg hx, abs_of_nonneg (r.nearest_nonneg hx)]
  · have hneg := r.nearest_nonneg (neg_nonneg.mpr hx)
    rw [r.neg] at hneg
    rw [abs_of_nonpos hx, r.neg, abs_of_nonpos (neg_nonneg.mp hneg)]

def exact : Rounding where
  nearest x := x
  neg _ := rfl
  one := rfl
  closest x y := by simp
  integers _ _ _ _ := rfl

end Rounding

section HalfEven

theorem roundHalfEven_spec {q : ℚ} (h : 0 ≤ q) :
    |q - roundHalfEven q| < 1 / 2 ∨
      (|q - roundHalfEven q| = 1 / 2 ∧ Even (roundHalfEven q)) := by
  have hden : (0 : ℚ) < q.den := by exact_mod_cast q.den_pos
  have hnum : ((q.num.natAbs : ℕ) : ℚ) = q * q.den := by
    have hnonneg : 0 ≤ q.num := Rat.num_nonneg.mpr h
    rw [Rat.mul_den_eq_num, ← Int.cast_natCast, Int.natAbs_of_nonneg hnonneg]
  have hsplit : (q.den : ℚ) * (q.num.natAbs / q.den : ℕ) + (q.num.natAbs % q.den : ℕ)
      = q * q.den := by
    rw [← hnum]
    exact_mod_cast Nat.div_add_mod q.num.natAbs q.den
  have hlt : ((q.num.natAbs % q.den : ℕ) : ℚ) < q.den := by
    exact_mod_cast Nat.mod_lt q.num.natAbs q.den_pos
  have hrest : q - (q.num.natAbs / q.den : ℕ) = (q.num.natAbs % q.den : ℕ) / q.den := by
    rw [eq_div_iff hden.ne']
    linarith
  have hnonneg : (0 : ℚ) ≤ (q.num.natAbs % q.den : ℕ) / q.den := by positivity
  simp only [roundHalfEven]
  split
  next hbelow =>
    left
    have hcast : 2 * ((q.num.natAbs % q.den : ℕ) : ℚ) < q.den := by exact_mod_cast hbelow
    rw [hrest, abs_of_nonneg hnonneg, div_lt_iff₀ hden]
    linarith
  next hnot =>
    split
    next habove =>
      left
      have hcast : (q.den : ℚ) < 2 * (q.num.natAbs % q.den : ℕ) := by exact_mod_cast habove
      have hone : ((q.num.natAbs % q.den : ℕ) : ℚ) / q.den < 1 := (div_lt_one hden).mpr hlt
      have hhalf : 1 / 2 < ((q.num.natAbs % q.den : ℕ) : ℚ) / q.den := by
        rw [lt_div_iff₀ hden]
        linarith
      rw [Nat.cast_add, Nat.cast_one, ← sub_sub, hrest, abs_of_neg (by linarith)]
      linarith
    next hnot' =>
      right
      have htie : 2 * (q.num.natAbs % q.den) = q.den := by omega
      have hcast : 2 * ((q.num.natAbs % q.den : ℕ) : ℚ) = q.den := by exact_mod_cast htie
      have hhalf : ((q.num.natAbs % q.den : ℕ) : ℚ) / q.den = 1 / 2 := by
        rw [div_eq_iff hden.ne']
        linarith
      rcases Nat.mod_two_eq_zero_or_one (q.num.natAbs / q.den) with heven | hodd
      · rw [heven, Nat.add_zero, hrest, hhalf]
        exact ⟨abs_of_pos (by norm_num), Nat.even_iff.mpr heven⟩
      · rw [hodd, Nat.cast_add, Nat.cast_one, ← sub_sub, hrest, hhalf]
        refine ⟨by norm_num, Nat.even_iff.mpr ?_⟩
        omega

theorem roundHalfEven_error {q : ℚ} (h : 0 ≤ q) : |q - roundHalfEven q| ≤ 1 / 2 := by
  rcases roundHalfEven_spec h with hlt | ⟨heq, -⟩
  · exact hlt.le
  · exact heq.le

/-- No integer is nearer. -/
theorem roundHalfEven_closest {q : ℚ} (h : 0 ≤ q) (k : ℤ) :
    |q - roundHalfEven q| ≤ |q - k| := by
  by_cases hk : (roundHalfEven q : ℤ) = k
  · rw [← hk, Int.cast_natCast]
  · have hapart : (1 : ℚ) ≤ |(roundHalfEven q : ℚ) - k| := by
      have hint : 1 ≤ |(roundHalfEven q : ℤ) - k| := Int.one_le_abs (sub_ne_zero.mpr hk)
      exact_mod_cast hint
    have hsum := abs_sub_le (roundHalfEven q : ℚ) q k
    rw [abs_sub_comm _ q] at hsum
    linarith [roundHalfEven_error h]

/-- What is at least as near to the result as the rounded number rounds to it too. -/
theorem roundHalfEven_of_nearer {q z : ℚ} (hq : 0 ≤ q) (hz : 0 ≤ z)
    (h : |z - roundHalfEven q| ≤ |q - roundHalfEven q|) :
    roundHalfEven z = roundHalfEven q := by
  by_contra hne
  have hapart : (1 : ℚ) ≤ |(roundHalfEven z : ℚ) - roundHalfEven q| := by
    have hint : 1 ≤ |(roundHalfEven z : ℤ) - roundHalfEven q| :=
      Int.one_le_abs (sub_ne_zero.mpr (by exact_mod_cast hne))
    exact_mod_cast hint
  have hsum := abs_sub_le (roundHalfEven z : ℚ) z (roundHalfEven q)
  rw [abs_sub_comm _ z] at hsum
  have herror := roundHalfEven_error hz
  -- both are half way from `z`, so next to each other and both even
  rcases roundHalfEven_spec hq with hlt | ⟨hhalf, heven⟩
  · linarith
  · rcases roundHalfEven_spec hz with hlt' | ⟨-, heven'⟩
    · linarith
    · have hone : |(roundHalfEven z : ℤ) - roundHalfEven q| = 1 := by
        have hcast : |(roundHalfEven z : ℚ) - roundHalfEven q| = 1 := by linarith
        exact_mod_cast hcast
      obtain ⟨a, ha⟩ := heven
      obtain ⟨b, hb⟩ := heven'
      rcases abs_eq (by norm_num : (0 : ℤ) ≤ 1) |>.mp hone with hup | hdown
      · omega
      · omega

end HalfEven

section Binary

variable (precision : ℕ) (minExponent : ℤ)

/-- The distance of neighbouring numbers of the format in the binade of `q`. -/
def quantum (q : ℚ) : ℚ := 2 ^ max (Int.log 2 |q| - ((precision : ℤ) - 1)) minExponent

def binaryNearest (q : ℚ) : ℚ :=
  let magnitude := roundHalfEven (|q| / quantum precision minExponent q)
    * quantum precision minExponent q
  if q < 0 then -magnitude else magnitude

theorem quantum_pos (q : ℚ) : 0 < quantum precision minExponent q := by
  rw [quantum]
  positivity

theorem quantum_abs (q : ℚ) :
    quantum precision minExponent |q| = quantum precision minExponent q := by
  rw [quantum, quantum, abs_abs]

theorem binaryNearest_of_nonneg {q : ℚ} (h : 0 ≤ q) : binaryNearest precision minExponent q
    = roundHalfEven (q / quantum precision minExponent q) * quantum precision minExponent q := by
  simp only [binaryNearest, if_neg (not_lt.mpr h), abs_of_nonneg h]

theorem roundHalfEven_zero : roundHalfEven 0 = 0 := by decide

theorem binaryNearest_neg (q : ℚ) :
    binaryNearest precision minExponent (-q) = -binaryNearest precision minExponent q := by
  have hquantum : quantum precision minExponent (-q) = quantum precision minExponent q := by
    rw [quantum, quantum, abs_neg]
  simp only [binaryNearest, abs_neg, hquantum]
  rcases lt_trichotomy q 0 with hneg | rfl | hpos
  · rw [if_pos hneg, if_neg (by linarith), neg_neg]
  · simp [roundHalfEven_zero]
  · rw [if_neg hpos.not_gt, if_pos (by linarith)]

/-- Rounding moves a number by half a quantum at most. -/
theorem binaryNearest_error {q : ℚ} (h : 0 ≤ q) :
    |q - binaryNearest precision minExponent q| ≤ quantum precision minExponent q / 2 := by
  have hpos := quantum_pos precision minExponent q
  have herror := roundHalfEven_error (div_nonneg h hpos.le)
  have hscale : q - binaryNearest precision minExponent q
      = (q / quantum precision minExponent q
          - roundHalfEven (q / quantum precision minExponent q))
        * quantum precision minExponent q := by
    rw [binaryNearest_of_nonneg _ _ h, sub_mul, div_mul_cancel₀ _ hpos.ne']
  rw [hscale, abs_mul, abs_of_pos hpos]
  calc |q / quantum precision minExponent q
        - roundHalfEven (q / quantum precision minExponent q)| * quantum precision minExponent q
      ≤ 1 / 2 * quantum precision minExponent q := mul_le_mul_of_nonneg_right herror hpos.le
    _ = quantum precision minExponent q / 2 := by ring

/-- No multiple of the quantum is nearer. -/
theorem binaryNearest_closest_multiple {q : ℚ} (h : 0 ≤ q) (k : ℤ) :
    |q - binaryNearest precision minExponent q| ≤ |q - k * quantum precision minExponent q| := by
  have hpos := quantum_pos precision minExponent q
  have hclosest := roundHalfEven_closest (div_nonneg h hpos.le) k
  have hscale : ∀ z : ℚ, q - z * quantum precision minExponent q
      = (q / quantum precision minExponent q - z) * quantum precision minExponent q := by
    intro z
    rw [sub_mul, div_mul_cancel₀ _ hpos.ne']
  rw [binaryNearest_of_nonneg _ _ h, hscale, hscale, abs_mul, abs_mul]
  exact mul_le_mul_of_nonneg_right hclosest (abs_nonneg _)

/-- Every number of the format is a whole number of its quanta. -/
theorem binaryNearest_multiple (q : ℚ) :
    ∃ k : ℤ, binaryNearest precision minExponent q = k * quantum precision minExponent q := by
  simp only [binaryNearest]
  split
  next => exact ⟨-(roundHalfEven _ : ℤ), by push_cast; rw [neg_mul]⟩
  next => exact ⟨(roundHalfEven _ : ℤ), by push_cast; rfl⟩

/-- A power of two is a whole number of smaller ones. -/
theorem zpow_multiple {d e : ℤ} (h : d ≤ e) : ∃ k : ℤ, (2 : ℚ) ^ e = k * 2 ^ d := by
  refine ⟨2 ^ (e - d).toNat, ?_⟩
  push_cast
  rw [← zpow_natCast, ← zpow_add₀ (by norm_num), Int.toNat_of_nonneg (by omega)]
  congr 1
  omega

theorem quantum_multiple {q : ℚ} {e : ℤ} (h : quantum precision minExponent q ≤ 2 ^ e) :
    ∃ k : ℤ, (2 : ℚ) ^ e = k * quantum precision minExponent q :=
  zpow_multiple ((zpow_le_zpow_iff_right₀ (by norm_num)).mp h)

/-- A whole number of quanta is kept. -/
theorem binaryNearest_of_multiple {q : ℚ} (h : 0 ≤ q) {k : ℤ}
    (hk : q = k * quantum precision minExponent q) : binaryNearest precision minExponent q = q := by
  have hclosest := binaryNearest_closest_multiple precision minExponent h k
  rw [← hk, sub_self, abs_zero] at hclosest
  linarith [abs_nonpos_iff.mp hclosest]

/-- Rounding does not pass a power of two. -/
theorem binaryNearest_le {q : ℚ} {e : ℤ} (hq : 0 ≤ q) (hlt : q < 2 ^ e)
    (hquantum : quantum precision minExponent q ≤ 2 ^ e) :
    binaryNearest precision minExponent q ≤ 2 ^ e := by
  obtain ⟨k, hk⟩ := quantum_multiple precision minExponent hquantum
  have hclosest := binaryNearest_closest_multiple precision minExponent hq k
  rw [← hk, abs_of_neg (by linarith : q - 2 ^ e < 0)] at hclosest
  linarith [neg_abs_le (q - binaryNearest precision minExponent q)]

theorem abs_binaryNearest_le {q : ℚ} {e : ℤ} (hlt : |q| < 2 ^ e)
    (hquantum : quantum precision minExponent q ≤ 2 ^ e) :
    |binaryNearest precision minExponent q| ≤ 2 ^ e := by
  have hnonneg : ∀ x : ℚ, 0 ≤ x → 0 ≤ binaryNearest precision minExponent x := by
    intro x hx
    have hpos := quantum_pos precision minExponent x
    rw [binaryNearest_of_nonneg _ _ hx]
    positivity
  rcases le_total 0 q with hq | hq
  · rw [abs_of_nonneg (hnonneg q hq)]
    rw [abs_of_nonneg hq] at hlt
    exact binaryNearest_le precision minExponent hq hlt hquantum
  · have hle := neg_nonneg.mpr hq
    rw [abs_of_nonpos hq] at hlt
    rw [← neg_neg q, binaryNearest_neg, abs_neg, abs_of_nonneg (hnonneg _ hle)]
    refine binaryNearest_le precision minExponent hle hlt ?_
    rwa [← quantum_abs, abs_neg, quantum_abs]

variable {precision} (hprecision : 1 ≤ precision) {minExponent}
include hprecision

/-- Among the numbers of the format the rounded one is the closest: numbers of a coarser
binade are multiples of the quantum, and those of a finer one lie below the binade. -/
theorem binaryNearest_closest_of_nonneg {x : ℚ} (hx : 0 ≤ x) (y : ℚ) :
    |x - binaryNearest precision minExponent x| ≤ |x - binaryNearest precision minExponent y| := by
  rcases hx.eq_or_lt with rfl | hpos
  · have hzero : binaryNearest precision minExponent 0 = 0 :=
      binaryNearest_of_multiple precision minExponent le_rfl (k := 0) (by simp)
    rw [hzero, sub_self, abs_zero]
    exact abs_nonneg _
  · rcases le_or_gt (quantum precision minExponent x) (quantum precision minExponent y)
      with hle | hlt
    · obtain ⟨k, hk⟩ := binaryNearest_multiple precision minExponent y
      obtain ⟨l, hl⟩ := quantum_multiple precision minExponent
        (e := max (Int.log 2 |y| - ((precision : ℤ) - 1)) minExponent) hle
      have hy : binaryNearest precision minExponent y
          = (k * l : ℤ) * quantum precision minExponent x := by
        rw [hk, Int.cast_mul, mul_assoc, ← hl, quantum]
      rw [hy]
      exact binaryNearest_closest_multiple precision minExponent hx _
    · have hexponents := (zpow_lt_zpow_iff_right₀ (by norm_num : (1 : ℚ) < 2)).mp hlt
      rw [abs_of_pos hpos] at hexponents
      have hbelow : |y| < 2 ^ Int.log 2 x := by
        calc |y| < 2 ^ (Int.log 2 |y| + 1) := Int.lt_zpow_succ_log_self (by norm_num) _
          _ ≤ 2 ^ Int.log 2 x := zpow_le_zpow_right₀ (by norm_num) (by omega)
      have habove : 2 ^ Int.log 2 x ≤ x := Int.zpow_log_le_self (by norm_num) hpos
      have hquantum : quantum precision minExponent x ≤ 2 ^ Int.log 2 x := by
        rw [quantum, abs_of_pos hpos]
        exact zpow_le_zpow_right₀ (by norm_num) (by omega)
      have hy := abs_binaryNearest_le precision minExponent hbelow (hlt.le.trans hquantum)
      obtain ⟨k, hk⟩ := quantum_multiple precision minExponent hquantum
      calc |x - binaryNearest precision minExponent x|
          ≤ |x - 2 ^ Int.log 2 x| := by
            rw [hk]
            exact binaryNearest_closest_multiple precision minExponent hx k
        _ = x - 2 ^ Int.log 2 x := abs_of_nonneg (by linarith)
        _ ≤ x - binaryNearest precision minExponent y := by linarith [le_of_abs_le hy]
        _ ≤ |x - binaryNearest precision minExponent y| := le_abs_self _

theorem binaryNearest_closest (x y : ℚ) :
    |x - binaryNearest precision minExponent x| ≤ |x - binaryNearest precision minExponent y| := by
  rcases le_total 0 x with hx | hx
  · exact binaryNearest_closest_of_nonneg hprecision hx y
  · have hclosest : |-x - binaryNearest precision minExponent (-x)|
        ≤ |-x - binaryNearest precision minExponent (-y)| :=
      binaryNearest_closest_of_nonneg hprecision (neg_nonneg.mpr hx) (-y)
    rw [binaryNearest_neg, binaryNearest_neg, ← neg_sub', ← neg_sub', abs_neg, abs_neg] at hclosest
    exact hclosest

variable (hexponent : minExponent ≤ 0)
include hexponent

/-- Natural numbers with no more digits than the significand are kept. -/
theorem binaryNearest_natCast {n : ℕ} (h : n ≤ 2 ^ (precision - 1)) :
    binaryNearest precision minExponent n = n := by
  have hlog : Int.log 2 |(n : ℚ)| ≤ (precision : ℤ) - 1 := by
    have hnat : Nat.log 2 n ≤ precision - 1 := by
      calc Nat.log 2 n ≤ Nat.log 2 (2 ^ (precision - 1)) := Nat.log_mono_right h
        _ = precision - 1 := Nat.log_pow (by norm_num) _
    rw [Nat.abs_cast, Int.log_natCast]
    omega
  have hquantum : quantum precision minExponent n ≤ 2 ^ (0 : ℤ) :=
    zpow_le_zpow_right₀ (by norm_num) (by omega)
  obtain ⟨k, hk⟩ := quantum_multiple precision minExponent hquantum
  rw [zpow_zero] at hk
  refine binaryNearest_of_multiple precision minExponent (Nat.cast_nonneg n) (k := n * k) ?_
  rw [Int.cast_mul, mul_assoc, ← hk, mul_one, Int.cast_natCast]

/-- The integers next to a kept number are kept. -/
theorem binaryNearest_natCast_of_near {x : ℚ} (hx : binaryNearest precision minExponent x = x)
    {n : ℕ} (hnear : |x - n| < 1) : binaryNearest precision minExponent n = n := by
  rcases Nat.eq_zero_or_pos n with rfl | hn
  · exact binaryNearest_natCast hprecision hexponent (Nat.zero_le _)
  · have hone : (1 : ℚ) ≤ n := by exact_mod_cast hn
    have hbounds := abs_lt.mp hnear
    have hpos : 0 < x := by linarith
    rcases le_or_gt 0 (max (Int.log 2 |x| - ((precision : ℤ) - 1)) minExponent) with hle | hlt
    · -- the number is itself an integer
      obtain ⟨k, hk⟩ := binaryNearest_multiple precision minExponent x
      obtain ⟨l, hl⟩ := zpow_multiple hle
      have hint : x = (k * l : ℤ) := by
        rw [← hx, hk, quantum, hl, zpow_zero, mul_one, Int.cast_mul]
      rw [hint] at hnear
      have hdiff : |k * l - (n : ℤ)| < 1 := by exact_mod_cast hnear
      have hsame : k * l = (n : ℤ) := by
        have hzero := Int.abs_lt_one_iff.mp hdiff
        omega
      rw [hint, hsame, Int.cast_natCast] at hx
      exact hx
    · refine binaryNearest_natCast hprecision hexponent ?_
      have hlog : Int.log 2 |x| < (precision : ℤ) - 1 := by omega
      rw [abs_of_pos hpos, ← Int.lt_zpow_iff_log_lt (by norm_num) hpos] at hlog
      have hcast : ((2 : ℕ) : ℚ) ^ ((precision : ℤ) - 1) = ((2 ^ (precision - 1) : ℕ) : ℚ) := by
        rw [Nat.cast_pow, ← zpow_natCast]
        congr 1
        omega
      rw [hcast] at hlog
      have hsucc : (n : ℚ) < ((2 ^ (precision - 1) + 1 : ℕ) : ℚ) := by
        push_cast at hlog ⊢
        linarith
      exact Nat.lt_succ_iff.mp (by exact_mod_cast hsucc)

theorem binaryNearest_intCast_of_near {x : ℚ} (hx : binaryNearest precision minExponent x = x)
    {i : ℤ} (hnear : |x - i| < 1) : binaryNearest precision minExponent i = i := by
  rcases le_total 0 i with hi | hi
  · obtain ⟨n, rfl⟩ := Int.eq_ofNat_of_zero_le hi
    rw [Int.cast_natCast] at hnear ⊢
    exact binaryNearest_natCast_of_near hprecision hexponent hx hnear
  · obtain ⟨n, hn⟩ := Int.eq_ofNat_of_zero_le (neg_nonneg.mpr hi)
    obtain rfl : i = -(n : ℤ) := by omega
    rw [Int.cast_neg, Int.cast_natCast] at hnear ⊢
    have hneg : binaryNearest precision minExponent (-x) = -x := by rw [binaryNearest_neg, hx]
    have hnear' : |-x - n| < 1 := by
      rw [sub_neg_eq_add] at hnear
      rwa [← neg_add', abs_neg]
    rw [binaryNearest_neg, binaryNearest_natCast_of_near hprecision hexponent hneg hnear']

omit hprecision hexponent

/-- Kept numbers from one on are whole multiples of the quantum of one. -/
theorem multiple_of_one_le {x : ℚ} (hx : binaryNearest precision minExponent x = x)
    (hone : 1 ≤ |x|) : ∃ k : ℤ, x = k * 2 ^ (1 - (precision : ℤ)) := by
  have hlog : 0 ≤ Int.log 2 |x| := by
    rw [← Int.zpow_le_iff_le_log (by norm_num) (by linarith)]
    simpa using hone
  obtain ⟨k, hk⟩ := binaryNearest_multiple precision minExponent x
  obtain ⟨l, hl⟩ := zpow_multiple (d := 1 - (precision : ℤ))
    (e := max (Int.log 2 |x| - ((precision : ℤ) - 1)) minExponent) (by omega)
  refine ⟨k * l, ?_⟩
  rw [Int.cast_mul, mul_assoc, ← hl, ← quantum, ← hk, hx]

/-- Below two the error is half the quantum of one at most. -/
theorem binaryNearest_error_of_lt_two (hexponent : minExponent ≤ 1 - precision) {x : ℚ}
    (h : |x| < 2) :
    |x - binaryNearest precision minExponent x| ≤ 2 ^ (1 - (precision : ℤ)) / 2 := by
  have hquantum : quantum precision minExponent x ≤ 2 ^ (1 - (precision : ℤ)) := by
    have hlog : Int.log 2 |x| ≤ 0 := by
      rcases (abs_nonneg x).eq_or_lt with hzero | hpos
      · rw [← hzero, Int.log_zero_right]
      · have hlt : Int.log 2 |x| < 1 := by
          rw [← Int.lt_zpow_iff_log_lt (by norm_num) hpos]
          simpa using h
        omega
    exact zpow_le_zpow_right₀ (by norm_num) (by omega)
  have hnonneg : ∀ y : ℚ, 0 ≤ y → quantum precision minExponent y ≤ 2 ^ (1 - (precision : ℤ)) →
      |y - binaryNearest precision minExponent y| ≤ 2 ^ (1 - (precision : ℤ)) / 2 := by
    intro y hy hle
    linarith [binaryNearest_error precision minExponent hy]
  rcases le_total 0 x with hx | hx
  · exact hnonneg x hx hquantum
  · have hneg := hnonneg (-x) (neg_nonneg.mpr hx)
      (by rwa [← quantum_abs, abs_neg, quantum_abs])
    rwa [binaryNearest_neg, ← neg_sub', abs_neg] at hneg

/-- The binary format with the given length of the significand and least exponent. -/
def Rounding.binary (precision : ℕ) (minExponent : ℤ) (hprecision : 1 ≤ precision)
    (hexponent : minExponent ≤ 0) : Rounding where
  nearest := binaryNearest precision minExponent
  neg := binaryNearest_neg precision minExponent
  one := by
    have hone := binaryNearest_natCast hprecision hexponent (n := 1) Nat.one_le_two_pow
    rwa [Nat.cast_one] at hone
  closest := binaryNearest_closest hprecision
  integers _ hx _ hnear := binaryNearest_intCast_of_near hprecision hexponent hx hnear

/-- Rounded numbers less than the quantum of one apart are the same, or come from numbers
that are hardly farther apart. -/
theorem binary_apart (precision : ℕ) (minExponent : ℤ) (hprecision : 2 ≤ precision)
    (hexponent : minExponent ≤ 1 - precision) {x y : ℚ} (h : |binaryNearest precision minExponent x - binaryNearest precision minExponent y|
      < 2 ^ (1 - (precision : ℤ))) :
    binaryNearest precision minExponent x = binaryNearest precision minExponent y ∨
      |x - y| ≤ |binaryNearest precision minExponent x - binaryNearest precision minExponent y|
        + 2 ^ (1 - (precision : ℤ)) := by
  let r := Rounding.binary precision minExponent (by omega) (by omega)
  change |r.nearest x - r.nearest y| < _ at h
  have htwo : r.Keeps 2 := by
    have hpow : 2 ≤ 2 ^ (precision - 1) := by
      calc 2 = 2 ^ 1 := rfl
        _ ≤ 2 ^ (precision - 1) := Nat.pow_le_pow_right (by norm_num) (by omega)
    have hkeep : binaryNearest precision minExponent (2 : ℕ) = (2 : ℕ) :=
      binaryNearest_natCast (by omega) (by omega) hpow
    rwa [Nat.cast_ofNat] at hkeep
  have hsmall : ∀ z : ℚ, |r.nearest z| < 2 → |z| < 2 := by
    intro z hz
    by_contra hnot
    have hclosest := htwo.closest |z|
    rw [r.nearest_abs, abs_of_nonneg (by linarith : 0 ≤ |z| - 2)] at hclosest
    linarith [le_abs_self (|z| - |r.nearest z|)]
  have hquantum : (2 : ℚ) ^ (1 - (precision : ℤ)) ≤ 1 :=
    zpow_le_one_of_nonpos₀ (by norm_num) (by omega)
  have hdiff := abs_sub_abs_le_abs_sub (r.nearest x) (r.nearest y)
  have hdiff' := abs_sub_abs_le_abs_sub (r.nearest y) (r.nearest x)
  rw [abs_sub_comm] at hdiff'
  by_cases hlarge : 1 ≤ |r.nearest x| ∧ 1 ≤ |r.nearest y|
  · left
    obtain ⟨k, hk⟩ := multiple_of_one_le (r.keeps_nearest x) hlarge.1
    obtain ⟨l, hl⟩ := multiple_of_one_le (r.keeps_nearest y) hlarge.2
    have hpos : (0 : ℚ) < 2 ^ (1 - (precision : ℤ)) := by positivity
    rw [hk, hl, ← sub_mul, abs_mul, abs_of_pos hpos, mul_lt_iff_lt_one_left hpos] at h
    have hkl : k - l = 0 := Int.abs_lt_one_iff.mp (by exact_mod_cast h)
    change r.nearest x = r.nearest y
    rw [hk, hl, sub_eq_zero.mp hkl]
  · right
    have hboth : |r.nearest x| < 2 ∧ |r.nearest y| < 2 := by
      rcases not_and_or.mp hlarge with hx | hy
      · exact ⟨by linarith, by linarith⟩
      · exact ⟨by linarith, by linarith⟩
    have hx : |x - r.nearest x| ≤ _ := binaryNearest_error_of_lt_two hexponent (hsmall x hboth.1)
    have hy : |y - r.nearest y| ≤ _ := binaryNearest_error_of_lt_two hexponent (hsmall y hboth.2)
    have hsum := abs_sub_le x (r.nearest x) y
    have hsum' := abs_sub_le (r.nearest x) (r.nearest y) y
    rw [abs_sub_comm (r.nearest y)] at hsum'
    change _ ≤ |r.nearest x - r.nearest y| + _
    linarith

end Binary

end NearestNumbers
