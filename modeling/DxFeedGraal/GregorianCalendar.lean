import Mathlib.Data.Int.Basic
import Mathlib.Tactic.IntervalCases

/-! # The proleptic Gregorian calendar

Years are astronomical: year 0 is a leap year and -1 stands before it. The number of a date
grows by one from each date to the next, so different dates have different numbers. -/
namespace GregorianCalendar

def IsLeap (year : ℤ) : Prop := year % 4 = 0 ∧ (year % 100 ≠ 0 ∨ year % 400 = 0)

instance (year : ℤ) : Decidable (IsLeap year) := inferInstanceAs (Decidable (_ ∧ _))

def daysInMonth (year month : ℤ) : ℤ :=
  if month = 2 then if IsLeap year then 29 else 28
  else if month = 4 ∨ month = 6 ∨ month = 9 ∨ month = 11 then 30 else 31

structure Date where
  year : ℤ
  month : ℤ
  day : ℤ
  deriving DecidableEq, Repr

namespace Date

structure Valid (d : Date) : Prop where
  month_pos : 1 ≤ d.month
  month_le : d.month ≤ 12
  day_pos : 1 ≤ d.day
  day_le : d.day ≤ daysInMonth d.year d.month

def next (d : Date) : Date :=
  if d.day < daysInMonth d.year d.month then ⟨d.year, d.month, d.day + 1⟩
  else if d.month < 12 then ⟨d.year, d.month + 1, 1⟩
  else ⟨d.year + 1, 1, 1⟩

theorem daysInMonth_pos (year month : ℤ) : 28 ≤ daysInMonth year month := by
  unfold daysInMonth
  split_ifs <;> omega

theorem valid_next {d : Date} (h : d.Valid) : d.next.Valid := by
  obtain ⟨hm, hm', hd, hd'⟩ := h
  unfold next
  split
  next hlt =>
    constructor <;> dsimp only <;> omega
  next =>
    split
    next hlt =>
      have hpos := daysInMonth_pos d.year (d.month + 1)
      constructor <;> dsimp only <;> omega
    next =>
      have hpos := daysInMonth_pos (d.year + 1) 1
      constructor <;> dsimp only <;> omega

end Date

/-! ## Numbers of dates -/

/-- The days of the first months of a year. -/
def daysBefore (year : ℤ) : ℕ → ℤ
  | 0 => 0
  | k + 1 => daysBefore year k + daysInMonth year (k + 1)

def yearStart (year : ℤ) : ℤ :=
  year * 365 + (year - 1) / 4 - (year - 1) / 100 + (year - 1) / 400

def Date.number (d : Date) : ℤ :=
  yearStart d.year + daysBefore d.year (d.month - 1).toNat + (d.day - 1)

theorem daysBefore_twelve (year : ℤ) :
    daysBefore year 12 = if IsLeap year then 366 else 365 := by
  by_cases h : IsLeap year <;> norm_num [daysBefore, daysInMonth, h]

/-- A year is as long as its twelve months. -/
theorem yearStart_succ (year : ℤ) : yearStart (year + 1) = yearStart year + daysBefore year 12 := by
  rw [daysBefore_twelve]
  unfold yearStart IsLeap
  split_ifs <;> omega

theorem daysBefore_mono (year : ℤ) {k l : ℕ} (h : k ≤ l) :
    daysBefore year k ≤ daysBefore year l := by
  induction l, h using Nat.le_induction with
  | base => exact le_refl _
  | succ l _ ih =>
    have := Date.daysInMonth_pos year (l + 1)
    rw [daysBefore]
    omega

theorem yearStart_mono {y z : ℤ} (h : y ≤ z) : yearStart y ≤ yearStart z := by
  unfold yearStart
  omega

namespace Date

theorem number_next {d : Date} (h : d.Valid) : d.next.number = d.number + 1 := by
  obtain ⟨hm, hm', hd, hd'⟩ := h
  unfold next
  split
  next hlt =>
    unfold number
    dsimp only
    omega
  next hlast =>
    have hday : d.day = daysInMonth d.year d.month := by omega
    obtain ⟨k, hk⟩ := Int.eq_ofNat_of_zero_le (show 0 ≤ d.month - 1 by omega)
    have hmonth : d.month = k + 1 := by omega
    have hstep : daysBefore d.year (k + 1) = daysBefore d.year k + d.day := by
      rw [daysBefore, hday, hmonth]
    split
    next hlt =>
      have hnext : (d.month + 1 - 1).toNat = k + 1 := by omega
      have hthis : (d.month - 1).toNat = k := by omega
      unfold number
      dsimp only
      rw [hnext, hthis, hstep]
      omega
    next hdec =>
      have htwelve : k + 1 = 12 := by omega
      have hthis : (d.month - 1).toNat = k := by omega
      unfold number
      dsimp only
      rw [yearStart_succ, ← htwelve, hstep, hthis]
      change _ + 0 + _ = _
      omega

theorem number_bounds {d : Date} (h : d.Valid) :
    yearStart d.year + daysBefore d.year (d.month - 1).toNat ≤ d.number ∧
      d.number < yearStart d.year + daysBefore d.year d.month.toNat := by
  obtain ⟨hm, hm', hd, hd'⟩ := h
  obtain ⟨k, hk⟩ := Int.eq_ofNat_of_zero_le (show 0 ≤ d.month - 1 by omega)
  have hmonth : d.month = k + 1 := by omega
  have hthis : (d.month - 1).toNat = k := by omega
  have hend : d.month.toNat = k + 1 := by omega
  rw [hmonth] at hd'
  rw [number, hthis, hend, daysBefore]
  omega

theorem number_lt_of_year_lt {d e : Date} (hd : d.Valid) (he : e.Valid) (h : d.year < e.year) :
    d.number < e.number := by
  obtain ⟨-, hend⟩ := number_bounds hd
  obtain ⟨hstart, -⟩ := number_bounds he
  have hmonth := hd.month_le
  have hwhole := daysBefore_mono d.year (show d.month.toNat ≤ 12 by omega)
  have hnone := daysBefore_mono e.year (Nat.zero_le (e.month - 1).toNat)
  have hyears := yearStart_mono (show d.year + 1 ≤ e.year by omega)
  rw [yearStart_succ] at hyears
  rw [show daysBefore e.year 0 = 0 from rfl] at hnone
  omega

theorem number_lt_of_month_lt {d e : Date} (hd : d.Valid) (he : e.Valid) (h : d.year = e.year)
    (k : d.month < e.month) : d.number < e.number := by
  obtain ⟨-, hend⟩ := number_bounds hd
  obtain ⟨hstart, -⟩ := number_bounds he
  have hmonth := hd.month_pos
  have hmonths := daysBefore_mono d.year (show d.month.toNat ≤ (e.month - 1).toNat by omega)
  rw [← h] at hstart
  omega

/-- Valid dates with one number are one date. -/
theorem number_injective {d e : Date} (hd : d.Valid) (he : e.Valid) (h : d.number = e.number) :
    d = e := by
  have hyear : d.year = e.year := by
    rcases lt_trichotomy d.year e.year with hlt | heq | hgt
    · exact absurd h (number_lt_of_year_lt hd he hlt).ne
    · exact heq
    · exact absurd h.symm (number_lt_of_year_lt he hd hgt).ne
  have hmonth : d.month = e.month := by
    rcases lt_trichotomy d.month e.month with hlt | heq | hgt
    · exact absurd h (number_lt_of_month_lt hd he hyear hlt).ne
    · exact heq
    · exact absurd h.symm (number_lt_of_month_lt he hd hyear.symm hgt).ne
  have hday : d.day = e.day := by
    unfold number at h
    rw [hyear, hmonth] at h
    omega
  obtain ⟨year, month, day⟩ := d
  dsimp only at hyear hmonth hday
  rw [hyear, hmonth, hday]

end Date

end GregorianCalendar
