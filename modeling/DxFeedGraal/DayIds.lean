import DxFeedGraal.GregorianCalendar
import Mathlib.Algebra.Order.Ring.Abs
import Mathlib.Tactic.SplitIfs

/-! # Day identifiers

A day identifier counts the days since January 1, 1970. It is turned into a number `yyyymmdd`
and a date into an identifier in 32-bit arithmetic; a result out of range has no value. -/
namespace DayIds

open GregorianCalendar

inductive Failure where
  | invalidArgumentException (message : String)
  /-- Signed overflow is undefined. -/
  | overflow
  deriving DecidableEq, Repr

abbrev Checked (α : Type) := Except Failure α

def InRange (z : ℤ) : Prop := -2 ^ 31 ≤ z ∧ z < 2 ^ 31

instance (z : ℤ) : Decidable (InRange z) := inferInstanceAs (Decidable (_ ∧ _))

/-- The result of one operation of `std::int32_t`. -/
def int32 (z : ℤ) : Checked ℤ := if InRange z then .ok z else .error .overflow

/-! ## The source -/

/-- `math_util::div`, with the truncating division of the language. -/
def div (a b : ℤ) : Checked ℤ := do
  if a ≥ 0 then return a.tdiv b
  else if b ≥ 0 then int32 ((← int32 (a + 1)).tdiv b - 1)
  else int32 ((← int32 (a + 1)).tdiv b + 1)

def abs (a : ℤ) : Checked ℤ := if a < 0 then int32 (-a) else .ok a

def DAY_OF_YEAR : List ℤ := [0, 0, 31, 59, 90, 120, 151, 181, 212, 243, 273, 304, 334, 365]

def getYearMonthDayByDayId (dayId : Int32) : Checked Int32 := do
  let j ← int32 (dayId.toInt + 2472632)
  let g ← div j 146097
  let dg ← int32 (j - (← int32 (g * 146097)))
  let c := (← int32 ((← int32 (dg.tdiv 36524 + 1)) * 3)).tdiv 4
  let dc ← int32 (dg - (← int32 (c * 36524)))
  let b := dc.tdiv 1461
  let db ← int32 (dc - (← int32 (b * 1461)))
  let a := (← int32 ((← int32 (db.tdiv 365 + 1)) * 3)).tdiv 4
  let da ← int32 (db - (← int32 (a * 365)))
  let y ← int32 ((← int32 ((← int32 ((← int32 (g * 400)) + (← int32 (c * 100)))) +
    (← int32 (b * 4)))) + a)
  let m ← int32 ((← int32 ((← int32 (da * 5)) + 308)).tdiv 153 - 2)
  let d ← int32 ((← int32 (da - (← int32 ((← int32 (m + 4)) * 153)).tdiv 5)) + 122)
  let yyyy ← int32 ((← int32 (y - 4800)) + (← int32 (m + 2)).tdiv 12)
  let mm ← int32 ((← int32 (m + 2)).tmod 12 + 1)
  let dd ← int32 (d + 1)
  let yyyymmdd ← int32 ((← int32 ((← int32 ((← abs yyyy) * 10000)) + (← int32 (mm * 100)))) + dd)
  return Int32.ofInt (← if yyyy ≥ 0 then pure yyyymmdd else int32 (-yyyymmdd))

def getDayIdByYearMonthDay (year month day : Int32) : Checked Int32 := do
  let year := year.toInt
  let month := month.toInt
  if month < 1 ∨ month > 12 then
    throw (.invalidArgumentException ("invalid month " ++ toString month))
  let dayOfYear ← int32 ((← int32 (DAY_OF_YEAR.getD month.toNat 0 + day.toInt)) - 1)
  let dayOfYear ←
    if month > 2 ∧ year.tmod 4 = 0 ∧ (year.tmod 100 ≠ 0 ∨ year.tmod 400 = 0) then
      int32 (dayOfYear + 1)
    else pure dayOfYear
  let before ← int32 (year - 1)
  let leaps ← int32 ((← int32 ((← int32 ((← int32 (year * 365)) + (← div before 4))) -
    (← div before 100))) + (← div before 400))
  return Int32.ofInt (← int32 ((← int32 (leaps + dayOfYear)) - 719527))

/-! ## Their meaning -/

/-- The documented encoding, `yearSign * (abs(year) * 10000 + month * 100 + day)`. -/
def code (d : Date) : ℤ :=
  (if d.year ≥ 0 then 1 else -1) * (|d.year| * 10000 + d.month * 100 + d.day)

def epoch : Date := ⟨1970, 1, 1⟩

/-- The days from the epoch to a date. -/
def dayNumber (d : Date) : ℤ := d.number - epoch.number

/-! ## Evaluation of checked arithmetic -/

theorem int32_of_inRange {z : ℤ} (h : InRange z) : int32 z = .ok z := if_pos h

theorem int32_of_not_inRange {z : ℤ} (h : ¬ InRange z) : int32 z = .error .overflow := if_neg h

theorem ok_bind {α β : Type} (a : α) (f : α → Checked β) : (Except.ok a >>= f) = f a := rfl

theorem error_bind {α β : Type} (e : Failure) (f : α → Checked β) :
    ((.error e : Checked α) >>= f) = .error e := rfl

/-- A positive divisor gives the floor of the quotient. -/
theorem div_of_pos {a b : ℤ} (hb : 0 < b) (ha : InRange a) : div a b = .ok (a / b) := by
  obtain ⟨hlo, hhi⟩ := ha
  unfold div
  split
  next hpos => exact congrArg Except.ok (Int.tdiv_eq_ediv_of_nonneg hpos)
  next hneg =>
    obtain ⟨n, hn⟩ := Int.eq_ofNat_of_zero_le (show 0 ≤ -(a + 1) by omega)
    have ha : a = Int.negSucc n := by omega
    have htrunc : (a + 1).tdiv b = -((n : ℤ) / b) := by
      rw [show a + 1 = -(n : ℤ) by omega, Int.neg_tdiv, Int.tdiv_eq_ediv_of_nonneg (by omega)]
    have hfloor : a / b = -((n : ℤ) / b + 1) := by rw [ha]; exact Int.negSucc_ediv n hb
    have hq : (n : ℤ) / b ≤ n := Int.ediv_le_self b (by omega)
    have hq' : 0 ≤ (n : ℤ) / b := Int.ediv_nonneg (by omega) hb.le
    rw [if_pos hb.le, int32_of_inRange ⟨by omega, by omega⟩, ok_bind, htrunc,
      int32_of_inRange ⟨by omega, by omega⟩, hfloor]
    congr 1
    omega

theorem abs_eq {a : ℤ} (h : InRange |a|) : abs a = .ok |a| := by
  unfold abs
  split
  next hneg =>
    rw [abs_of_neg hneg] at h ⊢
    exact int32_of_inRange h
  next hpos => rw [abs_of_nonneg (not_lt.mp hpos)]

/-! ## From a day to a date -/

/-- A day within the cycles of 400, 100, 4 and 1 years, each counted from the first of March. -/
structure Cycle (j g c b a da : ℤ) : Prop where
  sum : j = g * 146097 + c * 36524 + b * 1461 + a * 365 + da
  century : 0 ≤ c ∧ c ≤ 3
  olympiad : 0 ≤ b ∧ b ≤ 24
  year : 0 ≤ a ∧ a ≤ 3
  day : 0 ≤ da ∧ da ≤ 365
  leap : da = 365 → a = 3 ∧ (b = 24 → c = 3)

/-- The date of the last stage, its month counted from March. -/
def dateOf (g c b a da : ℤ) : Date :=
  let y := g * 400 + c * 100 + b * 4 + a
  let m := (da * 5 + 308) / 153 - 2
  ⟨y - 4800 + (m + 2) / 12, (m + 2) % 12 + 1, da - (m + 4) * 153 / 5 + 122 + 1⟩

theorem valid_dateOf {j g c b a da : ℤ} (h : Cycle j g c b a da) : (dateOf g c b a da).Valid := by
  obtain ⟨hj, hc, hb, ha, hda, hleap⟩ := h
  obtain ⟨m, hm⟩ : ∃ m, m = (da * 5 + 308) / 153 - 2 := ⟨_, rfl⟩
  have hm0 : 0 ≤ m := by omega
  have hm11 : m ≤ 11 := by omega
  constructor <;> simp only [dateOf, ← hm]
  · omega
  · omega
  · omega
  · unfold daysInMonth IsLeap
    interval_cases m <;> norm_num <;> omega

/-- The table of the source with its leap day. -/
theorem daysBefore_eq (year : ℤ) {month : ℤ} (h : 1 ≤ month) (h' : month ≤ 12) :
    daysBefore year (month - 1).toNat =
      DAY_OF_YEAR.getD month.toNat 0 + if month > 2 ∧ IsLeap year then 1 else 0 := by
  by_cases hleap : IsLeap year <;> simp only [hleap, and_true, and_false, if_false] <;>
    interval_cases month <;>
    simp [daysBefore, daysInMonth, hleap, DAY_OF_YEAR]

theorem dayNumber_eq {d : Date} (h : d.Valid) :
    dayNumber d = yearStart d.year + (DAY_OF_YEAR.getD d.month.toNat 0 +
      if d.month > 2 ∧ IsLeap d.year then 1 else 0) + (d.day - 1) - 719527 := by
  unfold dayNumber Date.number
  rw [daysBefore_eq d.year h.month_pos h.month_le]
  rfl

/-- Where a year that is counted in cycles begins. -/
theorem yearStart_cycles {g c b a y : ℤ} (hc : 0 ≤ c ∧ c ≤ 3) (hb : 0 ≤ b ∧ b ≤ 24)
    (ha : 0 ≤ a ∧ a ≤ 3) (hy : y = g * 400 + c * 100 + b * 4 + a - 4800) :
    yearStart y = g * 146097 + c * 36524 + b * 1461 + a * 365 + (if IsLeap y then 0 else 1) -
      1753165 := by
  unfold yearStart IsLeap
  split_ifs <;> omega

/-- The table of the source in months counted from March. -/
theorem table_march {m : ℤ} (h : 0 ≤ m) (h' : m ≤ 11) :
    DAY_OF_YEAR.getD ((m + 2) % 12 + 1).toNat 0 =
      59 + ((m + 4) * 153 / 5 - 122) - 365 * ((m + 2) / 12) := by
  interval_cases m <;> rfl

theorem dayNumber_dateOf {j g c b a da : ℤ} (h : Cycle j g c b a da) :
    dayNumber (dateOf g c b a da) = j - 2472632 := by
  rw [dayNumber_eq (valid_dateOf h)]
  obtain ⟨hj, hc, hb, ha, hda, -⟩ := h
  obtain ⟨m, hm⟩ : ∃ m, m = (da * 5 + 308) / 153 - 2 := ⟨_, rfl⟩
  have hm0 : 0 ≤ m := by omega
  have hm11 : m ≤ 11 := by omega
  obtain ⟨y, hy⟩ : ∃ y, y = g * 400 + c * 100 + b * 4 + a - 4800 := ⟨_, rfl⟩
  have hstart := yearStart_cycles hc hb ha hy
  have hnext := yearStart_succ y
  rw [daysBefore_twelve] at hnext
  simp only [dateOf, ← hm, ← hy]
  rw [table_march hm0 hm11]
  rcases le_or_gt m 9 with hmarch | hwinter
  · have hquot : (m + 2) / 12 = 0 := by omega
    have hmonth : (m + 2) % 12 + 1 > 2 := by omega
    rw [hquot, add_zero]
    by_cases hl : IsLeap y
    · rw [if_pos ⟨hmonth, hl⟩]
      rw [if_pos hl] at hstart
      omega
    · rw [if_neg fun h => hl h.2]
      rw [if_neg hl] at hstart
      omega
  · -- January and February stand at the end of the years that begin in March.
    have hquot : (m + 2) / 12 = 1 := by omega
    have hmonth : ¬ (m + 2) % 12 + 1 > 2 := by omega
    rw [hquot, if_neg fun h => hmonth h.1]
    by_cases hl : IsLeap y
    · rw [if_pos hl] at hstart hnext
      omega
    · rw [if_neg hl] at hstart hnext
      omega

/-- The last steps of the source: the encoding of a date. -/
def yearMonthDay (d : Date) : Checked Int32 := do
  let yyyymmdd ← int32 ((← int32 ((← int32 ((← abs d.year) * 10000)) +
    (← int32 (d.month * 100)))) + d.day)
  return Int32.ofInt (← if d.year ≥ 0 then pure yyyymmdd else int32 (-yyyymmdd))

theorem cycle_of_day (j : ℤ) : ∃ g dg c dc b db a da,
    g = j / 146097 ∧ dg = j - g * 146097 ∧ c = (dg / 36524 + 1) * 3 / 4 ∧ dc = dg - c * 36524 ∧
    b = dc / 1461 ∧ db = dc - b * 1461 ∧ a = (db / 365 + 1) * 3 / 4 ∧ da = db - a * 365 ∧
    0 ≤ dg ∧ dg < 146097 ∧ 0 ≤ dc ∧ dc ≤ 36524 ∧ 0 ≤ db ∧ db ≤ 1460 ∧ Cycle j g c b a da := by
  -- One stage of the source after the other, each quotient with its bounds.
  obtain ⟨g, hg⟩ : ∃ g, g = j / 146097 := ⟨_, rfl⟩
  obtain ⟨dg, hdg⟩ : ∃ dg, dg = j - g * 146097 := ⟨_, rfl⟩
  obtain ⟨c, hc⟩ : ∃ c, c = (dg / 36524 + 1) * 3 / 4 := ⟨_, rfl⟩
  obtain ⟨dc, hdc⟩ : ∃ dc, dc = dg - c * 36524 := ⟨_, rfl⟩
  obtain ⟨b, hb⟩ : ∃ b, b = dc / 1461 := ⟨_, rfl⟩
  obtain ⟨db, hdb⟩ : ∃ db, db = dc - b * 1461 := ⟨_, rfl⟩
  obtain ⟨a, ha⟩ : ∃ a, a = (db / 365 + 1) * 3 / 4 := ⟨_, rfl⟩
  obtain ⟨da, hda⟩ : ∃ da, da = db - a * 365 := ⟨_, rfl⟩
  have hdg0 : 0 ≤ dg ∧ dg < 146097 := by omega
  have hc0 : 0 ≤ c ∧ c ≤ 3 ∧ 0 ≤ dc ∧ dc ≤ 36524 ∧ (dc = 36524 → c = 3) := by omega
  have hb0 : 0 ≤ b ∧ b ≤ 24 ∧ 0 ≤ db ∧ db ≤ 1460 ∧ (db = 1460 → b = 24 → dc = 36524) := by omega
  have ha0 : 0 ≤ a ∧ a ≤ 3 ∧ 0 ≤ da ∧ da ≤ 365 ∧ (da = 365 → a = 3 ∧ db = 1460) := by omega
  refine ⟨g, dg, c, dc, b, db, a, da, hg, hdg, hc, hdc, hb, hdb, ha, hda, ?_⟩
  refine ⟨hdg0.1, hdg0.2, hc0.2.2.1, hc0.2.2.2.1, hb0.2.2.1, hb0.2.2.2.1, ?_⟩
  refine ⟨by omega, ⟨hc0.1, hc0.2.1⟩, ⟨hb0.1, hb0.2.1⟩, ⟨ha0.1, ha0.2.1⟩,
    ⟨ha0.2.2.1, ha0.2.2.2.1⟩, fun hlast => ?_⟩
  obtain ⟨ha3, hdb1460⟩ := ha0.2.2.2.2 hlast
  exact ⟨ha3, fun hb24 => hc0.2.2.2.2 (hb0.2.2.2.2 hdb1460 hb24)⟩

theorem int32_bind {z : ℤ} {β : Type} {f : ℤ → Checked β} (h : -2 ^ 31 ≤ z ∧ z < 2 ^ 31) :
    (int32 z >>= f) = f z := by
  rw [int32_of_inRange h, ok_bind]

theorem getYearMonthDayByDayId_eq {dayId : Int32} (h : InRange (dayId.toInt + 2472632))
    (hg : InRange ((dayId.toInt + 2472632) / 146097 * 146097)) :
    ∃ d : Date, d.Valid ∧ dayNumber d = dayId.toInt ∧
      getYearMonthDayByDayId dayId = yearMonthDay d := by
  obtain ⟨j, hj⟩ : ∃ j, j = dayId.toInt + 2472632 := ⟨_, rfl⟩
  rw [← hj] at h hg
  obtain ⟨g, dg, c, dc, b, db, a, da, hg, hdg, hc, hdc, hb, hdb, ha, hda, hdg0, hdg1, hdc0, hdc1,
    hdb0, hdb1, hcycle⟩ := cycle_of_day j
  have hnumber := dayNumber_dateOf hcycle
  refine ⟨dateOf g c b a da, valid_dateOf hcycle, by omega, ?_⟩
  have hday : div j 146097 = .ok g := hg ▸ div_of_pos (by omega) h
  obtain ⟨hlo, hhi⟩ := h
  obtain ⟨-, hc', hb', ha', hda', -⟩ := hcycle
  rename_i hg'
  obtain ⟨hglo, hghi⟩ := hg'
  clear hnumber
  have tdiv {x y : ℤ} (hx : 0 ≤ x) : x.tdiv y = x / y := Int.tdiv_eq_ediv_of_nonneg hx
  have tmod {x y : ℤ} (hx : 0 ≤ x) : x.tmod y = x % y := Int.tmod_eq_emod_of_nonneg hx
  rw [← hg] at hglo hghi
  unfold getYearMonthDayByDayId
  rw [int32_bind (by omega), ← hj, hday, ok_bind, int32_bind ⟨hglo, hghi⟩, ← hdg,
    int32_bind (by omega), tdiv hdg0]
  rw [int32_bind (by omega), int32_bind (by omega), tdiv (by omega), ← hc]
  have hg' : -14700 ≤ g ∧ g ≤ 14699 := by omega
  clear hg hdg hglo hghi
  dsimp only
  rw [int32_bind (by omega), ← hdc, int32_bind (by omega), tdiv hdc0, ← hb]
  clear hc hdc
  rw [int32_bind (by omega), ← hdb, int32_bind (by omega), tdiv hdb0]
  rw [int32_bind (by omega), int32_bind (by omega), tdiv (by omega), ← ha]
  clear hb hdb
  rw [int32_bind (by omega), ← hda, int32_bind (by omega)]
  clear ha hda
  obtain ⟨m, hm⟩ : ∃ m, m = (da * 5 + 308) / 153 - 2 := ⟨_, rfl⟩
  obtain ⟨y, hy⟩ : ∃ y, y = g * 400 + c * 100 + b * 4 + a := ⟨_, rfl⟩
  have hyear : -6000000 ≤ y ∧ y ≤ 6000000 := by omega
  have hmonth : 0 ≤ m ∧ m ≤ 11 := by omega
  rw [int32_bind (by omega), int32_bind (by omega), int32_bind (by omega), int32_bind (by omega),
    int32_bind (by omega), int32_bind (by omega), ← hy]
  rw [int32_bind (by omega), int32_bind (by omega), tdiv (by omega), int32_bind (by omega), ← hm]
  simp only [dateOf, ← hy, ← hm]
  clear hy
  rw [int32_bind (by omega), int32_bind (by omega), tdiv (by omega), int32_bind (by omega),
    int32_bind (by omega)]
  rw [int32_bind (by omega), int32_bind (by omega), tdiv (by omega), int32_bind (by omega),
    int32_bind (by omega), tmod (by omega), int32_bind (by omega), int32_bind (by omega)]
  rfl

theorem ok_of_bind {α β : Type} {x : Checked α} {f : α → Checked β} {r : β}
    (h : (x >>= f) = .ok r) : ∃ a, x = .ok a ∧ f a = .ok r := by
  cases x with
  | error e => exact absurd h (by rw [error_bind]; exact nofun)
  | ok a => exact ⟨a, rfl, h⟩

theorem int32_bind_ok {z : ℤ} {β : Type} {f : ℤ → Checked β} {r : β}
    (h : (int32 z >>= f) = .ok r) : InRange z ∧ f z = .ok r := by
  by_cases hz : InRange z
  · rw [int32_bind hz] at h
    exact ⟨hz, h⟩
  · rw [int32_of_not_inRange hz] at h
    exact absurd h (by rw [error_bind]; exact nofun)

theorem abs_eq_ok {a w : ℤ} (h : abs a = .ok w) : w = |a| := by
  unfold abs at h
  split at h
  next hneg =>
    have hr : InRange (-a) := by
      by_contra hr
      rw [int32_of_not_inRange hr] at h
      exact absurd h nofun
    rw [int32_of_inRange hr] at h
    exact (abs_of_neg hneg).symm ▸ (Except.ok.inj h).symm
  next hpos => exact (abs_of_nonneg (not_lt.mp hpos)).symm ▸ (Except.ok.inj h).symm

theorem code_of_nonneg {d : Date} (h : d.year ≥ 0) :
    code d = |d.year| * 10000 + d.month * 100 + d.day := by
  rw [code, if_pos h, one_mul]

theorem code_of_neg {d : Date} (h : ¬ d.year ≥ 0) :
    code d = -(|d.year| * 10000 + d.month * 100 + d.day) := by
  rw [code, if_neg h, neg_one_mul]

theorem day_le {d : Date} (hd : d.Valid) : d.day ≤ 31 := by
  have hday := hd.day_le
  unfold daysInMonth at hday
  split_ifs at hday <;> omega

/-- The years whose dates are encoded. -/
theorem year_le {d : Date} (hd : d.Valid) (h : InRange (code d)) : |d.year| ≤ 214748 := by
  have hm := hd.month_pos
  have hday := hd.day_pos
  obtain ⟨hlo, hhi⟩ := h
  by_cases hyear : d.year ≥ 0
  · rw [code_of_nonneg hyear] at hhi
    omega
  · rw [code_of_neg hyear] at hlo
    omega

theorem yearMonthDay_eq {d : Date} {r : Int32} (h : yearMonthDay d = .ok r) :
    r.toInt = code d := by
  unfold yearMonthDay at h
  obtain ⟨w, hw, h⟩ := ok_of_bind h
  obtain ⟨h1, h⟩ := int32_bind_ok h
  obtain ⟨h2, h⟩ := int32_bind_ok h
  obtain ⟨h3, h⟩ := int32_bind_ok h
  obtain ⟨h4, h⟩ := int32_bind_ok h
  rw [abs_eq_ok hw] at h4 h
  split at h
  next hpos =>
    rw [code_of_nonneg hpos, ← Except.ok.inj h]
    exact Int32.toInt_ofInt_of_le h4.1 h4.2
  next hneg =>
    obtain ⟨h5, h⟩ := int32_bind_ok h
    rw [code_of_neg hneg, ← Except.ok.inj h]
    exact Int32.toInt_ofInt_of_le h5.1 h5.2

theorem yearMonthDay_ok {d : Date} (hd : d.Valid) (h : InRange (code d)) :
    yearMonthDay d = .ok (Int32.ofInt (code d)) := by
  have hyear := year_le hd h
  have hday := day_le hd
  obtain ⟨hm, hm', hd, -⟩ := hd
  have hpos := abs_nonneg d.year
  unfold yearMonthDay
  rw [abs_eq ⟨by omega, by omega⟩, ok_bind, int32_bind (by omega), int32_bind (by omega),
    int32_bind (by omega), int32_bind (by omega)]
  split
  next hge =>
    rw [code_of_nonneg hge]
    rfl
  next hlt =>
    rw [code_of_neg hlt, int32_bind (by omega)]
    rfl

/-! ## From a date to a day -/

theorem isLeap_iff (year : ℤ) :
    year.tmod 4 = 0 ∧ (year.tmod 100 ≠ 0 ∨ year.tmod 400 = 0) ↔ IsLeap year := by
  have h {k : ℤ} : year.tmod k = 0 ↔ year % k = 0 :=
    (Int.dvd_iff_tmod_eq_zero).symm.trans Int.dvd_iff_emod_eq_zero
  unfold IsLeap
  rw [h, h, ne_eq, ne_eq, h]

/-- The date of the arguments. -/
def date (year month day : Int32) : Date := ⟨year.toInt, month.toInt, day.toInt⟩

theorem table_bounds {month : ℤ} (h : 1 ≤ month) (h' : month ≤ 12) :
    0 ≤ DAY_OF_YEAR.getD month.toNat 0 ∧ DAY_OF_YEAR.getD month.toNat 0 ≤ 334 := by
  interval_cases month <;> decide

/-- The day of the year, as the source counts it from the table. -/
def ordinal (d : Date) : ℤ :=
  DAY_OF_YEAR.getD d.month.toNat 0 + d.day - 1 + if d.month > 2 ∧ IsLeap d.year then 1 else 0

theorem ordinal_of_leap {d : Date} (h : d.month > 2 ∧ IsLeap d.year) :
    ordinal d = DAY_OF_YEAR.getD d.month.toNat 0 + d.day - 1 + 1 := by
  rw [ordinal, if_pos h]

theorem ordinal_of_common {d : Date} (h : ¬ (d.month > 2 ∧ IsLeap d.year)) :
    ordinal d = DAY_OF_YEAR.getD d.month.toNat 0 + d.day - 1 := by
  rw [ordinal, if_neg h, add_zero]

/-- The days of the years before and the day of the year. -/
def dayOf (year dayOfYear : ℤ) : ℤ :=
  year * 365 + (year - 1) / 4 - (year - 1) / 100 + (year - 1) / 400 + dayOfYear - 719527

theorem dayNumber_eq_dayOf {d : Date} (h : d.Valid) :
    dayNumber d = dayOf d.year (ordinal d) := by
  rw [dayNumber_eq h, ordinal, dayOf, yearStart]
  omega

/-- The last steps of the source. -/
def dayIdOf (year dayOfYear : ℤ) : Checked Int32 := do
  let before ← int32 (year - 1)
  let leaps ← int32 ((← int32 ((← int32 ((← int32 (year * 365)) + (← div before 4))) -
    (← div before 100))) + (← div before 400))
  return Int32.ofInt (← int32 ((← int32 (leaps + dayOfYear)) - 719527))

theorem getDayIdByYearMonthDay_eq {year month day : Int32} (hd : (date year month day).Valid) :
    getDayIdByYearMonthDay year month day =
      int32 (DAY_OF_YEAR.getD month.toInt.toNat 0 + day.toInt) >>= fun n =>
        int32 (n - 1) >>= fun n =>
          if month.toInt > 2 ∧ IsLeap year.toInt then int32 (n + 1) >>= dayIdOf year.toInt
          else dayIdOf year.toInt n := by
  have hmonth : ¬ (month.toInt < 1 ∨ month.toInt > 12) := by
    have hlo : 1 ≤ month.toInt := hd.month_pos
    have hhi : month.toInt ≤ 12 := hd.month_le
    omega
  unfold getDayIdByYearMonthDay
  dsimp only
  rw [if_neg hmonth]
  simp only [isLeap_iff]
  rfl

theorem dayIdOf_toInt {year dayOfYear : ℤ} {dayId : Int32}
    (h : dayIdOf year dayOfYear = .ok dayId) :
    dayId.toInt = dayOf year dayOfYear := by
  unfold dayIdOf at h
  obtain ⟨hbefore, h⟩ := int32_bind_ok h
  obtain ⟨-, h⟩ := int32_bind_ok h
  rw [div_of_pos (by omega) hbefore, ok_bind] at h
  obtain ⟨-, h⟩ := int32_bind_ok h
  rw [div_of_pos (by omega) hbefore, ok_bind] at h
  obtain ⟨-, h⟩ := int32_bind_ok h
  rw [div_of_pos (by omega) hbefore, ok_bind] at h
  obtain ⟨-, h⟩ := int32_bind_ok h
  obtain ⟨-, h⟩ := int32_bind_ok h
  obtain ⟨hlast, h⟩ := int32_bind_ok h
  rw [← Except.ok.inj h]
  exact Int32.toInt_ofInt_of_le hlast.1 hlast.2

theorem dayIdOf_ok {year dayOfYear : ℤ} (h : |year| ≤ 214748) (h' : 0 ≤ dayOfYear)
    (h'' : dayOfYear ≤ 400) :
    dayIdOf year dayOfYear = .ok (Int32.ofInt (dayOf year dayOfYear)) := by
  obtain ⟨hlo, hhi⟩ := abs_le.mp h
  have hbefore : InRange (year - 1) := ⟨by omega, by omega⟩
  unfold dayIdOf
  rw [int32_bind hbefore, int32_bind (by omega), div_of_pos (by omega) hbefore, ok_bind,
    int32_bind (by omega), div_of_pos (by omega) hbefore, ok_bind, int32_bind (by omega),
    div_of_pos (by omega) hbefore, ok_bind, int32_bind (by omega), int32_bind (by omega),
    int32_bind (by omega)]
  rfl

theorem getDayIdByYearMonthDay_toInt {year month day dayId : Int32}
    (hd : (date year month day).Valid) (h : getDayIdByYearMonthDay year month day = .ok dayId) :
    dayId.toInt = dayNumber (date year month day) := by
  rw [getDayIdByYearMonthDay_eq hd] at h
  obtain ⟨-, h⟩ := int32_bind_ok h
  obtain ⟨-, h⟩ := int32_bind_ok h
  rw [dayNumber_eq_dayOf hd]
  split at h
  next hleap =>
    obtain ⟨-, h⟩ := int32_bind_ok h
    rw [ordinal_of_leap hleap]
    exact dayIdOf_toInt h
  next hleap =>
    rw [ordinal_of_common hleap]
    exact dayIdOf_toInt h

theorem getDayIdByYearMonthDay_ok {year month day : Int32} (hd : (date year month day).Valid)
    (h : InRange (code (date year month day))) :
    getDayIdByYearMonthDay year month day =
      .ok (Int32.ofInt (dayNumber (date year month day))) := by
  have hyear := year_le hd h
  change |year.toInt| ≤ 214748 at hyear
  have hpos : 1 ≤ day.toInt := hd.day_pos
  have hday : day.toInt ≤ 31 := day_le hd
  have hmonth : 1 ≤ month.toInt := hd.month_pos
  obtain ⟨hlo, hhi⟩ := table_bounds hmonth hd.month_le
  rw [getDayIdByYearMonthDay_eq hd, dayNumber_eq_dayOf hd, int32_bind (by omega),
    int32_bind (by omega)]
  split
  next hleap =>
    rw [ordinal_of_leap hleap, int32_bind (by omega)]
    exact dayIdOf_ok hyear (by omega) (by omega)
  next hleap =>
    rw [ordinal_of_common hleap]
    exact dayIdOf_ok hyear (by omega) (by omega)

/-! ## Both directions -/

theorem dayNumber_injective {d e : Date} (hd : d.Valid) (he : e.Valid)
    (h : dayNumber d = dayNumber e) : d = e := by
  apply Date.number_injective hd he
  unfold dayNumber at h
  omega

/-- The date of a day whose computation stays in range. -/
theorem exists_date {dayId r : Int32} (h : getYearMonthDayByDayId dayId = .ok r) :
    ∃ d : Date, d.Valid ∧ dayNumber d = dayId.toInt ∧ r.toInt = code d ∧
      InRange (dayId.toInt + 2472632) := by
  have hsteps := h
  unfold getYearMonthDayByDayId at hsteps
  obtain ⟨hj, hsteps⟩ := int32_bind_ok hsteps
  rw [div_of_pos (by omega) hj, ok_bind] at hsteps
  obtain ⟨hg, -⟩ := int32_bind_ok hsteps
  obtain ⟨d, hvalid, hnumber, heq⟩ := getYearMonthDayByDayId_eq hj hg
  exact ⟨d, hvalid, hnumber, yearMonthDay_eq (heq ▸ h), hj⟩

theorem dayNumber_bounds {d : Date} (hd : d.Valid) (h : InRange (code d)) :
    -80000000 ≤ dayNumber d ∧ dayNumber d ≤ 80000000 := by
  have hyear := abs_le.mp (year_le hd h)
  have hday := day_le hd
  have hpos := hd.day_pos
  obtain ⟨hlo, hhi⟩ := table_bounds hd.month_pos hd.month_le
  rw [dayNumber_eq_dayOf hd]
  unfold dayOf ordinal
  split <;> omega

/-- The identifier of a date within the range of the encoding decodes to it. -/
theorem getYearMonthDayByDayId_of_dayNumber {d : Date} (hd : d.Valid) (h : InRange (code d)) :
    getYearMonthDayByDayId (Int32.ofInt (dayNumber d)) = .ok (Int32.ofInt (code d)) := by
  have hrange := dayNumber_bounds hd h
  have hnumber : (Int32.ofInt (dayNumber d)).toInt = dayNumber d :=
    Int32.toInt_ofInt_of_le (by omega) (by omega)
  have hlow : InRange ((Int32.ofInt (dayNumber d)).toInt + 2472632) := ⟨by omega, by omega⟩
  obtain ⟨e, he, heq, hdecode⟩ := getYearMonthDayByDayId_eq hlow ⟨by omega, by omega⟩
  have hsame : e = d := dayNumber_injective he hd (heq.trans hnumber)
  rw [hdecode, hsame]
  exact yearMonthDay_ok hd h

theorem exists_date_arguments {d : Date} (hd : d.Valid) (h : InRange (code d)) :
    ∃ year month day : Int32, date year month day = d := by
  have hyear := abs_le.mp (year_le hd h)
  have hday := day_le hd
  obtain ⟨hm, hm', hd, -⟩ := hd
  refine ⟨Int32.ofInt d.year, Int32.ofInt d.month, Int32.ofInt d.day, ?_⟩
  unfold date
  rw [Int32.toInt_ofInt_of_le (by omega) (by omega), Int32.toInt_ofInt_of_le (by omega) (by omega),
    Int32.toInt_ofInt_of_le (by omega) (by omega)]

/-- Day identifiers count the dates of the calendar. A date decoded is valid and encodes to the
identifier it came from; a valid date encodes to an identifier that decodes to it; the next
identifier is the next date. -/
theorem dayIds_count_dates :
    (∀ dayId r, getYearMonthDayByDayId dayId = .ok r →
      ∃ year month day, (date year month day).Valid ∧ r.toInt = code (date year month day) ∧
        getDayIdByYearMonthDay year month day = .ok dayId) ∧
    (∀ year month day, (date year month day).Valid →
      (∀ dayId r, getDayIdByYearMonthDay year month day = .ok dayId →
        getYearMonthDayByDayId dayId = .ok r → r.toInt = code (date year month day)) ∧
      (InRange (code (date year month day)) →
        ∃ dayId r, getDayIdByYearMonthDay year month day = .ok dayId ∧
          getYearMonthDayByDayId dayId = .ok r ∧ r.toInt = code (date year month day))) ∧
    ∀ dayId r s, getYearMonthDayByDayId dayId = .ok r → getYearMonthDayByDayId (dayId + 1) = .ok s →
      ∃ d : Date, d.Valid ∧ d.next.Valid ∧ r.toInt = code d ∧ s.toInt = code d.next := by
  refine ⟨?_, ?_, ?_⟩
  · intro dayId r h
    obtain ⟨d, hd, hnumber, hcode, -⟩ := exists_date h
    have hrange : InRange (code d) := hcode ▸ ⟨Int32.le_toInt r, Int32.toInt_lt r⟩
    obtain ⟨year, month, day, rfl⟩ := exists_date_arguments hd hrange
    refine ⟨year, month, day, hd, hcode, ?_⟩
    rw [getDayIdByYearMonthDay_ok hd hrange, hnumber, Int32.ofInt_toInt]
  · intro year month day hd
    refine ⟨?_, ?_⟩
    · intro dayId r hencode hdecode
      obtain ⟨d, hd', hnumber, hcode, -⟩ := exists_date hdecode
      have heq := getDayIdByYearMonthDay_toInt hd hencode
      rw [← dayNumber_injective hd' hd (hnumber.trans heq)]
      exact hcode
    · intro h
      exact ⟨_, _, getDayIdByYearMonthDay_ok hd h, getYearMonthDayByDayId_of_dayNumber hd h,
        Int32.toInt_ofInt_of_le h.1 h.2⟩
  · intro dayId r s h h'
    obtain ⟨d, hd, hnumber, hcode, hlo, hhi⟩ := exists_date h
    obtain ⟨e, he, hnumber', hcode', -⟩ := exists_date h'
    have hstep : (dayId + 1).toInt = dayId.toInt + 1 := by
      have hmin := Int32.le_toInt dayId
      rw [Int32.toInt_add]
      exact Int.bmod_eq_of_le (by change _ ≤ _ + 1; omega) (by change _ + 1 < _; omega)
    have hnext : e = d.next := by
      apply dayNumber_injective he (Date.valid_next hd)
      have hcount := Date.number_next hd
      unfold dayNumber at *
      omega
    exact ⟨d, hd, Date.valid_next hd, hcode, hnext ▸ hcode'⟩

/-- The last day before year 0, the leap day of 2000 and the step into year 0. -/
theorem dayIds_count_dates_samples :
    (∃ year month day, (date year month day).Valid ∧
      (-11231 : Int32).toInt = code (date year month day) ∧
        getDayIdByYearMonthDay year month day = .ok (-719529)) ∧
    (∃ dayId r, getDayIdByYearMonthDay 2000 2 29 = .ok dayId ∧
      getYearMonthDayByDayId dayId = .ok r ∧ r.toInt = code (date 2000 2 29)) ∧
    ∃ d : Date, d.Valid ∧ d.next.Valid ∧ (-11231 : Int32).toInt = code d ∧
      (101 : Int32).toInt = code d.next :=
  ⟨dayIds_count_dates.1 (-719529) (-11231) (by decide),
    (dayIds_count_dates.2.1 2000 2 29 ⟨by decide, by decide, by decide, by decide⟩).2 (by decide),
    dayIds_count_dates.2.2 (-719529) (-11231) 101 (by decide) (by decide)⟩

example : getYearMonthDayByDayId 14261 = .ok 20090117 := by decide

end DayIds
