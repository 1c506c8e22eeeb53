import DxFeedGraal.CppStrings
import Mathlib.Algebra.BigOperators.Group.List.Basic
import Mathlib.Algebra.Order.BigOperators.Group.List
import Mathlib.Algebra.Order.Field.Rat
import Mathlib.Data.List.GetD
import Mathlib.Data.List.Induction
import Mathlib.Data.Rat.Floor
import Mathlib.Logic.Function.Basic
import Mathlib.Order.Bounds.Basic
import Mathlib.Tactic.FieldSimp

/-! # Metric statistics

A metric keeps the number of its values, the last, the least and the greatest of them and their
average. Doubles are exact; a conversion to an integer takes the fraction away, also from the
average, which the next value goes into. -/
namespace Metrics

open CppStrings

/-! ## The source -/

structure Stats (α : Type) where
  count : ℕ
  value : α
  minValue : α
  maxValue : α
  avgValue : α
  deriving DecidableEq, Repr

/-- A type of values, by its conversions to and from doubles and its limits. -/
class Numeric (α : Type) where
  toDouble : α → ℚ
  ofDouble : ℚ → α
  zero : α
  max : α
  min : α

instance : Numeric ℤ where
  toDouble := Int.cast
  ofDouble q := q.num.tdiv q.den
  zero := 0
  max := 2 ^ 63 - 1
  min := -2 ^ 63

/-- The least double of the limits is the least positive one that is not denormal. -/
instance : Numeric ℚ where
  toDouble := id
  ofDouble := id
  zero := 0
  max := (2 - 1 / 2 ^ 52) * 2 ^ 1023
  min := 1 / 2 ^ 1022

/-- `Stats<T>{}`. -/
def Stats.initial (α : Type) [Numeric α] : Stats α where
  count := 1
  value := Numeric.zero
  minValue := Numeric.max
  maxValue := Numeric.min
  avgValue := Numeric.zero

def Stats.cast {α β : Type} [Numeric α] [Numeric β] (stats : Stats α) : Stats β where
  count := stats.count
  value := Numeric.ofDouble (Numeric.toDouble stats.value)
  minValue := Numeric.ofDouble (Numeric.toDouble stats.minValue)
  maxValue := Numeric.ofDouble (Numeric.toDouble stats.maxValue)
  avgValue := Numeric.ofDouble (Numeric.toDouble stats.avgValue)

inductive Value where
  | string (value : Text)
  | double (stats : Stats ℚ)
  | int64 (stats : Stats ℤ)
  deriving DecidableEq, Repr

/-- `std::stoll` and `std::stod`, without a result where they throw. -/
structure Readers where
  stoll : Text → Option ℤ
  stod : Text → Option ℚ

abbrev MetricsManager := Text → Option Value

section Recalculation

variable {α : Type} [LinearOrder α] [Numeric α]

def recalculateStatsImpl (stats : Stats α) (value : α) : Stats α where
  value := value
  minValue := min stats.minValue value
  maxValue := max stats.maxValue value
  avgValue := Numeric.ofDouble
    ((Numeric.toDouble stats.avgValue * stats.count + Numeric.toDouble value) / (stats.count + 1))
  count := stats.count + 1

def firstStats (value : α) : Stats α := ⟨1, value, value, value, value⟩

end Recalculation

namespace MetricsManager

variable (m : MetricsManager) (name : Text)

def setString (value : Text) : MetricsManager := Function.update m name (some (.string value))

def setDouble (value : ℚ) : MetricsManager :=
  match m name with
  | none => Function.update m name (some (.double (firstStats value)))
  | some (.double stats) =>
    Function.update m name (some (.double (recalculateStatsImpl stats value)))
  | some _ => m

def setInt64 (value : ℤ) : MetricsManager :=
  match m name with
  | none => Function.update m name (some (.int64 (firstStats value)))
  | some (.int64 stats) =>
    Function.update m name (some (.int64 (recalculateStatsImpl stats value)))
  | some _ => m

variable (readers : Readers)

def getAsI64Impl : Option (Stats ℤ) :=
  match m name with
  | none => some (Stats.initial ℤ)
  | some (.int64 stats) => some stats
  | some (.double stats) => some stats.cast
  | some (.string value) => (readers.stoll value).map fun v => ⟨1, v, v, v, 0⟩

def getAsDoubleImpl : Option (Stats ℚ) :=
  match m name with
  | none => some (Stats.initial ℚ)
  | some (.double stats) => some stats
  | some (.int64 stats) => some stats.cast
  | some (.string value) => (readers.stod value).map fun v => ⟨1, v, v, v, 0⟩

end MetricsManager

/-- Calls of `set`, `inc` and `add`, by the type of the value. -/
inductive Call where
  | setString (name : Text) (value : Text)
  | setDouble (name : Text) (value : ℚ)
  | set (name : Text) (value : ℤ)
  | inc (name : Text)
  | add (name : Text) (value : ℤ)
  | addDouble (name : Text) (value : ℚ)

/-- A call that throws changes nothing. -/
def Call.step (readers : Readers) (m : MetricsManager) : Call → MetricsManager
  | .setString name value => m.setString name value
  | .setDouble name value => m.setDouble name value
  | .set name value => m.setInt64 name value
  | .inc name => ((m.getAsI64Impl name readers).map fun stats =>
      m.setInt64 name (stats.value + 1)).getD m
  | .add name value => ((m.getAsI64Impl name readers).map fun stats =>
      m.setInt64 name (stats.value + value)).getD m
  | .addDouble name value => ((m.getAsDoubleImpl name readers).map fun stats =>
      m.setDouble name (stats.value + value)).getD m

def runCalls (readers : Readers) (calls : List Call) : MetricsManager :=
  calls.foldl (Call.step readers) fun _ => none

/-! ## Integer updates of one metric -/

inductive Update where
  | set (value : ℤ)
  | inc
  | add (value : ℤ)
  deriving DecidableEq, Repr

/-- The value that an update of the last one gives. -/
def Update.next (last : ℤ) : Update → ℤ
  | .set value => value
  | .inc => last + 1
  | .add value => last + value

/-- The values that updates go through. -/
def successive (last : ℤ) : List Update → List ℤ
  | [] => []
  | u :: us => u.next last :: successive (u.next last) us

def Call.name : Call → Text
  | .setString name _ | .setDouble name _ | .set name _ | .inc name | .add name _
  | .addDouble name _ => name

def Call.update : Call → Option Update
  | .set _ value => some (.set value)
  | .inc _ => some .inc
  | .add _ value => some (.add value)
  | _ => none

/-- The calls for a metric are integer updates. -/
def IntegerOnly (name : Text) (calls : List Call) : Prop :=
  ∀ call ∈ calls, call.name = name → call.update.isSome = true

instance (name : Text) (calls : List Call) : Decidable (IntegerOnly name calls) :=
  inferInstanceAs (Decidable (∀ call ∈ calls, _ → _))

def updatesOf (name : Text) (calls : List Call) : List Update :=
  calls.filterMap fun call => if call.name = name then call.update else none

/-- What one update makes of a metric. -/
def updated : Option (Stats ℤ) → Update → Stats ℤ
  | none, u => firstStats (u.next 0)
  | some stats, u => recalculateStatsImpl stats (u.next stats.value)

def mean (values : List ℤ) : ℚ := values.sum / values.length

/-- The mean without its fraction. -/
def wholeMean (values : List ℤ) : ℤ := values.sum.tdiv values.length

/-- Each value after the first may find the whole mean in the place of every value before it:
the whole mean stays what it is. -/
def FractionsSpared (values : List ℤ) : Prop :=
  ∀ before v, before ≠ [] → before ++ [v] <+: values →
    (wholeMean before * before.length + v).tdiv (before.length + 1) = wholeMean (before ++ [v])

/-- Values of one sign. -/
def OneSigned (values : List ℤ) : Prop := (∀ v ∈ values, 0 ≤ v) ∨ ∀ v ∈ values, v ≤ 0

/-! ## Other metrics do not matter -/

theorem setInt64_self {m : MetricsManager} {name : Text} {entry : Option (Stats ℤ)}
    (h : m name = entry.map .int64) (u : Update) {last : ℤ}
    (hlast : last = (entry.map Stats.value).getD 0) :
    m.setInt64 name (u.next last) name = some (.int64 (updated entry u)) := by
  unfold MetricsManager.setInt64
  rw [h, hlast]
  cases entry <;> exact Function.update_self _ _ _

theorem getAsI64Impl_eq {m : MetricsManager} {name : Text} {entry : Option (Stats ℤ)}
    (h : m name = entry.map .int64) (readers : Readers) :
    ∃ stats, m.getAsI64Impl name readers = some stats ∧
      stats.value = (entry.map Stats.value).getD 0 := by
  unfold MetricsManager.getAsI64Impl
  rw [h]
  cases entry <;> exact ⟨_, rfl, rfl⟩

theorem step_update {m : MetricsManager} {name : Text} {entry : Option (Stats ℤ)}
    (h : m name = entry.map .int64) (readers : Readers) {call : Call} (hname : call.name = name)
    {u : Update} (hu : call.update = some u) :
    call.step readers m name = some (.int64 (updated entry u)) := by
  obtain ⟨stats, hstats, hlast⟩ := getAsI64Impl_eq h readers
  cases call with
  | set metric value =>
    obtain rfl : metric = name := hname
    cases hu
    exact setInt64_self h (.set value) rfl
  | inc metric =>
    obtain rfl : metric = name := hname
    cases hu
    simp only [Call.step, hstats, Option.map_some, Option.getD_some]
    exact setInt64_self h .inc hlast
  | add metric value =>
    obtain rfl : metric = name := hname
    cases hu
    simp only [Call.step, hstats, Option.map_some, Option.getD_some]
    exact setInt64_self h (.add value) hlast
  | _ => cases hu

variable {m : MetricsManager} {name other : Text}

theorem setInt64_other (h : other ≠ name) (value : ℤ) : m.setInt64 name value other = m other := by
  unfold MetricsManager.setInt64
  cases m name with
  | none => exact Function.update_of_ne h _ _
  | some held =>
    cases held with
    | int64 stats => exact Function.update_of_ne h _ _
    | _ => rfl

theorem setDouble_other (h : other ≠ name) (value : ℚ) :
    m.setDouble name value other = m other := by
  unfold MetricsManager.setDouble
  cases m name with
  | none => exact Function.update_of_ne h _ _
  | some held =>
    cases held with
    | double stats => exact Function.update_of_ne h _ _
    | _ => rfl

/-- A value that is read first, or not at all. -/
theorem getD_map_other {σ : Type} {read : Option σ} {write : σ → MetricsManager}
    (h : ∀ value, write value other = m other) : ((read.map write).getD m) other = m other := by
  cases read with
  | none => rfl
  | some value => exact h value

theorem step_other (readers : Readers) {call : Call} (h : other ≠ call.name) :
    call.step readers m other = m other := by
  cases call with
  | setString metric value => exact Function.update_of_ne h _ _
  | setDouble metric value => exact setDouble_other h value
  | set metric value => exact setInt64_other h value
  | inc metric => exact getD_map_other fun stats => setInt64_other h (stats.value + 1)
  | add metric value => exact getD_map_other fun stats => setInt64_other h (stats.value + value)
  | addDouble metric value =>
    exact getD_map_other fun stats => setDouble_other h (stats.value + value)

/-- The entry of a metric after its updates. -/
def entryAfter (entry : Option (Stats ℤ)) (us : List Update) : Option (Stats ℤ) :=
  us.foldl (fun entry u => some (updated entry u)) entry

theorem run_entry (readers : Readers) {calls : List Call} {entry : Option (Stats ℤ)}
    (h : m name = entry.map .int64) (honly : IntegerOnly name calls) :
    calls.foldl (Call.step readers) m name =
      (entryAfter entry (updatesOf name calls)).map .int64 := by
  induction calls generalizing m entry with
  | nil => exact h
  | cons call calls ih =>
    have hrest : IntegerOnly name calls := fun c hc => honly c (List.mem_cons_of_mem call hc)
    rw [List.foldl_cons]
    by_cases hname : call.name = name
    · obtain ⟨u, hu⟩ := Option.isSome_iff_exists.mp (honly call List.mem_cons_self hname)
      have hupdates : updatesOf name (call :: calls) = u :: updatesOf name calls := by
        simp [updatesOf, hname, hu]
      rw [hupdates]
      exact ih (step_update h readers hname hu) hrest
    · have hupdates : updatesOf name (call :: calls) = updatesOf name calls := by
        simp [updatesOf, hname]
      rw [hupdates]
      exact ih ((step_other readers (Ne.symm hname)).trans h) hrest

/-! ## The statistics of a run -/

/-- Everything but the average is exact. -/
structure Summary (values : List ℤ) (stats : Stats ℤ) : Prop where
  count : stats.count = values.length
  value : values.getLast? = some stats.value
  minValue : IsLeast {v | v ∈ values} stats.minValue
  maxValue : IsGreatest {v | v ∈ values} stats.maxValue

theorem summary_first (value : ℤ) : Summary [value] (firstStats value) where
  count := rfl
  value := rfl
  minValue := by simp [firstStats]
  maxValue := by simp [firstStats]

theorem ofDouble_div (n : ℤ) (d : ℕ) :
    (Numeric.ofDouble ((n : ℚ) / ((d : ℚ) + 1)) : ℤ) = n.tdiv (d + 1) := by
  have hpos : (0 : ℤ) < d + 1 := by omega
  obtain ⟨c, hnum, hden⟩ := Rat.exists_eq_mul_div_num_and_eq_mul_div_den n hpos.ne'
  have hcast : (n : ℚ) / ((d : ℚ) + 1) = (n : ℚ) / ((d + 1 : ℤ) : ℚ) := by push_cast; rfl
  rw [hcast]
  obtain ⟨q, hq⟩ : ∃ q, q = (n : ℚ) / ((d + 1 : ℤ) : ℚ) := ⟨_, rfl⟩
  rw [← hq] at hnum hden ⊢
  have hc : 0 < c := by
    by_contra hc
    have hq0 : (0 : ℤ) < q.den := by exact_mod_cast q.den_pos
    nlinarith
  change q.num.tdiv q.den = _
  rw [hnum, hden, Int.mul_tdiv_mul_of_pos _ _ hc]

theorem avgValue_eq (stats : Stats ℤ) (value : ℤ) : (recalculateStatsImpl stats value).avgValue =
    (stats.avgValue * stats.count + value).tdiv (stats.count + 1) := by
  rw [← ofDouble_div]
  unfold recalculateStatsImpl
  change Numeric.ofDouble (((stats.avgValue : ℚ) * stats.count + value) / _) = _
  push_cast
  rfl

theorem Summary.updated {values : List ℤ} {stats : Stats ℤ} (h : Summary values stats)
    (u : Update) : Summary (values ++ [u.next stats.value]) (updated (some stats) u) := by
  obtain ⟨hcount, hvalue, hmin, hmax⟩ := h
  obtain ⟨v, hv⟩ : ∃ v, v = u.next stats.value := ⟨_, rfl⟩
  have hset : {x | x ∈ values ++ [v]} = insert v {x | x ∈ values} := by
    ext x
    simp [or_comm]
  change Summary (values ++ [u.next stats.value]) (recalculateStatsImpl stats (u.next stats.value))
  rw [← hv]
  refine ⟨?_, List.getLast?_concat, ?_, ?_⟩
  · rw [List.length_append, ← hcount]
    rfl
  · have hleast := hmin.insert v
    rw [← hset, min_comm] at hleast
    exact hleast
  · have hgreatest := hmax.insert v
    rw [← hset, max_comm] at hgreatest
    exact hgreatest

theorem entryAfter_concat (entry : Option (Stats ℤ)) (us : List Update) (u : Update) :
    entryAfter entry (us ++ [u]) = some (updated (entryAfter entry us) u) := by
  rw [entryAfter, List.foldl_append]
  rfl

theorem successive_concat (last : ℤ) (us : List Update) (u : Update) :
    successive last (us ++ [u]) =
      successive last us ++ [u.next ((successive last us).getLast?.getD last)] := by
  induction us generalizing last with
  | nil => rfl
  | cons w us ih =>
    change w.next last :: successive (w.next last) (us ++ [u]) = _
    rw [ih]
    simp [successive, List.getLast?_cons]

theorem length_successive (last : ℤ) (us : List Update) :
    (successive last us).length = us.length := by
  induction us generalizing last with
  | nil => rfl
  | cons u us ih => exact congrArg (· + 1) (ih (u.next last))

/-- Updates and the statistics that they come to. -/
structure Reaches (us : List Update) (stats : Stats ℤ) : Prop where
  entry : entryAfter none us = some stats
  summary : Summary (successive 0 us) stats

theorem reaches_first (u : Update) : Reaches [u] (firstStats (u.next 0)) where
  entry := rfl
  summary := summary_first (u.next 0)

/-- Step lemma: one more update. -/
theorem Reaches.next {us : List Update} {stats : Stats ℤ} (h : Reaches us stats) (u : Update) :
    Reaches (us ++ [u]) (recalculateStatsImpl stats (u.next stats.value)) ∧
      successive 0 (us ++ [u]) = successive 0 us ++ [u.next stats.value] := by
  have hvalues : successive 0 (us ++ [u]) = successive 0 us ++ [u.next stats.value] := by
    rw [successive_concat, h.summary.value]
    rfl
  refine ⟨⟨?_, ?_⟩, hvalues⟩
  · rw [entryAfter_concat, h.entry]
    rfl
  · rw [hvalues]
    exact h.summary.updated u

theorem exists_reaches {us : List Update} (h : us ≠ []) : ∃ stats, Reaches us stats := by
  induction us using List.reverseRecOn with
  | nil => exact absurd rfl h
  | append_singleton us u ih =>
    by_cases hus : us = []
    · subst hus
      exact ⟨_, reaches_first u⟩
    · obtain ⟨stats, hstats⟩ := ih hus
      exact ⟨_, (hstats.next u).1⟩

/-! ## The average -/

/-- A whole number is near a quotient when the division by it drops less than the divisor. -/
theorem near_iff (average sum : ℤ) {n : ℕ} (hn : 0 < n) :
    |(average : ℚ) - sum / n| < 1 ↔ |average * n - sum| < n := by
  have hpos : (0 : ℚ) < n := by exact_mod_cast hn
  have herror : (average : ℚ) - sum / n = (average * n - sum) / n := by
    field_simp
  rw [herror, abs_div, abs_of_pos hpos, div_lt_one hpos]
  exact_mod_cast Iff.rfl

theorem wholeMean_near {values : List ℤ} (h : values ≠ []) :
    |(wholeMean values : ℚ) - mean values| < 1 := by
  have hlength := List.length_pos_iff.mpr h
  have hpos : (0 : ℤ) < values.length := by exact_mod_cast hlength
  have hdivision := Int.tmod_add_mul_tdiv values.sum values.length
  have hlow := Int.lt_tmod_of_pos values.sum hpos
  have hhigh := Int.tmod_lt_of_pos values.sum hpos
  rw [mean, near_iff _ _ hlength, wholeMean, abs_lt, mul_comm]
  omega

/-- Cutting a fraction off moves a quotient towards zero. -/
theorem tdiv_between (n : ℤ) {d : ℤ} (hd : 0 < d) :
    (0 ≤ n → 0 ≤ n.tdiv d * d ∧ n.tdiv d * d ≤ n) ∧
      (n ≤ 0 → n ≤ n.tdiv d * d ∧ n.tdiv d * d ≤ 0) := by
  have hpositive : ∀ m : ℤ, 0 ≤ m → 0 ≤ m.tdiv d * d ∧ m.tdiv d * d ≤ m := by
    intro m hm
    have hdivision := Int.tmod_add_mul_tdiv m d
    have hrest := Int.tmod_nonneg d hm
    refine ⟨mul_nonneg (Int.tdiv_nonneg hm hd.le) hd.le, ?_⟩
    rw [mul_comm]
    omega
  refine ⟨hpositive n, fun hn => ?_⟩
  have hnegated := hpositive (-n) (by omega)
  rw [Int.neg_tdiv, neg_mul] at hnegated
  omega

/-- Only one whole number between zero and the quotient is near it. -/
theorem eq_tdiv_of_near {average sum : ℤ} {n : ℕ} (hn : 0 < n) (hnear : |average * n - sum| < n)
    (hbetween : 0 ≤ average * n ∧ average * n ≤ sum ∨ sum ≤ average * n ∧ average * n ≤ 0) :
    average = sum.tdiv n := by
  have hpos : (0 : ℤ) < n := by exact_mod_cast hn
  have hdivision := Int.tmod_add_mul_tdiv sum n
  have hlow := Int.lt_tmod_of_pos sum hpos
  have hhigh := Int.tmod_lt_of_pos sum hpos
  have hquotient := tdiv_between sum hpos
  rw [mul_comm] at hdivision
  rw [abs_lt] at hnear
  have hbelow : average * n < (sum.tdiv n + 1) * n := by
    rw [add_mul, one_mul]
    omega
  have habove : sum.tdiv n * n < (average + 1) * n := by
    rw [add_mul, one_mul]
    omega
  have := lt_of_mul_lt_mul_right hbelow hpos.le
  have := lt_of_mul_lt_mul_right habove hpos.le
  omega

variable {us : List Update} {stats : Stats ℤ}

theorem successive_ne_nil (h : us ≠ []) (last : ℤ) : successive last us ≠ [] := by
  rw [← List.length_pos_iff, length_successive]
  exact List.length_pos_iff.mpr h

/-- The average of a step, by the values that it stands for. -/
theorem Reaches.avgValue_next (h : Reaches us stats) (u : Update) :
    (recalculateStatsImpl stats (u.next stats.value)).avgValue =
      (stats.avgValue * (successive 0 us).length + u.next stats.value).tdiv
        ((successive 0 us).length + 1) := by
  rw [avgValue_eq, h.summary.count]

/-- What holds of the first value and is kept by every further one holds of the average. -/
theorem Reaches.average_induction {P : List ℤ → ℤ → Prop} (first : ∀ v, P [v] v)
    (next : ∀ values average v, values ≠ [] → P values average →
      P (values ++ [v]) ((average * values.length + v).tdiv (values.length + 1)))
    (h : Reaches us stats) : P (successive 0 us) stats.avgValue := by
  induction us using List.reverseRecOn generalizing stats with
  | nil => cases h.entry
  | append_singleton us u ih =>
    by_cases hus : us = []
    · subst hus
      cases h.entry
      exact first (u.next 0)
    · obtain ⟨before, hbefore⟩ := exists_reaches hus
      obtain ⟨hnext, hvalues⟩ := hbefore.next u
      cases h.entry.symm.trans hnext.entry
      rw [hvalues, hbefore.avgValue_next]
      exact next _ _ _ (successive_ne_nil hus 0) (ih hbefore)

/-- Values of one sign keep the average between zero and their mean. -/
theorem Reaches.between (h : Reaches us stats) (hsign : OneSigned (successive 0 us)) :
    0 ≤ stats.avgValue * (successive 0 us).length ∧
        stats.avgValue * (successive 0 us).length ≤ (successive 0 us).sum ∨
      (successive 0 us).sum ≤ stats.avgValue * (successive 0 us).length ∧
        stats.avgValue * (successive 0 us).length ≤ 0 := by
  rcases hsign with hsign | hsign
  · left
    revert hsign
    refine h.average_induction (P := fun values average => (∀ v ∈ values, 0 ≤ v) →
      0 ≤ average * values.length ∧ average * values.length ≤ values.sum) (fun v hv => ?_)
      fun values average v _ ih hv => ?_
    · simpa using hv
    · have hlast := hv v (by simp)
      have hfirst := ih fun w hw => hv w (List.mem_append_left _ hw)
      have hquotient := tdiv_between (average * values.length + v)
        (d := values.length + 1) (by omega)
      rw [List.length_append, List.sum_append, List.length_singleton, List.sum_singleton]
      push_cast
      omega
  · right
    revert hsign
    refine h.average_induction (P := fun values average => (∀ v ∈ values, v ≤ 0) →
      values.sum ≤ average * values.length ∧ average * values.length ≤ 0) (fun v hv => ?_)
      fun values average v _ ih hv => ?_
    · simpa using hv
    · have hlast := hv v (by simp)
      have hfirst := ih fun w hw => hv w (List.mem_append_left _ hw)
      have hquotient := tdiv_between (average * values.length + v)
        (d := values.length + 1) (by omega)
      rw [List.length_append, List.sum_append, List.length_singleton, List.sum_singleton]
      push_cast
      omega

/-- As long as the fractions may be spared, the average is the whole mean. -/
theorem Reaches.avgValue_eq_wholeMean (h : Reaches us stats)
    (hspared : FractionsSpared (successive 0 us)) :
    stats.avgValue = wholeMean (successive 0 us) := by
  revert hspared
  refine h.average_induction (P := fun values average => FractionsSpared values →
    average = wholeMean values) (fun v _ => by simp [wholeMean])
    fun values average v hne ih hv => ?_
  have hmean := ih fun before w hbefore hstart =>
    hv before w hbefore (hstart.trans (List.prefix_append _ _))
  rw [hmean]
  exact hv values v hne List.prefix_rfl

/-- Of values of one sign the average is near the mean only as the whole mean. -/
theorem Reaches.eq_wholeMean_of_near (h : Reaches us stats)
    (hsign : OneSigned (successive 0 us))
    (hnear : |(stats.avgValue : ℚ) - mean (successive 0 us)| < 1) :
    stats.avgValue = wholeMean (successive 0 us) := by
  have hus : us ≠ [] := by
    rintro rfl
    cases h.entry
  have hlength := List.length_pos_iff.mpr (successive_ne_nil hus 0)
  exact eq_tdiv_of_near hlength ((near_iff _ _ hlength).mp hnear) (h.between hsign)

/-! ## Runs of calls -/

/-- The average of a metric is less than one away from the mean of its values. -/
def AverageNear (readers : Readers) (name : Text) (calls : List Call) : Prop :=
  ∀ stats, runCalls readers calls name = some (.int64 stats) →
    |(stats.avgValue : ℚ) - mean (successive 0 (updatesOf name calls))| < 1

theorem successive_take (last : ℤ) (us : List Update) (n : ℕ) :
    successive last (us.take n) = (successive last us).take n := by
  induction us generalizing last n with
  | nil => simp [successive]
  | cons u us ih =>
    cases n with
    | zero => rfl
    | succ n => simp [successive, ih]

theorem updatesOf_cons (name : Text) (call : Call) (calls : List Call) :
    updatesOf name (call :: calls) =
      (if call.name = name then call.update else none).toList ++ updatesOf name calls := by
  unfold updatesOf
  cases hcall : (if call.name = name then call.update else none) with
  | none => rw [List.filterMap_cons, hcall]; rfl
  | some u => rw [List.filterMap_cons, hcall]; rfl

theorem updatesOf_isPrefix {name : Text} {done calls : List Call} (h : done <+: calls) :
    updatesOf name done <+: updatesOf name calls := h.filterMap _

/-- Some part of the calls makes exactly the first updates. -/
theorem exists_calls_of_take (name : Text) (calls : List Call) (n : ℕ) :
    ∃ done, done <+: calls ∧ updatesOf name done = (updatesOf name calls).take n := by
  induction calls generalizing n with
  | nil => exact ⟨[], List.prefix_rfl, by simp [updatesOf]⟩
  | cons call calls ih =>
    cases hcall : (if call.name = name then call.update else none) with
    | none =>
      obtain ⟨done, hdone, hupdates⟩ := ih n
      refine ⟨call :: done, (List.prefix_cons_inj call).mpr hdone, ?_⟩
      rw [updatesOf_cons, updatesOf_cons, hcall, hupdates]
      rfl
    | some u =>
      cases n with
      | zero => exact ⟨[], List.nil_prefix, rfl⟩
      | succ n =>
        obtain ⟨done, hdone, hupdates⟩ := ih n
        refine ⟨call :: done, (List.prefix_cons_inj call).mpr hdone, ?_⟩
        rw [updatesOf_cons, updatesOf_cons, hcall, hupdates]
        rfl

theorem runCalls_of_reaches (readers : Readers) {name : Text} {calls : List Call}
    (honly : IntegerOnly name calls) (h : Reaches (updatesOf name calls) stats) :
    runCalls readers calls name = some (.int64 stats) := by
  have hrun : runCalls readers calls name = (entryAfter none (updatesOf name calls)).map .int64 :=
    run_entry readers rfl honly
  rw [hrun, h.entry]
  rfl

/-- A metric that is there has had updates. -/
theorem reaches_of_runCalls (readers : Readers) {name : Text} {calls : List Call}
    (honly : IntegerOnly name calls) (h : runCalls readers calls name = some (.int64 stats)) :
    Reaches (updatesOf name calls) stats := by
  have hrun : runCalls readers calls name = (entryAfter none (updatesOf name calls)).map .int64 :=
    run_entry readers rfl honly
  rw [hrun] at h
  have hus : updatesOf name calls ≠ [] := by
    intro hnil
    rw [hnil] at h
    cases h
  obtain ⟨after, hafter⟩ := exists_reaches hus
  rw [hafter.entry] at h
  cases h
  exact hafter

theorem FractionsSpared.mono {values before : List ℤ} (h : FractionsSpared values)
    (hstart : before <+: values) : FractionsSpared before :=
  fun done v hne hdone => h done v hne (hdone.trans hstart)

/-- Near averages of values of one sign are whole means, so the fractions were spared. -/
theorem fractionsSpared_of_near (readers : Readers) {name : Text} {calls : List Call}
    (honly : IntegerOnly name calls) (hsign : OneSigned (successive 0 (updatesOf name calls)))
    (hnear : ∀ done, done <+: calls → AverageNear readers name done) :
    FractionsSpared (successive 0 (updatesOf name calls)) := by
  intro before v hne hstart
  have hwhole : ∀ n stats, Reaches ((updatesOf name calls).take n) stats →
      stats.avgValue = wholeMean (successive 0 ((updatesOf name calls).take n)) := by
    intro n stats hstats
    obtain ⟨done, hdone, hupdates⟩ := exists_calls_of_take name calls n
    have hdoneOnly : IntegerOnly name done := fun call hcall => honly call (hdone.subset hcall)
    rw [← hupdates] at hstats ⊢
    have hvalues : ∀ w ∈ successive 0 (updatesOf name done),
        w ∈ successive 0 (updatesOf name calls) := by
      rw [hupdates, successive_take]
      exact fun w hw => List.mem_of_mem_take hw
    refine hstats.eq_wholeMean_of_near (hsign.imp ?_ ?_)
      (hnear done hdone stats (runCalls_of_reaches readers hdoneOnly hstats))
    · exact fun h w hw => h w (hvalues w hw)
    · exact fun h w hw => h w (hvalues w hw)
  -- The values before `v` come from a first part of the updates, and `v` from the next one.
  obtain ⟨us, hus⟩ : ∃ us, us = updatesOf name calls := ⟨_, rfl⟩
  rw [← hus] at hstart hwhole
  have hlength : before.length < us.length := by
    have hle := hstart.length_le
    rw [length_successive, List.length_append, List.length_singleton] at hle
    omega
  have htake : us.take before.length ++ [us[before.length]] = us.take (before.length + 1) :=
    List.take_concat_get' us before.length hlength
  have hbefore : successive 0 (us.take before.length) = before := by
    rw [successive_take, ← List.prefix_iff_eq_take.mp ((List.prefix_append _ _).trans hstart)]
  have hpart : us.take before.length ≠ [] := by
    intro hnil
    rw [hnil] at hbefore
    exact hne hbefore.symm
  obtain ⟨stats, hstats⟩ := exists_reaches hpart
  obtain ⟨hnext, hvalues⟩ := hstats.next us[before.length]
  have hextended : successive 0 (us.take (before.length + 1)) = before ++ [v] := by
    have heq := List.prefix_iff_eq_take.mp hstart
    rw [List.length_append, List.length_singleton] at heq
    rw [successive_take, ← heq]
  have hwholeNext := hwhole (before.length + 1) _ (htake ▸ hnext)
  rw [← htake, hvalues, hbefore] at hextended
  have hv : us[before.length].next stats.value = v := by simpa using hextended
  rw [← htake, hvalues, hbefore, hstats.avgValue_next, hwhole _ _ hstats, hbefore, hv] at hwholeNext
  exact hwholeNext

/-- After integer updates of a metric its count, value and limits are those of its successive
values. The average stays less than one away from their mean as long as the fractions that it
loses may be spared; with values of one sign only then. -/
theorem statistics_kept (readers : Readers) {name : Text} {calls : List Call}
    (honly : IntegerOnly name calls) :
    let us := updatesOf name calls
    let values := successive 0 us
    (us ≠ [] → ∃ stats, runCalls readers calls name = some (.int64 stats) ∧
      stats.count = us.length ∧ values.getLast? = some stats.value ∧
      IsLeast {v | v ∈ values} stats.minValue ∧ IsGreatest {v | v ∈ values} stats.maxValue) ∧
    (FractionsSpared values → ∀ done, done <+: calls → AverageNear readers name done) ∧
    (OneSigned values → (∀ done, done <+: calls → AverageNear readers name done) →
      FractionsSpared values) := by
  intro us values
  refine ⟨fun hus => ?_, fun hspared done hdone stats hstats => ?_, fun hsign hnear => ?_⟩
  · obtain ⟨stats, hstats⟩ := exists_reaches hus
    exact ⟨stats, runCalls_of_reaches readers honly hstats,
      hstats.summary.count.trans (length_successive 0 us), hstats.summary.value,
      hstats.summary.minValue, hstats.summary.maxValue⟩
  · have hdoneOnly : IntegerOnly name done := fun call hcall => honly call (hdone.subset hcall)
    have hreaches := reaches_of_runCalls readers hdoneOnly hstats
    have hstart : successive 0 (updatesOf name done) <+: values := by
      rw [List.prefix_iff_eq_take.mp (updatesOf_isPrefix hdone), successive_take]
      exact List.take_prefix _ _
    have hne : updatesOf name done ≠ [] := by
      intro hnil
      have hentry := hreaches.entry
      rw [hnil] at hentry
      cases hentry
    rw [hreaches.avgValue_eq_wholeMean (hspared.mono hstart)]
    exact wholeMean_near (successive_ne_nil hne 0)
  · exact fractionsSpared_of_near readers honly hsign hnear

/-- Readers that take no text for a number. -/
def noReaders : Readers := ⟨fun _ => none, fun _ => none⟩

/-- Updates of one metric, with another metric between them. -/
def mixedCalls : List Call :=
  [.set "rate".toList 10, .setDouble "load".toList (1 / 2), .inc "rate".toList,
    .add "rate".toList (-4)]

/-- The values are 10, 11 and 7: the half that the second average loses is not missed. -/
theorem statistics_of_mixed_updates :
    (∃ stats, runCalls noReaders mixedCalls "rate".toList = some (.int64 stats) ∧
      stats.count = 3 ∧ stats.value = 7 ∧ stats.minValue = 7 ∧ stats.maxValue = 11) ∧
      ∀ done, done <+: mixedCalls → AverageNear noReaders "rate".toList done := by
  have hvalues : successive 0 (updatesOf "rate".toList mixedCalls) = [10, 11, 7] := by decide
  obtain ⟨hall, hnear, -⟩ := @statistics_kept noReaders "rate".toList mixedCalls (by decide)
  rw [hvalues] at hall hnear
  obtain ⟨stats, hstats, hcount, hvalue, hmin, hmax⟩ := hall (by decide)
  refine ⟨⟨stats, hstats, hcount, ?_, ?_, ?_⟩, hnear ?_⟩
  · exact (Option.some.inj hvalue).symm
  · exact hmin.unique ⟨by simp, by simp [lowerBounds]⟩
  · exact hmax.unique ⟨by simp, by simp [upperBounds]⟩
  · intro before v hne hstart
    rcases before with _ | ⟨a, _ | ⟨b, _ | ⟨c, before⟩⟩⟩
    · exact absurd rfl hne
    · obtain ⟨rfl, rfl⟩ : a = 10 ∧ v = 11 := by simpa using hstart
      decide
    · obtain ⟨rfl, rfl, rfl⟩ : a = 10 ∧ b = 11 ∧ v = 7 := by simpa using hstart
      decide
    · have hlength := hstart.length_le
      simp only [List.length_append, List.length_cons, List.length_nil] at hlength
      omega

/-- Three increments leave the average at one, while the mean of 1, 2 and 3 is two. -/
theorem average_stays_behind :
    let calls : List Call := [.inc "sent".toList, .inc "sent".toList, .inc "sent".toList]
    runCalls noReaders calls "sent".toList = some (.int64 ⟨3, 3, 1, 3, 1⟩) ∧
      mean (successive 0 (updatesOf "sent".toList calls)) = 2 ∧ ¬ |((1 : ℤ) : ℚ) - 2| < 1 := by
  refine ⟨by decide +kernel, by decide +kernel, by decide +kernel⟩

end Metrics
