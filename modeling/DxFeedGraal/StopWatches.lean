import Mathlib.Algebra.BigOperators.Group.List.Basic
import Mathlib.Algebra.Order.BigOperators.Group.List
import Mathlib.Data.Int.Basic
import Mathlib.Tactic.Linarith

/-! # Stop watches

A stop watch adds up its running periods twice, in whole milliseconds and in nanoseconds. Clock
readings are nanoseconds and never decrease. -/
namespace StopWatches

/-! ## The source -/

structure StopWatch where
  elapsed_ : ℤ
  elapsedInNanos_ : ℤ
  isRunning : Bool
  startTimeStamp : ℤ
  deriving DecidableEq, Repr

/-- The operations, with the clock reading that each would take. -/
inductive Call where
  | start | stop | reset | restart
  deriving DecidableEq, Repr

/-- `std::chrono::duration_cast` from nanoseconds. -/
def toMilliseconds (nanos : ℤ) : ℤ := nanos.tdiv 1000000

namespace StopWatch

def reset : StopWatch := ⟨0, 0, false, 0⟩

variable (w : StopWatch) (now : ℤ)

def start : StopWatch :=
  if !w.isRunning then { w with startTimeStamp := now, isRunning := true } else w

def stop : StopWatch :=
  if w.isRunning then
    let elapsedThisPeriod := now - w.startTimeStamp
    { w with
      elapsed_ := w.elapsed_ + toMilliseconds elapsedThisPeriod
      elapsedInNanos_ := w.elapsedInNanos_ + elapsedThisPeriod
      isRunning := false }
  else w

def restart : StopWatch := ⟨0, 0, true, now⟩

def elapsed : ℤ :=
  if w.isRunning then w.elapsed_ + toMilliseconds (now - w.startTimeStamp) else w.elapsed_

def elapsedInNanos : ℤ :=
  if w.isRunning then w.elapsedInNanos_ + (now - w.startTimeStamp) else w.elapsedInNanos_

def step : Call × ℤ → StopWatch
  | (.start, now) => w.start now
  | (.stop, now) => w.stop now
  | (.reset, _) => reset
  | (.restart, now) => restart now

end StopWatch

/-! ## Running periods -/

/-- The finished running periods since the last reset or restart, and where the current one
began. -/
structure Session where
  finished : List ℤ
  began : Option ℤ

namespace Session

def step (s : Session) : Call × ℤ → Session
  | (.start, now) =>
    match s.began with
    | none => { s with began := some now }
    | some _ => s
  | (.stop, now) =>
    match s.began with
    | none => s
    | some began => ⟨s.finished ++ [now - began], none⟩
  | (.reset, _) => ⟨[], none⟩
  | (.restart, now) => ⟨[], some now⟩

/-- All periods at a moment, the current one up to it. -/
def periods (s : Session) (now : ℤ) : List ℤ :=
  match s.began with
  | none => s.finished
  | some began => s.finished ++ [now - began]

def total (s : Session) (now : ℤ) : ℤ := (s.periods now).sum

/-- What the periods have beyond whole milliseconds. -/
def fractions (s : Session) (now : ℤ) : ℤ := ((s.periods now).map (· % 1000000)).sum

end Session

/-- Calls with clock readings that never decrease, none behind a moment. -/
structure Timed (calls : List (Call × ℤ)) (now : ℤ) : Prop where
  ordered : (calls.map Prod.snd).Pairwise (· ≤ ·)
  past : ∀ call ∈ calls, call.2 ≤ now

/-! ## The watch follows the periods -/

structure Follows (s : Session) (w : StopWatch) (last : ℤ) : Prop where
  running : s.began = if w.isRunning then some w.startTimeStamp else none
  begun : w.isRunning = true → w.startTimeStamp ≤ last
  forward : ∀ period ∈ s.finished, 0 ≤ period
  nanos : w.elapsedInNanos_ = s.finished.sum
  millis : w.elapsed_ = (s.finished.map toMilliseconds).sum

variable {s : Session} {w : StopWatch} {last now : ℤ}

theorem follows_reset (last : ℤ) : Follows ⟨[], none⟩ .reset last where
  running := rfl
  begun := nofun
  forward := nofun
  nanos := rfl
  millis := rfl

theorem follows_restart (now : ℤ) : Follows ⟨[], some now⟩ (.restart now) now where
  running := rfl
  begun _ := le_refl now
  forward := nofun
  nanos := rfl
  millis := rfl

theorem Follows.later (h : Follows s w last) (hnow : last ≤ now) : Follows s w now :=
  ⟨h.running, fun hw => (h.begun hw).trans hnow, h.forward, h.nanos, h.millis⟩

theorem Follows.start (h : Follows s w last) (hnow : last ≤ now) :
    Follows (s.step (.start, now)) (w.start now) now := by
  obtain ⟨finished, began⟩ := s
  have hrunning := h.running
  unfold StopWatch.start
  cases hw : w.isRunning with
  | true =>
    rw [hw] at hrunning
    obtain rfl : began = some w.startTimeStamp := hrunning
    exact h.later hnow
  | false =>
    rw [hw] at hrunning
    obtain rfl : began = none := hrunning
    exact ⟨rfl, fun _ => le_refl now, h.forward, h.nanos, h.millis⟩

theorem Follows.stop (h : Follows s w last) (hnow : last ≤ now) :
    Follows (s.step (.stop, now)) (w.stop now) now := by
  obtain ⟨finished, began⟩ := s
  have hrunning := h.running
  unfold StopWatch.stop
  cases hw : w.isRunning with
  | true =>
    rw [hw] at hrunning
    obtain rfl : began = some w.startTimeStamp := hrunning
    have hperiod : 0 ≤ now - w.startTimeStamp := by
      have hbegun := h.begun hw
      omega
    refine ⟨rfl, nofun, ?_, ?_, ?_⟩
    · intro period hmem
      rcases List.mem_append.mp hmem with hmem | hmem
      · exact h.forward period hmem
      · rwa [List.mem_singleton.mp hmem]
    · change w.elapsedInNanos_ + _ = (finished ++ [now - w.startTimeStamp]).sum
      rw [List.sum_append, List.sum_singleton, h.nanos]
    · change w.elapsed_ + _ = ((finished ++ [now - w.startTimeStamp]).map toMilliseconds).sum
      rw [List.map_append, List.sum_append, List.map_singleton, List.sum_singleton, h.millis]
  | false =>
    rw [hw] at hrunning
    obtain rfl : began = none := hrunning
    exact h.later hnow

theorem Follows.step (h : Follows s w last) (hnow : last ≤ now) (call : Call) :
    Follows (s.step (call, now)) (w.step (call, now)) now := by
  cases call with
  | start => exact h.start hnow
  | stop => exact h.stop hnow
  | reset => exact follows_reset now
  | restart => exact follows_restart now

def sessionAfter (calls : List (Call × ℤ)) : Session := calls.foldl Session.step ⟨[], none⟩

def watchAfter (calls : List (Call × ℤ)) : StopWatch := calls.foldl StopWatch.step .reset

theorem Follows.run (h : Follows s w last) {calls : List (Call × ℤ)} (hcalls : Timed calls now)
    (hlast : ∀ call ∈ calls, last ≤ call.2) (hnow : last ≤ now) :
    Follows (calls.foldl Session.step s) (calls.foldl StopWatch.step w) now := by
  induction calls generalizing s w last with
  | nil => exact h.later hnow
  | cons call calls ih =>
    obtain ⟨hordered, hpast⟩ := hcalls
    rw [List.map_cons, List.pairwise_cons] at hordered
    have hstep := h.step (hlast call List.mem_cons_self) call.1
    refine ih hstep ⟨hordered.2, fun c hc => hpast c (List.mem_cons_of_mem call hc)⟩ ?_
      (hpast call List.mem_cons_self)
    intro c hc
    exact hordered.1 c.2 (List.mem_map_of_mem hc)

/-! ## Readings -/

theorem toMilliseconds_of_nonneg {nanos : ℤ} (h : 0 ≤ nanos) :
    toMilliseconds nanos = nanos / 1000000 := Int.tdiv_eq_ediv_of_nonneg h

/-- Rounding down each summand is rounding down the sum when the remainders do not add up. -/
theorem sum_ediv_iff {k : ℤ} (hk : 0 < k) (l : List ℤ) :
    (l.map (· / k)).sum = l.sum / k ↔ (l.map (· % k)).sum < k := by
  have hsum : l.sum = k * (l.map (· / k)).sum + (l.map (· % k)).sum := by
    induction l with
    | nil => simp
    | cons x l ih =>
      have hx := Int.mul_ediv_add_emod x k
      simp only [List.sum_cons, List.map_cons, mul_add]
      omega
  have hnonneg : 0 ≤ (l.map (· % k)).sum := by
    apply List.sum_nonneg
    intro y hy
    obtain ⟨x, -, rfl⟩ := List.mem_map.mp hy
    exact Int.emod_nonneg x hk.ne'
  have hquot : l.sum / k = (l.map (· / k)).sum + (l.map (· % k)).sum / k := by
    rw [hsum, Int.mul_add_ediv_left _ _ hk.ne']
  rw [hquot]
  constructor
  · intro h
    have hzero : (l.map (· % k)).sum / k = 0 := by omega
    have hdivision := Int.mul_ediv_add_emod (l.map (· % k)).sum k
    have hlt := Int.emod_lt_of_pos (l.map (· % k)).sum hk
    rw [hzero] at hdivision
    omega
  · intro h
    rw [Int.ediv_eq_zero_of_lt hnonneg h, add_zero]

/-- The periods of a watch, as the branches of its readings take them. -/
theorem Follows.periods_eq (h : Follows s w last) (now : ℤ) : s.periods now =
    if w.isRunning then s.finished ++ [now - w.startTimeStamp] else s.finished := by
  unfold Session.periods
  rw [h.running]
  cases w.isRunning <;> rfl

theorem Follows.elapsedInNanos_eq (h : Follows s w now) : w.elapsedInNanos now = s.total now := by
  unfold StopWatch.elapsedInNanos Session.total
  rw [h.periods_eq now, h.nanos]
  split
  · rw [List.sum_append, List.sum_singleton]
  · rfl

theorem Follows.elapsed_eq (h : Follows s w now) :
    w.elapsed now = ((s.periods now).map toMilliseconds).sum := by
  unfold StopWatch.elapsed
  rw [h.periods_eq now, h.millis]
  split
  · rw [List.map_append, List.sum_append, List.map_singleton, List.sum_singleton]
  · rfl

theorem Follows.forward_periods (h : Follows s w now) : ∀ period ∈ s.periods now, 0 ≤ period := by
  intro period hmem
  rw [h.periods_eq now] at hmem
  split at hmem
  next hw =>
    rcases List.mem_append.mp hmem with hmem | hmem
    · exact h.forward period hmem
    · have hbegun := h.begun hw
      rw [List.mem_singleton.mp hmem]
      omega
  next => exact h.forward period hmem

/-- At every moment of a run the reading in nanoseconds is the total of the running periods. The
reading in milliseconds is that total rounded down exactly when what the periods have beyond
whole milliseconds adds up to less than one. -/
theorem readings_agree_iff {calls : List (Call × ℤ)} (h : Timed calls now) :
    (watchAfter calls).elapsedInNanos now = (sessionAfter calls).total now ∧
      ((watchAfter calls).elapsed now = toMilliseconds ((sessionAfter calls).total now) ↔
        (sessionAfter calls).fractions now < 1000000) := by
  have hfollows : Follows (sessionAfter calls) (watchAfter calls) now := by
    cases calls with
    | nil => exact follows_reset now
    | cons call calls =>
      have hfirst : ∀ c ∈ call :: calls, call.2 ≤ c.2 := by
        intro c hc
        have hordered := h.ordered
        rw [List.map_cons, List.pairwise_cons] at hordered
        rcases List.mem_cons.mp hc with rfl | hc
        · exact le_refl _
        · exact hordered.1 c.2 (List.mem_map_of_mem hc)
      exact (follows_reset call.2).run h hfirst (h.past call List.mem_cons_self)
  refine ⟨hfollows.elapsedInNanos_eq, ?_⟩
  have hforward := hfollows.forward_periods
  have htotal : 0 ≤ (sessionAfter calls).total now := List.sum_nonneg hforward
  have hmillis : ((sessionAfter calls).periods now).map toMilliseconds =
      ((sessionAfter calls).periods now).map (· / 1000000) :=
    List.map_congr_left fun period hmem => toMilliseconds_of_nonneg (hforward period hmem)
  rw [hfollows.elapsed_eq, toMilliseconds_of_nonneg htotal, hmillis]
  exact sum_ediv_iff (by omega) _

theorem readings_agree_restarted :
    let calls : List (Call × ℤ) := [(.start, 5), (.start, 9), (.stop, 2500005), (.restart, 4000000)]
    (watchAfter calls).elapsedInNanos 5600000 = (sessionAfter calls).total 5600000 ∧
      ((watchAfter calls).elapsed 5600000 =
          toMilliseconds ((sessionAfter calls).total 5600000) ↔
        (sessionAfter calls).fractions 5600000 < 1000000) :=
  readings_agree_iff ⟨by decide, by decide⟩

/-- Two periods of 0.6 milliseconds each: 1.2 milliseconds in nanoseconds, none in the other
reading. -/
theorem short_periods_lost :
    let calls : List (Call × ℤ) :=
      [(.start, 0), (.stop, 600000), (.start, 600000), (.stop, 1200000)]
    (watchAfter calls).elapsedInNanos 1200000 = 1200000 ∧
      (watchAfter calls).elapsed 1200000 = 0 ∧
      ¬ (watchAfter calls).elapsed 1200000 =
        toMilliseconds ((sessionAfter calls).total 1200000) := by
  decide

end StopWatches
