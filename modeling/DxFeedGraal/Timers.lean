import DxFeedGraal.PartialRuns
import Mathlib.Data.List.Chain

/-! # Timers

A timer calls a function from a thread of its own, once or again and again. The thread raises
the flag that keeps it going; any other thread may lower it at any moment. -/
namespace Timers

open PartialRuns

/-! ## The source -/

/-- The arguments of `schedule`; `runOnce` has no period. -/
structure Plan where
  delay : ℕ
  period : Option ℕ := none
  deriving DecidableEq, Repr

/-- Where the thread of a timer stands. -/
inductive Phase where
  | created
  /-- Before `interruptableSleep` reads the clock. -/
  | entering (ms : ℕ)
  | sleeping (startTimeStamp ms : ℕ)
  /-- Before the flag is read that decides about the call. -/
  | checking
  | calling
  /-- In the function. -/
  | inside
  | lowering
  | ended
  deriving DecidableEq, Repr

structure Timer where
  isRunning : Bool := false
  phase : Phase := .created
  /-- What the steady clock shows, in milliseconds. -/
  now : ℕ := 0
  /-- When the thread has raised the flag. -/
  started : Option ℕ := none
  /-- When the function was called, the last call first. -/
  calls : List ℕ := []
  deriving DecidableEq, Repr

inductive Event where
  | advance
  | stop
  | elapse (ms : ℕ)
  deriving DecidableEq, Repr

namespace Timer

variable (p : Plan) (t : Timer)

def stop : Timer := { t with isRunning := false }

/-- The next step of the thread. -/
def advance : Option Timer :=
  match t.phase with
  | .created => some { t with
      isRunning := true, started := some t.now, phase := .entering p.delay }
  | .entering ms => some { t with phase := .sleeping t.now ms }
  | .sleeping startTimeStamp ms =>
    -- Ten milliseconds later the condition is looked at again.
    if t.isRunning ∧ t.now - startTimeStamp < ms then some t
    else some { t with phase := .checking }
  | .checking =>
    if t.isRunning then some { t with phase := .calling }
    else match p.period with
      | some _ => some { t with phase := .lowering }
      | none => some { t with phase := .ended }
  | .calling => some { t with phase := .inside, calls := t.now :: t.calls }
  | .inside =>
    match p.period with
    | some period => some { t with phase := .entering period }
    | none => some { t with phase := .lowering }
  | .lowering => some { t with isRunning := false, phase := .ended }
  | .ended => none

end Timer

def step (p : Plan) (t : Timer) : Event → Option Timer
  | .advance => t.advance p
  | .stop => some t.stop
  | .elapse ms => some { t with now := t.now + ms }

/-! ## No call is early -/

/-- From the last call to the first: the first a delay after the start, the others a period
after the one before. -/
def Paced (p : Plan) (started : ℕ) : List ℕ → Prop
  | [] => True
  | [c] => started + p.delay ≤ c
  | c :: c' :: cs => c' + p.period.getD 0 ≤ c ∧ Paced p started (c' :: cs)

/-- The earliest moment at which the next call may come. -/
def due (p : Plan) (t : Timer) : ℕ :=
  match t.calls with
  | [] => t.started.getD 0 + p.delay
  | c :: _ => c + p.period.getD 0

/-- What is known of the timer from where its thread stands. -/
def Expects (p : Plan) (t : Timer) : Phase → Prop
  | .created => t.isRunning = false ∧ t.started = none ∧ t.calls = []
  | .entering ms => due p t ≤ t.now + ms ∧ (p.period = none → t.calls = [])
  | .sleeping startTimeStamp ms =>
    (due p t ≤ startTimeStamp + ms ∧ startTimeStamp ≤ t.now) ∧ (p.period = none → t.calls = [])
  | .checking => (t.isRunning = true → due p t ≤ t.now) ∧ (p.period = none → t.calls = [])
  | .calling => due p t ≤ t.now ∧ (p.period = none → t.calls = [])
  | .inside => t.calls ≠ []
  | .lowering | .ended => True

structure Sound (p : Plan) (t : Timer) : Prop where
  expects : Expects p t t.phase
  started_past : ∀ s ∈ t.started, s ≤ t.now
  calls_past : ∀ c ∈ t.calls.head?, c ≤ t.now
  paced : Paced p (t.started.getD 0) t.calls
  once : p.period = none → t.calls.length ≤ 1

theorem sound_start (p : Plan) : Sound p {} where
  expects := ⟨rfl, rfl, rfl⟩
  started_past := by simp
  calls_past := by simp
  paced := trivial
  once := by simp

theorem Expects.stop {p : Plan} {t : Timer} {phase : Phase} (h : Expects p t phase) :
    Expects p t.stop phase := by
  cases phase with
  | created => exact ⟨rfl, h.2⟩
  | checking => exact ⟨fun hrunning => absurd hrunning Bool.false_ne_true, h.2⟩
  | entering ms => exact h
  | sleeping startTimeStamp ms => exact h
  | calling => exact h
  | inside => exact h
  | lowering => trivial
  | ended => trivial

theorem Expects.elapse {p : Plan} {t : Timer} {phase : Phase} (h : Expects p t phase) (ms : ℕ) :
    Expects p { t with now := t.now + ms } phase := by
  cases phase with
  | created => exact h
  | entering wait => exact ⟨h.1.trans (by dsimp only; omega), h.2⟩
  | sleeping startTimeStamp wait => exact ⟨⟨h.1.1, h.1.2.trans (Nat.le_add_right _ _)⟩, h.2⟩
  | checking => exact ⟨fun hrunning => (h.1 hrunning).trans (Nat.le_add_right _ _), h.2⟩
  | calling => exact ⟨h.1.trans (Nat.le_add_right _ _), h.2⟩
  | inside => exact h
  | lowering => trivial
  | ended => trivial

/-- A call at the moment that the clock shows. -/
theorem paced_call {p : Plan} {t : Timer} (h : Sound p t) (hdue : due p t ≤ t.now) :
    Paced p (t.started.getD 0) (t.now :: t.calls) := by
  have hpaced := h.paced
  unfold due at hdue
  cases hcalls : t.calls with
  | nil =>
    rw [hcalls] at hdue
    exact hdue
  | cons c cs =>
    rw [hcalls] at hdue hpaced
    exact ⟨hdue, hpaced⟩

theorem Sound.advance {p : Plan} {t u : Timer} (h : Sound p t) (hu : t.advance p = some u) :
    Sound p u := by
  have hexpects := h.expects
  unfold Timer.advance at hu
  cases hphase : t.phase with
  | created =>
    rw [hphase] at hu hexpects
    cases hu
    obtain ⟨-, -, hcalls⟩ := hexpects
    refine ⟨⟨?_, fun _ => hcalls⟩, fun s hs => ?_, h.calls_past, ?_, h.once⟩
    · simp [due, hcalls]
    · cases hs
      exact le_refl _
    · rw [hcalls]
      trivial
  | entering ms =>
    rw [hphase] at hu hexpects
    cases hu
    exact ⟨⟨⟨hexpects.1, le_refl _⟩, hexpects.2⟩, h.started_past, h.calls_past, h.paced, h.once⟩
  | sleeping startTimeStamp ms =>
    rw [hphase] at hu hexpects
    dsimp only at hu
    split at hu
    next =>
      cases hu
      exact h
    next hawake =>
      cases hu
      refine ⟨⟨fun hrunning => ?_, hexpects.2⟩, h.started_past, h.calls_past, h.paced, h.once⟩
      obtain ⟨hdue, hpast⟩ := hexpects.1
      have hlong : ¬ t.now - startTimeStamp < ms := fun hlt => hawake ⟨hrunning, hlt⟩
      exact hdue.trans (by dsimp only; omega)
  | checking =>
    rw [hphase] at hu hexpects
    dsimp only at hu
    split at hu
    next hrunning =>
      cases hu
      exact ⟨⟨hexpects.1 hrunning, hexpects.2⟩, h.started_past, h.calls_past, h.paced, h.once⟩
    next =>
      cases hperiod : p.period with
      | none =>
        rw [hperiod] at hu
        cases hu
        exact ⟨trivial, h.started_past, h.calls_past, h.paced, h.once⟩
      | some period =>
        rw [hperiod] at hu
        cases hu
        exact ⟨trivial, h.started_past, h.calls_past, h.paced, h.once⟩
  | calling =>
    rw [hphase] at hu hexpects
    cases hu
    refine ⟨List.cons_ne_nil _ _, h.started_past, fun c hc => ?_, paced_call h hexpects.1,
      fun honce => ?_⟩
    · cases hc
      exact le_refl _
    · exact le_of_eq (congrArg (fun l => l.length + 1) (hexpects.2 honce))
  | inside =>
    rw [hphase] at hu hexpects
    cases hperiod : p.period with
    | none =>
      rw [hperiod] at hu
      cases hu
      exact ⟨trivial, h.started_past, h.calls_past, h.paced, h.once⟩
    | some period =>
      rw [hperiod] at hu
      cases hu
      refine ⟨⟨?_, fun hnone => nomatch hperiod.symm.trans hnone⟩, h.started_past, h.calls_past,
        h.paced, h.once⟩
      obtain ⟨c, cs, hcalls⟩ := List.exists_cons_of_ne_nil hexpects
      have hpast := h.calls_past c (by rw [hcalls]; rfl)
      simp only [due, hcalls, hperiod, Option.getD_some]
      omega
  | lowering =>
    rw [hphase] at hu
    cases hu
    exact ⟨trivial, h.started_past, h.calls_past, h.paced, h.once⟩
  | ended =>
    rw [hphase] at hu
    cases hu

theorem Sound.step {p : Plan} {t u : Timer} {event : Event} (h : Sound p t)
    (hu : step p t event = some u) : Sound p u := by
  cases event with
  | advance => exact h.advance hu
  | stop =>
    cases hu
    exact ⟨h.expects.stop, h.started_past, h.calls_past, h.paced, h.once⟩
  | elapse ms =>
    cases hu
    exact ⟨h.expects.elapse ms, fun s hs => (h.started_past s hs).trans (Nat.le_add_right _ _),
      fun c hc => (h.calls_past c hc).trans (Nat.le_add_right _ _), h.paced, h.once⟩

theorem sound_run {p : Plan} {events : List Event} {t : Timer}
    (h : run (step p) {} events = some t) : Sound p t :=
  run_invariant (fun _ _ _ hs hu => hs.step hu) (sound_start p) h

theorem paced_from_start {p : Plan} {started : ℕ} {calls : List ℕ} (h : Paced p started calls) :
    ∀ k c, calls.reverse[k]? = some c → started + p.delay + k * p.period.getD 0 ≤ c := by
  induction calls with
  | nil => simp
  | cons c cs ih =>
    intro k d hd
    rw [List.reverse_cons, List.getElem?_append] at hd
    split at hd
    next =>
      cases cs with
      | nil => cases hd
      | cons c' cs => exact ih h.2 k d hd
    next hlast =>
      rw [List.length_reverse] at hlast hd
      obtain ⟨hk, rfl⟩ : k - cs.length = 0 ∧ c = d := by
        cases hk : k - cs.length with
        | zero => exact ⟨rfl, by simpa [hk] using hd⟩
        | succ n => simp [hk] at hd
      cases cs with
      | nil =>
        have hzero : k = 0 := by simpa using hk
        rw [hzero, Nat.zero_mul]
        exact h
      | cons c' cs =>
        obtain ⟨hgap, hrest⟩ := h
        have hbefore := ih hrest cs.length c' (by simp)
        obtain rfl : k = cs.length + 1 := by
          rw [List.length_cons] at hk hlast
          omega
        rw [Nat.succ_mul]
        omega

/-- Call number `k` comes no earlier than the delay and `k` periods after the flag was raised,
and a timer without a period calls once. -/
theorem calls_are_never_early (p : Plan) (events : List Event) (t : Timer)
    (h : run (step p) {} events = some t) :
    (∀ k c, t.calls.reverse[k]? = some c →
      t.started.getD 0 + p.delay + k * p.period.getD 0 ≤ c) ∧
    (p.period = none → t.calls.length ≤ 1) :=
  ⟨paced_from_start (sound_run h).paced, (sound_run h).once⟩

/-- Two calls of a periodic timer. -/
theorem two_calls_are_paced :
    ∃ t, run (step ⟨20, some 50⟩) {} [.advance, .advance, .elapse 30, .advance, .advance, .advance,
        .advance, .advance, .elapse 50, .advance, .advance, .advance] = some t ∧
      t.calls = [80, 30] ∧
      (∀ k c, t.calls.reverse[k]? = some c → t.started.getD 0 + 20 + k * 50 ≤ c) ∧
      ((⟨20, some 50⟩ : Plan).period = none → t.calls.length ≤ 1) :=
  ⟨_, rfl, rfl, calls_are_never_early ⟨20, some 50⟩ [.advance, .advance, .elapse 30, .advance,
    .advance, .advance, .advance, .advance, .elapse 50, .advance, .advance, .advance] _ rfl⟩

/-! ## Stopping -/

/-- The thread has raised its flag and somebody has lowered it. -/
structure Halted (t : Timer) : Prop where
  lowered : t.isRunning = false
  begun : t.phase ≠ .created

/-- The calls with the one that can no longer be prevented. -/
def allowance (t : Timer) : ℕ := t.calls.length + if t.phase = .calling then 1 else 0

/-- How many steps a thread whose flag is down has left. -/
def stepsLeft : Phase → ℕ
  | .created => 0
  | .calling => 6
  | .inside => 5
  | .entering _ => 4
  | .sleeping _ _ => 3
  | .checking => 2
  | .lowering => 1
  | .ended => 0

/-- A thread whose flag is down makes no call but the one it was about to make. -/
theorem Halted.advance {p : Plan} {t u : Timer} (h : Halted t) (hu : t.advance p = some u) :
    Halted u ∧ allowance u ≤ allowance t ∧ stepsLeft u.phase < stepsLeft t.phase := by
  have hdown := h.lowered
  unfold Timer.advance at hu
  unfold allowance
  cases hphase : t.phase with
  | created => exact absurd hphase h.begun
  | entering ms =>
    rw [hphase] at hu
    cases hu
    exact ⟨⟨hdown, by simp⟩, by simp, by simp [stepsLeft]⟩
  | sleeping startTimeStamp ms =>
    rw [hphase] at hu
    simp only [hdown] at hu
    cases hu
    exact ⟨⟨rfl, by simp⟩, by simp, by simp [stepsLeft]⟩
  | checking =>
    rw [hphase] at hu
    simp only [hdown] at hu
    cases hperiod : p.period with
    | none =>
      rw [hperiod] at hu
      cases hu
      exact ⟨⟨rfl, by simp⟩, by simp, by simp [stepsLeft]⟩
    | some period =>
      rw [hperiod] at hu
      cases hu
      exact ⟨⟨rfl, by simp⟩, by simp, by simp [stepsLeft]⟩
  | calling =>
    rw [hphase] at hu
    cases hu
    exact ⟨⟨hdown, by simp⟩, by simp, by simp [stepsLeft]⟩
  | inside =>
    rw [hphase] at hu
    cases hperiod : p.period with
    | none =>
      rw [hperiod] at hu
      cases hu
      exact ⟨⟨hdown, by simp⟩, by simp, by simp [stepsLeft]⟩
    | some period =>
      rw [hperiod] at hu
      cases hu
      exact ⟨⟨hdown, by simp⟩, by simp, by simp [stepsLeft]⟩
  | lowering =>
    rw [hphase] at hu
    cases hu
    exact ⟨⟨rfl, by simp⟩, by simp, by simp [stepsLeft]⟩
  | ended =>
    rw [hphase] at hu
    cases hu

theorem Halted.run {p : Plan} {t u : Timer} {events : List Event} (h : Halted t)
    (hu : run (step p) t events = some u) : Halted u ∧ allowance u ≤ allowance t ∧
      stepsLeft u.phase + events.count .advance ≤ stepsLeft t.phase := by
  induction events generalizing t with
  | nil =>
    cases hu
    exact ⟨h, le_refl _, le_refl _⟩
  | cons event events ih =>
    obtain ⟨s, hs, hrest⟩ := Option.bind_eq_some_iff.mp hu
    cases event with
    | advance =>
      obtain ⟨hhalted, hcalls, hsteps⟩ := h.advance hs
      obtain ⟨hend, hcalls', hsteps'⟩ := ih hhalted hrest
      refine ⟨hend, hcalls'.trans hcalls, ?_⟩
      rw [List.count_cons_self]
      omega
    | stop =>
      cases hs
      exact ih (t := t.stop) ⟨rfl, h.begun⟩ hrest
    | elapse ms =>
      cases hs
      exact ih (t := { t with now := t.now + ms }) ⟨h.lowered, h.begun⟩ hrest

theorem advance_or_ended (p : Plan) (t : Timer) : t.phase = .ended ∨ (t.advance p).isSome := by
  unfold Timer.advance
  cases t.phase with
  | sleeping startTimeStamp ms =>
    right
    dsimp only
    split <;> rfl
  | checking =>
    right
    dsimp only
    split
    · rfl
    · cases p.period <;> rfl
  | inside =>
    right
    cases hperiod : p.period <;> simp
  | created => exact Or.inr rfl
  | entering ms => exact Or.inr rfl
  | calling => exact Or.inr rfl
  | lowering => exact Or.inr rfl
  | ended => exact Or.inl rfl

/-- What a call of `stop` is to mean from now on, whatever happens next. -/
structure Stops (p : Plan) (t : Timer) : Prop where
  few_calls : ∀ after u, run (step p) t.stop after = some u →
    u.calls.length ≤ t.calls.length + if t.phase = .calling then 1 else 0
  few_steps : ∀ after u, run (step p) t.stop after = some u →
    after.count .advance ≤ 6 ∧ (u.phase = .ended ∨ (u.advance p).isSome)

theorem stops_of_begun {p : Plan} {t : Timer} (h : t.phase ≠ .created) : Stops p t := by
  have hhalted : Halted t.stop := ⟨rfl, h⟩
  have hbound : ∀ phase, stepsLeft phase ≤ 6 := fun phase => by cases phase <;> simp [stepsLeft]
  constructor
  · intro after u hu
    exact (Nat.le_add_right _ _).trans (hhalted.run hu).2.1
  · intro after u hu
    have hsteps := (hhalted.run hu).2.2
    have hsix := hbound t.stop.phase
    exact ⟨by omega, advance_or_ended p u⟩

/-- The thread raises the flag after the call and goes on to call the function. -/
theorem not_stops_of_created {p : Plan} {t : Timer} (h : t.phase = .created) : ¬ Stops p t := by
  intro hstops
  have hcall : run (step p) t.stop [.advance, .advance, .elapse p.delay, .advance, .advance,
      .advance] = some { t with
        isRunning := true, phase := .inside, now := t.now + p.delay, started := some t.now
        calls := (t.now + p.delay) :: t.calls } := by
    simp [PartialRuns.run, step, Timer.advance, Timer.stop, h]
  have hfew := hstops.few_calls _ _ hcall
  have hnone : ¬ t.phase = .calling := by simp [h]
  rw [if_neg hnone] at hfew
  exact absurd hfew (Nat.not_succ_le_self _)

/-- A call of `stop` keeps the function from being called, but for the call that the thread was
about to make, and brings the thread to its end, exactly when the thread has raised its flag;
before that it changes nothing. -/
theorem stop_works_iff_begun (p : Plan) (events : List Event) (t : Timer)
    (h : run (step p) {} events = some t) :
    (Stops p t ↔ t.phase ≠ .created) ∧ (t.phase = .created → t.stop = t) := by
  refine ⟨⟨fun hstops hphase => not_stops_of_created hphase hstops, stops_of_begun⟩, ?_⟩
  intro hphase
  have hexpects := (sound_run h).expects
  rw [hphase] at hexpects
  exact congrArg (fun b => { t with isRunning := b }) hexpects.1.symm

/-- A timer that is stopped right after it was created, and one that is stopped in its sleep. -/
theorem stop_of_two_timers :
    (∃ t, run (step ⟨20, none⟩) {} [] = some t ∧ (Stops ⟨20, none⟩ t ↔ t.phase ≠ .created) ∧
      (t.phase = .created → t.stop = t)) ∧
    ∃ t, run (step ⟨20, none⟩) {} [.advance, .advance, .elapse 5] = some t ∧
      (Stops ⟨20, none⟩ t ↔ t.phase ≠ .created) ∧ (t.phase = .created → t.stop = t) :=
  ⟨⟨_, rfl, stop_works_iff_begun ⟨20, none⟩ [] _ rfl⟩,
    ⟨_, rfl, stop_works_iff_begun ⟨20, none⟩ [.advance, .advance, .elapse 5] _ rfl⟩⟩

end Timers
