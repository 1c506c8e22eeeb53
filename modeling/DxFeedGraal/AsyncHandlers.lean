import DxFeedGraal.PartialRuns
import DxFeedGraal.RingBuffers
import DxFeedGraal.SimpleHandlers
import DxFeedGraal.ThreadPhases
import Mathlib.Data.Finset.Card

/-! # Handlers that call their listeners from other threads

Every call of `handle` launches a task that calls the listeners under their mutex, and then
waits: for the task itself, or, with a buffer of futures, for the one that the buffer gives up.
Threads take their steps in any order; a listener neither throws nor uses its own handler. -/
namespace AsyncHandlers

open PartialRuns RingBuffers SimpleHandlers ThreadPhases

variable {L A : Type*}

inductive TaskPhase (L : Type*) where
  | waiting
  | calling (rest : List L)
  | finished

/-- Where the thread in `handle` stands: it waits for its own task, it wants the mutex of the
futures, it holds the mutex and waits for an older future. -/
inductive CallerPhase where
  | waiting | locking | replacing | returned
  deriving DecidableEq, Repr

/-- A call of `handle` and the task that it launched; its place in the list is the future. -/
structure Call (L A : Type*) where
  args : A
  task : TaskPhase L := .waiting
  caller : CallerPhase

def Call.ready (c : Call L A) : Bool :=
  match c.task with
  | .finished => true
  | .waiting | .calling _ => false

structure Handler (L A : Type*) where
  listeners : SimpleHandler L := {}
  /-- `mainFutures_` and `mainFuturesCurrentIndex_`. -/
  mainFutures : RingBuffer ℕ := {}
  mainFuturesSize : ℕ
  calls : List (Call L A) := []
  /-- The task that holds `listenersMutex_`. -/
  listenersMutex : Option ℕ := none
  /-- The call that holds `mainFuturesMutex_`. -/
  mainFuturesMutex : Option ℕ := none
  /-- The listeners that were called, by which task and with which arguments. -/
  called : List (ℕ × L × A) := []
  /-- The calls that returned, in the order in which they stored their futures. -/
  returned : List ℕ := []

inductive Event (L A : Type*) where
  | handle (args : A)
  | caller (future : ℕ)
  | task (future : ℕ)
  | add (listener : L) (lastId : UInt64)
  | addLowPriority (listener : L) (lastId : UInt64)
  | remove (id : UInt64)

/-- The steps of threads that are under way. -/
def Event.Internal : Event L A → Prop
  | .caller _ | .task _ => True
  | .handle _ | .add _ _ | .addLowPriority _ _ | .remove _ => False

namespace Handler

variable (h : Handler L A)

def modify (future : ℕ) (f : Call L A → Call L A) : Handler L A :=
  { h with calls := h.calls.modify future f }

def isReady (future : ℕ) : Bool := h.calls[future]?.any Call.ready

/-- Storing the future and returning are one step. -/
def leave (future : ℕ) : Handler L A :=
  { h.modify future fun c => { c with caller := .returned } with
    returned := h.returned ++ [future] }

/-- The task takes the mutex, calls one listener after the other and ends. -/
def advanceTask (future : ℕ) (c : Call L A) : Option (Handler L A) :=
  match c.task with
  | .waiting =>
    if h.listenersMutex = none then
      some { h.modify future fun c => { c with task := .calling h.listeners.handle } with
        listenersMutex := some future }
    else none
  | .calling (listener :: rest) =>
    some { h.modify future fun c => { c with task := .calling rest } with
      called := h.called ++ [(future, listener, c.args)] }
  | .calling [] =>
    some { h.modify future fun c => { c with task := .finished } with listenersMutex := none }
  | .finished => none

/-- The rest of `handle`. -/
def advanceCaller (future : ℕ) (c : Call L A) : Option (Handler L A) :=
  let stored := h.mainFutures.put h.mainFuturesSize future
  match c.caller with
  | .waiting => if h.isReady future then some (h.leave future) else none
  | .locking =>
    if h.mainFuturesMutex ≠ none then none
    else if h.mainFutures.cells.length < h.mainFuturesSize then
      some ({ h with mainFutures := stored.1 }.leave future)
    else
      some { h.modify future fun c => { c with caller := .replacing } with
        mainFuturesMutex := some future }
  | .replacing =>
    stored.2.bind fun old =>
      if h.isReady old then
        some ({ h with mainFutures := stored.1, mainFuturesMutex := none }.leave future)
      else none
  | .returned => none

/-- Listeners are added and removed under their mutex. -/
def withListeners (listeners : SimpleHandler L) : Option (Handler L A) :=
  if h.listenersMutex = none then some { h with listeners := listeners } else none

end Handler

/-- The identifiers' counter is common to all handlers of the signature, so that it may stand
anywhere. -/
def step (h : Handler L A) : Event L A → Option (Handler L A)
  | .handle args =>
    some { h with
      calls := h.calls ++
        [{ args := args, caller := if h.mainFuturesSize ≤ 1 then .waiting else .locking }] }
  | .caller future => h.calls[future]?.bind (h.advanceCaller future)
  | .task future => h.calls[future]?.bind (h.advanceTask future)
  | .add listener lastId => h.withListeners (h.listeners.add listener lastId).2.1
  | .addLowPriority listener lastId => h.withListeners (h.listeners.addLowPriority listener lastId).2.1
  | .remove id => h.withListeners (h.listeners.remove id)

/-- All that a step can do. -/
inductive Moved (h : Handler L A) : Event L A → Handler L A → Prop
  | launched (args : A) : Moved h (.handle args)
      { h with
        calls := h.calls ++
          [{ args := args, caller := if h.mainFuturesSize ≤ 1 then .waiting else .locking }] }
  | started (future : ℕ) (c : Call L A) (at_future : h.calls[future]? = some c)
      (phase : c.task = .waiting) (free : h.listenersMutex = none) :
      Moved h (.task future)
        { h.modify future fun c => { c with task := .calling h.listeners.handle } with
          listenersMutex := some future }
  | called (future : ℕ) (c : Call L A) (listener : L) (rest : List L)
      (at_future : h.calls[future]? = some c) (phase : c.task = .calling (listener :: rest)) :
      Moved h (.task future)
        { h.modify future fun c => { c with task := .calling rest } with
          called := h.called ++ [(future, listener, c.args)] }
  | finished (future : ℕ) (c : Call L A) (at_future : h.calls[future]? = some c)
      (phase : c.task = .calling []) :
      Moved h (.task future)
        { h.modify future fun c => { c with task := .finished } with listenersMutex := none }
  | waited (future : ℕ) (c : Call L A) (at_future : h.calls[future]? = some c)
      (phase : c.caller = .waiting) (ready : c.ready = true) :
      Moved h (.caller future) (h.leave future)
  | stored (future : ℕ) (c : Call L A) (at_future : h.calls[future]? = some c)
      (phase : c.caller = .locking) (free : h.mainFuturesMutex = none)
      (room : h.mainFutures.cells.length < h.mainFuturesSize) :
      Moved h (.caller future)
        ({ h with mainFutures := (h.mainFutures.put h.mainFuturesSize future).1 }.leave future)
  | locked (future : ℕ) (c : Call L A) (at_future : h.calls[future]? = some c)
      (phase : c.caller = .locking) (free : h.mainFuturesMutex = none)
      (full : h.mainFuturesSize ≤ h.mainFutures.cells.length) :
      Moved h (.caller future)
        { h.modify future fun c => { c with caller := .replacing } with
          mainFuturesMutex := some future }
  | replaced (future : ℕ) (c : Call L A) (old : ℕ) (at_future : h.calls[future]? = some c)
      (phase : c.caller = .replacing)
      (overwritten : (h.mainFutures.put h.mainFuturesSize future).2 = some old)
      (ready : h.isReady old = true) :
      Moved h (.caller future)
        ({ h with
          mainFutures := (h.mainFutures.put h.mainFuturesSize future).1
          mainFuturesMutex := none }.leave future)
  | relisted (event : Event L A) (external : ¬ event.Internal) (listeners : SimpleHandler L)
      (free : h.listenersMutex = none) :
      Moved h event { h with listeners := listeners }

theorem moved_of_withListeners {h h' : Handler L A} {listeners : SimpleHandler L}
    {event : Event L A} (hevent : ¬ event.Internal)
    (hh' : h.withListeners listeners = some h') : Moved h event h' := by
  unfold Handler.withListeners at hh'
  split at hh'
  next hfree =>
    cases hh'
    exact .relisted event hevent listeners hfree
  next => cases hh'

theorem isReady_of_at {h : Handler L A} {future : ℕ} {c : Call L A}
    (hc : h.calls[future]? = some c) : h.isReady future = c.ready := by
  rw [Handler.isReady, hc]
  rfl

theorem moved_of_step {h h' : Handler L A} {event : Event L A} (hh' : step h event = some h') :
    Moved h event h' := by
  cases event with
  | handle args =>
    cases hh'
    exact .launched args
  | caller future =>
    obtain ⟨c, hc, hh'⟩ := Option.bind_eq_some_iff.mp hh'
    unfold Handler.advanceCaller at hh'
    cases hphase : c.caller with
    | waiting =>
      simp only [hphase, isReady_of_at hc] at hh'
      split at hh'
      next hready =>
        cases hh'
        exact .waited future c hc hphase hready
      next => cases hh'
    | locking =>
      simp only [hphase] at hh'
      split at hh'
      next => cases hh'
      next hfree =>
        have hfree : h.mainFuturesMutex = none := not_not.mp hfree
        split at hh'
        next hroom =>
          cases hh'
          exact .stored future c hc hphase hfree hroom
        next hfull =>
          cases hh'
          exact .locked future c hc hphase hfree (Nat.not_lt.mp hfull)
    | replacing =>
      simp only [hphase] at hh'
      obtain ⟨old, hold, hh'⟩ := Option.bind_eq_some_iff.mp hh'
      split at hh'
      next hready =>
        cases hh'
        exact .replaced future c old hc hphase hold hready
      next => cases hh'
    | returned =>
      simp only [hphase] at hh'
      cases hh'
  | task future =>
    obtain ⟨c, hc, hh'⟩ := Option.bind_eq_some_iff.mp hh'
    unfold Handler.advanceTask at hh'
    cases hphase : c.task with
    | waiting =>
      simp only [hphase] at hh'
      split at hh'
      next hfree =>
        cases hh'
        exact .started future c hc hphase hfree
      next => cases hh'
    | calling rest =>
      cases rest with
      | nil =>
        simp only [hphase] at hh'
        cases hh'
        exact .finished future c hc hphase
      | cons listener rest =>
        simp only [hphase] at hh'
        cases hh'
        exact .called future c listener rest hc hphase
    | finished =>
      simp only [hphase] at hh'
      cases hh'
  | add listener lastId => exact moved_of_withListeners id hh'
  | addLowPriority listener lastId => exact moved_of_withListeners id hh'
  | remove id' => exact moved_of_withListeners id hh'

/-! ## The phases of a call -/

namespace Handler

variable (h : Handler L A)

abbrev taskAt : ℕ → Option (TaskPhase L) := field Call.task h.calls

abbrev callerAt : ℕ → Option CallerPhase := field Call.caller h.calls

end Handler

/-- A step of a caller leaves the tasks where they are. -/
theorem task_modify_caller (calls : List (Call L A)) (future : ℕ) (phase : CallerPhase) :
    field Call.task (calls.modify future fun c => { c with caller := phase }) =
      field Call.task calls :=
  field_modify_other Call.task (by intro c; rfl) calls future

theorem caller_modify_task (calls : List (Call L A)) (future : ℕ) (phase : TaskPhase L) :
    field Call.caller (calls.modify future fun c => { c with task := phase }) =
      field Call.caller calls :=
  field_modify_other Call.caller (by intro c; rfl) calls future

theorem isReady_iff {h : Handler L A} {future : ℕ} :
    h.isReady future = true ↔ h.taskAt future = some .finished := by
  unfold Handler.isReady Handler.taskAt field
  cases hc : h.calls[future]? with
  | none => simp
  | some c => cases htask : c.task <;> simp [Call.ready, htask]

/-! ## Who holds which mutex -/

def TaskPhase.Calling (phase : TaskPhase L) : Prop := ∃ rest, phase = .calling rest

/-- `listenersMutex_` is with the task that is calling listeners. -/
abbrev TasksSound (h : Handler L A) : Prop :=
  Owned TaskPhase.Calling h.listenersMutex h.taskAt

theorem TasksSound.moved {h h' : Handler L A} {event : Event L A} (hs : TasksSound h)
    (hm : Moved h event h') : TasksSound h' := by
  have hcaller : ∀ (future : ℕ) (phase : CallerPhase), Owned TaskPhase.Calling h.listenersMutex
      (field Call.task (h.calls.modify future fun c => { c with caller := phase })) := by
    intro future phase
    rw [task_modify_caller]
    exact hs
  cases hm with
  | launched args =>
    change Owned _ _ (field Call.task (h.calls ++ _))
    rw [field_append]
    exact hs.joins (field_length Call.task h.calls) fun ⟨_, hcalling⟩ => by cases hcalling
  | started future c hc phase free =>
    change Owned _ _ (field Call.task (h.calls.modify future _))
    rw [field_modify Call.task hc]
    exact Owned.acquires (free ▸ hs) ⟨_, rfl⟩
  | called future c listener rest hc phase =>
    change Owned _ _ (field Call.task (h.calls.modify future _))
    rw [field_modify Call.task hc]
    exact hs.keeps (field_of_at Call.task hc) (iff_of_true ⟨rest, rfl⟩ ⟨_, phase⟩)
  | finished future c hc phase =>
    change Owned _ _ (field Call.task (h.calls.modify future _))
    rw [field_modify Call.task hc]
    exact hs.releases (field_of_at Call.task hc) ⟨_, phase⟩ fun ⟨_, hcalling⟩ => by
      cases hcalling
  | waited future c hc phase ready => exact hcaller future .returned
  | stored future c hc phase free room => exact hcaller future .returned
  | locked future c hc phase free full => exact hcaller future .replacing
  | replaced future c old hc phase overwritten ready => exact hcaller future .returned
  | relisted event external listeners free => exact hs

/-- The calls that may return before their tasks are finished. -/
def Handler.window (h : Handler L A) : ℕ := if h.mainFuturesSize ≤ 1 then 0 else h.mainFuturesSize

/-- The mutex of the futures is with the call that waits for an older one; the buffer holds the
last calls that stored their futures, and the tasks of all calls before these are finished. -/
structure CallersSound (h : Handler L A) : Prop where
  held : ∀ future, h.mainFuturesMutex = some future ↔ h.callerAt future = some .replacing
  returned_iff : ∀ future, future ∈ h.returned ↔ h.callerAt future = some .returned
  direct : h.mainFuturesSize ≤ 1 → ∀ future,
    h.callerAt future ≠ some .locking ∧ h.callerAt future ≠ some .replacing
  buffered : 1 < h.mainFuturesSize →
    Holds h.mainFuturesSize h.mainFutures h.returned ∧ ∀ future, h.callerAt future ≠ some .waiting
  full : ∀ future, h.mainFuturesMutex = some future →
    h.mainFuturesSize ≤ h.mainFutures.cells.length
  settled : ∀ (j future : ℕ), h.returned[j]? = some future → j + h.window < h.returned.length →
    h.taskAt future = some .finished

theorem CallersSound.of_tasks {h h' : Handler L A} (hs : CallersSound h)
    (hcaller : h'.callerAt = h.callerAt) (hmutex : h'.mainFuturesMutex = h.mainFuturesMutex)
    (hreturned : h'.returned = h.returned) (hfutures : h'.mainFutures = h.mainFutures)
    (hsize : h'.mainFuturesSize = h.mainFuturesSize)
    (htask : ∀ future, h.taskAt future = some .finished → h'.taskAt future = some .finished) :
    CallersSound h' := by
  constructor
  · rw [hcaller, hmutex]
    exact hs.held
  · rw [hcaller, hreturned]
    exact hs.returned_iff
  · rw [hcaller, hsize]
    exact hs.direct
  · rw [hcaller, hsize, hfutures, hreturned]
    exact hs.buffered
  · rw [hmutex, hsize, hfutures]
    exact hs.full
  · rw [hreturned, Handler.window, hsize]
    exact fun j future hj hlate => htask future (hs.settled j future hj hlate)

/-- A call returns: it is added to the buffer, if there is one, and what that gives up is
finished. -/
theorem CallersSound.leave {h : Handler L A} (hs : CallersSound h) {future : ℕ} {c : Call L A}
    (hc : h.calls[future]? = some c) {futures : RingBuffer ℕ} {mutex : Option ℕ}
    (hfree : mutex = none)
    (hmutex : ∀ other, other ≠ future → h.mainFuturesMutex ≠ some other)
    (hholds : 1 < h.mainFuturesSize →
      Holds h.mainFuturesSize futures (h.returned ++ [future]) ∧ c.caller ≠ .waiting)
    (hready : ∀ j other, (h.returned ++ [future])[j]? = some other →
      j + h.window = h.returned.length → h.taskAt other = some .finished) :
    CallersSound ({ h with mainFutures := futures, mainFuturesMutex := mutex }.leave future) := by
  subst hfree
  have hcaller : Handler.callerAt ({ h with
      mainFutures := futures, mainFuturesMutex := none }.leave future) =
        Function.update h.callerAt future (some .returned) := field_modify Call.caller hc _
  have htask : Handler.taskAt ({ h with
      mainFutures := futures, mainFuturesMutex := none }.leave future) = h.taskAt :=
    task_modify_caller h.calls future .returned
  constructor
  · intro other
    rw [hcaller]
    by_cases hother : other = future
    · subst hother
      simp [Handler.leave, Handler.modify]
    · rw [Function.update_of_ne hother, ← hs.held]
      simp [Handler.leave, Handler.modify, hmutex other hother]
  · intro other
    rw [hcaller]
    change other ∈ h.returned ++ [future] ↔ _
    by_cases hother : other = future
    · subst hother
      simp
    · rw [Function.update_of_ne hother, ← hs.returned_iff]
      simp [hother]
  · intro hdirect other
    rw [hcaller]
    by_cases hother : other = future
    · subst hother
      simp
    · rw [Function.update_of_ne hother]
      exact hs.direct hdirect other
  · intro hbuffered
    refine ⟨(hholds hbuffered).1, fun other => ?_⟩
    rw [hcaller]
    by_cases hother : other = future
    · subst hother
      simp
    · rw [Function.update_of_ne hother]
      exact (hs.buffered hbuffered).2 other
  · intro other hheld
    cases hheld
  · intro j other hj hlate
    rw [htask]
    change (h.returned ++ [future])[j]? = some other at hj
    change j + h.window < (h.returned ++ [future]).length at hlate
    rw [List.length_append, List.length_singleton] at hlate
    rcases Nat.lt_succ_iff_lt_or_eq.mp hlate with hold | hlast
    · refine hs.settled j other ?_ hold
      rwa [List.getElem?_append_left (by omega)] at hj
    · exact hready j other hj hlast

theorem finished_of_unchanged {h h' : Handler L A} {future : ℕ} {c : Call L A}
    {phase : Option (TaskPhase L)} (hc : h.calls[future]? = some c) (hphase : c.task ≠ .finished)
    (htask : h'.taskAt = Function.update h.taskAt future phase) (other : ℕ)
    (hother : h.taskAt other = some .finished) : h'.taskAt other = some .finished := by
  have hne : other ≠ future := by
    rintro rfl
    have hat : h.taskAt other = some c.task := field_of_at Call.task hc
    rw [hother] at hat
    exact hphase (Option.some.inj hat).symm
  rw [htask, Function.update_of_ne hne]
  exact hother

theorem CallersSound.launch {h : Handler L A} (hs : CallersSound h) (args : A) :
    CallersSound { h with
      calls := h.calls ++
        [{ args := args, caller := if h.mainFuturesSize ≤ 1 then .waiting else .locking }] } := by
  let c : Call L A :=
    { args := args, caller := if h.mainFuturesSize ≤ 1 then .waiting else .locking }
  have hcaller : Handler.callerAt { h with calls := h.calls ++ [c] } =
    Function.update h.callerAt h.calls.length (some c.caller) := field_append Call.caller _ _
  have htask : Handler.taskAt { h with calls := h.calls ++ [c] } =
    Function.update h.taskAt h.calls.length (some c.task) := field_append Call.task _ _
  have hnew : ∀ phase, phase ≠ c.caller → ∀ future, (Handler.callerAt
      { h with calls := h.calls ++ [c] } future = some phase ↔ h.callerAt future = some phase) := by
    intro phase hphase future
    rw [hcaller]
    by_cases hfuture : future = h.calls.length
    · subst hfuture
      rw [Function.update_self, Handler.callerAt, field_length]
      simp [hphase.symm]
    · rw [Function.update_of_ne hfuture]
  have hkind : c.caller = .waiting ∧ h.mainFuturesSize ≤ 1 ∨
      c.caller = .locking ∧ 1 < h.mainFuturesSize := by
    by_cases hsize : h.mainFuturesSize ≤ 1
    · exact Or.inl ⟨if_pos hsize, hsize⟩
    · exact Or.inr ⟨if_neg hsize, Nat.lt_of_not_le hsize⟩
  have hwhere : c.caller ≠ .replacing ∧ c.caller ≠ .returned := by
    rcases hkind with ⟨hc, -⟩ | ⟨hc, -⟩ <;> rw [hc] <;> decide
  constructor
  · exact fun future => (hs.held future).trans (hnew _ hwhere.1.symm future).symm
  · exact fun future => (hs.returned_iff future).trans (hnew _ hwhere.2.symm future).symm
  · intro hdirect future
    have hc : c.caller = .waiting := if_pos hdirect
    refine ⟨fun h => (hs.direct hdirect future).1 ?_, fun h => (hs.direct hdirect future).2 ?_⟩
    · exact (hnew _ (by rw [hc]; decide) future).mp h
    · exact (hnew _ (by rw [hc]; decide) future).mp h
  · intro hbuffered
    have hc : c.caller = .locking := if_neg (Nat.not_le.mpr hbuffered)
    refine ⟨(hs.buffered hbuffered).1, fun future h => (hs.buffered hbuffered).2 future ?_⟩
    exact (hnew _ (by rw [hc]; decide) future).mp h
  · exact hs.full
  · intro j future hj hlate
    have hold := hs.settled j future hj hlate
    have hne : future ≠ h.calls.length := by
      rintro rfl
      rw [Handler.taskAt, field_length] at hold
      cases hold
    change Handler.taskAt { h with calls := h.calls ++ [c] } future = some .finished
    rw [htask, Function.update_of_ne hne]
    exact hold

theorem CallersSound.lock {h : Handler L A} (hs : CallersSound h) {future : ℕ} {c : Call L A}
    (hc : h.calls[future]? = some c) (phase : c.caller = .locking)
    (free : h.mainFuturesMutex = none) (full : h.mainFuturesSize ≤ h.mainFutures.cells.length) :
    CallersSound { h.modify future fun c => { c with caller := .replacing } with
      mainFuturesMutex := some future } := by
  have hat : h.callerAt future = some .locking := phase ▸ field_of_at Call.caller hc
  have hbuffered : 1 < h.mainFuturesSize := by
    by_contra hdirect
    exact (hs.direct (Nat.le_of_not_lt hdirect) future).1 hat
  have hcaller := field_modify Call.caller hc fun c => { c with caller := .replacing }
  have htask := task_modify_caller h.calls future .replacing
  constructor
  all_goals dsimp only [Handler.callerAt, Handler.taskAt, Handler.modify, Handler.window]
  · intro other
    rw [hcaller]
    by_cases hother : other = future
    · subst hother
      simp
    · rw [Function.update_of_ne hother]
      have hold := hs.held other
      rw [free] at hold
      simpa [Ne.symm hother] using hold
  · intro other
    rw [hcaller]
    by_cases hother : other = future
    · subst hother
      have hold := hs.returned_iff other
      rw [hat] at hold
      simpa using hold
    · rw [Function.update_of_ne hother]
      exact hs.returned_iff other
  · exact fun hdirect => absurd hdirect (Nat.not_le.mpr hbuffered)
  · intro _
    refine ⟨(hs.buffered hbuffered).1, fun other => ?_⟩
    rw [hcaller]
    by_cases hother : other = future
    · subst hother
      simp
    · rw [Function.update_of_ne hother]
      exact (hs.buffered hbuffered).2 other
  · exact fun _ _ => full
  · rw [htask]
    exact hs.settled

theorem CallersSound.moved {h h' : Handler L A} {event : Event L A} (hs : CallersSound h)
    (hm : Moved h event h') : CallersSound h' := by
  cases hm with
  | launched args => exact hs.launch args
  | started future c hc phase free =>
    refine hs.of_tasks (caller_modify_task h.calls future _) rfl rfl rfl rfl ?_
    exact finished_of_unchanged hc (by simp [phase]) (field_modify Call.task hc _)
  | called future c listener rest hc phase =>
    refine hs.of_tasks (caller_modify_task h.calls future _) rfl rfl rfl rfl ?_
    exact finished_of_unchanged hc (by simp [phase]) (field_modify Call.task hc _)
  | finished future c hc phase =>
    refine hs.of_tasks (caller_modify_task h.calls future _) rfl rfl rfl rfl ?_
    exact finished_of_unchanged hc (by simp [phase]) (field_modify Call.task hc _)
  | waited future c hc phase ready =>
    have hat : h.callerAt future = some .waiting := phase ▸ field_of_at Call.caller hc
    have hdirect : h.mainFuturesSize ≤ 1 := by
      by_contra hbuffered
      exact (hs.buffered (Nat.lt_of_not_le hbuffered)).2 future hat
    have hmutex : ∀ other, h.mainFuturesMutex ≠ some other := fun other hheld =>
      (hs.direct hdirect other).2 ((hs.held other).mp hheld)
    refine hs.leave hc (Option.eq_none_iff_forall_ne_some.mpr hmutex) (fun other _ => hmutex other)
      (fun hbuffered => absurd hdirect (Nat.not_le.mpr hbuffered)) fun j other hj hlast => ?_
    rw [Handler.window, if_pos hdirect, Nat.add_zero] at hlast
    rw [hlast, List.getElem?_concat_length] at hj
    rw [← Option.some.inj hj, ← isReady_iff, isReady_of_at hc]
    exact ready
  | stored future c hc phase free room =>
    have hat : h.callerAt future = some .locking := phase ▸ field_of_at Call.caller hc
    have hbuffered : 1 < h.mainFuturesSize := by
      by_contra hdirect
      exact (hs.direct (Nat.le_of_not_lt hdirect) future).1 hat
    have hholds := (hs.buffered hbuffered).1
    refine hs.leave hc free (fun other _ => by simp [free])
      (fun _ => ⟨hholds.put (by omega) future, by simp [phase]⟩) fun j other _ hlast => ?_
    have hlength := hholds.length
    rw [Handler.window, if_neg (Nat.not_le.mpr hbuffered)] at hlast
    omega
  | locked future c hc phase free full => exact hs.lock hc phase free full
  | replaced future c old hc phase overwritten ready =>
    have hat : h.callerAt future = some .replacing := phase ▸ field_of_at Call.caller hc
    have hheld := (hs.held future).mpr hat
    have hbuffered : 1 < h.mainFuturesSize := by
      by_contra hdirect
      exact (hs.direct (Nat.le_of_not_lt hdirect) future).2 hat
    have hholds := (hs.buffered hbuffered).1
    have hfull := hs.full future hheld
    have hlength := hholds.length
    -- What the buffer gives up is the oldest of the last calls that returned.
    have hold : h.returned[h.returned.length - h.mainFuturesSize]? = some old := by
      rw [← hholds.overwritten (by omega) (by omega), ← overwritten, RingBuffer.put,
        if_neg (Nat.not_lt.mpr hfull)]
    refine hs.leave hc rfl (fun other hother => by simp [hheld, Ne.symm hother])
      (fun _ => ⟨hholds.put (by omega) future, by simp [phase]⟩) fun j other hj hlast => ?_
    rw [Handler.window, if_neg (Nat.not_le.mpr hbuffered)] at hlast
    have hplace : j = h.returned.length - h.mainFuturesSize := by omega
    rw [hplace, List.getElem?_append_left (by omega), hold] at hj
    rw [← Option.some.inj hj]
    exact isReady_iff.mp ready
  | relisted event external listeners free =>
    exact hs.of_tasks rfl rfl rfl rfl rfl fun _ hfinished => hfinished

end AsyncHandlers
