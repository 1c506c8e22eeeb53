import DxFeedGraal.FeedAttachments
import DxFeedGraal.FeedSubscriptionRuns

/-! # Calls of subscriptions come back

No thread wants one mutex while it holds another one, so that the threads come to rest once no
new call is made and no new batch arrives. -/
namespace FeedSubscriptionWaits

open PartialRuns ThreadPhases Broadcasts EntityManagers SimpleHandlers
open CppNumbers NativeEvents EventClasses EventMapper
open FeedSubscriptions FeedSubscriptionRuns FeedAttachments

variable {K : Type}

/-! ## The work that is left -/

/-- A change that is still to be made. -/
def changes : Phase K → ℕ
  | .entering _ _ _ | .creating _ _ _ | .attaching _ _ _ | .changing _ _ => 1
  | .resolving _ _ | .publishing _ _ | .calling _ _ _ _ _ | .returned _ => 0

/-- No handler will have more listeners, as long as nothing more is asked for. -/
def bound (u : State K) : ℕ := u.lastId.toNat + (u.threads.map changes).sum

/-- The steps that a thread can still take when no handler has more than `n` listeners. -/
def stepsLeft (n : ℕ) : Phase K → ℕ
  | .entering _ _ _ => 4
  | .creating _ _ _ => 3
  | .attaching _ _ _ => 2
  | .changing _ _ => 1
  | .resolving _ _ => n + 3
  | .publishing _ _ => n + 2
  | .calling _ _ _ listeners lowPriorityListeners =>
    listeners.length + lowPriorityListeners.length + 1
  | .returned _ => 0

def work (u : State K) : ℕ := (u.threads.map (stepsLeft (bound u))).sum

theorem stepsLeft_mono {m n : ℕ} (hle : m ≤ n) (phase : Phase K) :
    stepsLeft m phase ≤ stepsLeft n phase := by
  cases phase with
  | resolving _ _ => exact Nat.add_le_add_right hle 3
  | publishing _ _ => exact Nat.add_le_add_right hle 2
  | entering _ _ _ | creating _ _ _ | attaching _ _ _ | changing _ _ | calling _ _ _ _ _
  | returned _ => exact le_rfl

/-- A thread that takes one of its steps, while the bound does not grow. -/
theorem work_decreases {u v : State K} {thread : ℕ} {was : Phase K} (now : Phase K)
    (hthread : u.threads[thread]? = some was)
    (hv : v.threads = u.threads.modify thread fun _ => now)
    (hlastId : v.lastId.toNat + changes now ≤ u.lastId.toNat + changes was)
    (hless : stepsLeft (bound u) now < stepsLeft (bound u) was) : work v < work u := by
  have hchanges := sum_modify changes hthread fun _ => now
  have hsteps := sum_modify (stepsLeft (bound u)) hthread fun _ => now
  have hbound : bound v ≤ bound u := by
    unfold bound
    rw [hv]
    omega
  have hmono : work v ≤ (v.threads.map (stepsLeft (bound u))).sum :=
    List.sum_le_sum fun phase _ => stepsLeft_mono hbound phase
  rw [hv] at hmono
  unfold work at hmono ⊢
  omega

/-! ## How many listeners there are -/

section Few

variable [DecidableEq K] {number : EventClazz → ℤ} {lib : StandardLibrary} {u v : State K}

/-- Every listener took an identifier from the counter. -/
def Few (u : State K) : Prop :=
  ∀ subscription, (u.onEvent subscription).entries.length ≤ u.lastId.toNat

theorem few_update (h : Few u) {lastId : UInt64} {subscription : K}
    {handler : SimpleHandler Listener} (hle : u.lastId ≤ lastId)
    (hnew : handler.entries.length ≤ lastId.toNat) (s : K) :
    (Function.update u.onEvent subscription handler s).entries.length ≤ lastId.toNat := by
  by_cases hs : s = subscription
  · subst hs
    rw [Function.update_self]
    exact hnew
  · rw [Function.update_of_ne hs]
    exact (h s).trans (UInt64.le_iff_toNat_le.mp hle)

/-- A change takes one identifier at most. -/
theorem few_change (hs : Seated u) (h : Few u) (subscription : K) (change : Change) :
    Few (u.change subscription change) ∧
      (u.change subscription change).lastId.toNat ≤ u.lastId.toNat + 1 := by
  cases change with
  | remove id =>
    refine ⟨fun s => ?_, Nat.le_succ _⟩
    refine few_update h (UInt64.le_refl _) ?_ s
    exact (remove_entries_sublist _ id).length_le.trans (h subscription)
  | add listener lowPriority =>
    rcases change_add_cases hs subscription listener lowPriority with
      hsame | ⟨hgrows, -, handler, hperm, hv⟩
    · rw [hsame]
      exact ⟨h, Nat.le_succ _⟩
    · have hnext : (u.lastId + 1).toNat = u.lastId.toNat + 1 := by
        have hlt := UInt64.lt_iff_toNat_lt.mp hgrows
        rw [UInt64.toNat_add] at hlt ⊢
        have hone : (1 : UInt64).toNat = 1 := rfl
        have hbound := u.lastId.toNat_lt
        omega
      rw [hv]
      refine ⟨fun s => few_update h (UInt64.le_of_lt hgrows) ?_ s, hnext.le⟩
      rw [hperm.length_eq, List.length_cons, hnext]
      exact Nat.succ_le_succ (h subscription)

theorem few_moved {action : Action K} (hs : Seated u) (h : Few u)
    (hm : Moved number lib u action v) : Few v := by
  cases hm with
  | changed thread subscription change at_thread free =>
    exact (few_change hs h subscription change).1
  | registered _ | started _ _ _ _ _ _ | arrived _ _ | found _ _ _ _ _ _ | locked _ _ _ _ _ _ _
  | left _ _ _ _ _ _ _ _ _ | created _ _ _ _ _ _ _ | attached _ _ _ _ _ | lost _ _ _ _ _
  | resolved _ _ _ _ _ _ _ _ | published _ _ _ _ _ | called _ _ _ _ _ _ _ _ _ _ _ _
  | finished _ _ _ _ _ | cut _ _ _ _ _ _ _ => exact h

structure Bounded (u : State K) : Prop where
  sound : Sound u
  few : Few u

theorem Bounded.moved {action : Action K} (h : Bounded u) (hm : Moved number lib u action v) :
    Bounded v :=
  ⟨h.sound.moved hm, few_moved h.sound.seated h.few hm⟩

/-- Each step of a thread leaves less to do. -/
theorem work_moved {action : Action K} (h : Bounded u) (hinternal : action.Internal)
    (hm : Moved number lib u action v) : work v < work u := by
  cases hm with
  | registered _ => exact hinternal.elim
  | started action s phase starts asked arrives => exact absurd hinternal asked
  | arrived _ _ => exact hinternal.elim
  | found thread s change required at_thread known =>
    exact work_decreases _ at_thread rfl le_rfl (by simp [stepsLeft])
  | locked thread s change required at_thread free unknown =>
    exact work_decreases _ at_thread rfl le_rfl (by simp [stepsLeft])
  | left action thread s phase next at_thread holds leaves internal =>
    refine work_decreases _ at_thread rfl ?_ ?_
    · change u.lastId.toNat + _ ≤ u.lastId.toNat + _
      rcases holds with ⟨_, _, rfl⟩ | ⟨_, _, rfl⟩ <;>
        rcases leaves with ⟨_, rfl⟩ | ⟨_, _, -, rfl⟩ <;> simp [changes]
    · rcases holds with ⟨_, _, rfl⟩ | ⟨_, _, rfl⟩ <;>
        rcases leaves with ⟨_, rfl⟩ | ⟨_, _, hwas, rfl⟩ <;> simp [stepsLeft]
  | created thread s change required i at_thread registered =>
    exact work_decreases _ at_thread rfl le_rfl (by simp [stepsLeft])
  | attached thread s i change at_thread =>
    exact work_decreases _ at_thread rfl le_rfl (by simp [stepsLeft])
  | changed thread s change at_thread free =>
    have hthreads : (u.change s change).threads = u.threads := by cases change <;> rfl
    refine work_decreases (.returned (u.answer s change)) at_thread ?_ ?_ (by simp [stepsLeft])
    · rw [State.moveTo, hthreads]
    · exact (few_change h.sound.seated h.few s change).2
  | lost thread i list at_thread unknown =>
    exact work_decreases _ at_thread rfl le_rfl (by simp [stepsLeft])
  | resolved thread i list s events at_thread known read =>
    exact work_decreases _ at_thread rfl le_rfl (by simp [stepsLeft])
  | published thread s events at_thread free =>
    refine work_decreases _ at_thread rfl le_rfl ?_
    have hfew := h.few s
    have hle : u.lastId.toNat ≤ bound u := Nat.le_add_right _ _
    rw [SimpleHandler.entries, List.length_append] at hfew
    simp only [stepsLeft]
    omega
  | called thread place s publication events listeners low listeners' low' e at_thread picked =>
    refine work_decreases _ at_thread rfl le_rfl ?_
    have hlength := picked.length_eq
    simp only [List.length_append, List.length_cons] at hlength
    simp only [stepsLeft]
    omega
  | finished thread s publication events at_thread =>
    exact work_decreases _ at_thread rfl le_rfl (by simp [stepsLeft])
  | cut thread s publication events listeners low at_thread =>
    exact work_decreases _ at_thread rfl le_rfl (by simp [stepsLeft])

end Few

/-! ## Threads that cannot go on -/

section Stuck

variable [DecidableEq K] {number : EventClazz → ℤ} {lib : StandardLibrary} {u v : State K}

def Stuck (number : EventClazz → ℤ) (lib : StandardLibrary) (u : State K) : Prop :=
  ∀ action : Action K, action.Internal → step number lib u action = none

/-- A batch that native code handed over and that the mapper does not take. -/
def Unreadable (number : EventClazz → ℤ) (lib : StandardLibrary) (phase : Phase K) : Prop :=
  ∃ id list, phase = .resolving id list ∧ readEvents number lib list = none

theorem Stuck.advance (h : Stuck number lib u) {thread : ℕ} {phase : Phase K}
    (hphase : u.threads[thread]? = some phase) : u.advance number lib thread phase = none := by
  have hstep := h (.advance thread) trivial
  rwa [FeedSubscriptions.step, hphase] at hstep

/-- Who holds the mutex of a handler can go on. -/
theorem Stuck.free (h : Stuck number lib u) (hmutex : Matches u.listenersMutex (callsFor u))
    (subscription : K) : u.listenersMutex subscription = none := by
  by_contra howned
  obtain ⟨thread, hthread⟩ := Option.ne_none_iff_exists'.mp howned
  obtain ⟨turn, hturn, -⟩ := Option.map_eq_some_iff.mp ((hmutex _ _).mp hthread)
  obtain ⟨phase, hphase, hof⟩ := (part_eq_some _).mp hturn
  cases phase with
  | calling s publication events listeners low =>
    have hadvance := h.advance hphase
    have hcall := h (.call thread 0) trivial
    rw [FeedSubscriptions.step, hphase] at hcall
    cases listeners with
    | nil =>
      cases low with
      | nil => cases hadvance
      | cons l ls => cases hcall
    | cons l ls => cases hcall
  | entering _ _ _ | creating _ _ _ | attaching _ _ _ | changing _ _ | resolving _ _
  | publishing _ _ | returned _ => cases hof

theorem Stuck.freeEventListener (h : Stuck number lib u)
    (hmutex : Matches u.eventListenerMutex (attachesTo u)) (subscription : K) :
    u.eventListenerMutex subscription = none := by
  by_contra howned
  obtain ⟨thread, hthread⟩ := Option.ne_none_iff_exists'.mp howned
  obtain ⟨phase, hphase, hof⟩ := (part_eq_some _).mp ((hmutex _ _).mp hthread)
  cases phase with
  | creating s change required =>
    have hadvance := h.advance hphase
    rw [State.advance] at hadvance
    split at hadvance <;> cases hadvance
  | attaching s id change => cases h.advance hphase
  | entering _ _ _ | calling _ _ _ _ _ | changing _ _ | resolving _ _ | publishing _ _
  | returned _ => cases hof

theorem Stuck.returned (h : Stuck number lib u) (hmutex : Matches u.listenersMutex (callsFor u))
    (hattach : Matches u.eventListenerMutex (attachesTo u)) {phase : Phase K}
    (hphase : phase ∈ u.threads) :
    (∃ answer, phase = .returned answer) ∨ Unreadable number lib phase := by
  obtain ⟨thread, hthread⟩ := List.mem_iff_getElem?.mp hphase
  have hadvance := h.advance hthread
  cases phase with
  | returned answer => exact .inl ⟨answer, rfl⟩
  | entering s change required =>
    rw [State.advance, if_neg (not_not.mpr (h.freeEventListener hattach s))] at hadvance
    split at hadvance <;> cases hadvance
  | creating s change required =>
    rw [State.advance] at hadvance
    split at hadvance <;> cases hadvance
  | attaching s id change => cases hadvance
  | changing s change =>
    rw [State.advance, if_pos (h.free hmutex s)] at hadvance
    cases hadvance
  | resolving id list =>
    right
    refine ⟨id, list, rfl, ?_⟩
    rw [State.advance] at hadvance
    split at hadvance
    next => cases hadvance
    next => exact Option.map_eq_none_iff.mp hadvance
  | publishing s events =>
    rw [State.advance, if_pos (h.free hmutex s)] at hadvance
    cases hadvance
  | calling s publication events listeners low =>
    have hfree := h.free hmutex s
    have hheld : callsFor u thread = some s :=
      congrArg (Option.map Turn.subscription) (part_of_at turnOf hthread)
    cases hfree.symm.trans ((hmutex s thread).mpr hheld)

end Stuck

/-! ## Runs -/

section Runs

variable [DecidableEq K] {number : EventClazz → ℤ} {lib : StandardLibrary} {u v : State K}

theorem bounded_run {actions : List (Action K)}
    (hrun : run (step number lib) {} actions = some u) : Bounded u :=
  run_invariant (fun _ _ _ h hv => h.moved (moved_of_step hv))
    ⟨sound_init, fun _ => Nat.le_refl 0⟩ hrun

theorem work_run {more : List (Action K)} (h : Bounded u)
    (hinternal : ∀ action ∈ more, action.Internal)
    (hmore : run (step number lib) u more = some v) : more.length + work v ≤ work u := by
  induction more generalizing u with
  | nil =>
    cases hmore
    exact (Nat.zero_add _).le
  | cons action more ih =>
    obtain ⟨w, hw, hrest⟩ := Option.bind_eq_some_iff.mp hmore
    have hm := moved_of_step hw
    have hless := work_moved h (hinternal action List.mem_cons_self) hm
    have hlater := ih (h.moved hm)
      (fun a ha => hinternal a (List.mem_cons_of_mem action ha)) hrest
    rw [List.length_cons]
    omega

/-- By induction on the work that is left. -/
theorem exists_stuck (number : EventClazz → ℤ) (lib : StandardLibrary) (h : Bounded u) :
    ∃ more v, (∀ action ∈ more, action.Internal) ∧ run (step number lib) u more = some v ∧
      Stuck number lib v := by
  induction hwork : work u using Nat.strong_induction_on generalizing u with
  | _ n ih =>
    by_cases hstuck : Stuck number lib u
    · exact ⟨[], u, nofun, rfl, hstuck⟩
    · simp only [Stuck, not_forall] at hstuck
      obtain ⟨action, hinternal, hstep⟩ := hstuck
      obtain ⟨w, hw⟩ := Option.ne_none_iff_exists'.mp hstep
      have hm := moved_of_step hw
      have hless := work_moved h hinternal hm
      rw [hwork] at hless
      obtain ⟨more, v, hmore, hrun, hrest⟩ := ih (work w) hless (h.moved hm) rfl
      refine ⟨action :: more, v, List.forall_mem_cons.mpr ⟨hinternal, hmore⟩, ?_, hrest⟩
      exact Option.bind_eq_some_iff.mpr ⟨w, hw, hrun⟩

/-- Once nothing more is asked for and no batch arrives, the threads can take so many steps and
no more, in whatever order; when none of them can take a step, all calls are back and all batches
were handed round, but for those that cannot be read; and they can get there. -/
theorem calls_come_to_rest {actions : List (Action K)}
    (hrun : run (step number lib) {} actions = some u) :
    (∀ more v, (∀ action ∈ more, action.Internal) → run (step number lib) u more = some v →
      more.length + work v ≤ work u ∧ ((actions ++ more).length < 2 ^ 64 → Stuck number lib v →
        ∀ phase ∈ v.threads,
          (∃ answer, phase = .returned answer) ∨ Unreadable number lib phase)) ∧
      ∃ more v, (∀ action ∈ more, action.Internal) ∧ run (step number lib) u more = some v ∧
        Stuck number lib v := by
  have hbounded := bounded_run hrun
  refine ⟨fun more v hinternal hmore => ⟨work_run hbounded hinternal hmore, ?_⟩,
    exists_stuck number lib hbounded⟩
  intro hlength hstuck phase hphase
  have hall : run (step number lib) {} (actions ++ more) = some v := by
    rw [run_append, hrun]
    exact hmore
  have hattached := attached_run attached_init (by rwa [Nat.zero_add]) hall
  exact hstuck.returned (sound_run hall).turns.mutex hattached.mutex hphase

end Runs

/-! A listener is added while a batch is read. -/

def twoAtWork : List (Action ℕ) :=
  [.registerEntity 7, .addEventListener 7 ⟨none, 1⟩, .arrive 7 ⟨0, []⟩]

def theirSteps : List (Action ℕ) := [.advance 0, .advance 0, .advance 0, .advance 0]

theorem listener_added_at_rest :
    ∃ u, run (step (fun _ => 0) CandleNormalisation.binary64) {} twoAtWork = some u ∧
      (∃ v, run (step (fun _ => 0) CandleNormalisation.binary64) u theirSteps = some v ∧
        theirSteps.length + work v ≤ work u) ∧
      ∃ more v, (∀ action ∈ more, action.Internal) ∧
        run (step (fun _ => 0) CandleNormalisation.binary64) u more = some v ∧
        Stuck (fun _ => 0) CandleNormalisation.binary64 v := by
  obtain ⟨u, hu⟩ : ∃ u, run (step (fun _ => 0) CandleNormalisation.binary64) {} twoAtWork =
    some u := ⟨_, rfl⟩
  have hv : ∃ v, (run (step (fun _ => 0) CandleNormalisation.binary64) {} twoAtWork).bind
      (fun u => run (step (fun _ => 0) CandleNormalisation.binary64) u theirSteps) = some v :=
    ⟨_, rfl⟩
  rw [hu] at hv
  obtain ⟨v, hv⟩ := hv
  have hinternal : ∀ action ∈ theirSteps, action.Internal := by
    simp [theirSteps, Action.Internal]
  obtain ⟨hbound, hreached⟩ := calls_come_to_rest hu
  exact ⟨u, hu, ⟨v, hv, (hbound theirSteps v hinternal hv).1⟩, hreached⟩

end FeedSubscriptionWaits
