import DxFeedGraal.AsyncHandlers
import Mathlib.Algebra.BigOperators.Group.List.Basic

/-! # Runs of asynchronous handlers

What the steps of all threads come to, whatever their order: listeners are called in batches,
few tasks are left unfinished behind the backs of their callers, and every call of `handle`
comes back. -/
namespace AsyncHandlerRuns

open PartialRuns RingBuffers SimpleHandlers AsyncHandlers ThreadPhases

variable {L A : Type*}

theorem sound_start (size : ℕ) :
    TasksSound ({ mainFuturesSize := size } : Handler L A) ∧
      CallersSound ({ mainFuturesSize := size } : Handler L A) := by
  have hnone : ∀ future, Handler.callerAt ({ mainFuturesSize := size } : Handler L A) future =
      none := fun _ => rfl
  refine ⟨fun future => by simp [field], ?_⟩
  constructor
  · intro future
    simp [hnone]
  · intro future
    simp [hnone]
  · intro _ future
    simp [hnone]
  · exact fun _ => ⟨holds_empty size, fun future => by simp [hnone]⟩
  · intro future hheld
    cases hheld
  · intro j future hj
    cases hj

theorem sound_run {size : ℕ} {events : List (Event L A)} {h : Handler L A}
    (hrun : run step { mainFuturesSize := size } events = some h) :
    TasksSound h ∧ CallersSound h := by
  have hstep : ∀ (h h' : Handler L A) (event : Event L A), TasksSound h ∧ CallersSound h →
      step h event = some h' → TasksSound h' ∧ CallersSound h' := fun h h' event hs hh' =>
    ⟨hs.1.moved (moved_of_step hh'), hs.2.moved (moved_of_step hh')⟩
  exact run_invariant hstep (sound_start size) hrun

/-! ## Batches -/

/-- All that a step can do to one task and to the log. -/
inductive TaskMoved (h h' : Handler L A) (future : ℕ) : Prop
  | kept (same : h'.taskAt future = h.taskAt future) (log : h'.called = h.called)
  | other (e : ℕ × L × A) (ne : e.1 ≠ future) (same : h'.taskAt future = h.taskAt future)
      (calling : ∃ rest, h.taskAt e.1 = some (.calling rest)) (log : h'.called = h.called ++ [e])
  | launched (was : h.taskAt future = none) (now : h'.taskAt future = some .waiting)
      (log : h'.called = h.called)
  | started (was : h.taskAt future = some .waiting) (free : h.listenersMutex = none)
      (now : h'.taskAt future = some (.calling h.listeners.handle)) (log : h'.called = h.called)
  | called (listener : L) (rest : List L) (args : A)
      (with_args : field Call.args h.calls future = some args)
      (was : h.taskAt future = some (.calling (listener :: rest)))
      (now : h'.taskAt future = some (.calling rest))
      (log : h'.called = h.called ++ [(future, listener, args)])
  | finished (was : h.taskAt future = some (.calling []))
      (now : h'.taskAt future = some .finished) (log : h'.called = h.called)

theorem taskMoved_of_moved {h h' : Handler L A} {event : Event L A} (hm : Moved h event h')
    (future : ℕ) : TaskMoved h h' future := by
  cases hm with
  | launched args =>
    have htask := field_append Call.task h.calls
      { args := args, caller := if h.mainFuturesSize ≤ 1 then .waiting else .locking }
    by_cases hfuture : future = h.calls.length
    · subst hfuture
      exact .launched (field_length _ _) ((congrFun htask _).trans (Function.update_self _ _ _)) rfl
    · exact .kept ((congrFun htask _).trans (Function.update_of_ne hfuture _ _)) rfl
  | started future' c hc phase free =>
    have htask := field_modify Call.task hc fun c =>
      { c with task := .calling h.listeners.handle }
    by_cases hfuture : future = future'
    · subst hfuture
      exact .started (phase ▸ field_of_at Call.task hc) free
        ((congrFun htask _).trans (Function.update_self _ _ _)) rfl
    · exact .kept ((congrFun htask _).trans (Function.update_of_ne hfuture _ _)) rfl
  | called future' c listener rest hc phase =>
    have htask := field_modify Call.task hc fun c => { c with task := .calling rest }
    have hwas : h.taskAt future' = some (.calling (listener :: rest)) :=
      phase ▸ field_of_at Call.task hc
    by_cases hfuture : future = future'
    · subst hfuture
      exact .called listener rest c.args (field_of_at Call.args hc) hwas
        ((congrFun htask _).trans (Function.update_self _ _ _)) rfl
    · exact .other (future', listener, c.args) (Ne.symm hfuture)
        ((congrFun htask _).trans (Function.update_of_ne hfuture _ _)) ⟨_, hwas⟩ rfl
  | finished future' c hc phase =>
    have htask := field_modify Call.task hc fun c => { c with task := .finished }
    by_cases hfuture : future = future'
    · subst hfuture
      exact .finished (phase ▸ field_of_at Call.task hc)
        ((congrFun htask _).trans (Function.update_self _ _ _)) rfl
    · exact .kept ((congrFun htask _).trans (Function.update_of_ne hfuture _ _)) rfl
  | waited future' c hc phase ready =>
    exact .kept (congrFun (task_modify_caller h.calls future' .returned) future) rfl
  | stored future' c hc phase free room =>
    exact .kept (congrFun (task_modify_caller h.calls future' .returned) future) rfl
  | locked future' c hc phase free full =>
    exact .kept (congrFun (task_modify_caller h.calls future' .replacing) future) rfl
  | replaced future' c old hc phase overwritten ready =>
    exact .kept (congrFun (task_modify_caller h.calls future' .returned) future) rfl
  | relisted event external listeners free => exact .kept rfl rfl

/-- The listeners change under their mutex only. -/
theorem listeners_of_moved {h h' : Handler L A} {event : Event L A} (hm : Moved h event h') :
    h'.listeners = h.listeners ∨ h.listenersMutex = none := by
  cases hm with
  | relisted event external listeners free => exact Or.inr free
  | _ => exact Or.inl rfl

/-- The arguments of a call stay as they are. -/
theorem args_of_moved {h h' : Handler L A} {event : Event L A} (hm : Moved h event h') {future : ℕ}
    {args : A} (hargs : field Call.args h.calls future = some args) :
    field Call.args h'.calls future = some args := by
  have hmodify : ∀ (i : ℕ) (f : Call L A → Call L A), (∀ c, (f c).args = c.args) →
      field Call.args (h.calls.modify i f) future = some args := fun i f hf => by
    rw [field_modify_other Call.args hf]
    exact hargs
  cases hm with
  | launched args' =>
    dsimp only
    rw [field_append, Function.update_of_ne]
    · exact hargs
    · rintro rfl
      rw [field, List.getElem?_eq_none le_rfl] at hargs
      cases hargs
  | started future' c hc phase free => exact hmodify future' _ fun _ => rfl
  | called future' c listener rest hc phase => exact hmodify future' _ fun _ => rfl
  | finished future' c hc phase => exact hmodify future' _ fun _ => rfl
  | waited future' c hc phase ready => exact hmodify future' _ fun _ => rfl
  | stored future' c hc phase free room => exact hmodify future' _ fun _ => rfl
  | locked future' c hc phase free full => exact hmodify future' _ fun _ => rfl
  | replaced future' c old hc phase overwritten ready => exact hmodify future' _ fun _ => rfl
  | relisted event external listeners free => exact hargs

/-- The log has entries of tasks only that have started. -/
def LogSound (h : Handler L A) : Prop :=
  ∀ e ∈ h.called, ∃ phase, h.taskAt e.1 = some phase ∧ phase ≠ .waiting

theorem LogSound.moved {h h' : Handler L A} {event : Event L A} (hs : LogSound h)
    (hm : Moved h event h') : LogSound h' := by
  intro e he
  have hold : ∀ e ∈ h.called, ∃ phase, h'.taskAt e.1 = some phase ∧ phase ≠ .waiting := by
    intro e he
    obtain ⟨phase, hphase, hne⟩ := hs e he
    cases taskMoved_of_moved hm e.1 with
    | kept same log => exact ⟨phase, same.trans hphase, hne⟩
    | other e' ne same calling log => exact ⟨phase, same.trans hphase, hne⟩
    | launched was now log =>
      rw [hphase] at was
      cases was
    | started was free now log => exact ⟨_, now, by simp⟩
    | called listener rest args with_args was now log => exact ⟨_, now, by simp⟩
    | finished was now log => exact ⟨_, now, by simp⟩
  cases taskMoved_of_moved hm e.1 with
  | kept same log => exact hold e (log ▸ he)
  | other e' ne same calling log =>
    rw [log] at he
    rcases List.mem_append.mp he with he | he
    · exact hold e he
    · exact absurd (congrArg Prod.fst (List.mem_singleton.mp he)).symm ne
  | launched was now log => exact hold e (log ▸ he)
  | started was free now log => exact hold e (log ▸ he)
  | called listener rest args with_args was now log => exact ⟨_, now, by simp⟩
  | finished was now log => exact hold e (log ▸ he)

/-- The log lines of a task for some of its listeners. -/
def lines (future : ℕ) (args : A) (listeners : List L) : List (ℕ × L × A) :=
  listeners.map fun listener => (future, listener, args)

/-- A task since it took the mutex: so far the log goes on with its listeners alone, and
nothing else happened to the log or to the listeners before it was through. -/
inductive Batch (h : Handler L A) (future : ℕ) (args : A) (u : Handler L A) : Prop
  | running (done rest : List L) (split : h.listeners.handle = done ++ rest)
      (task : u.taskAt future = some (.calling rest)) (same : u.listeners = h.listeners)
      (log : u.called = h.called ++ lines future args done)
  | ended (more : List (ℕ × L × A)) (task : u.taskAt future = some .finished)
      (log : u.called = h.called ++ lines future args h.listeners.handle ++ more)
      (others : ∀ e ∈ more, e.1 ≠ future)

theorem Batch.moved {h u v : Handler L A} {event : Event L A} {future : ℕ} {args : A}
    (hbatch : Batch h future args u) (hsound : TasksSound u)
    (hargs : field Call.args u.calls future = some args) (hm : Moved u event v) :
    Batch h future args v := by
  cases hbatch with
  | running done rest split task same log =>
    have hheld : u.listenersMutex = some future := hsound.owner_eq task ⟨rest, rfl⟩
    have hlisteners : v.listeners = h.listeners := by
      rcases listeners_of_moved hm with hsame | hfree
      · exact hsame.trans same
      · rw [hheld] at hfree
        cases hfree
    cases taskMoved_of_moved hm future with
    | kept sameTask log' =>
      exact .running done rest split (sameTask.trans task) hlisteners (log'.trans log)
    | other e ne sameTask calling log' =>
      -- Only the holder of the mutex calls listeners.
      have hother := (hsound e.1).mpr (calling.elim fun rest htask => ⟨_, htask, rest, rfl⟩)
      rw [hheld] at hother
      exact absurd (Option.some.inj hother).symm ne
    | launched was now log' =>
      rw [task] at was
      cases was
    | started was free now log' =>
      rw [task] at was
      cases was
    | called listener rest' args' with_args was now log' =>
      rw [task] at was
      cases was
      rw [hargs] at with_args
      cases with_args
      refine .running (done ++ [listener]) rest' (by rw [split, List.append_assoc]; rfl) now
        hlisteners ?_
      rw [log', log, List.append_assoc, lines, lines, List.map_append]
      rfl
    | finished was now log' =>
      rw [task] at was
      cases was
      refine .ended [] now ?_ (by simp)
      rw [log', log, List.append_nil, split, List.append_nil]
  | ended more task log others =>
    cases taskMoved_of_moved hm future with
    | kept sameTask log' => exact .ended more (sameTask.trans task) (log'.trans log) others
    | other e ne sameTask calling log' =>
      refine .ended (more ++ [e]) (sameTask.trans task) ?_ fun e' he' => ?_
      · rw [log', log, List.append_assoc]
      · rcases List.mem_append.mp he' with he' | he'
        · exact others e' he'
        · rwa [List.mem_singleton.mp he']
    | launched was now log' =>
      rw [task] at was
      cases was
    | started was free now log' =>
      rw [task] at was
      cases was
    | called listener rest' args' with_args was now log' =>
      rw [task] at was
      cases was
    | finished was now log' =>
      rw [task] at was
      cases was

/-- From the moment a task gets the listeners, those registered then are called one after the
other with the arguments of its call, nothing comes between them, no listener is added or
removed meanwhile, and the task calls nothing before or after. -/
theorem tasks_call_in_batches (size : ℕ) (before after : List (Event L A)) (h t u : Handler L A)
    (future : ℕ) (args : A) (hbefore : run step { mainFuturesSize := size } before = some h)
    (hargs : field Call.args h.calls future = some args)
    (hwaiting : h.taskAt future = some .waiting) (ht : step h (.task future) = some t)
    (hu : run step t after = some u) :
    (∀ e ∈ h.called, e.1 ≠ future) ∧ Batch h future args u := by
  have hmoved := moved_of_step ht
  have hlog : LogSound h := by
    have hempty : LogSound ({ mainFuturesSize := size } : Handler L A) := by
      intro e he
      cases he
    exact run_invariant (fun _ _ _ hs hstep => LogSound.moved hs (moved_of_step hstep)) hempty
      hbefore
  have hstarted : Batch h future args t := by
    have hnot : ∀ c rest, h.calls[future]? = some c → c.task ≠ .calling rest := by
      intro c rest hc hphase
      have hat : h.taskAt future = some c.task := field_of_at Call.task hc
      rw [hwaiting, hphase] at hat
      cases hat
    cases hmoved with
    | started _ c hc phase free =>
      have htask := field_modify Call.task hc fun c =>
        { c with task := .calling h.listeners.handle }
      exact .running [] _ rfl ((congrFun htask _).trans (Function.update_self _ _ _)) rfl
        (List.append_nil _).symm
    | called _ c listener rest hc phase => exact absurd phase (hnot c _ hc)
    | finished _ c hc phase => exact absurd phase (hnot c _ hc)
    | relisted _ external listeners free => exact absurd trivial external
  refine ⟨fun e he heq => ?_, ?_⟩
  · obtain ⟨phase, hphase, hne⟩ := hlog e he
    rw [heq, hwaiting] at hphase
    exact hne (Option.some.inj hphase).symm
  · have hstep : ∀ (v w : Handler L A) (event : Event L A),
        (TasksSound v ∧ field Call.args v.calls future = some args ∧ Batch h future args v) →
        step v event = some w →
          TasksSound w ∧ field Call.args w.calls future = some args ∧ Batch h future args w := by
      rintro v w event ⟨hsound, hargs, hbatch⟩ hw
      have hm := moved_of_step hw
      exact ⟨hsound.moved hm, args_of_moved hm hargs, hbatch.moved hsound hargs hm⟩
    exact (run_invariant hstep ⟨(sound_run hbefore).1.moved hmoved, args_of_moved hmoved hargs,
      hstarted⟩ hu).2.2

/-- A listener of each kind and a call whose future is in the buffer. -/
def bufferedCall : List (Event ℕ ℕ) := [.add 1 0, .addLowPriority 2 1, .handle 10, .caller 0]

/-- Another call comes in between the two listeners. -/
theorem task_calls_both_listeners :
    ∃ h t u, run step { mainFuturesSize := 2 } bufferedCall = some h ∧
      step h (.task 0) = some t ∧ run step t [.task 0, .handle 11, .task 0, .task 0] = some u ∧
      (∀ e ∈ h.called, e.1 ≠ 0) ∧ Batch h 0 10 u :=
  ⟨_, _, _, rfl, rfl, rfl, tasks_call_in_batches 2 bufferedCall
    [.task 0, .handle 11, .task 0, .task 0] _ _ _ 0 10 rfl rfl rfl rfl rfl⟩

/-! ## Unfinished tasks -/

/-- Only the last calls that returned, as many as the buffer holds, may have left a task behind
that is not finished; so the unfinished tasks are at most the calls that are still inside
`handle` and the places of the buffer. -/
theorem unfinished_tasks_bounded (size : ℕ) (events : List (Event L A)) (h : Handler L A)
    (hrun : run step { mainFuturesSize := size } events = some h) :
    (∀ future < h.calls.length, h.isReady future = false →
      h.callerAt future ≠ some .returned ∨
        future ∈ h.returned.drop (h.returned.length - h.window)) ∧
    ((Finset.range h.calls.length).filter fun future => h.isReady future = false).card ≤
      ((Finset.range h.calls.length).filter fun future => h.callerAt future ≠ some .returned).card +
        h.window := by
  have hs := (sound_run hrun).2
  have hwhere : ∀ future < h.calls.length, h.isReady future = false →
      h.callerAt future ≠ some .returned ∨
        future ∈ h.returned.drop (h.returned.length - h.window) := by
    intro future _ hunready
    by_contra hnot
    obtain ⟨hreturned, hearly⟩ := not_or.mp hnot
    obtain ⟨j, hj⟩ := List.mem_iff_getElem?.mp ((hs.returned_iff future).mpr (not_not.mp hreturned))
    have hfinished : h.taskAt future = some .finished := by
      refine hs.settled j future hj ?_
      by_contra hlate
      have hlt := (List.getElem?_eq_some_iff.mp hj).1
      refine hearly (List.mem_iff_getElem?.mpr ⟨j - (h.returned.length - h.window), ?_⟩)
      rw [List.getElem?_drop, ← hj]
      congr 1
      omega
    rw [isReady_iff.mpr hfinished] at hunready
    cases hunready
  refine ⟨hwhere, ?_⟩
  have hsubset : ((Finset.range h.calls.length).filter fun future => h.isReady future = false) ⊆
      ((Finset.range h.calls.length).filter fun future => h.callerAt future ≠ some .returned) ∪
        (h.returned.drop (h.returned.length - h.window)).toFinset := by
    intro future hfuture
    obtain ⟨hlt, hunready⟩ := Finset.mem_filter.mp hfuture
    rcases hwhere future (Finset.mem_range.mp hlt) hunready with hinside | hlate
    · exact Finset.mem_union_left _ (Finset.mem_filter.mpr ⟨hlt, hinside⟩)
    · exact Finset.mem_union_right _ (List.mem_toFinset.mpr hlate)
  have hlast : (h.returned.drop (h.returned.length - h.window)).toFinset.card ≤ h.window := by
    refine (List.toFinset_card_le _).trans ?_
    rw [List.length_drop]
    omega
  exact (Finset.card_le_card hsubset).trans
    ((Finset.card_union_le _ _).trans (Nat.add_le_add_left hlast _))

/-- Three calls on a buffer of two; the third one waits for the first task. -/
theorem third_call_waits :
    ∃ h, run step { mainFuturesSize := 2 }
        (bufferedCall ++ [.handle 11, .caller 1, .handle 12, .caller 2]) = some h ∧
      (∀ future < h.calls.length, h.isReady future = false →
        h.callerAt future ≠ some .returned ∨
          future ∈ h.returned.drop (h.returned.length - h.window)) ∧
      ((Finset.range h.calls.length).filter fun future => h.isReady future = false).card ≤
        ((Finset.range h.calls.length).filter fun future =>
          h.callerAt future ≠ some .returned).card + h.window :=
  ⟨_, rfl, unfinished_tasks_bounded 2
    (bufferedCall ++ [.handle 11, .caller 1, .handle 12, .caller 2]) _ rfl⟩

/-! ## Every call comes back -/

/-- The steps that a call and its task can still take, for so many listeners. -/
def Call.remaining (count : ℕ) (c : Call L A) : ℕ :=
  (match c.task with
    | .waiting => count + 2
    | .calling rest => rest.length + 1
    | .finished => 0) +
  match c.caller with
    | .waiting => 1
    | .locking => 2
    | .replacing => 1
    | .returned => 0

def remaining (h : Handler L A) : ℕ :=
  (h.calls.map (Call.remaining h.listeners.handle.length)).sum

theorem remaining_decreases {h h' : Handler L A} {event : Event L A} (hevent : event.Internal)
    (hm : Moved h event h') : remaining h' < remaining h := by
  have hmodify : ∀ (future : ℕ) (c : Call L A) (f : Call L A → Call L A),
      h.calls[future]? = some c →
      Call.remaining h.listeners.handle.length (f c) <
        Call.remaining h.listeners.handle.length c →
      ((h.calls.modify future f).map (Call.remaining h.listeners.handle.length)).sum <
        remaining h := by
    intro future c f hc hless
    have hsum := sum_modify (Call.remaining h.listeners.handle.length) hc f
    unfold remaining
    omega
  cases hm with
  | launched args => exact hevent.elim
  | started future c hc phase free =>
    exact hmodify future c _ hc (by simp [Call.remaining, phase])
  | called future c listener rest hc phase =>
    exact hmodify future c _ hc (by simp [Call.remaining, phase])
  | finished future c hc phase =>
    exact hmodify future c _ hc (by simp [Call.remaining, phase])
  | waited future c hc phase ready =>
    exact hmodify future c _ hc (by simp [Call.remaining, phase])
  | stored future c hc phase free room =>
    exact hmodify future c _ hc (by simp [Call.remaining, phase])
  | locked future c hc phase free full =>
    exact hmodify future c _ hc (by simp [Call.remaining, phase])
  | replaced future c old hc phase overwritten ready =>
    exact hmodify future c _ hc (by simp [Call.remaining, phase])
  | relisted event external listeners free => exact absurd hevent external

/-- No thread can take a step. -/
def Blocked (h : Handler L A) : Prop := ∀ event : Event L A, event.Internal → step h event = none

/-- Every task has called its listeners, and every call of `handle` is back. -/
def Quiet (h : Handler L A) : Prop :=
  ∀ (future : ℕ) (c : Call L A), h.calls[future]? = some c →
    c.task = .finished ∧ c.caller = .returned

theorem blocked_of_quiet {h : Handler L A} (hq : Quiet h) : Blocked h := by
  intro event hevent
  cases event with
  | caller future =>
    refine Option.bind_eq_none_iff.mpr fun c hc => ?_
    simp only [Handler.advanceCaller, (hq future c hc).2]
  | task future =>
    refine Option.bind_eq_none_iff.mpr fun c hc => ?_
    simp only [Handler.advanceTask, (hq future c hc).1]
  | handle args => exact hevent.elim
  | add listener lastId => exact hevent.elim
  | addLowPriority listener lastId => exact hevent.elim
  | remove id => exact hevent.elim

/-- The task with the mutex can go on, and while it is free any waiting task can. -/
theorem finished_of_blocked {h : Handler L A} (hs : TasksSound h) (hb : Blocked h) {future : ℕ}
    {c : Call L A} (hc : h.calls[future]? = some c) : c.task = .finished := by
  have hstep : ∀ (i : ℕ) (d : Call L A), h.calls[i]? = some d → h.advanceTask i d = none := by
    intro i d hd
    have hnone := hb (.task i) trivial
    simpa [step, hd] using hnone
  have hcalling : ∀ (i : ℕ) (d : Call L A), h.calls[i]? = some d →
      ∀ rest, d.task ≠ .calling rest := by
    intro i d hd rest hphase
    have hnone := hstep i d hd
    cases rest <;> simp [Handler.advanceTask, hphase] at hnone
  cases hphase : c.task with
  | finished => rfl
  | calling rest => exact absurd hphase (hcalling future c hc rest)
  | waiting =>
    have hfree : h.listenersMutex = none := by
      refine Option.eq_none_iff_forall_ne_some.mpr fun i hheld => ?_
      obtain ⟨phase, htask, rest, rfl⟩ := (hs i).mp hheld
      obtain ⟨d, hd, hphase⟩ := Option.map_eq_some_iff.mp htask
      exact hcalling i d hd rest hphase
    have hnone := hstep future c hc
    simp [Handler.advanceTask, hphase, hfree] at hnone

/-- With all tasks finished, the holder of the mutex of the futures can go on, and so can
every other caller once the mutex is free. -/
theorem quiet_of_blocked {h : Handler L A} (hs : TasksSound h) (hcallers : CallersSound h)
    (hb : Blocked h) : Quiet h := by
  have hfinished : ∀ future < h.calls.length, h.isReady future = true := by
    intro future hlt
    have hc : h.calls[future]? = some h.calls[future] := List.getElem?_eq_getElem hlt
    rw [isReady_of_at hc, Call.ready, finished_of_blocked hs hb hc]
  have hready : ∀ (future : ℕ) (c : Call L A), h.calls[future]? = some c →
      h.isReady future = true :=
    fun future c hc => hfinished future (List.getElem?_eq_some_iff.mp hc).1
  have hstep : ∀ (i : ℕ) (d : Call L A), h.calls[i]? = some d → h.advanceCaller i d = none := by
    intro i d hd
    have hnone := hb (.caller i) trivial
    simpa [step, hd] using hnone
  have hreplacing : ∀ (i : ℕ) (d : Call L A), h.calls[i]? = some d → d.caller ≠ .replacing := by
    intro i d hd hphase
    have hat : h.callerAt i = some .replacing := hphase ▸ field_of_at Call.caller hd
    have hbuffered : 1 < h.mainFuturesSize := by
      by_contra hdirect
      exact (hcallers.direct (Nat.le_of_not_lt hdirect) i).2 hat
    have hholds := (hcallers.buffered hbuffered).1
    have hfull := hcallers.full i ((hcallers.held i).mpr hat)
    have hlength := hholds.length
    have hlt : h.returned.length - h.mainFuturesSize < h.returned.length := by omega
    have hoverwritten : (h.mainFutures.put h.mainFuturesSize i).2 =
        some h.returned[h.returned.length - h.mainFuturesSize] := by
      rw [RingBuffer.put, if_neg (Nat.not_lt.mpr hfull), ← List.getElem?_eq_getElem hlt]
      exact hholds.overwritten (by omega) (by omega)
    obtain ⟨e, he, -⟩ := Option.map_eq_some_iff.mp
      ((hcallers.returned_iff _).mp (List.getElem_mem hlt))
    have hnone := hstep i d hd
    simp [Handler.advanceCaller, hphase, hoverwritten, hready _ e he] at hnone
  have hfree : h.mainFuturesMutex = none := by
    refine Option.eq_none_iff_forall_ne_some.mpr fun i hheld => ?_
    obtain ⟨d, hd, hphase⟩ := Option.map_eq_some_iff.mp ((hcallers.held i).mp hheld)
    exact hreplacing i d hd hphase
  intro future c hc
  refine ⟨finished_of_blocked hs hb hc, ?_⟩
  have hnone := hstep future c hc
  cases hphase : c.caller with
  | returned => rfl
  | replacing => exact absurd hphase (hreplacing future c hc)
  | waiting => simp [Handler.advanceCaller, hphase, hready future c hc] at hnone
  | locking =>
    simp only [Handler.advanceCaller, hphase, hfree, ne_eq, not_true_eq_false, if_false] at hnone
    split at hnone <;> cases hnone

/-- Once no new call is made, the threads can take so many steps and no more, and when none of
them can take a step, then all tasks are finished and all calls are back: no order of steps
leads into a deadlock. -/
theorem handling_comes_to_rest (size : ℕ) (before : List (Event L A)) (h : Handler L A)
    (hbefore : run step { mainFuturesSize := size } before = some h) :
    ∀ (events : List (Event L A)) (u : Handler L A), (∀ event ∈ events, event.Internal) →
      run step h events = some u →
        events.length + remaining u ≤ remaining h ∧ (Blocked u ↔ Quiet u) := by
  intro events u hevents hu
  constructor
  · clear hbefore
    induction events generalizing h with
    | nil =>
      cases hu
      exact (Nat.zero_add _).le
    | cons event events ih =>
      obtain ⟨t, ht, hu⟩ := Option.bind_eq_some_iff.mp hu
      have hrest := ih t (fun e he => hevents e (List.mem_cons_of_mem event he)) hu
      have hless := remaining_decreases (hevents event List.mem_cons_self) (moved_of_step ht)
      rw [List.length_cons]
      omega
  · have hall : run step { mainFuturesSize := size } (before ++ events) = some u := by
      rw [run_append, hbefore]
      exact hu
    obtain ⟨hs, hcallers⟩ := sound_run hall
    exact ⟨quiet_of_blocked hs hcallers, blocked_of_quiet⟩

theorem third_call_comes_back :
    ∃ h, run step { mainFuturesSize := 2 }
        (bufferedCall ++ [.handle 11, .caller 1, .handle 12, .caller 2]) = some h ∧
      ∀ (events : List (Event ℕ ℕ)) (u : Handler ℕ ℕ), (∀ event ∈ events, event.Internal) →
        run step h events = some u →
          events.length + remaining u ≤ remaining h ∧ (Blocked u ↔ Quiet u) :=
  ⟨_, rfl, handling_comes_to_rest 2
    (bufferedCall ++ [.handle 11, .caller 1, .handle 12, .caller 2]) _ rfl⟩

end AsyncHandlerRuns
