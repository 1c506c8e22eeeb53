import DxFeedGraal.FeedSubscriptions

/-! # What the listeners of subscriptions hear

The calls of all threads against a board on which additions, removals and batches stand in one
order: a listener hears the batches of its subscription from its addition to its removal. -/
namespace FeedSubscriptionRuns

open PartialRuns ThreadPhases Broadcasts EntityManagers SimpleHandlers
open CppNumbers NativeEvents EventClasses EventMapper FeedSubscriptions

variable {K : Type}

/-! ## Turns -/

/-- A batch that is on its way through the listeners. -/
structure Turn (K : Type) where
  subscription : K
  publication : ℕ
  events : List Event
  /-- The listeners that were not called yet. -/
  remaining : List (UInt64 × Listener)

def turnOf : Phase K → Option (Turn K)
  | .calling subscription publication events listeners lowPriorityListeners =>
    some ⟨subscription, publication, events, listeners ++ lowPriorityListeners⟩
  | .entering _ _ _ | .creating _ _ _ | .attaching _ _ _ | .changing _ _ | .resolving _ _
  | .publishing _ _ | .returned _ => none

/-- The turn that a thread is taking. -/
abbrev turnAt (u : State K) : ℕ → Option (Turn K) := part turnOf u.threads

/-- The subscription whose listeners a thread is calling. -/
def callsFor (u : State K) : ℕ → Option K := Option.map Turn.subscription ∘ turnAt u

def hear (listener : Listener) (events : List Event) : Listener × List Event :=
  (listener, listener.filteredEvents events)

/-- A listener that the turn has not come to yet, with what it will be called with. -/
def Turn.Keeps (turn : Turn K) (id : UInt64) (call : ℕ × Listener × List Event) : Prop :=
  ∃ listener, (id, listener) ∈ turn.remaining ∧
    call = (turn.publication, hear listener turn.events)

def Waits (u : State K) (id : UInt64) (call : ℕ × Listener × List Event) : Prop :=
  ∃ thread turn, turnAt u thread = some turn ∧ turn.Keeps id call

/-- The calls of a listener so far. -/
def heard (u : State K) (id : UInt64) : List (ℕ × Listener × List Event) :=
  u.calls.filterMap fun c => if c.id = id then some (c.publication, c.listener, c.events) else none

section Views

variable [DecidableEq K]

/-- What the board says, without the turns that were lost. -/
def due (u : State K) (id : UInt64) : List (ℕ × Listener × List Event) :=
  ((board hear u.history).owed id).filter fun p => (p.1, id) ∉ u.skipped

/-- Nothing that concerns the handlers changes. -/
structure Quiet (u v : State K) : Prop where
  lastId : v.lastId = u.lastId
  onEvent : v.onEvent = u.onEvent
  listenersMutex : v.listenersMutex = u.listenersMutex
  calls : v.calls = u.calls
  history : v.history = u.history
  skipped : v.skipped = u.skipped
  turns : turnAt v = turnAt u

/-- The handlers and the board know the same listeners under the same identifiers. -/
structure Seated (u : State K) : Prop where
  numbered : ∀ subscription, Numbered (u.onEvent subscription) u.lastId
  distinct : ∀ subscription, ((u.onEvent subscription).entries.map Prod.fst).Nodup
  apart : ∀ s t, ∀ e ∈ (u.onEvent s).entries, ∀ e' ∈ (u.onEvent t).entries, e.1 = e'.1 → s = t
  audience : ∀ s id listener, (board hear u.history).audience s id = some listener ↔
    (id, listener) ∈ (u.onEvent s).entries
  joined : ∀ h ∈ u.history, ∀ id, h.Joins id → id ≤ u.lastId
  once : u.history.Pairwise fun h h' => ∀ id, h.Joins id → ¬ h'.Joins id

/-- Turns are taken under the mutex of the handler, for listeners that are there. -/
structure Turns (u : State K) : Prop where
  mutex : Matches u.listenersMutex (callsFor u)
  fits : ∀ thread turn, turnAt u thread = some turn →
    (turn.remaining.map Prod.fst).Nodup ∧
      (∀ e ∈ turn.remaining, e ∈ (u.onEvent turn.subscription).entries) ∧
      turn.publication < (board hear u.history).next
  skipped : ∀ p ∈ u.skipped, p.1 < (board hear u.history).next

/-- A listener has heard what is due, but for the batch that it still waits for. -/
structure Served (u : State K) : Prop where
  waiting : ∀ id p, Waits u id p → heard u id ++ [p] = due u id
  served : ∀ id, (∀ p, ¬ Waits u id p) → heard u id = due u id

structure Sound (u : State K) : Prop where
  seated : Seated u
  turns : Turns u
  served : Served u

end Views

/-! ## Steps that leave the handlers alone -/

section Quiet

variable [DecidableEq K] {u v : State K}

omit [DecidableEq K] in
theorem Quiet.waits (h : Quiet u v) (id : UInt64) (call : ℕ × Listener × List Event) :
    Waits v id call ↔ Waits u id call := by
  rw [Waits, Waits, h.turns]

omit [DecidableEq K] in
theorem Quiet.heard (h : Quiet u v) (id : UInt64) : heard v id = heard u id := by
  rw [FeedSubscriptionRuns.heard, FeedSubscriptionRuns.heard, h.calls]

theorem Quiet.due (h : Quiet u v) (id : UInt64) : due v id = due u id := by
  rw [FeedSubscriptionRuns.due, FeedSubscriptionRuns.due, h.history, h.skipped]

theorem Sound.quiet (hs : Sound u) (h : Quiet u v) : Sound v := by
  refine ⟨⟨?_, ?_, ?_, ?_, ?_, ?_⟩, ⟨?_, ?_, ?_⟩, ⟨?_, ?_⟩⟩
  · rw [h.onEvent, h.lastId]
    exact hs.seated.numbered
  · rw [h.onEvent]
    exact hs.seated.distinct
  · rw [h.onEvent]
    exact hs.seated.apart
  · rw [h.onEvent, h.history]
    exact hs.seated.audience
  · rw [h.history, h.lastId]
    exact hs.seated.joined
  · rw [h.history]
    exact hs.seated.once
  · rw [h.listenersMutex, callsFor, h.turns]
    exact hs.turns.mutex
  · rw [h.turns, h.onEvent, h.history]
    exact hs.turns.fits
  · rw [h.skipped, h.history]
    exact hs.turns.skipped
  · intro id call hwaits
    rw [h.heard, h.due]
    exact hs.served.waiting id call ((h.waits id call).mp hwaits)
  · intro id hnone
    rw [h.heard, h.due]
    exact hs.served.served id fun call hwaits => hnone call ((h.waits id call).mpr hwaits)

omit [DecidableEq K] in
/-- A thread goes on outside of the handlers. -/
theorem quiet_moveTo {thread : ℕ} {was : Phase K} (now : Phase K)
    (hthread : u.threads[thread]? = some was) (hwas : turnOf was = none) (hnow : turnOf now = none) :
    Quiet u (u.moveTo thread now) :=
  ⟨rfl, rfl, rfl, rfl, rfl, rfl, part_modify_none turnOf hthread hwas hnow⟩

omit [DecidableEq K] in
theorem quiet_append {added : List (Phase K)} (hadded : ∀ p ∈ added, turnOf p = none) :
    Quiet u { u with threads := u.threads ++ added } :=
  ⟨rfl, rfl, rfl, rfl, rfl, rfl, part_append turnOf hadded⟩

end Quiet

/-! ## Changes of a handler -/

section Changes

variable [DecidableEq K] {u v : State K}

/-- The handler of one subscription holds other entries; the identifiers of all entries were
given out before. -/
structure Reseated (u v : State K) (subscription : K) : Prop where
  grows : u.lastId ≤ v.lastId
  others : ∀ s, s ≠ subscription → v.onEvent s = u.onEvent s
  numbered : Numbered (v.onEvent subscription) v.lastId
  distinct : ((v.onEvent subscription).entries.map Prod.fst).Nodup
  entries : ∀ e ∈ (v.onEvent subscription).entries,
    e ∈ (u.onEvent subscription).entries ∨ u.lastId < e.1
  next : (board hear v.history).next = (board hear u.history).next
  owed : (board hear v.history).owed = (board hear u.history).owed
  audience : ∀ s id listener, (board hear v.history).audience s id = some listener ↔
    (id, listener) ∈ (v.onEvent s).entries
  joined : ∀ h ∈ v.history, ∀ id, h.Joins id → id ≤ v.lastId
  once : v.history.Pairwise fun h h' => ∀ id, h.Joins id → ¬ h'.Joins id

theorem Seated.reseated (hs : Seated u) {subscription : K} (h : Reseated u v subscription) :
    Seated v := by
  have hentries : ∀ s, ∀ e ∈ (v.onEvent s).entries,
      e ∈ (u.onEvent s).entries ∨ s = subscription ∧ u.lastId < e.1 := by
    intro s e he
    by_cases hsub : s = subscription
    · subst hsub
      exact (h.entries e he).imp id (And.intro rfl)
    · rw [h.others s hsub] at he
      exact .inl he
  refine ⟨fun s => ?_, fun s => ?_, fun s t e he e' he' hid => ?_, h.audience, h.joined,
    h.once⟩
  · by_cases hsub : s = subscription
    · subst hsub
      exact h.numbered
    · rw [h.others s hsub]
      exact ⟨h.numbered.bounded, fun e he =>
        UInt64.le_trans ((hs.numbered s).entries_le e he) h.grows⟩
  · by_cases hsub : s = subscription
    · subst hsub
      exact h.distinct
    · rw [h.others s hsub]
      exact hs.distinct s
  · -- An identifier of the past and a new one differ.
    rcases hentries s e he with hold | ⟨rfl, hnew⟩
    · rcases hentries t e' he' with hold' | ⟨rfl, hnew'⟩
      · exact hs.apart s t e hold e' hold' hid
      · rw [← hid] at hnew'
        exact absurd ((hs.numbered s).entries_le e hold) (UInt64.not_le.mpr hnew')
    · rcases hentries t e' he' with hold' | ⟨rfl, -⟩
      · rw [hid] at hnew
        exact absurd ((hs.numbered t).entries_le e' hold') (UInt64.not_le.mpr hnew)
      · rfl

omit [DecidableEq K] in
theorem once_snoc {history : List (Happening K UInt64 Listener (List Event))}
    {happening : Happening K UInt64 Listener (List Event)}
    (h : history.Pairwise fun h h' => ∀ id, h.Joins id → ¬ h'.Joins id)
    (hnew : ∀ id, happening.Joins id → ∀ h ∈ history, ¬ h.Joins id) :
    (history ++ [happening]).Pairwise fun h h' => ∀ id, h.Joins id → ¬ h'.Joins id := by
  refine List.pairwise_append.mpr ⟨h, List.pairwise_singleton _ _, fun a ha b hb id hjoins => ?_⟩
  rw [List.mem_singleton.mp hb]
  exact fun hb => hnew id hb a ha hjoins

theorem reseated_remove (hs : Seated u) (subscription : K) (id : UInt64) :
    Reseated u (u.change subscription (.remove id)) subscription := by
  have hown : (u.change subscription (.remove id)).onEvent subscription =
      (u.onEvent subscription).remove id := Function.update_self ..
  have hothers : ∀ s, s ≠ subscription →
      (u.change subscription (.remove id)).onEvent s = u.onEvent s :=
    fun s hsub => Function.update_of_ne hsub ..
  have hmem := mem_remove (hs.numbered subscription) (hs.distinct subscription) id
  have hboard : board hear (u.change subscription (.remove id)).history =
      record hear (board hear u.history) (.left subscription id) := board_snoc ..
  refine ⟨UInt64.le_refl _, hothers, ?_, ?_, fun e he => ?_, ?_, ?_, fun s i listener => ?_, ?_,
    once_snoc hs.once fun _ hjoins => hjoins.elim⟩
  · rw [hown]
    exact (hs.numbered subscription).remove id
  · rw [hown]
    exact (hs.distinct subscription).sublist ((remove_entries_sublist _ id).map Prod.fst)
  · rw [hown] at he
    exact .inl ((hmem e).mp he).1
  · rw [hboard]
    rfl
  · rw [hboard]
    rfl
  · rw [hboard, audience_left]
    by_cases hsub : s = subscription
    · subst hsub
      rw [hown, hmem, ← hs.audience]
      by_cases hid : i = id <;> simp [hid]
    · rw [if_neg fun h => hsub h.1, hothers s hsub]
      exact hs.audience s i listener
  · intro h hh i hjoins
    rcases List.mem_append.mp hh with hold | hnew
    · exact hs.joined h hold i hjoins
    · rw [List.mem_singleton.mp hnew] at hjoins
      exact hjoins.elim

theorem change_add_cases (hs : Seated u) (subscription : K) (listener : Listener)
    (lowPriority : Bool) :
    u.change subscription (.add listener lowPriority) = u ∨
      u.lastId < u.lastId + 1 ∧ u.lastId + 1 < FAKE_ID ∧
        ∃ h : SimpleHandler Listener,
          h.entries.Perm ((u.lastId + 1, listener) :: (u.onEvent subscription).entries) ∧
          u.change subscription (.add listener lowPriority) =
            { u with
              lastId := u.lastId + 1
              onEvent := Function.update u.onEvent subscription h
              history := u.history ++ [.joined subscription (u.lastId + 1) listener] } := by
  rcases added_perm (hs.numbered subscription) listener lowPriority with
    hsame | ⟨hgrows, hbound, h, hadded, hperm⟩
  · left
    rw [State.change, hsame]
    simp
  · right
    refine ⟨hgrows, hbound, h, hperm, ?_⟩
    have hreal : u.lastId + 1 ≠ FAKE_ID := UInt64.ne_of_lt hbound
    rw [State.change, hadded]
    simp [hreal]

theorem reseated_refl (hs : Seated u) (subscription : K) : Reseated u u subscription :=
  ⟨UInt64.le_refl _, fun _ _ => rfl, hs.numbered subscription, hs.distinct subscription,
    fun _ => .inl, rfl, rfl, hs.audience, hs.joined, hs.once⟩

theorem reseated_add (hs : Seated u) (subscription : K) (listener : Listener)
    (lowPriority : Bool) :
    Reseated u (u.change subscription (.add listener lowPriority)) subscription := by
  rcases change_add_cases hs subscription listener lowPriority with
    hsame | ⟨hgrows, hbound, h, hperm, hv⟩
  · rw [hsame]
    exact reseated_refl hs subscription
  · rw [hv]
    have hold := (hs.numbered subscription).entries_le
    have hown : Function.update u.onEvent subscription h subscription = h :=
      Function.update_self ..
    have hothers : ∀ s, s ≠ subscription →
        Function.update u.onEvent subscription h s = u.onEvent s :=
      fun s hsub => Function.update_of_ne hsub ..
    have hboard : board hear (u.history ++ [.joined subscription (u.lastId + 1) listener]) =
        record hear (board hear u.history) (.joined subscription (u.lastId + 1) listener) :=
      board_snoc ..
    refine ⟨UInt64.le_of_lt hgrows, hothers, ?_, ?_, fun e he => ?_, ?_, ?_, fun s i l => ?_, ?_,
      once_snoc hs.once fun id hid h hh hjoins => ?_⟩
    · simp only [hown]
      refine ⟨hbound, fun e he => ?_⟩
      rcases List.mem_cons.mp (hperm.subset he) with rfl | he
      · exact UInt64.le_refl _
      · exact UInt64.le_trans (hold e he) (UInt64.le_of_lt hgrows)
    · simp only [hown]
      rw [(hperm.map Prod.fst).nodup_iff, List.map_cons, List.nodup_cons]
      refine ⟨fun hin => ?_, hs.distinct subscription⟩
      obtain ⟨e, he, heq⟩ := List.mem_map.mp hin
      have hle := hold e he
      rw [heq] at hle
      exact absurd hgrows (UInt64.not_lt.mpr hle)
    · simp only [hown] at he
      rcases List.mem_cons.mp (hperm.subset he) with rfl | he
      · exact .inr hgrows
      · exact .inl he
    · rw [hboard]
      rfl
    · rw [hboard]
      rfl
    · rw [hboard, audience_joined]
      by_cases hsub : s = subscription
      · subst hsub
        simp only [hown]
        rw [hperm.mem_iff, List.mem_cons, ← hs.audience]
        by_cases hid : i = u.lastId + 1
        · subst hid
          have hfresh : (board hear u.history).audience s (u.lastId + 1) ≠ some l := fun hin =>
            absurd hgrows (UInt64.not_lt.mpr (hold _ ((hs.audience s _ l).mp hin)))
          simp [hfresh, eq_comm]
        · simp [hid]
      · rw [if_neg fun h => hsub h.1]
        simp only [hothers s hsub]
        exact hs.audience s i l
    · intro h hh i hjoins
      rcases List.mem_append.mp hh with hpast | hnew
      · exact UInt64.le_trans (hs.joined h hpast i hjoins) (UInt64.le_of_lt hgrows)
      · rw [List.mem_singleton.mp hnew] at hjoins
        exact UInt64.le_of_eq hjoins.symm
    · have hid : u.lastId + 1 = id := hid
      have hle := hs.joined h hh id hjoins
      rw [← hid] at hle
      exact absurd hgrows (UInt64.not_lt.mpr hle)

theorem reseated_change (hs : Seated u) (subscription : K) (change : Change) :
    Reseated u (u.change subscription change) subscription := by
  cases change with
  | add listener lowPriority => exact reseated_add hs subscription listener lowPriority
  | remove id => exact reseated_remove hs subscription id

/-- A handler changes while nobody calls its listeners. -/
theorem Sound.reseated (hs : Sound u) {subscription : K} (h : Reseated u v subscription)
    (hfree : u.listenersMutex subscription = none) (hmutex : v.listenersMutex = u.listenersMutex)
    (hcalls : v.calls = u.calls) (hskipped : v.skipped = u.skipped)
    (hturns : turnAt v = turnAt u) : Sound v := by
  have hdue : ∀ id, due v id = due u id := fun id => by rw [due, due, h.owed, hskipped]
  have hheard : ∀ id, heard v id = heard u id := fun id => by rw [heard, heard, hcalls]
  have hwaits : ∀ id call, Waits v id call ↔ Waits u id call := fun id call => by
    rw [Waits, Waits, hturns]
  refine ⟨hs.seated.reseated h, ⟨?_, fun thread turn hturn => ?_, ?_⟩, fun id call hcall => ?_,
    fun id hnone => ?_⟩
  · rw [hmutex, callsFor, hturns]
    exact hs.turns.mutex
  · rw [hturns] at hturn
    have hother : turn.subscription ≠ subscription := by
      rintro rfl
      have hheld : callsFor u thread = some turn.subscription := congrArg _ hturn
      rw [← hs.turns.mutex, hfree] at hheld
      cases hheld
    rw [h.others _ hother, h.next]
    exact hs.turns.fits thread turn hturn
  · rw [hskipped, h.next]
    exact hs.turns.skipped
  · rw [hheard, hdue]
    exact hs.served.waiting id call ((hwaits id call).mp hcall)
  · rw [hheard, hdue]
    exact hs.served.served id fun call hcall => hnone call ((hwaits id call).mpr hcall)

theorem Sound.change (hs : Sound u) {subscription : K}
    (hfree : u.listenersMutex subscription = none) (change : Change) :
    Sound (u.change subscription change) := by
  refine hs.reseated (reseated_change hs.seated subscription change) hfree ?_ ?_ ?_ ?_
  all_goals cases change <;> rfl

end Changes

/-! ## Turns begin, go on and end -/

section Rounds

variable {u v : State K} {thread : ℕ} {next : Option (Turn K)}

/-- Someone waits in the turn of another thread. -/
def WaitsElsewhere (u : State K) (thread : ℕ) (id : UInt64) (call : ℕ × Listener × List Event) :
    Prop :=
  ∃ other turn, other ≠ thread ∧ turnAt u other = some turn ∧ turn.Keeps id call

theorem waits_iff (u : State K) (thread : ℕ) (id : UInt64) (call : ℕ × Listener × List Event) :
    Waits u id call ↔ (∃ turn, turnAt u thread = some turn ∧ turn.Keeps id call) ∨
      WaitsElsewhere u thread id call := by
  constructor
  · rintro ⟨other, turn, hturn, hkeeps⟩
    by_cases hother : other = thread
    · subst hother
      exact .inl ⟨turn, hturn, hkeeps⟩
    · exact .inr ⟨other, turn, hother, hturn, hkeeps⟩
  · rintro (⟨turn, hturn, hkeeps⟩ | ⟨other, turn, -, hturn, hkeeps⟩)
    · exact ⟨thread, turn, hturn, hkeeps⟩
    · exact ⟨other, turn, hturn, hkeeps⟩

theorem waits_update (hv : turnAt v = Function.update (turnAt u) thread next) (id : UInt64)
    (call : ℕ × Listener × List Event) :
    Waits v id call ↔ (∃ turn, next = some turn ∧ turn.Keeps id call) ∨
      WaitsElsewhere u thread id call := by
  rw [waits_iff v thread, hv, Function.update_self]
  refine or_congr_right (exists_congr fun other => exists_congr fun turn => ?_)
  rw [hv]
  refine and_congr_right fun hother => ?_
  rw [Function.update_of_ne hother]

theorem callsFor_update (hv : turnAt v = Function.update (turnAt u) thread next) :
    callsFor v = Function.update (callsFor u) thread (next.map Turn.subscription) := by
  rw [callsFor, hv, Function.comp_update]
  rfl

variable [DecidableEq K]

/-- While one thread has the handler, its listeners wait for nobody else. -/
theorem Sound.not_elsewhere (hs : Sound u) {subscription : K}
    (halone : ∀ other, other ≠ thread → callsFor u other ≠ some subscription) {id : UInt64}
    {listener : Listener} (hin : (id, listener) ∈ (u.onEvent subscription).entries)
    {call : ℕ × Listener × List Event} : ¬ WaitsElsewhere u thread id call := by
  rintro ⟨other, turn, hother, hturn, l, hl, -⟩
  have hsame := hs.seated.apart _ _ _ ((hs.turns.fits other turn hturn).2.1 _ hl) _ hin rfl
  exact halone other hother (hsame ▸ congrArg _ hturn)

theorem Sound.alone (hs : Sound u) {turn : Turn K} (hturn : turnAt u thread = some turn)
    (other : ℕ) (hother : other ≠ thread) : callsFor u other ≠ some turn.subscription := by
  intro hheld
  have hmine : callsFor u thread = some turn.subscription := congrArg _ hturn
  rw [← hs.turns.mutex] at hheld hmine
  rw [hheld] at hmine
  exact hother (Option.some.inj hmine)

section Publishing

variable (subscription : K) (events : List Event)

theorem board_publish : board hear (u.publish thread subscription events).history =
    record hear (board hear u.history) (.published subscription events) := board_snoc ..

theorem next_publish : (board hear (u.publish thread subscription events).history).next =
    (board hear u.history).next + 1 := by
  rw [board_publish]
  rfl

/-- The number of a new publication was never skipped. -/
theorem due_publish (hs : Sound u) (id : UInt64) :
    due (u.publish thread subscription events) id = due u id ++
      (((board hear u.history).audience subscription id).map fun listener =>
        ((board hear u.history).next, hear listener events)).toList := by
  have hnew : ((board hear u.history).next, id) ∉ u.skipped := fun hin =>
    absurd (hs.turns.skipped _ hin) (Nat.lt_irrefl _)
  change List.filter _ ((board hear (u.publish thread subscription events).history).owed id) = _
  rw [board_publish, record, List.filter_append]
  congr 1
  cases (board hear u.history).audience subscription id with
  | none => rfl
  | some listener => exact List.filter_cons_of_pos (decide_eq_true hnew)

theorem turnAt_publish {was : Phase K} (hthread : u.threads[thread]? = some was) :
    turnAt (u.publish thread subscription events) = Function.update (turnAt u) thread
      (some ⟨subscription, (board hear u.history).next, events,
        (u.onEvent subscription).entries⟩) := by
  rw [next_board]
  exact part_modify turnOf hthread _

theorem Sound.publish (hs : Sound u) {was : Phase K} (hthread : u.threads[thread]? = some was)
    (hwas : turnOf was = none) (hfree : u.listenersMutex subscription = none) :
    Sound (u.publish thread subscription events) := by
  have hturns := turnAt_publish subscription events hthread
  have hnone : turnAt u thread = none := (part_of_at turnOf hthread).trans hwas
  have hidle : callsFor u thread = none := congrArg (Option.map Turn.subscription) hnone
  have hnobody : ∀ other, other ≠ thread → callsFor u other ≠ some subscription := by
    intro other _ hheld
    rw [← hs.turns.mutex, hfree] at hheld
    cases hheld
  refine ⟨⟨hs.seated.numbered, hs.seated.distinct, hs.seated.apart, ?_, ?_,
    once_snoc hs.seated.once fun _ hjoins => hjoins.elim⟩, ⟨?_, ?_, ?_⟩,
    ⟨fun id call hwaits => ?_, fun id hquiet => ?_⟩⟩
  · rw [board_publish]
    exact hs.seated.audience
  · intro h hh id hjoins
    rcases List.mem_append.mp hh with hold | hnew
    · exact hs.seated.joined h hold id hjoins
    · rw [List.mem_singleton.mp hnew] at hjoins
      exact hjoins.elim
  · rw [callsFor_update hturns]
    exact hs.turns.mutex.takes hfree hidle
  · intro other turn hturn
    rw [next_publish]
    rw [hturns] at hturn
    by_cases hother : other = thread
    · subst hother
      rw [Function.update_self] at hturn
      cases hturn
      exact ⟨hs.seated.distinct subscription, fun e he => he, Nat.lt_succ_self _⟩
    · rw [Function.update_of_ne hother] at hturn
      obtain ⟨hnodup, hentries, hlt⟩ := hs.turns.fits other turn hturn
      exact ⟨hnodup, hentries, Nat.lt_succ_of_lt hlt⟩
  · intro p hp
    rw [next_publish]
    exact Nat.lt_succ_of_lt (hs.turns.skipped p hp)
  · -- A listener of the subscription begins to wait, any other one waits as before.
    rw [due_publish subscription events hs]
    rcases (waits_update hturns id call).mp hwaits with ⟨turn, hturn, l, hl, rfl⟩ | helse
    · cases hturn
      have hserved := hs.served.served id fun call hcall => by
        rcases (waits_iff u thread id call).mp hcall with ⟨turn, hturn, -⟩ | helse
        · cases hnone.symm.trans hturn
        · exact hs.not_elsewhere hnobody hl helse
      rw [(hs.seated.audience subscription id l).mpr hl]
      exact congrArg (· ++ _) hserved
    · have hout : (board hear u.history).audience subscription id = none := by
        by_contra hsome
        obtain ⟨l, hl⟩ := Option.ne_none_iff_exists'.mp hsome
        exact hs.not_elsewhere hnobody ((hs.seated.audience subscription id l).mp hl) helse
      rw [hout]
      refine (hs.served.waiting id call ((waits_iff u thread id call).mpr (.inr helse))).trans ?_
      exact (List.append_nil _).symm
  · rw [due_publish subscription events hs]
    have hout : (board hear u.history).audience subscription id = none := by
      by_contra hsome
      obtain ⟨l, hl⟩ := Option.ne_none_iff_exists'.mp hsome
      refine hquiet _ ((waits_update hturns id _).mpr (.inl ⟨_, rfl, l, ?_, rfl⟩))
      exact (hs.seated.audience subscription id l).mp hl
    rw [hout]
    refine (hs.served.served id fun call hcall => ?_).trans (List.append_nil _).symm
    rcases (waits_iff u thread id call).mp hcall with ⟨turn, hturn, -⟩ | helse
    · cases hnone.symm.trans hturn
    · exact hquiet call ((waits_update hturns id call).mpr (.inr helse))

end Publishing

theorem due_ordered (u : State K) (id : UInt64) :
    (due u id).Pairwise fun p q => p.1 < q.1 :=
  ((numbered_board u.history).ordered id).filter _

/-- One listener of the turn is called. -/
theorem Sound.callNext (hs : Sound u) (turn : Turn K) {e : UInt64 × Listener}
    {listeners low listeners' low' : List (UInt64 × Listener)}
    (hthread : u.threads[thread]? =
      some (.calling turn.subscription turn.publication turn.events listeners low))
    (hperm : (listeners ++ low).Perm (e :: (listeners' ++ low'))) :
    Sound (u.callNext thread turn.subscription turn.publication turn.events e listeners' low') := by
  have hturns : turnAt (u.callNext thread turn.subscription turn.publication turn.events e
      listeners' low') = Function.update (turnAt u) thread (some { turn with
        remaining := listeners' ++ low' }) := part_modify turnOf hthread _
  have hturn : turnAt u thread = some { turn with remaining := listeners ++ low } :=
    part_of_at turnOf hthread
  obtain ⟨hnodup, hentries, hlt⟩ := hs.turns.fits thread _ hturn
  rw [(hperm.map Prod.fst).nodup_iff, List.map_cons, List.nodup_cons] at hnodup
  have hrest : ∀ id l, (id, l) ∈ listeners' ++ low' → id ≠ e.1 ∧ (id, l) ∈ listeners ++ low :=
    fun id l hl => ⟨fun hid => hnodup.1 (hid ▸ List.mem_map_of_mem (f := Prod.fst) hl),
      hperm.mem_iff.mpr (List.mem_cons_of_mem e hl)⟩
  have hheard : ∀ id, heard (u.callNext thread turn.subscription turn.publication turn.events e
      listeners' low') id = heard u id ++
        if e.1 = id then [(turn.publication, hear e.2 turn.events)] else [] := by
    intro id
    refine (List.filterMap_append ..).trans (congrArg (heard u id ++ ·) ?_)
    by_cases hid : e.1 = id <;> simp [hid, hear]
  have hsame : callsFor (u.callNext thread turn.subscription turn.publication turn.events e
      listeners' low') = callsFor u := by
    rw [callsFor_update hturns]
    refine Function.update_eq_self_iff.mpr ?_
    exact (congrArg (Option.map Turn.subscription) hturn).symm
  refine ⟨⟨hs.seated.numbered, hs.seated.distinct, hs.seated.apart, hs.seated.audience,
    hs.seated.joined, hs.seated.once⟩, ⟨?_, fun other t ht => ?_, hs.turns.skipped⟩,
    ⟨fun id call hwaits => ?_, fun id hquiet => ?_⟩⟩
  · rw [hsame]
    exact hs.turns.mutex
  · rw [hturns] at ht
    by_cases hother : other = thread
    · subst hother
      rw [Function.update_self] at ht
      cases ht
      exact ⟨hnodup.2, fun d hd => hentries d (hrest d.1 d.2 hd).2, hlt⟩
    · rw [Function.update_of_ne hother] at ht
      exact hs.turns.fits other t ht
  · -- Who still waits is not the one that was called.
    have hbefore : id ≠ e.1 ∧ Waits u id call := by
      rcases (waits_update hturns id call).mp hwaits with ⟨t, ht, l, hl, rfl⟩ | helse
      · cases ht
        exact ⟨(hrest id l hl).1, thread, _, hturn, l, (hrest id l hl).2, rfl⟩
      · refine ⟨?_, (waits_iff u thread id call).mpr (.inr helse)⟩
        rintro rfl
        exact hs.not_elsewhere (hs.alone hturn)
          (hentries e (hperm.mem_iff.mpr List.mem_cons_self)) helse
    rw [hheard, if_neg (Ne.symm hbefore.1), List.append_nil]
    exact hs.served.waiting id call hbefore.2
  · rw [hheard]
    by_cases hid : e.1 = id
    · subst hid
      rw [if_pos rfl]
      exact hs.served.waiting e.1 _
        ⟨thread, _, hturn, e.2, hperm.mem_iff.mpr List.mem_cons_self, rfl⟩
    · rw [if_neg hid, List.append_nil]
      refine hs.served.served id fun call hcall => hquiet call ?_
      rw [waits_update hturns]
      rcases (waits_iff u thread id call).mp hcall with ⟨t, ht, l, hl, rfl⟩ | helse
      · cases hturn.symm.trans ht
        refine .inl ⟨_, rfl, l, ?_, rfl⟩
        exact (List.mem_cons.mp (hperm.mem_iff.mp hl)).resolve_left fun heq =>
          hid (congrArg Prod.fst heq).symm
      · exact .inr helse

/-- A turn ends; who was not called misses the batch. -/
theorem Sound.ended (hs : Sound u) {turn : Turn K} (hturn : turnAt u thread = some turn)
    (hturns : turnAt v = Function.update (turnAt u) thread none)
    (hlastId : v.lastId = u.lastId) (honEvent : v.onEvent = u.onEvent)
    (hmutex : v.listenersMutex = Function.update u.listenersMutex turn.subscription none)
    (hcalls : v.calls = u.calls) (hhistory : v.history = u.history)
    (hskipped : v.skipped = u.skipped ++ turn.remaining.map fun e => (turn.publication, e.1)) :
    Sound v := by
  obtain ⟨hnodup, hentries, hlt⟩ := hs.turns.fits thread _ hturn
  have hheard : ∀ id, heard v id = heard u id := fun id => by rw [heard, heard, hcalls]
  have hdue : ∀ id, due v id = (due u id).filter fun p =>
      (p.1, id) ∉ turn.remaining.map fun e => (turn.publication, e.1) := by
    intro id
    rw [due, due, hhistory, hskipped, List.filter_filter]
    refine List.filter_congr fun p _ => ?_
    simp only [List.mem_append, not_or, Bool.decide_and]
    exact Bool.and_comm _ _
  have hout : ∀ id, (∀ l, (id, l) ∉ turn.remaining) → due v id = due u id := by
    intro id hid
    rw [hdue, List.filter_eq_self]
    intro p _
    refine decide_eq_true fun hin => ?_
    obtain ⟨e, he, heq⟩ := List.mem_map.mp hin
    obtain ⟨-, rfl⟩ := Prod.mk.inj heq
    exact hid e.2 he
  refine ⟨⟨?_, ?_, ?_, ?_, ?_, ?_⟩, ⟨?_, fun other t ht => ?_, ?_⟩,
    ⟨fun id call hwaits => ?_, fun id hquiet => ?_⟩⟩
  · rw [honEvent, hlastId]
    exact hs.seated.numbered
  · rw [honEvent]
    exact hs.seated.distinct
  · rw [honEvent]
    exact hs.seated.apart
  · rw [honEvent, hhistory]
    exact hs.seated.audience
  · rw [hhistory, hlastId]
    exact hs.seated.joined
  · rw [hhistory]
    exact hs.seated.once
  · rw [hmutex, callsFor_update hturns]
    exact hs.turns.mutex.frees (congrArg (Option.map Turn.subscription) hturn)
  · rw [hturns] at ht
    by_cases hother : other = thread
    · subst hother
      rw [Function.update_self] at ht
      cases ht
    · rw [Function.update_of_ne hother] at ht
      rw [honEvent, hhistory]
      exact hs.turns.fits other t ht
  · rw [hskipped, hhistory]
    intro p hp
    rcases List.mem_append.mp hp with hold | hnew
    · exact hs.turns.skipped p hold
    · obtain ⟨e, -, rfl⟩ := List.mem_map.mp hnew
      exact hlt
  · rcases (waits_update hturns id call).mp hwaits with ⟨t, ht, -⟩ | helse
    · cases ht
    · rw [hheard, hout id fun l hl =>
        hs.not_elsewhere (hs.alone hturn) (hentries _ hl) helse]
      exact hs.served.waiting id call ((waits_iff u thread id call).mpr (.inr helse))
  · rw [hheard]
    by_cases hin : ∃ l, (id, l) ∈ turn.remaining
    · obtain ⟨l, hl⟩ := hin
      have hwas := hs.served.waiting id _ ⟨thread, turn, hturn, l, hl, rfl⟩
      have hordered := due_ordered u id
      rw [← hwas] at hordered
      rw [hdue, ← hwas, List.filter_append, List.filter_eq_self.mpr, List.filter_cons_of_neg]
      · exact (List.append_nil _).symm
      · simpa using ⟨l, hl⟩
      · intro p hp
        have hbelow := (List.pairwise_append.mp hordered).2.2 p hp _ List.mem_cons_self
        refine decide_eq_true fun hin => ?_
        obtain ⟨e, -, heq⟩ := List.mem_map.mp hin
        exact Nat.ne_of_gt hbelow (Prod.mk.inj heq).1
    · rw [hout id fun l hl => hin ⟨l, hl⟩]
      refine hs.served.served id fun call hcall => hquiet call ?_
      rw [waits_update hturns]
      rcases (waits_iff u thread id call).mp hcall with ⟨t, ht, l, hl, -⟩ | helse
      · cases hturn.symm.trans ht
        exact absurd ⟨l, hl⟩ hin
      · exact .inr helse

end Rounds

/-! ## Runs -/

section Runs

variable [DecidableEq K] {number : EventClazz → ℤ} {lib : StandardLibrary} {u v : State K}

theorem sound_init : Sound ({} : State K) := by
  refine ⟨⟨fun _ => numbered_empty, fun _ => List.nodup_nil,
    fun _ _ _ he => (List.not_mem_nil he).elim, fun _ _ _ => ?_,
    fun _ hh => (List.not_mem_nil hh).elim, List.Pairwise.nil⟩,
    ⟨fun _ _ => ?_, fun _ _ hturn => ?_, fun _ hp => (List.not_mem_nil hp).elim⟩,
    ⟨fun _ _ hwaits => ?_, fun _ _ => rfl⟩⟩
  · exact iff_of_false nofun List.not_mem_nil
  · exact iff_of_false nofun nofun
  · cases hturn
  · obtain ⟨_, _, hturn, -⟩ := hwaits
    cases hturn

theorem Sound.moved {action : Action K} (h : Sound u) (hm : Moved number lib u action v) :
    Sound v := by
  cases hm with
  | registered subscription => exact h.quiet ⟨rfl, rfl, rfl, rfl, rfl, rfl, rfl⟩
  | started action subscription phase starts asked arrives =>
    refine h.quiet (quiet_append fun p hp => ?_)
    rw [List.mem_singleton.mp hp]
    rcases starts with ⟨change, required, rfl⟩ | ⟨change, rfl⟩ <;> rfl
  | arrived subscription list =>
    refine h.quiet (quiet_append fun p hp => ?_)
    obtain ⟨id, -, rfl⟩ := List.mem_map.mp hp
    rfl
  | found thread subscription change required at_thread known =>
    exact h.quiet (quiet_moveTo _ at_thread rfl rfl)
  | locked thread subscription change required at_thread free unknown =>
    have hq := quiet_moveTo (.creating subscription change required) at_thread rfl rfl
    exact h.quiet ⟨rfl, rfl, rfl, rfl, rfl, rfl, hq.turns⟩
  | left action thread subscription phase next at_thread holds leaves internal =>
    have hphase : turnOf phase = none := by
      rcases holds with ⟨change, required, rfl⟩ | ⟨id, change, rfl⟩ <;> rfl
    have hnext : turnOf next = none := by
      rcases leaves with ⟨answer, rfl⟩ | ⟨change, required, -, rfl⟩ <;> rfl
    exact h.quiet ⟨rfl, rfl, rfl, rfl, rfl, rfl, (quiet_moveTo _ at_thread hphase hnext).turns⟩
  | created thread subscription change required id at_thread registered =>
    have hq := quiet_moveTo (.attaching subscription id change) at_thread rfl rfl
    exact h.quiet ⟨rfl, rfl, rfl, rfl, rfl, rfl, hq.turns⟩
  | attached thread subscription id change at_thread =>
    have hq := quiet_moveTo (.changing subscription change) at_thread rfl rfl
    exact h.quiet ⟨rfl, rfl, rfl, rfl, rfl, rfl, hq.turns⟩
  | changed thread subscription change at_thread free =>
    have hthreads : (u.change subscription change).threads = u.threads := by
      cases change <;> rfl
    rw [← hthreads] at at_thread
    exact (h.change free change).quiet (quiet_moveTo _ at_thread rfl rfl)
  | lost thread id list at_thread unknown => exact h.quiet (quiet_moveTo _ at_thread rfl rfl)
  | resolved thread id list subscription events at_thread known read =>
    exact h.quiet (quiet_moveTo _ at_thread rfl rfl)
  | published thread subscription events at_thread free =>
    exact h.publish subscription events at_thread rfl free
  | called thread place subscription publication events listeners low listeners' low' e at_thread
      picked =>
    exact h.callNext ⟨subscription, publication, events, []⟩ at_thread picked
  | finished thread subscription publication events at_thread =>
    refine h.ended (part_of_at turnOf at_thread) (part_modify turnOf at_thread _) rfl rfl rfl rfl
      rfl ?_
    exact (List.append_nil _).symm
  | cut thread subscription publication events listeners low at_thread =>
    exact h.ended (part_of_at turnOf at_thread) (part_modify turnOf at_thread _) rfl rfl rfl rfl
      rfl rfl

theorem sound_run {actions : List (Action K)} (hrun : run (step number lib) {} actions = some u) :
    Sound u :=
  run_invariant (fun _ _ _ hs hv => hs.moved (moved_of_step hv)) sound_init hrun

/-- Whatever the order of steps, a listener has heard all batches that were published for its
subscription between its addition and its removal, in their order, without the turns that an
exception of another listener took from it and without the one that it still waits for. -/
theorem listeners_hear_their_span {actions : List (Action K)}
    (hrun : run (step number lib) {} actions = some u) {subscription : K} {id : UInt64}
    {listener : Listener} {before after : List (Happening K UInt64 Listener (List Event))}
    (hhistory : u.history = before ++ .joined subscription id listener :: after) :
    let due := (received hear (before.countP Happening.isPublished) subscription listener
      (span subscription id after)).filter fun p => (p.1, id) ∉ u.skipped
    (∀ call, Waits u id call → heard u id ++ [call] = due) ∧
      ((∀ call, ¬ Waits u id call) → heard u id = due) := by
  have hsound := sound_run hrun
  have honce := hsound.seated.once
  rw [hhistory] at honce
  obtain ⟨-, hafter, hbefore⟩ := List.pairwise_append.mp honce
  have howed : (board hear u.history).owed id = received hear
      (before.countP Happening.isPublished) subscription listener (span subscription id after) := by
    rw [hhistory]
    refine owed_of_joined (fun h hh hjoins => ?_) fun h hh => ?_
    · exact hbefore h hh _ List.mem_cons_self id hjoins rfl
    · exact (List.pairwise_cons.mp hafter).1 h hh id rfl
  intro due
  have hdue : FeedSubscriptionRuns.due u id = due := congrArg (List.filter _) howed
  rw [← hdue]
  exact ⟨hsound.served.waiting id, hsound.served.served id⟩

end Runs

/-! A listener for market events hears one quote and waits for the next one. -/

def quotes : GraalEventList := ⟨1, [some (toGraal (.quote {}))]⟩

def marketListener : Listener := ⟨some .MarketEvent, 1⟩

def quoted : Option (State ℕ) :=
  run (step (fun _ => 0) CandleNormalisation.binary64) {}
    [.registerEntity 7, .addEventListener 7 marketListener, .advance 0, .advance 0, .advance 0,
      .advance 0, .arrive 7 quotes, .advance 1, .advance 1, .call 1 0, .advance 1,
      .arrive 7 quotes, .advance 2, .advance 2]

theorem second_quote_is_due :
    ∃ u events, quoted = some u ∧
      u.history = [.joined 7 1 marketListener, .published 7 events, .published 7 events] ∧
      heard u 1 ++ [(1, hear marketListener events)] =
        (received hear 0 7 marketListener
          (span 7 1 [.published 7 events, .published 7 events])).filter fun p =>
            (p.1, 1) ∉ u.skipped := by
  obtain ⟨u, hrun⟩ : ∃ u, quoted = some u := ⟨_, rfl⟩
  obtain ⟨events, hevents⟩ : ∃ events,
    readEvents (fun _ => 0) CandleNormalisation.binary64 quotes = some events := ⟨_, rfl⟩
  have hhistory : quoted.map State.history =
      (readEvents (fun _ => 0) CandleNormalisation.binary64 quotes).map fun e =>
        [] ++ .joined 7 1 marketListener :: [.published 7 e, .published 7 e] := rfl
  have hturn : quoted.map (fun u => turnAt u 2) =
      (readEvents (fun _ => 0) CandleNormalisation.binary64 quotes).map fun e =>
        some ⟨7, 1, e, [(1, marketListener)]⟩ := rfl
  rw [hrun, hevents] at hhistory hturn
  refine ⟨u, events, hrun, Option.some.inj hhistory, ?_⟩
  exact (listeners_hear_their_span hrun (Option.some.inj hhistory)).1 _
    ⟨2, _, Option.some.inj hturn, marketListener, List.mem_singleton.mpr rfl, rfl⟩

end FeedSubscriptionRuns
