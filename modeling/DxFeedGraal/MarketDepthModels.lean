import DxFeedGraal.MarketDepthBooks

/-! # Notification and aggregation in a market depth model

A change is handed to the listener at once, or a timer thread is started that will do so
after the aggregation period. The calls and the threads of all timers are recorded; what
time passes is left open, so a thread may take its next step at any moment. -/
namespace MarketDepthModels

open Orders PartialRuns SortedOrderSets MarketDepthBooks

variable {O : OrderKind}

/-- Where the thread of a timer stands: before it raises the flag, in its sleep, past the
check of the flag, past its task, at its end. -/
inductive Phase where
  | starting | sleeping | firing | finishing | done
  deriving DecidableEq, Repr

structure Timer where
  delay : Int64
  phase : Phase := .starting
  isRunning : Bool := false
  deriving DecidableEq, Repr

/-- The thread will still run its task. -/
def Timer.pending (t : Timer) : Bool :=
  match t.phase with
  | .starting | .firing => true
  | .sleeping => t.isRunning
  | .finishing | .done => false

abbrev Lists (O : OrderKind) := List (FeedOrder O) × List (FeedOrder O)

structure MarketDepthModel (O : OrderKind) where
  book : Book O
  /-- `indexedTxModel_` is open and delivers events. -/
  attached : Bool := true
  hasListener : Bool := true
  depthLimit : UInt64
  aggregationPeriodMillis : Int64
  taskScheduled : Bool := false
  taskTimer : Option ℕ := none
  timers : List Timer := []
  destroyed : Bool := false
  /-- What the listener was handed, the last call first. -/
  calls : List (Lists O) := []

/-- The constructor, for a builder with a listener. -/
def built (depthLimit : UInt64) (aggregationPeriodMillis : Int64) : MarketDepthModel O where
  book := Book.built depthLimit
  depthLimit := depthLimit
  aggregationPeriodMillis := aggregationPeriodMillis

namespace MarketDepthModel

variable (m : MarketDepthModel O)

/-- The handler gets both lists, read one after the other. -/
def handOver : MarketDepthModel O :=
  { m with
    book := { m.book with
      buyOrders := m.book.buyOrders.toVector.2
      sellOrders := m.book.sellOrders.toVector.2 }
    calls := (m.book.buyOrders.toVector.1, m.book.sellOrders.toVector.1) :: m.calls
    taskScheduled := false }

/-- Without a listener a null pointer is dereferenced. -/
def notifyListeners : Option (MarketDepthModel O) :=
  if m.hasListener then some m.handOver else none

/-- `Timer::runOnce` leaves the flag down until the new thread raises it. -/
def scheduleTaskIfNeeded (delay : Int64) : MarketDepthModel O :=
  if m.taskScheduled then m
  else { m with
    taskScheduled := true
    taskTimer := some m.timers.length
    timers := m.timers ++ [{ delay := delay }] }

def timerIsRunning (id : ℕ) : Bool := m.timers[id]?.any fun t => t.isRunning

def modifyTimer (id : ℕ) (f : Timer → Timer) : MarketDepthModel O :=
  { m with timers := m.timers.modify id f }

def tryCancelTask : MarketDepthModel O × Bool :=
  match m.taskTimer with
  | none => (m, false)
  | some id =>
    if m.taskScheduled && m.timerIsRunning id then
      ({ m.modifyTimer id fun t => { t with isRunning := false } with
          taskTimer := none
          taskScheduled := false }, true)
    else (m, false)

def rescheduleTaskIfNeeded (delay : Int64) : MarketDepthModel O :=
  let cancelled := m.tryCancelTask
  if cancelled.2 && delay != 0 then cancelled.1.scheduleTaskIfNeeded delay else cancelled.1

def eventsReceived (d : Delivery (FeedOrder O)) : Option (MarketDepthModel O) :=
  (m.book.update d).bind fun updated =>
    let m' := { m with book := updated.1 }
    if !updated.2 then some m'
    else if d.isSnapshot || m'.aggregationPeriodMillis == 0 then
      m'.tryCancelTask.1.notifyListeners
    else some (m'.scheduleTaskIfNeeded m'.aggregationPeriodMillis)

def setDepthLimit (depthLimit : UInt64) : Option (MarketDepthModel O) :=
  if depthLimit = m.depthLimit then some m
  else
    let m' := { m with
      depthLimit := depthLimit
      book := { m.book with
        buyOrders := m.book.buyOrders.setDepthLimit depthLimit
        sellOrders := m.book.sellOrders.setDepthLimit depthLimit } }
    m'.tryCancelTask.1.notifyListeners

def setAggregationPeriod (aggregationPeriodMillis : Int64) : MarketDepthModel O :=
  if aggregationPeriodMillis = m.aggregationPeriodMillis then m
  else
    { m with aggregationPeriodMillis := aggregationPeriodMillis }.rescheduleTaskIfNeeded
      aggregationPeriodMillis

/-- Only the event subscription is closed. -/
def close : MarketDepthModel O := { m with attached := false }

/-- The destructor closes; the threads of the timers go on. -/
def destroy : MarketDepthModel O := { m.close with destroyed := true }

end MarketDepthModel

/-- The thread of a timer raises its flag, checks it after the sleep, or ends. -/
def Timer.advance (t : Timer) : Timer :=
  match t.phase with
  | .starting => { t with phase := .sleeping, isRunning := true }
  | .sleeping => { t with phase := if t.isRunning then .firing else .done }
  | .finishing => { t with phase := .done, isRunning := false }
  | .firing | .done => t

inductive Action (O : OrderKind) where
  | eventsReceived (d : Delivery (FeedOrder O))
  | advance (id : ℕ)
  | fire (id : ℕ)
  | setDepthLimit (depthLimit : UInt64)
  | setAggregationPeriod (aggregationPeriodMillis : Int64)
  | close
  | destroy

/-- An action that is not possible does nothing: events of a closed model, calls on a
destroyed one, the task of a thread that is elsewhere. A task that runs after the
destructor uses freed memory. -/
def step (m : MarketDepthModel O) : Action O → Option (MarketDepthModel O)
  | .eventsReceived d => if m.attached then m.eventsReceived d else some m
  | .advance id => some (m.modifyTimer id Timer.advance)
  | .fire id =>
    if m.timers[id]?.any fun t => t.phase = .firing then
      if m.destroyed then none
      else m.notifyListeners.map fun m' =>
        m'.modifyTimer id fun t => { t with phase := .finishing }
    else some m
  | .setDepthLimit depthLimit => if m.destroyed then some m else m.setDepthLimit depthLimit
  | .setAggregationPeriod millis =>
    if m.destroyed then some m else some (m.setAggregationPeriod millis)
  | .close => some m.close
  | .destroy => some m.destroy

/-! ## What is promised -/

/-- The first orders of a side under the limit of the model. -/
def MarketDepthModel.top (m : MarketDepthModel O) (side : BookSide) : List (FeedOrder O) :=
  { m.book.side side with depthLimit := m.depthLimit }.top

def MarketDepthModel.lastHanded (m : MarketDepthModel O) : Lists O := m.calls.head?.getD ([], [])

def TaskPending (m : MarketDepthModel O) : Prop :=
  m.taskScheduled = true ∧ ∃ id ∈ m.taskTimer, ∃ t ∈ m.timers[id]?, t.pending = true

/-- No change is lost: the listener knows the top of both sides or is about to be told. -/
def Notified (m : MarketDepthModel O) : Prop :=
  (m.top .buy, m.top .sell) = m.lastHanded ∨ TaskPending m

/-! ## Timers and the task -/

/-- A raised `taskScheduled_` means a thread that will run the task. -/
def TaskLive (m : MarketDepthModel O) : Prop := m.taskScheduled = true → TaskPending m

theorem taskLive_of_unscheduled {m : MarketDepthModel O} (h : m.taskScheduled = false) :
    TaskLive m := fun hm => by rw [h] at hm; cases hm

theorem pending_advance (t : Timer) : t.advance.pending = t.pending := by
  rcases t with ⟨delay, phase, isRunning⟩
  cases phase <;> cases isRunning <;> rfl

theorem getElem?_modifyTimer (m : MarketDepthModel O) (id : ℕ) (f : Timer → Timer) (j : ℕ) :
    (m.modifyTimer id f).timers[j]? = if id = j then m.timers[j]?.map f else m.timers[j]? := by
  simp only [MarketDepthModel.modifyTimer, List.getElem?_modify]
  split <;> simp

/-- The only ways a cancellation goes. -/
theorem tryCancelTask_cases (m : MarketDepthModel O) :
    m.tryCancelTask = (m, false) ∨
      (m.taskScheduled = true ∧ m.taskTimer.any m.timerIsRunning = true ∧
        ∃ timers, m.tryCancelTask =
          ({ m with timers := timers, taskTimer := none, taskScheduled := false }, true)) := by
  unfold MarketDepthModel.tryCancelTask
  cases hid : m.taskTimer with
  | none => exact Or.inl rfl
  | some id =>
    by_cases h : (m.taskScheduled && m.timerIsRunning id) = true
    · right
      have hboth := Bool.and_eq_true_iff.mp h
      refine ⟨hboth.1, by simpa using hboth.2,
        m.timers.modify id fun t => { t with isRunning := false }, ?_⟩
      simp only [h, if_true]
      rfl
    · left
      simp only [h]
      rfl

theorem taskPending_schedule {m : MarketDepthModel O} (h : TaskLive m) (delay : Int64) :
    TaskPending (m.scheduleTaskIfNeeded delay) := by
  unfold MarketDepthModel.scheduleTaskIfNeeded
  split
  next hscheduled => exact h hscheduled
  next =>
    refine ⟨rfl, m.timers.length, rfl, { delay := delay }, ?_, rfl⟩
    simp

theorem taskLive_advance {m : MarketDepthModel O} (h : TaskLive m) (id : ℕ) :
    TaskLive (m.modifyTimer id Timer.advance) := by
  intro hm
  obtain ⟨-, j, hj, t, ht, hpending⟩ := h hm
  refine ⟨hm, j, hj, ?_⟩
  have ht : m.timers[j]? = some t := ht
  rw [getElem?_modifyTimer, ht]
  split
  next => exact ⟨t.advance, rfl, by rw [pending_advance, hpending]⟩
  next => exact ⟨t, rfl, hpending⟩

/-! ## Handing over the top -/

theorem notifyListeners_eq {m : MarketDepthModel O} (h : m.hasListener = true) :
    m.notifyListeners = some m.handOver := if_pos h

theorem side_handOver (m : MarketDepthModel O) (side : BookSide) :
    m.handOver.book.side side = (m.book.side side).toVector.2 := by
  cases side <;> rfl

/-- What a run keeps as long as no flag is lost, whether or not a task is pending. -/
structure Kept (m : MarketDepthModel O) : Prop where
  hasListener : m.hasListener = true
  limits : ∀ side, (m.book.side side).depthLimit = m.depthLimit
  consistent : ∀ side, Consistent (bookLess side) (m.book.side side)

structure Good (m : MarketDepthModel O) : Prop extends Kept m where
  alive : m.destroyed = false
  live : TaskLive m
  handed : m.lastHanded = (m.book.buyOrders.snapshot, m.book.sellOrders.snapshot)
  waiting : (∃ side, (m.book.side side).isChanged = true) →
    m.taskScheduled = true ∨ (m.top .buy, m.top .sell) = m.lastHanded

theorem top_eq {m : MarketDepthModel O} (h : Kept m) (side : BookSide) :
    m.top side = (m.book.side side).top := by
  rw [MarketDepthModel.top, ← h.limits side]

theorem Good.notified {m : MarketDepthModel O} (h : Good m) : Notified m := by
  by_cases hchanged : ∃ side, (m.book.side side).isChanged = true
  · rcases h.waiting hchanged with hscheduled | htop
    · exact Or.inr (h.live hscheduled)
    · exact Or.inl htop
  · left
    have hcached : ∀ side, (m.book.side side).snapshot = (m.book.side side).top := fun side =>
      (h.consistent side).cached (by simpa using fun hs => hchanged ⟨side, hs⟩)
    rw [h.handed, top_eq h.toKept, top_eq h.toKept, ← hcached, ← hcached]
    rfl

theorem toVector_spec (s : SortedOrderSet (FeedOrder O)) :
    s.toVector.2.isChanged = false ∧ s.toVector.1 = s.toVector.2.snapshot ∧
      s.toVector.2.depthLimit = s.depthLimit := by
  unfold SortedOrderSet.toVector
  split
  next => exact ⟨rfl, rfl, rfl⟩
  next hchanged => exact ⟨by simpa using hchanged, rfl, rfl⟩

/-! ## What a delivery does to the caches -/

/-- The caches of a book are in order and stand where those of another book stood. -/
structure CachesKept (b b' : Book O) : Prop where
  consistent : ∀ side, Consistent (bookLess side) (b'.side side)
  snapshots : ∀ side, (b'.side side).snapshot = (b.side side).snapshot
  limits : ∀ side, (b'.side side).depthLimit = (b.side side).depthLimit

theorem CachesKept.trans {b b₁ b₂ : Book O} (h : CachesKept b b₁) (k : CachesKept b₁ b₂) :
    CachesKept b b₂ :=
  ⟨k.consistent, fun side => (k.snapshots side).trans (h.snapshots side),
    fun side => (k.limits side).trans (h.limits side)⟩

/-- One set is exchanged for another in whose cache nothing changed. -/
theorem cachesKept_withSide {b b₁ : Book O} {side : BookSide} {t : SortedOrderSet (FeedOrder O)}
    (hb : ∀ other, b₁.side other = b.side other)
    (h : ∀ other, Consistent (bookLess other) (b.side other)) (ht : Consistent (bookLess side) t)
    (hsnapshot : t.snapshot = (b.side side).snapshot)
    (hlimit : t.depthLimit = (b.side side).depthLimit) : CachesKept b (b₁.withSide side t) := by
  have hother : ∀ {other}, other ≠ side → (b₁.withSide side t).side other = b.side other :=
    fun hne => (side_withSide_ne b₁ hne t).trans (hb _)
  constructor <;> intro other <;> rcases eq_or_ne other side with rfl | hne
  · rwa [side_withSide]
  · rw [hother hne]
    exact h other
  · rwa [side_withSide]
  · rw [hother hne]
  · rwa [side_withSide]
  · rw [hother hne]

theorem insert_cachesKept {b b₁ : Book O} {order : FeedOrder O}
    (hb : ∀ other, b₁.side other = b.side other)
    (h : ∀ side, Consistent (bookLess side) (b.side side))
    (hs : Accepts (bookLess (sideOf order)) (b.side (sideOf order)) order) :
    ∃ b', b₁.insert order = some b' ∧ CachesKept b b' := by
  obtain ⟨r, hr⟩ := insert_defined hs
  have hchanged := insert_changedTo hr
  refine ⟨b₁.withSide (sideOf order) r.1, by rw [Book.insert, hb, hr]; rfl, ?_⟩
  exact cachesKept_withSide hb h ((h _).insert hr) hchanged.snapshot_eq hchanged.depthLimit_eq

theorem erase_cachesKept {b b₁ : Book O} {order : FeedOrder O}
    (hb : ∀ other, b₁.side other = b.side other)
    (h : ∀ side, Consistent (bookLess side) (b.side side))
    (hs : Accepts (bookLess (sideOf order)) (b.side (sideOf order)) order) :
    ∃ b', b₁.erase order = some b' ∧ CachesKept b b' := by
  obtain ⟨r, hr⟩ := erase_defined hs
  have hchanged := erase_changedTo hr
  refine ⟨b₁.withSide (sideOf order) r.1, by rw [Book.erase, hb, hr]; rfl, ?_⟩
  exact cachesKept_withSide hb h ((h _).erase hr) hchanged.snapshot_eq hchanged.depthLimit_eq

theorem cachesKept_self {b : Book O} (h : ∀ side, Consistent (bookLess side) (b.side side)) :
    CachesKept b b :=
  ⟨h, fun _ => rfl, fun _ => rfl⟩

theorem applyEvent_cachesKept {b : Book O} {order : FeedOrder O}
    (h : ∀ side, Consistent (bookLess side) (b.side side)) (hs : EventSafe b order) :
    ∃ b', b.applyEvent order = some b' ∧ CachesKept b b' := by
  obtain ⟨b₁, hb₁, h₁⟩ : ∃ b₁, b.dropPrevious order = some b₁ ∧ CachesKept b b₁ := by
    unfold Book.dropPrevious
    split
    next => exact ⟨b, rfl, cachesKept_self h⟩
    next removed hlookup =>
      exact erase_cachesKept (fun other => by cases other <;> rfl) h (hs.1 removed hlookup)
  rw [Book.applyEvent, hb₁, Option.bind_some, Book.store]
  cases hadd : order.shallAdd with
  | false => exact ⟨b₁, rfl, h₁⟩
  | true =>
    let stored : Book O := { b₁ with ordersByIndex := b₁.ordersByIndex.insert order.getIndex order }
    have hsides : ∀ other, stored.side other = b₁.side other := fun other => by cases other <;> rfl
    obtain ⟨b', hb', h'⟩ := insert_cachesKept hsides h₁.consistent (hs.2 hadd b₁ hb₁)
    exact ⟨b', hb', h₁.trans h'⟩

/-- The condition on a delivery: clearing can read the sources and loses no flag, and its
events can be handled. -/
def DeliveryKeepsTops (b : Book O) (d : Delivery (FeedOrder O)) : Prop :=
  (d.isSnapshot = true → b.sourcesReadable = true ∧ ∀ side,
    KeepsTop (bookLess side) (b.side side) (.clearBySource (fromSource [] d.source))) ∧
  ∀ b₀ ∈ b.beforeEvents d, Meets Book.applyEvent EventSafe b₀ d.events

theorem clearBySource_cachesKept {b : Book O} {source : Int32}
    (h : ∀ side, Consistent (bookLess side) (b.side side))
    (hread : b.sourcesReadable = true)
    (hs : ∀ side, KeepsTop (bookLess side) (b.side side)
      (.clearBySource (fromSource [] source))) :
    ∃ b', b.clearBySource source = some b' ∧ CachesKept b b' := by
  have hclear := fun side => (consistent_clearBySource_iff (h side) _).mpr (hs side)
  obtain ⟨b', hb', -, hsides⟩ := clearBySource_of_sides hread hclear
  refine ⟨b', hb', ?_⟩
  constructor
  · intro side
    exact (hsides side).2
  · intro side
    exact (clearBySource_eq (hsides side).1).2.1
  · intro side
    exact (clearBySource_eq (hsides side).1).2.2.1

theorem update_cachesKept {b : Book O} {d : Delivery (FeedOrder O)}
    (h : ∀ side, Consistent (bookLess side) (b.side side)) (hd : DeliveryKeepsTops b d) :
    ∃ b', b.update d = some (b', b'.buyOrders.isChanged || b'.sellOrders.isChanged) ∧
      CachesKept b b' := by
  obtain ⟨b₀, hb₀, h₀⟩ : ∃ b₀, b.beforeEvents d = some b₀ ∧ CachesKept b b₀ := by
    unfold Book.beforeEvents
    split
    next hsnapshot =>
      exact clearBySource_cachesKept h (hd.1 hsnapshot).1 (hd.1 hsnapshot).2
    next => exact ⟨b, rfl, cachesKept_self h⟩
  have hstep : ∀ b₁ order, CachesKept b b₁ → EventSafe b₁ order →
      ∃ b', Book.applyEvent b₁ order = some b' ∧ CachesKept b b' := by
    intro b₁ order h₁ hs
    obtain ⟨b', hb', h'⟩ := applyEvent_cachesKept h₁.consistent hs
    exact ⟨b', hb', h₁.trans h'⟩
  obtain ⟨b', hb', h'⟩ := (always_of_meets hstep h₀ (hd.2 b₀ hb₀)).last
  exact ⟨b', by rw [Book.update, hb₀, Option.bind_some, hb']; rfl, h'⟩

/-! ## Steps that lose no notification -/

theorem Kept.handOver {m : MarketDepthModel O} (h : Kept m) (halive : m.destroyed = false) :
    Good m.handOver := by
  constructor
  · constructor
    · exact h.hasListener
    · intro side
      rw [side_handOver, (toVector_spec _).2.2]
      exact h.limits side
    · intro side
      rw [side_handOver]
      exact consistent_toVector (h.consistent side)
  · exact halive
  · exact taskLive_of_unscheduled rfl
  · exact congrArg₂ Prod.mk (toVector_spec _).2.1 (toVector_spec _).2.1
  · rintro ⟨side, hchanged⟩
    rw [side_handOver, (toVector_spec _).1] at hchanged
    cases hchanged

/-- The condition on the next action. The model is not closed or destroyed, a delivery
loses no flag, and the period is not changed to zero over a running task that still has
something to hand over. -/
def KeepsNotified (m : MarketDepthModel O) : Action O → Prop
  | .eventsReceived d => DeliveryKeepsTops m.book d
  | .setAggregationPeriod millis =>
    millis = 0 → m.aggregationPeriodMillis ≠ 0 → m.taskScheduled = true →
      m.taskTimer.any m.timerIsRunning = true → (m.top .buy, m.top .sell) = m.lastHanded
  | .close | .destroy => False
  | .advance _ | .fire _ | .setDepthLimit _ => True

theorem Kept.tryCancelTask {m : MarketDepthModel O} (h : Kept m) : Kept m.tryCancelTask.1 := by
  rcases tryCancelTask_cases m with hc | ⟨-, -, timers, hc⟩
  · rw [hc]
    exact h
  · rw [hc]
    exact ⟨h.hasListener, h.limits, h.consistent⟩

theorem destroyed_tryCancelTask (m : MarketDepthModel O) :
    m.tryCancelTask.1.destroyed = m.destroyed := by
  rcases tryCancelTask_cases m with hc | ⟨-, -, timers, hc⟩ <;> rw [hc]

/-- Cancelling and handing over restores everything. -/
theorem Kept.notifyNow {m : MarketDepthModel O} (h : Kept m) (halive : m.destroyed = false) :
    ∃ m', m.tryCancelTask.1.notifyListeners = some m' ∧ Good m' :=
  ⟨_, notifyListeners_eq h.tryCancelTask.hasListener,
    h.tryCancelTask.handOver ((destroyed_tryCancelTask m).trans halive)⟩

theorem Good.modifyTimer {m : MarketDepthModel O} (h : Good m) {id : ℕ} {f : Timer → Timer}
    (hlive : TaskLive (m.modifyTimer id f)) : Good (m.modifyTimer id f) :=
  ⟨⟨h.hasListener, h.limits, h.consistent⟩, h.alive, hlive, h.handed, h.waiting⟩

theorem Good.schedule {m : MarketDepthModel O} (h : Kept m) (halive : m.destroyed = false)
    (hlive : TaskLive m)
    (hhanded : m.lastHanded = (m.book.buyOrders.snapshot, m.book.sellOrders.snapshot))
    (delay : Int64) : Good (m.scheduleTaskIfNeeded delay) := by
  have hpending := taskPending_schedule hlive delay
  unfold MarketDepthModel.scheduleTaskIfNeeded at hpending ⊢
  split
  next hscheduled => exact ⟨h, halive, hlive, hhanded, fun _ => Or.inl hscheduled⟩
  next hscheduled =>
    rw [if_neg hscheduled] at hpending
    exact ⟨⟨h.hasListener, h.limits, h.consistent⟩, halive, fun _ => hpending, hhanded,
      fun _ => Or.inl rfl⟩

theorem Good.eventsReceived {m : MarketDepthModel O} (h : Good m) {d : Delivery (FeedOrder O)}
    (hd : DeliveryKeepsTops m.book d) : ∃ m', m.eventsReceived d = some m' ∧ Good m' := by
  obtain ⟨b', hb', hkept⟩ := update_cachesKept h.consistent hd
  have hkept' : Kept { m with book := b' } :=
    ⟨h.hasListener, fun side => (hkept.limits side).trans (h.limits side), hkept.consistent⟩
  have hhanded : m.lastHanded = (b'.buyOrders.snapshot, b'.sellOrders.snapshot) := by
    rw [h.handed]
    exact congrArg₂ Prod.mk (hkept.snapshots .buy).symm (hkept.snapshots .sell).symm
  rw [MarketDepthModel.eventsReceived, hb', Option.bind_some]
  cases hchanged : (b'.buyOrders.isChanged || b'.sellOrders.isChanged) with
  | false =>
    obtain ⟨hbuy, hsell⟩ := Bool.or_eq_false_iff.mp hchanged
    refine ⟨_, rfl, hkept', h.alive, h.live, hhanded, ?_⟩
    rintro ⟨side, hside⟩
    cases side with
    | buy =>
      change b'.buyOrders.isChanged = true at hside
      rw [hbuy] at hside
      cases hside
    | sell =>
      change b'.sellOrders.isChanged = true at hside
      rw [hsell] at hside
      cases hside
  | true =>
    cases hnow : (d.isSnapshot || m.aggregationPeriodMillis == 0) with
    | true =>
      obtain ⟨m', hm', hgood⟩ := hkept'.notifyNow h.alive
      exact ⟨m', by simpa [hnow] using hm', hgood⟩
    | false =>
      exact ⟨_, by simp only [hnow]; rfl,
        Good.schedule hkept' h.alive h.live hhanded m.aggregationPeriodMillis⟩

theorem Good.setDepthLimit {m : MarketDepthModel O} (h : Good m) (depthLimit : UInt64) :
    ∃ m', m.setDepthLimit depthLimit = some m' ∧ Good m' := by
  unfold MarketDepthModel.setDepthLimit
  split
  next => exact ⟨m, rfl, h⟩
  next hne =>
    have hset : ∀ s : SortedOrderSet (FeedOrder O),
        (s.setDepthLimit depthLimit).depthLimit = depthLimit := by
      intro s
      unfold SortedOrderSet.setDepthLimit
      split
      next heq => exact heq
      next => rfl
    refine Kept.notifyNow ⟨h.hasListener, fun side => ?_, fun side => ?_⟩ h.alive
    · cases side <;> exact hset _
    · cases side with
      | buy => exact consistent_setDepthLimit (h.consistent .buy) depthLimit
      | sell => exact consistent_setDepthLimit (h.consistent .sell) depthLimit

theorem Good.setAggregationPeriod {m : MarketDepthModel O} (h : Good m) {millis : Int64}
    (hk : KeepsNotified m (.setAggregationPeriod millis)) :
    Good (m.setAggregationPeriod millis) := by
  unfold MarketDepthModel.setAggregationPeriod
  split
  next => exact h
  next hchanged =>
    have hkept : Kept { m with aggregationPeriodMillis := millis } :=
      ⟨h.hasListener, h.limits, h.consistent⟩
    unfold MarketDepthModel.rescheduleTaskIfNeeded
    rcases tryCancelTask_cases { m with aggregationPeriodMillis := millis } with
      hc | ⟨hscheduled, hrunning, timers, hc⟩
    · rw [hc]
      exact ⟨hkept, h.alive, h.live, h.handed, h.waiting⟩
    · rw [hc]
      by_cases hzero : millis = 0
      · -- The task is gone: everything must have been handed over.
        have hperiod : m.aggregationPeriodMillis ≠ 0 := fun h => hchanged (hzero.trans h.symm)
        simp only [hzero, bne_self_eq_false, Bool.and_false, Bool.false_eq_true, if_false]
        exact ⟨⟨h.hasListener, h.limits, h.consistent⟩, h.alive, taskLive_of_unscheduled rfl,
          h.handed, fun _ => Or.inr (hk hzero hperiod hscheduled hrunning)⟩
      · simp only [bne_iff_ne, ne_eq, hzero, not_false_iff, Bool.true_and, if_true]
        have hcancelled : Kept
            { m with
              aggregationPeriodMillis := millis
              timers := timers
              taskTimer := none
              taskScheduled := false } := ⟨h.hasListener, h.limits, h.consistent⟩
        exact Good.schedule hcancelled h.alive (taskLive_of_unscheduled rfl) h.handed millis

/-- Step lemma: an action that meets its condition keeps the invariant. -/
theorem Good.step {m : MarketDepthModel O} (h : Good m) {a : Action O} (hk : KeepsNotified m a) :
    ∃ m', MarketDepthModels.step m a = some m' ∧ Good m' := by
  cases a with
  | eventsReceived d =>
    simp only [MarketDepthModels.step]
    split
    next => exact h.eventsReceived hk
    next => exact ⟨m, rfl, h⟩
  | advance id => exact ⟨_, rfl, h.modifyTimer (taskLive_advance h.live id)⟩
  | fire id =>
    simp only [MarketDepthModels.step]
    split
    next =>
      simp only [h.alive, Bool.false_eq_true, if_false, notifyListeners_eq h.hasListener]
      have hgood := h.toKept.handOver h.alive
      exact ⟨_, rfl, hgood.modifyTimer (taskLive_of_unscheduled rfl)⟩
    next => exact ⟨m, rfl, h⟩
  | setDepthLimit depthLimit =>
    simp only [MarketDepthModels.step, h.alive]
    exact h.setDepthLimit depthLimit
  | setAggregationPeriod millis =>
    simp only [MarketDepthModels.step, h.alive]
    exact ⟨_, rfl, h.setAggregationPeriod hk⟩
  | close => exact hk.elim
  | destroy => exact hk.elim

theorem good_built (depthLimit : UInt64) (millis : Int64) :
    Good (built depthLimit millis : MarketDepthModel O) := by
  have hset : ∀ side, Consistent (bookLess side) ((Book.built (O := O) depthLimit).side side) ∧
      ((Book.built (O := O) depthLimit).side side).snapshot = [] ∧
      ((Book.built (O := O) depthLimit).side side).depthLimit = depthLimit ∧
      ((Book.built (O := O) depthLimit).side side).orders = [] := by
    intro side
    have hcons := consistent_setDepthLimit (consistent_fresh (bookLess (O := O) side)) depthLimit
    let fresh : SortedOrderSet (FeedOrder O) := {}
    have hrest : (fresh.setDepthLimit depthLimit).snapshot = [] ∧
        (fresh.setDepthLimit depthLimit).depthLimit = depthLimit ∧
        (fresh.setDepthLimit depthLimit).orders = [] := by
      unfold SortedOrderSet.setDepthLimit
      split
      next heq => exact ⟨rfl, heq, rfl⟩
      next => exact ⟨rfl, rfl, rfl⟩
    cases side <;> exact ⟨hcons, hrest⟩
  have hkept : Kept (built depthLimit millis : MarketDepthModel O) :=
    ⟨rfl, fun side => (hset side).2.2.1, fun side => (hset side).1⟩
  refine ⟨hkept, rfl, taskLive_of_unscheduled rfl, ?_, fun _ => Or.inr ?_⟩
  · exact congrArg₂ Prod.mk (hset .buy).2.1.symm (hset .sell).2.1.symm
  · have htop : ∀ side, (built depthLimit millis : MarketDepthModel O).top side = [] := by
      intro side
      have horders : ((built depthLimit millis : MarketDepthModel O).book.side side).orders = [] :=
        (hset side).2.2.2
      rw [top_eq hkept, SortedOrderSet.top, horders, List.take_nil, ite_self]
    rw [htop, htop]
    rfl

/-- In a run whose actions meet their conditions no notification is ever lost. -/
theorem notification_kept (O : OrderKind) (depthLimit : UInt64) (millis : Int64)
    (actions : List (Action O))
    (h : Meets step KeepsNotified (built depthLimit millis) actions) :
    Always step Notified (built depthLimit millis) actions :=
  (always_of_meets (fun _ _ hm ha => Good.step hm ha) (good_built depthLimit millis) h).imp
    fun _ hm => hm.notified

/-- A delivery of one order that is no snapshot, so that it waits for the period. -/
def oneOrder : Delivery (FeedOrder .order) := ⟨OrderSources.DEFAULT.id, [firstOrder], false⟩

/-- A pending task that is rescheduled with another period and then fires. -/
theorem notification_kept_rescheduled :
    Always step Notified (built 0 1000)
      [.eventsReceived oneOrder, .advance 0, .setAggregationPeriod 500, .advance 1, .advance 1,
        .fire 1] := by
  apply notification_kept
  refine ⟨⟨fun h => ?_, fun b₀ hb₀ => ?_⟩, fun _ _ => ⟨trivial, fun _ _ => ⟨fun h => ?_,
    fun _ _ => ⟨trivial, fun _ _ => ⟨trivial, fun _ _ => ⟨trivial, fun _ _ => trivial⟩⟩⟩⟩⟩⟩
  · cases h
  · have hsafe : DeliverySafe (Book.built 0) oneOrder :=
      deliverySafe_of_priced (by decide) (priced_built 0) (by decide) fun h => by cases h
    exact hsafe.2 b₀ hb₀
  · exact absurd h (by decide)

/-- Setting the period to zero over a running task drops the task and its change. -/
theorem notification_lost_at_zero_period :
    ¬ Always step Notified (built 0 1000)
      [.eventsReceived oneOrder, .advance 0, .setAggregationPeriod 0] := by
  rintro ⟨-, m₁, h₁, -, m₂, h₂, -, m₃, h₃, hnotified⟩
  cases h₁
  cases h₂
  cases h₃
  rcases hnotified with htop | hpending
  · revert htop
    decide
  · exact absurd hpending.1 (by decide)

/-! ## Closing -/

/-- The listener is not called on the rest of the run. -/
def Silent (m : MarketDepthModel O) (later : List (Action O)) : Prop :=
  ∃ m', run step m later = some m' ∧ m'.calls = m.calls

/-- What the documentation says of a closed model. -/
def Detached (m : MarketDepthModel O) : Prop :=
  m.hasListener = false ∧ ∀ later, Silent m later

/-- Facts about the task and the listener that hold however the model is used. -/
structure Sound (m : MarketDepthModel O) : Prop where
  hasListener : m.hasListener = true
  live : TaskLive m

theorem Sound.tryCancelTask {m : MarketDepthModel O} (h : Sound m) : Sound m.tryCancelTask.1 := by
  rcases tryCancelTask_cases m with hc | ⟨-, -, timers, hc⟩
  · rw [hc]
    exact h
  · rw [hc]
    exact ⟨h.hasListener, taskLive_of_unscheduled rfl⟩

theorem Sound.notify {m m' : MarketDepthModel O} (h : Sound m)
    (hm : m.notifyListeners = some m') : Sound m' := by
  rw [notifyListeners_eq h.hasListener] at hm
  cases hm
  exact ⟨h.hasListener, taskLive_of_unscheduled rfl⟩

theorem hasListener_schedule (m : MarketDepthModel O) (delay : Int64) :
    (m.scheduleTaskIfNeeded delay).hasListener = m.hasListener := by
  unfold MarketDepthModel.scheduleTaskIfNeeded
  split <;> rfl

theorem Sound.schedule {m : MarketDepthModel O} (h : Sound m) (delay : Int64) :
    Sound (m.scheduleTaskIfNeeded delay) :=
  ⟨(hasListener_schedule m delay).trans h.hasListener, fun _ => taskPending_schedule h.live delay⟩

theorem Sound.reschedule {m : MarketDepthModel O} (h : Sound m) (delay : Int64) :
    Sound (m.rescheduleTaskIfNeeded delay) := by
  unfold MarketDepthModel.rescheduleTaskIfNeeded
  simp only
  split
  · exact h.tryCancelTask.schedule delay
  · exact h.tryCancelTask

theorem Sound.eventsReceived {m m' : MarketDepthModel O} (h : Sound m) {d : Delivery (FeedOrder O)}
    (hm : m.eventsReceived d = some m') : Sound m' := by
  obtain ⟨⟨b, changed⟩, -, hm⟩ := Option.bind_eq_some_iff.mp hm
  have hbook : Sound { m with book := b } := ⟨h.hasListener, h.live⟩
  simp only at hm
  split at hm
  next => cases hm; exact hbook
  next =>
    split at hm
    next => exact hbook.tryCancelTask.notify hm
    next => cases hm; exact hbook.schedule _

theorem Sound.setDepthLimit {m m' : MarketDepthModel O} (h : Sound m) {depthLimit : UInt64}
    (hm : m.setDepthLimit depthLimit = some m') : Sound m' := by
  unfold MarketDepthModel.setDepthLimit at hm
  split at hm
  next => cases hm; exact h
  next =>
    refine Sound.notify (Sound.tryCancelTask ⟨?_, ?_⟩) hm
    · exact h.hasListener
    · exact h.live

theorem Sound.setAggregationPeriod {m : MarketDepthModel O} (h : Sound m) (millis : Int64) :
    Sound (m.setAggregationPeriod millis) := by
  unfold MarketDepthModel.setAggregationPeriod
  split
  next => exact h
  next =>
    have hset : Sound { m with aggregationPeriodMillis := millis } := ⟨h.hasListener, h.live⟩
    exact hset.reschedule millis

theorem Sound.step {m m' : MarketDepthModel O} {a : Action O} (h : Sound m)
    (hm : MarketDepthModels.step m a = some m') : Sound m' := by
  cases a with
  | eventsReceived d =>
    simp only [MarketDepthModels.step] at hm
    split at hm
    next => exact h.eventsReceived hm
    next => cases hm; exact h
  | advance id =>
    cases hm
    exact ⟨h.hasListener, taskLive_advance h.live id⟩
  | fire id =>
    simp only [MarketDepthModels.step] at hm
    split at hm
    next =>
      split at hm
      next => cases hm
      next =>
        obtain ⟨m₁, hm₁, rfl⟩ := Option.map_eq_some_iff.mp hm
        rw [notifyListeners_eq h.hasListener] at hm₁
        cases hm₁
        exact ⟨h.hasListener, taskLive_of_unscheduled rfl⟩
    next => cases hm; exact h
  | setDepthLimit depthLimit =>
    simp only [MarketDepthModels.step] at hm
    split at hm
    next => cases hm; exact h
    next => exact h.setDepthLimit hm
  | setAggregationPeriod millis =>
    simp only [MarketDepthModels.step] at hm
    split at hm
    next => cases hm; exact h
    next => cases hm; exact h.setAggregationPeriod millis
  | close => cases hm; exact ⟨h.hasListener, h.live⟩
  | destroy => cases hm; exact ⟨h.hasListener, h.live⟩

theorem sound_built (depthLimit : UInt64) (millis : Int64) :
    Sound (built depthLimit millis : MarketDepthModel O) :=
  ⟨rfl, taskLive_of_unscheduled rfl⟩

/-- A closed model on which nothing is left that could call the listener. -/
structure Quiet (limit : UInt64) (calls : List (Lists O)) (m : MarketDepthModel O) : Prop where
  closed : m.attached = false
  unscheduled : m.taskScheduled = false
  idle : ∀ t ∈ m.timers, t.pending = false
  limit_eq : m.depthLimit = limit
  calls_eq : m.calls = calls

/-- The only action by which the user can call the listener of a quiet model. -/
def KeepsLimit (limit : UInt64) : Action O → Prop
  | .setDepthLimit depthLimit => depthLimit = limit
  | _ => True

theorem mem_modifyTimer {m : MarketDepthModel O} {id : ℕ} {f : Timer → Timer} {t : Timer}
    (h : t ∈ (m.modifyTimer id f).timers) : t ∈ m.timers ∨ ∃ u ∈ m.timers, t = f u := by
  obtain ⟨j, hj⟩ := List.mem_iff_getElem?.mp h
  rw [getElem?_modifyTimer] at hj
  split at hj
  next =>
    obtain ⟨u, hu, rfl⟩ := Option.map_eq_some_iff.mp hj
    exact Or.inr ⟨u, List.mem_of_getElem? hu, rfl⟩
  next => exact Or.inl (List.mem_of_getElem? hj)

theorem Quiet.setAggregationPeriod {limit : UInt64} {calls : List (Lists O)}
    {m : MarketDepthModel O} (h : Quiet limit calls m) (millis : Int64) :
    Quiet limit calls (m.setAggregationPeriod millis) := by
  unfold MarketDepthModel.setAggregationPeriod
  split
  next => exact h
  next =>
    unfold MarketDepthModel.rescheduleTaskIfNeeded
    rcases tryCancelTask_cases { m with aggregationPeriodMillis := millis } with
      hc | ⟨hscheduled, -⟩
    · rw [hc]
      exact ⟨h.closed, h.unscheduled, h.idle, h.limit_eq, h.calls_eq⟩
    · rw [show _ = false from h.unscheduled] at hscheduled
      cases hscheduled

theorem Quiet.not_firing {limit : UInt64} {calls : List (Lists O)} {m : MarketDepthModel O}
    (h : Quiet limit calls m) (id : ℕ) :
    (m.timers[id]?.any fun t => t.phase = .firing) = false := by
  cases ht : m.timers[id]? with
  | none => rfl
  | some t =>
    have hidle := h.idle t (List.mem_of_getElem? ht)
    have hphase : t.phase ≠ .firing := fun hp => by simp [Timer.pending, hp] at hidle
    simpa using hphase

theorem Quiet.step {limit : UInt64} {calls : List (Lists O)} {m : MarketDepthModel O}
    (h : Quiet limit calls m) {a : Action O} (ha : KeepsLimit limit a) :
    ∃ m', MarketDepthModels.step m a = some m' ∧ Quiet limit calls m' := by
  cases a with
  | eventsReceived d => exact ⟨m, by simp [MarketDepthModels.step, h.closed], h⟩
  | advance id =>
    refine ⟨_, rfl, h.closed, h.unscheduled, fun t ht => ?_, h.limit_eq, h.calls_eq⟩
    rcases mem_modifyTimer ht with ht | ⟨u, hu, rfl⟩
    · exact h.idle t ht
    · rw [pending_advance, h.idle u hu]
  | fire id => exact ⟨m, by simp [MarketDepthModels.step, h.not_firing id], h⟩
  | setDepthLimit depthLimit =>
    refine ⟨m, ?_, h⟩
    have hsame : depthLimit = m.depthLimit := ha.trans h.limit_eq.symm
    simp [MarketDepthModels.step, MarketDepthModel.setDepthLimit, hsame]
  | setAggregationPeriod millis =>
    simp only [MarketDepthModels.step]
    split
    next => exact ⟨m, rfl, h⟩
    next => exact ⟨_, rfl, h.setAggregationPeriod millis⟩
  | close => exact ⟨_, rfl, rfl, h.unscheduled, h.idle, h.limit_eq, h.calls_eq⟩
  | destroy => exact ⟨_, rfl, rfl, h.unscheduled, h.idle, h.limit_eq, h.calls_eq⟩

theorem Quiet.silent {m : MarketDepthModel O} (h : Quiet m.depthLimit m.calls m)
    {later : List (Action O)} (hlater : ∀ a ∈ later, KeepsLimit m.depthLimit a) :
    Silent m later := by
  have hmeets : Meets MarketDepthModels.step (fun _ a => KeepsLimit m.depthLimit a) m later :=
    meets_of_mem (fun a ha _ => hlater a ha) m
  obtain ⟨m', hm', hquiet⟩ :=
    (always_of_meets (fun _ _ hs ha => Quiet.step hs ha) h hmeets).last
  exact ⟨m', hm', hquiet.calls_eq⟩

theorem getElem?_advance {m : MarketDepthModel O} {id : ℕ} {t : Timer}
    (h : m.timers[id]? = some t) :
    (m.modifyTimer id Timer.advance).timers[id]? = some t.advance := by
  rw [getElem?_modifyTimer, if_pos rfl, h]
  rfl

theorem not_silent_fire {m : MarketDepthModel O} (hlistener : m.hasListener = true)
    (halive : m.destroyed = false) {id : ℕ} {t : Timer} (ht : m.timers[id]? = some t)
    (hphase : t.phase = .firing) : ¬ Silent m [.fire id] := by
  rintro ⟨m', hm', hcalls⟩
  have hstep : step m (.fire id) =
      some (m.handOver.modifyTimer id fun t => { t with phase := .finishing }) := by
    simp [step, ht, hphase, halive, notifyListeners_eq hlistener]
  rw [run_cons hstep, run_nil] at hm'
  cases hm'
  have := congrArg List.length hcalls
  simp [MarketDepthModel.modifyTimer, MarketDepthModel.handOver] at this

/-- A thread that will run its task calls the listener in the end. -/
theorem not_silent_of_pending {m : MarketDepthModel O} (hlistener : m.hasListener = true)
    (halive : m.destroyed = false) {t : Timer} (ht : t ∈ m.timers) (hpending : t.pending = true) :
    ∃ later : List (Action O), (∀ a ∈ later, KeepsLimit m.depthLimit a) ∧ ¬ Silent m later := by
  obtain ⟨id, hid⟩ := List.mem_iff_getElem?.mp ht
  have hadvance : ∀ (s : MarketDepthModel O) (later : List (Action O)),
      ¬ Silent (s.modifyTimer id Timer.advance) later → ¬ Silent s (.advance id :: later) := by
    rintro s later hloud ⟨m', hm', hcalls⟩
    rw [run_cons (show step s (.advance id) = _ from rfl)] at hm'
    exact hloud ⟨m', hm', hcalls⟩
  have hkeeps : ∀ n, ∀ a ∈ List.replicate n (.advance id) ++ [.fire id],
      KeepsLimit (O := O) m.depthLimit a := by
    intro n a ha
    rcases List.mem_append.mp ha with ha | ha
    · rw [List.eq_of_mem_replicate ha]
      trivial
    · rw [List.mem_singleton.mp ha]
      trivial
  cases hphase : t.phase with
  | firing => exact ⟨[.fire id], hkeeps 0, not_silent_fire hlistener halive hid hphase⟩
  | sleeping =>
    have hrunning : t.isRunning = true := by simpa [Timer.pending, hphase] using hpending
    refine ⟨[.advance id, .fire id], hkeeps 1, hadvance m _ ?_⟩
    exact not_silent_fire (m := m.modifyTimer id Timer.advance) hlistener halive
      (getElem?_advance hid)
      (by simp [Timer.advance, hphase, hrunning])
  | starting =>
    refine ⟨[.advance id, .advance id, .fire id], hkeeps 2, hadvance m _ (hadvance _ _ ?_)⟩
    exact not_silent_fire
      (m := (m.modifyTimer id Timer.advance).modifyTimer id Timer.advance) hlistener halive
      (getElem?_advance (getElem?_advance hid))
      (by simp [Timer.advance, hphase])
  | finishing => simp [Timer.pending, hphase] at hpending
  | done => simp [Timer.pending, hphase] at hpending

theorem not_silent_setDepthLimit {m : MarketDepthModel O} (hlistener : m.hasListener = true)
    (halive : m.destroyed = false) {depthLimit : UInt64} (h : depthLimit ≠ m.depthLimit) :
    ¬ Silent m [.setDepthLimit depthLimit] := by
  rintro ⟨m', hm', hcalls⟩
  obtain ⟨m₁, hm₁, hlater⟩ := Option.bind_eq_some_iff.mp hm'
  cases hlater
  simp only [step, halive, Bool.false_eq_true, if_false, MarketDepthModel.setDepthLimit, h] at hm₁
  have hnotify : ∀ s : MarketDepthModel O, s.tryCancelTask.1.notifyListeners = some m' →
      s.hasListener = true → s.calls = m.calls → False := by
    intro s hm hs hsame
    have hcancel : s.tryCancelTask.1.hasListener = true ∧ s.tryCancelTask.1.calls = s.calls := by
      rcases tryCancelTask_cases s with hc | ⟨-, -, timers, hc⟩ <;> rw [hc] <;> exact ⟨hs, rfl⟩
    rw [notifyListeners_eq hcancel.1] at hm
    cases hm
    have := congrArg List.length hcalls
    simp [MarketDepthModel.handOver, hcancel.2, hsame] at this
  exact hnotify _ hm₁ hlistener rfl

/-- A model that was closed is never detached: it keeps its listener, calls it on every
change of the depth limit, and apart from that is silent exactly when no timer is pending. -/
theorem closed_not_detached (O : OrderKind) (depthLimit : UInt64) (millis : Int64)
    (before : List (Action O)) (m : MarketDepthModel O)
    (hrun : run step (built depthLimit millis) before = some m) (halive : m.destroyed = false) :
    ¬ Detached m.close ∧
      (∀ limit, limit ≠ m.depthLimit → ¬ Silent m.close [.setDepthLimit limit]) ∧
      ((∀ later : List (Action O), (∀ a ∈ later, KeepsLimit m.depthLimit a) →
        Silent m.close later) ↔ ∀ t ∈ m.timers, t.pending = false) := by
  have hsound : Sound m := run_invariant (fun _ _ _ hs hstep => Sound.step hs hstep)
    (sound_built depthLimit millis) hrun
  refine ⟨fun hdetached => ?_, fun limit hlimit => ?_, fun hsilent t ht => ?_,
    fun hidle later => ?_⟩
  · have hgone : m.hasListener = false := hdetached.1
    rw [hsound.hasListener] at hgone
    cases hgone
  · exact not_silent_setDepthLimit (m := m.close) hsound.hasListener halive hlimit
  · by_contra hpending
    obtain ⟨later, hkeeps, hloud⟩ := not_silent_of_pending (m := m.close) hsound.hasListener halive
      ht (by simpa using hpending)
    exact hloud (hsilent later hkeeps)
  · have hunscheduled : m.taskScheduled = false := by
      by_contra hscheduled
      obtain ⟨-, id, -, t, ht, hpending⟩ := hsound.live (by simpa using hscheduled)
      rw [hidle t (List.mem_of_getElem? ht)] at hpending
      cases hpending
    exact Quiet.silent (m := m.close) ⟨rfl, hunscheduled, hidle, rfl, rfl⟩

/-- With a sleeping timer at the close. -/
theorem closed_not_detached_sleeping :
    ∃ m, run step (built 0 1000) [.eventsReceived oneOrder, .advance 0] = some m ∧
      ¬ Detached m.close :=
  ⟨_, rfl, (closed_not_detached .order 0 1000 [.eventsReceived oneOrder, .advance 0] _ rfl rfl).1⟩

/-- The timer that was started before the close calls the listener after it. -/
theorem listener_called_after_close :
    ∃ m, run step (built 0 1000) [.eventsReceived oneOrder, .advance 0, .close] = some m ∧
      ¬ Silent m [.advance 0, .fire 0] := by
  refine ⟨_, rfl, ?_⟩
  rintro ⟨m', hm', hcalls⟩
  cases hm'
  cases hcalls

end MarketDepthModels
