import DxFeedGraal.MarketDepthModels
import Mathlib.Data.List.Forall2

/-! # What the listener of a market depth model is handed

The calls of the listener against a reference that keeps the orders by index and the depth
limit alone: in their order the calls show the reference at ever later moments of the run,
and the last one is up to date unless a task is about to make another. -/
namespace MarketDepthViews

open OrderSources Orders OrderedSet PartialRuns SortedOrderSets MarketDepthBooks
open MarketDepthModels

variable {O : OrderKind}

def advance (r : Reference O) : Action O → Reference O
  | .eventsReceived d => { r with contents := r.contents.delivery d }
  | .setDepthLimit depthLimit => { r with depthLimit := depthLimit }
  | .advance _ | .fire _ | .setAggregationPeriod _ | .close | .destroy => r

/-- The reference after the first actions of a run. -/
def after (depthLimit : UInt64) (actions : List (Action O)) (moment : ℕ) : Reference O :=
  (actions.take moment).foldl advance { depthLimit := depthLimit }

/-- Both lists are the orders of their side, sorted and cut to the limit. -/
def Shows (r : Reference O) (lists : Lists O) : Prop :=
  ∃ orders : BookSide → List (FeedOrder O),
    (∀ side, Sorted (Holds (bookLess side)) (orders side) ∧
      ∀ o, o ∈ orders side ↔ r.contents o.getIndex = some o ∧ sideOf o = side) ∧
    lists = (cut r.depthLimit (orders .buy), cut r.depthLimit (orders .sell))

/-! ## What an action does to the book and the calls -/

/-- The caches and flags of a set apart, two books are the same. -/
structure SameOrders (b b' : Book O) : Prop where
  byIndex : b'.ordersByIndex = b.ordersByIndex
  orders : ∀ side, (b'.side side).orders = (b.side side).orders

theorem SameOrders.refl (b : Book O) : SameOrders b b := ⟨rfl, fun _ => rfl⟩

theorem SameOrders.inv {b b' : Book O} {m : Contents O} (h : SameOrders b b') (hinv : Inv b m) :
    Inv b' m := by
  constructor
  · rw [h.byIndex]
    exact hinv.byIndex
  · exact hinv.keyed
  · intro side
    rw [h.orders]
    exact hinv.held side
  · intro side
    rw [h.orders]
    exact hinv.sorted side

theorem toVector_orders (s : SortedOrderSet (FeedOrder O)) : s.toVector.2.orders = s.orders := by
  unfold SortedOrderSet.toVector
  split <;> rfl

theorem toVector_top {side : BookSide} {s : SortedOrderSet (FeedOrder O)}
    (h : Consistent (bookLess side) s) : s.toVector.1 = s.top := by
  unfold SortedOrderSet.toVector
  split
  next => rfl
  next hdown => exact h.cached (by simpa using hdown)

theorem setDepthLimit_orders (s : SortedOrderSet (FeedOrder O)) (depthLimit : UInt64) :
    (s.setDepthLimit depthLimit).orders = s.orders := by
  unfold SortedOrderSet.setDepthLimit
  split <;> rfl

/-- A model moves on to the orders of a book and a limit, and calls the listener with the
tops of these at most. -/
structure Moves (m : MarketDepthModel O) (b : Book O) (depthLimit : UInt64)
    (m' : MarketDepthModel O) : Prop where
  orders : SameOrders b m'.book
  limit : m'.depthLimit = depthLimit
  attached : m'.attached = m.attached
  calls : m'.calls = m.calls ∨ m'.calls = (m'.top .buy, m'.top .sell) :: m.calls

/-- Cancelling touches no more than the timers. -/
theorem tryCancelTask_keeps (m : MarketDepthModel O) :
    m.tryCancelTask.1.book = m.book ∧ m.tryCancelTask.1.depthLimit = m.depthLimit ∧
      m.tryCancelTask.1.attached = m.attached ∧ m.tryCancelTask.1.calls = m.calls := by
  rcases tryCancelTask_cases m with hc | ⟨-, -, timers, hc⟩ <;> rw [hc] <;>
    exact ⟨rfl, rfl, rfl, rfl⟩

theorem Moves.quiet (m n : MarketDepthModel O) (hattached : n.attached = m.attached)
    (hcalls : n.calls = m.calls) : Moves m n.book n.depthLimit n :=
  ⟨SameOrders.refl n.book, rfl, hattached, Or.inl hcalls⟩

theorem Moves.schedule (m n : MarketDepthModel O) (hattached : n.attached = m.attached)
    (hcalls : n.calls = m.calls) (delay : Int64) :
    Moves m n.book n.depthLimit (n.scheduleTaskIfNeeded delay) := by
  unfold MarketDepthModel.scheduleTaskIfNeeded
  split
  next => exact Moves.quiet m n hattached hcalls
  next => exact ⟨SameOrders.refl n.book, rfl, hattached, Or.inl hcalls⟩

theorem Moves.handOver (m n : MarketDepthModel O) (h : Kept n)
    (hattached : n.attached = m.attached) (hcalls : n.calls = m.calls) :
    Moves m n.book n.depthLimit n.handOver := by
  have hkept : Kept n.handOver := by
    refine ⟨h.hasListener, fun side => ?_, fun side => ?_⟩ <;> rw [side_handOver]
    · exact (toVector_spec _).2.2.trans (h.limits side)
    · exact consistent_toVector (h.consistent side)
  have htop : ∀ side, (n.book.side side).toVector.1 = n.handOver.top side := by
    intro side
    have hlimit : (n.book.side side).toVector.2.depthLimit = (n.book.side side).depthLimit :=
      (toVector_spec _).2.2
    rw [toVector_top (h.consistent side), top_eq hkept, side_handOver, SortedOrderSet.top,
      SortedOrderSet.top, SortedOrderSet.isDepthLimitUnbounded,
      SortedOrderSet.isDepthLimitUnbounded, hlimit, toVector_orders]
  refine ⟨⟨rfl, fun side => ?_⟩, rfl, hattached, Or.inr ?_⟩
  · rw [side_handOver, toVector_orders]
  · rw [← htop, ← htop, ← hcalls]
    rfl

theorem Moves.notifyNow (m n : MarketDepthModel O) {m' : MarketDepthModel O} (h : Kept n)
    (hattached : n.attached = m.attached) (hcalls : n.calls = m.calls)
    (hm' : n.tryCancelTask.1.notifyListeners = some m') : Moves m n.book n.depthLimit m' := by
  obtain ⟨hbook, hlimit, hattached', hcalls'⟩ := tryCancelTask_keeps n
  rw [notifyListeners_eq h.tryCancelTask.hasListener] at hm'
  cases hm'
  rw [← hbook, ← hlimit]
  exact Moves.handOver m _ h.tryCancelTask (hattached'.trans hattached) (hcalls'.trans hcalls)

theorem moves_eventsReceived {m m' : MarketDepthModel O} (h : Good m) {d : Delivery (FeedOrder O)}
    (hd : DeliveryKeepsTops m.book d) (hm' : m.eventsReceived d = some m') :
    ∃ b, m.book.receive d = some b ∧ Moves m b m.depthLimit m' := by
  obtain ⟨b, hb, hkept⟩ := update_cachesKept h.consistent hd
  have hkept' : Kept { m with book := b } :=
    ⟨h.hasListener, fun side => (hkept.limits side).trans (h.limits side), hkept.consistent⟩
  refine ⟨b, by rw [Book.receive, hb]; rfl, ?_⟩
  rw [MarketDepthModel.eventsReceived, hb, Option.bind_some] at hm'
  cases hchanged : (b.buyOrders.isChanged || b.sellOrders.isChanged) with
  | false =>
    rw [hchanged] at hm'
    cases hm'
    exact Moves.quiet m { m with book := b } rfl rfl
  | true =>
    rw [hchanged] at hm'
    simp only [Bool.not_true, Bool.false_eq_true, if_false] at hm'
    split at hm'
    next => exact Moves.notifyNow m { m with book := b } hkept' rfl rfl hm'
    next =>
      cases hm'
      exact Moves.schedule m { m with book := b } rfl rfl m.aggregationPeriodMillis

theorem moves_setDepthLimit {m m' : MarketDepthModel O} (h : Good m) {depthLimit : UInt64}
    (hm' : m.setDepthLimit depthLimit = some m') : Moves m m.book depthLimit m' := by
  unfold MarketDepthModel.setDepthLimit at hm'
  split at hm'
  next hsame =>
    cases hm'
    exact hsame ▸ Moves.quiet m m rfl rfl
  next =>
    let m₀ : MarketDepthModel O := { m with
      depthLimit := depthLimit
      book := { m.book with
        buyOrders := m.book.buyOrders.setDepthLimit depthLimit
        sellOrders := m.book.sellOrders.setDepthLimit depthLimit } }
    have hsides : ∀ side, m₀.book.side side = (m.book.side side).setDepthLimit depthLimit :=
      fun side => by cases side <;> rfl
    have hkept : Kept m₀ := by
      refine ⟨h.hasListener, fun side => ?_, fun side => ?_⟩ <;> rw [hsides]
      · unfold SortedOrderSet.setDepthLimit
        split
        next heq => exact heq
        next => rfl
      · exact consistent_setDepthLimit (h.consistent side) depthLimit
    have hmoves := Moves.notifyNow m m₀ hkept rfl rfl hm'
    have hsame : SameOrders m.book m₀.book := ⟨rfl, fun side => by
      rw [hsides, setDepthLimit_orders]⟩
    exact ⟨⟨hmoves.orders.byIndex.trans hsame.byIndex,
      fun side => (hmoves.orders.orders side).trans (hsame.orders side)⟩, hmoves.limit,
      hmoves.attached, hmoves.calls⟩

theorem Moves.reschedule (m n : MarketDepthModel O) (hattached : n.attached = m.attached)
    (hcalls : n.calls = m.calls) (delay : Int64) :
    Moves m n.book n.depthLimit (n.rescheduleTaskIfNeeded delay) := by
  obtain ⟨hbook, hlimit, hattached', hcalls'⟩ := tryCancelTask_keeps n
  rw [← hbook, ← hlimit]
  unfold MarketDepthModel.rescheduleTaskIfNeeded
  dsimp only
  split
  next => exact Moves.schedule m _ (hattached'.trans hattached) (hcalls'.trans hcalls) delay
  next => exact Moves.quiet m _ (hattached'.trans hattached) (hcalls'.trans hcalls)

theorem moves_setAggregationPeriod (m : MarketDepthModel O) (millis : Int64) :
    Moves m m.book m.depthLimit (m.setAggregationPeriod millis) := by
  unfold MarketDepthModel.setAggregationPeriod
  split
  next => exact Moves.quiet m m rfl rfl
  next => exact Moves.reschedule m { m with aggregationPeriodMillis := millis } rfl rfl millis

/-! ## Runs -/

/-- The condition on an action. -/
def ActionSafe (m : MarketDepthModel O) (a : Action O) : Prop :=
  KeepsNotified m a ∧ ∀ d, a = .eventsReceived d → DeliverySafe m.book d

structure Follows (m : MarketDepthModel O) (r : Reference O) : Prop where
  good : Good m
  attached : m.attached = true
  inv : Inv m.book r.contents
  limit : m.depthLimit = r.depthLimit

theorem Follows.shows {m : MarketDepthModel O} {r : Reference O} (h : Follows m r) :
    Shows r (m.top .buy, m.top .sell) := by
  have htop : ∀ side, m.top side = cut r.depthLimit (m.book.side side).orders := by
    intro side
    rw [← h.limit]
    rfl
  refine ⟨fun side => (m.book.side side).orders, fun side => ⟨h.inv.sorted side, h.inv.held side⟩,
    ?_⟩
  rw [htop, htop]

/-- Step lemma: the model follows the reference, and a call shows it. -/
theorem Follows.step {m : MarketDepthModel O} {r : Reference O} (h : Follows m r) {a : Action O}
    (ha : ActionSafe m a) :
    ∃ m', MarketDepthModels.step m a = some m' ∧ Follows m' (advance r a) ∧
      (m'.calls = m.calls ∨ m'.calls = (m'.top .buy, m'.top .sell) :: m.calls) := by
  obtain ⟨m', hm', hgood⟩ := h.good.step ha.1
  obtain ⟨b, hb, hmoves⟩ : ∃ b, Inv b (advance r a).contents ∧
      Moves m b (advance r a).depthLimit m' := by
    cases a with
    | eventsReceived d =>
      simp only [MarketDepthModels.step, h.attached, if_true] at hm'
      obtain ⟨b, hb, hmoves⟩ := moves_eventsReceived h.good ha.1 hm'
      obtain ⟨b', hb', hinv⟩ := h.inv.delivery (ha.2 d rfl)
      rw [hb] at hb'
      cases hb'
      exact ⟨b, hinv, h.limit ▸ hmoves⟩
    | advance id =>
      cases hm'
      exact ⟨m.book, h.inv, h.limit ▸ Moves.quiet m (m.modifyTimer id Timer.advance) rfl rfl⟩
    | fire id =>
      refine ⟨m.book, h.inv, h.limit ▸ ?_⟩
      simp only [MarketDepthModels.step, h.good.alive, Bool.false_eq_true, if_false,
        notifyListeners_eq h.good.hasListener] at hm'
      split at hm'
      next =>
        cases hm'
        have hmoves := Moves.handOver m m h.good.toKept rfl rfl
        exact ⟨hmoves.orders, hmoves.limit, hmoves.attached, hmoves.calls⟩
      next =>
        cases hm'
        exact Moves.quiet m m rfl rfl
    | setDepthLimit depthLimit =>
      simp only [MarketDepthModels.step, h.good.alive] at hm'
      exact ⟨m.book, h.inv, moves_setDepthLimit h.good hm'⟩
    | setAggregationPeriod millis =>
      simp only [MarketDepthModels.step, h.good.alive] at hm'
      cases hm'
      exact ⟨m.book, h.inv, h.limit ▸ moves_setAggregationPeriod m millis⟩
    | close => exact ha.1.elim
    | destroy => exact ha.1.elim
  exact ⟨m', hm', ⟨hgood, hmoves.attached.trans h.attached, hmoves.orders.inv hb, hmoves.limit⟩,
    hmoves.calls⟩

/-- The calls show the reference at moments of the run, the last call first. -/
def CallsShow (depthLimit : UInt64) (actions : List (Action O)) (calls : List (Lists O)) : Prop :=
  ∃ moments : List ℕ, moments.Pairwise (· > ·) ∧
    List.Forall₂ (fun moment lists => moment ≤ actions.length ∧
      Shows (after depthLimit actions moment) lists) moments calls

theorem after_length (depthLimit : UInt64) (actions : List (Action O)) :
    after depthLimit actions actions.length =
      actions.foldl advance { depthLimit := depthLimit } := by
  rw [after, List.take_length]

theorem moments_le {n : ℕ} {P : ℕ → Lists O → Prop} {moments : List ℕ} {calls : List (Lists O)}
    (h : List.Forall₂ (fun moment lists => moment ≤ n ∧ P moment lists) moments calls) :
    ∀ moment ∈ moments, moment ≤ n := by
  induction h with
  | nil => simp
  | cons hmoment _ ih => exact List.forall_mem_cons.mpr ⟨hmoment.1, ih⟩

theorem CallsShow.extend {depthLimit : UInt64} {done : List (Action O)} {calls : List (Lists O)}
    (h : CallsShow depthLimit done calls) (a : Action O) :
    CallsShow depthLimit (done ++ [a]) calls ∧
      ∀ lists, Shows ((done ++ [a]).foldl advance { depthLimit := depthLimit }) lists →
        CallsShow depthLimit (done ++ [a]) (lists :: calls) := by
  obtain ⟨moments, hdown, hmoments⟩ := h
  have hlater : List.Forall₂ (fun moment lists => moment ≤ (done ++ [a]).length ∧
      Shows (after depthLimit (done ++ [a]) moment) lists) moments calls := by
    refine hmoments.imp fun moment lists hm => ⟨?_, ?_⟩
    · rw [List.length_append]
      exact hm.1.trans (Nat.le_add_right _ _)
    · rw [after, List.take_append_of_le_length hm.1]
      exact hm.2
  refine ⟨⟨moments, hdown, hlater⟩, fun lists hlists => ?_⟩
  refine ⟨(done ++ [a]).length :: moments, List.pairwise_cons.mpr ⟨fun moment hm => ?_, hdown⟩,
    List.Forall₂.cons ⟨le_rfl, ?_⟩ hlater⟩
  · rw [List.length_append]
    exact Nat.lt_of_le_of_lt (moments_le hmoments moment hm)
      (Nat.lt_add_of_pos_right Nat.one_pos)
  · rw [after_length]
    exact hlists

/-- In a run that meets its conditions the listener is handed views of the orders, each of them
later than the one before, and knows the present one unless a task is about to call it. -/
theorem calls_show_the_run (O : OrderKind) (depthLimit : UInt64) (millis : Int64)
    (actions : List (Action O))
    (h : Meets step ActionSafe (built depthLimit millis) actions) :
    ∃ m, run step (built depthLimit millis) actions = some m ∧
      CallsShow depthLimit actions m.calls ∧
      (TaskPending m ∨
        Shows (actions.foldl advance { depthLimit := depthLimit }) m.lastHanded) := by
  have hstep : ∀ m done (a : Action O),
      Follows m (done.foldl advance { depthLimit := depthLimit }) ∧
        CallsShow depthLimit done m.calls → ActionSafe m a →
      ∃ m', step m a = some m' ∧
        Follows m' ((done ++ [a]).foldl advance { depthLimit := depthLimit }) ∧
        CallsShow depthLimit (done ++ [a]) m'.calls := by
    rintro m done a ⟨hfollows, hcalls⟩ ha
    obtain ⟨m', hm', hfollows', hcalls'⟩ := hfollows.step ha
    have hfold : (done ++ [a]).foldl advance { depthLimit := depthLimit } =
        advance (done.foldl advance { depthLimit := depthLimit }) a := by
      rw [List.foldl_append]
      rfl
    refine ⟨m', hm', hfold ▸ hfollows', ?_⟩
    rcases hcalls' with hsame | hcalled
    · rw [hsame]
      exact (hcalls.extend a).1
    · rw [hcalled]
      exact (hcalls.extend a).2 _ (hfold ▸ hfollows'.shows)
  have hfirst : Follows (built depthLimit millis : MarketDepthModel O)
      (([] : List (Action O)).foldl advance { depthLimit := depthLimit }) ∧
        CallsShow depthLimit [] (built depthLimit millis : MarketDepthModel O).calls :=
    ⟨⟨good_built depthLimit millis, rfl, inv_built depthLimit, rfl⟩,
      [], List.Pairwise.nil, List.Forall₂.nil⟩
  obtain ⟨m, hm, hfollows, hcalls⟩ := run_collects hstep hfirst h
  refine ⟨m, hm, hcalls, ?_⟩
  rcases hfollows.good.notified with htop | hpending
  · exact Or.inr (htop ▸ hfollows.shows)
  · exact Or.inl hpending

/-- A task that waits out its period and then shows two deliveries at once. -/
theorem calls_show_two_deliveries :
    ∃ m, run step (built 0 1000)
        [.eventsReceived oneOrder, .advance 0, .eventsReceived ⟨DEFAULT.id, [secondOrder], false⟩,
          .advance 0, .fire 0] = some m ∧
      CallsShow 0
        [.eventsReceived oneOrder, .advance 0, .eventsReceived ⟨DEFAULT.id, [secondOrder], false⟩,
          .advance 0, .fire 0] m.calls ∧
      (TaskPending m ∨
        Shows ([Action.eventsReceived oneOrder, .advance 0,
          .eventsReceived ⟨DEFAULT.id, [secondOrder], false⟩, .advance 0, .fire 0].foldl advance
            { depthLimit := 0 }) m.lastHanded) := by
  apply calls_show_the_run
  have hplain : ∀ (m : MarketDepthModel .order) (d : Delivery (FeedOrder .order)),
      Priced m.book → d.isSnapshot = false → (∀ order ∈ d.events, order.getPrice ≠ .nan) →
      ActionSafe m (.eventsReceived d) := by
    intro m d hpriced hd hevents
    have hnot : ¬ d.isSnapshot = true := by simp [hd]
    have hsafe : DeliverySafe m.book d :=
      deliverySafe_of_priced (by decide) hpriced hevents fun h => absurd h hnot
    refine ⟨⟨fun h => absurd h hnot, hsafe.2⟩, fun d' hd' => ?_⟩
    cases hd'
    exact hsafe
  have htimer : ∀ (m : MarketDepthModel .order) (id : ℕ), ActionSafe m (.advance id) ∧
      ActionSafe m (.fire id) := fun m id => ⟨⟨trivial, by simp⟩, ⟨trivial, by simp⟩⟩
  have hbuilt := priced_built (O := .order) 0
  refine ⟨hplain _ _ hbuilt rfl (by decide), fun m₁ h₁ => ⟨(htimer m₁ 0).1, fun m₂ h₂ => ?_⟩⟩
  cases h₁
  cases h₂
  have hpriced := hbuilt.receive (d := oneOrder) (by decide) rfl
  exact ⟨hplain _ _ hpriced rfl (by decide), fun m₃ _ => ⟨(htimer m₃ 0).1, fun m₄ _ =>
    ⟨(htimer m₄ 0).2, fun _ _ => trivial⟩⟩⟩

end MarketDepthViews
