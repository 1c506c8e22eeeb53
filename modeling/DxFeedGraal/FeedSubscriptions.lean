import DxFeedGraal.Broadcasts
import DxFeedGraal.EntityManagers
import DxFeedGraal.EventMapper
import DxFeedGraal.PartialRuns
import DxFeedGraal.SimpleHandlers
import DxFeedGraal.ThreadPhases
import Mathlib.Logic.Function.Basic

/-! # Feed subscriptions

A subscription attaches one listener of its own to the native subscription when the first
listener is asked for. The native listener knows the subscription by its identifier and calls
the listeners in a task that holds their mutex. Every call, and every batch of events that
native code hands to a native listener, is a thread of its own; steps are taken in any order.
Listeners do not use the subscriptions. -/
namespace FeedSubscriptions

open PartialRuns ThreadPhases Broadcasts EntityManagers SimpleHandlers
open CppNumbers NativeEvents EventClasses EventMapper

/-! ## The classes of events -/

inductive EventT where
  | LastingEvent
  | IndexedEvent
  | TimeSeriesEvent
  | MarketEvent
  | TradeBase
  | OrderBase
  | Quote
  | Profile
  | Summary
  | Greeks
  | Candle
  | Underlying
  | TheoPrice
  | Trade
  | TradeETH
  | Message
  | TimeAndSale
  | Order
  | AnalyticOrder
  | OtcMarketsOrder
  | SpreadOrder
  | Series
  | OptionSale
  | TextMessage
  deriving DecidableEq, Repr

/-- What the class is declared to derive from. -/
def bases : EventT → List EventT
  | .LastingEvent | .IndexedEvent | .MarketEvent | .Message | .TextMessage => []
  | .TimeSeriesEvent => [.IndexedEvent]
  | .TradeBase | .Quote | .Profile | .Summary => [.MarketEvent, .LastingEvent]
  | .OrderBase | .Series | .OptionSale => [.MarketEvent, .IndexedEvent]
  | .Greeks | .Underlying | .TheoPrice => [.MarketEvent, .TimeSeriesEvent, .LastingEvent]
  | .Candle => [.TimeSeriesEvent, .LastingEvent]
  | .TimeAndSale => [.MarketEvent, .TimeSeriesEvent]
  | .Trade | .TradeETH => [.TradeBase]
  | .Order | .SpreadOrder => [.OrderBase]
  | .AnalyticOrder | .OtcMarketsOrder => [.Order]

def upcasts : ℕ → EventT → List EventT
  | 0, c => [c]
  | n + 1, c => c :: (bases c).flatMap (upcasts n)

-- An analytic order is an order, an order base and a market event: no chain is longer.
def isBaseOf (base c : EventT) : Bool := base ∈ upcasts 3 c

def classOf : Event → EventT
  | .quote _ => .Quote
  | .profile _ => .Profile
  | .summary _ => .Summary
  | .greeks _ => .Greeks
  | .candle _ => .Candle
  | .underlying _ => .Underlying
  | .theoPrice _ => .TheoPrice
  | .trade _ => .Trade
  | .tradeETH _ => .TradeETH
  | .message _ => .Message
  | .timeAndSale _ => .TimeAndSale
  | .order _ => .Order
  | .analyticOrder _ => .AnalyticOrder
  | .otcMarketsOrder _ => .OtcMarketsOrder
  | .spreadOrder _ => .SpreadOrder
  | .series _ => .Series
  | .optionSale _ => .OptionSale
  | .textMessage _ => .TextMessage

/-- The dynamic cast of the pointer. -/
def sharedAs (c : EventT) (e : Event) : Option Event :=
  if isBaseOf c (classOf e) then some e else none

/-- A listener for events of any class, or one for those of its own class. -/
structure Listener where
  target : Option EventT := none
  tag : ℕ
  deriving DecidableEq, Repr

def Listener.filteredEvents (listener : Listener) (events : List Event) : List Event :=
  match listener.target with
  | none => events
  | some c => events.filterMap (sharedAs c)

/-- An exception leaves native code no way on, and neither does a null event. -/
def readEvents (number : EventClazz → ℤ) (lib : StandardLibrary) (list : GraalEventList) :
    Option (List Event) :=
  match fromGraalList number lib list with
  | .ok events => events.mapM id
  | .error _ => none

/-! ## States -/

variable {K : Type}

/-- What is asked of a handler. -/
inductive Change where
  | add (listener : Listener) (lowPriority : Bool)
  | remove (id : UInt64)
  deriving DecidableEq, Repr

/-- Where a call stands. It wants `eventListenerMutex_`, holds it with no native listener made
or with one made, wants the mutex of the handler; a batch is resolved, wants the mutex of the
handler, holds it with listeners left to call. `required` tells `addEventListener`, which gives
up without a native listener, from `onEvent`. -/
inductive Phase (K : Type) where
  | entering (subscription : K) (change : Change) (required : Bool)
  | creating (subscription : K) (change : Change) (required : Bool)
  | attaching (subscription : K) (id : Id) (change : Change)
  | changing (subscription : K) (change : Change)
  | resolving (id : Id) (list : GraalEventList)
  | publishing (subscription : K) (events : List Event)
  | calling (subscription : K) (publication : ℕ) (events : List Event)
      (listeners lowPriorityListeners : List (UInt64 × Listener))
  | returned (answer : Option UInt64)

/-- One call of a listener, in the turn of a publication. -/
structure Call where
  id : UInt64
  publication : ℕ
  listener : Listener
  events : List Event

structure State (K : Type) where
  entities : EntityManagers.State Unit K := {}
  /-- The counter of the handlers. -/
  lastId : UInt64 := 0
  /-- By the identifier that the native listener was made with. -/
  eventListenerHandle : K → Option Id := fun _ => none
  eventListenerMutex : K → Option ℕ := fun _ => none
  onEvent : K → SimpleHandler Listener := fun _ => {}
  listenersMutex : K → Option ℕ := fun _ => none
  /-- The native listeners of the native subscription. -/
  attached : K → List Id := fun _ => []
  threads : List (Phase K) := []
  calls : List Call := []
  /-- What happened under the mutexes of the handlers. -/
  history : List (Happening K UInt64 Listener (List Event)) := []
  /-- The turns that were lost to an exception of another listener. -/
  skipped : List (ℕ × UInt64) := []

inductive Action (K : Type) where
  | registerEntity (subscription : K)
  | addEventListener (subscription : K) (listener : Listener)
  /-- `onEvent() += listener`, `onEvent() %= listener` or `onEvent() -= id`. -/
  | onEvent (subscription : K) (change : Change)
  | removeEventListener (subscription : K) (id : UInt64)
  /-- The native subscription hands a batch to its listeners. -/
  | arrive (subscription : K) (list : GraalEventList)
  | advance (thread : ℕ)
  /-- The next listener is called, in the order of the map. -/
  | call (thread place : ℕ)
  /-- The native call or the listener throws. -/
  | throws (thread : ℕ)

/-- A thread goes on; nothing is asked for. -/
def Action.Internal : Action K → Prop
  | .advance _ | .call _ _ | .throws _ => True
  | .registerEntity _ | .addEventListener _ _ | .onEvent _ _ | .removeEventListener _ _
  | .arrive _ _ => False

namespace State

variable (u : State K)

def start (phase : Phase K) : State K := { u with threads := u.threads ++ [phase] }

def moveTo (thread : ℕ) (phase : Phase K) : State K :=
  { u with threads := u.threads.modify thread fun _ => phase }

variable [DecidableEq K]

/-- The handler and the counter after a change, and what it comes to. The check of the counter
and its increment are one step, though the handlers of other subscriptions share it. -/
def change (subscription : K) : Change → State K
  | .add listener lowPriority =>
    let h := u.onEvent subscription
    let added := if lowPriority then h.addLowPriority listener u.lastId else h.add listener u.lastId
    { u with
      lastId := added.2.2
      onEvent := Function.update u.onEvent subscription added.2.1
      history := if added.1 = FAKE_ID then u.history
        else u.history ++ [.joined subscription added.1 listener] }
  | .remove id =>
    { u with
      onEvent := Function.update u.onEvent subscription ((u.onEvent subscription).remove id)
      history := u.history ++ [.left subscription id] }

def answer (subscription : K) : Change → Option UInt64
  | .add listener lowPriority =>
    let h := u.onEvent subscription
    some (if lowPriority then h.addLowPriority listener u.lastId else h.add listener u.lastId).1
  | .remove _ => none

/-- A publication begins with all listeners before it. -/
def publish (thread : ℕ) (subscription : K) (events : List Event) : State K :=
  { u.moveTo thread (.calling subscription (u.history.countP Happening.isPublished) events
      (u.onEvent subscription).listeners (u.onEvent subscription).lowPriorityListeners) with
    listenersMutex := Function.update u.listenersMutex subscription (some thread)
    history := u.history ++ [.published subscription events] }

def unlock (subscription : K) : State K :=
  { u with listenersMutex := Function.update u.listenersMutex subscription none }

def leave (subscription : K) : State K :=
  { u with eventListenerMutex := Function.update u.eventListenerMutex subscription none }

def callNext (thread : ℕ) (subscription : K) (publication : ℕ) (events : List Event)
    (e : UInt64 × Listener) (listeners lowPriorityListeners : List (UInt64 × Listener)) :
    State K :=
  { u.moveTo thread (.calling subscription publication events listeners lowPriorityListeners) with
    calls := u.calls ++ [⟨e.1, publication, e.2, e.2.filteredEvents events⟩] }

variable (number : EventClazz → ℤ) (lib : StandardLibrary)

/-- The next step of a thread, which may have to wait for a mutex. -/
def advance (thread : ℕ) : Phase K → Option (State K)
  | .entering subscription change required =>
    if u.eventListenerMutex subscription ≠ none then none
    else
      match u.eventListenerHandle subscription with
      | some _ => some (u.moveTo thread (.changing subscription change))
      | none =>
        some { u.moveTo thread (.creating subscription change required) with
          eventListenerMutex := Function.update u.eventListenerMutex subscription (some thread) }
  | .creating subscription change required =>
    match (u.entities.managers ()).getId subscription with
    | none =>
      some ((u.moveTo thread (if required then .returned (some FAKE_ID)
        else .changing subscription change)).leave subscription)
    | some id =>
      some { u.moveTo thread (.attaching subscription id change) with
        eventListenerHandle := Function.update u.eventListenerHandle subscription (some id) }
  | .attaching subscription id change =>
    some { (u.moveTo thread (.changing subscription change)).leave subscription with
      attached := Function.update u.attached subscription (u.attached subscription ++ [id]) }
  | .changing subscription change =>
    if u.listenersMutex subscription = none then
      some ((u.change subscription change).moveTo thread (.returned (u.answer subscription change)))
    else none
  | .resolving id list =>
    match (u.entities.managers ()).getEntity id with
    | none => some (u.moveTo thread (.returned none))
    | some subscription =>
      (readEvents number lib list).map fun events =>
        u.moveTo thread (.publishing subscription events)
  | .publishing subscription events =>
    if u.listenersMutex subscription = none then some (u.publish thread subscription events)
    else none
  | .calling subscription _ _ listeners lowPriorityListeners =>
    if listeners = [] ∧ lowPriorityListeners = [] then
      some ((u.moveTo thread (.returned none)).unlock subscription)
    else none
  | .returned _ => none

/-- Those of low priority come after all others. -/
def call (thread place : ℕ) : Phase K → Option (State K)
  | .calling subscription publication events (l :: ls) lowPriorityListeners =>
    (l :: ls)[place]?.map fun e =>
      u.callNext thread subscription publication events e ((l :: ls).eraseIdx place)
        lowPriorityListeners
  | .calling subscription publication events [] lowPriorityListeners =>
    lowPriorityListeners[place]?.map fun e =>
      u.callNext thread subscription publication events e [] (lowPriorityListeners.eraseIdx place)
  | .entering _ _ _ | .creating _ _ _ | .attaching _ _ _ | .changing _ _ | .resolving _ _
  | .publishing _ _ | .returned _ => none

/-- A native listener that was made is kept though it is not attached; the listeners that were
not called yet miss the batch, and the exception goes no further. -/
def throws (thread : ℕ) : Phase K → Option (State K)
  | .creating subscription _ _ =>
    if (u.entities.managers ()).containsEntity subscription then
      some ((u.moveTo thread (.returned none)).leave subscription)
    else none
  | .attaching subscription _ _ => some ((u.moveTo thread (.returned none)).leave subscription)
  | .calling subscription publication _ listeners lowPriorityListeners =>
    some { (u.moveTo thread (.returned none)).unlock subscription with
      skipped := u.skipped ++
        (listeners ++ lowPriorityListeners).map fun e => (publication, e.1) }
  | .entering _ _ _ | .changing _ _ | .resolving _ _ | .publishing _ _ | .returned _ => none

end State

section Steps

variable [DecidableEq K] (number : EventClazz → ℤ) (lib : StandardLibrary)

def step (u : State K) : Action K → Option (State K)
  | .registerEntity subscription =>
    some { u with entities := EntityManagers.step u.entities (.registerEntity () subscription) }
  | .addEventListener subscription listener =>
    some (u.start (.entering subscription (.add listener false) true))
  | .onEvent subscription change => some (u.start (.entering subscription change false))
  | .removeEventListener subscription id => some (u.start (.changing subscription (.remove id)))
  | .arrive subscription list =>
    some { u with
      threads := u.threads ++ (u.attached subscription).map fun id => .resolving id list }
  | .advance thread => u.threads[thread]?.bind (u.advance number lib thread)
  | .call thread place => u.threads[thread]?.bind (u.call thread place)
  | .throws thread => u.threads[thread]?.bind (u.throws thread)

/-- All that a step can do. -/
inductive Moved (u : State K) : Action K → State K → Prop
  | registered (subscription : K) :
      Moved u (.registerEntity subscription)
        { u with entities := EntityManagers.step u.entities (.registerEntity () subscription) }
  | started (action : Action K) (subscription : K) (phase : Phase K)
      (starts : (∃ change required, phase = .entering subscription change required) ∨
        ∃ change, phase = .changing subscription change)
      (asked : ¬ action.Internal) (arrives : ∀ s list, action ≠ .arrive s list) :
      Moved u action (u.start phase)
  | arrived (subscription : K) (list : GraalEventList) :
      Moved u (.arrive subscription list)
        { u with
          threads := u.threads ++ (u.attached subscription).map fun id => .resolving id list }
  | found (thread : ℕ) (subscription : K) (change : Change) (required : Bool)
      (at_thread : u.threads[thread]? = some (.entering subscription change required))
      (known : u.eventListenerHandle subscription ≠ none) :
      Moved u (.advance thread) (u.moveTo thread (.changing subscription change))
  | locked (thread : ℕ) (subscription : K) (change : Change) (required : Bool)
      (at_thread : u.threads[thread]? = some (.entering subscription change required))
      (free : u.eventListenerMutex subscription = none)
      (unknown : u.eventListenerHandle subscription = none) :
      Moved u (.advance thread)
        { u.moveTo thread (.creating subscription change required) with
          eventListenerMutex := Function.update u.eventListenerMutex subscription (some thread) }
  | left (action : Action K) (thread : ℕ) (subscription : K) (phase next : Phase K)
      (at_thread : u.threads[thread]? = some phase)
      (holds : (∃ change required, phase = .creating subscription change required) ∨
        ∃ id change, phase = .attaching subscription id change)
      (leaves : (∃ answer, next = .returned answer) ∨ ∃ change required,
        phase = .creating subscription change required ∧ next = .changing subscription change)
      (internal : action.Internal) :
      Moved u action ((u.moveTo thread next).leave subscription)
  | created (thread : ℕ) (subscription : K) (change : Change) (required : Bool) (id : Id)
      (at_thread : u.threads[thread]? = some (.creating subscription change required))
      (registered : (u.entities.managers ()).getId subscription = some id) :
      Moved u (.advance thread)
        { u.moveTo thread (.attaching subscription id change) with
          eventListenerHandle := Function.update u.eventListenerHandle subscription (some id) }
  | attached (thread : ℕ) (subscription : K) (id : Id) (change : Change)
      (at_thread : u.threads[thread]? = some (.attaching subscription id change)) :
      Moved u (.advance thread)
        { (u.moveTo thread (.changing subscription change)).leave subscription with
          attached := Function.update u.attached subscription (u.attached subscription ++ [id]) }
  | changed (thread : ℕ) (subscription : K) (change : Change)
      (at_thread : u.threads[thread]? = some (.changing subscription change))
      (free : u.listenersMutex subscription = none) :
      Moved u (.advance thread)
        ((u.change subscription change).moveTo thread (.returned (u.answer subscription change)))
  | lost (thread : ℕ) (id : Id) (list : GraalEventList)
      (at_thread : u.threads[thread]? = some (.resolving id list))
      (unknown : (u.entities.managers ()).getEntity id = none) :
      Moved u (.advance thread) (u.moveTo thread (.returned none))
  | resolved (thread : ℕ) (id : Id) (list : GraalEventList) (subscription : K)
      (events : List Event) (at_thread : u.threads[thread]? = some (.resolving id list))
      (known : (u.entities.managers ()).getEntity id = some subscription)
      (read : readEvents number lib list = some events) :
      Moved u (.advance thread) (u.moveTo thread (.publishing subscription events))
  | published (thread : ℕ) (subscription : K) (events : List Event)
      (at_thread : u.threads[thread]? = some (.publishing subscription events))
      (free : u.listenersMutex subscription = none) :
      Moved u (.advance thread) (u.publish thread subscription events)
  | called (thread place : ℕ) (subscription : K) (publication : ℕ) (events : List Event)
      (listeners low listeners' low' : List (UInt64 × Listener)) (e : UInt64 × Listener)
      (at_thread : u.threads[thread]? =
        some (.calling subscription publication events listeners low))
      (picked : (listeners ++ low).Perm (e :: (listeners' ++ low'))) :
      Moved u (.call thread place)
        (u.callNext thread subscription publication events e listeners' low')
  | finished (thread : ℕ) (subscription : K) (publication : ℕ) (events : List Event)
      (at_thread : u.threads[thread]? = some (.calling subscription publication events [] [])) :
      Moved u (.advance thread) ((u.moveTo thread (.returned none)).unlock subscription)
  | cut (thread : ℕ) (subscription : K) (publication : ℕ) (events : List Event)
      (listeners low : List (UInt64 × Listener))
      (at_thread : u.threads[thread]? =
        some (.calling subscription publication events listeners low)) :
      Moved u (.throws thread)
        { (u.moveTo thread (.returned none)).unlock subscription with
          skipped := u.skipped ++ (listeners ++ low).map fun e => (publication, e.1) }

variable {number : EventClazz → ℤ} {lib : StandardLibrary}

theorem perm_eraseIdx {α : Type*} {l : List α} {place : ℕ} {a : α} (ha : l[place]? = some a) :
    l.Perm (a :: l.eraseIdx place) := by
  obtain ⟨hlt, rfl⟩ := List.getElem?_eq_some_iff.mp ha
  exact (List.getElem_cons_eraseIdx_perm hlt).symm

theorem moved_of_call {u v : State K} {thread place : ℕ} {phase : Phase K}
    (hphase : u.threads[thread]? = some phase) (hv : u.call thread place phase = some v) :
    Moved number lib u (.call thread place) v := by
  cases phase with
  | calling subscription publication events listeners low =>
    cases listeners with
    | nil =>
      obtain ⟨e, he, rfl⟩ := Option.map_eq_some_iff.mp hv
      exact .called _ _ _ _ _ _ _ _ _ _ hphase (perm_eraseIdx he)
    | cons l ls =>
      obtain ⟨e, he, rfl⟩ := Option.map_eq_some_iff.mp hv
      exact .called _ _ _ _ _ _ _ _ _ _ hphase ((perm_eraseIdx he).append_right low)
  | entering _ _ _ | creating _ _ _ | attaching _ _ _ | changing _ _ | resolving _ _
  | publishing _ _ | returned _ => cases hv

theorem moved_of_throws {u v : State K} {thread : ℕ} {phase : Phase K}
    (hphase : u.threads[thread]? = some phase) (hv : u.throws thread phase = some v) :
    Moved number lib u (.throws thread) v := by
  cases phase with
  | creating subscription change required =>
    obtain ⟨-, hv⟩ := Option.ite_none_right_eq_some.mp hv
    cases hv
    exact .left _ _ _ _ _ hphase (.inl ⟨change, required, rfl⟩) (.inl ⟨none, rfl⟩) trivial
  | attaching subscription id change =>
    cases hv
    exact .left _ _ _ _ _ hphase (.inr ⟨id, change, rfl⟩) (.inl ⟨none, rfl⟩) trivial
  | calling subscription publication events listeners low =>
    cases hv
    exact .cut _ _ _ _ _ _ hphase
  | entering _ _ _ | changing _ _ | resolving _ _ | publishing _ _ | returned _ => cases hv

theorem moved_of_advance {u v : State K} {thread : ℕ} {phase : Phase K}
    (hphase : u.threads[thread]? = some phase)
    (hv : u.advance number lib thread phase = some v) :
    Moved number lib u (.advance thread) v := by
  cases phase with
  | entering subscription change required =>
    simp only [State.advance] at hv
    split at hv
    next => cases hv
    next hfree =>
      cases hhandle : u.eventListenerHandle subscription with
      | some id =>
        simp only [hhandle] at hv
        cases hv
        exact .found _ _ _ _ hphase (by rw [hhandle]; exact Option.some_ne_none id)
      | none =>
        simp only [hhandle] at hv
        cases hv
        exact .locked _ _ _ _ hphase (not_not.mp hfree) hhandle
  | creating subscription change required =>
    cases hid : (u.entities.managers ()).getId subscription with
    | none =>
      simp only [State.advance, hid] at hv
      cases hv
      refine .left _ _ _ _ _ hphase (.inl ⟨change, required, rfl⟩) ?_ trivial
      cases required
      · exact .inr ⟨change, false, rfl, rfl⟩
      · exact .inl ⟨_, rfl⟩
    | some id =>
      simp only [State.advance, hid] at hv
      cases hv
      exact .created _ _ _ _ _ hphase hid
  | attaching subscription id change =>
    cases hv
    exact .attached _ _ _ _ hphase
  | changing subscription change =>
    obtain ⟨hfree, hv⟩ := Option.ite_none_right_eq_some.mp hv
    cases hv
    exact .changed _ _ _ hphase hfree
  | resolving id list =>
    cases hentity : (u.entities.managers ()).getEntity id with
    | none =>
      simp only [State.advance, hentity] at hv
      cases hv
      exact .lost _ _ _ hphase hentity
    | some subscription =>
      simp only [State.advance, hentity] at hv
      obtain ⟨events, hread, rfl⟩ := Option.map_eq_some_iff.mp hv
      exact .resolved _ _ _ _ _ hphase hentity hread
  | publishing subscription events =>
    obtain ⟨hfree, hv⟩ := Option.ite_none_right_eq_some.mp hv
    cases hv
    exact .published _ _ _ hphase hfree
  | calling subscription publication events listeners low =>
    obtain ⟨⟨rfl, rfl⟩, hv⟩ := Option.ite_none_right_eq_some.mp hv
    cases hv
    exact .finished _ _ _ _ hphase
  | returned answer => cases hv

theorem moved_of_step {u v : State K} {action : Action K}
    (hv : step number lib u action = some v) : Moved number lib u action v := by
  cases action with
  | registerEntity subscription =>
    cases hv
    exact .registered subscription
  | addEventListener subscription listener =>
    cases hv
    exact .started _ subscription _ (.inl ⟨_, _, rfl⟩) not_false (by simp)
  | onEvent subscription change =>
    cases hv
    exact .started _ subscription _ (.inl ⟨_, _, rfl⟩) not_false (by simp)
  | removeEventListener subscription id =>
    cases hv
    exact .started _ subscription _ (.inr ⟨_, rfl⟩) not_false (by simp)
  | arrive subscription list =>
    cases hv
    exact .arrived subscription list
  | advance thread =>
    obtain ⟨phase, hphase, hv⟩ := Option.bind_eq_some_iff.mp hv
    exact moved_of_advance hphase hv
  | call thread place =>
    obtain ⟨phase, hphase, hv⟩ := Option.bind_eq_some_iff.mp hv
    exact moved_of_call hphase hv
  | throws thread =>
    obtain ⟨phase, hphase, hv⟩ := Option.bind_eq_some_iff.mp hv
    exact moved_of_throws hphase hv

end Steps

end FeedSubscriptions
