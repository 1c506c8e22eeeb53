import DxFeedGraal.PriceLevelBooks

/-! # What the listener of a price level book is handed

A book against a reference that keeps the orders by index and the depth limit alone: at any
moment of a run a notification hands over the levels of the reference orders, best price
first and cut to the limit. -/
namespace PriceLevelViews

open OrderSources OrderedTotals PartialRuns DoubleValues PriceLevelSets PriceLevelSnapshots
open MarketDepthBooks hiding side_withSide side_withSide_ne ordersByIndex_withSide
open PriceLevelBooks
open Orders

variable {O : OrderKind} {arithmetic : Arithmetic}

/-- A delivery as the feed sends it. -/
def sent (d : Delivery (PricedOrder O)) : Delivery (FeedOrder O) where
  source := d.source
  events := d.events.map PricedOrder.toFeedOrder
  isSnapshot := d.isSnapshot

def advance (r : Reference O) : Action O → Reference O
  | .eventsReceived d => { r with contents := r.contents.delivery (sent d) }
  | .notifyListeners => r
  | .setDepthLimit depthLimit => { r with depthLimit := depthLimit }

/-- Both lists are cut from ladders with one level for each price of the orders. -/
def Shows (r : Reference O) (handed : List Shared × List Shared) : Prop :=
  ∃ orders : List (PricedOrder O), orders.Nodup ∧
    (∀ o, o ∈ orders.map PricedOrder.toFeedOrder ↔ r.contents o.getIndex = some o) ∧
    ∃ ladder : BookSide → List Shared,
      (∀ side, Stands (Less side) Shared.position Carries (ladder side) (volume orders side)) ∧
      handed = (cut r.depthLimit (ladder .buy), cut r.depthLimit (ladder .sell))

/-! ## The orders by index -/

def lookup (b : PriceLevelBook O) : Contents O := fun i =>
  (b.ordersByIndex.lookup i).map PricedOrder.toFeedOrder

theorem lookup_dropped (arithmetic : Arithmetic) (b : PriceLevelBook O) (order : PricedOrder O) :
    lookup (b.dropPrevious arithmetic order) = Function.update (lookup b) order.getIndex none := by
  cases hlookup : b.ordersByIndex.lookup order.getIndex with
  | none =>
    have hsame : b.dropPrevious arithmetic order = b := by
      rw [PriceLevelBook.dropPrevious, hlookup]
    have hfree : lookup b order.getIndex = none := by rw [lookup, hlookup]; rfl
    rw [hsame, ← hfree, Function.update_eq_self]
  | some removed =>
    have herased : (b.dropPrevious arithmetic order).ordersByIndex =
        b.ordersByIndex.erase order.getIndex := by
      rw [PriceLevelBook.dropPrevious, hlookup]
      exact ordersByIndex_withSide _ _ _
    funext i
    rw [lookup, herased]
    by_cases hi : i = order.getIndex
    · rw [hi, Function.update_self, AList.lookup_erase]
      rfl
    · rw [Function.update_of_ne hi, AList.lookup_erase_ne hi]
      rfl

theorem lookup_event (b : PriceLevelBook O) (order : PricedOrder O) :
    lookup (b.applyEvent arithmetic order) = (lookup b).event order.toFeedOrder := by
  have hdropped := lookup_dropped arithmetic b order
  unfold PriceLevelBook.applyEvent PriceLevelBook.store Contents.event
  split
  next =>
    have hinserted : ((PriceLevelBook.insertOrIncrease arithmetic
        { b.dropPrevious arithmetic order with
          ordersByIndex := (b.dropPrevious arithmetic order).ordersByIndex.insert order.getIndex
            order } order).ordersByIndex) =
        (b.dropPrevious arithmetic order).ordersByIndex.insert order.getIndex order :=
      ordersByIndex_withSide _ _ _
    funext i
    rw [lookup, hinserted]
    by_cases hi : i = order.getIndex
    · rw [hi, Function.update_self, AList.lookup_insert]
      rfl
    · rw [Function.update_of_ne hi, AList.lookup_insert_ne hi]
      have hi' := congrFun hdropped i
      rwa [Function.update_of_ne hi] at hi'
  next => exact hdropped

theorem lookup_events (b : PriceLevelBook O) (events : List (PricedOrder O)) :
    lookup (events.foldl (PriceLevelBook.applyEvent arithmetic) b) =
      (events.map PricedOrder.toFeedOrder).foldl Contents.event (lookup b) := by
  induction events generalizing b with
  | nil => rfl
  | cons o events ih => rw [List.foldl_cons, List.map_cons, List.foldl_cons, ih, lookup_event]

theorem lookup_of_mem {b : PriceLevelBook O} {o : FeedOrder O} :
    o ∈ b.orders.map PricedOrder.toFeedOrder ↔ ∃ i, lookup b i = some o := by
  constructor
  · intro ho
    obtain ⟨priced, hpriced, rfl⟩ := List.mem_map.mp ho
    obtain ⟨⟨i, p⟩, hmem, rfl⟩ := List.mem_map.mp hpriced
    exact ⟨i, Option.map_eq_some_iff.mpr ⟨p, AList.mem_lookup_iff.mpr hmem, rfl⟩⟩
  · rintro ⟨i, hi⟩
    obtain ⟨priced, hpriced, rfl⟩ := Option.map_eq_some_iff.mp hi
    refine List.mem_map_of_mem ?_
    exact List.mem_map_of_mem (f := Sigma.snd) (AList.mem_lookup_iff.mp hpriced)

theorem isFrom_priced (source : Int32) (o : PricedOrder O) :
    SortedOrderSets.IsFrom source o.toFeedOrder = (o.getSource.id == source) := by
  obtain ⟨found, hfound⟩ := Option.isSome_iff_exists.mp o.hasSource
  simp [SortedOrderSets.IsFrom, SortedOrderSets.fromSource, PricedOrder.getSource, hfound]

/-- A snapshot of the one source drops every order. -/
theorem lookup_before {source : Int32} {b b₀ : PriceLevelBook O} {d : Delivery (PricedOrder O)}
    (h : Sourced source b) (hsource : d.source = source) (hb₀ : b.beforeEvents d = some b₀) :
    lookup b₀ = if d.isSnapshot then (lookup b).clear d.source else lookup b := by
  unfold PriceLevelBook.beforeEvents at hb₀
  split
  next hsnapshot =>
    rw [if_pos hsnapshot] at hb₀
    rw [hsource] at hb₀ ⊢
    have hnil := (clearBySource_cases hb₀ h.orders).2
    funext i
    have hleft : lookup b₀ i = none := by
      by_contra hsome
      obtain ⟨o, ho⟩ := Option.ne_none_iff_exists'.mp hsome
      have hmem := lookup_of_mem.mpr ⟨i, ho⟩
      rw [hnil] at hmem
      cases hmem
    rw [hleft]
    refine (Option.filter_eq_none_iff.mpr fun o ho => ?_).symm
    obtain ⟨priced, hpriced, rfl⟩ := List.mem_map.mp (lookup_of_mem.mpr ⟨i, ho⟩)
    simp [isFrom_priced, h.orders priced hpriced]
  next hsnapshot =>
    rw [if_neg hsnapshot] at hb₀
    cases hb₀
    rfl

/-- Every order stands under its own index. -/
def Keyed (m : Contents O) : Prop := ∀ i o, m i = some o → o.getIndex = i

theorem Keyed.event {m : Contents O} (h : Keyed m) (order : FeedOrder O) :
    Keyed (m.event order) := by
  intro i o ho
  unfold Contents.event at ho
  by_cases hi : i = order.getIndex
  · rw [hi, Function.update_self] at ho
    split at ho
    next => rw [← Option.some.inj ho, hi]
    next => cases ho
  · rw [Function.update_of_ne hi] at ho
    exact h i o ho

theorem Keyed.delivery {m : Contents O} (h : Keyed m) (d : Delivery (FeedOrder O)) :
    Keyed (m.delivery d) := by
  have hevents : ∀ (events : List (FeedOrder O)) (m : Contents O), Keyed m →
      Keyed (events.foldl Contents.event m) := by
    intro events
    induction events with
    | nil => exact fun m hm => hm
    | cons o events ih => exact fun m hm => ih _ (hm.event o)
  refine hevents d.events _ ?_
  split
  · exact fun i o ho => h i o (Option.eq_some_of_filter_eq_some ho)
  · exact h

theorem nodup_orders {b : PriceLevelBook O} (h : Keyed (lookup b)) : b.orders.Nodup := by
  refine List.Nodup.map_on ?_ b.ordersByIndex.nodupKeys.nodup
  rintro ⟨i, o⟩ hi ⟨j, p⟩ hj hsame
  have hsame : o = p := hsame
  subst hsame
  have hi' := h i o.toFeedOrder (Option.map_eq_some_iff.mpr ⟨o, AList.mem_lookup_iff.mpr hi, rfl⟩)
  have hj' := h j o.toFeedOrder (Option.map_eq_some_iff.mpr ⟨o, AList.mem_lookup_iff.mpr hj, rfl⟩)
  rw [hi'.symm.trans hj']

/-! ## The caches -/

theorem depthLimit_moved {side : BookSide} {s t : SortedPriceLevelSet} {pl : PriceLevel}
    (hm : Moved side s pl t) : t.depthLimit = s.depthLimit := by
  cases hm with
  | resized existing size hmem =>
    exact (mark_keeps (s.numbered.resize side existing size) side existing).2.2.2.2
  | added hfree => exact (mark_keeps _ side _).2.2.2.2
  | removed existing hmem => exact (mark_keeps _ side existing).2.2.2.2
  | missed => rfl

/-- Both caches are in order and stand, as the book does, under one limit. -/
structure Caches (depthLimit : UInt64) (b : PriceLevelBook O) : Prop where
  cached : ∀ side, Cached side (b.side side)
  limits : ∀ side, (b.side side).depthLimit = depthLimit
  limit : b.depthLimit = depthLimit

variable {depthLimit : UInt64}

theorem Caches.moved {b : PriceLevelBook O} (h : Caches depthLimit b) {changed : BookSide}
    {t : SortedPriceLevelSet} {pl : PriceLevel} (hm : Moved changed (b.side changed) pl t) :
    Caches depthLimit (b.withSide changed t) := by
  have hlimit : (b.withSide changed t).depthLimit = b.depthLimit := by cases changed <;> rfl
  refine ⟨fun side => ?_, fun side => ?_, hlimit.trans h.limit⟩ <;>
    by_cases hside : side = changed
  · subst hside
    rw [side_withSide]
    exact (h.cached side).moved hm
  · rw [side_withSide_ne b hside]
    exact h.cached side
  · subst hside
    rw [side_withSide, depthLimit_moved hm]
    exact h.limits side
  · rw [side_withSide_ne b hside]
    exact h.limits side

/-- The map of a book has no part in its caches. -/
theorem Caches.reindexed {b : PriceLevelBook O} (h : Caches depthLimit b)
    (ordersByIndex : AList fun _ : Int64 => PricedOrder O) :
    Caches depthLimit { b with ordersByIndex := ordersByIndex } := by
  refine ⟨fun side => ?_, fun side => ?_, h.limit⟩
  · cases side with
    | buy => exact h.cached .buy
    | sell => exact h.cached .sell
  · cases side with
    | buy => exact h.limits .buy
    | sell => exact h.limits .sell

theorem Caches.event {b : PriceLevelBook O} (h : Caches depthLimit b) (order : PricedOrder O) :
    Caches depthLimit (b.applyEvent arithmetic order) := by
  have hdropped : Caches depthLimit (b.dropPrevious arithmetic order) := by
    unfold PriceLevelBook.dropPrevious
    split
    next => exact h
    next removed _ =>
      have hb := h.reindexed (b.ordersByIndex.erase order.getIndex)
      exact hb.moved (moved_eraseOrDecrease (hb.cached _).toSound _)
  unfold PriceLevelBook.applyEvent PriceLevelBook.store
  split
  next =>
    have hb := hdropped.reindexed
      ((b.dropPrevious arithmetic order).ordersByIndex.insert order.getIndex order)
    exact hb.moved (moved_insertOrIncrease (hb.cached _).toSound _)
  next => exact hdropped

theorem Caches.events {b : PriceLevelBook O} (h : Caches depthLimit b)
    (events : List (PricedOrder O)) :
    Caches depthLimit (events.foldl (PriceLevelBook.applyEvent arithmetic) b) := by
  induction events generalizing b with
  | nil => exact h
  | cons o events ih => exact ih (h.event o)

/-- A snapshot finds no level, neither in a set nor in what was read from it last. -/
def FindsNothingShown (b : PriceLevelBook O) (d : Delivery (PricedOrder O)) : Prop :=
  d.isSnapshot = true → ∀ side, (b.side side).priceLevels = [] ∧ (b.side side).snapshot = []

/-- The flag that clearing lowers tells the truth on an empty set with an empty snapshot. -/
theorem Caches.beforeEvents {b b₀ : PriceLevelBook O} {d : Delivery (PricedOrder O)}
    (h : Caches depthLimit b) (hnothing : FindsNothingShown b d) (hb₀ : b.beforeEvents d = some b₀) :
    Caches depthLimit b₀ := by
  unfold PriceLevelBook.beforeEvents at hb₀
  split at hb₀
  next hsnapshot =>
    have hcleared : ∀ side t, (b.side side).clearBySource d.source = some t →
        Cached side t ∧ t.depthLimit = depthLimit := by
      intro side t ht
      obtain ⟨hlevels, hshown⟩ := hnothing hsnapshot side
      have hsound := (h.cached side).toSound.clearBySource ht
      obtain ⟨priceLevels, hloop, rfl⟩ := cleared_of_clearBySource ht
      rw [hlevels] at hloop
      cases hloop
      refine ⟨{ hsound with current := fun _ => ?_ }, h.limits side⟩
      change (b.side side).snapshot = SortedOrderSets.SortedOrderSet.top _
      rw [hshown]
      exact (List.eq_nil_of_subset_nil (top_subset _)).symm
    obtain ⟨buy, hbuy, hrest⟩ := Option.bind_eq_some_iff.mp hb₀
    obtain ⟨sell, hsell, rfl⟩ := Option.map_eq_some_iff.mp hrest
    refine ⟨fun side => ?_, fun side => ?_, h.limit⟩
    · cases side with
      | buy => exact (hcleared .buy buy hbuy).1
      | sell => exact (hcleared .sell sell hsell).1
    · cases side with
      | buy => exact (hcleared .buy buy hbuy).2
      | sell => exact (hcleared .sell sell hsell).2
  next =>
    cases hb₀
    exact h

/-! ## Runs -/

/-- The condition on an action. -/
def ActionSafe (arithmetic : Arithmetic) (source : Int32) (b : PriceLevelBook O) : Action O → Prop
  | .eventsReceived d =>
    OfSource source d ∧ DeliveryCounted arithmetic b d ∧ FindsNothingShown b d
  | .notifyListeners => True
  | .setDepthLimit _ => True

structure Agrees (source : Int32) (b : PriceLevelBook O) (r : Reference O) : Prop where
  tracks : Tracks source b
  caches : Caches r.depthLimit b
  contents : lookup b = r.contents
  keyed : Keyed r.contents

theorem tracks_of_same {source : Int32} {b : PriceLevelBook O} (b' : PriceLevelBook O)
    (h : Tracks source b)
    (horders : b'.orders = b.orders)
    (hlevels : ∀ side, (b'.side side).priceLevels = (b.side side).priceLevels)
    (hsound : ∀ side, PriceLevelSets.Sound side (b'.side side)) : Tracks source b' := by
  constructor
  · refine ⟨hsound, ?_, fun side => ?_, ?_⟩
    · rw [horders]
      exact h.held.counted
    · unfold Holds
      rw [hlevels, horders]
      exact h.held.holds side
    · rw [horders]
      exact h.held.bounded
  · refine ⟨?_, fun side => ?_⟩
    · rw [horders]
      exact h.sourced.orders
    · rw [hlevels]
      exact h.sourced.levels side

theorem side_notifyListeners (b : PriceLevelBook O) (side : BookSide) :
    b.notifyListeners.2.side side = (b.side side).toVector.2 := by
  cases side <;> rfl

theorem Agrees.notifyListeners {source : Int32} {b : PriceLevelBook O} {r : Reference O}
    (h : Agrees source b r) : Agrees source b.notifyListeners.2 r where
  tracks := by
    refine tracks_of_same _ h.tracks rfl (fun side => ?_) fun side => ?_
    · rw [side_notifyListeners]
      exact (h.caches.cached side).toVector.2.2.2.1
    · rw [side_notifyListeners]
      exact (h.caches.cached side).toSound.toVector
  caches := by
    refine ⟨fun side => ?_, fun side => ?_, h.caches.limit⟩ <;> rw [side_notifyListeners]
    · exact (h.caches.cached side).toVector.1
    · exact (h.caches.cached side).toVector.2.2.2.2.trans (h.caches.limits side)
  contents := h.contents
  keyed := h.keyed

theorem Agrees.setDepthLimit {source : Int32} {b : PriceLevelBook O} {r : Reference O}
    (h : Agrees source b r) (depthLimit : UInt64) :
    Agrees source (b.setDepthLimit depthLimit) { r with depthLimit := depthLimit } := by
  unfold PriceLevelBook.setDepthLimit
  split
  next hsame =>
    have hlimit : r.depthLimit = depthLimit := h.caches.limit.symm.trans hsame.symm
    exact ⟨h.tracks, hlimit ▸ h.caches, h.contents, h.keyed⟩
  next =>
    refine Agrees.notifyListeners ?_
    let b₁ : PriceLevelBook O := { b with
      depthLimit := depthLimit
      buyPriceLevels := b.buyPriceLevels.setDepthLimit depthLimit
      sellPriceLevels := b.sellPriceLevels.setDepthLimit depthLimit }
    have hsides : ∀ side, b₁.side side = (b.side side).setDepthLimit depthLimit := fun side => by
      cases side <;> rfl
    refine ⟨tracks_of_same b₁ h.tracks rfl (fun side => ?_) fun side => ?_,
      ⟨fun side => ?_, fun side => ?_, rfl⟩, h.contents, h.keyed⟩
    · rw [hsides]
      exact (setDepthLimit_keeps _ depthLimit).1
    · rw [hsides]
      exact (h.caches.cached side).toSound.setDepthLimit depthLimit
    · change Cached side (b₁.side side)
      rw [hsides]
      exact (h.caches.cached side).setDepthLimit depthLimit
    · change (b₁.side side).depthLimit = depthLimit
      rw [hsides]
      exact (setDepthLimit_keeps _ depthLimit).2.2

theorem Agrees.delivery (hexact : arithmetic.Exact) {source : Int32} {b : PriceLevelBook O}
    {r : Reference O} (h : Agrees source b r) {d : Delivery (PricedOrder O)}
    (hd : ActionSafe arithmetic source b (.eventsReceived d)) :
    ∃ b', b.receive arithmetic d = some b' ∧
      Agrees source b' { r with contents := r.contents.delivery (sent d) } := by
  obtain ⟨hsource, hcounted, hnothing⟩ := hd
  have hempty : FindsNothing b d := fun hsnapshot side => (hnothing hsnapshot side).1
  obtain ⟨b', hb'⟩ := receive_defined arithmetic hempty
  obtain ⟨hsourced, extra, hheld, hiff⟩ := h.tracks.receive hexact hsource hcounted hb'
  have hzero : extra = fun _ _ => 0 := by
    funext side price
    exact hiff.mpr hempty side price
  refine ⟨b', hb', ⟨hzero ▸ hheld, hsourced⟩, ?_, ?_, h.keyed.delivery (sent d)⟩
  all_goals
    obtain ⟨_, hupdate, rfl⟩ := Option.map_eq_some_iff.mp hb'
    obtain ⟨b₀, hb₀, rfl⟩ := Option.map_eq_some_iff.mp hupdate
  · exact (h.caches.beforeEvents hnothing hb₀).events d.events
  · change lookup (d.events.foldl (PriceLevelBook.applyEvent arithmetic) b₀) = _
    rw [lookup_events, lookup_before h.tracks.sourced hsource.1 hb₀, h.contents]
    rfl

theorem Agrees.step (hexact : arithmetic.Exact) {source : Int32} {b : PriceLevelBook O}
    {r : Reference O} (h : Agrees source b r) {a : Action O}
    (ha : ActionSafe arithmetic source b a) :
    ∃ b', PriceLevelBooks.step arithmetic b a = some b' ∧ Agrees source b' (advance r a) := by
  cases a with
  | eventsReceived d => exact h.delivery hexact ha
  | notifyListeners => exact ⟨_, rfl, h.notifyListeners⟩
  | setDepthLimit depthLimit => exact ⟨_, rfl, h.setDepthLimit depthLimit⟩

theorem Agrees.shows {source : Int32} {b : PriceLevelBook O} {r : Reference O}
    (h : Agrees source b r) : Shows r b.notifyListeners.1 := by
  have hkeyed : Keyed (lookup b) := h.contents ▸ h.keyed
  refine ⟨b.orders, nodup_orders hkeyed, fun o => ?_, fun side => (b.side side).priceLevels,
    fun side => ?_, ?_⟩
  · rw [lookup_of_mem, ← h.contents]
    refine ⟨?_, fun ho => ⟨_, ho⟩⟩
    rintro ⟨i, hi⟩
    rwa [hkeyed i o hi]
  · exact (h.tracks.held.holds side).congr fun price => by rw [Nat.zero_add]
  · have hcut : ∀ side, (b.side side).toVector.1 = cut r.depthLimit (b.side side).priceLevels := by
      intro side
      rw [(h.caches.cached side).toVector.2.1, ← h.caches.limits side]
      rfl
    exact Prod.ext (hcut .buy) (hcut .sell)

theorem agrees_built (O : OrderKind) (source : Int32) (depthLimit : UInt64) :
    Agrees (O := O) source (.built depthLimit) { depthLimit := depthLimit } where
  tracks := tracks_built O source depthLimit
  caches := by
    refine ⟨fun side => ?_, fun side => ?_, rfl⟩ <;> rw [side_built]
    · exact (cached_empty side).setDepthLimit depthLimit
    · exact (setDepthLimit_keeps {} depthLimit).2.2
  contents := rfl
  keyed i o h := by cases h

/-- Whatever the calls and whenever the timers fire: what a notification hands over are the
levels of the orders that the deliveries come to, each of the size of all orders at its price,
cut to the limit that was set last. -/
theorem listener_sees_levels (O : OrderKind) (arithmetic : Arithmetic) (hexact : arithmetic.Exact)
    (source : Int32) (depthLimit : UInt64) (actions : List (Action O))
    (hm : Meets (step arithmetic) (ActionSafe arithmetic source) (.built depthLimit) actions) :
    ∃ b, run (step arithmetic) (.built depthLimit) actions = some b ∧
      Shows (actions.foldl advance { depthLimit := depthLimit }) b.notifyListeners.1 := by
  have hstep : ∀ b r (a : Action O), Agrees source b r → ActionSafe arithmetic source b a →
      ∃ b', PriceLevelBooks.step arithmetic b a = some b' ∧ Agrees source b' (advance r a) :=
    fun b r a h ha => h.step hexact ha
  obtain ⟨b, hb, hagrees⟩ := run_simulates hstep (agrees_built O source depthLimit) hm
  exact ⟨b, hb, hagrees.shows⟩

/-- A snapshot of one order is shown, the level grows, and a limit is set. -/
theorem listener_sees_growing_level :
    ∃ b, run (step unroundedArithmetic) (.built 0)
        [.eventsReceived ⟨DEFAULT.id, [firstPriced], true⟩, .notifyListeners,
          .eventsReceived ⟨DEFAULT.id, [secondPriced], false⟩, .setDepthLimit 1] = some b ∧
      Shows ([Action.eventsReceived ⟨DEFAULT.id, [firstPriced], true⟩, .notifyListeners,
        .eventsReceived ⟨DEFAULT.id, [secondPriced], false⟩, .setDepthLimit 1].foldl advance
          { depthLimit := 0 }) b.notifyListeners.1 := by
  apply listener_sees_levels .order unroundedArithmetic unroundedArithmetic_exact DEFAULT.id 0
  refine ⟨⟨by decide, fun b₀ hb₀ => ?_, fun _ side => ?_⟩, fun b₁ h₁ => ⟨trivial, fun b₂ h₂ =>
    ⟨⟨by decide, fun b₀ hb₀ => ?_, fun h => ?_⟩, fun _ _ => ⟨trivial, fun _ _ => trivial⟩⟩⟩⟩
  · cases hb₀
    refine ⟨fun _ => ⟨⟨by decide, by decide⟩, by decide, fun pl hpl => ?_⟩, fun _ _ => trivial⟩
    exact absurd hpl List.not_mem_nil
  · cases side <;> exact ⟨rfl, rfl⟩
  · cases h₁
    cases h₂
    cases hb₀
    refine ⟨fun _ => ⟨⟨by decide, by decide⟩, by decide, fun pl hpl _ n hn => ?_⟩,
      fun _ _ => trivial⟩
    have hlevel : pl = ⟨0, levelOf firstPriced⟩ := List.mem_singleton.mp hpl
    rw [hlevel] at hn
    have hrational : (10 : ℚ) = n := by simpa [Carries] using Double.finite.inj hn
    have hten : n = 10 := by exact_mod_cast hrational.symm
    subst hten
    decide
  · cases h

end PriceLevelViews
