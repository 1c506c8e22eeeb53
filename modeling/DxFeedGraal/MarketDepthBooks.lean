import DxFeedGraal.ClearingLoops
import Mathlib.Data.List.AList
import Mathlib.Logic.Function.Basic

/-! # The book of a market depth model

Orders are held once by index and once in the sorted set of their side. A delivery may
first drop all orders of its source, then replaces or removes orders one by one. -/
namespace MarketDepthBooks

open OrderSources Orders OrderedSet PartialRuns SortedOrderSets ClearingLoops

variable {O : OrderKind}

structure Book (O : OrderKind) where
  ordersByIndex : AList fun _ : Int64 => FeedOrder O := ∅
  buyOrders : SortedOrderSet (FeedOrder O) := {}
  sellOrders : SortedOrderSet (FeedOrder O) := {}

/-- Every order that is not a buy order goes to the sell side. -/
def sideOf (o : FeedOrder O) : BookSide := if o.getOrderSide = .BUY then .buy else .sell

namespace Book

variable (b : Book O)

def side : BookSide → SortedOrderSet (FeedOrder O)
  | .buy => b.buyOrders
  | .sell => b.sellOrders

def withSide : BookSide → SortedOrderSet (FeedOrder O) → Book O
  | .buy, s => { b with buyOrders := s }
  | .sell, s => { b with sellOrders := s }

/-- The book of a model that was just built. -/
def built (depthLimit : UInt64) : Book O :=
  { buyOrders := SortedOrderSet.setDepthLimit {} depthLimit
    sellOrders := SortedOrderSet.setDepthLimit {} depthLimit }

def insert (order : FeedOrder O) : Option (Book O) :=
  ((b.side (sideOf order)).insert (bookLess (sideOf order)) order).map fun r =>
    b.withSide (sideOf order) r.1

def erase (order : FeedOrder O) : Option (Book O) :=
  ((b.side (sideOf order)).erase (bookLess (sideOf order)) order).map fun r =>
    b.withSide (sideOf order) r.1

/-- The first half of the loop body of `update`. -/
def dropPrevious (order : FeedOrder O) : Option (Book O) :=
  match b.ordersByIndex.lookup order.getIndex with
  | none => some b
  | some removed =>
    { b with ordersByIndex := b.ordersByIndex.erase order.getIndex }.erase removed

def store (order : FeedOrder O) : Option (Book O) :=
  if order.shallAdd then
    { b with ordersByIndex := b.ordersByIndex.insert order.getIndex order }.insert order
  else some b

def applyEvent (order : FeedOrder O) : Option (Book O) :=
  (b.dropPrevious order).bind fun b' => b'.store order

/-- A look at the source of an order ends the process where its index names none. What is
registered at the time makes no difference. -/
def sourcesReadable : Bool :=
  b.ordersByIndex.entries.all fun e => (OrderIndices.getSource [] e.2.data).isSome

/-- The indices are collected first; the sorted sets are then cleared on their own. -/
def clearBySource (source : Int32) : Option (Book O) :=
  if b.sourcesReadable then
    let indices := b.ordersByIndex.entries.filterMap fun e =>
      if IsFrom source e.2 then some e.1 else none
    (b.buyOrders.clearBySource (fromSource [] source)).bind fun buyOrders =>
      (b.sellOrders.clearBySource (fromSource [] source)).map fun sellOrders =>
        { ordersByIndex := indices.foldl (fun m i => m.erase i) b.ordersByIndex
          buyOrders := buyOrders
          sellOrders := sellOrders }
  else none

end Book

/-- What `eventsReceived` gets, for orders of any kind. -/
structure Delivery (α : Type*) where
  source : Int32
  events : List α
  isSnapshot : Bool

namespace Book

/-- The book at the start of the event loop. -/
def beforeEvents (b : Book O) (d : Delivery (FeedOrder O)) : Option (Book O) :=
  if d.isSnapshot then b.clearBySource d.source else some b

/-- `update`: the flag says whether either set may have changed. -/
def update (b : Book O) (d : Delivery (FeedOrder O)) : Option (Book O × Bool) :=
  ((b.beforeEvents d).bind fun b₀ => run applyEvent b₀ d.events).map fun b' =>
    (b', b'.buyOrders.isChanged || b'.sellOrders.isChanged)

def receive (b : Book O) (d : Delivery (FeedOrder O)) : Option (Book O) := (b.update d).map Prod.fst

end Book

/-! ## Reference fold -/

/-- What the book is meant to hold: at most one order for each index. -/
abbrev Contents (O : OrderKind) := Int64 → Option (FeedOrder O)

def Contents.clear (m : Contents O) (source : Int32) : Contents O := fun i =>
  (m i).filter fun o => !IsFrom source o

def Contents.event (m : Contents O) (order : FeedOrder O) : Contents O :=
  Function.update m order.getIndex (if order.shallAdd then some order else none)

def Contents.delivery (m : Contents O) (d : Delivery (FeedOrder O)) : Contents O :=
  d.events.foldl Contents.event (if d.isSnapshot then m.clear d.source else m)

/-- The orders and the depth limit that the calls on a model come to. -/
structure Reference (O : OrderKind) where
  contents : Contents O := fun _ => none
  depthLimit : UInt64

/-- What a depth limit leaves of a list. -/
def cut {α : Type*} (depthLimit : UInt64) (l : List α) : List α :=
  if depthLimit == 0 || depthLimit == 18446744073709551615 then l else l.take depthLimit.toNat

/-- The index map equals the contents and each sorted set holds its part of them, once. -/
structure Mirrors (b : Book O) (m : Contents O) : Prop where
  byIndex : ∀ i, b.ordersByIndex.lookup i = m i
  buy : ∀ o, o ∈ b.buyOrders.orders ↔ m o.getIndex = some o ∧ o.getOrderSide = .BUY
  sell : ∀ o, o ∈ b.sellOrders.orders ↔ m o.getIndex = some o ∧ o.getOrderSide ≠ .BUY
  buy_once : b.buyOrders.orders.Nodup
  sell_once : b.sellOrders.orders.Nodup

/-! ## Conditions of a step -/

/-- The comparisons that handling the order makes have results and are strict weak orders on
the orders of its set. -/
def EventSafe (b : Book O) (order : FeedOrder O) : Prop :=
  (∀ removed ∈ b.ordersByIndex.lookup order.getIndex,
    Accepts (bookLess (sideOf removed)) (b.side (sideOf removed)) removed) ∧
  (order.shallAdd = true → ∀ b' ∈ b.dropPrevious order,
    Accepts (bookLess (sideOf order)) (b'.side (sideOf order)) order)

/-- A snapshot delivery can read the source of every order, finds the orders of its own apart
from one another and from the end of each sorted set, and each of its events can be handled. -/
def DeliverySafe (b : Book O) (d : Delivery (FeedOrder O)) : Prop :=
  (d.isSnapshot = true → b.sourcesReadable = true ∧
    ∀ side, StandApart (fromSource [] d.source) (b.side side).orders) ∧
  ∀ b₀ ∈ b.beforeEvents d, Meets Book.applyEvent EventSafe b₀ d.events

/-! ## The invariant -/

/-- `Mirrors` with the two sides treated alike, and what keeps it going. -/
structure Inv (b : Book O) (m : Contents O) : Prop where
  byIndex : ∀ i, b.ordersByIndex.lookup i = m i
  keyed : ∀ i o, m i = some o → o.getIndex = i
  held : ∀ side o, o ∈ (b.side side).orders ↔ m o.getIndex = some o ∧ sideOf o = side
  sorted : ∀ side, Sorted (Holds (bookLess side)) (b.side side).orders

theorem sideOf_eq_buy (o : FeedOrder O) : sideOf o = .buy ↔ o.getOrderSide = .BUY := by
  unfold sideOf
  split <;> simp_all

theorem sideOf_eq_sell (o : FeedOrder O) : sideOf o = .sell ↔ o.getOrderSide ≠ .BUY := by
  unfold sideOf
  split <;> simp_all

theorem Inv.mirrors {b : Book O} {m : Contents O} (h : Inv b m) : Mirrors b m where
  byIndex := h.byIndex
  buy o := by rw [← sideOf_eq_buy]; exact h.held .buy o
  sell o := by rw [← sideOf_eq_sell]; exact h.held .sell o
  buy_once := (h.sorted .buy).nodup (holds_bookLess_irrefl .buy)
  sell_once := (h.sorted .sell).nodup (holds_bookLess_irrefl .sell)

theorem side_withSide (b : Book O) (side : BookSide) (s : SortedOrderSet (FeedOrder O)) :
    (b.withSide side s).side side = s := by
  cases side <;> rfl

theorem side_withSide_ne (b : Book O) {side other : BookSide} (h : other ≠ side)
    (s : SortedOrderSet (FeedOrder O)) : (b.withSide side s).side other = b.side other := by
  cases side <;> cases other <;> first | rfl | exact absurd rfl h

@[simp] theorem ordersByIndex_withSide (b : Book O) (side : BookSide)
    (s : SortedOrderSet (FeedOrder O)) : (b.withSide side s).ordersByIndex = b.ordersByIndex := by
  cases side <;> rfl

/-- One entry of the contents changes, and with it the map and the set of one side. -/
theorem Inv.update {b : Book O} {m : Contents O} (h : Inv b m)
    {byIndex : AList fun _ : Int64 => FeedOrder O} {changed : BookSide}
    {t : SortedOrderSet (FeedOrder O)} {i : Int64} {new : Option (FeedOrder O)}
    (hbyIndex : ∀ j, byIndex.lookup j = Function.update m i new j)
    (hkeyed : ∀ o, new = some o → o.getIndex = i)
    (hheld : ∀ o, o ∈ t.orders ↔
      Function.update m i new o.getIndex = some o ∧ sideOf o = changed)
    (hother : ∀ o, sideOf o ≠ changed →
      (Function.update m i new o.getIndex = some o ↔ m o.getIndex = some o))
    (hsorted : Sorted (Holds (bookLess changed)) t.orders) :
    Inv (({ b with ordersByIndex := byIndex } : Book O).withSide changed t)
      (Function.update m i new) := by
  have hside : ∀ side, side ≠ changed →
      (({ b with ordersByIndex := byIndex } : Book O).withSide changed t).side side =
        b.side side := by
    intro side hne
    rw [side_withSide_ne _ hne]
    cases side <;> rfl
  constructor
  · intro j
    rw [ordersByIndex_withSide]
    exact hbyIndex j
  · intro j o hm
    by_cases hj : j = i
    · rw [hj, Function.update_self] at hm
      rw [hj]
      exact hkeyed o hm
    · rw [Function.update_of_ne hj] at hm
      exact h.keyed j o hm
  · intro side o
    by_cases hsame : side = changed
    · subst hsame
      rw [side_withSide]
      exact hheld o
    · rw [hside side hsame, h.held]
      constructor
      · rintro ⟨hm, rfl⟩
        exact ⟨(hother o hsame).mpr hm, rfl⟩
      · rintro ⟨hm, rfl⟩
        exact ⟨(hother o hsame).mp hm, rfl⟩
  · intro side
    by_cases hsame : side = changed
    · subst hsame
      rw [side_withSide]
      exact hsorted
    · rw [hside side hsame]
      exact h.sorted side

/-- Without the order of an index the contents are the other ones. -/
theorem Contents.erased_iff {m : Contents O} {order removed : FeedOrder O}
    (hlookup : m order.getIndex = some removed) (hindex : removed.getIndex = order.getIndex)
    (o : FeedOrder O) :
    Function.update m order.getIndex none o.getIndex = some o ↔
      m o.getIndex = some o ∧ o ≠ removed := by
  by_cases hi : o.getIndex = order.getIndex
  · rw [hi, Function.update_self, hlookup]
    refine ⟨fun hm => (Option.some_ne_none o hm.symm).elim, fun hm => ?_⟩
    exact absurd (Option.some.inj hm.1).symm hm.2
  · rw [Function.update_of_ne hi]
    exact ⟨fun hm => ⟨hm, fun heq => hi (heq ▸ hindex)⟩, And.left⟩

/-- With an order of a free index the contents are that order and the old ones. -/
theorem Contents.stored_iff {m : Contents O} {order : FeedOrder O}
    (hfree : m order.getIndex = none) (o : FeedOrder O) :
    Function.update m order.getIndex (some order) o.getIndex = some o ↔
      o = order ∨ m o.getIndex = some o := by
  by_cases hi : o.getIndex = order.getIndex
  · rw [hi, Function.update_self, hfree, Option.some.injEq]
    simp [eq_comm]
  · rw [Function.update_of_ne hi]
    exact ⟨Or.inr, fun hm => hm.resolve_left fun heq => hi (heq ▸ rfl)⟩

/-- One order leaves the contents, its sorted set and the map. -/
theorem Inv.erase {b : Book O} {m : Contents O} (h : Inv b m) {order removed : FeedOrder O}
    (hlookup : m order.getIndex = some removed)
    (hs : Accepts (bookLess (sideOf removed)) (b.side (sideOf removed)) removed) :
    ∃ b', { b with ordersByIndex := b.ordersByIndex.erase order.getIndex }.erase removed = some b' ∧
      Inv b' (Function.update m order.getIndex none) := by
  have hindex := h.keyed _ _ hlookup
  obtain ⟨r, hr⟩ := erase_defined hs
  have hchanged := erase_changedTo hr
  have hweak := hs.1.2
  let b₁ : Book O := { b with ordersByIndex := b.ordersByIndex.erase order.getIndex }
  have hside : ∀ side, b₁.side side = b.side side := fun side => by cases side <;> rfl
  refine ⟨b₁.withSide (sideOf removed) r.1, ?_, ?_⟩
  · rw [Book.erase, hside, hr]
    rfl
  have hcontents := Contents.erased_iff hlookup hindex
  apply h.update
  · intro i
    by_cases hi : i = order.getIndex
    · rw [hi, Function.update_self]
      exact AList.lookup_erase _ _
    · rw [Function.update_of_ne hi, ← h.byIndex]
      exact AList.lookup_erase_ne hi
  · intro o hnone
    cases hnone
  · intro o
    rw [hcontents, hchanged.orders_eq, mem_erase_on hweak (h.sorted _), h.held]
    -- In its set the order is equivalent to itself alone.
    constructor
    · rintro ⟨⟨hm, hsideOf⟩, hne⟩
      refine ⟨⟨hm, fun heq => hne ?_⟩, hsideOf⟩
      rw [heq]
      exact ⟨hweak.1 removed List.mem_cons_self, hweak.1 removed List.mem_cons_self⟩
    · rintro ⟨⟨hm, hne⟩, hsideOf⟩
      refine ⟨⟨hm, hsideOf⟩, fun heq => hne ?_⟩
      have hmem := (h.held (sideOf removed) o).mpr ⟨hm, hsideOf⟩
      have hsame := index_eq_of_equivalent (hs.1.1 o hmem) heq
      rw [← hsame, hindex, hlookup] at hm
      exact (Option.some.inj hm).symm
  · intro o hne
    rw [hcontents]
    exact and_iff_left fun heq => hne (congrArg sideOf heq)
  · rw [hchanged.orders_eq]
    exact (h.sorted _).erase

/-- An order enters contents that have none of its index. -/
theorem Inv.insert {b : Book O} {m : Contents O} (h : Inv b m) {order : FeedOrder O}
    (hfree : m order.getIndex = none)
    (hs : Accepts (bookLess (sideOf order)) (b.side (sideOf order)) order) :
    ∃ b', { b with ordersByIndex := b.ordersByIndex.insert order.getIndex order }.insert order =
        some b' ∧ Inv b' (Function.update m order.getIndex (some order)) := by
  obtain ⟨r, hr⟩ := insert_defined hs
  have hchanged := insert_changedTo hr
  let b₁ : Book O := { b with ordersByIndex := b.ordersByIndex.insert order.getIndex order }
  have hside : ∀ side, b₁.side side = b.side side := fun side => by cases side <;> rfl
  refine ⟨b₁.withSide (sideOf order) r.1, ?_, ?_⟩
  · rw [Book.insert, hside, hr]
    rfl
  have hadded : (OrderedSet.insert (Holds (bookLess (sideOf order))) order
      (b.side (sideOf order)).orders).2 = true := by
    apply insert_added
    intro o ho heq
    have hindex := index_eq_of_equivalent (hs.1.1 o ho) heq
    have hm := ((h.held _ o).mp ho).1
    rw [← hindex, hfree] at hm
    cases hm
  have hcontents := Contents.stored_iff hfree
  apply h.update
  · intro i
    by_cases hi : i = order.getIndex
    · rw [hi, Function.update_self]
      exact AList.lookup_insert _
    · rw [Function.update_of_ne hi, ← h.byIndex]
      exact AList.lookup_insert_ne hi
  · intro o hsome
    rw [Option.some.inj hsome]
  · intro o
    rw [hcontents, hchanged.orders_eq, mem_insert hadded, h.held]
    constructor
    · rintro (rfl | ⟨hm, hsideOf⟩)
      · exact ⟨Or.inl rfl, rfl⟩
      · exact ⟨Or.inr hm, hsideOf⟩
    · rintro ⟨rfl | hm, hsideOf⟩
      · exact Or.inl rfl
      · exact Or.inr ⟨hm, hsideOf⟩
  · intro o hne
    rw [hcontents]
    exact or_iff_right fun heq => hne (congrArg sideOf heq)
  · rw [hchanged.orders_eq]
    exact (h.sorted _).insert_on hs.1.2

theorem Inv.dropPrevious {b : Book O} {m : Contents O} (h : Inv b m) {order : FeedOrder O}
    (hs : EventSafe b order) :
    ∃ b', b.dropPrevious order = some b' ∧ Inv b' (Function.update m order.getIndex none) := by
  unfold Book.dropPrevious
  split
  next hlookup =>
    refine ⟨b, rfl, ?_⟩
    rw [h.byIndex] at hlookup
    rwa [← hlookup, Function.update_eq_self]
  next removed hlookup =>
    exact h.erase (by rw [← h.byIndex]; exact hlookup) (hs.1 removed hlookup)

/-- Step lemma of the event loop. -/
theorem Inv.event {b : Book O} {m : Contents O} {order : FeedOrder O} (h : Inv b m)
    (hs : EventSafe b order) :
    ∃ b', b.applyEvent order = some b' ∧ Inv b' (m.event order) := by
  obtain ⟨b₁, hb₁, h₁⟩ := h.dropPrevious hs
  rw [Book.applyEvent, hb₁, Option.bind_some, Book.store, Contents.event]
  cases hadd : order.shallAdd with
  | false => exact ⟨b₁, rfl, h₁⟩
  | true =>
    obtain ⟨b', hb', h'⟩ := h₁.insert (Function.update_self _ _ _) (hs.2 hadd b₁ hb₁)
    rw [Function.update_idem] at h'
    exact ⟨b', hb', h'⟩

theorem lookup_foldl_erase {α : Type*} (indices : List Int64) (l : AList fun _ : Int64 => α)
    (i : Int64) :
    (indices.foldl (fun m i => m.erase i) l).lookup i =
      if i ∈ indices then none else l.lookup i := by
  induction indices generalizing l with
  | nil => rfl
  | cons j indices ih =>
    rw [List.foldl_cons, ih]
    by_cases hmem : i ∈ indices
    · simp [hmem]
    · by_cases hij : i = j
      · subst hij
        simp
      · simp [hmem, hij, AList.lookup_erase_ne hij]

/-- Both sets can be cleared: so can the book, and each side is the cleared set. -/
theorem clearBySource_of_sides {b : Book O} {source : Int32}
    {P : BookSide → SortedOrderSet (FeedOrder O) → Prop} (hread : b.sourcesReadable = true)
    (h : ∀ side, ∃ t, (b.side side).clearBySource (fromSource [] source) = some t ∧ P side t) :
    ∃ b', b.clearBySource source = some b' ∧
      b'.ordersByIndex = (b.ordersByIndex.entries.filterMap fun e =>
        if IsFrom source e.2 then some e.1 else none).foldl (fun m i => m.erase i)
          b.ordersByIndex ∧
      ∀ side, (b.side side).clearBySource (fromSource [] source) = some (b'.side side) ∧
        P side (b'.side side) := by
  obtain ⟨buy, hbuy, hbuy'⟩ := h .buy
  obtain ⟨sell, hsell, hsell'⟩ := h .sell
  change b.buyOrders.clearBySource (fromSource [] source) = some buy at hbuy
  change b.sellOrders.clearBySource (fromSource [] source) = some sell at hsell
  refine ⟨_, by rw [Book.clearBySource, if_pos hread, hbuy, Option.bind_some, hsell]; rfl, rfl, ?_⟩
  intro side
  cases side with
  | buy => exact ⟨hbuy, hbuy'⟩
  | sell => exact ⟨hsell, hsell'⟩

/-- Dropping a source: the map by its own indices, each set by its loop. -/
theorem Inv.clearBySource {b : Book O} {m : Contents O} (h : Inv b m) {source : Int32}
    (hread : b.sourcesReadable = true)
    (hs : ∀ side, StandApart (fromSource [] source) (b.side side).orders) :
    ∃ b', b.clearBySource source = some b' ∧ Inv b' (m.clear source) := by
  have hclear : ∀ side, ∃ t, (b.side side).clearBySource (fromSource [] source) = some t ∧
      t.orders = (b.side side).orders.filter fun o => !IsFrom source o := by
    intro side
    have hloop := (clearLoop_filter_iff (fromSource [] source) _).mpr (hs side)
    exact ⟨_, by rw [SortedOrderSet.clearBySource, hloop]; rfl, rfl⟩
  obtain ⟨b', hb', hmap, hsides⟩ := clearBySource_of_sides hread hclear
  refine ⟨b', hb', ?_⟩
  have hindices : ∀ i, i ∈ b.ordersByIndex.entries.filterMap (fun e =>
      if IsFrom source e.2 then some e.1 else none) ↔
        ∃ o, m i = some o ∧ IsFrom source o = true := by
    intro i
    rw [List.mem_filterMap]
    constructor
    · rintro ⟨⟨j, o⟩, hmem, he⟩
      split at he
      next hsource =>
        cases he
        refine ⟨o, ?_, hsource⟩
        rw [← h.byIndex]
        exact AList.mem_lookup_iff.mpr hmem
      next => cases he
    · rintro ⟨o, hm, hsource⟩
      rw [← h.byIndex] at hm
      exact ⟨⟨i, o⟩, AList.mem_lookup_iff.mp hm, by simp [hsource]⟩
  constructor
  · intro i
    simp only [hmap, lookup_foldl_erase, hindices, Contents.clear, h.byIndex]
    cases hm : m i with
    | none => simp
    | some o => cases hsource : IsFrom source o <;> simp [Option.filter, hsource]
  · intro i o hm
    exact h.keyed i o (Option.eq_some_of_filter_eq_some hm)
  · intro side o
    have hcontents : (m.clear source) o.getIndex = some o ↔
        m o.getIndex = some o ∧ IsFrom source o = false := by
      simp only [Contents.clear, Option.filter_eq_some_iff]
      simp
    rw [hcontents, (hsides side).2, List.mem_filter, h.held side o]
    simp [and_right_comm]
  · intro side
    rw [(hsides side).2]
    exact (h.sorted side).sublist List.filter_sublist

/-- Step lemma of a run of deliveries. -/
theorem Inv.delivery {b : Book O} {m : Contents O} {d : Delivery (FeedOrder O)} (h : Inv b m)
    (hs : DeliverySafe b d) :
    ∃ b', b.receive d = some b' ∧ Inv b' (m.delivery d) := by
  obtain ⟨b₀, hb₀, h₀⟩ : ∃ b₀, b.beforeEvents d = some b₀ ∧
      Inv b₀ (if d.isSnapshot then m.clear d.source else m) := by
    unfold Book.beforeEvents
    split
    next hsnapshot => exact h.clearBySource (hs.1 hsnapshot).1 (hs.1 hsnapshot).2
    next => exact ⟨b, rfl, h⟩
  have hstep : ∀ b m (order : FeedOrder O), Inv b m → EventSafe b order →
      ∃ b', b.applyEvent order = some b' ∧ Inv b' (Contents.event m order) :=
    fun b m order hi hsafe => hi.event hsafe
  obtain ⟨b', hb', h'⟩ := run_simulates hstep h₀ (hs.2 b₀ hb₀)
  exact ⟨b', by rw [Book.receive, Book.update, hb₀, Option.bind_some, hb']; rfl, h'⟩

theorem inv_built (depthLimit : UInt64) : Inv (Book.built (O := O) depthLimit) fun _ => none := by
  have horders : ∀ side, ((Book.built (O := O) depthLimit).side side).orders = [] := by
    intro side
    cases side <;> simp only [Book.side, Book.built, SortedOrderSet.setDepthLimit] <;> split <;> rfl
  constructor
  · intro i
    exact AList.lookup_empty i
  · intro i o hm
    cases hm
  · intro side o
    rw [horders]
    simp
  · intro side
    rw [horders]
    exact List.Pairwise.nil

/-- Deliveries that meet the condition leave a book that mirrors the reference contents. -/
theorem book_mirrors_reference (O : OrderKind) (depthLimit : UInt64)
    (deliveries : List (Delivery (FeedOrder O)))
    (h : Meets Book.receive DeliverySafe (Book.built depthLimit) deliveries) :
    ∃ b, run Book.receive (Book.built depthLimit) deliveries = some b ∧
      Mirrors b (deliveries.foldl Contents.delivery fun _ => none) := by
  have hstep : ∀ b m (d : Delivery (FeedOrder O)), Inv b m → DeliverySafe b d →
      ∃ b', b.receive d = some b' ∧ Inv b' (Contents.delivery m d) :=
    fun b m d hi hsafe => hi.delivery hsafe
  obtain ⟨b, hb, hinv⟩ := run_simulates hstep (inv_built depthLimit) h
  exact ⟨b, hb, hinv.mirrors⟩

/-! ## Orders with prices -/

/-- Every order of the book has a price. -/
structure Priced (b : Book O) : Prop where
  stored : ∀ e ∈ b.ordersByIndex.entries, e.2.getPrice ≠ .nan
  held : ∀ side, ∀ o ∈ (b.side side).orders, o.getPrice ≠ .nan
  shown : ∀ side, ∀ o ∈ (b.side side).snapshot, o.getPrice ≠ .nan

theorem Priced.accepts (hO : O ≠ .spreadOrder) {b : Book O} (h : Priced b) (side : BookSide)
    {order : FeedOrder O} (horder : order.getPrice ≠ .nan) :
    Accepts (bookLess side) (b.side side) order := by
  have hsearch := searchable_of_priced hO side (List.forall_mem_cons.mpr ⟨horder, h.held side⟩)
  have hshown := searchable_of_priced hO side (List.forall_mem_cons.mpr ⟨horder, h.shown side⟩)
  exact ⟨hsearch, fun _ back hback => hshown.1 back (List.mem_of_getLast? hback)⟩

/-- The map changes, and with it the set of one side. -/
theorem Priced.changed {b : Book O} (h : Priced b) {byIndex : AList fun _ : Int64 => FeedOrder O}
    {changed : BookSide} {t : SortedOrderSet (FeedOrder O)}
    (hbyIndex : ∀ e ∈ byIndex.entries, e.2.getPrice ≠ .nan)
    (horders : ∀ o ∈ t.orders, o.getPrice ≠ .nan)
    (hsnapshot : t.snapshot = (b.side changed).snapshot) :
    Priced (({ b with ordersByIndex := byIndex } : Book O).withSide changed t) := by
  have hside : ∀ side, side ≠ changed →
      (({ b with ordersByIndex := byIndex } : Book O).withSide changed t).side side =
        b.side side := by
    intro side hne
    rw [side_withSide_ne _ hne]
    cases side <;> rfl
  refine ⟨by rwa [ordersByIndex_withSide], fun side => ?_, fun side => ?_⟩
  · by_cases hsame : side = changed
    · subst hsame
      rwa [side_withSide]
    · rw [hside side hsame]
      exact h.held side
  · by_cases hsame : side = changed
    · subst hsame
      rw [side_withSide, hsnapshot]
      exact h.shown side
    · rw [hside side hsame]
      exact h.shown side

theorem Priced.dropPrevious {b b' : Book O} (h : Priced b) {order : FeedOrder O}
    (hb' : b.dropPrevious order = some b') : Priced b' := by
  unfold Book.dropPrevious at hb'
  split at hb'
  next =>
    cases hb'
    exact h
  next removed hlookup =>
    obtain ⟨r, hr, rfl⟩ := Option.map_eq_some_iff.mp hb'
    have hside : ∀ side, ({ b with ordersByIndex := b.ordersByIndex.erase order.getIndex } :
        Book O).side side = b.side side := fun side => by cases side <;> rfl
    rw [hside] at hr
    have hchanged := erase_changedTo hr
    refine h.changed (fun e he => ?_) (fun o ho => ?_) hchanged.snapshot_eq
    · exact h.stored e ((List.kerase_sublist _ _).subset he)
    · rw [hchanged.orders_eq] at ho
      exact h.held _ o ((erase_sublist removed _).subset ho)

theorem Priced.event {b b' : Book O} (h : Priced b) {order : FeedOrder O}
    (horder : order.getPrice ≠ .nan) (hb' : b.applyEvent order = some b') : Priced b' := by
  obtain ⟨b₁, hb₁, hstore⟩ := Option.bind_eq_some_iff.mp hb'
  have h₁ := h.dropPrevious hb₁
  unfold Book.store at hstore
  split at hstore
  next =>
    obtain ⟨r, hr, rfl⟩ := Option.map_eq_some_iff.mp hstore
    have hside : ∀ side, ({ b₁ with
        ordersByIndex := b₁.ordersByIndex.insert order.getIndex order } : Book O).side side =
          b₁.side side := fun side => by cases side <;> rfl
    rw [hside] at hr
    have hchanged := insert_changedTo hr
    refine h₁.changed (fun e he => ?_) (fun o ho => ?_) hchanged.snapshot_eq
    · rcases List.mem_cons.mp he with rfl | he
      · exact horder
      · exact h₁.stored e ((List.kerase_sublist _ _).subset he)
    · rw [hchanged.orders_eq] at ho
      rcases mem_of_mem_insert ho with rfl | ho
      · exact horder
      · exact h₁.held _ o ho
  next =>
    cases hstore
    exact h₁

theorem Priced.beforeEvents {b b₀ : Book O} (h : Priced b) {d : Delivery (FeedOrder O)}
    (hb₀ : b.beforeEvents d = some b₀) : Priced b₀ := by
  unfold Book.beforeEvents at hb₀
  split at hb₀
  next =>
    unfold Book.clearBySource at hb₀
    split at hb₀
    next =>
      obtain ⟨buy, hbuy, hrest⟩ := Option.bind_eq_some_iff.mp hb₀
      obtain ⟨sell, hsell, rfl⟩ := Option.map_eq_some_iff.mp hrest
      have hbuy' := clearBySource_eq hbuy
      have hsell' := clearBySource_eq hsell
      constructor
      · intro e he
        have hlookup := AList.mem_lookup_iff.mpr he
        rw [lookup_foldl_erase] at hlookup
        split at hlookup
        next => cases hlookup
        next => exact h.stored e (AList.mem_lookup_iff.mp hlookup)
      · intro side o ho
        cases side with
        | buy => exact h.held .buy o ((clearLoop_sublist hbuy'.1).subset ho)
        | sell => exact h.held .sell o ((clearLoop_sublist hsell'.1).subset ho)
      · intro side
        cases side with
        | buy => exact hbuy'.2.1 ▸ h.shown .buy
        | sell => exact hsell'.2.1 ▸ h.shown .sell
    next => cases hb₀
  next =>
    cases hb₀
    exact h

theorem Priced.receive {b b' : Book O} (h : Priced b) {d : Delivery (FeedOrder O)}
    (hd : ∀ order ∈ d.events, order.getPrice ≠ .nan) (hb' : b.receive d = some b') :
    Priced b' := by
  obtain ⟨_, hupdate, rfl⟩ := Option.map_eq_some_iff.mp hb'
  obtain ⟨b₁, hb₁, rfl⟩ := Option.map_eq_some_iff.mp hupdate
  obtain ⟨b₀, hb₀, hrun⟩ := Option.bind_eq_some_iff.mp hb₁
  have hmeets : Meets Book.applyEvent (fun _ order => order.getPrice ≠ .nan) b₀ d.events :=
    meets_of_mem (fun order horder _ => hd order horder) b₀
  exact hmeets.run_invariant (fun _ _ _ hb horder hstep => hb.event horder hstep)
    (h.beforeEvents hb₀) hrun

theorem priced_built (depthLimit : UInt64) : Priced (Book.built (O := O) depthLimit) := by
  have hfresh : ∀ side, ((Book.built (O := O) depthLimit).side side).orders = [] ∧
      ((Book.built (O := O) depthLimit).side side).snapshot = [] := by
    intro side
    cases side <;> simp only [Book.side, Book.built, SortedOrderSet.setDepthLimit] <;> split <;>
      exact ⟨rfl, rfl⟩
  refine ⟨fun e he => absurd he List.not_mem_nil, fun side o ho => ?_, fun side o ho => ?_⟩
  · rw [(hfresh side).1] at ho
    cases ho
  · rw [(hfresh side).2] at ho
    cases ho

/-- Orders with a price and a market maker always compare, so only the clearing loop is at
stake. -/
theorem deliverySafe_of_priced (hO : O ≠ .spreadOrder) {b : Book O} (h : Priced b)
    {d : Delivery (FeedOrder O)} (hd : ∀ order ∈ d.events, order.getPrice ≠ .nan)
    (hclear : d.isSnapshot = true → b.sourcesReadable = true ∧
      ∀ side, StandApart (fromSource [] d.source) (b.side side).orders) : DeliverySafe b d := by
  refine ⟨hclear, fun b₀ hb₀ => ?_⟩
  refine meets_of_invariant (fun b order hb horder => ?_)
    (fun b b' order hb horder hb' => hb.event horder hb') (h.beforeEvents hb₀) hd
  refine ⟨fun removed hremoved => hb.accepts hO _ ?_, fun _ b' hb' =>
    (hb.dropPrevious hb').accepts hO _ horder⟩
  exact hb.stored ⟨order.getIndex, removed⟩ (AList.mem_lookup_iff.mp hremoved)

/-- An individual buy order at a fixed price. -/
def buyOrder (index : Int64) : FeedOrder .order where
  data := { index := index, price := .finite 100, size := .finite 10, flags := 7 }

def firstOrder : FeedOrder .order := buyOrder 1
def secondOrder : FeedOrder .order := buyOrder 2

/-- An order of the source `NTV`, which stands in the upper half of its index. -/
def ntvOrder : FeedOrder .order := buyOrder 0x004E545600000001

/-- A snapshot of one order of each of two sources, then a new snapshot of the first one. -/
theorem book_mirrors_replaced_snapshot :
    ∃ b, run Book.receive (Book.built 0)
        [⟨DEFAULT.id, [firstOrder], true⟩, ⟨NTV.id, [ntvOrder], true⟩,
          ⟨DEFAULT.id, [secondOrder], true⟩] = some b ∧
      Mirrors b ([⟨DEFAULT.id, [firstOrder], true⟩, ⟨NTV.id, [ntvOrder], true⟩,
        ⟨DEFAULT.id, [secondOrder], true⟩].foldl Contents.delivery fun _ => none) := by
  apply book_mirrors_reference
  have hpriced₀ := priced_built (O := .order) 0
  refine ⟨deliverySafe_of_priced (by decide) hpriced₀ (by decide) fun _ => ⟨by decide, ?_⟩,
    fun b₁ h₁ => ?_⟩
  · intro side
    cases side <;> decide
  have hpriced₁ := hpriced₀.receive (by decide) h₁
  cases h₁
  refine ⟨deliverySafe_of_priced (by decide) hpriced₁ (by decide) fun _ => ⟨by decide, ?_⟩,
    fun b₂ h₂ => ?_⟩
  · intro side
    cases side <;> decide
  have hpriced₂ := hpriced₁.receive (by decide) h₂
  cases h₂
  refine ⟨deliverySafe_of_priced (by decide) hpriced₂ (by decide) fun _ => ⟨by decide, ?_⟩,
    fun _ _ => trivial⟩
  intro side
  cases side <;> decide

/-- Two neighbouring orders of a source, then an empty snapshot of it: the second one stays. -/
theorem book_keeps_stale_order :
    ¬ ∃ b, run Book.receive (Book.built 0)
        [⟨DEFAULT.id, [firstOrder, secondOrder], true⟩, ⟨NTV.id, [ntvOrder], true⟩,
          ⟨DEFAULT.id, [], true⟩] = some b ∧
      Mirrors b ([⟨DEFAULT.id, [firstOrder, secondOrder], true⟩, ⟨NTV.id, [ntvOrder], true⟩,
        ⟨DEFAULT.id, [], true⟩].foldl Contents.delivery fun _ => none) := by
  rintro ⟨b, hb, hm⟩
  cases hb
  have hstale := ((hm.buy secondOrder).mp (by decide)).1
  revert hstale
  decide

end MarketDepthBooks
