import DxFeedGraal.MarketDepthBooks
import DxFeedGraal.PriceLevelSnapshots

/-! # Price level books

A market-by-price book over market-by-order events: the orders are held by index, and each
side has a set of price levels that grow and shrink with the orders at their price. A
notification reads both sets; a timer may cause one at any moment. -/
namespace PriceLevelBooks

open OrderSources OrderedSet OrderedTotals PartialRuns DoubleValues MarketDepthBooks
open PriceLevelSets PriceLevelSnapshots
open Orders

variable {O : OrderKind}

/-- An order whose price is a number and whose index names a source. -/
structure PricedOrder (O : OrderKind) extends FeedOrder O where
  price_isNumber : data.price ≠ .nan
  hasSource : (OrderIndices.getSource [] data).isSome = true
  deriving DecidableEq

namespace PricedOrder

variable (o : PricedOrder O)

def getSource : OrderSource := ((OrderIndices.getSource [] o.data).get o.hasSource).1

def side : BookSide := sideOf o.toFeedOrder

end PricedOrder

structure PriceLevelBook (O : OrderKind) where
  ordersByIndex : AList fun _ : Int64 => PricedOrder O := ∅
  buyPriceLevels : SortedPriceLevelSet := {}
  sellPriceLevels : SortedPriceLevelSet := {}
  depthLimit : UInt64 := 0

/-- `PriceLevel(order)`. -/
def levelOf (order : PricedOrder O) : PriceLevel where
  eventSource := order.getSource.id
  side := order.getOrderSide
  price := order.getPrice
  size := order.getSize
  price_isNumber := order.price_isNumber

namespace PriceLevelBook

variable (arithmetic : Arithmetic) (b : PriceLevelBook O)

def side : BookSide → SortedPriceLevelSet
  | .buy => b.buyPriceLevels
  | .sell => b.sellPriceLevels

def withSide : BookSide → SortedPriceLevelSet → PriceLevelBook O
  | .buy, s => { b with buyPriceLevels := s }
  | .sell, s => { b with sellPriceLevels := s }

/-- The constructor. -/
def built (depthLimit : UInt64) : PriceLevelBook O where
  buyPriceLevels := SortedPriceLevelSet.setDepthLimit {} depthLimit
  sellPriceLevels := SortedPriceLevelSet.setDepthLimit {} depthLimit
  depthLimit := depthLimit

def eraseOrDecrease (order : PricedOrder O) : PriceLevelBook O :=
  b.withSide order.side
    ((b.side order.side).eraseOrDecrease order.side arithmetic (levelOf order))

def insertOrIncrease (order : PricedOrder O) : PriceLevelBook O :=
  b.withSide order.side
    ((b.side order.side).insertOrIncrease order.side arithmetic (levelOf order))

/-- The first half of the loop body of `update`. -/
def dropPrevious (order : PricedOrder O) : PriceLevelBook O :=
  match b.ordersByIndex.lookup order.getIndex with
  | none => b
  | some removed =>
    { b with
      ordersByIndex := b.ordersByIndex.erase order.getIndex }.eraseOrDecrease arithmetic removed

def store (order : PricedOrder O) : PriceLevelBook O :=
  if order.shallAdd then
    { b with
      ordersByIndex := b.ordersByIndex.insert order.getIndex order }.insertOrIncrease
        arithmetic order
  else b

def applyEvent (order : PricedOrder O) : PriceLevelBook O :=
  (b.dropPrevious arithmetic order).store arithmetic order

/-- The indices are collected first; the level sets are then cleared on their own. -/
def clearBySource (source : Int32) : Option (PriceLevelBook O) :=
  let indices := b.ordersByIndex.entries.filterMap fun e =>
    if e.2.getSource.id == source then some e.1 else none
  (b.buyPriceLevels.clearBySource source).bind fun buyPriceLevels =>
    (b.sellPriceLevels.clearBySource source).map fun sellPriceLevels =>
      { b with
        ordersByIndex := indices.foldl (fun m i => m.erase i) b.ordersByIndex
        buyPriceLevels := buyPriceLevels
        sellPriceLevels := sellPriceLevels }

/-- The book at the start of the event loop. -/
def beforeEvents (d : Delivery (PricedOrder O)) : Option (PriceLevelBook O) :=
  if d.isSnapshot then b.clearBySource d.source else some b

/-- `update`: the flag says whether either set may have changed. -/
def update (d : Delivery (PricedOrder O)) : Option (PriceLevelBook O × Bool) :=
  (b.beforeEvents d).map fun b₀ =>
    let b' := d.events.foldl (applyEvent arithmetic) b₀
    (b', b'.buyPriceLevels.isChanged || b'.sellPriceLevels.isChanged)

def receive (d : Delivery (PricedOrder O)) : Option (PriceLevelBook O) :=
  (b.update arithmetic d).map Prod.fst

/-- What the listener is handed. -/
def notifyListeners : (List Shared × List Shared) × PriceLevelBook O :=
  ((b.buyPriceLevels.toVector.1, b.sellPriceLevels.toVector.1),
    { b with
      buyPriceLevels := b.buyPriceLevels.toVector.2
      sellPriceLevels := b.sellPriceLevels.toVector.2 })

def setDepthLimit (depthLimit : UInt64) : PriceLevelBook O :=
  if depthLimit = b.depthLimit then b
  else
    { b with
      depthLimit := depthLimit
      buyPriceLevels := b.buyPriceLevels.setDepthLimit depthLimit
      sellPriceLevels := b.sellPriceLevels.setDepthLimit depthLimit }.notifyListeners.2

end PriceLevelBook

inductive Action (O : OrderKind) where
  | eventsReceived (d : Delivery (PricedOrder O))
  | notifyListeners
  | setDepthLimit (depthLimit : UInt64)

def step (arithmetic : Arithmetic) (b : PriceLevelBook O) : Action O → Option (PriceLevelBook O)
  | .eventsReceived d => b.receive arithmetic d
  | .notifyListeners => some b.notifyListeners.2
  | .setDepthLimit depthLimit => some (b.setDepthLimit depthLimit)

/-! ## The size of a price -/

/-- The size of an order, where it is a count. -/
def lots (order : PricedOrder O) : ℕ :=
  match order.getSize with
  | .finite q => q.num.toNat
  | _ => 0

def Counted (order : PricedOrder O) : Prop := 0 < lots order ∧ order.getSize = .finite (lots order)

def At (side : BookSide) (price : WithBot (WithTop ℚ)) (order : PricedOrder O) : Prop :=
  order.side = side ∧ order.getPrice.position = price

instance (side : BookSide) (price : WithBot (WithTop ℚ)) (order : PricedOrder O) :
    Decidable (At side price order) := inferInstanceAs (Decidable (_ ∧ _))

/-- The sizes of all orders of a side at a price. -/
def volume (orders : List (PricedOrder O)) (side : BookSide) (price : WithBot (WithTop ℚ)) : ℕ :=
  ((orders.filter fun o => At side price o).map lots).sum

def PriceLevelBook.orders (b : PriceLevelBook O) : List (PricedOrder O) :=
  b.ordersByIndex.entries.map Sigma.snd

/-- Each side has one level for each price of its orders, of the size of all of them. -/
def Aggregates (b : PriceLevelBook O) : Prop :=
  ∀ side, Holds side (b.side side) (volume b.orders side)

theorem volume_cons (o : PricedOrder O) (orders : List (PricedOrder O)) (side : BookSide)
    (price : WithBot (WithTop ℚ)) :
    volume (o :: orders) side price =
      (if At side price o then lots o else 0) + volume orders side price := by
  unfold volume
  by_cases h : At side price o <;> simp [h]

theorem volume_perm {orders orders' : List (PricedOrder O)} (h : orders.Perm orders')
    (side : BookSide) (price : WithBot (WithTop ℚ)) :
    volume orders side price = volume orders' side price :=
  ((h.filter _).map _).sum_nat

/-- Adding an order moves the volume at its own price. -/
theorem volume_update (o : PricedOrder O) (orders : List (PricedOrder O))
    (extra : BookSide → WithBot (WithTop ℚ) → ℕ) :
    (fun price => extra o.side price + volume (o :: orders) o.side price) =
      Function.update (fun price => extra o.side price + volume orders o.side price)
        o.getPrice.position (extra o.side o.getPrice.position +
          volume orders o.side o.getPrice.position + lots o) := by
  funext price
  rw [volume_cons]
  by_cases h : price = o.getPrice.position
  · subst h
    have hat : At o.side o.getPrice.position o := ⟨rfl, rfl⟩
    rw [Function.update_self, if_pos hat]
    omega
  · have hat : ¬ At o.side price o := fun hat => h hat.2.symm
    rw [Function.update_of_ne h, if_neg hat, Nat.zero_add]

theorem volume_removed (o : PricedOrder O) (orders : List (PricedOrder O))
    (extra : BookSide → WithBot (WithTop ℚ) → ℕ) :
    Function.update (fun price => extra o.side price + volume (o :: orders) o.side price)
        o.getPrice.position (extra o.side o.getPrice.position +
          volume (o :: orders) o.side o.getPrice.position - lots o) =
      fun price => extra o.side price + volume orders o.side price := by
  have hvalue : extra o.side o.getPrice.position +
      volume (o :: orders) o.side o.getPrice.position - lots o =
        extra o.side o.getPrice.position + volume orders o.side o.getPrice.position := by
    have hat : At o.side o.getPrice.position o := ⟨rfl, rfl⟩
    rw [volume_cons, if_pos hat]
    omega
  rw [volume_update, Function.update_idem, hvalue]
  exact Function.update_eq_self o.getPrice.position _

theorem volume_other {o : PricedOrder O} {side : BookSide} (h : side ≠ o.side)
    (orders : List (PricedOrder O)) : volume (o :: orders) side = volume orders side := by
  funext price
  rw [volume_cons, if_neg fun hat => h hat.1.symm, Nat.zero_add]

/-! ## The invariant of the event loop -/

theorem side_withSide (b : PriceLevelBook O) (side : BookSide) (s : SortedPriceLevelSet) :
    (b.withSide side s).side side = s := by
  cases side <;> rfl

theorem side_withSide_ne (b : PriceLevelBook O) {side other : BookSide} (h : other ≠ side)
    (s : SortedPriceLevelSet) : (b.withSide side s).side other = b.side other := by
  cases side <;> cases other <;> first | rfl | exact absurd rfl h

@[simp] theorem ordersByIndex_withSide (b : PriceLevelBook O) (side : BookSide)
    (s : SortedPriceLevelSet) : (b.withSide side s).ordersByIndex = b.ordersByIndex := by
  cases side <;> rfl

/-- The levels hold the sizes of the orders and, besides, an extra that no order accounts
for. -/
structure Held (b : PriceLevelBook O) (extra : BookSide → WithBot (WithTop ℚ) → ℕ) : Prop where
  sound : ∀ side, Sound side (b.side side)
  counted : ∀ o ∈ b.orders, Counted o
  holds : ∀ side, Holds side (b.side side) fun price =>
    extra side price + volume b.orders side price
  bounded : ∀ side price, extra side price + volume b.orders side price ≤ 2 ^ 53

theorem orders_erase {b : PriceLevelBook O} {i : Int64} {removed : PricedOrder O}
    (h : b.ordersByIndex.lookup i = some removed) :
    b.orders.Perm
      (removed ::
        ({ b with ordersByIndex := b.ordersByIndex.erase i } : PriceLevelBook O).orders) := by
  have hkey : i ∈ b.ordersByIndex := AList.lookup_isSome.mp (by rw [h]; rfl)
  obtain ⟨value, before, after, -, hentries, herased⟩ :=
    List.exists_of_kerase (AList.mem_keys.mp hkey)
  have hvalue : value = removed := by
    have hmem : ⟨i, value⟩ ∈ b.ordersByIndex.entries := by
      rw [hentries]
      exact List.mem_append_right before List.mem_cons_self
    have := AList.mem_lookup_iff.mpr hmem
    rw [h] at this
    exact (Option.some.inj this).symm
  unfold PriceLevelBook.orders
  change (b.ordersByIndex.entries.map Sigma.snd).Perm
    (removed :: (b.ordersByIndex.entries.kerase i).map Sigma.snd)
  rw [herased, hentries, List.map_append, List.map_append, List.map_cons, hvalue]
  exact List.perm_middle

theorem orders_insert {b : PriceLevelBook O} {o : PricedOrder O}
    (h : b.ordersByIndex.lookup o.getIndex = none) :
    ({ b with ordersByIndex := b.ordersByIndex.insert o.getIndex o } : PriceLevelBook O).orders =
      o :: b.orders := by
  unfold PriceLevelBook.orders
  rw [AList.entries_insert_of_notMem (AList.lookup_eq_none.mp h), List.map_cons]

/-- One set is exchanged for another. -/
theorem held_withSide {b : PriceLevelBook O} {extra : BookSide → WithBot (WithTop ℚ) → ℕ}
    {changed : BookSide} {t : SortedPriceLevelSet}
    (hsound : ∀ side, side ≠ changed → Sound side (b.side side)) (ht : Sound changed t)
    (hcounted : ∀ o ∈ b.orders, Counted o)
    (hholds : ∀ side, side ≠ changed → Holds side (b.side side) fun price =>
      extra side price + volume b.orders side price)
    (htholds : Holds changed t fun price => extra changed price + volume b.orders changed price)
    (hbounded : ∀ side price, extra side price + volume b.orders side price ≤ 2 ^ 53) :
    Held (b.withSide changed t) extra := by
  have horders : (b.withSide changed t).orders = b.orders := by
    unfold PriceLevelBook.orders
    rw [ordersByIndex_withSide]
  constructor
  · intro side
    by_cases hside : side = changed
    · subst hside
      rwa [side_withSide]
    · rw [side_withSide_ne b hside]
      exact hsound side hside
  · rwa [horders]
  · intro side
    rw [horders]
    by_cases hside : side = changed
    · subst hside
      rwa [side_withSide]
    · rw [side_withSide_ne b hside]
      exact hholds side hside
  · rwa [horders]

/-- An order leaves the map and its level shrinks. -/
theorem Held.erase {arithmetic : Arithmetic} (hexact : arithmetic.Exact) {b : PriceLevelBook O}
    {extra : BookSide → WithBot (WithTop ℚ) → ℕ} (h : Held b extra) {i : Int64}
    {removed : PricedOrder O} (hlookup : b.ordersByIndex.lookup i = some removed) :
    Held ({ b with
      ordersByIndex := b.ordersByIndex.erase i }.eraseOrDecrease arithmetic removed) extra := by
  let b₁ : PriceLevelBook O := { b with ordersByIndex := b.ordersByIndex.erase i }
  have hsides : ∀ side, b₁.side side = b.side side := fun side => by cases side <;> rfl
  have hperm : b.orders.Perm (removed :: b₁.orders) := orders_erase hlookup
  have hcounted : ∀ o ∈ removed :: b₁.orders, Counted o := fun o ho =>
    h.counted o (hperm.mem_iff.mpr ho)
  have hholds : ∀ side, Holds side (b₁.side side) fun price =>
      extra side price + volume (removed :: b₁.orders) side price := by
    intro side
    rw [hsides]
    exact (h.holds side).congr fun price => by rw [volume_perm hperm]
  have hbounded : ∀ side price,
      extra side price + volume (removed :: b₁.orders) side price ≤ 2 ^ 53 := by
    intro side price
    rw [← volume_perm hperm]
    exact h.bounded side price
  have hat : At removed.side removed.getPrice.position removed := ⟨rfl, rfl⟩
  obtain ⟨hpos, hsize⟩ := hcounted removed List.mem_cons_self
  have hsound : ∀ side, Sound side (b₁.side side) := fun side => hsides side ▸ h.sound side
  refine held_withSide (fun side _ => hsound side)
    ((hsound _).moved (moved_eraseOrDecrease (hsound _) _))
    (fun o ho => hcounted o (List.mem_cons_of_mem removed ho)) (fun side hside => ?_) ?_
    fun side price => ?_
  · rw [← volume_other hside]
    exact hholds side
  · have hle : lots removed ≤ extra removed.side removed.getPrice.position +
        volume (removed :: b₁.orders) removed.side removed.getPrice.position := by
      rw [volume_cons, if_pos hat]
      omega
    have hshrunk : Holds removed.side _ _ := eraseOrDecrease_holds hexact (hsound _)
      (hholds removed.side) (show (levelOf removed).size = _ from hsize) hpos hle
      (hbounded _ _)
    change Holds removed.side _ fun price =>
      extra removed.side price + volume b₁.orders removed.side price
    rw [← volume_removed]
    exact hshrunk
  · have hle := hbounded side price
    rw [volume_cons] at hle
    change extra side price + volume b₁.orders side price ≤ 2 ^ 53
    omega

/-- An order whose index is free enters the map and its level grows. -/
theorem Held.insert {arithmetic : Arithmetic} (hexact : arithmetic.Exact) {b : PriceLevelBook O}
    {extra : BookSide → WithBot (WithTop ℚ) → ℕ} (h : Held b extra) {o : PricedOrder O}
    (hfree : b.ordersByIndex.lookup o.getIndex = none) (hcounted : Counted o)
    (hbound : extra o.side o.getPrice.position +
      volume b.orders o.side o.getPrice.position + lots o ≤ 2 ^ 53) :
    Held ({ b with
      ordersByIndex := b.ordersByIndex.insert o.getIndex o }.insertOrIncrease arithmetic o)
        extra := by
  let b₁ : PriceLevelBook O := { b with ordersByIndex := b.ordersByIndex.insert o.getIndex o }
  have hsides : ∀ side, b₁.side side = b.side side := fun side => by cases side <;> rfl
  have horders : b₁.orders = o :: b.orders := orders_insert hfree
  have hsound : ∀ side, Sound side (b₁.side side) := fun side => hsides side ▸ h.sound side
  refine held_withSide (fun side _ => hsound side)
    ((hsound _).moved (moved_insertOrIncrease (hsound _) _)) (fun p hp => ?_)
    (fun side hside => ?_) ?_ fun side price => ?_
  · rw [horders] at hp
    rcases List.mem_cons.mp hp with rfl | hp
    · exact hcounted
    · exact h.counted p hp
  · rw [horders, volume_other hside, hsides]
    exact h.holds side
  · rw [horders, volume_update]
    refine insertOrIncrease_holds hexact (hsound _) ?_ hcounted.2 hcounted.1 hbound
    rw [hsides]
    exact h.holds o.side
  · rw [horders, volume_cons]
    by_cases hat : At side price o
    · obtain ⟨rfl, rfl⟩ := hat
      rw [if_pos ⟨rfl, rfl⟩]
      omega
    · rw [if_neg hat, Nat.zero_add]
      exact h.bounded side price

/-- The condition on an event: it is of a count, and the size of its level stays one. -/
def EventCounted (arithmetic : Arithmetic) (b : PriceLevelBook O) (order : PricedOrder O) : Prop :=
  order.shallAdd = true → Counted order ∧ lots order ≤ 2 ^ 53 ∧
    ∀ pl ∈ ((b.dropPrevious arithmetic order).side order.side).priceLevels,
      pl.position = order.getPrice.position → ∀ n : ℕ, Carries pl n → n + lots order ≤ 2 ^ 53

theorem lookup_dropPrevious (arithmetic : Arithmetic) (b : PriceLevelBook O)
    (order : PricedOrder O) :
    (b.dropPrevious arithmetic order).ordersByIndex.lookup order.getIndex = none := by
  unfold PriceLevelBook.dropPrevious
  cases hlookup : b.ordersByIndex.lookup order.getIndex with
  | none => exact hlookup
  | some removed =>
    change ((PriceLevelBook.withSide _ _ _).ordersByIndex).lookup order.getIndex = none
    rw [ordersByIndex_withSide]
    exact AList.lookup_erase _ _

theorem Held.dropPrevious {arithmetic : Arithmetic} (hexact : arithmetic.Exact)
    {b : PriceLevelBook O} {extra : BookSide → WithBot (WithTop ℚ) → ℕ} (h : Held b extra)
    (order : PricedOrder O) : Held (b.dropPrevious arithmetic order) extra := by
  unfold PriceLevelBook.dropPrevious
  cases hlookup : b.ordersByIndex.lookup order.getIndex with
  | none => exact h
  | some removed => exact h.erase hexact hlookup

/-- Step lemma of the event loop. -/
theorem Held.event {arithmetic : Arithmetic} (hexact : arithmetic.Exact) {b : PriceLevelBook O}
    {extra : BookSide → WithBot (WithTop ℚ) → ℕ} (h : Held b extra) {order : PricedOrder O}
    (hcounted : EventCounted arithmetic b order) : Held (b.applyEvent arithmetic order) extra := by
  have hheld := h.dropPrevious hexact order
  unfold PriceLevelBook.applyEvent PriceLevelBook.store
  split
  next hadd =>
    obtain ⟨hcount, hsmall, hlevel⟩ := hcounted hadd
    refine hheld.insert hexact (lookup_dropPrevious arithmetic b order) hcount ?_
    by_cases hzero : extra order.side order.getPrice.position +
        volume (b.dropPrevious arithmetic order).orders order.side
          order.getPrice.position = 0
    · omega
    · obtain ⟨pl, hpl, hposition⟩ :=
        (hheld.holds order.side).present _ (Nat.pos_of_ne_zero hzero)
      have hcarries := (hheld.holds order.side).carries pl hpl
      rw [hposition] at hcarries
      exact hlevel pl hpl hposition _ hcarries
  next => exact hheld

/-! ## Snapshots of one source -/

/-- The deliveries of a book that was built for one source. -/
def OfSource (source : Int32) (d : Delivery (PricedOrder O)) : Prop :=
  d.source = source ∧ ∀ o ∈ d.events, o.getSource.id = source

instance (source : Int32) (d : Delivery (PricedOrder O)) : Decidable (OfSource source d) :=
  inferInstanceAs (Decidable (_ ∧ _))

structure Sourced (source : Int32) (b : PriceLevelBook O) : Prop where
  orders : ∀ o ∈ b.orders, o.getSource.id = source
  levels : ∀ side, ∀ pl ∈ (b.side side).priceLevels, pl.level.eventSource = source

/-- A level that moves a set leaves its own source there at most. -/
theorem source_of_moved {side : BookSide} {s t : SortedPriceLevelSet} {level : PriceLevel}
    (hs : Sound side s) (hm : Moved side s level t) {source : Int32}
    (h : ∀ pl ∈ s.priceLevels, pl.level.eventSource = source)
    (hlevel : level.eventSource = source) :
    ∀ pl ∈ t.priceLevels, pl.level.eventSource = source := by
  intro pl hpl
  cases hm with
  | resized existing size hmem =>
    rw [(mark_keeps _ side existing).1, hs.numbered.resize_priceLevels hmem] at hpl
    rcases mem_of_mem_insert hpl with rfl | hpl
    · exact h existing hmem
    · exact h pl ((erase_sublist existing s.priceLevels).subset hpl)
  | added hfree =>
    rw [(mark_keeps _ side _).1] at hpl
    rcases mem_of_mem_insert hpl with rfl | hpl
    · exact hlevel
    · exact h pl hpl
  | removed existing hmem =>
    rw [(mark_keeps _ side existing).1] at hpl
    exact h pl ((erase_sublist existing s.priceLevels).subset hpl)
  | missed => exact h pl hpl

theorem sourced_withSide {b : PriceLevelBook O} {source : Int32} {changed : BookSide}
    {t : SortedPriceLevelSet} (horders : ∀ o ∈ b.orders, o.getSource.id = source)
    (hlevels : ∀ side, ∀ pl ∈ (b.side side).priceLevels, pl.level.eventSource = source)
    (ht : ∀ pl ∈ t.priceLevels, pl.level.eventSource = source) :
    Sourced source (b.withSide changed t) := by
  constructor
  · unfold PriceLevelBook.orders
    rwa [ordersByIndex_withSide]
  · intro side
    by_cases hside : side = changed
    · subst hside
      rwa [side_withSide]
    · rw [side_withSide_ne b hside]
      exact hlevels side

theorem Sourced.dropPrevious {arithmetic : Arithmetic} {b : PriceLevelBook O} {source : Int32}
    (h : Sourced source b) (hsound : ∀ side, PriceLevelSets.Sound side (b.side side))
    (order : PricedOrder O) : Sourced source (b.dropPrevious arithmetic order) := by
  unfold PriceLevelBook.dropPrevious
  cases hlookup : b.ordersByIndex.lookup order.getIndex with
  | none => exact h
  | some removed =>
    let b₁ : PriceLevelBook O := { b with ordersByIndex := b.ordersByIndex.erase order.getIndex }
    have hsides : ∀ side, b₁.side side = b.side side := fun side => by cases side <;> rfl
    have hperm : b.orders.Perm (removed :: b₁.orders) := orders_erase hlookup
    have hlevels : ∀ side, ∀ pl ∈ (b₁.side side).priceLevels,
        pl.level.eventSource = source := fun side => hsides side ▸ h.levels side
    have hsound₁ : ∀ side, PriceLevelSets.Sound side (b₁.side side) := fun side =>
      hsides side ▸ hsound side
    refine sourced_withSide (b := b₁)
      (fun o ho => h.orders o (hperm.mem_iff.mpr (List.mem_cons_of_mem removed ho))) hlevels ?_
    exact source_of_moved (hsound₁ _) (moved_eraseOrDecrease (hsound₁ _) _) (hlevels _)
      (h.orders removed (hperm.mem_iff.mpr List.mem_cons_self))

theorem Sourced.event {arithmetic : Arithmetic} {b : PriceLevelBook O} {source : Int32}
    {order : PricedOrder O} (h : Sourced source (b.dropPrevious arithmetic order))
    (hsound : ∀ side, PriceLevelSets.Sound side ((b.dropPrevious arithmetic order).side side))
    (horder : order.getSource.id = source) : Sourced source (b.applyEvent arithmetic order) := by
  unfold PriceLevelBook.applyEvent PriceLevelBook.store
  split
  next =>
    let b₀ := b.dropPrevious arithmetic order
    let b₁ : PriceLevelBook O :=
      { b₀ with ordersByIndex := b₀.ordersByIndex.insert order.getIndex order }
    have hsides : ∀ side, b₁.side side = b₀.side side := fun side => by cases side <;> rfl
    have horders : b₁.orders = order :: b₀.orders :=
      orders_insert (lookup_dropPrevious arithmetic b order)
    have hlevels : ∀ side, ∀ pl ∈ (b₁.side side).priceLevels,
        pl.level.eventSource = source := fun side => hsides side ▸ h.levels side
    have hsound₁ : ∀ side, PriceLevelSets.Sound side (b₁.side side) := fun side =>
      hsides side ▸ hsound side
    refine sourced_withSide (b := b₁) (fun o ho => ?_) hlevels
      (source_of_moved (hsound₁ _) (moved_insertOrIncrease (hsound₁ _) _) (hlevels _) horder)
    rw [horders] at ho
    rcases List.mem_cons.mp ho with rfl | ho
    · exact horder
    · exact h.orders o ho
  next => exact h

/-- The event loop of a delivery of the source. -/
theorem held_events {arithmetic : Arithmetic} (hexact : arithmetic.Exact) {source : Int32}
    {b : PriceLevelBook O} {extra : BookSide → WithBot (WithTop ℚ) → ℕ} (h : Held b extra)
    (hs : Sourced source b) {events : List (PricedOrder O)}
    (hevents : ∀ o ∈ events, o.getSource.id = source)
    (hm : Meets (fun b o => some (b.applyEvent arithmetic o)) (EventCounted arithmetic) b events) :
    Held (events.foldl (PriceLevelBook.applyEvent arithmetic) b) extra ∧
      Sourced source (events.foldl (PriceLevelBook.applyEvent arithmetic) b) := by
  induction events generalizing b with
  | nil => exact ⟨h, hs⟩
  | cons o events ih =>
    have hdropped := h.dropPrevious hexact o
    have hsourced := (hs.dropPrevious h.sound o).event hdropped.sound
      (hevents o List.mem_cons_self)
    exact ih (h.event hexact hm.1) hsourced (fun p hp => hevents p (List.mem_cons_of_mem o hp))
      (hm.2 _ rfl)

theorem length_clearLoop {α : Type*} {p : α → Option Bool} {l l' : List α}
    (h : ∀ a ∈ l, p a = some true) (hl : SortedOrderSets.clearLoop p l = some l') :
    l.length = 2 * l'.length := by
  fun_induction SortedOrderSets.clearLoop p l generalizing l' with
  | case1 =>
    cases hl
    rfl
  | case2 o =>
    rw [h o List.mem_cons_self] at hl
    cases hl
  | case3 o next rest ih₁ ih₂ =>
    rw [h o List.mem_cons_self, Option.bind_some, if_pos rfl] at hl
    obtain ⟨rest', hrest, rfl⟩ := Option.map_eq_some_iff.mp hl
    have hlength := ih₁ (fun a ha => h a (List.mem_cons_of_mem o (List.mem_cons_of_mem next ha)))
      hrest
    simp only [List.length_cons, hlength]
    omega

/-- A set whose levels are all of the source is cleared of every other one. -/
theorem clearBySource_holds {side : BookSide} {s t : SortedPriceLevelSet} {source : Int32}
    {total : WithBot (WithTop ℚ) → ℕ} (h : Holds side s total)
    (hlevels : ∀ pl ∈ s.priceLevels, pl.level.eventSource = source)
    (ht : s.clearBySource source = some t) :
    Holds side t
        (fun price => if price ∈ t.priceLevels.map Shared.position then total price else 0) ∧
      (t.priceLevels = [] ↔ s.priceLevels = []) := by
  obtain ⟨priceLevels, hloop, rfl⟩ := cleared_of_clearBySource ht
  refine ⟨h.sublist (SortedOrderSets.clearLoop_sublist hloop), ?_⟩
  have hlength := length_clearLoop (fun pl hpl => by simpa using hlevels pl hpl) hloop
  rw [← List.length_eq_zero_iff, ← List.length_eq_zero_iff]
  change priceLevels.length = 0 ↔ s.priceLevels.length = 0
  omega

theorem clearBySource_cases {b b₀ : PriceLevelBook O} {source : Int32}
    (h : b.clearBySource source = some b₀) (horders : ∀ o ∈ b.orders, o.getSource.id = source) :
    (∀ side, (b.side side).clearBySource source = some (b₀.side side)) ∧ b₀.orders = [] := by
  obtain ⟨buy, hbuy, hrest⟩ := Option.bind_eq_some_iff.mp h
  obtain ⟨sell, hsell, rfl⟩ := Option.map_eq_some_iff.mp hrest
  refine ⟨fun side => ?_, ?_⟩
  · cases side with
    | buy => exact hbuy
    | sell => exact hsell
  -- Every order is of the source, so every index is erased.
  · refine List.map_eq_nil_iff.mpr (List.eq_nil_iff_forall_not_mem.mpr fun ⟨i, o⟩ hmem => ?_)
    have hlookup := AList.mem_lookup_iff.mpr hmem
    rw [lookup_foldl_erase] at hlookup
    split at hlookup
    next => cases hlookup
    next hi =>
      have hentry := AList.mem_lookup_iff.mp hlookup
      refine hi (List.mem_filterMap.mpr ⟨⟨i, o⟩, hentry, if_pos ?_⟩)
      simpa using horders o (List.mem_map_of_mem hentry)

theorem Held.aggregates_iff {b : PriceLevelBook O} {extra : BookSide → WithBot (WithTop ℚ) → ℕ}
    (h : Held b extra) : Aggregates b ↔ ∀ side price, extra side price = 0 := by
  constructor
  · intro hall side price
    have hcarries : ∀ (pl : Shared) (m n : ℕ), Carries pl m → Carries pl n → m = n := by
      intro pl m n hm hn
      have hmn := hm.symm.trans hn
      simpa using hmn
    have hsame := (h.holds side).unique (hall side) hcarries price
    omega
  · intro hzero side
    exact (h.holds side).congr fun price => by rw [hzero, Nat.zero_add]

/-! ## Deliveries -/

/-- Each event of the delivery meets its condition when its turn comes. -/
def DeliveryCounted (arithmetic : Arithmetic) (b : PriceLevelBook O)
    (d : Delivery (PricedOrder O)) : Prop :=
  ∀ b₀ ∈ b.beforeEvents d,
    Meets (fun b o => some (b.applyEvent arithmetic o)) (EventCounted arithmetic) b₀ d.events

/-- A snapshot finds no level to clear. -/
def FindsNothing (b : PriceLevelBook O) (d : Delivery (PricedOrder O)) : Prop :=
  d.isSnapshot = true → ∀ side, (b.side side).priceLevels = []

/-- The levels account for the orders and for nothing else. -/
structure Tracks (source : Int32) (b : PriceLevelBook O) : Prop where
  held : Held b fun _ _ => 0
  sourced : Sourced source b

/-- What the clearing loops leave has no order any more. -/
theorem Tracks.beforeEvents {source : Int32} {b b₀ : PriceLevelBook O}
    {d : Delivery (PricedOrder O)} (h : Tracks source b) (hsource : d.source = source) (hb₀ : b.beforeEvents d = some b₀) :
    ∃ extra, Held b₀ extra ∧ Sourced source b₀ ∧
      ((∀ side price, extra side price = 0) ↔ FindsNothing b d) := by
  unfold PriceLevelBook.beforeEvents at hb₀
  split at hb₀
  next hsnapshot =>
    rw [hsource] at hb₀
    obtain ⟨hsides, horders⟩ := clearBySource_cases hb₀ h.sourced.orders
    have hcleared := fun side =>
      clearBySource_holds (h.held.holds side) (h.sourced.levels side) (hsides side)
    have hvolume : ∀ side price, volume b₀.orders side price = 0 := fun side price => by
      rw [horders]
      rfl
    have hsublist : ∀ side, (b₀.side side).priceLevels.Sublist (b.side side).priceLevels := by
      intro side
      obtain ⟨priceLevels, hloop, ht⟩ := cleared_of_clearBySource (hsides side)
      rw [ht]
      exact SortedOrderSets.clearLoop_sublist hloop
    refine ⟨_, ⟨fun side => (h.held.sound side).clearBySource (hsides side), by simp [horders],
      fun side => (hcleared side).1.congr fun price => by rw [hvolume, Nat.add_zero], ?_⟩,
      ⟨by simp [horders], fun side pl hpl => h.sourced.levels side pl ((hsublist side).subset hpl)⟩,
      ?_⟩
    · intro side price
      rw [hvolume, Nat.add_zero]
      split
      · exact h.held.bounded side price
      · exact Nat.zero_le _
    · constructor
      · intro hzero _ side
        exact (hcleared side).2.mp ((hcleared side).1.eq_nil_iff.mpr (hzero side))
      · intro hnothing side
        exact (hcleared side).1.eq_nil_iff.mp ((hcleared side).2.mpr (hnothing hsnapshot side))
  next hsnapshot =>
    cases hb₀
    exact ⟨_, h.held, h.sourced, fun _ hs => absurd hs hsnapshot, fun _ _ _ => rfl⟩

/-- A delivery: whatever the clearing loops left is left over at the end too. -/
theorem Tracks.receive {arithmetic : Arithmetic} (hexact : arithmetic.Exact) {source : Int32}
    {b b' : PriceLevelBook O} {d : Delivery (PricedOrder O)} (h : Tracks source b)
    (hd : OfSource source d)
    (hcounted : DeliveryCounted arithmetic b d) (hb' : b.receive arithmetic d = some b') :
    Sourced source b' ∧ ∃ extra, Held b' extra ∧
      ((∀ side price, extra side price = 0) ↔ FindsNothing b d) := by
  obtain ⟨_, hupdate, rfl⟩ := Option.map_eq_some_iff.mp hb'
  obtain ⟨b₀, hb₀, rfl⟩ := Option.map_eq_some_iff.mp hupdate
  obtain ⟨extra, hheld, hsourced, hiff⟩ := h.beforeEvents hd.1 hb₀
  obtain ⟨hheld', hsourced'⟩ := held_events hexact hheld hsourced hd.2 (hcounted b₀ hb₀)
  exact ⟨hsourced', extra, hheld', hiff⟩

theorem receive_defined (arithmetic : Arithmetic) {b : PriceLevelBook O}
    {d : Delivery (PricedOrder O)} (h : FindsNothing b d) : ∃ b', b.receive arithmetic d = some b' := by
  have hbefore : ∃ b₀, b.beforeEvents d = some b₀ := by
    unfold PriceLevelBook.beforeEvents
    split
    next hsnapshot =>
      have hside : ∀ side, (b.side side).clearBySource d.source =
          some { b.side side with orders := [], isChanged := false } := fun side => by
        have hnil : (b.side side).orders = [] := h hsnapshot side
        rw [SortedPriceLevelSet.clearBySource, SortedOrderSets.SortedOrderSet.clearBySource, hnil]
        rfl
      have hbuy := hside .buy
      have hsell := hside .sell
      change b.buyPriceLevels.clearBySource d.source = _ at hbuy
      change b.sellPriceLevels.clearBySource d.source = _ at hsell
      exact ⟨_, by rw [PriceLevelBook.clearBySource, hbuy, Option.bind_some, hsell]; rfl⟩
    next => exact ⟨b, rfl⟩
  obtain ⟨b₀, hb₀⟩ := hbefore
  exact ⟨_, by rw [PriceLevelBook.receive, PriceLevelBook.update, hb₀]; rfl⟩

theorem side_built (O : OrderKind) (depthLimit : UInt64) (side : BookSide) :
    (PriceLevelBook.built (O := O) depthLimit).side side =
      SortedPriceLevelSet.setDepthLimit {} depthLimit := by
  cases side <;> rfl

theorem tracks_built (O : OrderKind) (source : Int32) (depthLimit : UInt64) :
    Tracks source (PriceLevelBook.built (O := O) depthLimit) := by
  have hempty : (SortedPriceLevelSet.setDepthLimit {} depthLimit).priceLevels = [] :=
    (setDepthLimit_keeps {} depthLimit).1
  have horders : (PriceLevelBook.built (O := O) depthLimit).orders = [] := rfl
  constructor
  · constructor
    · intro side
      rw [side_built]
      exact (sound_empty side).setDepthLimit depthLimit
    · simp [horders]
    · intro side
      rw [side_built]
      unfold Holds
      rw [hempty]
      exact stands_nil
    · intro side price
      exact Nat.zero_le _
  · constructor
    · simp [horders]
    · intro side
      rw [side_built, hempty]
      simp

/-- The levels account for the orders of a source after every delivery exactly as long as no
snapshot finds levels to clear: its loops skip every other level, which no order explains. -/
theorem levels_aggregate_iff (O : OrderKind) (arithmetic : Arithmetic) (hexact : arithmetic.Exact)
    (source : Int32) (depthLimit : UInt64) (deliveries : List (Delivery (PricedOrder O)))
    (hsource : ∀ d ∈ deliveries, OfSource source d)
    (hcounted : Meets (PriceLevelBook.receive arithmetic) (DeliveryCounted arithmetic)
      (.built depthLimit) deliveries) :
    Always (PriceLevelBook.receive arithmetic) Aggregates (.built depthLimit) deliveries ↔
      Meets (PriceLevelBook.receive arithmetic) FindsNothing (.built depthLimit) deliveries := by
  have hgood : ∀ b : PriceLevelBook O, Tracks source b → Aggregates b := fun b h =>
    h.held.aggregates_iff.mpr fun _ _ => rfl
  have hgiven : Meets (PriceLevelBook.receive arithmetic)
      (fun b d => OfSource source d ∧ DeliveryCounted arithmetic b d) (.built depthLimit)
        deliveries :=
    (meets_of_mem (fun d hd _ => hsource d hd) _).and hcounted
  refine always_iff_meets hgood ?_ ?_ (tracks_built O source depthLimit) hgiven
  · intro b d h hd hnothing
    obtain ⟨b', hb'⟩ := receive_defined arithmetic hnothing
    obtain ⟨hsourced, extra, hheld, hiff⟩ := h.receive hexact hd.1 hd.2 hb'
    have hzero : extra = fun _ _ => 0 := by
      funext side price
      exact hiff.mpr hnothing side price
    exact ⟨b', hb', hzero ▸ hheld, hsourced⟩
  · intro b b' d h hd hb' haggregates
    obtain ⟨-, extra, hheld, hiff⟩ := h.receive hexact hd.1 hd.2 hb'
    exact hiff.mp (hheld.aggregates_iff.mp haggregates)

def pricedBuyOrder (index : Int64)
    (h : (OrderIndices.getSource [] { index := index }).isSome = true) : PricedOrder .order where
  toFeedOrder := buyOrder index
  price_isNumber := by simp [buyOrder]
  hasSource := h

def firstPriced : PricedOrder .order := pricedBuyOrder 1 (by decide)
def secondPriced : PricedOrder .order := pricedBuyOrder 2 (by decide)

/-- A snapshot of one order, and then another order at its price. -/
theorem levels_aggregate_growing :
    Always (PriceLevelBook.receive unroundedArithmetic) Aggregates (.built 0)
      [⟨DEFAULT.id, [firstPriced], true⟩, ⟨DEFAULT.id, [secondPriced], false⟩] := by
  refine (levels_aggregate_iff .order unroundedArithmetic unroundedArithmetic_exact DEFAULT.id 0
    [⟨DEFAULT.id, [firstPriced], true⟩, ⟨DEFAULT.id, [secondPriced], false⟩] (by decide) ?_).mpr ?_
  · refine ⟨fun b₀ hb₀ => ?_, fun b₁ h₁ => ⟨fun b₀ hb₀ => ?_, fun _ _ => trivial⟩⟩
    · cases hb₀
      refine ⟨fun _ => ⟨⟨by decide, by decide⟩, by decide, fun pl hpl => ?_⟩, fun _ _ => trivial⟩
      exact absurd hpl List.not_mem_nil
    · cases h₁
      cases hb₀
      refine ⟨fun _ => ⟨⟨by decide, by decide⟩, by decide, fun pl hpl _ n hn => ?_⟩,
        fun _ _ => trivial⟩
      have hlevel : pl = ⟨0, levelOf firstPriced⟩ := List.mem_singleton.mp hpl
      rw [hlevel] at hn
      have hrational : (10 : ℚ) = n := by simpa [Carries] using Double.finite.inj hn
      have hten : n = 10 := by exact_mod_cast hrational.symm
      subst hten
      decide
  · refine ⟨fun _ side => ?_, fun b₁ _ => ⟨fun h => ?_, fun _ _ => trivial⟩⟩
    · cases side <;> rfl
    · cases h

end PriceLevelBooks
