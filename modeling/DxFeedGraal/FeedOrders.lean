import DxFeedGraal.OrderIndices
import DxFeedGraal.ThreeWayComparisons
import Mathlib.Data.Char
import Mathlib.Data.List.Lex
import Mathlib.Data.Sum.Order

/-! # Orders as a feed sends them

The comparators of a book over orders of any price and index, and the keys they follow. A
comparator may dereference a null pointer; its result is then missing. -/
namespace Orders

open FixedWidthIntegers BitOperations DoubleValues TimeSequenceEvents OrderIndices
open ThreeWayComparisons

/-- The element class of a model. All but the spread orders derive from `Order`. -/
inductive OrderKind where
  | order | analyticOrder | otcMarketsOrder | spreadOrder
  deriving DecidableEq, Repr

inductive Scope where
  | COMPOSITE | REGIONAL | AGGREGATE | ORDER
  deriving DecidableEq, Repr

def Scope.getCode : Scope → Int32
  | .COMPOSITE => 0
  | .REGIONAL => 1
  | .AGGREGATE => 2
  | .ORDER => 3

/-- An unknown code gives the first element, as in every enumeration of the library. -/
def Scope.valueOf (code : Int32) : Scope :=
  if code = 1 then .REGIONAL else if code = 2 then .AGGREGATE else if code = 3 then .ORDER
  else .COMPOSITE

inductive Side where
  | UNDEFINED | BUY | SELL
  deriving DecidableEq, Repr

def Side.valueOf (code : Int32) : Side :=
  if code = 1 then .BUY else if code = 2 then .SELL else .UNDEFINED

def EXCHANGE_MASK : UInt32 := 0x7F
def EXCHANGE_SHIFT : UInt32 := 4
def SIDE_MASK : UInt32 := 3
def SIDE_SHIFT : UInt32 := 2
def SCOPE_MASK : UInt32 := 3
def SCOPE_SHIFT : UInt32 := 0
def REMOVE_EVENT : Int32 := 0x02

/-- `String::NUL`, shown for a market maker that is not set. -/
def NUL : List Char := "<null>".toList

/-- The fields of an order that a book looks at. -/
structure FeedOrder (O : OrderKind) where
  data : OrderBaseData
  marketMaker : Option (List Char) := none
  deriving DecidableEq

namespace FeedOrder

variable {O : OrderKind} (o : FeedOrder O)

def getIndex : Int64 := o.data.index
def getTimeSequence : Int64 := o.data.timeSequence
def getPrice : Double := o.data.price
def getSize : Double := o.data.size
def getScope : Scope := Scope.valueOf (getBits o.data.flags SCOPE_MASK SCOPE_SHIFT)
def getOrderSide : Side := Side.valueOf (getBits o.data.flags SIDE_MASK SIDE_SHIFT)

/-- Seven bits are ASCII, which the conversion to UTF-16 leaves alone. -/
def getExchangeCode : Int32 := getBits o.data.flags EXCHANGE_MASK EXCHANGE_SHIFT

def getMarketMaker : List Char := o.marketMaker.getD NUL

def hasSize : Bool := !o.data.size.eq (.finite 0) && !o.data.size.isNaN

/-- The flags are a plain mask test. -/
def containsRemoveEvent : Bool := (andOp o.data.eventFlags REMOVE_EVENT) != 0

def shallAdd : Bool := o.hasSize && !o.containsRemoveEvent

/-- `is<Order>()`: the cast is of a pointer and never throws, so the answer is always yes. -/
def isOrder (_o : FeedOrder O) : Bool := true

/-- `sharedAs<Order>()`: a null pointer for spread orders. -/
def sharedAsOrder : Option (FeedOrder O) := if O = .spreadOrder then none else some o

def isIndividual : Bool := o.getScope = .ORDER

end FeedOrder

/-! ## Comparators -/

/-- `math::compare` of integers. -/
def compareInt64 (v₁ v₂ : Int64) : ℤ := threeWay (v₁ < v₂) (v₂ < v₁)
def compareInt32 (v₁ v₂ : Int32) : ℤ := threeWay (v₁ < v₂) (v₂ < v₁)

/-- `math::compare` of doubles: not a number comes first and ties with itself. -/
def compareDouble (d₁ d₂ : Double) : ℤ :=
  if d₁.isNaN || d₂.isNaN then if d₁.isNaN then if d₂.isNaN then 0 else -1 else 1
  else threeWay (d₁.less d₂) (d₂.less d₁)

/-- The two sorted sets of a book. -/
inductive BookSide where
  | buy | sell
  deriving DecidableEq, Repr

namespace FeedOrder

variable {O : OrderKind}

/-- The tail of the chain, with the access through the cast pointers. -/
def compareMarketMakers (o₁ o₂ : FeedOrder O) : Option ℤ :=
  if o₁.isOrder && o₂.isOrder then
    match o₁.sharedAsOrder, o₂.sharedAsOrder with
    | some order₁, some order₂ =>
      if order₁.getMarketMaker < order₂.getMarketMaker then some (-1)
      else if order₂.getMarketMaker < order₁.getMarketMaker then some 1
      else some (compareInt64 o₁.getIndex o₂.getIndex)
    | _, _ => none
  else some (compareInt64 o₁.getIndex o₂.getIndex)

def OrderComparator (o₁ o₂ : FeedOrder O) : Option ℤ :=
  if o₁.isIndividual && o₂.isIndividual then
    let c := compareInt64 o₁.getTimeSequence o₂.getTimeSequence
    some (if c ≠ 0 then c else compareInt64 o₁.getIndex o₂.getIndex)
  else if o₁.isIndividual then some 1
  else if o₂.isIndividual then some (-1)
  else
    let c := compareDouble o₂.getSize o₁.getSize
    if c ≠ 0 then some c else
    let c := compareInt64 o₁.getTimeSequence o₂.getTimeSequence
    if c ≠ 0 then some c else
    let c := compareInt32 o₁.getScope.getCode o₂.getScope.getCode
    if c ≠ 0 then some c else
    let c := compareInt32 o₁.getExchangeCode o₂.getExchangeCode
    if c ≠ 0 then some c else
    compareMarketMakers o₁ o₂

def BuyComparator (o₁ o₂ : FeedOrder O) : Option ℤ :=
  if o₁.getPrice.less o₂.getPrice then some 1
  else if o₂.getPrice.less o₁.getPrice then some (-1)
  else OrderComparator o₁ o₂

def SellComparator (o₁ o₂ : FeedOrder O) : Option ℤ :=
  if o₁.getPrice.less o₂.getPrice then some (-1)
  else if o₂.getPrice.less o₁.getPrice then some 1
  else OrderComparator o₁ o₂

end FeedOrder

/-! ## The orders behind the comparators -/

theorem agrees_compareInt64 (a b : Int64) : Agrees (compareInt64 a b) a.toInt b.toInt :=
  agrees_threeWay (by simp [Int64.lt_iff_toInt_lt]) (by simp [Int64.lt_iff_toInt_lt])

theorem agrees_compareInt32 (a b : Int32) : Agrees (compareInt32 a b) a.toInt b.toInt :=
  agrees_threeWay (by simp [Int32.lt_iff_toInt_lt]) (by simp [Int32.lt_iff_toInt_lt])

theorem agrees_compareDouble (a b : Double) : Agrees (compareDouble a b) a.rank b.rank := by
  cases ha : a.isNaN with
  | true =>
    cases hb : b.isNaN with
    | true => constructor <;> simp [compareDouble, Double.rank, ha, hb]
    | false => constructor <;> simp [compareDouble, Double.rank, ha, hb]
  | false =>
    cases hb : b.isNaN with
    | true => constructor <;> simp [compareDouble, Double.rank, ha, hb]
    | false =>
      simp only [compareDouble, ha, hb, Double.rank]
      apply agrees_threeWay <;> simp [Double.less, ha, hb]

theorem agrees_price {a b : Double} (ha : a ≠ .nan) (hb : b ≠ .nan) :
    Agrees (threeWay (a.less b) (b.less a)) a.position b.position :=
  agrees_threeWay (less_iff ha hb) (less_iff hb ha)

theorem less_asymm_double {a b : Double} (h : a.less b = true) : b.less a = false := by
  cases hb : b.less a with
  | false => rfl
  | true =>
    simp only [Double.less, Bool.and_eq_true, decide_eq_true_eq] at h hb
    exact absurd hb.2 (lt_asymm h.2)

abbrev IndividualKey := ℤ ×ₗ ℤ

abbrev OthersKey :=
  (WithBot (WithBot (WithTop ℚ)))ᵒᵈ ×ₗ ℤ ×ₗ ℤ ×ₗ ℤ ×ₗ List Char ×ₗ ℤ

namespace FeedOrder

variable {O : OrderKind}

def individualKey (o : FeedOrder O) : IndividualKey :=
  toLex (o.getTimeSequence.toInt, o.getIndex.toInt)

/-- The market maker and the index; spread orders are told apart by nothing further. -/
def tailKey (o : FeedOrder O) : List Char ×ₗ ℤ :=
  if O = .spreadOrder then toLex ([], 0) else toLex (o.getMarketMaker, o.getIndex.toInt)

def othersKey (o : FeedOrder O) : OthersKey :=
  toLex (OrderDual.toDual o.getSize.rank, toLex (o.getTimeSequence.toInt,
    toLex (o.getScope.getCode.toInt, toLex (o.getExchangeCode.toInt, tailKey o))))

def orderKey (o : FeedOrder O) : OthersKey ⊕ₗ IndividualKey :=
  if o.isIndividual then toLex (Sum.inr (individualKey o)) else toLex (Sum.inl (othersKey o))

/-- Two orders that the chain cannot tell apart before it uses the cast pointers. -/
def Ties (o₁ o₂ : FeedOrder O) : Prop :=
  O = .spreadOrder ∧ o₁.isIndividual = false ∧ o₂.isIndividual = false ∧
    othersKey o₁ = othersKey o₂

theorem agrees_compareMarketMakers (o₁ o₂ : FeedOrder O) :
    (∀ c, compareMarketMakers o₁ o₂ = some c → Agrees c (tailKey o₁) (tailKey o₂)) ∧
      (compareMarketMakers o₁ o₂ = none ↔ O = .spreadOrder ∧ tailKey o₁ = tailKey o₂) := by
  by_cases hO : O = .spreadOrder
  · simp [compareMarketMakers, FeedOrder.isOrder, FeedOrder.sharedAsOrder, tailKey, hO]
  · have hchain : compareMarketMakers o₁ o₂ =
        some (if threeWay (o₁.getMarketMaker < o₂.getMarketMaker)
            (o₂.getMarketMaker < o₁.getMarketMaker) ≠ 0
          then threeWay (o₁.getMarketMaker < o₂.getMarketMaker)
            (o₂.getMarketMaker < o₁.getMarketMaker)
          else compareInt64 o₁.getIndex o₂.getIndex) := by
      simp only [compareMarketMakers, FeedOrder.isOrder, FeedOrder.sharedAsOrder, hO, if_false,
        Bool.and_self, if_true, threeWay]
      by_cases h₁ : o₁.getMarketMaker < o₂.getMarketMaker
      · simp [h₁]
      · by_cases h₂ : o₂.getMarketMaker < o₁.getMarketMaker <;> simp [h₁, h₂]
    rw [hchain]
    refine ⟨fun c hc => ?_, by simp [hO]⟩
    cases hc
    simp only [tailKey, hO, if_false]
    exact (agrees_threeWay (by simp) (by simp)).lex fun _ => agrees_compareInt64 _ _

theorem agrees_orderComparator (o₁ o₂ : FeedOrder O) :
    (∀ c, OrderComparator o₁ o₂ = some c → Agrees c (orderKey o₁) (orderKey o₂)) ∧
      (OrderComparator o₁ o₂ = none ↔ Ties o₁ o₂) := by
  cases h₁ : o₁.isIndividual with
  | true =>
    cases h₂ : o₂.isIndividual with
    | true =>
      have hlex := (agrees_compareInt64 o₁.getTimeSequence o₂.getTimeSequence).lex
        fun _ => agrees_compareInt64 o₁.getIndex o₂.getIndex
      refine ⟨fun c hc => ?_, by simp [OrderComparator, Ties, h₁, h₂]⟩
      simp only [OrderComparator, h₁, h₂, Bool.and_self, if_true, Option.some.injEq] at hc
      subst hc
      simp only [orderKey, h₁, h₂, if_true]
      constructor
      · rw [hlex.neg, Sum.Lex.inr_lt_inr_iff]
        rfl
      · rw [hlex.zero]
        simp [individualKey]
    | false =>
      refine ⟨fun c hc => ?_, by simp [OrderComparator, Ties, h₁, h₂]⟩
      simp only [OrderComparator, h₁, h₂, Bool.and_false, Bool.false_eq_true, if_false,
        if_true, Option.some.injEq] at hc
      subst hc
      constructor <;> simp [orderKey, h₁, h₂]
  | false =>
    cases h₂ : o₂.isIndividual with
    | true =>
      refine ⟨fun c hc => ?_, by simp [OrderComparator, Ties, h₁, h₂]⟩
      simp only [OrderComparator, h₁, h₂, Bool.false_and, Bool.false_eq_true, if_false,
        if_true, Option.some.injEq] at hc
      subst hc
      constructor <;> simp [orderKey, h₁, h₂]
    | false =>
      have htail := agrees_compareMarketMakers o₁ o₂
      have hsize := agrees_compareDouble o₂.getSize o₁.getSize
      have htime := agrees_compareInt64 o₁.getTimeSequence o₂.getTimeSequence
      have hscope := agrees_compareInt32 o₁.getScope.getCode o₂.getScope.getCode
      have hexchange := agrees_compareInt32 o₁.getExchangeCode o₂.getExchangeCode
      have hsome := hsize.dual.lex_option (htime.lex_option (hscope.lex_option
        (hexchange.lex_option htail.1)))
      have hnone := hsize.dual.lex_none (htime.lex_none (hscope.lex_none
        (hexchange.lex_none htail.2)))
      refine ⟨fun c hc => ?_, ?_⟩
      · have hkey := hsome c (by simpa [OrderComparator, h₁, h₂] using hc)
        simp only [orderKey, h₁, h₂, Bool.false_eq_true, if_false]
        constructor
        · rw [hkey.neg, Sum.Lex.inl_lt_inl_iff]
          rfl
        · rw [hkey.zero]
          simp [othersKey]
      · simp only [OrderComparator, h₁, h₂, Bool.and_self, Bool.false_eq_true, if_false]
        rw [hnone]
        simp [Ties, h₁, h₂, othersKey]

theorem Ties.orderKey_eq {o₁ o₂ : FeedOrder O} (h : Ties o₁ o₂) : orderKey o₁ = orderKey o₂ := by
  obtain ⟨-, h₁, h₂, hkey⟩ := h
  simp [orderKey, h₁, h₂, hkey]

theorem orderComparator_none_iff (o₁ o₂ : FeedOrder O) :
    OrderComparator o₁ o₂ = none ↔ Ties o₁ o₂ ∧ orderKey o₁ = orderKey o₂ := by
  rw [(agrees_orderComparator o₁ o₂).2]
  exact ⟨fun h => ⟨h, h.orderKey_eq⟩, fun h => h.1⟩

theorem buyComparator_eq (o₁ o₂ : FeedOrder O) :
    BuyComparator o₁ o₂ =
      if threeWay (o₂.getPrice.less o₁.getPrice) (o₁.getPrice.less o₂.getPrice) ≠ 0
      then some (threeWay (o₂.getPrice.less o₁.getPrice) (o₁.getPrice.less o₂.getPrice))
      else OrderComparator o₁ o₂ := by
  cases h₁ : o₁.getPrice.less o₂.getPrice with
  | true => simp [BuyComparator, threeWay, h₁, less_asymm_double h₁]
  | false => cases h₂ : o₂.getPrice.less o₁.getPrice <;> simp [BuyComparator, threeWay, h₁, h₂]

theorem sellComparator_eq (o₁ o₂ : FeedOrder O) :
    SellComparator o₁ o₂ =
      if threeWay (o₁.getPrice.less o₂.getPrice) (o₂.getPrice.less o₁.getPrice) ≠ 0
      then some (threeWay (o₁.getPrice.less o₂.getPrice) (o₂.getPrice.less o₁.getPrice))
      else OrderComparator o₁ o₂ := by
  cases h₁ : o₁.getPrice.less o₂.getPrice with
  | true => simp [SellComparator, threeWay, h₁]
  | false => cases h₂ : o₂.getPrice.less o₁.getPrice <;> simp [SellComparator, threeWay, h₁, h₂]

/-- Orders of one key share their index, unless the chain ends before it. -/
theorem index_eq_of_orderKey {o₁ o₂ : FeedOrder O} (h : orderKey o₁ = orderKey o₂)
    (hties : ¬ Ties o₁ o₂) : o₁.getIndex = o₂.getIndex := by
  rw [← Int64.toInt_inj]
  cases h₁ : o₁.isIndividual with
  | true =>
    cases h₂ : o₂.isIndividual with
    | true =>
      simp only [orderKey, h₁, h₂, if_true, toLex_inj, Sum.inr.injEq, individualKey,
        Prod.mk.injEq] at h
      exact h.2
    | false => simp [orderKey, h₁, h₂] at h
  | false =>
    cases h₂ : o₂.isIndividual with
    | true => simp [orderKey, h₁, h₂] at h
    | false =>
      simp only [orderKey, h₁, h₂, Bool.false_eq_true, if_false, toLex_inj, Sum.inl.injEq] at h
      have hO : O ≠ .spreadOrder := fun hO => hties ⟨hO, h₁, h₂, h⟩
      simp only [othersKey, toLex_inj, Prod.mk.injEq, tailKey, hO, if_false] at h
      exact h.2.2.2.2.2

/-! ### Priced orders -/

def buyKey (o : FeedOrder O) : (WithBot (WithTop ℚ))ᵒᵈ ×ₗ (OthersKey ⊕ₗ IndividualKey) :=
  toLex (OrderDual.toDual o.getPrice.position, orderKey o)

def sellKey (o : FeedOrder O) : WithBot (WithTop ℚ) ×ₗ (OthersKey ⊕ₗ IndividualKey) :=
  toLex (o.getPrice.position, orderKey o)

theorem agrees_buyComparator {o₁ o₂ : FeedOrder O} (h₁ : o₁.getPrice ≠ .nan)
    (h₂ : o₂.getPrice ≠ .nan) :
    (∀ c, BuyComparator o₁ o₂ = some c → Agrees c (buyKey o₁) (buyKey o₂)) ∧
      (BuyComparator o₁ o₂ = none ↔ Ties o₁ o₂ ∧ buyKey o₁ = buyKey o₂) := by
  have hprice := (agrees_price h₂ h₁).dual
  rw [buyComparator_eq]
  exact ⟨hprice.lex_option (agrees_orderComparator o₁ o₂).1,
    hprice.lex_none (orderComparator_none_iff o₁ o₂)⟩

theorem agrees_sellComparator {o₁ o₂ : FeedOrder O} (h₁ : o₁.getPrice ≠ .nan)
    (h₂ : o₂.getPrice ≠ .nan) :
    (∀ c, SellComparator o₁ o₂ = some c → Agrees c (sellKey o₁) (sellKey o₂)) ∧
      (SellComparator o₁ o₂ = none ↔ Ties o₁ o₂ ∧ sellKey o₁ = sellKey o₂) := by
  have hprice := agrees_price h₁ h₂
  rw [sellComparator_eq]
  exact ⟨hprice.lex_option (agrees_orderComparator o₁ o₂).1,
    hprice.lex_none (orderComparator_none_iff o₁ o₂)⟩

end FeedOrder

end Orders
