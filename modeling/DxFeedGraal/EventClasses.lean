import DxFeedGraal.CandleAttributes
import DxFeedGraal.NativeStrings

/-! # The event classes and what their getters read

An event keeps its stored fields, some of which its base classes declare. A text that was never
set is missing; every getter but the `Opt` ones reads it as `String::NUL`. -/
namespace EventClasses

open CppStrings DoubleValues CandleAttributes NativeStrings

/-- `CandleSymbol::NUL`. -/
def nulCandleSymbol : CandleSymbol where
  symbol := NUL
  baseSymbol := NUL
  exchange := .composite
  price := .last
  session := .any
  period := .tick
  alignment := .midnight
  priceLevel := .default

/-! ## Stored fields -/

structure MarketEvent where
  eventSymbol : Option Text := none
  eventTime : Int64 := 0

structure Quote.Data where
  timeMillisSequence : Int32 := 0
  timeNanoPart : Int32 := 0
  bidTime : Int64 := 0
  bidExchangeCode : Int16 := 0
  bidPrice : Double := .nan
  bidSize : Double := .nan
  askTime : Int64 := 0
  askExchangeCode : Int16 := 0
  askPrice : Double := .nan
  askSize : Double := .nan

structure Quote extends MarketEvent where
  data : Quote.Data := {}

structure Profile.Data where
  description : Option Text := none
  statusReason : Option Text := none
  haltStartTime : Int64 := 0
  haltEndTime : Int64 := 0
  highLimitPrice : Double := .nan
  lowLimitPrice : Double := .nan
  high52WeekPrice : Double := .nan
  low52WeekPrice : Double := .nan
  beta : Double := .nan
  earningsPerShare : Double := .nan
  dividendFrequency : Double := .nan
  exDividendAmount : Double := .nan
  exDividendDayId : Int32 := 0
  shares : Double := .nan
  freeFloat : Double := .nan
  flags : Int32 := 0

structure Profile extends MarketEvent where
  data : Profile.Data := {}

structure Summary.Data where
  dayId : Int32 := 0
  dayOpenPrice : Double := .nan
  dayHighPrice : Double := .nan
  dayLowPrice : Double := .nan
  dayClosePrice : Double := .nan
  prevDayId : Int32 := 0
  prevDayClosePrice : Double := .nan
  prevDayVolume : Double := .nan
  openInterest : Int64 := 0
  flags : Int32 := 0

structure Summary extends MarketEvent where
  data : Summary.Data := {}

structure Greeks.Data where
  eventFlags : Int32 := 0
  index : Int64 := 0
  price : Double := .nan
  volatility : Double := .nan
  delta : Double := .nan
  gamma : Double := .nan
  theta : Double := .nan
  rho : Double := .nan
  vega : Double := .nan

structure Greeks extends MarketEvent where
  data : Greeks.Data := {}

structure Candle.Data where
  eventTime : Int64 := 0
  eventFlags : Int32 := 0
  index : Int64 := 0
  count : Int64 := 0
  «open» : Double := .nan
  high : Double := .nan
  low : Double := .nan
  close : Double := .nan
  volume : Double := .nan
  vwap : Double := .nan
  bidVolume : Double := .nan
  askVolume : Double := .nan
  impVolatility : Double := .nan
  openInterest : Double := .nan

structure Candle where
  eventSymbol : Option CandleSymbol := none
  data : Candle.Data := {}

structure Underlying.Data where
  eventFlags : Int32 := 0
  index : Int64 := 0
  volatility : Double := .nan
  frontVolatility : Double := .nan
  backVolatility : Double := .nan
  callVolume : Double := .nan
  putVolume : Double := .nan
  putCallRatio : Double := .nan

structure Underlying extends MarketEvent where
  data : Underlying.Data := {}

structure TheoPrice.Data where
  eventFlags : Int32 := 0
  index : Int64 := 0
  price : Double := .nan
  underlyingPrice : Double := .nan
  delta : Double := .nan
  gamma : Double := .nan
  dividend : Double := .nan
  interest : Double := .nan

structure TheoPrice extends MarketEvent where
  data : TheoPrice.Data := {}

structure TradeBaseData where
  timeSequence : Int64 := 0
  timeNanoPart : Int32 := 0
  exchangeCode : Int16 := 0
  price : Double := .nan
  change : Double := .nan
  size : Double := .nan
  dayId : Int32 := 0
  dayVolume : Double := .finite 0
  dayTurnover : Double := .finite 0
  flags : Int32 := 0

structure TradeBase extends MarketEvent where
  tradeBaseData : TradeBaseData := {}

structure Trade extends TradeBase

structure TradeETH extends TradeBase

structure Message where
  eventSymbol : Option Text := none
  eventTime : Int64 := 0
  attachment : Option Text := none

structure TimeAndSale.Data where
  eventFlags : Int32 := 0
  index : Int64 := 0
  timeNanoPart : Int32 := 0
  exchangeCode : Int16 := 0
  price : Double := .nan
  size : Double := .nan
  bidPrice : Double := .nan
  askPrice : Double := .nan
  exchangeSaleConditions : Option Text := none
  flags : Int32 := 0
  buyer : Option Text := none
  seller : Option Text := none

structure TimeAndSale extends MarketEvent where
  data : TimeAndSale.Data := {}

structure OrderBaseData where
  eventFlags : Int32 := 0
  index : Int64 := 0
  timeSequence : Int64 := 0
  timeNanoPart : Int32 := 0
  actionTime : Int64 := 0
  orderId : Int64 := 0
  auxOrderId : Int64 := 0
  price : Double := .nan
  size : Double := .nan
  executedSize : Double := .nan
  count : Int64 := 0
  flags : Int32 := 0
  tradeId : Int64 := 0
  tradePrice : Double := .nan
  tradeSize : Double := .nan

structure OrderBase extends MarketEvent where
  orderBaseData : OrderBaseData := {}

structure OrderData where
  marketMaker : Option Text := none

structure Order extends OrderBase where
  orderData : OrderData := {}

structure AnalyticOrderData where
  icebergPeakSize : Double := .nan
  icebergHiddenSize : Double := .nan
  icebergExecutedSize : Double := .nan
  icebergFlags : Int32 := 0

structure AnalyticOrder extends Order where
  analyticOrderData : AnalyticOrderData := {}

structure OtcMarketsOrderData where
  quoteAccessPayment : Int32 := 0
  otcMarketsFlags : Int32 := 0

structure OtcMarketsOrder extends Order where
  otcMarketsOrderData : OtcMarketsOrderData := {}

structure SpreadOrderData where
  spreadSymbol : Option Text := none

structure SpreadOrder extends OrderBase where
  spreadOrderData : SpreadOrderData := {}

structure Series.Data where
  eventFlags : Int32 := 0
  index : Int64 := 0
  timeSequence : Int64 := 0
  expiration : Int32 := 0
  volatility : Double := .nan
  callVolume : Double := .nan
  putVolume : Double := .nan
  putCallRatio : Double := .nan
  forwardPrice : Double := .nan
  dividend : Double := .nan
  interest : Double := .nan

structure Series extends MarketEvent where
  data : Series.Data := {}

structure OptionSale.Data where
  eventFlags : Int32 := 0
  index : Int64 := 0
  timeSequence : Int64 := 0
  timeNanoPart : Int32 := 0
  exchangeCode : Int16 := 0
  price : Double := .nan
  size : Double := .nan
  bidPrice : Double := .nan
  askPrice : Double := .nan
  exchangeSaleConditions : Option Text := none
  flags : Int32 := 0
  underlyingPrice : Double := .nan
  volatility : Double := .nan
  delta : Double := .nan
  optionSymbol : Option Text := none

structure OptionSale extends MarketEvent where
  data : OptionSale.Data := {}

structure TextMessage where
  eventSymbol : Option Text := none
  eventTime : Int64 := 0
  timeSequence : Int64 := 0
  text : Text := []

/-- An event of one of the classes, in the order in which the mapper lists them. -/
inductive Event where
  | quote (e : Quote)
  | profile (e : Profile)
  | summary (e : Summary)
  | greeks (e : Greeks)
  | candle (e : Candle)
  | underlying (e : Underlying)
  | theoPrice (e : TheoPrice)
  | trade (e : Trade)
  | tradeETH (e : TradeETH)
  | message (e : Message)
  | timeAndSale (e : TimeAndSale)
  | order (e : Order)
  | analyticOrder (e : AnalyticOrder)
  | otcMarketsOrder (e : OtcMarketsOrder)
  | spreadOrder (e : SpreadOrder)
  | series (e : Series)
  | optionSale (e : OptionSale)
  | textMessage (e : TextMessage)

/-! ## Getters

The ones that replace a missing value; each other getter computes its result from the stored
fields. -/

def MarketEvent.getEventSymbol (e : MarketEvent) : Text := e.eventSymbol.getD NUL
def MarketEvent.getEventTime (e : MarketEvent) : Int64 := e.eventTime

def Profile.getDescription (e : Profile) : Text := e.data.description.getD NUL
def Profile.getStatusReason (e : Profile) : Text := e.data.statusReason.getD NUL

def Candle.getEventSymbol (e : Candle) : CandleSymbol := e.eventSymbol.getD nulCandleSymbol
def Candle.getEventTime (e : Candle) : Int64 := e.data.eventTime

def Message.getEventSymbol (e : Message) : Text := e.eventSymbol.getD NUL
def Message.getEventTime (e : Message) : Int64 := e.eventTime
def Message.getAttachment (e : Message) : Text := e.attachment.getD NUL

def TimeAndSale.getExchangeSaleConditions (e : TimeAndSale) : Text :=
  e.data.exchangeSaleConditions.getD NUL
def TimeAndSale.getBuyer (e : TimeAndSale) : Text := e.data.buyer.getD NUL
def TimeAndSale.getSeller (e : TimeAndSale) : Text := e.data.seller.getD NUL

def Order.getMarketMaker (e : Order) : Text := e.orderData.marketMaker.getD NUL
def SpreadOrder.getSpreadSymbol (e : SpreadOrder) : Text :=
  e.spreadOrderData.spreadSymbol.getD NUL

def OptionSale.getExchangeSaleConditions (e : OptionSale) : Text :=
  e.data.exchangeSaleConditions.getD NUL
def OptionSale.getOptionSymbol (e : OptionSale) : Text := e.data.optionSymbol.getD NUL

def TextMessage.getEventSymbol (e : TextMessage) : Text := e.eventSymbol.getD NUL
def TextMessage.getEventTime (e : TextMessage) : Int64 := e.eventTime

/-! ## What the getters can tell apart -/

/-- The same event with `String::NUL` for each missing text. -/
def MarketEvent.visible (e : MarketEvent) : MarketEvent :=
  { e with eventSymbol := some e.getEventSymbol }

def Quote.visible (e : Quote) : Quote := { e with toMarketEvent := e.toMarketEvent.visible }

def Profile.visible (e : Profile) : Profile where
  toMarketEvent := e.toMarketEvent.visible
  data := { e.data with
    description := some e.getDescription
    statusReason := some e.getStatusReason }

def Summary.visible (e : Summary) : Summary :=
  { e with toMarketEvent := e.toMarketEvent.visible }

def Greeks.visible (e : Greeks) : Greeks := { e with toMarketEvent := e.toMarketEvent.visible }

def Candle.visible (e : Candle) : Candle := { e with eventSymbol := some e.getEventSymbol }

def Underlying.visible (e : Underlying) : Underlying :=
  { e with toMarketEvent := e.toMarketEvent.visible }

def TheoPrice.visible (e : TheoPrice) : TheoPrice :=
  { e with toMarketEvent := e.toMarketEvent.visible }

def TradeBase.visible (e : TradeBase) : TradeBase :=
  { e with toMarketEvent := e.toMarketEvent.visible }

def Trade.visible (e : Trade) : Trade := ⟨e.toTradeBase.visible⟩

def TradeETH.visible (e : TradeETH) : TradeETH := ⟨e.toTradeBase.visible⟩

def Message.visible (e : Message) : Message :=
  { e with eventSymbol := some e.getEventSymbol, attachment := some e.getAttachment }

def TimeAndSale.visible (e : TimeAndSale) : TimeAndSale where
  toMarketEvent := e.toMarketEvent.visible
  data := { e.data with
    exchangeSaleConditions := some e.getExchangeSaleConditions
    buyer := some e.getBuyer
    seller := some e.getSeller }

def OrderBase.visible (e : OrderBase) : OrderBase :=
  { e with toMarketEvent := e.toMarketEvent.visible }

def Order.visible (e : Order) : Order where
  toOrderBase := e.toOrderBase.visible
  orderData := { marketMaker := some e.getMarketMaker }

def AnalyticOrder.visible (e : AnalyticOrder) : AnalyticOrder :=
  { e with toOrder := e.toOrder.visible }

def OtcMarketsOrder.visible (e : OtcMarketsOrder) : OtcMarketsOrder :=
  { e with toOrder := e.toOrder.visible }

def SpreadOrder.visible (e : SpreadOrder) : SpreadOrder where
  toOrderBase := e.toOrderBase.visible
  spreadOrderData := { spreadSymbol := some e.getSpreadSymbol }

def Series.visible (e : Series) : Series := { e with toMarketEvent := e.toMarketEvent.visible }

def OptionSale.visible (e : OptionSale) : OptionSale where
  toMarketEvent := e.toMarketEvent.visible
  data := { e.data with
    exchangeSaleConditions := some e.getExchangeSaleConditions
    optionSymbol := some e.getOptionSymbol }

def TextMessage.visible (e : TextMessage) : TextMessage :=
  { e with eventSymbol := some e.getEventSymbol }

namespace Event

def visible : Event → Event
  | quote e => quote e.visible
  | profile e => profile e.visible
  | summary e => summary e.visible
  | greeks e => greeks e.visible
  | candle e => candle e.visible
  | underlying e => underlying e.visible
  | theoPrice e => theoPrice e.visible
  | trade e => trade e.visible
  | tradeETH e => tradeETH e.visible
  | message e => message e.visible
  | timeAndSale e => timeAndSale e.visible
  | order e => order e.visible
  | analyticOrder e => analyticOrder e.visible
  | otcMarketsOrder e => otcMarketsOrder e.visible
  | spreadOrder e => spreadOrder e.visible
  | series e => series e.visible
  | optionSale e => optionSale e.visible
  | textMessage e => textMessage e.visible

/-- `getEventSymbol`; a candle has a symbol of its own kind, which is given by its text. -/
def getEventSymbol : Event → Text
  | quote e => e.getEventSymbol
  | profile e => e.getEventSymbol
  | summary e => e.getEventSymbol
  | greeks e => e.getEventSymbol
  | candle e => e.getEventSymbol.symbol
  | underlying e => e.getEventSymbol
  | theoPrice e => e.getEventSymbol
  | trade e => e.getEventSymbol
  | tradeETH e => e.getEventSymbol
  | message e => e.getEventSymbol
  | timeAndSale e => e.getEventSymbol
  | order e => e.getEventSymbol
  | analyticOrder e => e.getEventSymbol
  | otcMarketsOrder e => e.getEventSymbol
  | spreadOrder e => e.getEventSymbol
  | series e => e.getEventSymbol
  | optionSale e => e.getEventSymbol
  | textMessage e => e.getEventSymbol

def getEventTime : Event → Int64
  | quote e => e.getEventTime
  | profile e => e.getEventTime
  | summary e => e.getEventTime
  | greeks e => e.getEventTime
  | candle e => e.getEventTime
  | underlying e => e.getEventTime
  | theoPrice e => e.getEventTime
  | trade e => e.getEventTime
  | tradeETH e => e.getEventTime
  | message e => e.getEventTime
  | timeAndSale e => e.getEventTime
  | order e => e.getEventTime
  | analyticOrder e => e.getEventTime
  | otcMarketsOrder e => e.getEventTime
  | spreadOrder e => e.getEventTime
  | series e => e.getEventTime
  | optionSale e => e.getEventTime
  | textMessage e => e.getEventTime

/-- The class names of `EventTypeEnum`. -/
def className : Event → String
  | quote _ => "Quote"
  | profile _ => "Profile"
  | summary _ => "Summary"
  | greeks _ => "Greeks"
  | candle _ => "Candle"
  | underlying _ => "Underlying"
  | theoPrice _ => "TheoPrice"
  | trade _ => "Trade"
  | tradeETH _ => "TradeETH"
  | message _ => "Message"
  | timeAndSale _ => "TimeAndSale"
  | order _ => "Order"
  | analyticOrder _ => "AnalyticOrder"
  | otcMarketsOrder _ => "OtcMarketsOrder"
  | spreadOrder _ => "SpreadOrder"
  | series _ => "Series"
  | optionSale _ => "OptionSale"
  | textMessage _ => "TextMessage"

/-- A function of the event that takes a missing text for `String::NUL`, as every getter but the
`Opt` ones does. -/
def ReadsNul {β : Type} (getter : Event → β) : Prop := ∀ e, getter e.visible = getter e

theorem getEventTime_readsNul : ReadsNul getEventTime := by
  intro e
  cases e <;> rfl

theorem className_readsNul : ReadsNul className := by
  intro e
  cases e <;> rfl

theorem visible_readsNul : ReadsNul visible := by
  intro e
  cases e <;> rfl

/-- Both events are of one class, and every getter but the `Opt` ones returns the same. -/
def SameGetters (e e' : Event) : Prop :=
  e.className = e'.className ∧
    ∀ {β : Type} (getter : Event → β), ReadsNul getter → getter e = getter e'

theorem sameGetters_iff {e e' : Event} : SameGetters e e' ↔ e.visible = e'.visible := by
  constructor
  · rintro ⟨-, hgetters⟩
    exact hgetters visible visible_readsNul
  · intro hvisible
    have hgetter : ∀ {β : Type} (getter : Event → β), ReadsNul getter → getter e = getter e' := by
      intro β getter hgetter
      rw [← hgetter e, hvisible, hgetter e']
    exact ⟨hgetter className className_readsNul, hgetter⟩

end Event

end EventClasses
