import DxFeedGraal.CandleNormalisation
import DxFeedGraal.EventConversions

/-! # The event mapper

`EventMapper::fromGraal` looks at the tag of a record and asks the class of that tag to make the
event. Every event makes its own record with `toGraal`. -/
namespace EventMapper

open CppNumbers CandleAttributes NativeStrings EventClasses NativeEvents EventConversions

/-- The record behind a pointer; one of a class without conversions shows its tag only. -/
inductive GraalEvent where
  | quote (graal : GraalQuote)
  | profile (graal : GraalProfile)
  | summary (graal : GraalSummary)
  | greeks (graal : GraalGreeks)
  | candle (graal : GraalCandle)
  | underlying (graal : GraalUnderlying)
  | theoPrice (graal : GraalTheoPrice)
  | trade (graal : GraalTrade)
  | tradeETH (graal : GraalTradeETH)
  | message (graal : GraalMessage)
  | timeAndSale (graal : GraalTimeAndSale)
  | order (graal : GraalOrder)
  | analyticOrder (graal : GraalAnalyticOrder)
  | otcMarketsOrder (graal : GraalOtcMarketsOrder)
  | spreadOrder (graal : GraalSpreadOrder)
  | series (graal : GraalSeries)
  | optionSale (graal : GraalOptionSale)
  | textMessage (graal : GraalTextMessage)
  | other (graal : GraalEventType)

/-- `dxfg_event_type_list`. -/
structure GraalEventList where
  size : Int32
  elements : List (Option GraalEvent)

/-- The first word of the record. -/
def GraalEvent.clazz : GraalEvent → EventClazz
  | quote graal => graal.market_event.event_type.clazz
  | profile graal => graal.market_event.event_type.clazz
  | summary graal => graal.market_event.event_type.clazz
  | greeks graal => graal.market_event.event_type.clazz
  | candle graal => graal.event_type.clazz
  | underlying graal => graal.market_event.event_type.clazz
  | theoPrice graal => graal.market_event.event_type.clazz
  | trade graal => graal.trade_base.market_event.event_type.clazz
  | tradeETH graal => graal.trade_base.market_event.event_type.clazz
  | message graal => graal.event_type.clazz
  | timeAndSale graal => graal.market_event.event_type.clazz
  | order graal => graal.order_base.market_event.event_type.clazz
  | analyticOrder graal => graal.order_base.order_base.market_event.event_type.clazz
  | otcMarketsOrder graal => graal.order_base.order_base.market_event.event_type.clazz
  | spreadOrder graal => graal.order_base.market_event.event_type.clazz
  | series graal => graal.market_event.event_type.clazz
  | optionSale graal => graal.market_event.event_type.clazz
  | textMessage graal => graal.event_type.clazz
  | other graal => graal.clazz

/-- The virtual `toGraal`. -/
def toGraal : Event → GraalEvent
  | .quote e => .quote (Quote.toGraal e)
  | .profile e => .profile (Profile.toGraal e)
  | .summary e => .summary (Summary.toGraal e)
  | .greeks e => .greeks (Greeks.toGraal e)
  | .candle e => .candle (Candle.toGraal e)
  | .underlying e => .underlying (Underlying.toGraal e)
  | .theoPrice e => .theoPrice (TheoPrice.toGraal e)
  | .trade e => .trade (Trade.toGraal e)
  | .tradeETH e => .tradeETH (TradeETH.toGraal e)
  | .message e => .message (Message.toGraal e)
  | .timeAndSale e => .timeAndSale (TimeAndSale.toGraal e)
  | .order e => .order (Order.toGraal e)
  | .analyticOrder e => .analyticOrder (AnalyticOrder.toGraal e)
  | .otcMarketsOrder e => .otcMarketsOrder (OtcMarketsOrder.toGraal e)
  | .spreadOrder e => .spreadOrder (SpreadOrder.toGraal e)
  | .series e => .series (Series.toGraal e)
  | .optionSale e => .optionSale (OptionSale.toGraal e)
  | .textMessage e => .textMessage (TextMessage.toGraal e)

section Mapping

variable (number : EventClazz → ℤ) (lib : StandardLibrary)

def notImplemented (clazz : EventClazz) : Failure :=
  .invalidArgumentException
    ("Not implemented event type: " ++ ToString.toString (number clazz))

def unknown (clazz : EventClazz) : Failure :=
  .invalidArgumentException ("Unknown event type: " ++ ToString.toString (number clazz))

/-- The tag decides how the record is read; an order may be the first part of a larger one. -/
def fromGraal : Option GraalEvent → Except Failure (Option Event)
  | none => .ok none
  | some graalNativeEvent =>
    match graalNativeEvent.clazz, graalNativeEvent with
    | .QUOTE, .quote graal => (Quote.fromGraal number (some graal)).map (some ∘ .quote)
    | .PROFILE, .profile graal => (Profile.fromGraal number (some graal)).map (some ∘ .profile)
    | .SUMMARY, .summary graal => (Summary.fromGraal number (some graal)).map (some ∘ .summary)
    | .GREEKS, .greeks graal => (Greeks.fromGraal number (some graal)).map (some ∘ .greeks)
    | .CANDLE, .candle graal => (Candle.fromGraal number lib (some graal)).map (some ∘ .candle)
    | .DAILY_CANDLE, _ => .error (notImplemented number .DAILY_CANDLE)
    | .UNDERLYING, .underlying graal =>
      (Underlying.fromGraal number (some graal)).map (some ∘ .underlying)
    | .THEO_PRICE, .theoPrice graal =>
      (TheoPrice.fromGraal number (some graal)).map (some ∘ .theoPrice)
    | .TRADE, .trade graal => (Trade.fromGraal number (some graal)).map (some ∘ .trade)
    | .TRADE_ETH, .tradeETH graal =>
      (TradeETH.fromGraal number (some graal)).map (some ∘ .tradeETH)
    | .CONFIGURATION, _ => .error (notImplemented number .CONFIGURATION)
    | .MESSAGE, .message graal => (Message.fromGraal number (some graal)).map (some ∘ .message)
    | .TIME_AND_SALE, .timeAndSale graal =>
      (TimeAndSale.fromGraal number (some graal)).map (some ∘ .timeAndSale)
    | .ORDER_BASE, _ => .error (notImplemented number .ORDER_BASE)
    | .ORDER, .order graal => (Order.fromGraal number (some graal)).map (some ∘ .order)
    | .ORDER, .analyticOrder graal =>
      (Order.fromGraal number (some graal.order_base)).map (some ∘ .order)
    | .ORDER, .otcMarketsOrder graal =>
      (Order.fromGraal number (some graal.order_base)).map (some ∘ .order)
    | .ANALYTIC_ORDER, .analyticOrder graal =>
      (AnalyticOrder.fromGraal number (some graal)).map (some ∘ .analyticOrder)
    | .OTC_MARKETS_ORDER, .otcMarketsOrder graal =>
      (OtcMarketsOrder.fromGraal number (some graal)).map (some ∘ .otcMarketsOrder)
    | .SPREAD_ORDER, .spreadOrder graal =>
      (SpreadOrder.fromGraal number (some graal)).map (some ∘ .spreadOrder)
    | .SERIES, .series graal => (Series.fromGraal number (some graal)).map (some ∘ .series)
    | .OPTION_SALE, .optionSale graal =>
      (OptionSale.fromGraal number (some graal)).map (some ∘ .optionSale)
    | .TEXT_MESSAGE, .textMessage graal =>
      (TextMessage.fromGraal number (some graal)).map (some ∘ .textMessage)
    | .MARKET_MAKER, _ => .error (unknown number .MARKET_MAKER)
    | .TEXT_CONFIGURATION, _ => .error (unknown number .TEXT_CONFIGURATION)
    | .other n, _ => .error (unknown number (.other n))
    | _, _ => .error .undefinedBehaviour

/-- Reading past the elements is undefined. -/
def fromGraalList (list : GraalEventList) : Except Failure (List (Option Event)) :=
  if list.size ≤ 0 then .ok []
  else if list.elements.length < list.size.toInt.toNat then .error .undefinedBehaviour
  else (list.elements.take list.size.toInt.toNat).mapM (fromGraal number lib)

end Mapping

/-! ## Class by class

Up to the missing texts, the record gives back what was written into it, whatever tag stands on
it in the end. -/

section Classes

variable {clazz : EventClazz}

theorem MarketEvent.visible_fillData {e : MarketEvent} (h : ∀ s ∈ e.eventSymbol, NoZero s)
    (m : MarketEvent) :
    (MarketEvent.fillData m
      { MarketEvent.fillGraalData e {} with event_type.clazz := clazz }).visible = e.visible := by
  have hsymbol : NativeStrings.toString (createCString e.getEventSymbol) = e.getEventSymbol :=
    toString_createCString (noZero_getD h)
  exact congrArg (fun s => MarketEvent.mk (some s) e.eventTime) hsymbol

theorem Quote.visible_fillData {e : Quote} (h : ∀ s ∈ e.eventSymbol, NoZero s) :
    (Quote.fillData {} (Quote.toGraal e)).visible = e.visible :=
  congrArg (fun m => Quote.mk m e.data) (MarketEvent.visible_fillData h {})

theorem Profile.visible_fillData {e : Profile} (h : ∀ s ∈ e.eventSymbol, NoZero s)
    (hdescription : ∀ s ∈ e.data.description, NoZero s)
    (hreason : ∀ s ∈ e.data.statusReason, NoZero s) :
    (Profile.fillData {} (Profile.toGraal e)).visible = e.visible := by
  have hd : (Profile.fillData {} (Profile.toGraal e)).getDescription = e.getDescription :=
    getD_toStringOpt hdescription
  have hr : (Profile.fillData {} (Profile.toGraal e)).getStatusReason = e.getStatusReason :=
    getD_toStringOpt hreason
  rw [Profile.visible, hd, hr]
  exact congrArg (fun m => Profile.mk m e.visible.data) (MarketEvent.visible_fillData h {})

theorem Summary.visible_fillData {e : Summary} (h : ∀ s ∈ e.eventSymbol, NoZero s) :
    (Summary.fillData {} (Summary.toGraal e)).visible = e.visible :=
  congrArg (fun m => Summary.mk m e.data) (MarketEvent.visible_fillData h {})

theorem Greeks.visible_fillData {e : Greeks} (h : ∀ s ∈ e.eventSymbol, NoZero s) :
    (Greeks.fillData {} (Greeks.toGraal e)).visible = e.visible :=
  congrArg (fun m => Greeks.mk m e.data) (MarketEvent.visible_fillData h {})

/-- `CandleSymbol::NUL` is made from its own text. -/
theorem valueOf_nulCandleSymbol (lib : StandardLibrary) :
    CandleSymbol.valueOf lib NUL = .ok nulCandleSymbol := rfl

theorem Candle.fillData_toGraal (lib : StandardLibrary) {e : Candle}
    (h : ∀ s ∈ e.eventSymbol, NoZero s.symbol ∧ CandleSymbol.valueOf lib s.symbol = .ok s) :
    Candle.fillData lib {} (Candle.toGraal e) = .ok e.visible := by
  have hsymbol : NoZero e.getEventSymbol.symbol ∧
      CandleSymbol.valueOf lib e.getEventSymbol.symbol = .ok e.getEventSymbol := by
    rw [Candle.getEventSymbol]
    cases hs : e.eventSymbol with
    | none => exact ⟨noZero_NUL, valueOf_nulCandleSymbol lib⟩
    | some s => exact h s hs
  have htext : NativeStrings.toString (Candle.toGraal e).event_symbol = e.getEventSymbol.symbol :=
    toString_createCString hsymbol.1
  rw [Candle.fillData, htext, hsymbol.2]
  rfl

theorem Underlying.visible_fillData {e : Underlying} (h : ∀ s ∈ e.eventSymbol, NoZero s) :
    (Underlying.fillData {} (Underlying.toGraal e)).visible = e.visible :=
  congrArg (fun m => Underlying.mk m e.data) (MarketEvent.visible_fillData h {})

theorem TheoPrice.visible_fillData {e : TheoPrice} (h : ∀ s ∈ e.eventSymbol, NoZero s) :
    (TheoPrice.fillData {} (TheoPrice.toGraal e)).visible = e.visible :=
  congrArg (fun m => TheoPrice.mk m e.data) (MarketEvent.visible_fillData h {})

theorem TradeBase.visible_fillData {e : TradeBase} (h : ∀ s ∈ e.eventSymbol, NoZero s)
    (b : TradeBase) :
    (TradeBase.fillData b { TradeBase.fillGraalData e {} with
      market_event.event_type.clazz := clazz }).visible = e.visible :=
  congrArg (fun m => TradeBase.mk m e.tradeBaseData)
    (MarketEvent.visible_fillData h b.toMarketEvent)

theorem Trade.visible_fillData {e : Trade} (h : ∀ s ∈ e.eventSymbol, NoZero s) :
    (Trade.fillData {} (Trade.toGraal e)).visible = e.visible :=
  congrArg Trade.mk (TradeBase.visible_fillData h {})

theorem TradeETH.visible_fillData {e : TradeETH} (h : ∀ s ∈ e.eventSymbol, NoZero s) :
    (TradeETH.fillData {} (TradeETH.toGraal e)).visible = e.visible :=
  congrArg TradeETH.mk (TradeBase.visible_fillData h {})

/-- Everything but the time. -/
theorem Message.visible_fillData {e : Message} (h : ∀ s ∈ e.eventSymbol, NoZero s)
    (hattachment : ∀ s ∈ e.attachment, NoZero s) :
    (Message.fillData {} (Message.toGraal e)).visible = { e.visible with eventTime := 0 } := by
  have hs : (Message.fillData {} (Message.toGraal e)).getEventSymbol = e.getEventSymbol :=
    getD_of_present h
  have ha : (Message.fillData {} (Message.toGraal e)).getAttachment = e.getAttachment :=
    getD_of_present hattachment
  rw [Message.visible, hs, ha]
  rfl

theorem TimeAndSale.visible_fillData {e : TimeAndSale} (h : ∀ s ∈ e.eventSymbol, NoZero s)
    (hconditions : ∀ s ∈ e.data.exchangeSaleConditions, NoZero s)
    (hbuyer : ∀ s ∈ e.data.buyer, NoZero s) (hseller : ∀ s ∈ e.data.seller, NoZero s) :
    (TimeAndSale.fillData {} (TimeAndSale.toGraal e)).visible = e.visible := by
  have hc : (TimeAndSale.fillData {} (TimeAndSale.toGraal e)).getExchangeSaleConditions =
      e.getExchangeSaleConditions := getD_toStringOpt hconditions
  have hb : (TimeAndSale.fillData {} (TimeAndSale.toGraal e)).getBuyer = e.getBuyer :=
    getD_toStringOpt hbuyer
  have hs : (TimeAndSale.fillData {} (TimeAndSale.toGraal e)).getSeller = e.getSeller :=
    getD_toStringOpt hseller
  rw [TimeAndSale.visible, hc, hb, hs]
  exact congrArg (fun m => TimeAndSale.mk m e.visible.data) (MarketEvent.visible_fillData h {})

theorem OrderBase.visible_fillData {e : OrderBase} (h : ∀ s ∈ e.eventSymbol, NoZero s)
    (b : OrderBase) :
    (OrderBase.fillData b { OrderBase.fillGraalData e {} with
      market_event.event_type.clazz := clazz }).visible = e.visible :=
  congrArg (fun m => OrderBase.mk m e.orderBaseData)
    (MarketEvent.visible_fillData h b.toMarketEvent)

theorem Order.visible_fillData {e : Order} (h : ∀ s ∈ e.eventSymbol, NoZero s)
    (hmaker : ∀ s ∈ e.orderData.marketMaker, NoZero s) (o : Order) :
    (Order.fillData o { Order.fillGraalData e {} with
      order_base.market_event.event_type.clazz := clazz }).visible = e.visible := by
  have hm : (toStringOpt (createCStringOpt e.orderData.marketMaker)).getD NUL =
      e.getMarketMaker := getD_toStringOpt hmaker
  exact congrArg₂ (fun b s => Order.mk b ⟨some s⟩)
    (OrderBase.visible_fillData h o.toOrderBase) hm

theorem AnalyticOrder.visible_fillData {e : AnalyticOrder} (h : ∀ s ∈ e.eventSymbol, NoZero s)
    (hmaker : ∀ s ∈ e.orderData.marketMaker, NoZero s) :
    (AnalyticOrder.fillData {} (AnalyticOrder.toGraal e)).visible = e.visible :=
  congrArg (fun o => AnalyticOrder.mk o e.analyticOrderData)
    (Order.visible_fillData h hmaker {})

theorem OtcMarketsOrder.visible_fillData {e : OtcMarketsOrder}
    (h : ∀ s ∈ e.eventSymbol, NoZero s) (hmaker : ∀ s ∈ e.orderData.marketMaker, NoZero s) :
    (OtcMarketsOrder.fillData {} (OtcMarketsOrder.toGraal e)).visible = e.visible :=
  congrArg (fun o => OtcMarketsOrder.mk o e.otcMarketsOrderData)
    (Order.visible_fillData h hmaker {})

theorem SpreadOrder.visible_fillData {e : SpreadOrder} (h : ∀ s ∈ e.eventSymbol, NoZero s)
    (hspread : ∀ s ∈ e.spreadOrderData.spreadSymbol, NoZero s) :
    (SpreadOrder.fillData {} (SpreadOrder.toGraal e)).visible = e.visible := by
  have hs : (toStringOpt (createCStringOpt e.spreadOrderData.spreadSymbol)).getD NUL =
      e.getSpreadSymbol := getD_toStringOpt hspread
  exact congrArg₂ (fun b s => SpreadOrder.mk b ⟨some s⟩) (OrderBase.visible_fillData h {}) hs

theorem Series.visible_fillData {e : Series} (h : ∀ s ∈ e.eventSymbol, NoZero s) :
    (Series.fillData {} (Series.toGraal e)).visible = e.visible :=
  congrArg (fun m => Series.mk m e.data) (MarketEvent.visible_fillData h {})

theorem OptionSale.visible_fillData {e : OptionSale} (h : ∀ s ∈ e.eventSymbol, NoZero s)
    (hconditions : ∀ s ∈ e.data.exchangeSaleConditions, NoZero s)
    (hoption : ∀ s ∈ e.data.optionSymbol, NoZero s) :
    (OptionSale.fillData {} (OptionSale.toGraal e)).visible = e.visible := by
  have hc : (OptionSale.fillData {} (OptionSale.toGraal e)).getExchangeSaleConditions =
      e.getExchangeSaleConditions := getD_toStringOpt hconditions
  have ho : (OptionSale.fillData {} (OptionSale.toGraal e)).getOptionSymbol =
      e.getOptionSymbol := getD_toStringOpt hoption
  rw [OptionSale.visible, hc, ho]
  exact congrArg (fun m => OptionSale.mk m e.visible.data) (MarketEvent.visible_fillData h {})

theorem TextMessage.visible_fillData {e : TextMessage} (h : ∀ s ∈ e.eventSymbol, NoZero s)
    (htext : NoZero e.text) :
    (TextMessage.fillData {} (TextMessage.toGraal e)).visible = e.visible := by
  have hs : (TextMessage.fillData {} (TextMessage.toGraal e)).getEventSymbol = e.getEventSymbol :=
    getD_of_present h
  have ht : (TextMessage.fillData {} (TextMessage.toGraal e)).text = e.text := by
    rw [← toString_createCString htext]
    change (if createCString e.text ≠ none then NativeStrings.toString (createCString e.text)
      else NUL) = _
    cases createCString e.text with
    | none => rfl
    | some t => rfl
  rw [TextMessage.visible, hs, ht]
  rfl

end Classes

/-! ## Round trips -/

section RoundTrips

variable (number : EventClazz → ℤ) (lib : StandardLibrary)

/-- No text is cut short, and the symbol of a candle is made again from its own text. -/
def Sendable : Event → Prop
  | .quote e => ∀ s ∈ e.eventSymbol, NoZero s
  | .profile e => (∀ s ∈ e.eventSymbol, NoZero s) ∧ (∀ s ∈ e.data.description, NoZero s) ∧
    ∀ s ∈ e.data.statusReason, NoZero s
  | .summary e => ∀ s ∈ e.eventSymbol, NoZero s
  | .greeks e => ∀ s ∈ e.eventSymbol, NoZero s
  | .candle e => ∀ s ∈ e.eventSymbol,
    NoZero s.symbol ∧ CandleSymbol.valueOf lib s.symbol = .ok s
  | .underlying e => ∀ s ∈ e.eventSymbol, NoZero s
  | .theoPrice e => ∀ s ∈ e.eventSymbol, NoZero s
  | .trade e => ∀ s ∈ e.eventSymbol, NoZero s
  | .tradeETH e => ∀ s ∈ e.eventSymbol, NoZero s
  | .message e => (∀ s ∈ e.eventSymbol, NoZero s) ∧ ∀ s ∈ e.attachment, NoZero s
  | .timeAndSale e => (∀ s ∈ e.eventSymbol, NoZero s) ∧
    (∀ s ∈ e.data.exchangeSaleConditions, NoZero s) ∧ (∀ s ∈ e.data.buyer, NoZero s) ∧
    ∀ s ∈ e.data.seller, NoZero s
  | .order e => (∀ s ∈ e.eventSymbol, NoZero s) ∧ ∀ s ∈ e.orderData.marketMaker, NoZero s
  | .analyticOrder e => (∀ s ∈ e.eventSymbol, NoZero s) ∧
    ∀ s ∈ e.orderData.marketMaker, NoZero s
  | .otcMarketsOrder e => (∀ s ∈ e.eventSymbol, NoZero s) ∧
    ∀ s ∈ e.orderData.marketMaker, NoZero s
  | .spreadOrder e => (∀ s ∈ e.eventSymbol, NoZero s) ∧
    ∀ s ∈ e.spreadOrderData.spreadSymbol, NoZero s
  | .series e => ∀ s ∈ e.eventSymbol, NoZero s
  | .optionSale e => (∀ s ∈ e.eventSymbol, NoZero s) ∧
    (∀ s ∈ e.data.exchangeSaleConditions, NoZero s) ∧ ∀ s ∈ e.data.optionSymbol, NoZero s
  | .textMessage e => (∀ s ∈ e.eventSymbol, NoZero s) ∧ NoZero e.text

/-- The event with the time that its class reads back. -/
def withTimeRead : Event → Event
  | .message e => .message { e with eventTime := 0 }
  | e => e

/-- The record of an event gives back an event that looks like it but for the time of a
message. -/
theorem fromGraal_toGraal {e : Event} (h : Sendable lib e) :
    ∃ e', fromGraal number lib (some (toGraal e)) = .ok (some e') ∧
      e'.visible = (withTimeRead e).visible := by
  cases e with
  | quote e => exact ⟨_, rfl, congrArg Event.quote (Quote.visible_fillData h)⟩
  | profile e => exact ⟨_, rfl, congrArg Event.profile (Profile.visible_fillData h.1 h.2.1 h.2.2)⟩
  | summary e => exact ⟨_, rfl, congrArg Event.summary (Summary.visible_fillData h)⟩
  | greeks e => exact ⟨_, rfl, congrArg Event.greeks (Greeks.visible_fillData h)⟩
  | candle e =>
    have hfill := Candle.fillData_toGraal lib h
    refine ⟨.candle e.visible, ?_, rfl⟩
    change (Candle.fillData lib {} (Candle.toGraal e)).map (some ∘ Event.candle) = _
    rw [hfill]
    rfl
  | underlying e => exact ⟨_, rfl, congrArg Event.underlying (Underlying.visible_fillData h)⟩
  | theoPrice e => exact ⟨_, rfl, congrArg Event.theoPrice (TheoPrice.visible_fillData h)⟩
  | trade e => exact ⟨_, rfl, congrArg Event.trade (Trade.visible_fillData h)⟩
  | tradeETH e => exact ⟨_, rfl, congrArg Event.tradeETH (TradeETH.visible_fillData h)⟩
  | message e => exact ⟨_, rfl, congrArg Event.message (Message.visible_fillData h.1 h.2)⟩
  | timeAndSale e =>
    obtain ⟨h, hconditions, hbuyer, hseller⟩ := h
    exact ⟨_, rfl, congrArg Event.timeAndSale
      (TimeAndSale.visible_fillData h hconditions hbuyer hseller)⟩
  | order e => exact ⟨_, rfl, congrArg Event.order (Order.visible_fillData h.1 h.2 {})⟩
  | analyticOrder e =>
    exact ⟨_, rfl, congrArg Event.analyticOrder (AnalyticOrder.visible_fillData h.1 h.2)⟩
  | otcMarketsOrder e =>
    exact ⟨_, rfl, congrArg Event.otcMarketsOrder (OtcMarketsOrder.visible_fillData h.1 h.2)⟩
  | spreadOrder e =>
    exact ⟨_, rfl, congrArg Event.spreadOrder (SpreadOrder.visible_fillData h.1 h.2)⟩
  | series e => exact ⟨_, rfl, congrArg Event.series (Series.visible_fillData h)⟩
  | optionSale e =>
    obtain ⟨h, hconditions, hoption⟩ := h
    exact ⟨_, rfl, congrArg Event.optionSale
      (OptionSale.visible_fillData h hconditions hoption)⟩
  | textMessage e =>
    exact ⟨_, rfl, congrArg Event.textMessage (TextMessage.visible_fillData h.1 h.2)⟩

theorem mapM_fromGraal {events : List Event} (h : ∀ e ∈ events, Sendable lib e) :
    ∃ received : List Event,
      (events.map (some ∘ toGraal)).mapM (fromGraal number lib) = .ok (received.map some) ∧
        received.map Event.visible = events.map (Event.visible ∘ withTimeRead) := by
  induction events with
  | nil => exact ⟨[], rfl, rfl⟩
  | cons e rest ih =>
    obtain ⟨e', he', hvisible⟩ := fromGraal_toGraal number lib (h e List.mem_cons_self)
    obtain ⟨received, hreceived, hrest⟩ := ih fun e he => h e (List.mem_cons_of_mem _ he)
    refine ⟨e' :: received, ?_, ?_⟩
    · simp only [List.map_cons, List.mapM_cons, Function.comp_apply, he', hreceived]
      rfl
    · simp only [List.map_cons, Function.comp_apply, hvisible, hrest]

/-- Every event of a list comes back in its place. -/
theorem fromGraalList_toGraal {events : List Event} (hlength : events.length < 2 ^ 31)
    (h : ∀ e ∈ events, Sendable lib e) :
    ∃ received : List Event,
      fromGraalList number lib
          ⟨Int32.ofNat events.length, events.map (some ∘ toGraal)⟩ = .ok (received.map some) ∧
        received.map Event.visible = events.map (Event.visible ∘ withTimeRead) := by
  have hsize : (Int32.ofNat events.length).toInt = events.length := by
    rw [Int32.toInt_ofNat_of_lt hlength]
  cases events with
  | nil => exact ⟨[], rfl, rfl⟩
  | cons e rest =>
    obtain ⟨received, hreceived, hvisible⟩ := mapM_fromGraal number lib h
    refine ⟨received, ?_, hvisible⟩
    have hpositive : ¬ Int32.ofNat (e :: rest).length ≤ 0 := by
      rw [Int32.le_iff_toInt_le, hsize]
      simp
    have henough : ¬ ((e :: rest).map (some ∘ toGraal)).length <
        (Int32.ofNat (e :: rest).length).toInt.toNat := by
      rw [hsize]
      simp
    rw [fromGraalList, if_neg hpositive, if_neg henough, List.take_of_length_le, hreceived]
    rw [hsize]
    simp

theorem visible_withTimeRead_iff {e : Event} :
    (withTimeRead e).visible = e.visible ↔ ∀ m, e = .message m → m.eventTime = 0 := by
  constructor
  · rintro hvisible m rfl
    have htime := congrArg Event.getEventTime hvisible
    exact htime.symm
  · intro hmessage
    cases e with
    | message m =>
      have htime := hmessage m rfl
      rw [withTimeRead, ← htime]
    | _ => rfl

/-- An event comes back from its record with the same getters exactly when it is not a message
that has a time. -/
theorem native_round_trip_iff (number : EventClazz → ℤ) (lib : StandardLibrary) {e : Event}
    (h : Sendable lib e) :
    (∃ e', fromGraal number lib (some (toGraal e)) = .ok (some e') ∧ e'.SameGetters e) ↔
      ∀ m, e = .message m → m.eventTime = 0 := by
  obtain ⟨received, hreceived, hvisible⟩ := fromGraal_toGraal number lib h
  rw [← visible_withTimeRead_iff, ← hvisible, ← Event.sameGetters_iff]
  constructor
  · rintro ⟨e', he', hsame⟩
    have heq : received = e' := Option.some.inj (Except.ok.inj (hreceived.symm.trans he'))
    rw [heq]
    exact hsame
  · intro hsame
    exact ⟨received, hreceived, hsame⟩

/-- An order of a market maker, which inherits fields from three levels. -/
def sampleOrder : AnalyticOrder where
  eventSymbol := some "IBM".toList
  eventTime := 5
  orderBaseData := { index := 1, price := .finite 100 }
  orderData := { marketMaker := some "NSDQ".toList }
  analyticOrderData := { icebergFlags := 1 }

theorem native_round_trip_sample :
    ∃ e', fromGraal (fun _ => 0) CandleNormalisation.binary64
      (some (toGraal (.analyticOrder sampleOrder))) = .ok (some e') ∧
        e'.SameGetters (.analyticOrder sampleOrder) := by
  have hsendable : Sendable CandleNormalisation.binary64 (.analyticOrder sampleOrder) := by
    constructor
    · rintro s ⟨⟩
      exact noZero_of_all (by decide)
    · rintro s ⟨⟩
      exact noZero_of_all (by decide)
  apply (native_round_trip_iff (fun _ => 0) CandleNormalisation.binary64 hsendable).mpr
  intro m hm
  cases hm

/-- A message without texts, received a millisecond after the epoch. -/
def timedMessage : Message where
  eventTime := 1

theorem time_of_message_lost :
    Sendable CandleNormalisation.binary64 (.message timedMessage) ∧
      ¬ ∃ e', fromGraal (fun _ => 0) CandleNormalisation.binary64
        (some (toGraal (.message timedMessage))) = .ok (some e') ∧
          e'.SameGetters (.message timedMessage) := by
  constructor
  · constructor
    · rintro s ⟨⟩
    · rintro s ⟨⟩
  · rintro ⟨e', he', -, hgetters⟩
    have hreceived : e' = .message {} := (Option.some.inj (Except.ok.inj he')).symm
    have htime := hgetters Event.getEventTime Event.getEventTime_readsNul
    rw [hreceived] at htime
    revert htime
    decide

end RoundTrips

end EventMapper
