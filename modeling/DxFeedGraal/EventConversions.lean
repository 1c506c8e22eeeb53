import DxFeedGraal.NativeEvents

/-! # Conversions of events to native records and back

Each class has two hand-written conversions, which call those of the base class first; the tag
of the class is written again on every level. -/
namespace EventConversions

open CppStrings CppNumbers CandleAttributes NativeStrings EventClasses NativeEvents

inductive Failure where
  | invalidArgumentException (message : String)
  | candleSymbol (failure : CppStrings.Failure)
  /-- The bytes of a record are read as another one. -/
  | undefinedBehaviour
  deriving DecidableEq

/-! ## One way and the other, class by class -/

def MarketEvent.fillData (_e : MarketEvent) (graal : GraalMarketEvent) : MarketEvent where
  eventSymbol := some (NativeStrings.toString graal.event_symbol)
  eventTime := graal.event_time

def MarketEvent.fillGraalData (e : MarketEvent) (graal : GraalMarketEvent) : GraalMarketEvent :=
  { graal with
    event_symbol := createCString e.getEventSymbol
    event_time := e.getEventTime }

def Quote.fillData (e : Quote) (graal : GraalQuote) : Quote where
  toMarketEvent := MarketEvent.fillData e.toMarketEvent graal.market_event
  data := {
    timeMillisSequence := graal.time_millis_sequence
    timeNanoPart := graal.time_nano_part
    bidTime := graal.bid_time
    bidExchangeCode := graal.bid_exchange_code
    bidPrice := graal.bid_price
    bidSize := graal.bid_size
    askTime := graal.ask_time
    askExchangeCode := graal.ask_exchange_code
    askPrice := graal.ask_price
    askSize := graal.ask_size }

def Quote.fillGraalData (e : Quote) (graal : GraalQuote) : GraalQuote :=
  let graal :=
    { graal with market_event := MarketEvent.fillGraalData e.toMarketEvent graal.market_event }
  { graal with
    market_event.event_type.clazz := .QUOTE
    time_millis_sequence := e.data.timeMillisSequence
    time_nano_part := e.data.timeNanoPart
    bid_time := e.data.bidTime
    bid_exchange_code := e.data.bidExchangeCode
    bid_price := e.data.bidPrice
    bid_size := e.data.bidSize
    ask_time := e.data.askTime
    ask_exchange_code := e.data.askExchangeCode
    ask_price := e.data.askPrice
    ask_size := e.data.askSize }

def Profile.fillData (e : Profile) (graal : GraalProfile) : Profile where
  toMarketEvent := MarketEvent.fillData e.toMarketEvent graal.market_event
  data := {
    description := toStringOpt graal.description
    statusReason := toStringOpt graal.status_reason
    haltStartTime := graal.halt_start_time
    haltEndTime := graal.halt_end_time
    highLimitPrice := graal.high_limit_price
    lowLimitPrice := graal.low_limit_price
    high52WeekPrice := graal.high_52_week_price
    low52WeekPrice := graal.low_52_week_price
    beta := graal.beta
    earningsPerShare := graal.earnings_per_share
    dividendFrequency := graal.dividend_frequency
    exDividendAmount := graal.ex_dividend_amount
    exDividendDayId := graal.ex_dividend_day_id
    shares := graal.shares
    freeFloat := graal.free_float
    flags := graal.flags }

def Profile.fillGraalData (e : Profile) (graal : GraalProfile) : GraalProfile :=
  let graal :=
    { graal with market_event := MarketEvent.fillGraalData e.toMarketEvent graal.market_event }
  { graal with
    market_event.event_type.clazz := .PROFILE
    description := createCStringOpt e.data.description
    status_reason := createCStringOpt e.data.statusReason
    halt_start_time := e.data.haltStartTime
    halt_end_time := e.data.haltEndTime
    high_limit_price := e.data.highLimitPrice
    low_limit_price := e.data.lowLimitPrice
    high_52_week_price := e.data.high52WeekPrice
    low_52_week_price := e.data.low52WeekPrice
    beta := e.data.beta
    earnings_per_share := e.data.earningsPerShare
    dividend_frequency := e.data.dividendFrequency
    ex_dividend_amount := e.data.exDividendAmount
    ex_dividend_day_id := e.data.exDividendDayId
    shares := e.data.shares
    free_float := e.data.freeFloat
    flags := e.data.flags }

def Summary.fillData (e : Summary) (graal : GraalSummary) : Summary where
  toMarketEvent := MarketEvent.fillData e.toMarketEvent graal.market_event
  data := {
    dayId := graal.day_id
    dayOpenPrice := graal.day_open_price
    dayHighPrice := graal.day_high_price
    dayLowPrice := graal.day_low_price
    dayClosePrice := graal.day_close_price
    prevDayId := graal.prev_day_id
    prevDayClosePrice := graal.prev_day_close_price
    prevDayVolume := graal.prev_day_volume
    openInterest := graal.open_interest
    flags := graal.flags }

def Summary.fillGraalData (e : Summary) (graal : GraalSummary) : GraalSummary :=
  let graal :=
    { graal with market_event := MarketEvent.fillGraalData e.toMarketEvent graal.market_event }
  { graal with
    market_event.event_type.clazz := .SUMMARY
    day_id := e.data.dayId
    day_open_price := e.data.dayOpenPrice
    day_high_price := e.data.dayHighPrice
    day_low_price := e.data.dayLowPrice
    day_close_price := e.data.dayClosePrice
    prev_day_id := e.data.prevDayId
    prev_day_close_price := e.data.prevDayClosePrice
    prev_day_volume := e.data.prevDayVolume
    open_interest := e.data.openInterest
    flags := e.data.flags }

def Greeks.fillData (e : Greeks) (graal : GraalGreeks) : Greeks where
  toMarketEvent := MarketEvent.fillData e.toMarketEvent graal.market_event
  data := {
    eventFlags := graal.event_flags
    index := graal.index
    price := graal.price
    volatility := graal.volatility
    delta := graal.delta
    gamma := graal.gamma
    theta := graal.theta
    rho := graal.rho
    vega := graal.vega }

def Greeks.fillGraalData (e : Greeks) (graal : GraalGreeks) : GraalGreeks :=
  let graal :=
    { graal with market_event := MarketEvent.fillGraalData e.toMarketEvent graal.market_event }
  { graal with
    market_event.event_type.clazz := .GREEKS
    event_flags := e.data.eventFlags
    index := e.data.index
    price := e.data.price
    volatility := e.data.volatility
    delta := e.data.delta
    gamma := e.data.gamma
    theta := e.data.theta
    rho := e.data.rho
    vega := e.data.vega }

section Candles

variable (lib : StandardLibrary)

/-- The symbol is copied, which reads its attributes from its text once more. -/
def Candle.fillData (_e : Candle) (graal : GraalCandle) : Except Failure Candle :=
  match CandleSymbol.valueOf lib (NativeStrings.toString graal.event_symbol) with
  | .error failure => .error (.candleSymbol failure)
  | .ok eventSymbol => .ok {
      eventSymbol := some eventSymbol
      data := {
        eventTime := graal.event_time
        eventFlags := graal.event_flags
        index := graal.index
        count := graal.count
        «open» := graal.«open»
        high := graal.high
        low := graal.low
        close := graal.close
        volume := graal.volume
        vwap := graal.vwap
        bidVolume := graal.bid_volume
        askVolume := graal.ask_volume
        impVolatility := graal.imp_volatility
        openInterest := graal.open_interest } }

def Candle.fillGraalData (e : Candle) (graal : GraalCandle) : GraalCandle :=
  { graal with
    event_type.clazz := .CANDLE
    event_symbol := createCString (e.eventSymbol.getD nulCandleSymbol).symbol
    event_time := e.data.eventTime
    event_flags := e.data.eventFlags
    index := e.data.index
    count := e.data.count
    «open» := e.data.«open»
    high := e.data.high
    low := e.data.low
    close := e.data.close
    volume := e.data.volume
    vwap := e.data.vwap
    bid_volume := e.data.bidVolume
    ask_volume := e.data.askVolume
    imp_volatility := e.data.impVolatility
    open_interest := e.data.openInterest }

end Candles

def Underlying.fillData (e : Underlying) (graal : GraalUnderlying) : Underlying where
  toMarketEvent := MarketEvent.fillData e.toMarketEvent graal.market_event
  data := {
    eventFlags := graal.event_flags
    index := graal.index
    volatility := graal.volatility
    frontVolatility := graal.front_volatility
    backVolatility := graal.back_volatility
    callVolume := graal.call_volume
    putVolume := graal.put_volume
    putCallRatio := graal.put_call_ratio }

def Underlying.fillGraalData (e : Underlying) (graal : GraalUnderlying) : GraalUnderlying :=
  let graal :=
    { graal with market_event := MarketEvent.fillGraalData e.toMarketEvent graal.market_event }
  { graal with
    market_event.event_type.clazz := .UNDERLYING
    event_flags := e.data.eventFlags
    index := e.data.index
    volatility := e.data.volatility
    front_volatility := e.data.frontVolatility
    back_volatility := e.data.backVolatility
    call_volume := e.data.callVolume
    put_volume := e.data.putVolume
    put_call_ratio := e.data.putCallRatio }

def TheoPrice.fillData (e : TheoPrice) (graal : GraalTheoPrice) : TheoPrice where
  toMarketEvent := MarketEvent.fillData e.toMarketEvent graal.market_event
  data := {
    eventFlags := graal.event_flags
    index := graal.index
    price := graal.price
    underlyingPrice := graal.underlying_price
    delta := graal.delta
    gamma := graal.gamma
    dividend := graal.dividend
    interest := graal.interest }

def TheoPrice.fillGraalData (e : TheoPrice) (graal : GraalTheoPrice) : GraalTheoPrice :=
  let graal :=
    { graal with market_event := MarketEvent.fillGraalData e.toMarketEvent graal.market_event }
  { graal with
    market_event.event_type.clazz := .THEO_PRICE
    event_flags := e.data.eventFlags
    index := e.data.index
    price := e.data.price
    underlying_price := e.data.underlyingPrice
    delta := e.data.delta
    gamma := e.data.gamma
    dividend := e.data.dividend
    interest := e.data.interest }

def TradeBase.fillData (e : TradeBase) (graal : GraalTradeBase) : TradeBase where
  toMarketEvent := MarketEvent.fillData e.toMarketEvent graal.market_event
  tradeBaseData := {
    timeSequence := graal.time_sequence
    timeNanoPart := graal.time_nano_part
    exchangeCode := graal.exchange_code
    price := graal.price
    change := graal.change
    size := graal.size
    dayId := graal.day_id
    dayVolume := graal.day_volume
    dayTurnover := graal.day_turnover
    flags := graal.flags }

def TradeBase.fillGraalData (e : TradeBase) (graal : GraalTradeBase) : GraalTradeBase :=
  let graal :=
    { graal with market_event := MarketEvent.fillGraalData e.toMarketEvent graal.market_event }
  { graal with
    time_sequence := e.tradeBaseData.timeSequence
    time_nano_part := e.tradeBaseData.timeNanoPart
    exchange_code := e.tradeBaseData.exchangeCode
    price := e.tradeBaseData.price
    change := e.tradeBaseData.change
    size := e.tradeBaseData.size
    day_id := e.tradeBaseData.dayId
    day_volume := e.tradeBaseData.dayVolume
    day_turnover := e.tradeBaseData.dayTurnover
    flags := e.tradeBaseData.flags }

def Trade.fillData (e : Trade) (graal : GraalTrade) : Trade where
  toTradeBase := TradeBase.fillData e.toTradeBase graal.trade_base

def Trade.fillGraalData (e : Trade) (graal : GraalTrade) : GraalTrade :=
  let graal :=
    { graal with trade_base := TradeBase.fillGraalData e.toTradeBase graal.trade_base }
  { graal with
    trade_base.market_event.event_type.clazz := .TRADE }

def TradeETH.fillData (e : TradeETH) (graal : GraalTradeETH) : TradeETH where
  toTradeBase := TradeBase.fillData e.toTradeBase graal.trade_base

def TradeETH.fillGraalData (e : TradeETH) (graal : GraalTradeETH) : GraalTradeETH :=
  let graal :=
    { graal with trade_base := TradeBase.fillGraalData e.toTradeBase graal.trade_base }
  { graal with
    trade_base.market_event.event_type.clazz := .TRADE_ETH }

/-- The time that `fillGraalData` writes is not read. -/
def Message.fillData (e : Message) (graal : GraalMessage) : Message :=
  { e with
    eventSymbol :=
      if graal.event_symbol ≠ none then some (NativeStrings.toString graal.event_symbol)
      else e.eventSymbol
    attachment :=
      if graal.attachment ≠ none then some (NativeStrings.toString graal.attachment)
      else e.attachment }

def Message.fillGraalData (e : Message) (graal : GraalMessage) : GraalMessage :=
  { graal with
    event_type.clazz := .MESSAGE
    event_symbol := createCStringOpt e.eventSymbol
    event_time := e.eventTime
    attachment := createCStringOpt e.attachment }

def TimeAndSale.fillData (e : TimeAndSale) (graal : GraalTimeAndSale) : TimeAndSale where
  toMarketEvent := MarketEvent.fillData e.toMarketEvent graal.market_event
  data := {
    eventFlags := graal.event_flags
    index := graal.index
    timeNanoPart := graal.time_nano_part
    exchangeCode := graal.exchange_code
    price := graal.price
    size := graal.size
    bidPrice := graal.bid_price
    askPrice := graal.ask_price
    exchangeSaleConditions := toStringOpt graal.exchange_sale_conditions
    flags := graal.flags
    buyer := toStringOpt graal.buyer
    seller := toStringOpt graal.seller }

def TimeAndSale.fillGraalData (e : TimeAndSale) (graal : GraalTimeAndSale) : GraalTimeAndSale :=
  let graal :=
    { graal with market_event := MarketEvent.fillGraalData e.toMarketEvent graal.market_event }
  { graal with
    market_event.event_type.clazz := .TIME_AND_SALE
    event_flags := e.data.eventFlags
    index := e.data.index
    time_nano_part := e.data.timeNanoPart
    exchange_code := e.data.exchangeCode
    price := e.data.price
    size := e.data.size
    bid_price := e.data.bidPrice
    ask_price := e.data.askPrice
    exchange_sale_conditions := createCStringOpt e.data.exchangeSaleConditions
    flags := e.data.flags
    buyer := createCStringOpt e.data.buyer
    seller := createCStringOpt e.data.seller }

def OrderBase.fillData (e : OrderBase) (graal : GraalOrderBase) : OrderBase where
  toMarketEvent := MarketEvent.fillData e.toMarketEvent graal.market_event
  orderBaseData := {
    eventFlags := graal.event_flags
    index := graal.index
    timeSequence := graal.time_sequence
    timeNanoPart := graal.time_nano_part
    actionTime := graal.action_time
    orderId := graal.order_id
    auxOrderId := graal.aux_order_id
    price := graal.price
    size := graal.size
    executedSize := graal.executed_size
    count := graal.count
    flags := graal.flags
    tradeId := graal.trade_id
    tradePrice := graal.trade_price
    tradeSize := graal.trade_size }

def OrderBase.fillGraalData (e : OrderBase) (graal : GraalOrderBase) : GraalOrderBase :=
  let graal :=
    { graal with market_event := MarketEvent.fillGraalData e.toMarketEvent graal.market_event }
  { graal with
    event_flags := e.orderBaseData.eventFlags
    index := e.orderBaseData.index
    time_sequence := e.orderBaseData.timeSequence
    time_nano_part := e.orderBaseData.timeNanoPart
    action_time := e.orderBaseData.actionTime
    order_id := e.orderBaseData.orderId
    aux_order_id := e.orderBaseData.auxOrderId
    price := e.orderBaseData.price
    size := e.orderBaseData.size
    executed_size := e.orderBaseData.executedSize
    count := e.orderBaseData.count
    flags := e.orderBaseData.flags
    trade_id := e.orderBaseData.tradeId
    trade_price := e.orderBaseData.tradePrice
    trade_size := e.orderBaseData.tradeSize }

def Order.fillData (e : Order) (graal : GraalOrder) : Order where
  toOrderBase := OrderBase.fillData e.toOrderBase graal.order_base
  orderData := {
    marketMaker := toStringOpt graal.market_maker }

def Order.fillGraalData (e : Order) (graal : GraalOrder) : GraalOrder :=
  let graal :=
    { graal with order_base := OrderBase.fillGraalData e.toOrderBase graal.order_base }
  { graal with
    order_base.market_event.event_type.clazz := .ORDER
    market_maker := createCStringOpt e.orderData.marketMaker }

def AnalyticOrder.fillData (e : AnalyticOrder) (graal : GraalAnalyticOrder) : AnalyticOrder where
  toOrder := Order.fillData e.toOrder graal.order_base
  analyticOrderData := {
    icebergPeakSize := graal.iceberg_peak_size
    icebergHiddenSize := graal.iceberg_hidden_size
    icebergExecutedSize := graal.iceberg_executed_size
    icebergFlags := graal.iceberg_flags }

def AnalyticOrder.fillGraalData (e : AnalyticOrder) (graal : GraalAnalyticOrder) :
    GraalAnalyticOrder :=
  let graal :=
    { graal with order_base := Order.fillGraalData e.toOrder graal.order_base }
  { graal with
    order_base.order_base.market_event.event_type.clazz := .ANALYTIC_ORDER
    iceberg_peak_size := e.analyticOrderData.icebergPeakSize
    iceberg_hidden_size := e.analyticOrderData.icebergHiddenSize
    iceberg_executed_size := e.analyticOrderData.icebergExecutedSize
    iceberg_flags := e.analyticOrderData.icebergFlags }

def OtcMarketsOrder.fillData (e : OtcMarketsOrder) (graal : GraalOtcMarketsOrder) :
    OtcMarketsOrder where
  toOrder := Order.fillData e.toOrder graal.order_base
  otcMarketsOrderData := {
    quoteAccessPayment := graal.quote_access_payment
    otcMarketsFlags := graal.otc_markets_flags }

def OtcMarketsOrder.fillGraalData (e : OtcMarketsOrder) (graal : GraalOtcMarketsOrder) :
    GraalOtcMarketsOrder :=
  let graal :=
    { graal with order_base := Order.fillGraalData e.toOrder graal.order_base }
  { graal with
    order_base.order_base.market_event.event_type.clazz := .OTC_MARKETS_ORDER
    quote_access_payment := e.otcMarketsOrderData.quoteAccessPayment
    otc_markets_flags := e.otcMarketsOrderData.otcMarketsFlags }

def SpreadOrder.fillData (e : SpreadOrder) (graal : GraalSpreadOrder) : SpreadOrder where
  toOrderBase := OrderBase.fillData e.toOrderBase graal.order_base
  spreadOrderData := {
    spreadSymbol := toStringOpt graal.spread_symbol }

def SpreadOrder.fillGraalData (e : SpreadOrder) (graal : GraalSpreadOrder) : GraalSpreadOrder :=
  let graal :=
    { graal with order_base := OrderBase.fillGraalData e.toOrderBase graal.order_base }
  { graal with
    order_base.market_event.event_type.clazz := .SPREAD_ORDER
    spread_symbol := createCStringOpt e.spreadOrderData.spreadSymbol }

def Series.fillData (e : Series) (graal : GraalSeries) : Series where
  toMarketEvent := MarketEvent.fillData e.toMarketEvent graal.market_event
  data := {
    eventFlags := graal.event_flags
    index := graal.index
    timeSequence := graal.time_sequence
    expiration := graal.expiration
    volatility := graal.volatility
    callVolume := graal.call_volume
    putVolume := graal.put_volume
    putCallRatio := graal.put_call_ratio
    forwardPrice := graal.forward_price
    dividend := graal.dividend
    interest := graal.interest }

def Series.fillGraalData (e : Series) (graal : GraalSeries) : GraalSeries :=
  let graal :=
    { graal with market_event := MarketEvent.fillGraalData e.toMarketEvent graal.market_event }
  { graal with
    market_event.event_type.clazz := .SERIES
    event_flags := e.data.eventFlags
    index := e.data.index
    time_sequence := e.data.timeSequence
    expiration := e.data.expiration
    volatility := e.data.volatility
    call_volume := e.data.callVolume
    put_volume := e.data.putVolume
    put_call_ratio := e.data.putCallRatio
    forward_price := e.data.forwardPrice
    dividend := e.data.dividend
    interest := e.data.interest }

def OptionSale.fillData (e : OptionSale) (graal : GraalOptionSale) : OptionSale where
  toMarketEvent := MarketEvent.fillData e.toMarketEvent graal.market_event
  data := {
    eventFlags := graal.event_flags
    index := graal.index
    timeSequence := graal.time_sequence
    timeNanoPart := graal.time_nano_part
    exchangeCode := graal.exchange_code
    price := graal.price
    size := graal.size
    bidPrice := graal.bid_price
    askPrice := graal.ask_price
    exchangeSaleConditions := toStringOpt graal.exchange_sale_conditions
    flags := graal.flags
    underlyingPrice := graal.underlying_price
    volatility := graal.volatility
    delta := graal.delta
    optionSymbol := toStringOpt graal.option_symbol }

def OptionSale.fillGraalData (e : OptionSale) (graal : GraalOptionSale) : GraalOptionSale :=
  let graal :=
    { graal with market_event := MarketEvent.fillGraalData e.toMarketEvent graal.market_event }
  { graal with
    market_event.event_type.clazz := .OPTION_SALE
    event_flags := e.data.eventFlags
    index := e.data.index
    time_sequence := e.data.timeSequence
    time_nano_part := e.data.timeNanoPart
    exchange_code := e.data.exchangeCode
    price := e.data.price
    size := e.data.size
    bid_price := e.data.bidPrice
    ask_price := e.data.askPrice
    exchange_sale_conditions := createCStringOpt e.data.exchangeSaleConditions
    flags := e.data.flags
    underlying_price := e.data.underlyingPrice
    volatility := e.data.volatility
    delta := e.data.delta
    option_symbol := createCStringOpt e.data.optionSymbol }

def TextMessage.fillData (e : TextMessage) (graal : GraalTextMessage) : TextMessage where
  eventSymbol :=
    if graal.event_symbol ≠ none then some (NativeStrings.toString graal.event_symbol)
    else e.eventSymbol
  eventTime := graal.event_time
  timeSequence := graal.time_sequence
  text := if graal.text ≠ none then NativeStrings.toString graal.text else NUL

def TextMessage.fillGraalData (e : TextMessage) (graal : GraalTextMessage) : GraalTextMessage :=
  { graal with
    event_type.clazz := .TEXT_MESSAGE
    event_symbol := createCStringOpt e.eventSymbol
    event_time := e.eventTime
    time_sequence := e.timeSequence
    text := createCString e.text }

def Quote.toGraal (e : Quote) : GraalQuote := Quote.fillGraalData e {}

def Profile.toGraal (e : Profile) : GraalProfile := Profile.fillGraalData e {}

def Summary.toGraal (e : Summary) : GraalSummary := Summary.fillGraalData e {}

def Greeks.toGraal (e : Greeks) : GraalGreeks := Greeks.fillGraalData e {}

def Candle.toGraal (e : Candle) : GraalCandle := Candle.fillGraalData e {}

def Underlying.toGraal (e : Underlying) : GraalUnderlying := Underlying.fillGraalData e {}

def TheoPrice.toGraal (e : TheoPrice) : GraalTheoPrice := TheoPrice.fillGraalData e {}

def Trade.toGraal (e : Trade) : GraalTrade := Trade.fillGraalData e {}

def TradeETH.toGraal (e : TradeETH) : GraalTradeETH := TradeETH.fillGraalData e {}

def Message.toGraal (e : Message) : GraalMessage := Message.fillGraalData e {}

def TimeAndSale.toGraal (e : TimeAndSale) : GraalTimeAndSale := TimeAndSale.fillGraalData e {}

def Order.toGraal (e : Order) : GraalOrder := Order.fillGraalData e {}

def AnalyticOrder.toGraal (e : AnalyticOrder) : GraalAnalyticOrder :=
  AnalyticOrder.fillGraalData e {}

def OtcMarketsOrder.toGraal (e : OtcMarketsOrder) : GraalOtcMarketsOrder :=
  OtcMarketsOrder.fillGraalData e {}

def SpreadOrder.toGraal (e : SpreadOrder) : GraalSpreadOrder := SpreadOrder.fillGraalData e {}

def Series.toGraal (e : Series) : GraalSeries := Series.fillGraalData e {}

def OptionSale.toGraal (e : OptionSale) : GraalOptionSale := OptionSale.fillGraalData e {}

def TextMessage.toGraal (e : TextMessage) : GraalTextMessage := TextMessage.fillGraalData e {}

/-! ## Whole events

A record of another class is refused by the class that was asked for, in one of two wordings. -/

section Creation

variable (number : EventClazz → ℤ)

/-- With the numbers of the enumerators, which the generated header gives. -/
def wrongEventClass (name : String) (found expected : EventClazz) : String :=
  "Unable to create " ++ name ++ ". Wrong event class " ++ ToString.toString (number found) ++
    "! Expected: " ++ ToString.toString (number expected) ++ "."

def wrongEventClassByName (name : String) (found expected : EventClazz) : String :=
  "Unable to create " ++ name ++ ". Wrong event class " ++ found.toString ++ "(" ++
    ToString.toString (number found) ++ ")! Expected: " ++ expected.toString

/-- `fromGraal` of a class: the null pointer, then the tag, then the fields. -/
def createFromGraal {N E : Type} (name : String) (clazz : EventClazz)
    (wrong : String → EventClazz → EventClazz → String) (tag : N → GraalEventType)
    (fill : N → Except Failure E) : Option N → Except Failure E
  | none => .error (.invalidArgumentException
      ("Unable to create " ++ name ++ ". The `graalNative` parameter is nullptr"))
  | some graal =>
    if (tag graal).clazz ≠ clazz then
      .error (.invalidArgumentException (wrong name (tag graal).clazz clazz))
    else fill graal

def Quote.fromGraal : Option GraalQuote → Except Failure Quote :=
  createFromGraal "Quote" .QUOTE (wrongEventClass number)
    (fun graal => graal.market_event.event_type) fun graal => .ok (Quote.fillData {} graal)

def Profile.fromGraal : Option GraalProfile → Except Failure Profile :=
  createFromGraal "Profile" .PROFILE (wrongEventClass number)
    (fun graal => graal.market_event.event_type) fun graal => .ok (Profile.fillData {} graal)

def Summary.fromGraal : Option GraalSummary → Except Failure Summary :=
  createFromGraal "Summary" .SUMMARY (wrongEventClass number)
    (fun graal => graal.market_event.event_type) fun graal => .ok (Summary.fillData {} graal)

def Greeks.fromGraal : Option GraalGreeks → Except Failure Greeks :=
  createFromGraal "Greeks" .GREEKS (wrongEventClass number)
    (fun graal => graal.market_event.event_type) fun graal => .ok (Greeks.fillData {} graal)

def Candle.fromGraal (lib : StandardLibrary) : Option GraalCandle → Except Failure Candle :=
  createFromGraal "Candle" .CANDLE (wrongEventClassByName number)
    (fun graal => graal.event_type) fun graal => Candle.fillData lib {} graal

def Underlying.fromGraal : Option GraalUnderlying → Except Failure Underlying :=
  createFromGraal "Underlying" .UNDERLYING (wrongEventClass number)
    (fun graal => graal.market_event.event_type) fun graal => .ok (Underlying.fillData {} graal)

def TheoPrice.fromGraal : Option GraalTheoPrice → Except Failure TheoPrice :=
  createFromGraal "TheoPrice" .THEO_PRICE (wrongEventClass number)
    (fun graal => graal.market_event.event_type) fun graal => .ok (TheoPrice.fillData {} graal)

def Trade.fromGraal : Option GraalTrade → Except Failure Trade :=
  createFromGraal "Trade" .TRADE (wrongEventClass number)
    (fun graal => graal.trade_base.market_event.event_type)
    fun graal => .ok (Trade.fillData {} graal)

def TradeETH.fromGraal : Option GraalTradeETH → Except Failure TradeETH :=
  createFromGraal "TradeETH" .TRADE_ETH (wrongEventClass number)
    (fun graal => graal.trade_base.market_event.event_type)
    fun graal => .ok (TradeETH.fillData {} graal)

def Message.fromGraal : Option GraalMessage → Except Failure Message :=
  createFromGraal "Message" .MESSAGE (wrongEventClass number)
    (fun graal => graal.event_type) fun graal => .ok (Message.fillData {} graal)

def TimeAndSale.fromGraal : Option GraalTimeAndSale → Except Failure TimeAndSale :=
  createFromGraal "TimeAndSale" .TIME_AND_SALE (wrongEventClass number)
    (fun graal => graal.market_event.event_type) fun graal => .ok (TimeAndSale.fillData {} graal)

def Order.fromGraal : Option GraalOrder → Except Failure Order :=
  createFromGraal "Order" .ORDER (wrongEventClassByName number)
    (fun graal => graal.order_base.market_event.event_type)
    fun graal => .ok (Order.fillData {} graal)

def AnalyticOrder.fromGraal : Option GraalAnalyticOrder → Except Failure AnalyticOrder :=
  createFromGraal "AnalyticOrder" .ANALYTIC_ORDER (wrongEventClassByName number)
    (fun graal => graal.order_base.order_base.market_event.event_type)
    fun graal => .ok (AnalyticOrder.fillData {} graal)

def OtcMarketsOrder.fromGraal : Option GraalOtcMarketsOrder → Except Failure OtcMarketsOrder :=
  createFromGraal "OtcMarketsOrder" .OTC_MARKETS_ORDER (wrongEventClass number)
    (fun graal => graal.order_base.order_base.market_event.event_type)
    fun graal => .ok (OtcMarketsOrder.fillData {} graal)

def SpreadOrder.fromGraal : Option GraalSpreadOrder → Except Failure SpreadOrder :=
  createFromGraal "SpreadOrder" .SPREAD_ORDER (wrongEventClass number)
    (fun graal => graal.order_base.market_event.event_type)
    fun graal => .ok (SpreadOrder.fillData {} graal)

def Series.fromGraal : Option GraalSeries → Except Failure Series :=
  createFromGraal "Series" .SERIES (wrongEventClass number)
    (fun graal => graal.market_event.event_type) fun graal => .ok (Series.fillData {} graal)

def OptionSale.fromGraal : Option GraalOptionSale → Except Failure OptionSale :=
  createFromGraal "OptionSale" .OPTION_SALE (wrongEventClassByName number)
    (fun graal => graal.market_event.event_type) fun graal => .ok (OptionSale.fillData {} graal)

def TextMessage.fromGraal : Option GraalTextMessage → Except Failure TextMessage :=
  createFromGraal "TextMessage" .TEXT_MESSAGE (wrongEventClass number)
    (fun graal => graal.event_type) fun graal => .ok (TextMessage.fillData {} graal)

end Creation

end EventConversions
