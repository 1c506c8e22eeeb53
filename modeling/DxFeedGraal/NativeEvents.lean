import DxFeedGraal.EventClasses

/-! # Native event records and their conversions

A record starts with the tag of its class. Each class has two hand-written conversions, which
call those of its base class first; the tag is written again on every level. -/
namespace NativeEvents

open CppStrings DoubleValues CppNumbers CandleAttributes NativeStrings EventClasses

/-- `dxfg_event_clazz_t`. -/
inductive EventClazz where
  | QUOTE | PROFILE | SUMMARY | GREEKS | CANDLE | DAILY_CANDLE | UNDERLYING | THEO_PRICE
  | TRADE | TRADE_ETH | CONFIGURATION | MESSAGE | TIME_AND_SALE | ORDER_BASE | ORDER
  | ANALYTIC_ORDER | OTC_MARKETS_ORDER | SPREAD_ORDER | SERIES | OPTION_SALE | TEXT_MESSAGE
  | MARKET_MAKER | TEXT_CONFIGURATION
  | other (number : ℤ)
  deriving DecidableEq

/-- `isolated::toString`. -/
def EventClazz.toString : EventClazz → String
  | QUOTE => "DXFG_EVENT_QUOTE"
  | PROFILE => "DXFG_EVENT_PROFILE"
  | SUMMARY => "DXFG_EVENT_SUMMARY"
  | GREEKS => "DXFG_EVENT_GREEKS"
  | CANDLE => "DXFG_EVENT_CANDLE"
  | DAILY_CANDLE => "DXFG_EVENT_DAILY_CANDLE"
  | UNDERLYING => "DXFG_EVENT_UNDERLYING"
  | THEO_PRICE => "DXFG_EVENT_THEO_PRICE"
  | TRADE => "DXFG_EVENT_TRADE"
  | TRADE_ETH => "DXFG_EVENT_TRADE_ETH"
  | CONFIGURATION => "DXFG_EVENT_CONFIGURATION"
  | MESSAGE => "DXFG_EVENT_MESSAGE"
  | TIME_AND_SALE => "DXFG_EVENT_TIME_AND_SALE"
  | ORDER_BASE => "DXFG_EVENT_ORDER_BASE"
  | ORDER => "DXFG_EVENT_ORDER"
  | ANALYTIC_ORDER => "DXFG_EVENT_ANALYTIC_ORDER"
  | OTC_MARKETS_ORDER => "DXFG_EVENT_OTC_MARKETS_ORDER"
  | SPREAD_ORDER => "DXFG_EVENT_SPREAD_ORDER"
  | SERIES => "DXFG_EVENT_SERIES"
  | OPTION_SALE => "DXFG_EVENT_OPTION_SALE"
  | TEXT_MESSAGE => "DXFG_EVENT_TEXT_MESSAGE"
  | MARKET_MAKER => "DXFG_EVENT_MARKET_MAKER"
  | TEXT_CONFIGURATION => "DXFG_EVENT_TEXT_CONFIGURATION"
  | other _ => "UNKNOWN"

/-! ## Records

The defaults are those of value initialisation. -/

structure GraalEventType where
  clazz : EventClazz := .QUOTE

structure GraalMarketEvent where
  event_type : GraalEventType := {}
  event_symbol : CString := none
  event_time : Int64 := 0

structure GraalQuote where
  market_event : GraalMarketEvent := {}
  time_millis_sequence : Int32 := 0
  time_nano_part : Int32 := 0
  bid_time : Int64 := 0
  bid_exchange_code : Int16 := 0
  bid_price : Double := .finite 0
  bid_size : Double := .finite 0
  ask_time : Int64 := 0
  ask_exchange_code : Int16 := 0
  ask_price : Double := .finite 0
  ask_size : Double := .finite 0

structure GraalProfile where
  market_event : GraalMarketEvent := {}
  description : CString := none
  status_reason : CString := none
  halt_start_time : Int64 := 0
  halt_end_time : Int64 := 0
  high_limit_price : Double := .finite 0
  low_limit_price : Double := .finite 0
  high_52_week_price : Double := .finite 0
  low_52_week_price : Double := .finite 0
  beta : Double := .finite 0
  earnings_per_share : Double := .finite 0
  dividend_frequency : Double := .finite 0
  ex_dividend_amount : Double := .finite 0
  ex_dividend_day_id : Int32 := 0
  shares : Double := .finite 0
  free_float : Double := .finite 0
  flags : Int32 := 0

structure GraalSummary where
  market_event : GraalMarketEvent := {}
  day_id : Int32 := 0
  day_open_price : Double := .finite 0
  day_high_price : Double := .finite 0
  day_low_price : Double := .finite 0
  day_close_price : Double := .finite 0
  prev_day_id : Int32 := 0
  prev_day_close_price : Double := .finite 0
  prev_day_volume : Double := .finite 0
  open_interest : Int64 := 0
  flags : Int32 := 0

structure GraalGreeks where
  market_event : GraalMarketEvent := {}
  event_flags : Int32 := 0
  index : Int64 := 0
  price : Double := .finite 0
  volatility : Double := .finite 0
  delta : Double := .finite 0
  gamma : Double := .finite 0
  theta : Double := .finite 0
  rho : Double := .finite 0
  vega : Double := .finite 0

structure GraalCandle where
  event_type : GraalEventType := {}
  event_symbol : CString := none
  event_time : Int64 := 0
  event_flags : Int32 := 0
  index : Int64 := 0
  count : Int64 := 0
  «open» : Double := .finite 0
  high : Double := .finite 0
  low : Double := .finite 0
  close : Double := .finite 0
  volume : Double := .finite 0
  vwap : Double := .finite 0
  bid_volume : Double := .finite 0
  ask_volume : Double := .finite 0
  imp_volatility : Double := .finite 0
  open_interest : Double := .finite 0

structure GraalUnderlying where
  market_event : GraalMarketEvent := {}
  event_flags : Int32 := 0
  index : Int64 := 0
  volatility : Double := .finite 0
  front_volatility : Double := .finite 0
  back_volatility : Double := .finite 0
  call_volume : Double := .finite 0
  put_volume : Double := .finite 0
  put_call_ratio : Double := .finite 0

structure GraalTheoPrice where
  market_event : GraalMarketEvent := {}
  event_flags : Int32 := 0
  index : Int64 := 0
  price : Double := .finite 0
  underlying_price : Double := .finite 0
  delta : Double := .finite 0
  gamma : Double := .finite 0
  dividend : Double := .finite 0
  interest : Double := .finite 0

structure GraalTradeBase where
  market_event : GraalMarketEvent := {}
  time_sequence : Int64 := 0
  time_nano_part : Int32 := 0
  exchange_code : Int16 := 0
  price : Double := .finite 0
  change : Double := .finite 0
  size : Double := .finite 0
  day_id : Int32 := 0
  day_volume : Double := .finite 0
  day_turnover : Double := .finite 0
  flags : Int32 := 0

structure GraalTrade where
  trade_base : GraalTradeBase := {}

structure GraalTradeETH where
  trade_base : GraalTradeBase := {}

structure GraalMessage where
  event_type : GraalEventType := {}
  event_symbol : CString := none
  event_time : Int64 := 0
  attachment : CString := none

structure GraalTimeAndSale where
  market_event : GraalMarketEvent := {}
  event_flags : Int32 := 0
  index : Int64 := 0
  time_nano_part : Int32 := 0
  exchange_code : Int16 := 0
  price : Double := .finite 0
  size : Double := .finite 0
  bid_price : Double := .finite 0
  ask_price : Double := .finite 0
  exchange_sale_conditions : CString := none
  flags : Int32 := 0
  buyer : CString := none
  seller : CString := none

structure GraalOrderBase where
  market_event : GraalMarketEvent := {}
  event_flags : Int32 := 0
  index : Int64 := 0
  time_sequence : Int64 := 0
  time_nano_part : Int32 := 0
  action_time : Int64 := 0
  order_id : Int64 := 0
  aux_order_id : Int64 := 0
  price : Double := .finite 0
  size : Double := .finite 0
  executed_size : Double := .finite 0
  count : Int64 := 0
  flags : Int32 := 0
  trade_id : Int64 := 0
  trade_price : Double := .finite 0
  trade_size : Double := .finite 0

structure GraalOrder where
  order_base : GraalOrderBase := {}
  market_maker : CString := none

structure GraalAnalyticOrder where
  order_base : GraalOrder := {}
  iceberg_peak_size : Double := .finite 0
  iceberg_hidden_size : Double := .finite 0
  iceberg_executed_size : Double := .finite 0
  iceberg_flags : Int32 := 0

structure GraalOtcMarketsOrder where
  order_base : GraalOrder := {}
  quote_access_payment : Int32 := 0
  otc_markets_flags : Int32 := 0

structure GraalSpreadOrder where
  order_base : GraalOrderBase := {}
  spread_symbol : CString := none

structure GraalSeries where
  market_event : GraalMarketEvent := {}
  event_flags : Int32 := 0
  index : Int64 := 0
  time_sequence : Int64 := 0
  expiration : Int32 := 0
  volatility : Double := .finite 0
  call_volume : Double := .finite 0
  put_volume : Double := .finite 0
  put_call_ratio : Double := .finite 0
  forward_price : Double := .finite 0
  dividend : Double := .finite 0
  interest : Double := .finite 0

structure GraalOptionSale where
  market_event : GraalMarketEvent := {}
  event_flags : Int32 := 0
  index : Int64 := 0
  time_sequence : Int64 := 0
  time_nano_part : Int32 := 0
  exchange_code : Int16 := 0
  price : Double := .finite 0
  size : Double := .finite 0
  bid_price : Double := .finite 0
  ask_price : Double := .finite 0
  exchange_sale_conditions : CString := none
  flags : Int32 := 0
  underlying_price : Double := .finite 0
  volatility : Double := .finite 0
  delta : Double := .finite 0
  option_symbol : CString := none

structure GraalTextMessage where
  event_type : GraalEventType := {}
  event_symbol : CString := none
  event_time : Int64 := 0
  time_sequence : Int64 := 0
  text : CString := none

end NativeEvents
