import DxFeedGraal.CppNumbers
import DxFeedGraal.MarketEventSymbols

/-! # Attributes of candle symbols

Every kind of attribute has a key, a default, a printer and a parser. Reading and
normalising a symbol are the same code for all kinds. -/
namespace CandleAttributes

open CppStrings CppNumbers DoubleValues MarketEventSymbols

structure AttributeKind (α : Type) where
  attributeKey : Text
  default : α
  equals : α → α → Bool
  toText : α → Text
  parse : Text → Cpp α

def AttributeKind.getAttributeForSymbol {α : Type} (kind : AttributeKind α) (symbol : Text) :
    Cpp α := do
  match ← getAttributeStringByKey symbol kind.attributeKey with
  | none => return kind.default
  | some s => kind.parse s

/-- An invalid argument is caught and leaves the symbol as it was; other exceptions leave. -/
def AttributeKind.normalizeAttributeForSymbol {α : Type} (kind : AttributeKind α) (symbol : Text) :
    Cpp Text := do
  match ← getAttributeStringByKey symbol kind.attributeKey with
  | none => return symbol
  | some a =>
    let normalized : Cpp Text := do
      let other ← kind.parse a
      if kind.equals other kind.default then
        removeAttributeStringByKey symbol kind.attributeKey
      else if a ≠ kind.toText other then
        changeAttributeStringByKey symbol kind.attributeKey (kind.toText other)
      else
        return symbol
    match normalized with
    | .error (.invalidArgument _) => return symbol
    | result => result

/-- The default takes the key away. -/
def AttributeKind.changeAttributeForSymbol {α : Type} (kind : AttributeKind α) (x : α)
    (symbol : Text) : Cpp Text :=
  if kind.equals x kind.default then removeAttributeStringByKey symbol kind.attributeKey
  else changeAttributeStringByKey symbol kind.attributeKey (kind.toText x)

/-- A value is found by its whole text, or else as the first whose text starts with `s` in
any letter case. -/
def parseByPrefix {α : Type} (values : List α) (toText : α → Text) (missing unknown s : Text) :
    Cpp α :=
  if s = [] then .error (.invalidArgument missing)
  else
    match values.find? fun v => toText v = s with
    | some v => .ok v
    | none =>
      match values.find? fun v =>
        decide (s.length ≤ (toText v).length) && iEquals ((toText v).take s.length) s with
      | some v => .ok v
      | none => .error (.invalidArgument (unknown ++ s))

inductive CandlePrice
  | last
  | bid
  | ask
  | mark
  | settlement
  deriving DecidableEq

namespace CandlePrice

def toText : CandlePrice → Text
  | last => "last".toList
  | bid => "bid".toList
  | ask => "ask".toList
  | mark => "mark".toList
  | settlement => "s".toList

def values : List CandlePrice := [last, bid, ask, mark, settlement]

def parse : Text → Cpp CandlePrice :=
  parseByPrefix values toText "Missing candle price".toList "Unknown candle price: ".toList

def kind : AttributeKind CandlePrice where
  attributeKey := "price".toList
  default := last
  equals a b := a == b
  toText := toText
  parse := parse

end CandlePrice

/-- Two sessions are equal when their filters and texts are, so when they are the same. -/
inductive CandleSession
  | any
  | regular
  deriving DecidableEq

namespace CandleSession

def toText : CandleSession → Text
  | any => "false".toList
  | regular => "true".toList

def values : List CandleSession := [any, regular]

def parse : Text → Cpp CandleSession :=
  parseByPrefix values toText "Missing candle session".toList "Unknown candle session: ".toList

def kind : AttributeKind CandleSession where
  attributeKey := "tho".toList
  default := any
  equals a b := a == b
  toText := toText
  parse := parse

end CandleSession

inductive CandleAlignment
  | midnight
  | session
  deriving DecidableEq

namespace CandleAlignment

def toText : CandleAlignment → Text
  | midnight => "m".toList
  | session => "s".toList

def values : List CandleAlignment := [midnight, session]

/-- The whole text has to agree, in any letter case. -/
def parse (s : Text) : Cpp CandleAlignment :=
  match values.find? fun v => toText v = s with
  | some v => .ok v
  | none =>
    match values.find? fun v => iEquals (toText v) s with
    | some v => .ok v
    | none => .error (.invalidArgument ("Unknown candle alignment: ".toList ++ s))

def kind : AttributeKind CandleAlignment where
  attributeKey := "a".toList
  default := midnight
  equals a b := a == b
  toText := toText
  parse := parse

end CandleAlignment

inductive CandleType
  | tick
  | second
  | minute
  | hour
  | day
  | week
  | month
  | optexp
  | year
  | volume
  | price
  | priceMomentum
  | priceRenko
  deriving DecidableEq

namespace CandleType

def name : CandleType → Text
  | tick => "TICK".toList
  | second => "SECOND".toList
  | minute => "MINUTE".toList
  | hour => "HOUR".toList
  | day => "DAY".toList
  | week => "WEEK".toList
  | month => "MONTH".toList
  | optexp => "OPTEXP".toList
  | year => "YEAR".toList
  | volume => "VOLUME".toList
  | price => "PRICE".toList
  | priceMomentum => "PRICE_MOMENTUM".toList
  | priceRenko => "PRICE_RENKO".toList

def toText : CandleType → Text
  | tick => "t".toList
  | second => "s".toList
  | minute => "m".toList
  | hour => "h".toList
  | day => "d".toList
  | week => "w".toList
  | month => "mo".toList
  | optexp => "o".toList
  | year => "y".toList
  | volume => "v".toList
  | price => "p".toList
  | priceMomentum => "pm".toList
  | priceRenko => "pr".toList

def values : List CandleType :=
  [tick, second, minute, hour, day, week, month, optexp, year, volume, price, priceMomentum,
    priceRenko]

/-- By the whole abbreviation, or else by the start of the name or by its plural. -/
def parse (s : Text) : Cpp CandleType :=
  if s = [] then .error (.invalidArgument "Missing candle type".toList)
  else
    match values.find? fun v => toText v = s with
    | some v => .ok v
    | none =>
      match values.find? fun v =>
        (decide (s.length ≤ (name v).length) && iEquals ((name v).take s.length) s)
          || (s.getLast? == some 's' && iEquals (name v) s.dropLast) with
      | some v => .ok v
      | none => .error (.invalidArgument ("Unknown candle type: ".toList ++ s))

end CandleType

structure CandlePeriod where
  value : Double
  type : CandleType
  deriving DecidableEq

namespace CandlePeriod

def tick : CandlePeriod := ⟨.finite 1, .tick⟩

def day : CandlePeriod := ⟨.finite 1, .day⟩

def defaultPeriodValue : Double := .finite 1

def equals (a b : CandlePeriod) : Bool := CppNumbers.equals a.value b.value && a.type == b.type

def toText (p : CandlePeriod) : Text :=
  if CppNumbers.equals p.value defaultPeriodValue then p.type.toText
  else if CppNumbers.equals p.value (.finite (toInt64 p.value)) then
    int64ToString (toInt64 p.value) ++ p.type.toText
  else
    doubleToString p.value ++ p.type.toText

def valueOf (value : Double) (type : CandleType) : CandlePeriod :=
  if value.eq (.finite 1) = true ∧ type = .day then day
  else if value.eq (.finite 1) = true ∧ type = .tick then tick
  else ⟨value, type⟩

def isValueChar (c : Char) : Bool :=
  (decide ('0' ≤ c) && decide (c ≤ '9')) || c == '.' || c == '-' || c == '+' || c == 'e' || c == 'E'

/-- The value is read from the whole text, the type from what follows the value. -/
def parse (lib : StandardLibrary) (s : Text) : Cpp CandlePeriod :=
  if s = CandleType.day.toText then .ok day
  else if s = CandleType.tick.toText then .ok tick
  else do
    let valueStr := s.takeWhile isValueChar
    let typeStr := s.dropWhile isValueChar
    let value ← if valueStr = [] then .ok (.finite 1) else toDouble lib s
    let type ← CandleType.parse typeStr
    return valueOf value type

def kind (lib : StandardLibrary) : AttributeKind CandlePeriod where
  attributeKey := []
  default := tick
  equals := equals
  toText := toText
  parse := parse lib

end CandlePeriod

structure CandlePriceLevel where
  value : Double
  deriving DecidableEq

namespace CandlePriceLevel

def default : CandlePriceLevel := ⟨.nan⟩

def equals (a b : CandlePriceLevel) : Bool := CppNumbers.equals a.value b.value

def toText (l : CandlePriceLevel) : Text :=
  if CppNumbers.equals l.value (.finite (toInt64 l.value)) then int64ToString (toInt64 l.value)
  else doubleToString l.value

/-- `dxfcpp::toString` of the values that are refused. -/
def refusedText : Double → Text
  | .posInf => "inf.0".toList
  | .negInf => "-inf.0".toList
  | _ => "-0.0".toList

def valueOf (value : Double) : Cpp CandlePriceLevel :=
  if value.isInf = true ∨ value = .negZero then
    .error (.invalidArgument ("Incorrect candle price level: ".toList ++ refusedText value))
  else if value.isNaN then .ok default
  else .ok ⟨value⟩

def parse (lib : StandardLibrary) (s : Text) : Cpp CandlePriceLevel := stod lib s >>= valueOf

def kind (lib : StandardLibrary) : AttributeKind CandlePriceLevel where
  attributeKey := "pl".toList
  default := default
  equals := equals
  toText := toText
  parse := parse lib

end CandlePriceLevel

structure CandleExchange where
  exchangeCode : Char
  deriving DecidableEq

namespace CandleExchange

def composite : CandleExchange := ⟨Char.ofNat 0⟩

def valueOf (exchangeCode : Char) : CandleExchange :=
  if exchangeCode = Char.ofNat 0 then composite else ⟨exchangeCode⟩

def getAttributeForSymbol (symbol : Text) : CandleExchange := valueOf (getExchangeCode symbol)

def changeAttributeForSymbol (exchange : CandleExchange) (symbol : Text) : Cpp Text :=
  changeExchangeCode symbol exchange.exchangeCode

end CandleExchange

/-- `CandleSymbolAttributeVariant`. -/
inductive CandleSymbolAttribute
  | exchange (e : CandleExchange)
  | price (p : CandlePrice)
  | session (s : CandleSession)
  | period (p : CandlePeriod)
  | alignment (a : CandleAlignment)
  | priceLevel (l : CandlePriceLevel)
  deriving DecidableEq

structure CandleSymbol where
  symbol : Text
  baseSymbol : Text
  exchange : CandleExchange
  price : CandlePrice
  session : CandleSession
  period : CandlePeriod
  alignment : CandleAlignment
  priceLevel : CandlePriceLevel
  deriving DecidableEq

namespace CandleSymbol

variable (lib : StandardLibrary)

/-- The pass over the session is itself `noexcept`. -/
def normalize (s : Text) : Cpp Text :=
  noexcept do
    let symbol ← CandlePrice.kind.normalizeAttributeForSymbol s
    let symbol ← noexcept (CandleSession.kind.normalizeAttributeForSymbol symbol)
    let symbol ← (CandlePeriod.kind lib).normalizeAttributeForSymbol symbol
    let symbol ← CandleAlignment.kind.normalizeAttributeForSymbol symbol
    (CandlePriceLevel.kind lib).normalizeAttributeForSymbol symbol

/-- The getters of the price and of the period are themselves `noexcept`. -/
def initTransientFields (symbol : Text) : Cpp CandleSymbol :=
  noexcept do
    let baseSymbol ← getBaseSymbol symbol
    let exchange := CandleExchange.getAttributeForSymbol symbol
    let price ← noexcept (CandlePrice.kind.getAttributeForSymbol symbol)
    let session ← CandleSession.kind.getAttributeForSymbol symbol
    let period ← noexcept ((CandlePeriod.kind lib).getAttributeForSymbol symbol)
    let alignment ← CandleAlignment.kind.getAttributeForSymbol symbol
    let priceLevel ← (CandlePriceLevel.kind lib).getAttributeForSymbol symbol
    return ⟨symbol, baseSymbol, exchange, price, session, period, alignment, priceLevel⟩

def valueOf (symbol : Text) : Cpp CandleSymbol :=
  noexcept (normalize lib symbol >>= initTransientFields lib)

def changeAttribute (symbol : Text) (variant : CandleSymbolAttribute) : Cpp Text :=
  noexcept <|
    match variant with
    | .exchange e => e.changeAttributeForSymbol symbol
    | .price p => CandlePrice.kind.changeAttributeForSymbol p symbol
    | .session s => CandleSession.kind.changeAttributeForSymbol s symbol
    | .period p => (CandlePeriod.kind lib).changeAttributeForSymbol p symbol
    | .alignment a => CandleAlignment.kind.changeAttributeForSymbol a symbol
    | .priceLevel l => (CandlePriceLevel.kind lib).changeAttributeForSymbol l symbol

def changeAttributes (s : Text) (attributes : List CandleSymbolAttribute) : Cpp Text :=
  noexcept (attributes.foldlM (changeAttribute lib) s)

/-- `valueOf` of a symbol and attributes. -/
def valueOfAttributes (symbol : Text) (attributes : List CandleSymbolAttribute) :
    Cpp CandleSymbol :=
  noexcept (changeAttributes lib symbol attributes >>= normalize lib >>= initTransientFields lib)

end CandleSymbol

end CandleAttributes
