import DxFeedGraal.DoubleValues
import DxFeedGraal.KeyedLists
import DxFeedGraal.LayeredOrders
import DxFeedGraal.NativeStrings
import DxFeedGraal.PartialRuns
import Mathlib.Data.List.Lex

/-! # Option chains and their builder

The builder keeps the attributes of the profile it reads; a chain keeps its series in a set
ordered by ten of them, takes a series out to change it and puts it back. -/
namespace OptionChains

open CppStrings DoubleValues NativeStrings OrderedSet LayeredOrders PartialRuns

/-! ## Profiles -/

/-- The fields that the builder reads. -/
structure InstrumentProfile where
  type : Text := []
  product : Text := []
  underlying : Text := []
  expiration : Int32 := 0
  lastTrade : Int32 := 0
  multiplier : Double := .finite 0
  spc : Double := .finite 0
  additionalUnderlyings : Text := []
  mmy : Text := []
  optionType : Text := []
  expirationStyle : Text := []
  settlementStyle : Text := []
  cfi : Text := []
  strike : Double := .finite 0
  deriving DecidableEq

/-! ## Series -/

/-- Options stand in the order of their strikes; `strikes` caches these when it is not empty. -/
structure OptionSeries (π : Type*) where
  expiration : Int32 := 0
  lastTrade : Int32 := 0
  multiplier : Double := .finite 0
  spc : Double := .finite 0
  additionalUnderlyings : Text := []
  mmy : Text := []
  optionType : Text := []
  expirationStyle : Text := []
  settlementStyle : Text := []
  cfi : Text := []
  calls : List (Double × π) := []
  puts : List (Double × π) := []
  strikes : List Double := []
  deriving DecidableEq

variable {π : Type*}

namespace OptionSeries

/-- `operator<`. A comparison of doubles with `!=` holds as soon as one of them is no number. -/
def less (a b : OptionSeries π) : Bool :=
  if a.expiration ≠ b.expiration then a.expiration < b.expiration
  else if a.lastTrade ≠ b.lastTrade then a.lastTrade < b.lastTrade
  else if !a.multiplier.eq b.multiplier then a.multiplier.less b.multiplier
  else if !a.spc.eq b.spc then a.spc.less b.spc
  else if a.additionalUnderlyings ≠ b.additionalUnderlyings then
    a.additionalUnderlyings < b.additionalUnderlyings
  else if a.mmy ≠ b.mmy then a.mmy < b.mmy
  else if a.optionType ≠ b.optionType then a.optionType < b.optionType
  else if a.expirationStyle ≠ b.expirationStyle then a.expirationStyle < b.expirationStyle
  else if a.settlementStyle ≠ b.settlementStyle then a.settlementStyle < b.settlementStyle
  else a.cfi < b.cfi

def options (s : OptionSeries π) (isCall : Bool) : List (Double × π) :=
  if isCall then s.calls else s.puts

def strikeLess (a b : Double × π) : Bool := a.1.less b.1

/-- `map.emplace` leaves an option alone that stands at the strike. -/
def addOption (s : OptionSeries π) (isCall : Bool) (strike : Double) (option : π) :
    OptionSeries π :=
  let emplaced := OrderedSet.insert strikeLess (strike, option) (s.options isCall)
  let s := if emplaced.2 then { s with strikes := [] } else s
  if isCall then { s with calls := emplaced.1 } else { s with puts := emplaced.1 }

/-- `getCalls().find(strike)` and `getPuts().find(strike)`. -/
def optionAt (s : OptionSeries π) (isCall : Bool) (strike : Double) : Option π :=
  ((s.options isCall).find? fun option => option.1.eq strike).map Prod.snd

end OptionSeries

/-! ## Chains -/

structure OptionChain (π : Type*) where
  symbol : Text
  series : List (OptionSeries π) := []
  deriving DecidableEq

/-- Without a result where `std::set` is given a comparison that is no strict weak order on its
elements and the key. -/
def OptionChain.addOption (c : OptionChain π) (series : OptionSeries π) (isCall : Bool)
    (strike : Double) (option : π) : Option (OptionChain π) :=
  if StrictWeakOn OptionSeries.less (series :: c.series) then
    match find OptionSeries.less series c.series with
    | none =>
      let os := series.addOption isCall strike option
      some { c with series := (insert OptionSeries.less os c.series).1 }
    | some it =>
      let rest := (erase OptionSeries.less it c.series).1
      let modifiedSeries := it.addOption isCall strike option
      some { c with series := (insert OptionSeries.less modifiedSeries rest).1 }
  else none

/-! ## The builder -/

structure OptionChainsBuilder (π : Type*) where
  product : Text := []
  underlying : Text := []
  series : OptionSeries π := {}
  cfi : Text := []
  strike : Double := .finite 0
  chains : List (OptionChain π) := []
  deriving DecidableEq

/-- What the setters store: `String::NUL` stands for a text that is not there. -/
def orEmpty (s : Text) : Text := if s = NUL ∨ s = [] then [] else s

/-- The code with `X` for its second letter. -/
def anySide (cfi : Text) : Text :=
  if cfi.length < 2 then cfi else cfi.take 1 ++ ['X'] ++ cfi.drop 2

namespace OptionChainsBuilder

variable (b : OptionChainsBuilder π)

def setProduct (product : Text) := { b with product := orEmpty product }
def setUnderlying (underlying : Text) := { b with underlying := orEmpty underlying }
def setExpiration (expiration : Int32) := { b with series.expiration := expiration }
def setLastTrade (lastTrade : Int32) := { b with series.lastTrade := lastTrade }
def setMultiplier (multiplier : Double) := { b with series.multiplier := multiplier }
def setSPC (spc : Double) := { b with series.spc := spc }
def setAdditionalUnderlyings (additionalUnderlyings : Text) :=
  { b with series.additionalUnderlyings := orEmpty additionalUnderlyings }
def setMMY (mmy : Text) := { b with series.mmy := orEmpty mmy }
def setOptionType (optionType : Text) := { b with series.optionType := orEmpty optionType }
def setExpirationStyle (expirationStyle : Text) :=
  { b with series.expirationStyle := orEmpty expirationStyle }
def setSettlementStyle (settlementStyle : Text) :=
  { b with series.settlementStyle := orEmpty settlementStyle }
def setCFI (cfi : Text) :=
  { b with cfi := orEmpty cfi, series.cfi := anySide (orEmpty cfi) }
def setStrike (strike : Double) := { b with strike := strike }

/-- The chain of a symbol, made when it is asked for first, with one option more. -/
def addToChain (symbol : Text) (isCall : Bool) (option : π) : Option (OptionChainsBuilder π) :=
  let chain := (KeyedLists.lookup OptionChain.symbol symbol b.chains).getD { symbol := symbol }
  (chain.addOption b.series isCall b.strike option).map fun chain =>
    { b with chains := KeyedLists.write OptionChain.symbol chain b.chains }

def addOption (option : π) : Option (OptionChainsBuilder π) :=
  let isCall := "OC".toList.isPrefixOf b.cfi
  if !isCall && !"OP".toList.isPrefixOf b.cfi then some b
  else if b.series.expiration = 0 then some b
  else if b.strike.isNaN || b.strike.isInf then some b
  else do
    let b ← if b.product ≠ [] then b.addToChain b.product isCall option else some b
    if b.underlying ≠ [] then b.addToChain b.underlying isCall option else some b

/-- Everything that `build` sets from a profile. -/
def setAll (p : InstrumentProfile) : OptionChainsBuilder π :=
  let b := b.setProduct p.product
  let b := b.setUnderlying p.underlying
  let b := b.setExpiration p.expiration
  let b := b.setLastTrade p.lastTrade
  let b := b.setMultiplier p.multiplier
  let b := b.setSPC p.spc
  let b := b.setAdditionalUnderlyings p.additionalUnderlyings
  let b := b.setMMY p.mmy
  let b := b.setOptionType p.optionType
  let b := b.setExpirationStyle p.expirationStyle
  let b := b.setSettlementStyle p.settlementStyle
  let b := b.setCFI p.cfi
  b.setStrike p.strike

/-- One turn of the loop of `build`; a pointer shows the profile that it points to. -/
def addProfile (profile : π → InstrumentProfile) (ip : π) : Option (OptionChainsBuilder π) :=
  if (profile ip).type ≠ "OPTION".toList then some b else (b.setAll (profile ip)).addOption ip

end OptionChainsBuilder

def build (profile : π → InstrumentProfile) (instruments : List π) :
    Option (OptionChainsBuilder π) :=
  run (fun b ip => b.addProfile profile ip) {} instruments

end OptionChains
