import DxFeedGraal.CppStrings
import DxFeedGraal.Enumerations
import DxFeedGraal.PackedFields

/-! # The packed flags of the event classes

Every class keeps the properties of its flags word at places of its own. A setter may throw;
the one that does so inside a `noexcept` function ends the process. -/
namespace PackedFlags

open FixedWidthIntegers BitOperations CppStrings Enumerations Enumeration PackedFields

/-! ## Characters -/

/-- One code unit; a surrogate is refused and the failure caught. -/
def utf16to8 (code : Int16) : Int8 :=
  let cp := code.toUInt16.toNat
  if cp < 0x80 then (UInt8.ofNat cp).toInt8
  else if cp < 0x800 then (UInt8.ofNat (cp / 2 ^ 6 ||| 0xc0)).toInt8
  else if 0xd800 ≤ cp ∧ cp ≤ 0xdfff then 0
  else (UInt8.ofNat (cp / 2 ^ 12 ||| 0xe0)).toInt8

/-- A byte of a longer sequence stands alone and is refused. -/
def utf8to16 (c : Int8) : Int16 := if 0 ≤ c then staticCast c else 0

def hexDigits (n : ℕ) : Text :=
  [Nat.digitChar (n / 16 ^ 3 % 16), Nat.digitChar (n / 16 ^ 2 % 16), Nat.digitChar (n / 16 % 16),
    Nat.digitChar (n % 16)]

/-- The overload for `char`, which goes through `unsigned char`: a negative one prints as its
code from 128 on, four digits without a sign. -/
def encodeChar (c : Int8) : Text :=
  let n := c.toUInt8.toNat
  if 32 ≤ n ∧ n ≤ 126 then [Char.ofNat n]
  else if n = 0 then "\\0".toList
  else "\\u".toList ++ hexDigits n

def checkChar (c : Int8) (mask : UInt32) (name : String) : Cpp Unit :=
  if andOp c (~~~mask) ≠ 0 then
    .error (.invalidArgument ("Invalid ".toList ++ name.toList ++ ": ".toList ++ encodeChar c))
  else .ok ()

/-! ## Shapes of properties -/

section Shapes

variable {E M : Type} [Enumeration E] [Integral M]

def getEnum (mask shift : M) (flags : Int32) : E := valueOf (getBits flags mask shift)

def setEnum (mask shift : M) (flags : Int32) (e : E) : Int32 :=
  setBits flags mask shift (getCode e)

def getFlag (bit : M) (flags : Int32) : Bool := andOp flags bit != 0

def setFlag [Complement M] (bit : M) (flags : Int32) (value : Bool) : Int32 :=
  if value then orOp flags bit else andOp flags (~~~bit)

end Shapes

/-! ## The classes -/

namespace OrderBase

def ACTION_MASK : UInt32 := 0x0F
def ACTION_SHIFT : UInt32 := 11
def EXCHANGE_MASK : UInt32 := 0x7F
def EXCHANGE_SHIFT : UInt32 := 4
def SIDE_MASK : UInt32 := 3
def SIDE_SHIFT : UInt32 := 2
def SCOPE_MASK : UInt32 := 3
def SCOPE_SHIFT : UInt32 := 0

def getAction : Int32 → OrderAction := getEnum ACTION_MASK ACTION_SHIFT
def setAction : Int32 → OrderAction → Int32 := setEnum ACTION_MASK ACTION_SHIFT

/-- The character that both getters of the exchange code start from. -/
def exchangeChar (flags : Int32) : Int8 :=
  staticCast (staticCast (getBits flags EXCHANGE_MASK EXCHANGE_SHIFT) : UInt8)

def getExchangeCode (flags : Int32) : Int16 := utf8to16 (exchangeChar flags)

def getExchangeCodeString (flags : Int32) : Text := [Char.ofNat (exchangeChar flags).toUInt8.toNat]

/-- The overload for a character. -/
def setExchangeChar (flags : Int32) (exchangeCode : Int8) : Cpp Int32 := do
  checkChar exchangeCode EXCHANGE_MASK "exchangeCode"
  .ok (setBits flags EXCHANGE_MASK EXCHANGE_SHIFT (staticCast exchangeCode : UInt8))

def setExchangeCode (flags : Int32) (exchangeCode : Int16) : Cpp Int32 :=
  noexcept (setExchangeChar flags (utf16to8 exchangeCode))

def getOrderSide : Int32 → Orders.Side := getEnum SIDE_MASK SIDE_SHIFT
def setOrderSide : Int32 → Orders.Side → Int32 := setEnum SIDE_MASK SIDE_SHIFT
def getScope : Int32 → Orders.Scope := getEnum SCOPE_MASK SCOPE_SHIFT
def setScope : Int32 → Orders.Scope → Int32 := setEnum SCOPE_MASK SCOPE_SHIFT

/-- The comparators of the books read the flags in the same way. -/
theorem read_by_books {O : Orders.OrderKind} (o : Orders.FeedOrder O) :
    getOrderSide o.data.flags = o.getOrderSide ∧ getScope o.data.flags = o.getScope :=
  ⟨valueOf_side _, valueOf_scope _⟩

end OrderBase

namespace AnalyticOrder

def ICEBERG_TYPE_MASK : UInt32 := 3
def ICEBERG_TYPE_SHIFT : UInt32 := 0

def getIcebergType : Int32 → IcebergType := getEnum ICEBERG_TYPE_MASK ICEBERG_TYPE_SHIFT
def setIcebergType : Int32 → IcebergType → Int32 := setEnum ICEBERG_TYPE_MASK ICEBERG_TYPE_SHIFT

end AnalyticOrder

namespace OtcMarketsOrder

def NMS_CONDITIONAL : UInt32 := (1 : UInt32) <<< 6
def AUTO_EXECUTION : UInt32 := (1 : UInt32) <<< 5
def SATURATED : UInt32 := (1 : UInt32) <<< 4
def OTC_PRICE_TYPE_MASK : UInt32 := 3
def OTC_PRICE_TYPE_SHIFT : UInt32 := 2
def UNSOLICITED : UInt32 := (1 : UInt32) <<< 1
def OPEN : UInt32 := 1

def isOpen : Int32 → Bool := getFlag OPEN
def setOpen : Int32 → Bool → Int32 := setFlag OPEN
def isUnsolicited : Int32 → Bool := getFlag UNSOLICITED
def setUnsolicited : Int32 → Bool → Int32 := setFlag UNSOLICITED

def getOtcMarketsPriceType : Int32 → OtcMarketsPriceType :=
  getEnum OTC_PRICE_TYPE_MASK OTC_PRICE_TYPE_SHIFT

def setOtcMarketsPriceType : Int32 → OtcMarketsPriceType → Int32 :=
  setEnum OTC_PRICE_TYPE_MASK OTC_PRICE_TYPE_SHIFT

def isSaturated : Int32 → Bool := getFlag SATURATED
def setSaturated : Int32 → Bool → Int32 := setFlag SATURATED
def isAutoExecution : Int32 → Bool := getFlag AUTO_EXECUTION
def setAutoExecution : Int32 → Bool → Int32 := setFlag AUTO_EXECUTION
def isNmsConditional : Int32 → Bool := getFlag NMS_CONDITIONAL
def setNmsConditional : Int32 → Bool → Int32 := setFlag NMS_CONDITIONAL

end OtcMarketsOrder

namespace TimeAndSale

def TTE_MASK : UInt32 := 0xFF
def TTE_SHIFT : UInt32 := 8
def SIDE_MASK : UInt32 := 3
def SIDE_SHIFT : UInt32 := 5
def SPREAD_LEG : UInt32 := (1 : UInt32) <<< 4
def ETH : UInt32 := (1 : UInt32) <<< 3
def VALID_TICK : UInt32 := (1 : UInt32) <<< 2
def TYPE_MASK : UInt32 := 3
def TYPE_SHIFT : UInt32 := 0

def getTradeThroughExempt (flags : Int32) : Int8 :=
  staticCast (staticCast (getBits flags TTE_MASK TTE_SHIFT) : UInt8)

def setTradeThroughExempt (flags : Int32) (tradeThroughExempt : Int8) : Cpp Int32 := do
  checkChar tradeThroughExempt TTE_MASK "tradeThroughExempt"
  .ok (setBits flags TTE_MASK TTE_SHIFT tradeThroughExempt)

def getAggressorSide : Int32 → Orders.Side := getEnum SIDE_MASK SIDE_SHIFT
def setAggressorSide : Int32 → Orders.Side → Int32 := setEnum SIDE_MASK SIDE_SHIFT
def isSpreadLeg : Int32 → Bool := getFlag SPREAD_LEG
def setSpreadLeg : Int32 → Bool → Int32 := setFlag SPREAD_LEG
def isExtendedTradingHours : Int32 → Bool := getFlag ETH
def setExtendedTradingHours : Int32 → Bool → Int32 := setFlag ETH
def isValidTick : Int32 → Bool := getFlag VALID_TICK
def setValidTick : Int32 → Bool → Int32 := setFlag VALID_TICK
def getType : Int32 → TimeAndSaleType := getEnum TYPE_MASK TYPE_SHIFT
def setType : Int32 → TimeAndSaleType → Int32 := setEnum TYPE_MASK TYPE_SHIFT
def isNew (flags : Int32) : Bool := getType flags = .NEW
def isCorrection (flags : Int32) : Bool := getType flags = .CORRECTION
def isCancel (flags : Int32) : Bool := getType flags = .CANCEL

end TimeAndSale

namespace OptionSale

def getTradeThroughExempt (flags : Int32) : Int8 :=
  staticCast (staticCast (getBits flags TimeAndSale.TTE_MASK TimeAndSale.TTE_SHIFT) : UInt8)

def setTradeThroughExempt (flags : Int32) (tradeThroughExempt : Int8) : Cpp Int32 := do
  checkChar tradeThroughExempt TimeAndSale.TTE_MASK "tradeThroughExempt"
  .ok (setBits flags TimeAndSale.TTE_MASK TimeAndSale.TTE_SHIFT tradeThroughExempt)

def getAggressorSide : Int32 → Orders.Side := getEnum TimeAndSale.SIDE_MASK TimeAndSale.SIDE_SHIFT

def setAggressorSide : Int32 → Orders.Side → Int32 :=
  setEnum TimeAndSale.SIDE_MASK TimeAndSale.SIDE_SHIFT

def isSpreadLeg : Int32 → Bool := getFlag TimeAndSale.SPREAD_LEG
def setSpreadLeg : Int32 → Bool → Int32 := setFlag TimeAndSale.SPREAD_LEG
def isExtendedTradingHours : Int32 → Bool := getFlag TimeAndSale.ETH
def setExtendedTradingHours : Int32 → Bool → Int32 := setFlag TimeAndSale.ETH
def isValidTick : Int32 → Bool := getFlag TimeAndSale.VALID_TICK
def setValidTick : Int32 → Bool → Int32 := setFlag TimeAndSale.VALID_TICK
def getType : Int32 → TimeAndSaleType := getEnum TimeAndSale.TYPE_MASK TimeAndSale.TYPE_SHIFT

def setType : Int32 → TimeAndSaleType → Int32 :=
  setEnum TimeAndSale.TYPE_MASK TimeAndSale.TYPE_SHIFT

def isNew (flags : Int32) : Bool := getType flags = .NEW
def isCorrection (flags : Int32) : Bool := getType flags = .CORRECTION
def isCancel (flags : Int32) : Bool := getType flags = .CANCEL

end OptionSale

namespace TradeBase

def DIRECTION_MASK : Int32 := 7
def DIRECTION_SHIFT : Int32 := 1
def ETH : Int32 := 1

def getTickDirection : Int32 → Direction := getEnum DIRECTION_MASK DIRECTION_SHIFT
def setTickDirection : Int32 → Direction → Int32 := setEnum DIRECTION_MASK DIRECTION_SHIFT
def isExtendedTradingHours : Int32 → Bool := getFlag ETH
def setExtendedTradingHours : Int32 → Bool → Int32 := setFlag ETH

end TradeBase

namespace Profile

def SSR_MASK : UInt32 := 3
def SSR_SHIFT : UInt32 := 2
def STATUS_MASK : UInt32 := 3
def STATUS_SHIFT : UInt32 := 0

def getShortSaleRestriction : Int32 → ShortSaleRestriction := getEnum SSR_MASK SSR_SHIFT
def setShortSaleRestriction : Int32 → ShortSaleRestriction → Int32 := setEnum SSR_MASK SSR_SHIFT
def isShortSaleRestricted (flags : Int32) : Bool := getShortSaleRestriction flags = .ACTIVE
def getTradingStatus : Int32 → TradingStatus := getEnum STATUS_MASK STATUS_SHIFT
def setTradingStatus : Int32 → TradingStatus → Int32 := setEnum STATUS_MASK STATUS_SHIFT
def isTradingHalted (flags : Int32) : Bool := getTradingStatus flags = .HALTED

end Profile

namespace Summary

def DAY_CLOSE_PRICE_TYPE_MASK : UInt32 := 3
def DAY_CLOSE_PRICE_TYPE_SHIFT : UInt32 := 2
def PREV_DAY_CLOSE_PRICE_TYPE_MASK : UInt32 := 3
def PREV_DAY_CLOSE_PRICE_TYPE_SHIFT : UInt32 := 0

def getDayClosePriceType : Int32 → PriceType :=
  getEnum DAY_CLOSE_PRICE_TYPE_MASK DAY_CLOSE_PRICE_TYPE_SHIFT

def setDayClosePriceType : Int32 → PriceType → Int32 :=
  setEnum DAY_CLOSE_PRICE_TYPE_MASK DAY_CLOSE_PRICE_TYPE_SHIFT

def getPrevDayClosePriceType : Int32 → PriceType :=
  getEnum PREV_DAY_CLOSE_PRICE_TYPE_MASK PREV_DAY_CLOSE_PRICE_TYPE_SHIFT

def setPrevDayClosePriceType : Int32 → PriceType → Int32 :=
  setEnum PREV_DAY_CLOSE_PRICE_TYPE_MASK PREV_DAY_CLOSE_PRICE_TYPE_SHIFT

end Summary

/-! ## Constants as fields -/

section Fields

variable {E M B : Type} [Enumeration E] [Integral M] [Integral B]

/-- The constants name bits of a 32-bit word. -/
def Fits (mask shift : M) : Prop :=
  0 ≤ value shift ∧ (value shift).natAbs < 2 ^ 32 ∧ Integral.bits M ≤ 32 ∧
    (BitVec.ofInt 32 (value mask) <<< (value shift).natAbs) >>> (value shift).natAbs =
      BitVec.ofInt 32 (value mask)

instance (mask shift : M) : Decidable (Fits mask shift) :=
  inferInstanceAs (Decidable (_ ∧ _ ∧ _ ∧ _))

def fieldOf (mask shift : M) (h : Fits mask shift) : Field 32 where
  mask := BitVec.ofInt 32 (value mask)
  shift := (value shift).natAbs
  fits := h.2.2.2

def bitOf (bit : M) : Field 32 where
  mask := BitVec.ofInt 32 (value bit)
  shift := 0
  fits := by rw [BitVec.shiftLeft_zero, BitVec.ushiftRight_zero]

theorem toBitVec_getBits {mask shift : M} (h : Fits mask shift) (flags : Int32) :
    (getBits flags mask shift).toBitVec = (fieldOf mask shift h).read flags.toBitVec :=
  toBits_getBits h.2.2.1 flags mask h.1

theorem toBitVec_setBits {mask shift : M} (h : Fits mask shift) (hB : Integral.bits B ≤ 32)
    (flags : Int32) (x : B) : (setBits flags mask shift x).toBitVec =
      (fieldOf mask shift h).write flags.toBitVec (BitVec.ofInt 32 (value x)) := by
  obtain ⟨hnonneg, hlt, hnarrow, -⟩ := h
  have hmax : maxBits Int32 M M B = Integral.bits Int32 := by
    change max 32 (max (Integral.bits M) (max (Integral.bits M) (Integral.bits B))) = 32
    omega
  have hshift : (BitVec.ofInt 32 (value shift)).toNat = (value shift).natAbs := by
    obtain ⟨n, hn⟩ := Int.eq_ofNat_of_zero_le hnonneg
    rw [hn, Int.natAbs_natCast] at hlt
    rw [hn, Int.natAbs_natCast, BitVec.ofInt_natCast, BitVec.toNat_ofNat, Nat.mod_eq_of_lt hlt]
  have hbits := toBits_setBits rfl hmax flags mask shift x
  change (setBits flags mask shift x).toBitVec =
    (flags.toBitVec &&& ~~~(BitVec.ofInt 32 (value mask) <<<
      (BitVec.ofInt 32 (value shift)).toNat)) |||
    ((BitVec.ofInt 32 (value x) &&& BitVec.ofInt 32 (value mask)) <<<
      (BitVec.ofInt 32 (value shift)).toNat) at hbits
  rw [hbits, hshift]
  rfl

theorem getBits_congr {mask shift : M} (h : Fits mask shift) {flags flags' : Int32}
    (hread : (fieldOf mask shift h).read flags.toBitVec =
      (fieldOf mask shift h).read flags'.toBitVec) :
    getBits flags mask shift = getBits flags' mask shift := by
  apply Int32.toBitVec_inj.mp
  rw [toBitVec_getBits h, toBitVec_getBits h, hread]

theorem getBits_setBits {mask shift : M} (h : Fits mask shift) (hB : Integral.bits B ≤ 32)
    (flags : Int32) (x : B) : (getBits (setBits flags mask shift x) mask shift).toBitVec =
      BitVec.ofInt 32 (value x) &&& BitVec.ofInt 32 (value mask) := by
  rw [toBitVec_getBits h, toBitVec_setBits h hB]
  exact Field.read_write _ _ _

theorem getEnum_setEnum {mask shift : M} (h : Fits mask shift) (flags : Int32) {e : E}
    (hcode : (getCode e).toBitVec &&& BitVec.ofInt 32 (value mask) = (getCode e).toBitVec) :
    getEnum mask shift (setEnum mask shift flags e) = e := by
  apply valueOf_of_code
  have hx : BitVec.ofInt 32 (value (getCode e)) = (getCode e).toBitVec := ofInt_value (getCode e)
  have hbits := getBits_setBits h (B := UInt32) (by decide) flags (getCode e)
  rw [hx, hcode] at hbits
  apply UInt32.toBitVec_inj.mp
  rw [← hbits]
  exact ofInt_value (getBits (setBits flags mask shift (getCode e)) mask shift)

theorem toBitVec_andOp (hM : Integral.bits M ≤ 32) (flags : Int32) (m : M) :
    (andOp flags m).toBitVec = flags.toBitVec &&& BitVec.ofInt 32 (value m) :=
  toBits_andOp hM flags m

theorem toBitVec_orOp (hM : Integral.bits M ≤ 32) (flags : Int32) (m : M) :
    (orOp flags m).toBitVec = flags.toBitVec ||| BitVec.ofInt 32 (value m) :=
  toBits_orOp hM flags m

theorem getFlag_iff (hM : Integral.bits M ≤ 32) (bit : M) (flags : Int32) :
    getFlag bit flags = true ↔ (bitOf bit).read flags.toBitVec ≠ 0#32 := by
  rw [Field.read_unshifted rfl, getFlag, bne_iff_ne, ne_eq, ← Int32.toBitVec_inj,
    toBitVec_andOp hM]
  rfl

/-- The complement of a bit's mask, as the 32-bit operations see it. -/
def Complements (bit : M) [Complement M] : Prop :=
  BitVec.ofInt 32 (value (~~~bit)) = ~~~BitVec.ofInt 32 (value bit)

instance (bit : M) [Complement M] : Decidable (Complements bit) :=
  inferInstanceAs (Decidable (_ = _))

theorem toBitVec_setFlag [Complement M] {bit : M} (hM : Integral.bits M ≤ 32)
    (hnot : Complements bit) (flags : Int32) (v : Bool) : (setFlag bit flags v).toBitVec =
      (bitOf bit).write flags.toBitVec (if v then (bitOf bit).mask else 0#32) := by
  cases v with
  | true =>
    rw [if_pos rfl, ← Field.or_mask rfl]
    exact toBitVec_orOp hM flags bit
  | false =>
    rw [if_neg Bool.false_ne_true, ← Field.and_not_mask rfl]
    change (andOp flags (~~~bit)).toBitVec = _
    rw [toBitVec_andOp hM, hnot]
    rfl

theorem getFlag_setFlag [Complement M] {bit : M} (hM : Integral.bits M ≤ 32)
    (hnot : Complements bit) (hone : BitVec.ofInt 32 (value bit) ≠ 0#32) (flags : Int32)
    (v : Bool) : getFlag bit (setFlag bit flags v) = v := by
  rw [Bool.eq_iff_iff, getFlag_iff hM, toBitVec_setFlag hM hnot, Field.read_write]
  cases v with
  | true =>
    rw [if_pos rfl, BitVec.and_self]
    exact iff_of_true hone rfl
  | false =>
    rw [if_neg Bool.false_ne_true, BitVec.zero_and]
    exact iff_of_false (fun h => h rfl) Bool.false_ne_true

end Fields

/-! ## Accessors of a flags word -/

/-- A getter, with the field that alone it looks at. -/
structure Getter where
  field : Field 32
  Value : Type
  get : Int32 → Value
  reads : ∀ {flags flags' : Int32},
    field.read flags.toBitVec = field.read flags'.toBitVec → get flags = get flags'

/-- A setter with a getter of the same property, which shows an allowed input as a value. -/
structure Accessor extends Getter where
  Input : Type
  set : Int32 → Input → Cpp Int32
  Allowed : Input → Prop
  shown : Input → Value
  writes : ∀ (flags : Int32) (v : Input), Allowed v → ∃ (flags' : Int32) (x : BitVec 32),
    set flags v = .ok flags' ∧ flags'.toBitVec = field.write flags.toBitVec x ∧
      get flags' = shown v

/-- A getter that tests what another one gives. -/
def Getter.testedBy (g : Getter) (test : Int32 → Bool) (f : g.Value → Bool)
    (h : (fun flags => f (g.get flags)) = test) : Getter where
  field := g.field
  Value := Bool
  get := test
  reads hread := h ▸ congrArg f (g.reads hread)

section Builders

variable {E M : Type} [Enumeration E] [Integral M]

theorem writes_enum {mask shift : M} (h : Fits mask shift)
    (hcodes : ∀ e ∈ (ALL : List E), (getCode e).toBitVec &&& BitVec.ofInt 32 (value mask) =
      (getCode e).toBitVec) (flags : Int32) (e : E) : ∃ (flags' : Int32) (x : BitVec 32),
    (.ok (setEnum mask shift flags e) : Cpp Int32) = .ok flags' ∧
      flags'.toBitVec = (fieldOf mask shift h).write flags.toBitVec x ∧
      getEnum mask shift flags' = e := by
  refine ⟨_, BitVec.ofInt 32 (value (getCode e)), rfl, ?_, ?_⟩
  · exact toBitVec_setBits h (B := UInt32) (by decide) flags (getCode e)
  · exact getEnum_setEnum h flags (hcodes e (mem_all e))

def ofEnum {mask shift : M} (get : Int32 → E) (set : Int32 → E → Int32)
    (hget : getEnum mask shift = get) (hset : setEnum mask shift = set) (h : Fits mask shift)
    (hcodes : ∀ e ∈ (ALL : List E), (getCode e).toBitVec &&& BitVec.ofInt 32 (value mask) =
      (getCode e).toBitVec) : Accessor where
  field := fieldOf mask shift h
  Value := E
  get := get
  reads hread := hget ▸ congrArg valueOf (getBits_congr h hread)
  Input := E
  set flags e := .ok (set flags e)
  Allowed _ := True
  shown := id
  writes flags e _ := hget ▸ hset ▸ writes_enum h hcodes flags e

theorem writes_flag [Complement M] {bit : M} (hM : Integral.bits M ≤ 32)
    (hnot : Complements bit) (hone : BitVec.ofInt 32 (value bit) ≠ 0#32) (flags : Int32)
    (v : Bool) : ∃ (flags' : Int32) (x : BitVec 32),
    (.ok (setFlag bit flags v) : Cpp Int32) = .ok flags' ∧
      flags'.toBitVec = (bitOf bit).write flags.toBitVec x ∧ getFlag bit flags' = v := by
  refine ⟨_, if v then (bitOf bit).mask else 0#32, rfl, ?_, ?_⟩
  · exact toBitVec_setFlag hM hnot flags v
  · exact getFlag_setFlag hM hnot hone flags v

theorem reads_flag {bit : M} (hM : Integral.bits M ≤ 32) {flags flags' : Int32}
    (hread : (bitOf bit).read flags.toBitVec = (bitOf bit).read flags'.toBitVec) :
    getFlag bit flags = getFlag bit flags' := by
  rw [Bool.eq_iff_iff, getFlag_iff hM, getFlag_iff hM, hread]

def ofFlag [Complement M] {bit : M} (get : Int32 → Bool) (set : Int32 → Bool → Int32)
    (hget : getFlag bit = get) (hset : setFlag bit = set) (hM : Integral.bits M ≤ 32)
    (hnot : Complements bit) (hone : BitVec.ofInt 32 (value bit) ≠ 0#32) : Accessor where
  field := bitOf bit
  Value := Bool
  get := get
  reads hread := hget ▸ reads_flag hM hread
  Input := Bool
  set flags v := .ok (set flags v)
  Allowed _ := True
  shown := id
  writes flags v _ := hget ▸ hset ▸ writes_flag hM hnot hone flags v

end Builders

/-! ### Characters in a field -/

/-- The conversions of a character getter keep the low byte. -/
theorem toBitVec_char (y : Int32) :
    (staticCast (staticCast y : UInt8) : Int8).toBitVec = y.toBitVec.setWidth 8 := by
  have houter : (staticCast (staticCast y : UInt8) : Int8).toBitVec =
      (staticCast y : UInt8).toBitVec := ofInt_value (staticCast y : UInt8)
  rw [houter]
  apply BitVec.eq_of_toNat_eq
  change (BitVec.ofInt 8 y.toBitVec.toInt).toNat = _
  have hmod : y.toBitVec.toInt % 2 ^ 8 = ((y.toBitVec.toNat % 2 ^ 8 : ℕ) : ℤ) := by
    rw [BitVec.toInt_eq_toNat_cond]
    split <;> omega
  rw [BitVec.toNat_ofInt, BitVec.toNat_setWidth]
  omega

theorem checkChar_ok {c : Int8} {mask : UInt32} (h : andOp c (~~~mask) = 0) (name : String) :
    checkChar c mask name = .ok () :=
  if_neg (not_not_intro h)

theorem msb_of_nonneg {c : Int8} (hc : 0 ≤ c) : c.toBitVec.msb = false := by
  rw [BitVec.msb_eq_toInt, decide_eq_false_iff_not, not_lt]
  exact Int8.le_iff_toInt_le.mp hc

namespace OrderBase

theorem fits_exchange : Fits EXCHANGE_MASK EXCHANGE_SHIFT := by decide

theorem exchangeChar_congr {flags flags' : Int32}
    (h : (fieldOf _ _ fits_exchange).read flags.toBitVec =
      (fieldOf _ _ fits_exchange).read flags'.toBitVec) :
    exchangeChar flags = exchangeChar flags' := by
  unfold exchangeChar
  rw [getBits_congr fits_exchange h]

theorem setExchangeChar_ok (flags : Int32) {c : Int8} (hc : 0 ≤ c) :
    setExchangeChar flags c =
      .ok (setBits flags EXCHANGE_MASK EXCHANGE_SHIFT (staticCast c : UInt8)) := by
  have hfits : ∀ b : BitVec 8, b.msb = false → andOp (Int8.ofBitVec b) (~~~EXCHANGE_MASK) = 0 := by
    decide
  have hmask : andOp c (~~~EXCHANGE_MASK) = 0 := hfits c.toBitVec (msb_of_nonneg hc)
  rw [setExchangeChar, checkChar_ok hmask]
  rfl

theorem exchangeChar_set (flags : Int32) {c : Int8} (hc : 0 ≤ c) :
    exchangeChar (setBits flags EXCHANGE_MASK EXCHANGE_SHIFT (staticCast c : UInt8)) = c := by
  have hlow : ∀ b : BitVec 8, b.msb = false → (b.setWidth 32 &&& 0x7F#32).setWidth 8 = b := by
    decide
  have hx : BitVec.ofInt 32 (value (staticCast c : UInt8)) = c.toBitVec.setWidth 32 := by
    have hbits : (staticCast c : UInt8).toBitVec = c.toBitVec := ofInt_value c
    rw [value_uint8, BitVec.ofInt_natCast, ← hbits]
    exact BitVec.ofNat_toNat 32 _
  apply Int8.toBitVec_inj.mp
  rw [exchangeChar, toBitVec_char, getBits_setBits fits_exchange (by decide), hx]
  exact hlow c.toBitVec (msb_of_nonneg hc)

theorem writes_exchange (flags : Int32) {c : Int8} (hc : 0 ≤ c) :
    ∃ (flags' : Int32) (x : BitVec 32), setExchangeChar flags c = .ok flags' ∧
      flags'.toBitVec = (fieldOf _ _ fits_exchange).write flags.toBitVec x ∧
      exchangeChar flags' = c := by
  refine ⟨_, BitVec.ofInt 32 (value (staticCast c : UInt8)), setExchangeChar_ok flags hc, ?_, ?_⟩
  · exact toBitVec_setBits fits_exchange (by decide) flags _
  · exact exchangeChar_set flags hc

theorem utf16to8_ascii {code : Int16} (h : 0 ≤ code.toInt) (k : code.toInt < 128) :
    0 ≤ utf16to8 code ∧ utf8to16 (utf16to8 code) = code := by
  have hall : ∀ n < 128, 0 ≤ utf16to8 (Int16.ofNat n) ∧
      utf8to16 (utf16to8 (Int16.ofNat n)) = Int16.ofNat n := by decide
  have hcode : code = Int16.ofNat code.toInt.toNat := by
    apply Int16.toInt_inj.mp
    rw [Int16.toInt_ofNat_of_lt (by omega)]
    omega
  rw [hcode]
  exact hall _ (by omega)

theorem writes_exchangeCode (flags : Int32) (code : Int16)
    (h : 0 ≤ code.toInt ∧ code.toInt < 128) :
    ∃ (flags' : Int32) (x : BitVec 32), setExchangeCode flags code = .ok flags' ∧
      flags'.toBitVec = (fieldOf _ _ fits_exchange).write flags.toBitVec x ∧
      getExchangeCode flags' = code := by
  obtain ⟨hc, hcode⟩ := utf16to8_ascii h.1 h.2
  obtain ⟨flags', x, hset, hwrite, hget⟩ := writes_exchange flags hc
  refine ⟨flags', x, ?_, hwrite, ?_⟩
  · rw [setExchangeCode, hset, noexcept_ok]
  · rw [getExchangeCode, hget, hcode]

theorem writes_exchangeChar (flags : Int32) (c : Int8) (hc : 0 ≤ c) :
    ∃ (flags' : Int32) (x : BitVec 32), setExchangeChar flags c = .ok flags' ∧
      flags'.toBitVec = (fieldOf _ _ fits_exchange).write flags.toBitVec x ∧
      (getExchangeCode flags', getExchangeCodeString flags') =
        ((staticCast c : Int16), [Char.ofNat c.toUInt8.toNat]) := by
  obtain ⟨flags', x, hset, hwrite, hget⟩ := writes_exchange flags hc
  refine ⟨flags', x, hset, hwrite, ?_⟩
  rw [getExchangeCode, getExchangeCodeString, hget, utf8to16, if_pos hc]

def action : Accessor := ofEnum getAction setAction rfl rfl (by decide) (by decide)

/-- ASCII characters, which the setter takes as UTF-16. -/
def exchangeCode : Accessor where
  field := fieldOf _ _ fits_exchange
  Value := Int16
  get := getExchangeCode
  reads h := congrArg utf8to16 (exchangeChar_congr h)
  Input := Int16
  set := setExchangeCode
  Allowed code := 0 ≤ code.toInt ∧ code.toInt < 128
  shown := id
  writes := writes_exchangeCode

/-- The overload for a character, seen by both getters. -/
def exchangeCodeChar : Accessor where
  field := fieldOf _ _ fits_exchange
  Value := Int16 × Text
  get flags := (getExchangeCode flags, getExchangeCodeString flags)
  reads h := congrArg (fun c : Int8 => (utf8to16 c, [Char.ofNat c.toUInt8.toNat]))
    (exchangeChar_congr h)
  Input := Int8
  set := setExchangeChar
  Allowed c := 0 ≤ c
  shown c := (staticCast c, [Char.ofNat c.toUInt8.toNat])
  writes := writes_exchangeChar

def orderSide : Accessor :=
  ofEnum getOrderSide setOrderSide rfl rfl (by decide) (by decide)

def scope : Accessor := ofEnum getScope setScope rfl rfl (by decide) (by decide)

end OrderBase

namespace AnalyticOrder

def icebergType : Accessor :=
  ofEnum getIcebergType setIcebergType rfl rfl (by decide) (by decide)

end AnalyticOrder

namespace OtcMarketsOrder

def opened : Accessor :=
  ofFlag isOpen setOpen rfl rfl (by decide) (by decide) (by decide)

def unsolicited : Accessor :=
  ofFlag isUnsolicited setUnsolicited rfl rfl (by decide) (by decide) (by decide)

def otcMarketsPriceType : Accessor :=
  ofEnum getOtcMarketsPriceType setOtcMarketsPriceType rfl rfl (by decide) (by decide)

def saturated : Accessor :=
  ofFlag isSaturated setSaturated rfl rfl (by decide) (by decide) (by decide)

def autoExecution : Accessor :=
  ofFlag isAutoExecution setAutoExecution rfl rfl (by decide) (by decide) (by decide)

def nmsConditional : Accessor :=
  ofFlag isNmsConditional setNmsConditional rfl rfl (by decide) (by decide) (by decide)

end OtcMarketsOrder

namespace TimeAndSale

theorem fits_tte : Fits TTE_MASK TTE_SHIFT := by decide

theorem reads_tradeThroughExempt {flags flags' : Int32}
    (h : (fieldOf _ _ fits_tte).read flags.toBitVec =
      (fieldOf _ _ fits_tte).read flags'.toBitVec) :
    getTradeThroughExempt flags = getTradeThroughExempt flags' := by
  unfold getTradeThroughExempt
  rw [getBits_congr fits_tte h]

/-- Every character passes the check. -/
theorem setTradeThroughExempt_ok (flags : Int32) (c : Int8) :
    setTradeThroughExempt flags c = .ok (setBits flags TTE_MASK TTE_SHIFT c) := by
  have hall : ∀ b : BitVec 8, andOp (Int8.ofBitVec b) (~~~TTE_MASK) = 0 := by decide
  have hmask : andOp c (~~~TTE_MASK) = 0 := hall c.toBitVec
  rw [setTradeThroughExempt, checkChar_ok hmask]
  rfl

theorem writes_tradeThroughExempt (flags : Int32) (c : Int8) :
    ∃ (flags' : Int32) (x : BitVec 32), setTradeThroughExempt flags c = .ok flags' ∧
      flags'.toBitVec = (fieldOf _ _ fits_tte).write flags.toBitVec x ∧
      getTradeThroughExempt flags' = c := by
  refine ⟨_, BitVec.ofInt 32 (value c), setTradeThroughExempt_ok flags c, ?_, ?_⟩
  · exact toBitVec_setBits fits_tte (by decide) flags c
  · have hlow : ∀ b : BitVec 8, (b.signExtend 32 &&& 0xFF#32).setWidth 8 = b := by decide
    apply Int8.toBitVec_inj.mp
    rw [getTradeThroughExempt, toBitVec_char, getBits_setBits fits_tte (by decide)]
    exact hlow c.toBitVec

def tradeThroughExempt : Accessor where
  field := fieldOf _ _ fits_tte
  Value := Int8
  get := getTradeThroughExempt
  reads := reads_tradeThroughExempt
  Input := Int8
  set := setTradeThroughExempt
  Allowed _ := True
  shown := id
  writes flags c _ := writes_tradeThroughExempt flags c

def aggressorSide : Accessor :=
  ofEnum getAggressorSide setAggressorSide rfl rfl (by decide) (by decide)

def spreadLeg : Accessor :=
  ofFlag isSpreadLeg setSpreadLeg rfl rfl (by decide) (by decide) (by decide)

def extendedTradingHours : Accessor :=
  ofFlag isExtendedTradingHours setExtendedTradingHours rfl rfl (by decide) (by decide) (by decide)

def validTick : Accessor :=
  ofFlag isValidTick setValidTick rfl rfl (by decide) (by decide) (by decide)

def type : Accessor := ofEnum getType setType rfl rfl (by decide) (by decide)

end TimeAndSale

namespace OptionSale

def tradeThroughExempt : Accessor where
  field := fieldOf _ _ TimeAndSale.fits_tte
  Value := Int8
  get := getTradeThroughExempt
  reads := TimeAndSale.reads_tradeThroughExempt
  Input := Int8
  set := setTradeThroughExempt
  Allowed _ := True
  shown := id
  writes flags c _ := TimeAndSale.writes_tradeThroughExempt flags c

def aggressorSide : Accessor :=
  ofEnum getAggressorSide setAggressorSide rfl rfl (by decide) (by decide)

def spreadLeg : Accessor :=
  ofFlag isSpreadLeg setSpreadLeg rfl rfl (by decide) (by decide) (by decide)

def extendedTradingHours : Accessor :=
  ofFlag isExtendedTradingHours setExtendedTradingHours rfl rfl (by decide) (by decide) (by decide)

def validTick : Accessor :=
  ofFlag isValidTick setValidTick rfl rfl (by decide) (by decide) (by decide)

def type : Accessor := ofEnum getType setType rfl rfl (by decide) (by decide)

end OptionSale

namespace TradeBase

def tickDirection : Accessor :=
  ofEnum getTickDirection setTickDirection rfl rfl (by decide) (by decide)

def extendedTradingHours : Accessor :=
  ofFlag isExtendedTradingHours setExtendedTradingHours rfl rfl (by decide) (by decide) (by decide)

end TradeBase

namespace Profile

def shortSaleRestriction : Accessor :=
  ofEnum getShortSaleRestriction setShortSaleRestriction rfl rfl (by decide) (by decide)

def tradingStatus : Accessor :=
  ofEnum getTradingStatus setTradingStatus rfl rfl (by decide) (by decide)

end Profile

namespace Summary

def dayClosePriceType : Accessor :=
  ofEnum getDayClosePriceType setDayClosePriceType rfl rfl (by decide) (by decide)

def prevDayClosePriceType : Accessor :=
  ofEnum getPrevDayClosePriceType setPrevDayClosePriceType rfl rfl (by decide) (by decide)

end Summary

/-! ## Independence -/

/-- The classes with a flags word; `OtcMarketsOrder` and `AnalyticOrder` have one besides that of
`OrderBase`. -/
inductive FlagsWord where
  | orderBase | analyticOrder | otcMarketsOrder | timeAndSale | optionSale | tradeBase | profile
  | summary
  deriving DecidableEq, Repr

def accessors : FlagsWord → List Accessor
  | .orderBase => [OrderBase.action, OrderBase.exchangeCode, OrderBase.exchangeCodeChar,
      OrderBase.orderSide, OrderBase.scope]
  | .analyticOrder => [AnalyticOrder.icebergType]
  | .otcMarketsOrder => [OtcMarketsOrder.opened, OtcMarketsOrder.unsolicited,
      OtcMarketsOrder.otcMarketsPriceType, OtcMarketsOrder.saturated,
      OtcMarketsOrder.autoExecution, OtcMarketsOrder.nmsConditional]
  | .timeAndSale => [TimeAndSale.tradeThroughExempt, TimeAndSale.aggressorSide,
      TimeAndSale.spreadLeg, TimeAndSale.extendedTradingHours, TimeAndSale.validTick,
      TimeAndSale.type]
  | .optionSale => [OptionSale.tradeThroughExempt, OptionSale.aggressorSide,
      OptionSale.spreadLeg, OptionSale.extendedTradingHours, OptionSale.validTick,
      OptionSale.type]
  | .tradeBase => [TradeBase.tickDirection, TradeBase.extendedTradingHours]
  | .profile => [Profile.shortSaleRestriction, Profile.tradingStatus]
  | .summary => [Summary.dayClosePriceType, Summary.prevDayClosePriceType]

/-- The getters that test a property for one value. -/
def tests : FlagsWord → List Getter
  | .timeAndSale =>
    [TimeAndSale.type.testedBy TimeAndSale.isNew (fun t : TimeAndSaleType => t = .NEW) rfl,
      TimeAndSale.type.testedBy TimeAndSale.isCorrection
        (fun t : TimeAndSaleType => t = .CORRECTION) rfl,
      TimeAndSale.type.testedBy TimeAndSale.isCancel (fun t : TimeAndSaleType => t = .CANCEL) rfl]
  | .optionSale =>
    [OptionSale.type.testedBy OptionSale.isNew (fun t : TimeAndSaleType => t = .NEW) rfl,
      OptionSale.type.testedBy OptionSale.isCorrection
        (fun t : TimeAndSaleType => t = .CORRECTION) rfl,
      OptionSale.type.testedBy OptionSale.isCancel (fun t : TimeAndSaleType => t = .CANCEL) rfl]
  | .profile =>
    [Profile.shortSaleRestriction.testedBy Profile.isShortSaleRestricted
        (fun r : ShortSaleRestriction => r = .ACTIVE) rfl,
      Profile.tradingStatus.testedBy Profile.isTradingHalted
        (fun t : TradingStatus => t = .HALTED) rfl]
  | _ => []

def getters (word : FlagsWord) : List Getter :=
  (accessors word).map Accessor.toGetter ++ tests word

theorem fields_disjoint (word : FlagsWord) : ∀ f ∈ (getters word).map Getter.field,
    ∀ g ∈ (getters word).map Getter.field, f = g ∨ f.Disjoint g := by
  cases word <;> decide

theorem mem_getters {word : FlagsWord} {a : Accessor} (h : a ∈ accessors word) :
    a.toGetter ∈ getters word :=
  List.mem_append_left _ (List.mem_map_of_mem h)

/-- Setting a property keeps every other property of the word and every unused bit. -/
theorem flags_independent {word : FlagsWord} {a : Accessor} (ha : a ∈ accessors word)
    (flags : Int32) {v : a.Input} (hv : a.Allowed v) : ∃ flags', a.set flags v = .ok flags' ∧
      a.get flags' = a.shown v ∧
      (∀ g ∈ getters word, g.field ≠ a.field → g.get flags' = g.get flags) ∧
      ∀ i, (∀ g ∈ getters word, g.field.bits.getLsbD i = false) →
        flags'.toBitVec.getLsbD i = flags.toBitVec.getLsbD i := by
  obtain ⟨flags', x, hset, hwrite, hget⟩ := a.writes flags v hv
  have hmem := mem_getters ha
  refine ⟨flags', hset, hget, ?_, ?_⟩
  · intro g hg hne
    have hdisjoint := (fields_disjoint word _ (List.mem_map_of_mem hmem) _
      (List.mem_map_of_mem hg)).resolve_left hne.symm
    apply g.reads
    rw [hwrite]
    exact Field.read_write_disjoint hdisjoint _ _
  · intro i hi
    rw [hwrite]
    exact a.field.getLsbD_write _ _ (hi _ hmem)

/-- The exchange code `A` in a word of all ones. -/
theorem flags_independent_exchange : ∃ flags', OrderBase.setExchangeCode (-1) 65 = .ok flags' ∧
    OrderBase.getExchangeCode flags' = 65 ∧
    (∀ g ∈ getters .orderBase, g.field ≠ OrderBase.exchangeCode.field →
      g.get flags' = g.get (-1)) ∧
    ∀ i, (∀ g ∈ getters .orderBase, g.field.bits.getLsbD i = false) →
      flags'.toBitVec.getLsbD i = (-1 : Int32).toBitVec.getLsbD i :=
  flags_independent (a := OrderBase.exchangeCode)
    (show OrderBase.exchangeCode ∈ accessors .orderBase from
      List.mem_cons_of_mem _ List.mem_cons_self) (-1)
    (v := (65 : Int16)) ⟨by decide, by decide⟩

end PackedFlags
