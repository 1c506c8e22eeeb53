import DxFeedGraal.BitOperations
import DxFeedGraal.TimeUtil
import DxFeedGraal.DoubleValues
import Mathlib.Data.Prod.Lex

/-! # Events that pack time and sequence into one word

Seconds take the upper half of the word, the millisecond part bits 31 to 22 and the
sequence the bits below. In some classes the word is also the event index. -/
namespace TimeSequenceEvents

open FixedWidthIntegers BitOperations TimeUtil DoubleValues

def SECONDS_SHIFT : UInt64 := 32
def MILLISECONDS_SHIFT : UInt64 := 22
def MILLISECONDS_MASK : UInt64 := 0x3ff
def MAX_SEQUENCE : UInt32 := ((1 : UInt32) <<< 22) - 1

/-! ## The word -/

def wordTime (w : Int64) : Int64 :=
  sar w SECONDS_SHIFT * 1000 + andOp (sar w MILLISECONDS_SHIFT) MILLISECONDS_MASK

def wordSequence (w : Int64) : Int32 := staticCast (andOp w MAX_SEQUENCE)

def wordWithTime (w time : Int64) : Int64 :=
  orOp (orOp (sal (staticCast (getSecondsFromTime time) : Int64) SECONDS_SHIFT)
    (sal (staticCast (getMillisFromTime time) : Int64) MILLISECONDS_SHIFT)) (wordSequence w)

/-- The complement is taken in the 32 bits of the constant, before any widening. -/
def wordWithSequence (w : Int64) (sequence : Int32) : Int64 :=
  orOp (andOp w (~~~MAX_SEQUENCE)) sequence

/-- The guard of every `setSequence`: what it throws on. -/
def SequenceRejected (sequence : Int32) : Prop :=
  sequence < 0 ∨ (staticCast sequence : UInt32) > MAX_SEQUENCE

instance (s : Int32) : Decidable (SequenceRejected s) := inferInstanceAs (Decidable (_ ∨ _))

/-- The packed time and sequence read back as quotients and remainders of the word. -/
theorem toInt_wordTime (w : Int64) :
    (wordTime w).toInt = w.toInt / 2 ^ 32 * 1000 + w.toInt / 2 ^ 22 % 2 ^ 10 := by
  have hb := int64_bounds w
  have hs : (sar w SECONDS_SHIFT * 1000).toInt = w.toInt / 2 ^ 32 * 1000 := by
    rw [Int64.toInt_mul, toInt_sar]
    change (w.toInt / 2 ^ 32 * 1000).bmod (2 ^ 64) = _
    rw [bmod_int64] <;> omega
  have hm : (andOp (sar w MILLISECONDS_SHIFT) MILLISECONDS_MASK).toInt =
      w.toInt / 2 ^ 22 % 2 ^ 10 := by
    rw [toInt_andOp_low (k := 10) (by decide) (by decide) (by decide), toInt_sar]
    rfl
  rw [wordTime, Int64.toInt_add, hs, hm, bmod_int64] <;> omega

theorem toInt_wordSequence (w : Int64) : (wordSequence w).toInt = w.toInt % 2 ^ 22 := by
  have h : (andOp w MAX_SEQUENCE).toInt = w.toInt % 2 ^ 22 :=
    toInt_andOp_low (by decide) (by decide) (by decide)
  rw [wordSequence, staticCast, value_int64, h, toInt_wrap_int32] <;> omega

/-- Times whose whole seconds, rounded down, fit the 32-bit field. -/
def SecondsFit (time : Int64) : Prop :=
  -2 ^ 31 ≤ time.toInt / 1000 ∧ time.toInt / 1000 < 2 ^ 31

instance (t : Int64) : Decidable (SecondsFit t) := inferInstanceAs (Decidable (_ ∧ _))

theorem toInt_wordWithTime (w : Int64) {time : Int64} (h : SecondsFit time) :
    (wordWithTime w time).toInt =
      time.toInt / 1000 * 2 ^ 32 + time.toInt % 1000 * 2 ^ 22 + w.toInt % 2 ^ 22 := by
  obtain ⟨h₁, h₂⟩ := h
  have hsec : (staticCast (getSecondsFromTime time) : Int64).toInt = time.toInt / 1000 := by
    rw [staticCast, value_int32, toInt_getSecondsFromTime, toInt_wrap_int64] <;> omega
  have hmil : (staticCast (getMillisFromTime time) : Int64).toInt = time.toInt % 1000 := by
    rw [staticCast, value_int32, toInt_getMillisFromTime, toInt_wrap_int64] <;> omega
  have hupper : (sal (staticCast (getSecondsFromTime time) : Int64) SECONDS_SHIFT).toInt =
      time.toInt / 1000 * 2 ^ 32 := by
    rw [← hsec]
    apply toInt_sal <;> rw [hsec, show SECONDS_SHIFT.toNat = 32 from rfl] <;> omega
  have hmiddle : (sal (staticCast (getMillisFromTime time) : Int64) MILLISECONDS_SHIFT).toInt =
      time.toInt % 1000 * 2 ^ 22 := by
    rw [← hmil]
    apply toInt_sal <;> rw [hmil, show MILLISECONDS_SHIFT.toNat = 22 from rfl] <;> omega
  have hseq := toInt_wordSequence w
  have htime : (orOp (sal (staticCast (getSecondsFromTime time) : Int64) SECONDS_SHIFT)
      (sal (staticCast (getMillisFromTime time) : Int64) MILLISECONDS_SHIFT)).toInt =
      time.toInt / 1000 * 2 ^ 32 + time.toInt % 1000 * 2 ^ 22 := by
    rw [toInt_orOp_disjoint (k := 32), hupper, value_int64, hmiddle]
    · decide
    · rw [hupper]; omega
    · rw [value_int64, hmiddle]; omega
    · rw [value_int64, hmiddle]; omega
    · decide
  rw [wordWithTime, toInt_orOp_disjoint (k := 22), htime, value_int32, hseq]
  · decide
  · rw [htime]; omega
  · rw [value_int32, hseq]; omega
  · rw [value_int32, hseq]; omega
  · decide

theorem sequence_accepted_iff (sequence : Int32) :
    ¬ SequenceRejected sequence ↔ 0 ≤ sequence.toInt ∧ sequence.toInt < 2 ^ 22 := by
  have hb := int32_bounds sequence
  have hcast : ((staticCast sequence : UInt32).toNat : ℤ) = sequence.toInt % 2 ^ 32 := by
    rw [← value_uint32, staticCast, value_wrap_unsigned rfl]
    rfl
  have hmax : (MAX_SEQUENCE.toNat : ℤ) = 2 ^ 22 - 1 := by decide
  unfold SequenceRejected
  rw [gt_iff_lt, UInt32.lt_iff_toNat_lt, Int32.lt_iff_toInt_lt, Int32.toInt_zero]
  omega

/-- Only the low half of the word survives: the widened mask has a zero upper half. -/
theorem toInt_wordWithSequence (w : Int64) {sequence : Int32} (h : ¬ SequenceRejected sequence) :
    (wordWithSequence w sequence).toInt =
      w.toInt % 2 ^ 32 / 2 ^ 22 * 2 ^ 22 + sequence.toInt := by
  obtain ⟨h₁, h₂⟩ := (sequence_accepted_iff sequence).mp h
  have hmask : pattern 64 (value (~~~MAX_SEQUENCE)) = (2 ^ 10 - 1) * 2 ^ 22 := by decide
  have hand : (andOp w (~~~MAX_SEQUENCE)).toInt = w.toInt % 2 ^ 32 / 2 ^ 22 * 2 ^ 22 := by
    have hpat : ((pattern 64 w.toInt / 2 ^ 22 % 2 ^ 10 * 2 ^ 22 : ℕ) : ℤ) =
        w.toInt % 2 ^ 32 / 2 ^ 22 * 2 ^ 22 := by
      push_cast
      rw [pattern_eq]
      omega
    rw [andOp_eq, commonBits_int64 (by decide), hmask, value_int64, and_shifted, and_low_mask,
      hpat, toInt_wrap_int64] <;> omega
  rw [wordWithSequence, toInt_orOp_disjoint (k := 22), hand, value_int32]
  · decide
  · rw [hand]; omega
  · rw [value_int32]; exact h₁
  · rw [value_int32]; exact h₂
  · decide

theorem wordWithTime_time (w : Int64) {time : Int64} (h : SecondsFit time) :
    wordTime (wordWithTime w time) = time := by
  rw [← Int64.toInt_inj, toInt_wordTime, toInt_wordWithTime w h]
  omega

theorem wordWithTime_sequence (w : Int64) {time : Int64} (h : SecondsFit time) :
    wordSequence (wordWithTime w time) = wordSequence w := by
  rw [← Int32.toInt_inj, toInt_wordSequence, toInt_wordSequence, toInt_wordWithTime w h]
  omega

theorem wordWithSequence_sequence (w : Int64) {s : Int32} (h : ¬ SequenceRejected s) :
    wordSequence (wordWithSequence w s) = s := by
  have hs := (sequence_accepted_iff s).mp h
  rw [← Int32.toInt_inj, toInt_wordSequence, toInt_wordWithSequence w h]
  omega

/-- The time survives the setter exactly when the seconds were zero beforehand. -/
theorem wordWithSequence_time_iff (w : Int64) {s : Int32} (h : ¬ SequenceRejected s) :
    wordTime (wordWithSequence w s) = wordTime w ↔ 0 ≤ w.toInt ∧ w.toInt < 2 ^ 32 := by
  have hs := (sequence_accepted_iff s).mp h
  have hseconds : (w.toInt % 2 ^ 32 / 2 ^ 22 * 2 ^ 22 + s.toInt) / 2 ^ 32 = 0 := by omega
  have hmillis : (w.toInt % 2 ^ 32 / 2 ^ 22 * 2 ^ 22 + s.toInt) / 2 ^ 22 % 2 ^ 10
      = w.toInt / 2 ^ 22 % 2 ^ 10 := by omega
  rw [← Int64.toInt_inj, toInt_wordTime, toInt_wordTime, toInt_wordWithSequence w h, hseconds,
    hmillis]
  omega

/-- Time first, sequence to break ties. -/
def Precedes (t₁ : Int64) (s₁ : Int32) (t₂ : Int64) (s₂ : Int32) : Prop :=
  t₁ < t₂ ∨ (t₁ = t₂ ∧ s₁ < s₂)

theorem wordWithTime_lt_iff (w₁ w₂ : Int64) {t₁ t₂ : Int64} (h₁ : SecondsFit t₁)
    (h₂ : SecondsFit t₂) :
    wordWithTime w₁ t₁ < wordWithTime w₂ t₂ ↔
      Precedes t₁ (wordSequence w₁) t₂ (wordSequence w₂) := by
  unfold Precedes
  rw [Int64.lt_iff_toInt_lt, Int64.lt_iff_toInt_lt, Int32.lt_iff_toInt_lt, ← Int64.toInt_inj,
    toInt_wordWithTime w₁ h₁, toInt_wordWithTime w₂ h₂, toInt_wordSequence, toInt_wordSequence]
  omega

/-! ## The classes -/

/-- How a method ended, and the object it leaves behind. -/
structure Outcome (E α : Type) where
  result : Except String α
  object : E

/-- Where a class keeps its packed word, and what its sequence guard throws. -/
structure TimeSequenceFields (E : Type) where
  word : E → Int64
  setWord : E → Int64 → E
  invalidSequence : Int32 → String
  word_setWord : ∀ e w, word (setWord e w) = w

namespace TimeSequenceFields

variable {E : Type} (c : TimeSequenceFields E)

def getTime (e : E) : Int64 := wordTime (c.word e)
def getSequence (e : E) : Int32 := wordSequence (c.word e)
def setTime (e : E) (time : Int64) : E := c.setWord e (wordWithTime (c.word e) time)

/-- The guard comes before any write, so a rejected sequence leaves the object alone. -/
def setSequence (e : E) (sequence : Int32) : Outcome E Unit :=
  if SequenceRejected sequence then ⟨.error (c.invalidSequence sequence), e⟩
  else ⟨.ok (), c.setWord e (wordWithSequence (c.word e) sequence)⟩

end TimeSequenceFields

/-- A class that also keeps the nanoseconds below the millisecond. -/
structure TimeNanosFields (E : Type) extends TimeSequenceFields E where
  timeNanoPart : E → Int32
  setTimeNanoPart : E → Int32 → E
  nano_setNano : ∀ e n, timeNanoPart (setTimeNanoPart e n) = n
  word_setNano : ∀ e n, word (setTimeNanoPart e n) = word e

namespace TimeNanosFields

variable {E : Type} (c : TimeNanosFields E)

def getTimeNanos (e : E) : Int64 :=
  getNanosFromMillisAndNanoPart (c.getTime e) (c.timeNanoPart e)

def setTimeNanos (e : E) (timeNanos : Int64) : E :=
  c.setTimeNanoPart (c.setTime e (getMillisFromNanos timeNanos)) (getNanoPartFromNanos timeNanos)

end TimeNanosFields

structure OrderBaseData where
  eventFlags : Int32 := 0
  index : Int64 := 0
  timeSequence : Int64 := 0
  timeNanoPart : Int32 := 0
  price : Double := .nan
  size : Double := .nan
  flags : Int32 := 0
  deriving DecidableEq

structure CandleData where
  index : Int64 := 0

structure TimeAndSaleData where
  index : Int64 := 0
  timeNanoPart : Int32 := 0

structure TradeBaseData where
  timeSequence : Int64 := 0
  timeNanoPart : Int32 := 0

structure SeriesData where
  timeSequence : Int64 := 0

structure OptionSaleData where
  timeSequence : Int64 := 0
  timeNanoPart : Int32 := 0

structure GreeksData where
  index : Int64 := 0

structure TheoPriceData where
  index : Int64 := 0

structure UnderlyingData where
  index : Int64 := 0

structure TextMessageData where
  timeSequence : Int64 := 0

def invalidSequenceValue (sequence : Int32) : String :=
  "Invalid sequence value = " ++ toString sequence.toInt

def invalidSequenceArgument (sequence : Int32) : String :=
  "Invalid value for argument `sequence`: " ++ toString sequence.toInt

namespace OrderBase

def fields : TimeNanosFields OrderBaseData where
  word := OrderBaseData.timeSequence
  setWord e w := { e with timeSequence := w }
  invalidSequence := invalidSequenceValue
  word_setWord _ _ := rfl
  timeNanoPart := OrderBaseData.timeNanoPart
  setTimeNanoPart e n := { e with timeNanoPart := n }
  nano_setNano _ _ := rfl
  word_setNano _ _ := rfl

def getTime := fields.getTime
def setTime := fields.setTime
def getSequence := fields.getSequence
def setSequence := fields.setSequence
def getTimeNanos := fields.getTimeNanos
def setTimeNanos := fields.setTimeNanos

end OrderBase

namespace Candle

def fields : TimeSequenceFields CandleData where
  word := CandleData.index
  setWord e w := { e with index := w }
  invalidSequence := invalidSequenceArgument
  word_setWord _ _ := rfl

def getTime := fields.getTime
def setTime := fields.setTime
def getSequence := fields.getSequence
def setSequence := fields.setSequence

end Candle

namespace TimeAndSale

def fields : TimeNanosFields TimeAndSaleData where
  word := TimeAndSaleData.index
  setWord e w := { e with index := w }
  invalidSequence := invalidSequenceValue
  word_setWord _ _ := rfl
  timeNanoPart := TimeAndSaleData.timeNanoPart
  setTimeNanoPart e n := { e with timeNanoPart := n }
  nano_setNano _ _ := rfl
  word_setNano _ _ := rfl

def getTime := fields.getTime
def setTime := fields.setTime
def getSequence := fields.getSequence
def setSequence := fields.setSequence
def getTimeNanos := fields.getTimeNanos
def setTimeNanos := fields.setTimeNanos

end TimeAndSale

namespace TradeBase

def fields : TimeNanosFields TradeBaseData where
  word := TradeBaseData.timeSequence
  setWord e w := { e with timeSequence := w }
  invalidSequence := invalidSequenceValue
  word_setWord _ _ := rfl
  timeNanoPart := TradeBaseData.timeNanoPart
  setTimeNanoPart e n := { e with timeNanoPart := n }
  nano_setNano _ _ := rfl
  word_setNano _ _ := rfl

def getTime := fields.getTime
def setTime := fields.setTime
def getSequence := fields.getSequence
def setSequence := fields.setSequence
def getTimeNanos := fields.getTimeNanos
def setTimeNanos := fields.setTimeNanos

end TradeBase

namespace Series

def fields : TimeSequenceFields SeriesData where
  word := SeriesData.timeSequence
  setWord e w := { e with timeSequence := w }
  invalidSequence := invalidSequenceArgument
  word_setWord _ _ := rfl

def getTime := fields.getTime
def setTime := fields.setTime
def getSequence := fields.getSequence
def setSequence := fields.setSequence

end Series

namespace OptionSale

def fields : TimeNanosFields OptionSaleData where
  word := OptionSaleData.timeSequence
  setWord e w := { e with timeSequence := w }
  invalidSequence := invalidSequenceValue
  word_setWord _ _ := rfl
  timeNanoPart := OptionSaleData.timeNanoPart
  setTimeNanoPart e n := { e with timeNanoPart := n }
  nano_setNano _ _ := rfl
  word_setNano _ _ := rfl

def getTime := fields.getTime
def setTime := fields.setTime
def getSequence := fields.getSequence
def setSequence := fields.setSequence
def getTimeNanos := fields.getTimeNanos
def setTimeNanos := fields.setTimeNanos

end OptionSale

namespace Greeks

def fields : TimeSequenceFields GreeksData where
  word := GreeksData.index
  setWord e w := { e with index := w }
  invalidSequence := invalidSequenceArgument
  word_setWord _ _ := rfl

def getTime := fields.getTime
def setTime := fields.setTime
def getSequence := fields.getSequence
def setSequence := fields.setSequence

end Greeks

namespace TheoPrice

def fields : TimeSequenceFields TheoPriceData where
  word := TheoPriceData.index
  setWord e w := { e with index := w }
  invalidSequence := invalidSequenceArgument
  word_setWord _ _ := rfl

def getTime := fields.getTime
def setTime := fields.setTime
def getSequence := fields.getSequence
def setSequence := fields.setSequence

end TheoPrice

namespace Underlying

def fields : TimeSequenceFields UnderlyingData where
  word := UnderlyingData.index
  setWord e w := { e with index := w }
  invalidSequence := invalidSequenceArgument
  word_setWord _ _ := rfl

def getTime := fields.getTime
def setTime := fields.setTime
def getSequence := fields.getSequence
def setSequence := fields.setSequence

end Underlying

namespace TextMessage

def fields : TimeSequenceFields TextMessageData where
  word := TextMessageData.timeSequence
  setWord e w := { e with timeSequence := w }
  invalidSequence := invalidSequenceValue
  word_setWord _ _ := rfl

def getTime := fields.getTime
def setTime := fields.setTime
def getSequence := fields.getSequence
def setSequence := fields.setSequence

end TextMessage

/-- The ten classes with a packed word. -/
inductive EventClass where
  | orderBase | candle | timeAndSale | tradeBase | series | optionSale | greeks | theoPrice
  | underlying | textMessage
  deriving DecidableEq, Repr

namespace EventClass

def Data : EventClass → Type
  | .orderBase => OrderBaseData
  | .candle => CandleData
  | .timeAndSale => TimeAndSaleData
  | .tradeBase => TradeBaseData
  | .series => SeriesData
  | .optionSale => OptionSaleData
  | .greeks => GreeksData
  | .theoPrice => TheoPriceData
  | .underlying => UnderlyingData
  | .textMessage => TextMessageData

def fields : (c : EventClass) → TimeSequenceFields c.Data
  | .orderBase => OrderBase.fields.toTimeSequenceFields
  | .candle => Candle.fields
  | .timeAndSale => TimeAndSale.fields.toTimeSequenceFields
  | .tradeBase => TradeBase.fields.toTimeSequenceFields
  | .series => Series.fields
  | .optionSale => OptionSale.fields.toTimeSequenceFields
  | .greeks => Greeks.fields
  | .theoPrice => TheoPrice.fields
  | .underlying => Underlying.fields
  | .textMessage => TextMessage.fields

/-- The time-series classes, whose word is what `getIndex` returns. -/
def WordIsIndex : EventClass → Prop
  | .candle | .timeAndSale | .greeks | .theoPrice | .underlying => True
  | _ => False

end EventClass

/-- The four classes with nanosecond time. -/
inductive NanoEventClass where
  | orderBase | timeAndSale | tradeBase | optionSale
  deriving DecidableEq, Repr

namespace NanoEventClass

def Data : NanoEventClass → Type
  | .orderBase => OrderBaseData
  | .timeAndSale => TimeAndSaleData
  | .tradeBase => TradeBaseData
  | .optionSale => OptionSaleData

def fields : (c : NanoEventClass) → TimeNanosFields c.Data
  | .orderBase => OrderBase.fields
  | .timeAndSale => TimeAndSale.fields
  | .tradeBase => TradeBase.fields
  | .optionSale => OptionSale.fields

end NanoEventClass

/-! ## Frame law of the sequence setter -/

/-- An accepted sequence is read back, the time is untouched and so are the index bits
above the sequence; a rejected one throws and changes nothing. -/
def SequenceFrame (c : EventClass) (e : c.Data) (s : Int32) : Prop :=
  let out := c.fields.setSequence e s
  (¬ SequenceRejected s → out.result = .ok () ∧ c.fields.getSequence out.object = s ∧
    c.fields.getTime out.object = c.fields.getTime e ∧
    (c.WordIsIndex → (c.fields.word out.object).toInt / 2 ^ 22 =
      (c.fields.word e).toInt / 2 ^ 22)) ∧
  (SequenceRejected s → out.result = .error (c.fields.invalidSequence s) ∧
    c.fields.word out.object = c.fields.word e)

theorem setSequence_accepted {E : Type} (c : TimeSequenceFields E) (e : E) {s : Int32}
    (h : ¬ SequenceRejected s) :
    (c.setSequence e s).result = .ok () ∧
      c.word (c.setSequence e s).object = wordWithSequence (c.word e) s := by
  simp [TimeSequenceFields.setSequence, h, c.word_setWord]

theorem setSequence_rejected {E : Type} (c : TimeSequenceFields E) (e : E) {s : Int32}
    (h : SequenceRejected s) :
    c.setSequence e s = ⟨.error (c.invalidSequence s), e⟩ := by
  simp [TimeSequenceFields.setSequence, h]

/-- The setter keeps its frame exactly on rejected sequences and on words whose upper half
is zero: any other word loses its seconds. -/
theorem set_sequence_frame_iff (c : EventClass) (e : c.Data) (s : Int32) :
    SequenceFrame c e s ↔ SequenceRejected s ∨
      (0 ≤ (c.fields.word e).toInt ∧ (c.fields.word e).toInt < 2 ^ 32) := by
  by_cases h : SequenceRejected s
  · simp [SequenceFrame, h, setSequence_rejected]
  · obtain ⟨hok, hword⟩ := setSequence_accepted c.fields e h
    have hs := (sequence_accepted_iff s).mp h
    simp only [SequenceFrame, h, not_false_iff, true_imp_iff, false_imp_iff, and_true, false_or,
      hok, TimeSequenceFields.getSequence, TimeSequenceFields.getTime, hword,
      wordWithSequence_sequence _ h, wordWithSequence_time_iff _ h, true_and]
    constructor
    · exact fun hf => hf.1
    · intro hf
      refine ⟨hf, fun _ => ?_⟩
      rw [toInt_wordWithSequence _ h]
      omega

/-- An order timed one second after the epoch moves back to the epoch. -/
theorem set_sequence_loses_seconds :
    ¬ SequenceFrame .orderBase (OrderBase.setTime {} 1000) 0 := by
  intro h
  have := (h.1 (by decide)).2.2.1
  revert this
  decide

/-! ## Round trip and order of packed times -/

/-- Every time in the range of seconds is read back with the sequence it was packed over,
packed words order as time and sequence do, and nanosecond times split and recombine. -/
theorem packed_time_round_trip :
    (∀ (c : EventClass) (e : c.Data) (time : Int64), SecondsFit time →
      c.fields.getTime (c.fields.setTime e time) = time ∧
      c.fields.getSequence (c.fields.setTime e time) = c.fields.getSequence e) ∧
    (∀ (c : EventClass) (e₁ e₂ : c.Data) (t₁ t₂ : Int64), SecondsFit t₁ → SecondsFit t₂ →
      (c.fields.word (c.fields.setTime e₁ t₁) < c.fields.word (c.fields.setTime e₂ t₂) ↔
        Precedes t₁ (c.fields.getSequence e₁) t₂ (c.fields.getSequence e₂))) ∧
    (∀ (c : NanoEventClass) (e : c.Data) (n : Int64), SecondsFit (getMillisFromNanos n) →
      c.fields.getTimeNanos (c.fields.setTimeNanos e n) = n ∧
      0 ≤ c.fields.timeNanoPart (c.fields.setTimeNanos e n) ∧
      c.fields.timeNanoPart (c.fields.setTimeNanos e n) ≤ 999999) := by
  refine ⟨fun c e time h => ?_, fun c e₁ e₂ t₁ t₂ h₁ h₂ => ?_, fun c e n h => ?_⟩
  · simp only [TimeSequenceFields.getTime, TimeSequenceFields.getSequence,
      TimeSequenceFields.setTime, c.fields.word_setWord]
    exact ⟨wordWithTime_time _ h, wordWithTime_sequence _ h⟩
  · simp only [TimeSequenceFields.getSequence, TimeSequenceFields.setTime, c.fields.word_setWord]
    exact wordWithTime_lt_iff _ _ h₁ h₂
  · have hnano : c.fields.timeNanoPart (c.fields.setTimeNanos e n) = getNanoPartFromNanos n :=
      c.fields.nano_setNano _ _
    have hpart := toInt_getNanoPartFromNanos n
    refine ⟨?_, ?_, ?_⟩
    · simp only [TimeNanosFields.getTimeNanos, hnano]
      apply getNanos_of_parts _ hpart
      simp only [TimeSequenceFields.getTime, TimeNanosFields.setTimeNanos, c.fields.word_setNano,
        TimeSequenceFields.setTime, c.fields.word_setWord, wordWithTime_time _ h]
      exact toInt_getMillisFromNanos n
    · rw [hnano, Int32.le_iff_toInt_le, hpart, Int32.toInt_zero]
      omega
    · rw [hnano, Int32.le_iff_toInt_le, hpart, show (999999 : Int32).toInt = 999999 from rfl]
      omega

/-- Just before the epoch: the seconds are negative, the millisecond part is not. -/
theorem packed_time_before_epoch :
    OrderBase.getTime (OrderBase.setTime {} (-1)) = -1 ∧
      OrderBase.getSequence (OrderBase.setTime {} (-1)) = OrderBase.getSequence {} :=
  packed_time_round_trip.1 .orderBase {} (-1) (by decide)

end TimeSequenceEvents
