import DxFeedGraal.FeedOrders
import Mathlib.Data.List.Nodup

/-! # Enumerations that are stored as codes

An element is found by its code, as an unsigned number of 32 bits; a code that no element has
gives the element of code zero. -/
namespace Enumerations

open FixedWidthIntegers

/-- `Enum<Child, Code>`: the map of the elements by their codes holds a code of zero. -/
class Enumeration (E : Type) where
  ALL : List E
  getCode : E → UInt32
  zero : E
  mem_all : ∀ e, e ∈ ALL
  zero_code : getCode zero = 0
  codes_distinct : (ALL.map getCode).Nodup

open Enumeration

section Lookup

variable {E C : Type} [Enumeration E] [Integral C]

def valueOf (code : C) : E :=
  (ALL.find? fun e => getCode e == (staticCast code : UInt32)).getD zero

theorem eq_of_getCode_eq {e e' : E} (h : getCode e = getCode e') : e = e' :=
  List.inj_on_of_nodup_map codes_distinct (mem_all e) (mem_all e') h

theorem valueOf_of_code {code : C} {e : E} (h : (staticCast code : UInt32) = getCode e) :
    valueOf code = e := by
  unfold valueOf
  cases hfind : (ALL : List E).find? fun e => getCode e == (staticCast code : UInt32) with
  | none =>
    have hmiss := List.find?_eq_none.mp hfind e (mem_all e)
    rw [h] at hmiss
    exact absurd (beq_self_eq_true _) hmiss
  | some e' =>
    have hfound := List.find?_some hfind
    rw [beq_iff_eq, h] at hfound
    exact eq_of_getCode_eq hfound

theorem valueOf_of_other {code : C}
    (h : ∀ e : E, e ≠ zero → (staticCast code : UInt32) ≠ getCode e) :
    valueOf code = (zero : E) := by
  unfold valueOf
  cases hfind : (ALL : List E).find? fun e => getCode e == (staticCast code : UInt32) with
  | none => rfl
  | some e =>
    have hfound := List.find?_some hfind
    rw [beq_iff_eq] at hfound
    by_contra hne
    exact h e hne hfound.symm

end Lookup

/-! ## The enumerations of the event flags -/

inductive OrderAction where
  | UNDEFINED | NEW | REPLACE | MODIFY | DELETE | PARTIAL | EXECUTE | TRADE | BUST
  deriving DecidableEq, Repr

instance : Enumeration OrderAction where
  ALL := [.UNDEFINED, .NEW, .REPLACE, .MODIFY, .DELETE, .PARTIAL, .EXECUTE, .TRADE, .BUST]
  getCode
    | .UNDEFINED => 0
    | .NEW => 1
    | .REPLACE => 2
    | .MODIFY => 3
    | .DELETE => 4
    | .PARTIAL => 5
    | .EXECUTE => 6
    | .TRADE => 7
    | .BUST => 8
  zero := .UNDEFINED
  mem_all e := by cases e <;> decide
  zero_code := rfl
  codes_distinct := by decide

instance : Enumeration Orders.Side where
  ALL := [.UNDEFINED, .BUY, .SELL]
  getCode
    | .UNDEFINED => 0
    | .BUY => 1
    | .SELL => 2
  zero := .UNDEFINED
  mem_all e := by cases e <;> decide
  zero_code := rfl
  codes_distinct := by decide

instance : Enumeration Orders.Scope where
  ALL := [.COMPOSITE, .REGIONAL, .AGGREGATE, .ORDER]
  getCode
    | .COMPOSITE => 0
    | .REGIONAL => 1
    | .AGGREGATE => 2
    | .ORDER => 3
  zero := .COMPOSITE
  mem_all e := by cases e <;> decide
  zero_code := rfl
  codes_distinct := by decide

inductive Direction where
  | UNDEFINED | DOWN | ZERO_DOWN | ZERO | ZERO_UP | UP
  deriving DecidableEq, Repr

instance : Enumeration Direction where
  ALL := [.UNDEFINED, .DOWN, .ZERO_DOWN, .ZERO, .ZERO_UP, .UP]
  getCode
    | .UNDEFINED => 0
    | .DOWN => 1
    | .ZERO_DOWN => 2
    | .ZERO => 3
    | .ZERO_UP => 4
    | .UP => 5
  zero := .UNDEFINED
  mem_all e := by cases e <;> decide
  zero_code := rfl
  codes_distinct := by decide

inductive PriceType where
  | REGULAR | INDICATIVE | PRELIMINARY | FINAL
  deriving DecidableEq, Repr

instance : Enumeration PriceType where
  ALL := [.REGULAR, .INDICATIVE, .PRELIMINARY, .FINAL]
  getCode
    | .REGULAR => 0
    | .INDICATIVE => 1
    | .PRELIMINARY => 2
    | .FINAL => 3
  zero := .REGULAR
  mem_all e := by cases e <;> decide
  zero_code := rfl
  codes_distinct := by decide

inductive TimeAndSaleType where
  | NEW | CORRECTION | CANCEL
  deriving DecidableEq, Repr

instance : Enumeration TimeAndSaleType where
  ALL := [.NEW, .CORRECTION, .CANCEL]
  getCode
    | .NEW => 0
    | .CORRECTION => 1
    | .CANCEL => 2
  zero := .NEW
  mem_all e := by cases e <;> decide
  zero_code := rfl
  codes_distinct := by decide

inductive OtcMarketsPriceType where
  | UNPRICED | ACTUAL | WANTED
  deriving DecidableEq, Repr

instance : Enumeration OtcMarketsPriceType where
  ALL := [.UNPRICED, .ACTUAL, .WANTED]
  getCode
    | .UNPRICED => 0
    | .ACTUAL => 1
    | .WANTED => 2
  zero := .UNPRICED
  mem_all e := by cases e <;> decide
  zero_code := rfl
  codes_distinct := by decide

inductive ShortSaleRestriction where
  | UNDEFINED | ACTIVE | INACTIVE
  deriving DecidableEq, Repr

instance : Enumeration ShortSaleRestriction where
  ALL := [.UNDEFINED, .ACTIVE, .INACTIVE]
  getCode
    | .UNDEFINED => 0
    | .ACTIVE => 1
    | .INACTIVE => 2
  zero := .UNDEFINED
  mem_all e := by cases e <;> decide
  zero_code := rfl
  codes_distinct := by decide

inductive TradingStatus where
  | UNDEFINED | HALTED | ACTIVE
  deriving DecidableEq, Repr

instance : Enumeration TradingStatus where
  ALL := [.UNDEFINED, .HALTED, .ACTIVE]
  getCode
    | .UNDEFINED => 0
    | .HALTED => 1
    | .ACTIVE => 2
  zero := .UNDEFINED
  mem_all e := by cases e <;> decide
  zero_code := rfl
  codes_distinct := by decide

inductive IcebergType where
  | UNDEFINED | NATIVE | SYNTHETIC
  deriving DecidableEq, Repr

instance : Enumeration IcebergType where
  ALL := [.UNDEFINED, .NATIVE, .SYNTHETIC]
  getCode
    | .UNDEFINED => 0
    | .NATIVE => 1
    | .SYNTHETIC => 2
  zero := .UNDEFINED
  mem_all e := by cases e <;> decide
  zero_code := rfl
  codes_distinct := by decide

/-! ## The same enumerations in the comparators of orders -/

theorem staticCast_eq_iff (code : Int32) (n : UInt32) :
    (staticCast code : UInt32) = n ↔ code = n.toInt32 := by
  have hbits : (staticCast code : UInt32).toBitVec = code.toBitVec := BitOperations.ofInt_value code
  rw [← UInt32.toBitVec_inj, hbits, ← Int32.toBitVec_inj]
  rfl

theorem valueOf_scope (code : Int32) : valueOf code = Orders.Scope.valueOf code := by
  unfold Orders.Scope.valueOf
  split_ifs with h₁ h₂ h₃
  · apply valueOf_of_code
    rw [h₁]
    decide
  · apply valueOf_of_code
    rw [h₂]
    decide
  · apply valueOf_of_code
    rw [h₃]
    decide
  · apply valueOf_of_other
    intro e he hcode
    rw [staticCast_eq_iff] at hcode
    cases e with
    | COMPOSITE => exact he rfl
    | REGIONAL => exact h₁ hcode
    | AGGREGATE => exact h₂ hcode
    | ORDER => exact h₃ hcode

theorem valueOf_side (code : Int32) : valueOf code = Orders.Side.valueOf code := by
  unfold Orders.Side.valueOf
  split_ifs with h₁ h₂
  · apply valueOf_of_code
    rw [h₁]
    decide
  · apply valueOf_of_code
    rw [h₂]
    decide
  · apply valueOf_of_other
    intro e he hcode
    rw [staticCast_eq_iff] at hcode
    cases e with
    | UNDEFINED => exact he rfl
    | BUY => exact h₁ hcode
    | SELL => exact h₂ hcode

end Enumerations
