import DxFeedGraal.CppStrings
import Mathlib.Data.List.TakeWhile

/-! # Strings in native records

A native string is a pointer to bytes that end at the first zero, or null. The text `<null>`
stands for the null pointer on this side. -/
namespace NativeStrings

open CppStrings

/-- `String::NUL`. -/
def NUL : Text := "<null>".toList

/-- The bytes before the terminating zero that was written last. -/
abbrev CString := Option Text

def createCString (s : Text) : CString := if s = NUL then none else some s

/-- `createCString` of an optional string. -/
def createCStringOpt : Option Text → CString
  | none => none
  | some s => createCString s

/-- Reading stops at the first zero. -/
def chars (s : Text) : Text := s.takeWhile (· ≠ Char.ofNat 0)

def toString : CString → Text
  | none => NUL
  | some s => chars s

def toStringOpt : CString → Option Text
  | none => none
  | some s => some (chars s)

/-- `StringLike` made from a native string. -/
def stringLike : CString → Text
  | none => []
  | some s => chars s

def NoZero (s : Text) : Prop := ∀ c ∈ s, c ≠ Char.ofNat 0

theorem noZero_of_all {s : Text} (h : (s.all fun c => c != Char.ofNat 0) = true) : NoZero s := by
  intro c hc
  simpa using List.all_eq_true.mp h c hc

theorem chars_of_noZero {s : Text} (h : NoZero s) : chars s = s := by
  unfold chars
  apply List.takeWhile_eq_self_iff.mpr
  intro c hc
  simpa using h c hc

/-- The reserved text comes back as well, by way of the null pointer. -/
theorem toString_createCString {s : Text} (h : NoZero s) : toString (createCString s) = s := by
  unfold createCString
  split
  next hnul => exact hnul.symm
  next => exact chars_of_noZero h

theorem stringLike_createCString {s : Text} (h : NoZero s) (hnul : s ≠ NUL) :
    stringLike (createCString s) = s := by
  rw [createCString, if_neg hnul]
  exact chars_of_noZero h

theorem noZero_NUL : NoZero NUL := noZero_of_all (by decide)

theorem noZero_getD {s : Option Text} (h : ∀ t ∈ s, NoZero t) : NoZero (s.getD NUL) := by
  cases s with
  | none => exact noZero_NUL
  | some t => exact h t rfl

/-- An optional text that holds the reserved one comes back missing, which reads the same. -/
theorem getD_toStringOpt {s : Option Text} (h : ∀ t ∈ s, NoZero t) :
    (toStringOpt (createCStringOpt s)).getD NUL = s.getD NUL := by
  cases s with
  | none => rfl
  | some t =>
    change (toStringOpt (createCString t)).getD NUL = t
    unfold createCString
    split
    next hnul => exact hnul.symm
    next => exact chars_of_noZero (h t rfl)

/-- A text that is set only from a pointer that is not null. -/
theorem getD_of_present {s : Option Text} (h : ∀ t ∈ s, NoZero t) :
    (if createCStringOpt s ≠ none then some (toString (createCStringOpt s)) else none).getD NUL =
      s.getD NUL := by
  rw [← getD_toStringOpt h]
  cases createCStringOpt s with
  | none => rfl
  | some t => rfl

end NativeStrings
