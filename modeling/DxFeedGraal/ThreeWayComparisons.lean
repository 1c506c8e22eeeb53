import Mathlib.Data.Prod.Lex
import Mathlib.Order.OrderDual
import Mathlib.Order.Defs.Unbundled

/-! # Three-way comparison functions

A comparison result is negative, zero or positive. Chains of comparisons, each deciding
only where the earlier ones tie, follow the lexicographic order of the compared keys. -/
namespace ThreeWayComparisons

variable {α κ μ : Type*} [LinearOrder κ] [LinearOrder μ]

/-- The result of asking first for one strict comparison and then for its converse. -/
def threeWay (less greater : Bool) : ℤ := if less then -1 else if greater then 1 else 0

/-- The result orders the two keys. -/
structure Agrees (c : ℤ) (x y : κ) : Prop where
  neg : c < 0 ↔ x < y
  zero : c = 0 ↔ x = y

theorem Agrees.pos {c : ℤ} {x y : κ} (h : Agrees c x y) : 0 < c ↔ y < x := by
  constructor
  · intro hc
    have hlt : ¬ x < y := fun hxy => by have := h.neg.mpr hxy; omega
    have hne : x ≠ y := fun hxy => by have := h.zero.mpr hxy; omega
    exact lt_of_le_of_ne (not_lt.mp hlt) hne.symm
  · intro hyx
    have hneg : ¬ c < 0 := fun hc => lt_asymm hyx (h.neg.mp hc)
    have hzero : c ≠ 0 := fun hc => hyx.ne' (h.zero.mp hc)
    omega

theorem agrees_threeWay {less greater : Bool} {x y : κ} (hless : less = true ↔ x < y)
    (hgreater : greater = true ↔ y < x) : Agrees (threeWay less greater) x y := by
  rcases lt_trichotomy x y with h | h | h
  · have hl := hless.mpr h
    constructor <;> simp [threeWay, hl, h, h.ne]
  · have hl : less = false := by simpa [h] using hless
    have hg : greater = false := by simpa [h] using hgreater
    constructor <;> simp [threeWay, hl, hg, h]
  · have hl : less = false := by simpa [h.not_gt] using hless
    have hg := hgreater.mpr h
    constructor <;> simp [threeWay, hl, hg, h.not_gt, h.ne']

/-- Comparing the other way round reverses the order. -/
theorem Agrees.dual {c : ℤ} {x y : κ} (h : Agrees c y x) :
    Agrees c (OrderDual.toDual x) (OrderDual.toDual y) :=
  ⟨h.neg, h.zero.trans eq_comm⟩

/-- One link of a chain: the second comparison speaks where the first one ties. -/
theorem Agrees.lex {c d : ℤ} {x₁ y₁ : κ} {x₂ y₂ : μ} (h : Agrees c x₁ y₁)
    (k : c = 0 → Agrees d x₂ y₂) :
    Agrees (if c ≠ 0 then c else d) (toLex (x₁, x₂)) (toLex (y₁, y₂)) := by
  by_cases hc : c = 0
  · have hk := k hc
    have hxy := h.zero.mp hc
    constructor
    · rw [if_neg (by simpa using hc), Prod.Lex.toLex_lt_toLex, hk.neg]
      simp [hxy]
    · rw [if_neg (by simpa using hc), hk.zero, toLex_inj, Prod.mk.injEq]
      simp [hxy]
  · have hne : x₁ ≠ y₁ := fun hxy => hc (h.zero.mpr hxy)
    constructor
    · rw [if_pos hc, Prod.Lex.toLex_lt_toLex, h.neg]
      simp [hne]
    · rw [if_pos hc, toLex_inj, Prod.mk.injEq]
      simp [hc, hne]

/-- The same link where the rest of the chain may have no result. -/
theorem Agrees.lex_option {c : ℤ} {d : Option ℤ} {x₁ y₁ : κ} {x₂ y₂ : μ} (h : Agrees c x₁ y₁)
    (k : ∀ e, d = some e → Agrees e x₂ y₂) :
    ∀ e, (if c ≠ 0 then some c else d) = some e →
      Agrees e (toLex (x₁, x₂)) (toLex (y₁, y₂)) := by
  intro e he
  by_cases hc : c = 0
  · rw [if_neg (by simpa using hc)] at he
    have hlex := h.lex fun _ => k e he
    rwa [if_neg (by simpa using hc)] at hlex
  · rw [if_pos hc] at he
    cases he
    have hlex : Agrees (if c ≠ 0 then c else c) (toLex (x₁, x₂)) (toLex (y₁, y₂)) :=
      h.lex fun hzero => absurd hzero hc
    rwa [if_pos hc] at hlex

omit [LinearOrder μ] in
/-- A chain without a result tied at its first link. -/
theorem Agrees.lex_none {c : ℤ} {d : Option ℤ} {x₁ y₁ : κ} {x₂ y₂ : μ} (h : Agrees c x₁ y₁)
    {P : Prop} (k : d = none ↔ P ∧ x₂ = y₂) :
    (if c ≠ 0 then some c else d) = none ↔ P ∧ toLex (x₁, x₂) = toLex (y₁, y₂) := by
  by_cases hc : c = 0
  · rw [if_neg (by simpa using hc), k, toLex_inj, Prod.mk.injEq]
    simp [h.zero.mp hc]
  · have hne : x₁ ≠ y₁ := fun hxy => hc (h.zero.mpr hxy)
    rw [if_pos hc, toLex_inj, Prod.mk.injEq]
    simp [hne]

/-- A strict comparison that follows a linearly ordered key. -/
theorem strictWeakOrder_of_key {less : α → α → Bool} {key : α → κ}
    (h : ∀ a b, less a b = true ↔ key a < key b) :
    IsStrictWeakOrder α fun a b => less a b = true where
  irrefl a := by simp [h]
  trans a b c := by simpa only [h] using lt_trans
  incomp_trans a b c := by
    simp only [h, not_lt]
    exact fun hab hbc => ⟨hbc.1.trans hab.1, hab.2.trans hbc.2⟩

end ThreeWayComparisons
