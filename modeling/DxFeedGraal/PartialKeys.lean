import Mathlib.Order.Defs.LinearOrder
import Mathlib.Order.OrderDual
import Mathlib.Data.Set.Function

/-! # Lexicographic comparison with a first key that may be missing

Two elements compare by their first keys where both have one, and by their second keys where
these tie or one is missing. The result is asymmetric, and transitive only where no element
without a first key stands between two elements that their first keys order otherwise. -/
namespace PartialKeys

variable {α π κ : Type*} [LinearOrder π] [LinearOrder κ]

def Precedes (first : α → Option π) (second : α → κ) (a b : α) : Prop :=
  match first a, first b with
  | some p, some q => p < q ∨ p = q ∧ second a < second b
  | _, _ => second a < second b

/-- The second keys put `n`, which has no first key, behind `a` and before `b`, and the first
keys put `b` before `a`. -/
structure Torn (first : α → Option π) (second : α → κ) (a n b : α) : Prop where
  missing : first n = none
  against : ∃ p q, first a = some p ∧ first b = some q ∧ q < p
  above : second a < second n
  below : second n < second b

variable {first : α → Option π} {second : α → κ} {a b c : α}

theorem precedes_some {p q : π} (ha : first a = some p) (hb : first b = some q) :
    Precedes first second a b ↔ p < q ∨ p = q ∧ second a < second b := by
  simp only [Precedes, ha, hb]

theorem precedes_of_missing (h : first a = none ∨ first b = none) :
    Precedes first second a b ↔ second a < second b := by
  rcases h with h | h
  · simp only [Precedes, h]
  · unfold Precedes
    rw [h]
    cases first a <;> rfl

theorem precedes_asymm (h : Precedes first second a b) : ¬ Precedes first second b a := by
  cases ha : first a with
  | none =>
    rw [precedes_of_missing (Or.inl ha)] at h
    rw [precedes_of_missing (Or.inr ha)]
    exact lt_asymm h
  | some p =>
    cases hb : first b with
    | none =>
      rw [precedes_of_missing (Or.inr hb)] at h
      rw [precedes_of_missing (Or.inl hb)]
      exact lt_asymm h
    | some q =>
      rw [precedes_some ha hb] at h
      rw [precedes_some hb ha]
      rintro (hlt | ⟨heq, hkey⟩)
      · rcases h with hpq | ⟨hpq, -⟩
        · exact lt_asymm hpq hlt
        · exact absurd hlt (by rw [hpq]; exact lt_irrefl q)
      · rcases h with hpq | ⟨-, hkey'⟩
        · exact absurd hpq (by rw [heq]; exact lt_irrefl p)
        · exact lt_asymm hkey hkey'

theorem precedes_irrefl (a : α) : ¬ Precedes first second a a := fun h => precedes_asymm h h

theorem precedes_total (h : second a ≠ second b) :
    Precedes first second a b ∨ Precedes first second b a := by
  have hkeys : second a < second b ∨ second b < second a := lt_or_gt_of_ne h
  cases ha : first a with
  | none =>
    rw [precedes_of_missing (Or.inl ha), precedes_of_missing (Or.inr ha)]
    exact hkeys
  | some p =>
    cases hb : first b with
    | none =>
      rw [precedes_of_missing (Or.inr hb), precedes_of_missing (Or.inl hb)]
      exact hkeys
    | some q =>
      rw [precedes_some ha hb, precedes_some hb ha]
      rcases lt_trichotomy p q with hpq | hpq | hpq
      · exact Or.inl (Or.inl hpq)
      · rcases hkeys with hkeys | hkeys
        · exact Or.inl (Or.inr ⟨hpq, hkeys⟩)
        · exact Or.inr (Or.inr ⟨hpq.symm, hkeys⟩)
      · exact Or.inr (Or.inl hpq)

/-- A cycle of three goes through an element without a first key that tears the others apart. -/
theorem torn_of_cycle (hab : Precedes first second a b) (hbc : Precedes first second b c)
    (hca : Precedes first second c a) (ha : first a = none) : Torn first second c a b := by
  rw [precedes_of_missing (Or.inl ha)] at hab
  rw [precedes_of_missing (Or.inr ha)] at hca
  have hcb : second c < second b := lt_trans hca hab
  cases hb : first b with
  | none =>
    rw [precedes_of_missing (Or.inl hb)] at hbc
    exact absurd hbc (lt_asymm hcb)
  | some p =>
    cases hc : first c with
    | none =>
      rw [precedes_of_missing (Or.inr hc)] at hbc
      exact absurd hbc (lt_asymm hcb)
    | some q =>
      rw [precedes_some hb hc] at hbc
      rcases hbc with hpq | ⟨-, hkey⟩
      · exact ⟨ha, ⟨q, p, hc, hb, hpq⟩, hca, hab⟩
      · exact absurd hkey (lt_asymm hcb)

theorem precedes_trans_of_first {p q r : π} (ha : first a = some p) (hb : first b = some q)
    (hc : first c = some r) (hab : Precedes first second a b) (hbc : Precedes first second b c) :
    Precedes first second a c := by
  rw [precedes_some ha hb] at hab
  rw [precedes_some hb hc] at hbc
  rw [precedes_some ha hc]
  rcases hab with hpq | ⟨rfl, hkey⟩
  · rcases hbc with hqr | ⟨rfl, -⟩
    · exact Or.inl (lt_trans hpq hqr)
    · exact Or.inl hpq
  · rcases hbc with hqr | ⟨rfl, hkey'⟩
    · exact Or.inl hqr
    · exact Or.inr ⟨rfl, lt_trans hkey hkey'⟩

variable {S : Set α}

/-- Over elements of different second keys the comparison is transitive exactly when none of
them tears two others apart. -/
theorem transitive_iff (hS : Set.InjOn second S) :
    (∀ a ∈ S, ∀ b ∈ S, ∀ c ∈ S, Precedes first second a b → Precedes first second b c →
      Precedes first second a c) ↔ ∀ a ∈ S, ∀ n ∈ S, ∀ b ∈ S, ¬ Torn first second a n b := by
  constructor
  · intro h a ha n hn b hb htorn
    have han : Precedes first second a n :=
      (precedes_of_missing (Or.inr htorn.missing)).mpr htorn.above
    have hnb : Precedes first second n b :=
      (precedes_of_missing (Or.inl htorn.missing)).mpr htorn.below
    obtain ⟨p, q, hp, hq, hlt⟩ := htorn.against
    have hba : Precedes first second b a := (precedes_some hq hp).mpr (Or.inl hlt)
    exact precedes_asymm hba (h a ha n hn b hb han hnb)
  · intro h a ha b hb c hc hab hbc
    by_contra hac
    have hne : second a ≠ second c := by
      intro heq
      have := hS ha hc heq
      subst this
      exact precedes_asymm hab hbc
    have hca := (precedes_total hne).resolve_left hac
    -- One of the three has no first key, or the first keys decide.
    cases hfa : first a with
    | none => exact h c hc a ha b hb (torn_of_cycle hab hbc hca hfa)
    | some p =>
      cases hfb : first b with
      | none => exact h a ha b hb c hc (torn_of_cycle hbc hca hab hfb)
      | some q =>
        cases hfc : first c with
        | none => exact h b hb c hc a ha (torn_of_cycle hca hab hbc hfc)
        | some r => exact hac (precedes_trans_of_first hfa hfb hfc hab hbc)

end PartialKeys
