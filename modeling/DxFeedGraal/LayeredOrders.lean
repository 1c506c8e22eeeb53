import DxFeedGraal.OrderedSet
import Mathlib.Order.Lattice

/-! # Comparisons in layers

A layer decides some pairs and hands over those that tie; a pair may do neither. Layers put
together make a strict order, whatever they leave undecided. -/
namespace LayeredOrders

open OrderedSet

variable {α β κ : Type*}

/-- A strict comparison, and the pairs that it hands over to the next one. -/
structure Layer (less tie : α → α → Prop) : Prop where
  irrefl : ∀ a, ¬ less a a
  less_trans : ∀ {a b c}, less a b → less b c → less a c
  less_tie : ∀ {a b c}, less a b → tie b c → less a c
  tie_less : ∀ {a b c}, tie a b → less b c → less a c
  tie_trans : ∀ {a b c}, tie a b → tie b c → tie a c

/-- The second comparison speaks where the first one ties. -/
def Chained (less tie rest : α → α → Prop) (a b : α) : Prop := less a b ∨ tie a b ∧ rest a b

theorem layer_lt [LinearOrder κ] : Layer (fun a b : κ => a < b) fun a b => a = b where
  irrefl a := lt_irrefl a
  less_trans := lt_trans
  less_tie h heq := heq ▸ h
  tie_less heq h := heq ▸ h
  tie_trans := Eq.trans

variable {less tie rest resttie : α → α → Prop}

theorem Layer.comap (h : Layer less tie) (f : β → α) :
    Layer (fun a b => less (f a) (f b)) fun a b => tie (f a) (f b) where
  irrefl a := h.irrefl (f a)
  less_trans := h.less_trans
  less_tie := h.less_tie
  tie_less := h.tie_less
  tie_trans := h.tie_trans

theorem Layer.lex (h : Layer less tie) (k : Layer rest resttie) :
    Layer (Chained less tie rest) fun a b => tie a b ∧ resttie a b where
  irrefl a := by
    rintro (ha | ⟨-, ha⟩)
    · exact h.irrefl a ha
    · exact k.irrefl a ha
  less_trans := by
    rintro a b c (hab | ⟨hab, rab⟩) (hbc | ⟨hbc, rbc⟩)
    · exact Or.inl (h.less_trans hab hbc)
    · exact Or.inl (h.less_tie hab hbc)
    · exact Or.inl (h.tie_less hab hbc)
    · exact Or.inr ⟨h.tie_trans hab hbc, k.less_trans rab rbc⟩
  less_tie := by
    rintro a b c (hab | ⟨hab, rab⟩) ⟨hbc, rbc⟩
    · exact Or.inl (h.less_tie hab hbc)
    · exact Or.inr ⟨h.tie_trans hab hbc, k.less_tie rab rbc⟩
  tie_less := by
    rintro a b c ⟨hab, rab⟩ (hbc | ⟨hbc, rbc⟩)
    · exact Or.inl (h.tie_less hab hbc)
    · exact Or.inr ⟨h.tie_trans hab hbc, k.tie_less rab rbc⟩
  tie_trans := by
    rintro a b c ⟨hab, rab⟩ ⟨hbc, rbc⟩
    exact ⟨h.tie_trans hab hbc, k.tie_trans rab rbc⟩

/-- A chain leaves a pair undecided when its first part does and what a tie hands over does. -/
theorem neither_chained {a b : α} (htie : tie a b ↔ tie b a) :
    (¬ Chained less tie rest a b ∧ ¬ Chained less tie rest b a) ↔
      (¬ less a b ∧ ¬ less b a) ∧ (tie a b → ¬ rest a b ∧ ¬ rest b a) := by
  unfold Chained
  constructor
  · rintro ⟨hab, hba⟩
    refine ⟨⟨fun h => hab (Or.inl h), fun h => hba (Or.inl h)⟩, fun h => ?_⟩
    exact ⟨fun hrest => hab (Or.inr ⟨h, hrest⟩), fun hrest => hba (Or.inr ⟨htie.mp h, hrest⟩)⟩
  · rintro ⟨⟨hab, hba⟩, hrest⟩
    constructor
    · rintro (h | ⟨h, hr⟩)
      · exact hab h
      · exact (hrest h).1 hr
    · rintro (h | ⟨h, hr⟩)
      · exact hba h
      · exact (hrest (htie.mpr h)).2 hr

/-- Elements among which only those of one key are left undecided can stand in a set. -/
theorem Layer.strictWeakOn {before : α → α → Bool}
    (h : Layer (fun a b => before a b = true) tie) {f : α → κ} {l : List α}
    (hkey : ∀ a ∈ l, ∀ b ∈ l, Equivalent before a b ↔ f a = f b) : StrictWeakOn before l := by
  refine ⟨fun a _ => by simpa using h.irrefl a, fun _ _ _ _ _ _ => h.less_trans, ?_⟩
  intro a ha b hb c hc hab hbc
  apply (hkey a ha c hc).mpr
  exact ((hkey a ha b hb).mp hab).trans ((hkey b hb c hc).mp hbc)

end LayeredOrders
