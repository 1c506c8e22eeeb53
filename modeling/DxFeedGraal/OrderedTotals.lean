import DxFeedGraal.OrderedSet

/-! # Ordered totals

A sorted sequence in which every element carries the total of its key. The totals of all keys
together are a function that is zero where the sequence has no element. -/
namespace OrderedTotals

open OrderedSet

variable {α κ : Type*} {less : α → α → Bool} {key : α → κ} {Carries : α → ℕ → Prop}

/-- The sequence is sorted, holds one element for each key with a total, and no other. -/
structure Stands (less : α → α → Bool) (key : α → κ) (Carries : α → ℕ → Prop) (l : List α)
    (total : κ → ℕ) : Prop where
  sorted : Sorted less l
  positive : ∀ a ∈ l, 0 < total (key a)
  carries : ∀ a ∈ l, Carries a (total (key a))
  present : ∀ k, 0 < total k → ∃ a ∈ l, key a = k

theorem stands_nil : Stands less key Carries [] fun _ => 0 where
  sorted := List.Pairwise.nil
  positive := by simp
  carries := by simp
  present _ hk := absurd hk (lt_irrefl 0)

theorem Stands.congr {l : List α} {total total' : κ → ℕ} (h : Stands less key Carries l total)
    (heq : ∀ k, total' k = total k) : Stands less key Carries l total' := by
  rwa [funext heq]

/-- Only the totals of no key at all leave the sequence empty. -/
theorem Stands.eq_nil_iff {l : List α} {total : κ → ℕ} (h : Stands less key Carries l total) :
    l = [] ↔ ∀ k, total k = 0 := by
  constructor
  · intro hnil k
    by_contra hk
    obtain ⟨a, ha, -⟩ := h.present k (Nat.pos_of_ne_zero hk)
    rw [hnil] at ha
    cases ha
  · intro hzero
    refine List.eq_nil_iff_forall_not_mem.mpr fun a ha => ?_
    have := h.positive a ha
    rw [hzero] at this
    exact lt_irrefl 0 this

/-- What an element carries tells the total of its key. -/
theorem Stands.unique {l : List α} {total total' : κ → ℕ} (h : Stands less key Carries l total)
    (h' : Stands less key Carries l total')
    (hcarries : ∀ a m n, Carries a m → Carries a n → m = n) (k : κ) : total k = total' k := by
  by_cases hk : ∃ a ∈ l, key a = k
  · obtain ⟨a, ha, rfl⟩ := hk
    exact hcarries a _ _ (h.carries a ha) (h'.carries a ha)
  · have hzero : ∀ {f : κ → ℕ}, Stands less key Carries l f → f k = 0 := fun hf =>
      Nat.eq_zero_of_not_pos fun hpos => hk (hf.present k hpos)
    rw [hzero h, hzero h']

/-- What is left of a sequence stands for the totals of the keys that are left. -/
theorem Stands.sublist [DecidableEq κ] {l l' : List α} {total : κ → ℕ}
    (h : Stands less key Carries l total) (hsub : l'.Sublist l) :
    Stands less key Carries l' fun k => if k ∈ l'.map key then total k else 0 := by
  have hin : ∀ a ∈ l', key a ∈ l'.map key := fun a ha => List.mem_map_of_mem ha
  refine ⟨h.sorted.sublist hsub, fun a ha => ?_, fun a ha => ?_, fun k hk => ?_⟩
  · rw [if_pos (hin a ha)]
    exact h.positive a (hsub.subset ha)
  · rw [if_pos (hin a ha)]
    exact h.carries a (hsub.subset ha)
  · by_cases hkept : k ∈ l'.map key
    · exact List.mem_map.mp hkept
    · rw [if_neg hkept] at hk
      exact absurd hk (lt_irrefl 0)

section StrictWeakOrder

variable [IsStrictWeakOrder α fun a b => less a b = true]
  (hkey : ∀ a b, Equivalent less a b ↔ key a = key b)

include hkey in
theorem Stands.find_some {l : List α} {total : κ → ℕ} (h : Stands less key Carries l total)
    {x a : α} (hfind : find less x l = some a) : a ∈ l ∧ key a = key x := by
  obtain ⟨ha, heq⟩ := (find_eq_some h.sorted).mp hfind
  exact ⟨ha, ((hkey x a).mp heq).symm⟩

include hkey in
theorem Stands.find_none {l : List α} {total : κ → ℕ} (h : Stands less key Carries l total)
    {x : α} (hfind : find less x l = none) : total (key x) = 0 := by
  by_contra hx
  obtain ⟨a, ha, hk⟩ := h.present (key x) (Nat.pos_of_ne_zero hx)
  have hsome := (find_eq_some h.sorted).mpr ⟨ha, (hkey x a).mpr hk.symm⟩
  rw [hfind] at hsome
  cases hsome

variable [DecidableEq κ]

include hkey in
/-- An element under a key without a total. -/
theorem Stands.insert {l : List α} {total : κ → ℕ} (h : Stands less key Carries l total)
    {x : α} {n : ℕ} (hfree : total (key x) = 0) (hn : 0 < n) (hx : Carries x n) :
    Stands less key Carries (OrderedSet.insert less x l).1
      (Function.update total (key x) n) := by
  have hne : ∀ a ∈ l, key a ≠ key x := by
    intro a ha hk
    have := h.positive a ha
    rw [hk, hfree] at this
    exact lt_irrefl 0 this
  have hadded : (OrderedSet.insert less x l).2 = true :=
    insert_added fun a ha heq => hne a ha ((hkey x a).mp heq).symm
  refine ⟨h.sorted.insert, fun a ha => ?_, fun a ha => ?_, fun k hk => ?_⟩
  · rcases (mem_insert hadded).mp ha with rfl | ha
    · rwa [Function.update_self]
    · rw [Function.update_of_ne (hne a ha)]
      exact h.positive a ha
  · rcases (mem_insert hadded).mp ha with rfl | ha
    · rwa [Function.update_self]
    · rw [Function.update_of_ne (hne a ha)]
      exact h.carries a ha
  · by_cases hkx : k = key x
    · exact ⟨x, (mem_insert hadded).mpr (Or.inl rfl), hkx.symm⟩
    · rw [Function.update_of_ne hkx] at hk
      obtain ⟨a, ha, hka⟩ := h.present k hk
      exact ⟨a, (mem_insert hadded).mpr (Or.inr ha), hka⟩

include hkey in
theorem Stands.erase {l : List α} {total : κ → ℕ} (h : Stands less key Carries l total) (x : α) :
    Stands less key Carries (OrderedSet.erase less x l).1
      (Function.update total (key x) 0) := by
  have hmem : ∀ a, a ∈ (OrderedSet.erase less x l).1 ↔ a ∈ l ∧ key a ≠ key x := by
    intro a
    rw [mem_erase h.sorted, hkey, ne_comm]
  refine ⟨h.sorted.erase, fun a ha => ?_, fun a ha => ?_, fun k hk => ?_⟩
  · obtain ⟨ha, hne⟩ := (hmem a).mp ha
    rw [Function.update_of_ne hne]
    exact h.positive a ha
  · obtain ⟨ha, hne⟩ := (hmem a).mp ha
    rw [Function.update_of_ne hne]
    exact h.carries a ha
  · by_cases hkx : k = key x
    · rw [hkx, Function.update_self] at hk
      exact absurd hk (lt_irrefl 0)
    · rw [Function.update_of_ne hkx] at hk
      obtain ⟨a, ha, hka⟩ := h.present k hk
      exact ⟨a, (hmem a).mpr ⟨ha, hka ▸ hkx⟩, hka⟩

include hkey in
/-- An element of the sequence gives way to one of the same key. -/
theorem Stands.replace {l : List α} {total : κ → ℕ} (h : Stands less key Carries l total)
    {x y : α} {n : ℕ} (hxy : key y = key x) (hn : 0 < n) (hy : Carries y n) :
    Stands less key Carries (OrderedSet.insert less y (OrderedSet.erase less x l).1).1
      (Function.update total (key x) n) := by
  have hinsert := (h.erase hkey x).insert hkey (x := y) (by rw [hxy, Function.update_self]) hn hy
  rwa [hxy, Function.update_idem] at hinsert

end StrictWeakOrder

end OrderedTotals
