import Mathlib.Data.List.Nodup
import Mathlib.Logic.Basic

/-! # Ledgers of ownership

Who owns which resource, and which resources were given back. A resource is acquired when
nobody has had it, handed on, or given back by its owner. -/
namespace OwnershipLedgers

structure Ledger (ω η : Type*) where
  owns : ω → η → Prop
  released : List η

variable {ω η : Type*}

namespace Ledger

/-- One owner at most, which still has the resource, and one release at most. -/
structure Fair (a : Ledger ω η) : Prop where
  unique : ∀ h w w', a.owns w h → a.owns w' h → w = w'
  live : ∀ h w, a.owns w h → h ∉ a.released
  once : a.released.Nodup

def Untouched (a : Ledger ω η) (h : η) : Prop := (∀ w, ¬ a.owns w h) ∧ h ∉ a.released

/-- The resource has an owner or was given back. -/
def Accounted (a : Ledger ω η) (h : η) : Prop := (∃ w, a.owns w h) ∨ h ∈ a.released

inductive Step (a b : Ledger ω η) : Prop
  | acquire (w : ω) (new : η → Prop) (untouched : ∀ h, new h → a.Untouched h)
      (owns_iff : ∀ v h, b.owns v h ↔ a.owns v h ∨ v = w ∧ new h)
      (released_eq : b.released = a.released)
  | transfer (w w' : ω)
      (owns_iff : ∀ v h, b.owns v h ↔ a.owns v h ∧ v ≠ w ∨ v = w' ∧ a.owns w h)
      (released_eq : b.released = a.released)
  | release (w : ω) (handles : List η) (nodup : handles.Nodup)
      (mem_iff : ∀ h, h ∈ handles ↔ a.owns w h)
      (owns_iff : ∀ v h, b.owns v h ↔ a.owns v h ∧ v ≠ w)
      (released_eq : b.released = a.released ++ handles)

variable {a b : Ledger ω η}

theorem Fair.step (h : a.Fair) (hstep : Step a b) : b.Fair := by
  cases hstep with
  | acquire w new untouched owns_iff released_eq =>
    constructor
    · intro r v v' hv hv'
      rcases (owns_iff v r).mp hv with hv | ⟨rfl, hv⟩
      · rcases (owns_iff v' r).mp hv' with hv' | ⟨rfl, hv'⟩
        · exact h.unique r v v' hv hv'
        · exact absurd hv ((untouched r hv').1 v)
      · rcases (owns_iff v' r).mp hv' with hv' | ⟨rfl, -⟩
        · exact absurd hv' ((untouched r hv).1 v')
        · rfl
    · intro r v hv
      rw [released_eq]
      rcases (owns_iff v r).mp hv with hv | ⟨-, hv⟩
      · exact h.live r v hv
      · exact (untouched r hv).2
    · rw [released_eq]
      exact h.once
  | transfer w w' owns_iff released_eq =>
    constructor
    · intro r v v' hv hv'
      rcases (owns_iff v r).mp hv with ⟨hv, hne⟩ | ⟨rfl, hv⟩
      · rcases (owns_iff v' r).mp hv' with ⟨hv', -⟩ | ⟨-, hv'⟩
        · exact h.unique r v v' hv hv'
        · exact absurd (h.unique r v w hv hv') hne
      · rcases (owns_iff v' r).mp hv' with ⟨hv', hne⟩ | ⟨rfl, -⟩
        · exact absurd (h.unique r v' w hv' hv) hne
        · rfl
    · intro r v hv
      rw [released_eq]
      rcases (owns_iff v r).mp hv with ⟨hv, -⟩ | ⟨-, hv⟩
      · exact h.live r v hv
      · exact h.live r w hv
    · rw [released_eq]
      exact h.once
  | release w handles nodup mem_iff owns_iff released_eq =>
    constructor
    · intro r v v' hv hv'
      exact h.unique r v v' ((owns_iff v r).mp hv).1 ((owns_iff v' r).mp hv').1
    · intro r v hv
      obtain ⟨hv, hne⟩ := (owns_iff v r).mp hv
      rw [released_eq, List.mem_append, mem_iff]
      rintro (hold | hw)
      · exact h.live r v hv hold
      · exact hne (h.unique r v w hv hw)
    · rw [released_eq]
      refine List.nodup_append.mpr ⟨h.once, nodup, fun r hr r' hr' heq => ?_⟩
      subst heq
      exact h.live r w ((mem_iff r).mp hr') hr

/-- No step loses a resource. -/
theorem Accounted.step {r : η} (h : a.Accounted r) (hstep : Step a b) : b.Accounted r := by
  cases hstep with
  | acquire w new untouched owns_iff released_eq =>
    rcases h with ⟨v, hv⟩ | hr
    · exact Or.inl ⟨v, (owns_iff v r).mpr (Or.inl hv)⟩
    · exact Or.inr (released_eq ▸ hr)
  | transfer w w' owns_iff released_eq =>
    rcases h with ⟨v, hv⟩ | hr
    · left
      by_cases hw : v = w
      · exact ⟨w', (owns_iff w' r).mpr (Or.inr ⟨rfl, hw ▸ hv⟩)⟩
      · exact ⟨v, (owns_iff v r).mpr (Or.inl ⟨hv, hw⟩)⟩
    · exact Or.inr (released_eq ▸ hr)
  | release w handles nodup mem_iff owns_iff released_eq =>
    rcases h with ⟨v, hv⟩ | hr
    · by_cases hw : v = w
      · right
        rw [released_eq, List.mem_append, mem_iff]
        exact Or.inr (hw ▸ hv)
      · exact Or.inl ⟨v, (owns_iff v r).mpr ⟨hv, hw⟩⟩
    · right
      rw [released_eq]
      exact List.mem_append_left handles hr

/-- What has no owner any more was given back exactly once. -/
theorem Fair.released_once [DecidableEq η] (h : a.Fair) {r : η} (hr : a.Accounted r)
    (hnone : ∀ w, ¬ a.owns w r) : a.released.count r = 1 := by
  rcases hr with ⟨w, hw⟩ | hr
  · exact absurd hw (hnone w)
  · exact List.count_eq_one_of_mem h.once hr

end Ledger

end OwnershipLedgers
