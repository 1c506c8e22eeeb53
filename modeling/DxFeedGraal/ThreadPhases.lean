import Mathlib

/-! # Threads listed with their phases

A thread is known by its place in a list. A lock is owned by the thread whose phase holds it,
so that its owner says which phases are possible and the other way round. -/
namespace ThreadPhases

variable {α β : Type*}

section Fields

variable (p : α → β)

/-- A field of the element at a place. -/
def field (l : List α) (place : ℕ) : Option β := l[place]?.map p

theorem field_of_at {l : List α} {place : ℕ} {a : α} (ha : l[place]? = some a) :
    field p l place = some (p a) := by
  rw [field, ha]
  rfl

theorem field_length (l : List α) : field p l l.length = none := by
  rw [field, List.getElem?_eq_none le_rfl]
  rfl

theorem field_modify {l : List α} {place : ℕ} {a : α} (ha : l[place]? = some a) (f : α → α) :
    field p (l.modify place f) = Function.update (field p l) place (some (p (f a))) := by
  funext j
  rw [field, List.getElem?_modify]
  by_cases hj : place = j
  · subst hj
    rw [Function.update_self, ha]
    simp
  · rw [Function.update_of_ne (Ne.symm hj)]
    simp [hj, field]

theorem field_modify_other {f : α → α} (hf : ∀ a, p (f a) = p a) (l : List α) (place : ℕ) :
    field p (l.modify place f) = field p l := by
  funext j
  rw [field, List.getElem?_modify, field]
  cases l[j]? with
  | none => rfl
  | some a => by_cases hj : place = j <;> simp [hj, hf]

theorem field_append (l : List α) (a : α) :
    field p (l ++ [a]) = Function.update (field p l) l.length (some (p a)) := by
  funext j
  rw [field, List.getElem?_append]
  rcases Nat.lt_trichotomy j l.length with hlt | rfl | hgt
  · rw [if_pos hlt, Function.update_of_ne hlt.ne, field]
  · rw [Function.update_self, if_neg (lt_irrefl _), Nat.sub_self]
    rfl
  · have hpast : l[j]? = none := List.getElem?_eq_none hgt.le
    rw [if_neg hgt.not_gt, Function.update_of_ne hgt.ne', field, hpast, List.getElem?_eq_none]
    rw [List.length_singleton]
    omega

end Fields

section Parts

variable (p : α → Option β)

/-- What the element at a place has, if there is one and it has any. -/
def part (l : List α) (place : ℕ) : Option β := l[place]?.bind p

theorem part_of_at {l : List α} {place : ℕ} {a : α} (ha : l[place]? = some a) :
    part p l place = p a := by
  rw [part, ha]
  rfl

theorem part_modify {l : List α} {place : ℕ} {a : α} (ha : l[place]? = some a) (f : α → α) :
    part p (l.modify place f) = Function.update (part p l) place (p (f a)) := by
  funext j
  rw [part, List.getElem?_modify]
  by_cases hj : place = j
  · subst hj
    rw [Function.update_self, ha]
    simp
  · rw [Function.update_of_ne (Ne.symm hj)]
    simp [hj, part]

/-- An element that has nothing may become another one that has nothing. -/
theorem part_modify_none {l : List α} {place : ℕ} {a : α} (ha : l[place]? = some a) {f : α → α}
    (hbefore : p a = none) (hafter : p (f a) = none) : part p (l.modify place f) = part p l := by
  rw [part_modify p ha f, hafter, ← hbefore, ← part_of_at p ha, Function.update_eq_self]

theorem part_append {l added : List α} (hadded : ∀ a ∈ added, p a = none) :
    part p (l ++ added) = part p l := by
  funext j
  rw [part, part, List.getElem?_append]
  split
  next => rfl
  next hpast =>
    rw [List.getElem?_eq_none (Nat.le_of_not_lt hpast)]
    cases hget : added[j - l.length]? with
    | none => rfl
    | some a => exact hadded a (List.mem_of_getElem? hget)

theorem part_eq_some {l : List α} {place : ℕ} {b : β} :
    part p l place = some b ↔ ∃ a, l[place]? = some a ∧ p a = some b :=
  Option.bind_eq_some_iff

end Parts

/-- What one thread gains or loses is what all of them together do. -/
theorem sum_modify {M : Type*} [AddCommMonoid M] (w : α → M) {l : List α} {i : ℕ} {a : α}
    (ha : l[i]? = some a) (f : α → α) :
    ((l.modify i f).map w).sum + w a = (l.map w).sum + w (f a) := by
  induction l generalizing i with
  | nil => cases ha
  | cons b l ih =>
    cases i with
    | zero =>
      cases ha
      simp only [List.modify_zero_cons, List.map_cons, List.sum_cons]
      abel
    | succ i =>
      simp only [List.modify_succ_cons, List.map_cons, List.sum_cons, add_assoc]
      rw [ih ha]

/-- The owner of a lock is the thread in a phase that holds it. -/
def Owned (holds : β → Prop) (owner : Option ℕ) (phase : ℕ → Option β) : Prop :=
  ∀ i, owner = some i ↔ ∃ b, phase i = some b ∧ holds b

namespace Owned

variable {holds : β → Prop} {owner : Option ℕ} {phase : ℕ → Option β} {i : ℕ} {b c : β}

theorem free (h : Owned holds none phase) (hb : phase i = some b) : ¬ holds b := by
  intro hholds
  cases (h i).mpr ⟨b, hb, hholds⟩

theorem owner_eq (h : Owned holds owner phase) (hb : phase i = some b) (hholds : holds b) :
    owner = some i :=
  (h i).mpr ⟨b, hb, hholds⟩

/-- A step from a phase to another one that holds the lock as before. -/
theorem keeps (h : Owned holds owner phase) (hb : phase i = some b) (hc : holds c ↔ holds b) :
    Owned holds owner (Function.update phase i (some c)) := by
  intro j
  by_cases hj : j = i
  · subst hj
    rw [Function.update_self, h j, hb]
    simp [hc]
  · rw [Function.update_of_ne hj]
    exact h j

/-- A new thread has no lock. -/
theorem joins (h : Owned holds owner phase) (hnew : phase i = none) (hc : ¬ holds c) :
    Owned holds owner (Function.update phase i (some c)) := by
  intro j
  by_cases hj : j = i
  · subst hj
    rw [Function.update_self, h j, hnew]
    simp [hc]
  · rw [Function.update_of_ne hj]
    exact h j

theorem acquires (h : Owned holds none phase) (hc : holds c) :
    Owned holds (some i) (Function.update phase i (some c)) := by
  intro j
  by_cases hj : j = i
  · subst hj
    simp [hc]
  · rw [Function.update_of_ne hj, ← h j]
    simp [Ne.symm hj]

theorem releases (h : Owned holds owner phase) (hb : phase i = some b) (hholds : holds b)
    (hc : ¬ holds c) : Owned holds none (Function.update phase i (some c)) := by
  have howner := h.owner_eq hb hholds
  intro j
  by_cases hj : j = i
  · subst hj
    simp [hc]
  · rw [Function.update_of_ne hj, ← h j, howner]
    simp [Ne.symm hj]

end Owned

/-! ## Locks with names -/

section Names

variable {κ : Type*} [DecidableEq κ] {owner : κ → Option ℕ} {held : ℕ → Option κ} {i : ℕ} {k : κ}

/-- A thread holds the locks that it owns, and it holds at most one. -/
def Matches (owner : κ → Option ℕ) (held : ℕ → Option κ) : Prop :=
  ∀ k i, owner k = some i ↔ held i = some k

theorem Matches.takes (h : Matches owner held) (howner : owner k = none) (hheld : held i = none) :
    Matches (Function.update owner k (some i)) (Function.update held i (some k)) := by
  intro l j
  by_cases hl : l = k
  · subst hl
    by_cases hj : j = i
    · simp [hj]
    · have hother : held j ≠ some l := fun hj' => by
        rw [← h l j, howner] at hj'
        cases hj'
      simp [hj, hother, Ne.symm hj]
  · by_cases hj : j = i
    · subst hj
      have hother : owner l ≠ some j := fun hl' => by
        rw [h l j, hheld] at hl'
        cases hl'
      simp [hl, hother, Ne.symm hl]
    · simpa [hl, hj] using h l j

theorem Matches.frees (h : Matches owner held) (hheld : held i = some k) :
    Matches (Function.update owner k none) (Function.update held i none) := by
  have howner := (h k i).mpr hheld
  intro l j
  by_cases hl : l = k
  · subst hl
    by_cases hj : j = i
    · simp [hj]
    · have hother : held j ≠ some l := fun hj' => by
        rw [← h l j, howner] at hj'
        exact hj (Option.some.inj hj').symm
      simp [hj, hother]
  · by_cases hj : j = i
    · subst hj
      have hother : owner l ≠ some j := fun hl' => by
        rw [h l j, hheld] at hl'
        exact hl (Option.some.inj hl').symm
      simp [hl, hother]
    · simpa [hl, hj] using h l j

end Names

end ThreadPhases
