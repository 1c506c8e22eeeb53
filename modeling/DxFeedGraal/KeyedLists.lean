import Mathlib.Order.Lattice
import Mathlib.Data.List.Basic
import Mathlib.Data.List.Nodup

/-! # Lists of keyed entries

A list stands for the partial map that gives each key its first entry. Writing an entry
keeps the order of the list and drops the other entries of its key. -/
namespace KeyedLists

variable {κ ι : Type*} [LinearOrder κ] (key : ι → κ)

def lookup (k : κ) (l : List ι) : Option ι := l.find? fun x => key x = k

def without (k : κ) (l : List ι) : List ι := l.filter fun x => key x ≠ k

/-- Over the first entry of the key, or before the first entry of a greater one. -/
def write (new : ι) : List ι → List ι
  | [] => [new]
  | x :: xs =>
    if key x = key new then new :: without key (key new) xs
    else if key new < key x then new :: without key (key new) (x :: xs)
    else x :: write new xs

/-- The keys stand in order, and no key but `k` stands twice. -/
def SortedBut (k : κ) (l : List ι) : Prop :=
  (l.map key).Pairwise (· ≤ ·) ∧ ∀ other, other ≠ k → (l.map key).count other ≤ 1

variable {key}

theorem lookup_cons (k : κ) (x : ι) (xs : List ι) :
    lookup key k (x :: xs) = if key x = k then some x else lookup key k xs := by
  by_cases hx : key x = k <;> simp [lookup, hx]

theorem without_cons_eq {k : κ} {x : ι} (h : key x = k) (xs : List ι) :
    without key k (x :: xs) = without key k xs := by
  simp [without, h]

theorem without_cons_ne {k : κ} {x : ι} (h : key x ≠ k) (xs : List ι) :
    without key k (x :: xs) = x :: without key k xs := by
  simp [without, h]

theorem mem_without {k : κ} {x : ι} {l : List ι} :
    x ∈ without key k l ↔ x ∈ l ∧ key x ≠ k := by
  simp [without]

theorem without_sublist (k : κ) (l : List ι) : (without key k l).Sublist l := List.filter_sublist

theorem lookup_without (k : κ) {other : κ} (h : other ≠ k) (l : List ι) :
    lookup key other (without key k l) = lookup key other l := by
  induction l with
  | nil => rfl
  | cons x xs ih =>
    by_cases hx : key x = k
    · rw [without_cons_eq hx, ih, lookup_cons, if_neg (fun hother => h (hother.symm.trans hx))]
    · rw [without_cons_ne hx, lookup_cons, lookup_cons, ih]

theorem lookup_eq_none {k : κ} {l : List ι} : lookup key k l = none ↔ ∀ x ∈ l, key x ≠ k := by
  simp [lookup]

theorem key_of_lookup {k : κ} {l : List ι} {x : ι} (h : lookup key k l = some x) : key x = k := by
  have hfound := List.find?_some h
  exact of_decide_eq_true hfound

theorem lookup_without_self (k : κ) (l : List ι) : lookup key k (without key k l) = none :=
  lookup_eq_none.mpr fun _ hx => (mem_without.mp hx).2

theorem lookup_write (new : ι) (l : List ι) (k : κ) :
    lookup key k (write key new l) = if key new = k then some new else lookup key k l := by
  induction l with
  | nil => exact lookup_cons k new []
  | cons x xs ih =>
    rw [write]
    split
    next hx =>
      rw [lookup_cons]
      split
      next => rfl
      next hk => rw [lookup_without _ (Ne.symm hk), lookup_cons, hx, if_neg hk]
    next hx =>
      split
      next =>
        rw [lookup_cons]
        split
        next => rfl
        next hk => rw [lookup_without _ (Ne.symm hk)]
      next =>
        rw [lookup_cons, ih, lookup_cons]
        split
        next hk => rw [if_neg (fun hnew => hx (hk.trans hnew.symm))]
        next => rfl

theorem mem_write {new x : ι} {l : List ι} (h : x ∈ write key new l) :
    x = new ∨ x ∈ without key (key new) l := by
  induction l with
  | nil => exact Or.inl (List.mem_singleton.mp h)
  | cons y ys ih =>
    rw [write] at h
    split at h
    next hy =>
      rw [without_cons_eq hy]
      exact List.mem_cons.mp h
    next hy =>
      split at h
      next => exact List.mem_cons.mp h
      next =>
        rw [without_cons_ne hy]
        rcases List.mem_cons.mp h with rfl | hmem
        · exact Or.inr List.mem_cons_self
        · exact (ih hmem).imp_right (List.mem_cons_of_mem y)

theorem write_ne_nil (new : ι) (l : List ι) : write key new l ≠ [] := by
  cases l with
  | nil => exact List.cons_ne_nil _ _
  | cons x xs =>
    rw [write]
    split
    · exact List.cons_ne_nil _ _
    · split <;> exact List.cons_ne_nil _ _

theorem count_without (k : κ) (l : List ι) : ((without key k l).map key).count k = 0 := by
  apply List.count_eq_zero_of_not_mem
  intro hmem
  obtain ⟨x, hx, heq⟩ := List.mem_map.mp hmem
  exact (mem_without.mp hx).2 heq

/-- However often the key stood in the list, it stands there once after it is written. -/
theorem count_write (new : ι) (l : List ι) : ((write key new l).map key).count (key new) = 1 := by
  induction l with
  | nil => simp [write]
  | cons x xs ih =>
    rw [write]
    split
    next => rw [List.map_cons, List.count_cons_self, count_without]
    next hx =>
      split
      next => rw [List.map_cons, List.count_cons_self, count_without]
      next => rw [List.map_cons, List.count_cons_of_ne hx, ih]

/-- Writing keeps any order of the keys that is at least as strict as theirs. -/
theorem pairwise_write {R : κ → κ → Prop} (hR : ∀ a b, a < b → R a b) (new : ι) {l : List ι}
    (hle : (l.map key).Pairwise (· ≤ ·))
    (h : ((without key (key new) l).map key).Pairwise R) :
    ((write key new l).map key).Pairwise R := by
  induction l with
  | nil => simp [write]
  | cons x xs ih =>
    rw [List.map_cons, List.pairwise_cons] at hle
    have hbelow : ∀ y ∈ xs, key x ≤ key y := fun y hy => hle.1 _ (List.mem_map_of_mem hy)
    rw [write]
    split
    next hx =>
      rw [without_cons_eq hx] at h
      rw [List.map_cons, List.pairwise_cons]
      refine ⟨?_, h⟩
      intro k hk
      obtain ⟨y, hy, rfl⟩ := List.mem_map.mp hk
      obtain ⟨hmem, hne⟩ := mem_without.mp hy
      have hnew : key new ≤ key y := hx ▸ hbelow y hmem
      exact hR _ _ (lt_of_le_of_ne hnew (Ne.symm hne))
    next hx =>
      split
      next hless =>
        rw [List.map_cons, List.pairwise_cons]
        refine ⟨?_, h⟩
        intro k hk
        obtain ⟨y, hy, rfl⟩ := List.mem_map.mp hk
        rcases List.mem_cons.mp (mem_without.mp hy).1 with rfl | hmem
        · exact hR _ _ hless
        · exact hR _ _ (lt_of_lt_of_le hless (hbelow y hmem))
      next hless =>
        rw [without_cons_ne hx, List.map_cons, List.pairwise_cons] at h
        rw [List.map_cons, List.pairwise_cons]
        refine ⟨?_, ih hle.2 h.2⟩
        intro k hk
        obtain ⟨y, hy, rfl⟩ := List.mem_map.mp hk
        rcases mem_write hy with rfl | hmem
        · exact hR _ _ (lt_of_le_of_ne (not_lt.mp hless) hx)
        · exact h.1 _ (List.mem_map_of_mem hmem)

theorem write_sorted (new : ι) {l : List ι} (h : (l.map key).Pairwise (· ≤ ·)) :
    ((write key new l).map key).Pairwise (· ≤ ·) :=
  pairwise_write (fun _ _ => le_of_lt) new h (h.sublist ((without_sublist _ l).map key))

/-- Only the key that is written may stand twice before. -/
theorem write_strictly_sorted (new : ι) {l : List ι} (h : SortedBut key (key new) l) :
    ((write key new l).map key).Pairwise (· < ·) := by
  apply pairwise_write (fun _ _ hlt => hlt) new h.1
  have hsub : ((without key (key new) l).map key).Sublist (l.map key) :=
    (without_sublist (key new) l).map key
  have hnodup : ((without key (key new) l).map key).Nodup := by
    rw [List.nodup_iff_count_le_one]
    intro k
    by_cases hk : k = key new
    · rw [hk, count_without]
      exact Nat.zero_le 1
    · exact Nat.le_trans (hsub.count_le k) (h.2 k hk)
  have hle := h.1.sublist hsub
  exact (hle.and hnodup).imp fun hab => lt_of_le_of_ne hab.1 hab.2

/-! ## Lists with strictly ordered keys -/

theorem sortedBut_of_strict {l : List ι} (h : (l.map key).Pairwise (· < ·)) (k : κ) :
    SortedBut key k l :=
  ⟨h.imp le_of_lt, fun other _ => List.nodup_iff_count_le_one.mp (h.imp ne_of_lt) other⟩

theorem lookup_of_lt {x : ι} {xs : List ι} (h : ((x :: xs).map key).Pairwise (· < ·)) {k : κ}
    (hk : k ≤ key x) : lookup key k xs = none := by
  rw [List.map_cons, List.pairwise_cons] at h
  apply lookup_eq_none.mpr
  intro y hy heq
  have hlt := h.1 _ (List.mem_map_of_mem hy)
  exact absurd (heq ▸ hlt) (not_lt.mpr hk)

/-- Such a list is determined by the map it stands for. -/
theorem eq_of_lookup_eq {l l' : List ι} (h : (l.map key).Pairwise (· < ·))
    (h' : (l'.map key).Pairwise (· < ·)) (hlookup : ∀ k, lookup key k l = lookup key k l') :
    l = l' := by
  induction l generalizing l' with
  | nil =>
    cases l' with
    | nil => rfl
    | cons y ys =>
      have := hlookup (key y)
      rw [lookup_cons, if_pos rfl] at this
      cases this
  | cons x xs ih =>
    cases l' with
    | nil =>
      have := hlookup (key x)
      rw [lookup_cons, if_pos rfl] at this
      cases this
    | cons y ys =>
      have hx := hlookup (key x)
      have hy := hlookup (key y)
      rw [lookup_cons, lookup_cons, if_pos rfl] at hx
      rw [lookup_cons, lookup_cons, if_pos rfl] at hy
      have hkeys : key y = key x := by
        by_contra hne
        rw [if_neg hne] at hx
        rw [if_neg (Ne.symm hne)] at hy
        rcases lt_or_gt_of_ne hne with hlt | hgt
        · rw [lookup_of_lt h hlt.le] at hy
          cases hy
        · rw [lookup_of_lt h' hgt.le] at hx
          cases hx
      rw [if_pos hkeys] at hx
      obtain rfl := Option.some.inj hx
      have hrest : ∀ k, lookup key k xs = lookup key k ys := by
        intro k
        by_cases hk : key x = k
        · rw [lookup_of_lt h hk.ge, lookup_of_lt h' hk.ge]
        · have := hlookup k
          rwa [lookup_cons, lookup_cons, if_neg hk, if_neg hk] at this
      rw [List.map_cons, List.pairwise_cons] at h h'
      rw [ih h.2 h'.2 hrest]

section Writes

variable {l : List ι} (h : (l.map key).Pairwise (· < ·)) {a b : ι}
include h

theorem write_strict (a : ι) : ((write key a l).map key).Pairwise (· < ·) :=
  write_strictly_sorted a (sortedBut_of_strict h (key a))

theorem write_comm (hne : key a ≠ key b) : write key b (write key a l) =
    write key a (write key b l) := by
  apply eq_of_lookup_eq (write_strict (write_strict h a) b) (write_strict (write_strict h b) a)
  intro k
  rw [lookup_write, lookup_write, lookup_write, lookup_write]
  by_cases ha : key a = k
  · rw [if_pos ha, if_pos ha, if_neg fun hb => hne (ha.trans hb.symm)]
  · rw [if_neg ha, if_neg ha]

theorem write_write (heq : key a = key b) : write key b (write key a l) = write key b l := by
  apply eq_of_lookup_eq (write_strict (write_strict h a) b) (write_strict h b)
  intro k
  rw [lookup_write, lookup_write, lookup_write]
  by_cases hb : key b = k
  · rw [if_pos hb, if_pos hb]
  · rw [if_neg hb, if_neg hb, if_neg (heq ▸ hb)]

end Writes

/-! ## Taking a key out -/

theorem without_of_absent {k : κ} {l : List ι} (h : ∀ x ∈ l, key x ≠ k) : without key k l = l := by
  apply List.filter_eq_self.mpr
  intro x hx
  exact decide_eq_true (h x hx)

theorem without_without (k : κ) (l : List ι) :
    without key k (without key k l) = without key k l :=
  without_of_absent fun _ hx => (mem_without.mp hx).2

/-- In whatever order the keys stand. -/
theorem without_write {new : ι} {l : List ι} (h : ∀ x ∈ l, key x ≠ key new) :
    without key (key new) (write key new l) = l := by
  induction l with
  | nil => exact without_cons_eq rfl []
  | cons x xs ih =>
    have hx : key x ≠ key new := h x List.mem_cons_self
    rw [write, if_neg hx]
    split
    next => rw [without_cons_eq rfl, without_without, without_of_absent h]
    next => rw [without_cons_ne hx, ih fun y hy => h y (List.mem_cons_of_mem x hy)]

end KeyedLists
