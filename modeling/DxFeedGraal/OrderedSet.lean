import Mathlib.Order.Lattice
import Mathlib.Order.Defs.Unbundled
import Mathlib.Data.List.Basic
import Mathlib.Data.List.Pairwise

/-! # Ordered sets over a strict weak order

The element sequence of a `std::set`. Membership is decided by the order alone, so an
element stands for everything equivalent to it; insertion and removal locate the lower
bound of the key and compare once more the other way round. -/
namespace OrderedSet

universe u

variable {α : Type*} (less : α → α → Bool)

/-- Neither element precedes the other. -/
def Equivalent (a b : α) : Prop := less a b = false ∧ less b a = false

def Sorted (l : List α) : Prop := l.Pairwise fun a b => less a b = true

/-- The flag says whether the element went in; an equivalent one keeps its place. -/
def insert (x : α) : List α → List α × Bool
  | [] => ([x], true)
  | y :: ys =>
    if less y x then ((y :: (insert x ys).1), (insert x ys).2)
    else if less x y then (x :: y :: ys, true)
    else (y :: ys, false)

/-- The number counts the removed elements, none or one. -/
def erase (x : α) : List α → List α × ℕ
  | [] => ([], 0)
  | y :: ys =>
    if less y x then ((y :: (erase x ys).1), (erase x ys).2)
    else if less x y then (y :: ys, 0)
    else (ys, 1)

/-- The element that stands for the key. -/
def find (x : α) : List α → Option α
  | [] => none
  | y :: ys => if less y x then find x ys else if less x y then none else some y

variable {less}

theorem Sorted.nodup (irrefl : ∀ a, less a a = false) {l : List α} (h : Sorted less l) :
    l.Nodup :=
  h.imp fun {a b} hab heq => by subst heq; simp [irrefl] at hab

theorem Sorted.sublist {l k : List α} (hs : k.Sublist l) (h : Sorted less l) : Sorted less k :=
  List.Pairwise.sublist hs h

/-- A prefix of smaller elements is passed over by both operations. -/
theorem insert_append {x : α} {pre post : List α} (h : ∀ y ∈ pre, less y x = true) :
    insert less x (pre ++ post) = (pre ++ (insert less x post).1, (insert less x post).2) := by
  induction pre with
  | nil => rfl
  | cons y pre ih =>
    have hy : less y x = true := h y List.mem_cons_self
    simp [insert, hy, ih fun z hz => h z (List.mem_cons_of_mem y hz)]

theorem erase_append {x : α} {pre post : List α} (h : ∀ y ∈ pre, less y x = true) :
    erase less x (pre ++ post) = (pre ++ (erase less x post).1, (erase less x post).2) := by
  induction pre with
  | nil => rfl
  | cons y pre ih =>
    have hy : less y x = true := h y List.mem_cons_self
    simp [erase, hy, ih fun z hz => h z (List.mem_cons_of_mem y hz)]

theorem insert_not_added {x : α} {l : List α} (h : (insert less x l).2 = false) :
    (insert less x l).1 = l := by
  induction l with
  | nil => simp [insert] at h
  | cons y ys ih =>
    by_cases hy : less y x = true
    · simp only [insert, hy, if_true] at h ⊢
      rw [ih h]
    · by_cases hx : less x y = true
      · simp [insert, hy, hx] at h
      · simp [insert, hy, hx]

theorem erase_not_removed {x : α} {l : List α} (h : (erase less x l).2 = 0) :
    (erase less x l).1 = l := by
  induction l with
  | nil => rfl
  | cons y ys ih =>
    by_cases hy : less y x = true
    · simp only [erase, hy, if_true] at h ⊢
      rw [ih h]
    · by_cases hx : less x y = true
      · simp [erase, hy, hx]
      · simp [erase, hy, hx] at h

theorem length_insert {x : α} {l : List α} (h : (insert less x l).2 = true) :
    (insert less x l).1.length = l.length + 1 := by
  induction l with
  | nil => rfl
  | cons y ys ih =>
    by_cases hy : less y x = true
    · simp only [insert, hy, if_true] at h ⊢
      simp [ih h]
    · by_cases hx : less x y = true
      · simp [insert, hy, hx]
      · simp [insert, hy, hx] at h

/-- Whatever is equivalent to nothing in the set goes in. -/
theorem insert_added {x : α} {l : List α} (h : ∀ y ∈ l, ¬ Equivalent less x y) :
    (insert less x l).2 = true := by
  induction l with
  | nil => rfl
  | cons y ys ih =>
    have hys : ∀ z ∈ ys, ¬ Equivalent less x z := fun z hz => h z (List.mem_cons_of_mem y hz)
    by_cases hy : less y x = true
    · simp [insert, hy, ih hys]
    · have hx : less x y = true := by
        by_contra hx
        exact h y List.mem_cons_self ⟨by simpa using hx, by simpa using hy⟩
      simp [insert, hy, hx]

theorem mem_insert {x z : α} {l : List α} (h : (insert less x l).2 = true) :
    z ∈ (insert less x l).1 ↔ z = x ∨ z ∈ l := by
  induction l with
  | nil => simp [insert]
  | cons y ys ih =>
    by_cases hy : less y x = true
    · simp only [insert, hy, if_true] at h ⊢
      rw [List.mem_cons, ih h, List.mem_cons]
      exact or_left_comm
    · by_cases hx : less x y = true
      · simp [insert, hy, hx]
      · simp [insert, hy, hx] at h

theorem erase_sublist (x : α) (l : List α) : (erase less x l).1.Sublist l := by
  induction l with
  | nil => exact List.Sublist.slnil
  | cons y ys ih =>
    by_cases hy : less y x = true
    · simpa [erase, hy] using ih
    · by_cases hx : less x y = true
      · simp [erase, hy, hx]
      · simp [erase, hy, hx]

theorem length_erase {x : α} {l : List α} (h : 0 < (erase less x l).2) :
    (erase less x l).1.length + 1 = l.length := by
  induction l with
  | nil => simp [erase] at h
  | cons y ys ih =>
    by_cases hy : less y x = true
    · simp only [erase, hy, if_true] at h ⊢
      simp [ih h]
    · by_cases hx : less x y = true
      · simp [erase, hy, hx] at h
      · simp [erase, hy, hx]

theorem exists_of_removed {x : α} {l : List α} (h : 0 < (erase less x l).2) :
    ∃ y ∈ l, Equivalent less x y := by
  induction l with
  | nil => simp [erase] at h
  | cons y ys ih =>
    by_cases hy : less y x = true
    · simp only [erase, hy, if_true] at h
      obtain ⟨z, hz, heq⟩ := ih h
      exact ⟨z, List.mem_cons_of_mem y hz, heq⟩
    · by_cases hx : less x y = true
      · simp [erase, hy, hx] at h
      · exact ⟨y, List.mem_cons_self, by simpa using hx, by simpa using hy⟩

theorem Sorted.erase {x : α} {l : List α} (h : Sorted less l) :
    Sorted less (OrderedSet.erase less x l).1 :=
  h.sublist (erase_sublist x l)

theorem Equivalent.symm {a b : α} (h : Equivalent less a b) : Equivalent less b a := ⟨h.2, h.1⟩

/-- No two elements of a sorted sequence are equivalent. -/
theorem Sorted.eq_of_equivalent {a b : α} {l : List α} (h : Sorted less l) (ha : a ∈ l)
    (hb : b ∈ l) (heq : Equivalent less a b) : a = b := by
  have hne : l.Pairwise fun a b => ¬ Equivalent less a b :=
    h.imp fun hab heq => by simp [heq.1] at hab
  have hsymm : Std.Symm fun a b => ¬ Equivalent less a b := ⟨fun _ _ hxy hyx => hxy hyx.symm⟩
  by_contra hab
  exact hne.forall ha hb hab heq

section StrictWeakOrder

variable [IsStrictWeakOrder α fun a b => less a b = true]

theorem less_irrefl (a : α) : less a a = false := by
  have h := @Std.Irrefl.irrefl α (fun a b => less a b = true) _ a
  simpa using h

theorem less_trans {a b c : α} (h : less a b = true) (k : less b c = true) : less a c = true :=
  @IsTrans.trans α (fun a b => less a b = true) _ a b c h k

theorem Equivalent.refl (a : α) : Equivalent less a a := ⟨less_irrefl a, less_irrefl a⟩

theorem Equivalent.trans {a b c : α} (h : Equivalent less a b) (k : Equivalent less b c) :
    Equivalent less a c := by
  have := @IsStrictWeakOrder.incomp_trans α (fun a b => less a b = true) _ a b c
    (by simpa [Equivalent] using h) (by simpa [Equivalent] using k)
  simpa [Equivalent] using this

/-- What is equivalent to the smaller of two elements is smaller than the larger one. -/
theorem less_of_equivalent {a b c : α} (h : Equivalent less a b) (k : less b c = true) :
    less a c = true := by
  by_contra hac
  have hac : less a c = false := by simpa using hac
  by_cases hca : less c a = true
  · have := less_trans k hca
    rw [h.2] at this
    cases this
  · have heq : Equivalent less b c := h.symm.trans ⟨hac, by simpa using hca⟩
    rw [heq.1] at k
    cases k

theorem less_of_less_of_equivalent {a b c : α} (h : less a b = true) (k : Equivalent less b c) :
    less a c = true := by
  by_contra hac
  have hac : less a c = false := by simpa using hac
  by_cases hca : less c a = true
  · have := less_trans hca h
    rw [k.2] at this
    cases this
  · have heq : Equivalent less a b := Equivalent.trans ⟨hac, by simpa using hca⟩ k.symm
    rw [heq.1] at h
    cases h

theorem Sorted.insert {x : α} {l : List α} (h : Sorted less l) :
    Sorted less (OrderedSet.insert less x l).1 := by
  induction l with
  | nil => simp [OrderedSet.insert, Sorted]
  | cons y ys ih =>
    obtain ⟨hy, hys⟩ := List.pairwise_cons.mp h
    by_cases hyx : less y x = true
    · simp only [OrderedSet.insert, hyx, if_true]
      refine List.pairwise_cons.mpr ⟨fun z hz => ?_, ih hys⟩
      by_cases hadd : (OrderedSet.insert less x ys).2 = true
      · rcases (mem_insert hadd).mp hz with rfl | hz
        · exact hyx
        · exact hy z hz
      · rw [insert_not_added (by simpa using hadd)] at hz
        exact hy z hz
    · by_cases hxy : less x y = true
      · simp only [OrderedSet.insert, hyx, hxy, if_true]
        refine List.pairwise_cons.mpr ⟨fun z hz => ?_, h⟩
        rcases List.mem_cons.mp hz with rfl | hz
        · exact hxy
        · exact less_trans hxy (hy z hz)
      · simpa [OrderedSet.insert, hyx, hxy] using h

/-- On a sorted sequence removal takes out exactly what is equivalent to the key. -/
theorem mem_erase {x z : α} {l : List α} (h : Sorted less l) :
    z ∈ (erase less x l).1 ↔ z ∈ l ∧ ¬ Equivalent less x z := by
  induction l with
  | nil => simp [erase]
  | cons y ys ih =>
    obtain ⟨hy, hys⟩ := List.pairwise_cons.mp h
    by_cases hyx : less y x = true
    · have hne : ¬ Equivalent less x y := fun e => by simp [e.2] at hyx
      simp only [erase, hyx, if_true, List.mem_cons, ih hys]
      constructor
      · rintro (rfl | ⟨hz, he⟩)
        · exact ⟨Or.inl rfl, hne⟩
        · exact ⟨Or.inr hz, he⟩
      · rintro ⟨rfl | hz, he⟩
        · exact Or.inl rfl
        · exact Or.inr ⟨hz, he⟩
    · by_cases hxy : less x y = true
      · simp only [erase, hyx, hxy, if_true]
        refine ⟨fun hz => ⟨hz, fun e => ?_⟩, fun hz => hz.1⟩
        have hxz : less x z = true := by
          rcases List.mem_cons.mp hz with rfl | hz
          · exact hxy
          · exact less_trans hxy (hy z hz)
        rw [e.1] at hxz
        cases hxz
      · have heq : Equivalent less x y := ⟨by simpa using hxy, by simpa using hyx⟩
        simp only [erase, hyx, hxy, List.mem_cons]
        constructor
        · intro hz
          refine ⟨Or.inr hz, fun e => ?_⟩
          have := less_of_equivalent heq (hy z hz)
          rw [e.1] at this
          cases this
        · rintro ⟨rfl | hz, he⟩
          · exact (he heq).elim
          · exact hz

theorem find_eq_some {x y : α} {l : List α} (h : Sorted less l) :
    find less x l = some y ↔ y ∈ l ∧ Equivalent less x y := by
  induction l with
  | nil => simp [find]
  | cons z zs ih =>
    obtain ⟨hz, hzs⟩ := List.pairwise_cons.mp h
    by_cases hzx : less z x = true
    · have hne : ¬ Equivalent less x z := fun e => by simp [e.2] at hzx
      simp only [find, hzx, if_true, ih hzs, List.mem_cons]
      constructor
      · rintro ⟨hy, he⟩
        exact ⟨Or.inr hy, he⟩
      · rintro ⟨rfl | hy, he⟩
        · exact (hne he).elim
        · exact ⟨hy, he⟩
    · by_cases hxz : less x z = true
      · simp only [find, hzx, hxz, if_true]
        constructor
        · intro hnone
          cases hnone
        · rintro ⟨hy, he⟩
          have hxy : less x y = true := by
            rcases List.mem_cons.mp hy with rfl | hy
            · exact hxz
            · exact less_trans hxz (hz y hy)
          rw [he.1] at hxy
          cases hxy
      · have heq : Equivalent less x z := ⟨by simpa using hxz, by simpa using hzx⟩
        simp only [find, hzx, hxz]
        constructor
        · rintro ⟨⟩
          exact ⟨List.mem_cons_self, heq⟩
        · rintro ⟨hy, he⟩
          exact congrArg some (h.eq_of_equivalent List.mem_cons_self hy (heq.symm.trans he))

/-! ### Prefixes -/

/-- Everything up to an element that precedes the key precedes the key as well. -/
theorem take_less {x last : α} {l : List α} {n : ℕ} (h : Sorted less l)
    (hlast : (l.take n).getLast? = some last) (hless : less last x = true) :
    ∀ y ∈ l.take n, less y x = true := by
  intro y hy
  obtain ⟨pre, hpre⟩ := List.getLast?_eq_some_iff.mp hlast
  have hs : Sorted less (l.take n) := h.sublist (List.take_sublist n l)
  rw [hpre] at hs hy
  rcases List.mem_append.mp hy with hy | hy
  · exact less_trans ((List.pairwise_append.mp hs).2.2 y hy last List.mem_cons_self) hless
  · rw [List.mem_singleton.mp hy]
    exact hless

/-- A change behind a full prefix leaves the prefix alone. -/
theorem take_insert {x last : α} {l : List α} {n : ℕ} (h : Sorted less l)
    (hfull : n ≤ l.length) (hlast : (l.take n).getLast? = some last)
    (hless : less last x = true) : (OrderedSet.insert less x l).1.take n = l.take n := by
  have hsplit := @insert_append _ less x (l.take n) (l.drop n) (take_less h hlast hless)
  rw [List.take_append_drop] at hsplit
  rw [hsplit, List.take_append_of_le_length (by rw [List.length_take]; omega), List.take_take,
    Nat.min_self]

theorem take_erase {x last : α} {l : List α} {n : ℕ} (h : Sorted less l)
    (hfull : n ≤ l.length) (hlast : (l.take n).getLast? = some last)
    (hless : less last x = true) : (OrderedSet.erase less x l).1.take n = l.take n := by
  have hsplit := @erase_append _ less x (l.take n) (l.drop n) (take_less h hlast hless)
  rw [List.take_append_drop] at hsplit
  rw [hsplit, List.take_append_of_le_length (by rw [List.length_take]; omega), List.take_take,
    Nat.min_self]

theorem insert_of_mem {x : α} {l : List α} (h : Sorted less l) (hx : x ∈ l) :
    (OrderedSet.insert less x l).2 = false := by
  induction l with
  | nil => cases hx
  | cons y ys ih =>
    obtain ⟨hy, hys⟩ := List.pairwise_cons.mp h
    rcases List.mem_cons.mp hx with rfl | hx
    · simp [OrderedSet.insert, less_irrefl]
    · simp [OrderedSet.insert, hy x hx, ih hys hx]

/-- A new element leaves a full prefix alone exactly when it goes behind it. -/
theorem take_insert_iff {x last : α} {l : List α} {n : ℕ} (h : Sorted less l)
    (hfull : n ≤ l.length) (hlast : (l.take n).getLast? = some last)
    (hadded : (OrderedSet.insert less x l).2 = true) :
    (OrderedSet.insert less x l).1.take n = l.take n ↔ less last x = true := by
  refine ⟨fun htake => ?_, take_insert h hfull hlast⟩
  have hsorted : Sorted less (OrderedSet.insert less x l).1 := h.insert
  have hx : x ∈ (OrderedSet.insert less x l).1 := (mem_insert hadded).mpr (Or.inl rfl)
  rw [← List.take_append_drop n (OrderedSet.insert less x l).1, htake] at hx hsorted
  rcases List.mem_append.mp hx with hx | hx
  · have := insert_of_mem h (List.mem_of_mem_take hx)
    rw [hadded] at this
    cases this
  · exact (List.pairwise_append.mp hsorted).2.2 last (List.mem_of_getLast? hlast) x hx

/-- A removal leaves a full prefix alone exactly when the removed element is behind it. -/
theorem take_erase_iff {x last : α} {l : List α} {n : ℕ} (h : Sorted less l)
    (hfull : n ≤ l.length) (hlast : (l.take n).getLast? = some last)
    (hremoved : 0 < (OrderedSet.erase less x l).2) :
    (OrderedSet.erase less x l).1.take n = l.take n ↔ less last x = true := by
  refine ⟨fun htake => ?_, take_erase h hfull hlast⟩
  obtain ⟨y, hy, heq⟩ := exists_of_removed hremoved
  have hgone : y ∉ (OrderedSet.erase less x l).1 := fun hin => ((mem_erase h).mp hin).2 heq
  rw [← List.take_append_drop n l] at hy h
  rcases List.mem_append.mp hy with hy | hy
  · rw [← htake] at hy
    exact absurd (List.mem_of_mem_take hy) hgone
  · have hbefore : less last y = true :=
      (List.pairwise_append.mp h).2.2 last (List.mem_of_getLast? hlast) y hy
    exact less_of_less_of_equivalent hbefore heq.symm

end StrictWeakOrder

/-! ### Elements of a list -/

/-- What a set asks of its comparison, over the elements that it meets. -/
def StrictWeakOn (less : α → α → Bool) (l : List α) : Prop :=
  (∀ a ∈ l, less a a = false) ∧
    (∀ a ∈ l, ∀ b ∈ l, ∀ c ∈ l, less a b = true → less b c = true → less a c = true) ∧
    ∀ a ∈ l, ∀ b ∈ l, ∀ c ∈ l, Equivalent less a b → Equivalent less b c → Equivalent less a c

instance (a b : α) : Decidable (Equivalent less a b) := inferInstanceAs (Decidable (_ ∧ _))

instance (l : List α) : Decidable (StrictWeakOn less l) := inferInstanceAs (Decidable (_ ∧ _ ∧ _))

variable {β : Type*} {f : β → α}

theorem insert_map (x : β) (l : List β) :
    insert less (f x) (l.map f) = ((insert (fun a b => less (f a) (f b)) x l).1.map f,
      (insert (fun a b => less (f a) (f b)) x l).2) := by
  induction l with
  | nil => rfl
  | cons y ys ih =>
    by_cases hyx : less (f y) (f x) = true
    · simp [insert, hyx, ih]
    · by_cases hxy : less (f x) (f y) = true <;> simp [insert, hyx, hxy]

theorem erase_map (x : β) (l : List β) :
    erase less (f x) (l.map f) = ((erase (fun a b => less (f a) (f b)) x l).1.map f,
      (erase (fun a b => less (f a) (f b)) x l).2) := by
  induction l with
  | nil => rfl
  | cons y ys ih =>
    by_cases hyx : less (f y) (f x) = true
    · simp [erase, hyx, ih]
    · by_cases hxy : less (f x) (f y) = true <;> simp [erase, hyx, hxy]

theorem find_map (x : β) (l : List β) :
    find less (f x) (l.map f) = (find (fun a b => less (f a) (f b)) x l).map f := by
  induction l with
  | nil => rfl
  | cons y ys ih =>
    by_cases hyx : less (f y) (f x) = true
    · simp [find, hyx, ih]
    · by_cases hxy : less (f x) (f y) = true <;> simp [find, hyx, hxy]

theorem sorted_map {l : List β} :
    Sorted less (l.map f) ↔ Sorted (fun a b => less (f a) (f b)) l := List.pairwise_map

theorem strictWeakOn_map {l : List β} :
    StrictWeakOn less (l.map f) ↔ StrictWeakOn (fun a b => less (f a) (f b)) l := by
  simp only [StrictWeakOn, List.forall_mem_map]
  rfl

/-- The elements that a set meets, as a type of their own. -/
theorem StrictWeakOn.exists_map {α : Type u} {less : α → α → Bool} {x : α} {l : List α}
    (h : StrictWeakOn less (x :: l)) :
    ∃ (β : Type u) (f : β → α) (y : β) (k : List β), Function.Injective f ∧
      IsStrictWeakOrder β (fun a b => less (f a) (f b) = true) ∧ f y = x ∧ k.map f = l := by
  refine ⟨{a // a ∈ x :: l}, Subtype.val, ⟨x, List.mem_cons_self⟩,
    l.attachWith _ fun _ ha => List.mem_cons_of_mem x ha, Subtype.val_injective, ?_, rfl, by simp⟩
  obtain ⟨hirrefl, htrans, hincomp⟩ := h
  exact {
    irrefl := fun a => by simp [hirrefl a a.2]
    trans := fun a b c => htrans a a.2 b b.2 c c.2
    incomp_trans := fun a b c hab hbc => by
      have := hincomp a a.2 b b.2 c c.2 (by simpa [Equivalent] using hab)
        (by simpa [Equivalent] using hbc)
      simpa [Equivalent] using this }

theorem StrictWeakOn.less_of_equivalent {l : List α} (h : StrictWeakOn less l) {a b c : α}
    (ha : a ∈ l) (hb : b ∈ l) (hc : c ∈ l) (hab : less a b = true) (heq : Equivalent less b c) :
    less a c = true := by
  obtain ⟨-, htrans, hincomp⟩ := h
  by_contra hac
  have hac : less a c = false := by simpa using hac
  cases hca : less c a with
  | true =>
    have := htrans c hc a ha b hb hca hab
    rw [heq.2] at this
    cases this
  | false =>
    have := (hincomp a ha c hc b hb ⟨hac, hca⟩ heq.symm).1
    rw [hab] at this
    cases this

theorem StrictWeakOn.subset {k l : List α} (h : StrictWeakOn less l) (hsub : k ⊆ l) :
    StrictWeakOn less k := by
  obtain ⟨hirrefl, htrans, hincomp⟩ := h
  exact ⟨fun a ha => hirrefl a (hsub ha),
    fun a ha b hb c hc => htrans a (hsub ha) b (hsub hb) c (hsub hc),
    fun a ha b hb c hc => hincomp a (hsub ha) b (hsub hb) c (hsub hc)⟩

theorem find_eq_some_on {x y : α} {l : List α} (hw : StrictWeakOn less (x :: l))
    (h : Sorted less l) : find less x l = some y ↔ y ∈ l ∧ Equivalent less x y := by
  obtain ⟨β, f, x, l, hf, hw, rfl, rfl⟩ := hw.exists_map
  rw [sorted_map] at h
  rw [find_map, Option.map_eq_some_iff, List.mem_map]
  constructor
  · rintro ⟨z, hz, rfl⟩
    obtain ⟨hmem, heq⟩ := (find_eq_some h).mp hz
    exact ⟨⟨z, hmem, rfl⟩, heq⟩
  · rintro ⟨⟨z, hmem, rfl⟩, heq⟩
    exact ⟨z, (find_eq_some h).mpr ⟨hmem, heq⟩, rfl⟩

theorem Sorted.insert_on {x : α} {l : List α} (hw : StrictWeakOn less (x :: l))
    (h : Sorted less l) : Sorted less (OrderedSet.insert less x l).1 := by
  obtain ⟨β, f, x, l, -, hw, rfl, rfl⟩ := hw.exists_map
  rw [sorted_map] at h
  rw [insert_map, sorted_map]
  exact h.insert

theorem mem_erase_on {x z : α} {l : List α} (hw : StrictWeakOn less (x :: l))
    (h : Sorted less l) : z ∈ (erase less x l).1 ↔ z ∈ l ∧ ¬ Equivalent less x z := by
  obtain ⟨β, f, x, l, hf, hw, rfl, rfl⟩ := hw.exists_map
  rw [sorted_map] at h
  rw [erase_map, List.mem_map, List.mem_map]
  constructor
  · rintro ⟨z, hz, rfl⟩
    obtain ⟨hz, hne⟩ := (mem_erase h).mp hz
    exact ⟨⟨z, hz, rfl⟩, hne⟩
  · rintro ⟨⟨z, hz, rfl⟩, hne⟩
    exact ⟨z, (mem_erase h).mpr ⟨hz, hne⟩, rfl⟩

/-- An element of the sequence is the only one that its removal takes out. -/
theorem mem_erase_of_mem {x z : α} {l : List α} (hw : StrictWeakOn less (x :: l))
    (h : Sorted less l) (hx : x ∈ l) : z ∈ (erase less x l).1 ↔ z ∈ l ∧ z ≠ x := by
  rw [mem_erase_on hw h]
  constructor
  · rintro ⟨hz, hne⟩
    refine ⟨hz, fun hzx => hne ?_⟩
    rw [hzx]
    exact ⟨hw.1 x List.mem_cons_self, hw.1 x List.mem_cons_self⟩
  · rintro ⟨hz, hne⟩
    exact ⟨hz, fun heq => hne (h.eq_of_equivalent hx hz heq).symm⟩

theorem take_insert_on_iff {x last : α} {l : List α} {n : ℕ} (hw : StrictWeakOn less (x :: l))
    (h : Sorted less l) (hfull : n ≤ l.length) (hlast : (l.take n).getLast? = some last)
    (hadded : (OrderedSet.insert less x l).2 = true) :
    (OrderedSet.insert less x l).1.take n = l.take n ↔ less last x = true := by
  obtain ⟨β, f, x, l, hf, hw, rfl, rfl⟩ := hw.exists_map
  rw [sorted_map] at h
  rw [List.length_map] at hfull
  rw [← List.map_take, List.getLast?_map] at hlast
  obtain ⟨last, hlast', rfl⟩ := Option.map_eq_some_iff.mp hlast
  rw [insert_map] at hadded ⊢
  rw [← List.map_take, ← List.map_take, hf.list_map.eq_iff]
  exact take_insert_iff h hfull hlast' hadded

theorem take_erase_on_iff {x last : α} {l : List α} {n : ℕ} (hw : StrictWeakOn less (x :: l))
    (h : Sorted less l) (hfull : n ≤ l.length) (hlast : (l.take n).getLast? = some last)
    (hremoved : 0 < (OrderedSet.erase less x l).2) :
    (OrderedSet.erase less x l).1.take n = l.take n ↔ less last x = true := by
  obtain ⟨β, f, x, l, hf, hw, rfl, rfl⟩ := hw.exists_map
  rw [sorted_map] at h
  rw [List.length_map] at hfull
  rw [← List.map_take, List.getLast?_map] at hlast
  obtain ⟨last, hlast', rfl⟩ := Option.map_eq_some_iff.mp hlast
  rw [erase_map] at hremoved ⊢
  rw [← List.map_take, ← List.map_take, hf.list_map.eq_iff]
  exact take_erase_iff h hfull hlast' hremoved

/-! ### Elements with keys -/

/-- The comparison is that of keys, among the elements of a list. -/
def FollowsOn {κ : Type*} [LinearOrder κ] (less : α → α → Bool) (key : α → κ) (l : List α) : Prop :=
  ∀ a ∈ l, ∀ b ∈ l, less a b = true ↔ key a < key b

section Keys

variable {κ : Type*} [LinearOrder κ] {key : α → κ}

theorem FollowsOn.subset {k l : List α} (h : FollowsOn less key l) (hsub : k ⊆ l) :
    FollowsOn less key k := fun a ha b hb => h a (hsub ha) b (hsub hb)

theorem FollowsOn.equivalent_iff {l : List α} (h : FollowsOn less key l) {a b : α} (ha : a ∈ l)
    (hb : b ∈ l) : Equivalent less a b ↔ key a = key b := by
  have hab := h a ha b hb
  have hba := h b hb a ha
  unfold Equivalent
  rw [← Bool.not_eq_true, ← Bool.not_eq_true, hab, hba, not_lt, not_lt, and_comm]
  exact le_antisymm_iff.symm

theorem FollowsOn.strictWeakOn {l : List α} (h : FollowsOn less key l) : StrictWeakOn less l := by
  refine ⟨?_, ?_, ?_⟩
  · intro a ha
    exact ((h.equivalent_iff ha ha).mpr rfl).1
  · intro a ha b hb c hc hab hbc
    exact (h a ha c hc).mpr (((h a ha b hb).mp hab).trans ((h b hb c hc).mp hbc))
  · intro a ha b hb c hc hab hbc
    exact (h.equivalent_iff ha hc).mpr
      (((h.equivalent_iff ha hb).mp hab).trans ((h.equivalent_iff hb hc).mp hbc))

theorem mem_of_mem_insert {x z : α} {l : List α} (h : z ∈ (insert less x l).1) :
    z = x ∨ z ∈ l := by
  by_cases hadded : (insert less x l).2 = true
  · exact (mem_insert hadded).mp h
  · rw [insert_not_added (by simpa using hadded)] at h
    exact Or.inr h

theorem mem_insert_of_mem {x z : α} {l : List α} (h : z ∈ l) : z ∈ (insert less x l).1 := by
  by_cases hadded : (insert less x l).2 = true
  · exact (mem_insert hadded).mpr (Or.inr h)
  · rw [insert_not_added (by simpa using hadded)]
    exact h

/-- The keys of a set after an insertion; an element of the same key stands for the new one. -/
theorem keys_insert {x : α} {l : List α} (h : FollowsOn less key (x :: l)) (k : κ) :
    k ∈ (insert less x l).1.map key ↔ k = key x ∨ k ∈ l.map key := by
  induction l with
  | nil => simp [insert]
  | cons y ys ih =>
    have hys : FollowsOn less key (x :: ys) :=
      h.subset (List.cons_subset_cons x (List.subset_cons_self y ys))
    by_cases hyx : less y x = true
    · simp only [insert, hyx, if_true, List.map_cons, List.mem_cons, ih hys]
      exact or_left_comm
    · by_cases hxy : less x y = true
      · simp [insert, hyx, hxy]
      · have hkey : key x = key y :=
          (h.equivalent_iff List.mem_cons_self (List.mem_cons_of_mem x List.mem_cons_self)).mp
            ⟨by simpa using hxy, by simpa using hyx⟩
        simp [insert, hyx, hxy, hkey]

end Keys

end OrderedSet
