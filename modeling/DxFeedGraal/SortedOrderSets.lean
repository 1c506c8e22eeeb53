import DxFeedGraal.OrderLaws
import DxFeedGraal.OrderedSet
import DxFeedGraal.PartialRuns
import Mathlib.Algebra.Group.Nat.Even

/-! # Sorted order sets with a cached top

A set of orders under the comparison of its side, with a snapshot of its first orders and
a flag that says whether the snapshot may be out of date. An operation without a result
crashed, moved an iterator past the end or gave `std::set` a comparison that is no strict
weak order on its elements. -/
namespace SortedOrderSets

open OrderSources OrderIndices Orders OrderedSet PartialKeys PartialRuns

structure SortedOrderSet (α : Type*) where
  snapshot : List α := []
  orders : List α := []
  depthLimit : UInt64 := 0
  isChanged : Bool := false
  deriving DecidableEq

/-- The loop of `clearBySource`: after an erasure the iterator stands on the next element and
is then moved once more, past that element or past the end of the set. -/
def clearLoop {α : Type*} (p : α → Option Bool) : List α → Option (List α)
  | [] => some []
  | [o] => (p o).bind fun found => if found then none else some [o]
  | o :: next :: rest => (p o).bind fun found =>
    if found then (clearLoop p rest).map (next :: ·) else (clearLoop p (next :: rest)).map (o :: ·)

section Model

variable {α : Type*} (less : α → α → Option Bool)

/-- A comparison that crashes counts as false here. -/
def Holds (a b : α) : Bool := (less a b).getD false

def Comparable (a b : α) : Bool := (less a b).isSome && (less b a).isSome

/-- What `std::set` asks for when it looks for an element. -/
def Searchable (order : α) (orders : List α) : Prop :=
  (∀ o ∈ orders, Comparable less order o = true) ∧ StrictWeakOn (Holds less) (order :: orders)

instance (order : α) (orders : List α) : Decidable (Searchable less order orders) :=
  inferInstanceAs (Decidable (_ ∧ _))

namespace SortedOrderSet

variable (s : SortedOrderSet α)

/-- Zero and the maximal `size_t` both mean no limit. -/
def isDepthLimitUnbounded : Bool := s.depthLimit == 0 || s.depthLimit == 18446744073709551615

def isOrderCountWithinDepthLimit : Bool := s.orders.length ≤ s.depthLimit.toNat

def isOrderWithinDepthLimit (order : α) : Option Bool :=
  match s.snapshot.getLast? with
  | none => some true
  | some back => (less back order).map (!·)

/-- No set outgrows the maximal `size_t`, so without a limit the loop copies it whole. -/
def updateSnapshot : SortedOrderSet α :=
  { s with
    isChanged := false
    snapshot := if s.isDepthLimitUnbounded then s.orders else s.orders.take s.depthLimit.toNat }

def markAsChangedIfNeeded (order : α) : Option (SortedOrderSet α) :=
  if s.isChanged then some s
  else if s.isDepthLimitUnbounded || s.isOrderCountWithinDepthLimit then
    some { s with isChanged := true }
  else (s.isOrderWithinDepthLimit less order).map fun within =>
    if within then { s with isChanged := true } else s

def setDepthLimit (depthLimit : UInt64) : SortedOrderSet α :=
  if s.depthLimit = depthLimit then s
  else { s with depthLimit := depthLimit, isChanged := true }

def insert (order : α) : Option (SortedOrderSet α × Bool) :=
  if Searchable less order s.orders then
    let inserted := OrderedSet.insert (Holds less) order s.orders
    if inserted.2 then
      (markAsChangedIfNeeded less { s with orders := inserted.1 } order).map fun t => (t, true)
    else some (s, false)
  else none

def erase (order : α) : Option (SortedOrderSet α × Bool) :=
  if Searchable less order s.orders then
    let erased := OrderedSet.erase (Holds less) order s.orders
    if erased.2 > 0 then
      (markAsChangedIfNeeded less { s with orders := erased.1 } order).map fun t => (t, true)
    else some (s, false)
  else none

/-- The flag is assigned, whatever it was. The test has no result where the look at the
source of an order ends the process. -/
def clearBySource (p : α → Option Bool) : Option (SortedOrderSet α) :=
  (clearLoop p s.orders).map fun orders =>
    { s with orders := orders, isChanged := orders.length != s.orders.length }

def toVector : List α × SortedOrderSet α :=
  let t := if s.isChanged then s.updateSnapshot else s
  (t.snapshot, t)

/-- The orders that a listener is entitled to see. -/
def top : List α :=
  if s.isDepthLimitUnbounded then s.orders else s.orders.take s.depthLimit.toNat

/-- Nothing waits to be read, and the snapshot is the top. -/
structure UpToDate : Prop where
  unchanged : s.isChanged = false
  current : s.snapshot = s.top

end SortedOrderSet

/-- The two operations that move one order. -/
inductive Change (α : Type*) where
  | insert (order : α)
  | erase (order : α)

def change (s : SortedOrderSet α) : Change α → Option (SortedOrderSet α × Bool)
  | .insert order => s.insert less order
  | .erase order => s.erase less order

inductive Operation (α : Type*) where
  | change (c : Change α)
  | clearBySource (p : α → Option Bool)
  | setDepthLimit (depthLimit : UInt64)
  | toVector

def step (s : SortedOrderSet α) : Operation α → Option (SortedOrderSet α)
  | .change c => (change less s c).map Prod.fst
  | .clearBySource p => s.clearBySource p
  | .setDepthLimit depthLimit => some (s.setDepthLimit depthLimit)
  | .toVector => some s.toVector.2

end Model

variable {α : Type*} {less : α → α → Option Bool}

theorem holds_iff (a b : α) : Holds less a b = true ↔ less a b = some true := by
  unfold Holds
  cases less a b <;> simp

/-! ## The clearing loop -/

section ClearLoop

variable {p : α → Option Bool}

theorem clearLoop_sublist {p : α → Option Bool} {l l' : List α} (h : clearLoop p l = some l') :
    l'.Sublist l := by
  fun_induction clearLoop p l generalizing l' with
  | case1 => cases h; exact List.Sublist.refl []
  | case2 o =>
    obtain ⟨found, -, h⟩ := Option.bind_eq_some_iff.mp h
    cases found with
    | true => cases h
    | false => cases h; exact List.Sublist.refl [o]
  | case3 o next rest ih₁ ih₂ =>
    obtain ⟨found, -, h⟩ := Option.bind_eq_some_iff.mp h
    cases found with
    | true =>
      obtain ⟨rest', hrest, rfl⟩ := Option.map_eq_some_iff.mp h
      exact ((ih₁ hrest).cons_cons next).cons o
    | false =>
      obtain ⟨rest', hrest, rfl⟩ := Option.map_eq_some_iff.mp h
      exact (ih₂ hrest).cons_cons o

theorem clearLoop_length {l l' : List α} (h : clearLoop p l = some l') :
    l'.length ≤ l.length ∧ (l'.length = l.length ↔ ∀ o ∈ l, p o ≠ some true) := by
  fun_induction clearLoop p l generalizing l' with
  | case1 => cases h; simp
  | case2 o =>
    obtain ⟨found, hfound, h⟩ := Option.bind_eq_some_iff.mp h
    cases found with
    | true => cases h
    | false => cases h; simp [hfound]
  | case3 o next rest ih₁ ih₂ =>
    obtain ⟨found, hfound, h⟩ := Option.bind_eq_some_iff.mp h
    cases found with
    | true =>
      obtain ⟨rest', hrest, rfl⟩ := Option.map_eq_some_iff.mp h
      have hle := (ih₁ hrest).1
      simp only [List.length_cons]
      refine ⟨by omega, iff_of_false (by omega) fun hall => ?_⟩
      exact hall o List.mem_cons_self hfound
    | false =>
      obtain ⟨rest', hrest, rfl⟩ := Option.map_eq_some_iff.mp h
      obtain ⟨hle, hiff⟩ := ih₂ hrest
      simp only [List.length_cons] at hle hiff ⊢
      refine ⟨by omega, ?_⟩
      rw [List.forall_mem_cons, ← hiff, hfound]
      simp

/-- With nothing to erase the loop leaves the list as it was. -/
theorem clearLoop_untouched {l l' : List α} (h : clearLoop p l = some l')
    (hnone : ∀ o ∈ l, p o ≠ some true) : l' = l :=
  (clearLoop_sublist h).eq_of_length ((clearLoop_length h).2.mpr hnone)

/-- The matching elements that stand at the end. -/
def trailing (p : α → Option Bool) (l : List α) : List α :=
  l.reverse.takeWhile fun o => p o == some true

theorem trailing_cons (o : α) (l : List α) :
    trailing p (o :: l) =
      if (trailing p l).length = l.length ∧ p o = some true then trailing p l ++ [o]
      else trailing p l := by
  rw [trailing, trailing, List.reverse_cons, List.takeWhile_append, List.length_reverse]
  by_cases hfull : (l.reverse.takeWhile fun o => p o == some true).length = l.length
  · have hall : (l.reverse.takeWhile fun o => p o == some true) = l.reverse :=
      (List.takeWhile_prefix _).eq_of_length (by simpa using hfull)
    by_cases ho : p o = some true <;> simp [hall, ho]
  · simp [hfull]

theorem trailing_cons_of_ne {o : α} (ho : p o ≠ some true) (l : List α) :
    trailing p (o :: l) = trailing p l := by
  rw [trailing_cons, if_neg fun h => ho h.2]

theorem trailing_length_le (l : List α) : (trailing p l).length ≤ l.length := by
  simpa [trailing] using
    (List.takeWhile_prefix (l := l.reverse) fun o => p o == some true).length_le

theorem even_trailing_cons_cons {o : α} (next : α) (l : List α) (h : p o = some true) :
    Even (trailing p (o :: next :: l)).length ↔ Even (trailing p l).length := by
  have hle := trailing_length_le (p := p) l
  by_cases hl : (trailing p l).length = l.length
  · by_cases hnext : p next = some true
    · simp only [trailing_cons, h, hl, hnext, and_self, if_true, List.length_append,
        List.length_cons, List.length_nil]
      exact Nat.even_add_one.trans (by rw [Nat.even_add_one, not_not])
    · simp [trailing_cons, hl, hnext]
  · have hne : ¬ (trailing p l).length = l.length + 1 := by omega
    simp [trailing_cons, hl, hne]

/-- The loop passes over every element whose source cannot be read, and stays within the set.
Of neighbours that match it erases one and passes over the next. -/
structure ClearsWithin (p : α → Option Bool) (l : List α) : Prop where
  ends : Even (trailing p l).length
  passes : ∀ before o after, l = before ++ o :: after → p o = none →
    Odd (trailing p before).length

theorem clearsWithin_nil : ClearsWithin p [] :=
  ⟨by simp [trailing], fun before o after h => by simp at h⟩

theorem not_clearsWithin_without {o : α} (ho : p o = none) (l : List α) :
    ¬ ClearsWithin p (o :: l) := by
  intro h
  have hodd := h.passes [] o l rfl ho
  simp [trailing] at hodd

theorem clearsWithin_other {o : α} (ho : p o = some false) (l : List α) :
    ClearsWithin p (o :: l) ↔ ClearsWithin p l := by
  have hne : p o ≠ some true := by simp [ho]
  constructor
  · intro h
    refine ⟨trailing_cons_of_ne hne l ▸ h.ends, fun before n after heq hn => ?_⟩
    have hodd := h.passes (o :: before) n after (by rw [heq]; rfl) hn
    rwa [trailing_cons_of_ne hne] at hodd
  · intro h
    refine ⟨(trailing_cons_of_ne hne l).symm ▸ h.ends, fun before n after heq hn => ?_⟩
    cases before with
    | nil =>
      cases heq
      rw [ho] at hn
      cases hn
    | cons first before =>
      obtain ⟨rfl, htail⟩ := List.cons_eq_cons.mp heq
      rw [trailing_cons_of_ne hne]
      exact h.passes before n after htail hn

theorem clearsWithin_match {o : α} (ho : p o = some true) (next : α) (l : List α) :
    ClearsWithin p (o :: next :: l) ↔ ClearsWithin p l := by
  constructor
  · intro h
    refine ⟨(even_trailing_cons_cons next l ho).mp h.ends, fun before n after heq hn => ?_⟩
    have hodd := h.passes (o :: next :: before) n after (by rw [heq]; rfl) hn
    rwa [← Nat.not_even_iff_odd, even_trailing_cons_cons next before ho,
      Nat.not_even_iff_odd] at hodd
  · intro h
    refine ⟨(even_trailing_cons_cons next l ho).mpr h.ends, fun before n after heq hn => ?_⟩
    cases before with
    | nil =>
      cases heq
      rw [ho] at hn
      cases hn
    | cons first before =>
      obtain ⟨rfl, htail⟩ := List.cons_eq_cons.mp heq
      cases before with
      | nil => simp [trailing, ho]
      | cons second before =>
        obtain ⟨rfl, hrest⟩ := List.cons_eq_cons.mp htail
        rw [← Nat.not_even_iff_odd, even_trailing_cons_cons next before ho,
          Nat.not_even_iff_odd]
        exact h.passes before n after hrest hn

/-- The loop has a result exactly when the matching elements at the end are even in number,
and odd in number before an element whose source cannot be read. -/
theorem clearLoop_defined_iff (l : List α) :
    (clearLoop p l).isSome = true ↔ ClearsWithin p l := by
  fun_induction clearLoop p l with
  | case1 => exact iff_of_true rfl clearsWithin_nil
  | case2 o =>
    cases ho : p o with
    | none => simp [not_clearsWithin_without ho]
    | some found =>
      cases found with
      | false => simp [clearsWithin_other ho, clearsWithin_nil]
      | true =>
        refine iff_of_false (by simp) fun h => ?_
        have heven := h.ends
        simp [trailing, ho] at heven
  | case3 o next rest ih₁ ih₂ =>
    cases ho : p o with
    | none => simp [not_clearsWithin_without ho]
    | some found =>
      cases found with
      | false => rw [clearsWithin_other ho, ← ih₂]; simp
      | true => rw [clearsWithin_match ho, ← ih₁]; simp

end ClearLoop

/-! ## Insertions and removals -/

/-- Only the flag can change. -/
theorem markAsChanged_keeps {s t : SortedOrderSet α} {order : α}
    (h : s.markAsChangedIfNeeded less order = some t) :
    t.orders = s.orders ∧ t.depthLimit = s.depthLimit ∧ t.snapshot = s.snapshot := by
  unfold SortedOrderSet.markAsChangedIfNeeded at h
  split at h
  next => cases h; exact ⟨rfl, rfl, rfl⟩
  next =>
    split at h
    next => cases h; exact ⟨rfl, rfl, rfl⟩
    next =>
      obtain ⟨within, -, rfl⟩ := Option.map_eq_some_iff.mp h
      cases within <;> exact ⟨rfl, rfl, rfl⟩

/-- The flag stays down only for an order behind the end of a full snapshot. -/
theorem markAsChanged_down {s t : SortedOrderSet α} {order : α}
    (h : s.markAsChangedIfNeeded less order = some t) (hdown : t.isChanged = false) :
    s.isChanged = false ∧ s.isDepthLimitUnbounded = false ∧
      s.depthLimit.toNat < s.orders.length ∧
      ∃ last, s.snapshot.getLast? = some last ∧ Holds less last order = true := by
  unfold SortedOrderSet.markAsChangedIfNeeded at h
  split at h
  next hchanged =>
    cases h
    rw [hchanged] at hdown
    cases hdown
  next hchanged =>
    split at h
    next =>
      cases h
      cases hdown
    next hbound =>
      simp only [Bool.or_eq_true, not_or, Bool.not_eq_true] at hbound
      have hcount : s.depthLimit.toNat < s.orders.length := by
        simpa [SortedOrderSet.isOrderCountWithinDepthLimit] using hbound.2
      refine ⟨by simpa using hchanged, hbound.1, hcount, ?_⟩
      obtain ⟨within, hwithin, rfl⟩ := Option.map_eq_some_iff.mp h
      unfold SortedOrderSet.isOrderWithinDepthLimit at hwithin
      cases hlast : s.snapshot.getLast? with
      | none =>
        rw [hlast] at hwithin
        cases hwithin
        cases hdown
      | some last =>
        rw [hlast] at hwithin
        obtain ⟨less_last, hless, rfl⟩ := Option.map_eq_some_iff.mp hwithin
        cases less_last with
        | true => exact ⟨last, rfl, by simp [Holds, hless]⟩
        | false => cases hdown

/-- What an insertion or a removal asks of the order: that the tree can be searched for it and
that it compares with the end of the snapshot. -/
def Accepts (less : α → α → Option Bool) (s : SortedOrderSet α) (order : α) : Prop :=
  Searchable less order s.orders ∧
    (s.isChanged = false → ∀ back ∈ s.snapshot.getLast?, Comparable less order back = true)

theorem markAsChanged_defined {s : SortedOrderSet α} {order : α}
    (h : s.isChanged = false → ∀ back ∈ s.snapshot.getLast?, Comparable less order back = true) :
    ∃ t, s.markAsChangedIfNeeded less order = some t := by
  unfold SortedOrderSet.markAsChangedIfNeeded
  split
  next => exact ⟨_, rfl⟩
  next hchanged =>
    split
    next => exact ⟨_, rfl⟩
    next =>
      unfold SortedOrderSet.isOrderWithinDepthLimit
      cases hlast : s.snapshot.getLast? with
      | none => exact ⟨_, rfl⟩
      | some back =>
        have hcomparable := h (by simpa using hchanged) back hlast
        rw [Comparable, Bool.and_eq_true] at hcomparable
        obtain ⟨less_last, hless⟩ := Option.isSome_iff_exists.mp hcomparable.2
        exact ⟨_, by simp only [hless]; rfl⟩

theorem top_of_limited {s : SortedOrderSet α} (h : s.isDepthLimitUnbounded = false) :
    s.top = s.orders.take s.depthLimit.toNat ∧ 0 < s.depthLimit.toNat := by
  refine ⟨by simp [SortedOrderSet.top, h], Nat.pos_of_ne_zero fun hzero => ?_⟩
  have : s.depthLimit = 0 := UInt64.toNat_inj.mp hzero
  simp [SortedOrderSet.isDepthLimitUnbounded, this] at h

theorem setDepthLimit_keeps (s : SortedOrderSet α) (depthLimit : UInt64) :
    (s.setDepthLimit depthLimit).orders = s.orders ∧
      (s.setDepthLimit depthLimit).snapshot = s.snapshot ∧
      (s.setDepthLimit depthLimit).depthLimit = depthLimit := by
  unfold SortedOrderSet.setDepthLimit
  split
  next hsame => exact ⟨rfl, rfl, hsame⟩
  next => exact ⟨rfl, rfl, rfl⟩

/-- What an insertion does: nothing, or it puts the order in and looks at the flag. -/
theorem insert_cases {s : SortedOrderSet α} {order : α} {r : SortedOrderSet α × Bool}
    (h : s.insert less order = some r) :
    Searchable less order s.orders ∧
      ((OrderedSet.insert (Holds less) order s.orders).2 = false ∧ r.1 = s ∨
        (OrderedSet.insert (Holds less) order s.orders).2 = true ∧
        SortedOrderSet.markAsChangedIfNeeded less
          { s with orders := (OrderedSet.insert (Holds less) order s.orders).1 } order =
            some r.1) := by
  unfold SortedOrderSet.insert at h
  split at h
  next hsearch =>
    refine ⟨hsearch, ?_⟩
    simp only at h
    split at h
    next hadded =>
      obtain ⟨t, ht, rfl⟩ := Option.map_eq_some_iff.mp h
      exact Or.inr ⟨hadded, ht⟩
    next hadded =>
      cases h
      exact Or.inl ⟨by simpa using hadded, rfl⟩
  next => cases h

theorem erase_cases {s : SortedOrderSet α} {order : α} {r : SortedOrderSet α × Bool}
    (h : s.erase less order = some r) :
    Searchable less order s.orders ∧
      ((OrderedSet.erase (Holds less) order s.orders).2 = 0 ∧ r.1 = s ∨
        0 < (OrderedSet.erase (Holds less) order s.orders).2 ∧
        SortedOrderSet.markAsChangedIfNeeded less
          { s with orders := (OrderedSet.erase (Holds less) order s.orders).1 } order =
            some r.1) := by
  unfold SortedOrderSet.erase at h
  split at h
  next hsearch =>
    refine ⟨hsearch, ?_⟩
    simp only at h
    split at h
    next hremoved =>
      obtain ⟨t, ht, rfl⟩ := Option.map_eq_some_iff.mp h
      exact Or.inr ⟨hremoved, ht⟩
    next hremoved =>
      cases h
      exact Or.inl ⟨Nat.eq_zero_of_not_pos hremoved, rfl⟩
  next => cases h

/-- The set after its orders were replaced: where the flag is down, nothing changed in the
cached top, which is full and ends before the order in question. -/
structure ChangedTo (less : α → α → Option Bool) (s t : SortedOrderSet α) (order : α)
    (orders : List α) : Prop where
  orders_eq : t.orders = orders
  depthLimit_eq : t.depthLimit = s.depthLimit
  snapshot_eq : t.snapshot = s.snapshot
  unflagged : t.isChanged = false → s.isChanged = false ∧
    (orders = s.orders ∨ s.isDepthLimitUnbounded = false ∧
      s.depthLimit.toNat < orders.length ∧
      ∃ last, s.snapshot.getLast? = some last ∧ Holds less last order = true)

theorem changedTo_self (less : α → α → Option Bool) (s : SortedOrderSet α) (order : α) :
    ChangedTo less s s order s.orders :=
  ⟨rfl, rfl, rfl, fun h => ⟨h, Or.inl rfl⟩⟩

theorem changedTo_of_mark {s t : SortedOrderSet α} {order : α} {orders : List α}
    (h : SortedOrderSet.markAsChangedIfNeeded less { s with orders := orders } order = some t) :
    ChangedTo less s t order orders := by
  obtain ⟨horders, hlimit, hsnapshot⟩ := markAsChanged_keeps h
  refine ⟨horders, hlimit, hsnapshot, fun hdown => ?_⟩
  obtain ⟨hflag, hbounded, hcount, hlast⟩ := markAsChanged_down h hdown
  exact ⟨hflag, Or.inr ⟨hbounded, hcount, hlast⟩⟩

/-- An insertion changes the orders as a set does. -/
theorem insert_changedTo {s : SortedOrderSet α} {order : α} {r : SortedOrderSet α × Bool}
    (h : s.insert less order = some r) :
    ChangedTo less s r.1 order (OrderedSet.insert (Holds less) order s.orders).1 := by
  obtain ⟨-, ⟨hnot, hsame⟩ | ⟨-, hmark⟩⟩ := insert_cases h
  · rw [hsame, insert_not_added hnot]
    exact changedTo_self less s order
  · exact changedTo_of_mark hmark

theorem erase_changedTo {s : SortedOrderSet α} {order : α} {r : SortedOrderSet α × Bool}
    (h : s.erase less order = some r) :
    ChangedTo less s r.1 order (OrderedSet.erase (Holds less) order s.orders).1 := by
  obtain ⟨-, ⟨hnone, hsame⟩ | ⟨-, hmark⟩⟩ := erase_cases h
  · rw [hsame, erase_not_removed hnone]
    exact changedTo_self less s order
  · exact changedTo_of_mark hmark

theorem insert_defined {s : SortedOrderSet α} {order : α} (h : Accepts less s order) :
    ∃ r, s.insert less order = some r := by
  unfold SortedOrderSet.insert
  rw [if_pos h.1]
  dsimp only
  split
  next =>
    obtain ⟨t, ht⟩ := markAsChanged_defined
      (s := { s with orders := (OrderedSet.insert (Holds less) order s.orders).1 }) h.2
    exact ⟨(t, true), by rw [ht]; rfl⟩
  next => exact ⟨_, rfl⟩

theorem erase_defined {s : SortedOrderSet α} {order : α} (h : Accepts less s order) :
    ∃ r, s.erase less order = some r := by
  unfold SortedOrderSet.erase
  rw [if_pos h.1]
  dsimp only
  split
  next =>
    obtain ⟨t, ht⟩ := markAsChanged_defined
      (s := { s with orders := (OrderedSet.erase (Holds less) order s.orders).1 }) h.2
    exact ⟨(t, true), by rw [ht]; rfl⟩
  next => exact ⟨_, rfl⟩

theorem clearBySource_eq {s t : SortedOrderSet α} {p : α → Option Bool}
    (h : s.clearBySource p = some t) :
    clearLoop p s.orders = some t.orders ∧ t.snapshot = s.snapshot ∧
      t.depthLimit = s.depthLimit ∧
      (t.isChanged = false ↔ ∀ o ∈ s.orders, p o ≠ some true) := by
  obtain ⟨orders, horders, rfl⟩ := Option.map_eq_some_iff.mp h
  refine ⟨horders, rfl, rfl, ?_⟩
  rw [← (clearLoop_length horders).2, bne_eq_false_iff_eq]

/-- The orders stay sorted under every operation. -/
theorem step_sorted {s t : SortedOrderSet α} {op : Operation α}
    (hs : Sorted (Holds less) s.orders) (h : step less s op = some t) :
    Sorted (Holds less) t.orders := by
  cases op with
  | change c =>
    obtain ⟨r, hr, rfl⟩ := Option.map_eq_some_iff.mp h
    cases c with
    | insert order =>
      obtain ⟨hsearch, ⟨-, hsame⟩ | ⟨-, hmark⟩⟩ := insert_cases hr
      · rw [hsame]
        exact hs
      · rw [(markAsChanged_keeps hmark).1]
        exact hs.insert_on hsearch.2
    | erase order =>
      obtain ⟨-, ⟨-, hsame⟩ | ⟨-, hmark⟩⟩ := erase_cases hr
      · rw [hsame]
        exact hs
      · rw [(markAsChanged_keeps hmark).1]
        exact hs.erase
  | clearBySource p =>
    obtain ⟨orders, horders, rfl⟩ := Option.map_eq_some_iff.mp h
    exact hs.sublist (clearLoop_sublist horders)
  | setDepthLimit depthLimit =>
    cases h
    rw [(setDepthLimit_keeps s depthLimit).1]
    exact hs
  | toVector =>
    cases h
    unfold SortedOrderSet.toVector
    split <;> exact hs

theorem sorted_of_run {ops : List (Operation α)} {s : SortedOrderSet α}
    (h : run (step less) {} ops = some s) : Sorted (Holds less) s.orders := by
  have hempty : Sorted (Holds less) ({} : SortedOrderSet α).orders := List.Pairwise.nil
  exact run_invariant (fun _ _ _ hs hstep => step_sorted hs hstep) hempty h

/-! ## The cached top -/

/-- The next reading returns the top of the set. -/
def TopServed (s : SortedOrderSet α) : Prop := s.toVector.1 = s.top

instance [DecidableEq α] (s : SortedOrderSet α) : Decidable (TopServed s) :=
  inferInstanceAs (Decidable (_ = _))

theorem topServed_iff (s : SortedOrderSet α) :
    TopServed s ↔ (s.isChanged = false → s.snapshot = s.top) := by
  cases h : s.isChanged with
  | false => simp [TopServed, SortedOrderSet.toVector, h]
  | true =>
    simp only [TopServed, SortedOrderSet.toVector, h, if_true, Bool.true_eq_false,
      false_imp_iff, iff_true]
    rfl

/-- What holds of a set whose flag has never been lost. -/
structure Consistent (less : α → α → Option Bool) (s : SortedOrderSet α) : Prop where
  sorted : Sorted (Holds less) s.orders
  cached : s.isChanged = false → s.snapshot = s.top

theorem consistent_fresh (less : α → α → Option Bool) :
    Consistent less ({} : SortedOrderSet α) :=
  ⟨List.Pairwise.nil, fun _ => rfl⟩

theorem Consistent.changedTo {s t : SortedOrderSet α} {order : α} {orders : List α}
    (hs : Consistent less s) (hc : ChangedTo less s t order orders)
    (hsorted : Sorted (Holds less) orders)
    (htake : ∀ last, s.depthLimit.toNat < orders.length →
      (s.orders.take s.depthLimit.toNat).getLast? = some last → Holds less last order = true →
      orders.take s.depthLimit.toNat = s.orders.take s.depthLimit.toNat) :
    Consistent less t := by
  refine ⟨hc.orders_eq ▸ hsorted, fun hdown => ?_⟩
  obtain ⟨hflag, hcases⟩ := hc.unflagged hdown
  have hcached := hs.cached hflag
  have hbound : t.isDepthLimitUnbounded = s.isDepthLimitUnbounded := by
    simp only [SortedOrderSet.isDepthLimitUnbounded, hc.depthLimit_eq]
  rw [hc.snapshot_eq, hcached, SortedOrderSet.top, SortedOrderSet.top, hbound, hc.depthLimit_eq,
    hc.orders_eq]
  rcases hcases with hsame | ⟨hbounded, hcount, last, hlast, hless⟩
  · rw [hsame]
  · rw [hcached] at hlast
    simp only [SortedOrderSet.top, hbounded, Bool.false_eq_true, if_false] at hlast ⊢
    exact (htake last hcount hlast hless).symm

theorem Consistent.insert {s : SortedOrderSet α} {order : α} {r : SortedOrderSet α × Bool}
    (hs : Consistent less s) (h : s.insert less order = some r) : Consistent less r.1 := by
  have hweak := (insert_cases h).1.2
  refine hs.changedTo (insert_changedTo h) (hs.sorted.insert_on hweak)
    fun last hcount hlast hless => ?_
  cases hadded : (OrderedSet.insert (Holds less) order s.orders).2 with
  | false => rw [insert_not_added hadded]
  | true =>
    rw [length_insert hadded] at hcount
    exact (take_insert_on_iff hweak hs.sorted (by omega) hlast hadded).mpr hless

theorem Consistent.erase {s : SortedOrderSet α} {order : α} {r : SortedOrderSet α × Bool}
    (hs : Consistent less s) (h : s.erase less order = some r) : Consistent less r.1 := by
  have hweak := (erase_cases h).1.2
  refine hs.changedTo (erase_changedTo h) hs.sorted.erase fun last hcount hlast hless => ?_
  cases hremoved : (OrderedSet.erase (Holds less) order s.orders).2 with
  | zero => rw [erase_not_removed hremoved]
  | succ n =>
    have hle : (OrderedSet.erase (Holds less) order s.orders).1.length ≤ s.orders.length :=
      (erase_sublist order s.orders).length_le
    exact (take_erase_on_iff hweak hs.sorted (by omega) hlast (by omega)).mpr hless

/-- In a consistent set only the orders themselves are ever compared. -/
theorem Consistent.accepts {s : SortedOrderSet α} {order : α} (hs : Consistent less s)
    (h : Searchable less order s.orders) : Accepts less s order := by
  refine ⟨h, fun hflag back hback => h.1 back ?_⟩
  have hmem := List.mem_of_getLast? hback
  rw [hs.cached hflag, SortedOrderSet.top] at hmem
  split at hmem
  next => exact hmem
  next => exact List.mem_of_mem_take hmem

theorem consistent_toVector {s : SortedOrderSet α} (hs : Consistent less s) :
    Consistent less s.toVector.2 := by
  unfold SortedOrderSet.toVector
  split
  next => exact ⟨hs.sorted, fun _ => rfl⟩
  next => exact hs

theorem consistent_setDepthLimit {s : SortedOrderSet α} (hs : Consistent less s)
    (depthLimit : UInt64) : Consistent less (s.setDepthLimit depthLimit) := by
  unfold SortedOrderSet.setDepthLimit
  split
  next => exact hs
  next => exact ⟨hs.sorted, fun h => by cases h⟩

/-! ## Runs of a set -/

/-- The condition on the next operation: the comparison suits the tree that is searched; a
clearing loop stays within the set, looks at no source that cannot be read and does not take
down a flag that is needed. -/
def KeepsTop (less : α → α → Option Bool) (s : SortedOrderSet α) : Operation α → Prop
  | .change (.insert order) | .change (.erase order) => Searchable less order s.orders
  | .clearBySource p =>
    ClearsWithin p s.orders ∧
      (s.isChanged = true → (∃ o ∈ s.orders, p o = some true) ∨ s.snapshot = s.top)
  | .setDepthLimit _ | .toVector => True

/-- A clearing keeps the set consistent exactly under its condition. -/
theorem consistent_clearBySource_iff {s : SortedOrderSet α} (hs : Consistent less s)
    (p : α → Option Bool) :
    (∃ t, s.clearBySource p = some t ∧ Consistent less t) ↔
      KeepsTop less s (.clearBySource p) := by
  -- With nothing to erase, the flag goes down over an unchanged snapshot.
  have huntouched : ∀ t, s.clearBySource p = some t → (∀ o ∈ s.orders, p o ≠ some true) →
      t.top = s.top := by
    intro t ht hnone
    obtain ⟨horders, -, hlimit, -⟩ := clearBySource_eq ht
    rw [SortedOrderSet.top, SortedOrderSet.top, SortedOrderSet.isDepthLimitUnbounded,
      SortedOrderSet.isDepthLimitUnbounded, hlimit, clearLoop_untouched horders hnone]
  constructor
  · rintro ⟨t, ht, hcons⟩
    obtain ⟨horders, hsnapshot, -, hflag⟩ := clearBySource_eq ht
    refine ⟨(clearLoop_defined_iff s.orders).mp (by rw [horders]; rfl), fun _ => ?_⟩
    by_cases hnone : ∀ o ∈ s.orders, p o ≠ some true
    · right
      rw [← hsnapshot, hcons.cached (hflag.mpr hnone), huntouched t ht hnone]
    · left
      simpa using hnone
  · rintro ⟨hwithin, hkeeps⟩
    obtain ⟨orders, horders⟩ :=
      Option.isSome_iff_exists.mp ((clearLoop_defined_iff s.orders).mpr hwithin)
    obtain ⟨t, ht⟩ : ∃ t, s.clearBySource p = some t :=
      ⟨_, by rw [SortedOrderSet.clearBySource, horders]; rfl⟩
    obtain ⟨horders', hsnapshot, -, hflag⟩ := clearBySource_eq ht
    refine ⟨t, ht, hs.sorted.sublist (clearLoop_sublist horders'), fun hdown => ?_⟩
    have hnone := hflag.mp hdown
    rw [hsnapshot, huntouched t ht hnone]
    cases hchanged : s.isChanged with
    | false => exact hs.cached hchanged
    | true =>
      rcases hkeeps hchanged with ⟨o, ho, hmatch⟩ | hsame
      · exact absurd hmatch (hnone o ho)
      · exact hsame

theorem step_consistent {s : SortedOrderSet α} {op : Operation α} (hs : Consistent less s)
    (h : KeepsTop less s op) : ∃ t, step less s op = some t ∧ Consistent less t := by
  cases op with
  | change c =>
    cases c with
    | insert order =>
      obtain ⟨r, hr⟩ := insert_defined (hs.accepts h)
      exact ⟨r.1, by rw [step, change, hr]; rfl, hs.insert hr⟩
    | erase order =>
      obtain ⟨r, hr⟩ := erase_defined (hs.accepts h)
      exact ⟨r.1, by rw [step, change, hr]; rfl, hs.erase hr⟩
  | clearBySource p => exact (consistent_clearBySource_iff hs p).mpr h
  | setDepthLimit depthLimit => exact ⟨_, rfl, consistent_setDepthLimit hs depthLimit⟩
  | toVector => exact ⟨_, rfl, consistent_toVector hs⟩

theorem keepsTop_of_step {s t : SortedOrderSet α} {op : Operation α} (hs : Consistent less s)
    (h : step less s op = some t) (ht : Consistent less t) : KeepsTop less s op := by
  cases op with
  | change c =>
    obtain ⟨r, hr, -⟩ := Option.map_eq_some_iff.mp h
    cases c with
    | insert order => exact (insert_cases hr).1
    | erase order => exact (erase_cases hr).1
  | clearBySource p => exact (consistent_clearBySource_iff hs p).mp ⟨t, h, ht⟩
  | setDepthLimit depthLimit => trivial
  | toVector => trivial

/-- The top is served along a run exactly when every operation meets its condition. -/
theorem always_topServed_iff (less : α → α → Option Bool) (ops : List (Operation α)) :
    Always (step less) TopServed {} ops ↔ Meets (step less) (KeepsTop less) {} ops := by
  constructor
  · intro h
    have hsorted : Always (step less) (fun s => Sorted (Holds less) s.orders ∧ TopServed s) {}
        ops := h.and_invariant (fun s t op hs hstep => step_sorted hs hstep) List.Pairwise.nil
    have hcons : Always (step less) (Consistent less) {} ops :=
      hsorted.imp fun s hs => ⟨hs.1, (topServed_iff s).mp hs.2⟩
    refine meets_of_always (fun s t op hs hstep ht => ?_) hcons
    exact keepsTop_of_step hs hstep ht
  · intro h
    have hcons : Always (step less) (Consistent less) {} ops :=
      always_of_meets (fun s op hs hop => step_consistent hs hop) (consistent_fresh less) h
    exact hcons.imp fun s hs => (topServed_iff s).mpr hs.cached

/-! ## The sets of a book -/

variable {O : OrderKind}

def bookLess : BookSide → FeedOrder O → FeedOrder O → Option Bool
  | .buy => OrderLaws.BuyLess
  | .sell => OrderLaws.SellLess

/-- Sources are equal when their identifiers are. -/
def fromSource (users : UserSources) (source : Int32) (o : FeedOrder O) : Option Bool :=
  (OrderIndices.getSource users o.data).map fun found => found.1.id == source

/-- Whether an order is of the source; it has none where the look at it ends the process. -/
def IsFrom (source : Int32) (o : FeedOrder O) : Bool := fromSource [] source o == some true

theorem holds_bookLess_irrefl (side : BookSide) (o : FeedOrder O) :
    Holds (bookLess side) o o = false := by
  rw [← Bool.not_eq_true, holds_iff]
  cases side with
  | buy => exact fun h => precedes_irrefl o ((OrderLaws.buyLess_iff o o).mp h)
  | sell => exact fun h => precedes_irrefl o ((OrderLaws.sellLess_iff o o).mp h)

/-- Orders that share a place in a set have no different prices: the chain decides. -/
theorem orderComparator_of_equivalent {side : BookSide} {o₁ o₂ : FeedOrder O}
    (h : Equivalent (Holds (bookLess side)) o₁ o₂) :
    bookLess side o₁ o₂ = (FeedOrder.OrderComparator o₁ o₂).map fun c => decide (c < 0) := by
  cases h₁ : o₁.getPrice.less o₂.getPrice with
  | true =>
    have hnot := less_asymm_double h₁
    cases side with
    | buy =>
      have h₂ := h.2
      simp [Holds, bookLess, OrderLaws.BuyLess, FeedOrder.BuyComparator, h₁, hnot] at h₂
    | sell =>
      have h₂ := h.1
      simp [Holds, bookLess, OrderLaws.SellLess, FeedOrder.SellComparator, h₁] at h₂
  | false =>
    cases hnot : o₂.getPrice.less o₁.getPrice with
    | true =>
      cases side with
      | buy =>
        have h₂ := h.1
        simp [Holds, bookLess, OrderLaws.BuyLess, FeedOrder.BuyComparator, h₁, hnot] at h₂
      | sell =>
        have h₂ := h.2
        simp [Holds, bookLess, OrderLaws.SellLess, FeedOrder.SellComparator, hnot] at h₂
    | false =>
      cases side with
      | buy => simp [bookLess, OrderLaws.BuyLess, FeedOrder.BuyComparator, h₁, hnot]
      | sell => simp [bookLess, OrderLaws.SellLess, FeedOrder.SellComparator, h₁, hnot]

/-- Comparable orders share a place only when they share their index. -/
theorem index_eq_of_equivalent {side : BookSide} {o₁ o₂ : FeedOrder O}
    (hc : Comparable (bookLess side) o₁ o₂ = true)
    (h : Equivalent (Holds (bookLess side)) o₁ o₂) : o₁.getIndex = o₂.getIndex := by
  have hchain := orderComparator_of_equivalent h
  have hchain' := orderComparator_of_equivalent h.symm
  rw [Comparable, hchain, hchain', Bool.and_eq_true, Option.isSome_map, Option.isSome_map] at hc
  apply FeedOrder.index_eq_of_orderKey
  · by_contra hkey
    rcases lt_or_gt_of_ne hkey with hlt | hlt
    · have hless := h.1
      rw [Holds, hchain, (OrderLaws.orderComparator_neg_iff o₁ o₂).mpr hlt] at hless
      cases hless
    · have hless := h.2
      rw [Holds, hchain', (OrderLaws.orderComparator_neg_iff o₂ o₁).mpr hlt] at hless
      cases hless
  · intro hties
    rw [(FeedOrder.agrees_orderComparator o₁ o₂).2.mpr hties] at hc
    cases hc.1

/-- On orders with a price the comparisons follow keys. -/
theorem strictWeakOn_of_priced (side : BookSide) {orders : List (FeedOrder O)}
    (h : ∀ o ∈ orders, o.getPrice ≠ .nan) : StrictWeakOn (Holds (bookLess side)) orders := by
  cases side with
  | buy =>
    have hkeys : FollowsOn (Holds (bookLess .buy)) FeedOrder.buyKey orders := by
      intro o₁ h₁ o₂ h₂
      have hagrees := FeedOrder.agrees_buyComparator (h o₁ h₁) (h o₂ h₂)
      rw [holds_iff]
      exact OrderLaws.map_neg_iff hagrees.1 hagrees.2
    exact hkeys.strictWeakOn
  | sell =>
    have hkeys : FollowsOn (Holds (bookLess .sell)) FeedOrder.sellKey orders := by
      intro o₁ h₁ o₂ h₂
      have hagrees := FeedOrder.agrees_sellComparator (h o₁ h₁) (h o₂ h₂)
      rw [holds_iff]
      exact OrderLaws.map_neg_iff hagrees.1 hagrees.2
    exact hkeys.strictWeakOn

theorem comparable_of_ne_spread (hO : O ≠ .spreadOrder) (side : BookSide)
    (o₁ o₂ : FeedOrder O) : Comparable (bookLess side) o₁ o₂ = true := by
  have hsome : ∀ a b : FeedOrder O, (bookLess side a b).isSome = true := by
    intro a b
    rw [Option.isSome_iff_ne_none]
    intro hnone
    apply hO
    cases side with
    | buy => exact (OrderLaws.less_none (Or.inl hnone)).1
    | sell => exact (OrderLaws.less_none (Or.inr hnone)).1
  rw [Comparable, hsome, hsome]
  rfl

/-- Orders with a price and a market maker can always be searched for one another. -/
theorem searchable_of_priced (hO : O ≠ .spreadOrder) (side : BookSide) {order : FeedOrder O}
    {orders : List (FeedOrder O)} (h : ∀ o ∈ order :: orders, o.getPrice ≠ .nan) :
    Searchable (bookLess side) order orders :=
  ⟨fun o _ => comparable_of_ne_spread hO side order o, strictWeakOn_of_priced side h⟩

/-- Along a run the next reading always returns the top of the set exactly when every
operation meets its condition. -/
theorem top_served_iff (O : OrderKind) (side : BookSide)
    (ops : List (Operation (FeedOrder O))) :
    Always (step (bookLess side)) TopServed {} ops ↔
      Meets (step (bookLess side)) (KeepsTop (bookLess side)) {} ops :=
  always_topServed_iff (bookLess side) ops

/-- Clearing a source without orders takes the flag down before the first reading. -/
theorem top_not_served_after_clearing :
    ¬ Always (step (bookLess .buy)) TopServed {}
      [.change (.insert (OrderLaws.sampleOrder 1 1 (.finite 100))),
        .clearBySource (fromSource [] NTV.id)] := by
  rintro ⟨-, s, hs, -, t, ht, hserved⟩
  cases hs
  cases ht
  change TopServed _ at hserved
  revert hserved
  decide

end SortedOrderSets
