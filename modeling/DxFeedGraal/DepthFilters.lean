import DxFeedGraal.SortedOrderSets

/-! # Notifications filtered by the depth limit

What an insertion into a set under a positive limit, or a removal from it, does to the flag
when the snapshot is up to date. -/
namespace DepthFilters

open Orders OrderedSet PartialRuns SortedOrderSets

variable {α : Type*} {less : α → α → Option Bool}

/-- The flag tells whether the top is another one. -/
def Filtered (s t : SortedOrderSet α) : Prop := t.isChanged = false ↔ t.top = s.top

/-- The change removes the only order that the limit hides. -/
def RemovesOnlyHidden (less : α → α → Option Bool) (s : SortedOrderSet α) : Change α → Prop
  | .insert _ => False
  | .erase order => s.orders.length = s.depthLimit.toNat + 1 ∧
      ∃ last, s.orders.getLast? = some last ∧ Equivalent (Holds less) order last

/-! ## The flag after a change -/

/-- The flag stays down only behind a full snapshot. -/
theorem markAsChanged_down_iff {s t : SortedOrderSet α} {order : α}
    (hdown : s.isChanged = false) (hlimited : s.isDepthLimitUnbounded = false)
    (h : s.markAsChangedIfNeeded less order = some t) :
    t.isChanged = false ↔ s.depthLimit.toNat < s.orders.length ∧
      ∃ last, s.snapshot.getLast? = some last ∧ Holds less last order = true := by
  constructor
  · intro ht
    exact (markAsChanged_down h ht).2.2
  · rintro ⟨hcount, last, hlast, hless⟩
    have hresult := (holds_iff last order).mp hless
    have hcount' : s.isOrderCountWithinDepthLimit = false := by
      simpa [SortedOrderSet.isOrderCountWithinDepthLimit] using hcount
    simp only [SortedOrderSet.markAsChangedIfNeeded, hdown, hlimited, hcount',
      SortedOrderSet.isOrderWithinDepthLimit, hlast, hresult, Bool.false_eq_true, if_false,
      Bool.or_self, Option.map_some, Bool.not_true, Option.some.injEq] at h
    rw [← h]
    exact hdown

theorem exists_last {l : List α} {n : ℕ} (hn : 0 < n) (hfull : n ≤ l.length) :
    ∃ last, (l.take n).getLast? = some last := by
  have hne : l.take n ≠ [] := by
    intro hnil
    have := congrArg List.length hnil
    rw [List.length_take, List.length_nil] at this
    omega
  exact ⟨_, List.getLast?_eq_some_getLast hne⟩

section Changes

variable {s : SortedOrderSet α} (hs : Sorted (Holds less) s.orders) (hup : s.UpToDate)
  (hlimited : s.isDepthLimitUnbounded = false)

include hup in
theorem filtered_self : Filtered s s := by
  simp [Filtered, hup.unchanged]

include hup hlimited in
/-- The flag and the top after the orders were replaced. -/
theorem replaced_spec {t : SortedOrderSet α} {order : α} {orders : List α}
    (h : SortedOrderSet.markAsChangedIfNeeded less { s with orders := orders } order = some t) :
    (t.isChanged = false ↔ s.depthLimit.toNat < orders.length ∧
      ∃ last, (s.orders.take s.depthLimit.toNat).getLast? = some last ∧
        Holds less last order = true) ∧
      (t.top = s.top ↔ orders.take s.depthLimit.toNat = s.orders.take s.depthLimit.toNat) := by
  obtain ⟨horders, hlimit, -⟩ := markAsChanged_keeps h
  have hflag := @markAsChanged_down_iff α less { s with orders := orders } t order
    hup.unchanged hlimited h
  simp only [hup.current, (top_of_limited hlimited).1] at hflag
  refine ⟨hflag, ?_⟩
  have hlimited' : t.isDepthLimitUnbounded = false := by
    unfold SortedOrderSet.isDepthLimitUnbounded
    rw [hlimit]
    exact hlimited
  rw [(top_of_limited hlimited').1, (top_of_limited hlimited).1, horders, hlimit]

include hs hup hlimited in
/-- Insertions are filtered as they should be. -/
theorem insert_filtered {order : α} {r : SortedOrderSet α × Bool}
    (h : s.insert less order = some r) : Filtered s r.1 := by
  obtain ⟨hsearch, ⟨-, hsame⟩ | ⟨hadded, hmark⟩⟩ := insert_cases h
  · rw [hsame]
    exact filtered_self hup
  · obtain ⟨hflag, htop⟩ := replaced_spec hup hlimited hmark
    have hlength := length_insert hadded
    rw [Filtered, hflag, htop, hlength]
    by_cases hfull : s.depthLimit.toNat ≤ s.orders.length
    · obtain ⟨last, hlast⟩ := exists_last (top_of_limited hlimited).2 hfull
      rw [take_insert_on_iff hsearch.2 hs hfull hlast hadded, hlast]
      simp only [Option.some.injEq, exists_eq_left']
      exact ⟨fun hdown => hdown.2, fun hless => ⟨by omega, hless⟩⟩
    · -- The set has not reached the limit, so the new order is one more in its top.
      refine iff_of_false (fun hdown => by omega) fun htake => ?_
      have := congrArg List.length htake
      rw [List.length_take, List.length_take, hlength] at this
      omega

theorem split_last {l : List α} {last : α} {n : ℕ} (hs : Sorted (Holds less) l)
    (hlength : l.length = n + 1) (hlast : l.getLast? = some last) :
    ∀ o ∈ l.take n, Holds less o last = true := by
  obtain ⟨pre, rfl⟩ := List.getLast?_eq_some_iff.mp hlast
  have hpre : pre.length = n := by simpa using hlength
  rw [List.take_left' hpre]
  exact fun o ho => (List.pairwise_append.mp hs).2.2 o ho last List.mem_cons_self

include hs hlimited in
/-- A removal from a set with one hidden order leaves its top alone exactly when it removes
that order. -/
theorem erase_hidden_iff {order last : α} (hsearch : Searchable less order s.orders)
    (hlength : s.orders.length = s.depthLimit.toNat + 1) (hlast : s.orders.getLast? = some last)
    (hremoved : 0 < (OrderedSet.erase (Holds less) order s.orders).2) :
    (OrderedSet.erase (Holds less) order s.orders).1.take s.depthLimit.toNat =
      s.orders.take s.depthLimit.toNat ↔ Equivalent (Holds less) order last := by
  have hin : last ∈ s.orders := List.mem_of_getLast? hlast
  have hbefore := split_last hs hlength hlast
  constructor
  · intro htake
    by_contra hne
    have hkept := (mem_erase_on hsearch.2 hs).mpr ⟨hin, hne⟩
    have hall := length_erase hremoved
    rw [List.take_of_length_le (by omega)] at htake
    rw [htake] at hkept
    have hself := hbefore last hkept
    rw [hsearch.2.1 last (List.mem_cons_of_mem order hin)] at hself
    cases hself
  · intro heq
    obtain ⟨shown, hshown⟩ :=
      exists_last (l := s.orders) (top_of_limited hlimited).2 (by omega)
    have hshown_mem := List.mem_of_getLast? hshown
    rw [take_erase_on_iff hsearch.2 hs (by omega) hshown hremoved]
    exact hsearch.2.less_of_equivalent
      (List.mem_cons_of_mem order (List.mem_of_mem_take hshown_mem))
      (List.mem_cons_of_mem order hin) List.mem_cons_self (hbefore shown hshown_mem) heq.symm

include hs hup hlimited in
/-- Removals are filtered as they should be, but for the only hidden order. -/
theorem erase_filtered_iff {order : α} {r : SortedOrderSet α × Bool}
    (h : s.erase less order = some r) :
    Filtered s r.1 ↔ ¬ RemovesOnlyHidden less s (.erase order) := by
  obtain ⟨hsearch, ⟨hnone, hsame⟩ | ⟨hremoved, hmark⟩⟩ := erase_cases h
  · rw [hsame]
    refine iff_of_true (filtered_self hup) ?_
    rintro ⟨-, last, hlast, heq⟩
    have hkept : last ∈ (OrderedSet.erase (Holds less) order s.orders).1 := by
      rw [erase_not_removed hnone]
      exact List.mem_of_getLast? hlast
    exact ((mem_erase_on hsearch.2 hs).mp hkept).2 heq
  · obtain ⟨hflag, htop⟩ := replaced_spec hup hlimited hmark
    have hlength := length_erase hremoved
    rw [Filtered, hflag, htop]
    rcases Nat.lt_trichotomy s.orders.length (s.depthLimit.toNat + 1) with hlt | hone | hgt
    · -- The set did not reach beyond the limit, so its top has lost an order.
      refine iff_of_true (iff_of_false (fun hdown => by omega) fun htake => ?_)
        fun hhidden => absurd hhidden.1 hlt.ne
      have := congrArg List.length htake
      rw [List.length_take, List.length_take] at this
      omega
    · obtain ⟨last, hlast⟩ := exists_last (l := s.orders) (n := s.orders.length) (by omega) le_rfl
      rw [List.take_length] at hlast
      rw [erase_hidden_iff hs hlimited hsearch hone hlast hremoved]
      simp only [RemovesOnlyHidden, hone, hlast, Option.some.injEq, exists_eq_left', true_and]
      exact ⟨fun hiff heq => by have := hiff.mpr heq; omega,
        fun hne => iff_of_false (fun hdown => by omega) hne⟩
    · obtain ⟨last, hlast⟩ :=
        exists_last (l := s.orders) (top_of_limited hlimited).2 (by omega)
      rw [take_erase_on_iff hsearch.2 hs (by omega) hlast hremoved, hlast]
      simp only [Option.some.injEq, exists_eq_left']
      exact iff_of_true ⟨fun hdown => hdown.2, fun hless => ⟨by omega, hless⟩⟩
        fun hhidden => absurd hhidden.1 hgt.ne'

end Changes

/-- Along every run an up-to-date set filters a change as it should exactly when the change does
not remove the only order that the limit hides. -/
theorem filtered_iff {ops : List (Operation α)} {s : SortedOrderSet α} {c : Change α}
    {r : SortedOrderSet α × Bool} (hrun : run (step less) {} ops = some s)
    (hlimited : s.isDepthLimitUnbounded = false) (hup : s.UpToDate)
    (hc : change less s c = some r) : Filtered s r.1 ↔ ¬ RemovesOnlyHidden less s c := by
  have hs := sorted_of_run hrun
  cases c with
  | insert order => exact iff_of_true (insert_filtered hs hup hlimited hc) not_false
  | erase order => exact erase_filtered_iff hs hup hlimited hc

/-! ## The sets of a book -/

theorem depth_limit_filters_iff (O : OrderKind) (side : BookSide)
    (ops : List (Operation (FeedOrder O))) (s : SortedOrderSet (FeedOrder O))
    (c : Change (FeedOrder O)) (r : SortedOrderSet (FeedOrder O) × Bool)
    (hrun : run (step (bookLess side)) {} ops = some s)
    (hlimited : s.isDepthLimitUnbounded = false) (hup : s.UpToDate)
    (hc : change (bookLess side) s c = some r) :
    Filtered s r.1 ↔ ¬ RemovesOnlyHidden (bookLess side) s c :=
  filtered_iff hrun hlimited hup hc

def sampleSet : SortedOrderSet (FeedOrder .order) where
  snapshot := [OrderLaws.sampleOrder 1 1 (.finite 100)]
  orders := [OrderLaws.sampleOrder 1 1 (.finite 100)]
  depthLimit := 1

/-- A second order behind a limit of one goes unnoticed. -/
theorem depth_limit_filters_second :
    Filtered sampleSet { sampleSet with
        orders := [OrderLaws.sampleOrder 1 1 (.finite 100),
          OrderLaws.sampleOrder 2 2 (.finite 99)] } ↔
      ¬ RemovesOnlyHidden (bookLess .buy) sampleSet
        (.insert (OrderLaws.sampleOrder 2 2 (.finite 99))) :=
  depth_limit_filters_iff .order .buy
    [.setDepthLimit 1, .change (.insert (OrderLaws.sampleOrder 1 1 (.finite 100))), .toVector]
    sampleSet (.insert (OrderLaws.sampleOrder 2 2 (.finite 99)))
    ({ sampleSet with
      orders := [OrderLaws.sampleOrder 1 1 (.finite 100),
        OrderLaws.sampleOrder 2 2 (.finite 99)] }, true)
    (by decide) (by decide) ⟨by decide, by decide⟩ (by decide)

/-- The first reading shows one of two orders. When the hidden one goes, the flag goes up. -/
theorem hidden_removal_flagged :
    ∃ s r, run (step (bookLess .buy)) {} [.setDepthLimit 1,
        .change (.insert (OrderLaws.sampleOrder 1 1 (.finite 100))),
        .change (.insert (OrderLaws.sampleOrder 2 2 (.finite 99))), .toVector] = some s ∧
      s.isDepthLimitUnbounded = false ∧ s.UpToDate ∧
      change (bookLess .buy) s (.erase (OrderLaws.sampleOrder 2 2 (.finite 99))) = some r ∧
      r.1.top = s.top ∧ r.1.isChanged = true := by
  refine ⟨{ sampleSet with
      orders := [OrderLaws.sampleOrder 1 1 (.finite 100), OrderLaws.sampleOrder 2 2 (.finite 99)] },
    ({ sampleSet with isChanged := true }, true), by decide, by decide, ⟨by decide, by decide⟩,
    by decide, by decide, rfl⟩

end DepthFilters
