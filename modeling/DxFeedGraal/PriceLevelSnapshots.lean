import DxFeedGraal.PriceLevelSets

/-! # Snapshots and sizes of price levels

What the operations on a price level set do to its snapshot, although they write to objects
that the snapshot shares, and to the sizes of the levels, as long as these are counts that
double precision adds and subtracts exactly. -/
namespace PriceLevelSnapshots

open OrderedSet OrderedTotals DoubleValues PriceLevelSets
open Orders

variable {side : BookSide} {arithmetic : Arithmetic} {s : SortedPriceLevelSet}

/-! ## The snapshot -/

/-- While the flag is down the snapshot is what a listener is entitled to see. -/
structure Cached (side : BookSide) (s : SortedPriceLevelSet) : Prop extends Sound side s where
  current : s.isChanged = false → s.snapshot = s.top

theorem Cached.consistent (h : Cached side s) :
    SortedOrderSets.Consistent (Compared side) s.toSortedOrderSet := ⟨h.sorted, h.current⟩

theorem cached_empty (side : BookSide) : Cached side {} :=
  { sound_empty side with current := fun _ => rfl }

theorem top_of_limited (h : s.isDepthLimitUnbounded = false) :
    s.top = s.priceLevels.take s.depthLimit.toNat :=
  (SortedOrderSets.top_of_limited h).1

/-- The flag stays down only for a level behind a full snapshot. -/
theorem mark_down {pl : Shared} (h : (s.markAsChangedIfNeeded side pl).isChanged = false) :
    s.isChanged = false ∧ s.isDepthLimitUnbounded = false ∧
      s.depthLimit.toNat < s.priceLevels.length ∧
      ∃ back, s.snapshot.getLast? = some back ∧ Less side back pl = true :=
  SortedOrderSets.markAsChanged_down (mark_eq s side pl) h

theorem erase_removes {existing : Shared} (hs : Sorted (Less side) s.priceLevels)
    (hmem : existing ∈ s.priceLevels) :
    (erase (Less side) existing s.priceLevels).1.length + 1 = s.priceLevels.length := by
  apply length_erase
  by_contra hnone
  have hsame := erase_not_removed (Nat.eq_zero_of_not_pos hnone)
  rw [← hsame] at hmem
  exact ((mem_erase hs).mp hmem).2 (Equivalent.refl existing)

/-- A level behind the top, and what stays as it is when it is written to. -/
theorem resize_hidden (h : Sound side s) {existing : Shared}
    (hmem : existing ∈ s.priceLevels) {n : ℕ} (hfull : n < s.priceLevels.length) {back : Shared}
    (hback : (s.priceLevels.take n).getLast? = some back)
    (hless : Less side back existing = true) (size : Double) :
    (s.resize side existing size).priceLevels.take n = s.priceLevels.take n ∧
      ∀ pl ∈ s.priceLevels.take n, pl.object ≠ existing.object := by
  have herased := take_erase h.sorted hfull.le hback hless
  have hlength := erase_removes h.sorted hmem
  refine ⟨?_, fun pl hpl => ?_⟩
  · rw [h.resize_priceLevels hmem, take_insert h.sorted.erase (by omega) (herased ▸ hback), herased]
    cases side <;> exact hless
  · exact h.object_ne_of_mem_erase hmem (List.mem_of_mem_take (herased ▸ hpl))

theorem length_resize (h : Sound side s) {existing : Shared} (hmem : existing ∈ s.priceLevels)
    (size : Double) :
    (s.resize side existing size).priceLevels.length = s.priceLevels.length := by
  rw [h.resize_priceLevels hmem, length_insert, erase_removes h.sorted hmem]
  refine insert_added fun x hx heq => ?_
  have hposition := (equivalent_iff side _ x).mp heq
  exact ((mem_erase h.sorted).mp hx).2 ((equivalent_iff side _ _).mpr hposition)

/-- What stays to be shown when the flag stays down: that the first levels are the old ones. -/
theorem current_of_mark {pl : Shared} (hdown : (s.markAsChangedIfNeeded side pl).isChanged = false)
    (hkept : s.isChanged = false → s.isDepthLimitUnbounded = false →
      s.depthLimit.toNat < s.priceLevels.length → ∀ back, s.snapshot.getLast? = some back →
        Less side back pl = true → s.snapshot = s.priceLevels.take s.depthLimit.toNat) :
    (s.markAsChangedIfNeeded side pl).snapshot = (s.markAsChangedIfNeeded side pl).top := by
  obtain ⟨hlevels, hsnapshot, -, -, hlimit⟩ := mark_keeps s side pl
  obtain ⟨hchanged, hlimited, hcount, back, hback, hless⟩ := mark_down hdown
  rw [hsnapshot, hkept hchanged hlimited hcount back hback hless, top_of_limited, hlevels, hlimit]
  rw [SortedOrderSets.SortedOrderSet.isDepthLimitUnbounded, hlimit]
  exact hlimited

theorem Cached.limited (h : Cached side s) (hchanged : s.isChanged = false)
    (hlimited : s.isDepthLimitUnbounded = false) :
    s.snapshot = s.priceLevels.take s.depthLimit.toNat :=
  (h.current hchanged).trans (top_of_limited hlimited)

/-- Both changing operations keep the snapshot in step with the set. -/
theorem Cached.moved (h : Cached side s) {pl : PriceLevel} {t : SortedPriceLevelSet}
    (hm : Moved side s pl t) : Cached side t := by
  refine { h.toSound.moved hm with current := fun hdown => ?_ }
  cases hm with
  | resized existing size hmem =>
    apply current_of_mark hdown
    intro hchanged hlimited hcount back hback hless
    have hcurrent := h.limited hchanged hlimited
    rw [length_resize h.toSound.numbered hmem] at hcount
    obtain ⟨old, hold, rfl⟩ : ∃ old, s.snapshot.getLast? = some old ∧
        old.written existing.object size = back := by
      have hmap : (s.snapshot.map fun pl => pl.written existing.object size).getLast? =
          some back := hback
      rw [List.getLast?_map] at hmap
      exact Option.map_eq_some_iff.mp hmap
    rw [less_written_left] at hless
    rw [hcurrent] at hold
    obtain ⟨htake, hobjects⟩ := resize_hidden h.toSound.numbered hmem hcount hold hless size
    have hkept : (s.numbered.resize side existing size).snapshot = s.snapshot :=
      map_written_of_ne (fun pl hpl => hobjects pl (hcurrent ▸ hpl)) size
    rw [hkept, hcurrent]
    exact htake.symm
  | added hfree =>
    apply current_of_mark hdown
    intro hchanged hlimited hcount back hback hless
    have hcurrent := h.limited hchanged hlimited
    have hlength := length_insert (insert_added (find_none h.sorted hfree))
    have hback' : s.snapshot.getLast? = some back := hback
    rw [hcurrent] at hback'
    have hcount' : s.depthLimit.toNat <
        (insert (Less side) ⟨s.created, pl⟩ s.priceLevels).1.length := hcount
    exact hcurrent.trans (take_insert h.sorted (by omega) hback' hless).symm
  | removed existing hmem =>
    apply current_of_mark hdown
    intro hchanged hlimited hcount back hback hless
    have hcurrent := h.limited hchanged hlimited
    have hlength := erase_removes h.sorted hmem
    have hback' : s.snapshot.getLast? = some back := hback
    rw [hcurrent] at hback'
    have hcount' : s.depthLimit.toNat <
        (erase (Less side) existing s.priceLevels).1.length := hcount
    exact hcurrent.trans (take_erase h.sorted (by omega) hback' hless).symm
  | missed => exact h.current hdown

theorem Cached.setDepthLimit (h : Cached side s) (depthLimit : UInt64) :
    Cached side (s.setDepthLimit depthLimit) := by
  have hlimited := SortedOrderSets.consistent_setDepthLimit h.consistent depthLimit
  exact { h.toSound.setDepthLimit depthLimit with current := hlimited.cached }

theorem Cached.toVector (h : Cached side s) :
    Cached side s.toVector.2 ∧ s.toVector.1 = s.top ∧ s.toVector.2.isChanged = false ∧
      s.toVector.2.priceLevels = s.priceLevels ∧ s.toVector.2.depthLimit = s.depthLimit := by
  have hsound := h.toSound.toVector
  cases hchanged : s.isChanged with
  | true =>
    have hread : s.toVector =
        (s.top, { s.updateSnapshot with handed := s.handed ++ [s.top] }) := by
      rw [SortedPriceLevelSet.toVector, if_pos hchanged]
      rfl
    rw [hread] at hsound ⊢
    exact ⟨{ hsound with current := fun _ => rfl }, rfl, rfl, rfl, rfl⟩
  | false =>
    have hread : s.toVector = (s.snapshot, { s with handed := s.handed ++ [s.snapshot] }) := by
      rw [SortedPriceLevelSet.toVector, if_neg (by simp [hchanged])]
    rw [hread] at hsound ⊢
    exact ⟨{ hsound with current := h.current }, h.current hchanged, hchanged, rfl, rfl⟩

/-! ## The sizes -/

def Carries (pl : Shared) (n : ℕ) : Prop := pl.level.size = .finite n

/-- The levels carry the sizes of their prices. -/
abbrev Holds (side : BookSide) (s : SortedPriceLevelSet) (total : WithBot (WithTop ℚ) → ℕ) : Prop :=
  Stands (Less side) Shared.position Carries s.priceLevels total

theorem holds_mark {pl : Shared} {total : WithBot (WithTop ℚ) → ℕ} (h : Holds side s total) :
    Holds side (s.markAsChangedIfNeeded side pl) total := by
  unfold Holds
  rwa [(mark_keeps s side pl).1]

theorem holds_resize (hs : Sound side s) {total : WithBot (WithTop ℚ) → ℕ}
    (h : Holds side s total) {existing : Shared} (hmem : existing ∈ s.priceLevels) {n : ℕ}
    (hn : 0 < n) :
    Holds side (s.resize side existing (.finite n))
      (Function.update total existing.position n) := by
  unfold Holds
  rw [hs.resize_priceLevels hmem]
  exact h.replace (equivalent_iff side) rfl hn rfl

/-- A level of a count grows by a count. -/
theorem insertOrIncrease_holds (hexact : arithmetic.Exact) (hs : Sound side s)
    {total : WithBot (WithTop ℚ) → ℕ} (h : Holds side s total) {pl : PriceLevel} {n : ℕ}
    (hsize : pl.size = .finite n) (hn : 0 < n) (hbound : total pl.price.position + n ≤ 2 ^ 53) :
    Holds side (s.insertOrIncrease side arithmetic pl)
      (Function.update total pl.price.position (total pl.price.position + n)) := by
  unfold SortedPriceLevelSet.insertOrIncrease
  cases hfind : find (Less side) ⟨s.created, pl⟩ s.priceLevels with
  | none =>
    simp only [hfind]
    have hfree : total pl.price.position = 0 := h.find_none (equivalent_iff side) hfind
    rw [hfree, Nat.zero_add]
    exact holds_mark (h.insert (equivalent_iff side) (x := ⟨s.created, pl⟩) hfree hn hsize)
  | some existing =>
    obtain ⟨hmem, hposition⟩ := h.find_some (equivalent_iff side) hfind
    have hposition : existing.position = pl.price.position := hposition
    have hexisting : existing.level.size = .finite (total pl.price.position) :=
      hposition ▸ h.carries existing hmem
    simp only [hfind]
    rw [hexisting, hsize, hexact.plus _ _ hbound, ← hposition]
    exact holds_mark (holds_resize hs.numbered h hmem (Nat.add_pos_right _ hn))

theorem zero_less_iff (n : ℕ) : (Double.finite 0).less (.finite n) = true ↔ 0 < n := by
  simp [Double.less, Double.isNaN, Double.position]

/-- A level of a count shrinks by a count that it includes. -/
theorem eraseOrDecrease_holds (hexact : arithmetic.Exact) (hs : Sound side s)
    {total : WithBot (WithTop ℚ) → ℕ} (h : Holds side s total) {pl : PriceLevel} {n : ℕ}
    (hsize : pl.size = .finite n) (hn : 0 < n) (hle : n ≤ total pl.price.position)
    (hbound : total pl.price.position ≤ 2 ^ 53) :
    Holds side (s.eraseOrDecrease side arithmetic pl)
      (Function.update total pl.price.position (total pl.price.position - n)) := by
  unfold SortedPriceLevelSet.eraseOrDecrease
  cases hfind : find (Less side) ⟨s.created, pl⟩ s.priceLevels with
  | none =>
    have hfree : total pl.price.position = 0 := h.find_none (equivalent_iff side) hfind
    omega
  | some existing =>
    obtain ⟨hmem, hposition⟩ := h.find_some (equivalent_iff side) hfind
    have hposition : existing.position = pl.price.position := hposition
    have hexisting : existing.level.size = .finite (total pl.price.position) :=
      hposition ▸ h.carries existing hmem
    simp only
    rw [hexisting, hsize, hexact.minus _ _ hle hbound, ← hposition]
    split
    next hless =>
      exact holds_mark (holds_resize hs.numbered h hmem ((zero_less_iff _).mp hless))
    next hless =>
      have hzero : total existing.position - n = 0 :=
        Nat.eq_zero_of_not_pos fun hpos => hless ((zero_less_iff _).mpr hpos)
      rw [hzero]
      exact holds_mark (h.erase (equivalent_iff side) existing)

end PriceLevelSnapshots
