import DxFeedGraal.OrderedTotals
import DxFeedGraal.SortedOrderSets
import Mathlib.Data.List.Nodup

/-! # Sorted price level sets

The levels of one side of a price level book, as pointers to objects that the snapshot and
the vectors handed to listeners share. Growing or shrinking a level writes to the object
before a copy of it takes its place in the set. -/
namespace PriceLevelSets

open OrderSources Orders OrderedSet OrderedTotals PartialRuns DoubleValues
open SortedOrderSets (SortedOrderSet)

/-- Sums and differences of sizes in double precision. -/
structure Arithmetic where
  plus : Double → Double → Double
  minus : Double → Double → Double

/-- Doubles hold every count up to `2 ^ 53`. -/
structure Arithmetic.Exact (arithmetic : Arithmetic) : Prop where
  plus : ∀ m n : ℕ, m + n ≤ 2 ^ 53 →
    arithmetic.plus (.finite m) (.finite n) = .finite ((m + n : ℕ) : ℚ)
  minus : ∀ m n : ℕ, n ≤ m → m ≤ 2 ^ 53 →
    arithmetic.minus (.finite m) (.finite n) = .finite ((m - n : ℕ) : ℚ)

def opposite : Double → Double
  | .nan => .nan
  | .negInf => .posInf
  | .posInf => .negInf
  | .negZero => .finite 0
  | .finite q => if q = 0 then .negZero else .finite (-q)

/-- The sum of IEEE 754 for sums that need no rounding. -/
def unrounded : Double → Double → Double
  | .nan, _ => .nan
  | _, .nan => .nan
  | .posInf, .negInf => .nan
  | .negInf, .posInf => .nan
  | .posInf, _ => .posInf
  | _, .posInf => .posInf
  | .negInf, _ => .negInf
  | _, .negInf => .negInf
  | .negZero, b => b
  | a, .negZero => a
  | .finite p, .finite q => .finite (p + q)

def unroundedArithmetic : Arithmetic where
  plus := unrounded
  minus a b := unrounded a (opposite b)

theorem unroundedArithmetic_exact : unroundedArithmetic.Exact where
  plus m n _ := by
    change Double.finite ((m : ℚ) + n) = _
    rw [Nat.cast_add]
  minus m n hle _ := by
    change unrounded (.finite m) (if (n : ℚ) = 0 then .negZero else .finite (-n)) = _
    split
    next hzero =>
      have hn : n = 0 := by exact_mod_cast hzero
      subst hn
      rfl
    next =>
      change Double.finite ((m : ℚ) + -n) = _
      rw [Nat.cast_sub hle, sub_eq_add_neg]

structure PriceLevel where
  eventSource : Int32
  side : Side
  price : Double
  size : Double
  price_isNumber : price ≠ .nan
  deriving DecidableEq

def PriceLevel.setSize (pl : PriceLevel) (size : Double) : PriceLevel := { pl with size := size }

/-- A shared pointer: the number of the object, and what the object holds. -/
structure Shared where
  object : ℕ
  level : PriceLevel
  deriving DecidableEq

namespace Shared

variable (pl : Shared)

def setSize (size : Double) : Shared := { pl with level := pl.level.setSize size }

def position : WithBot (WithTop ℚ) := pl.level.price.position

/-- Every pointer to the object sees what is written to it. -/
def written (object : ℕ) (size : Double) : Shared :=
  if pl.object = object then pl.setSize size else pl

end Shared

/-- `BuyLess` and `SellLess`. -/
def Less : BookSide → Shared → Shared → Bool
  | .buy, pl₁, pl₂ => pl₂.level.price.less pl₁.level.price
  | .sell, pl₁, pl₂ => pl₁.level.price.less pl₂.level.price

/-- The comparison of levels always has a result. -/
def Compared (side : BookSide) (pl₁ pl₂ : Shared) : Option Bool := some (Less side pl₁ pl₂)

/-- The limit, the snapshot and the flag are those of an order set. -/
structure SortedPriceLevelSet extends SortedOrderSet Shared where
  /-- The vectors that were returned, the first one first. -/
  handed : List (List Shared) := []
  /-- Objects made so far. -/
  created : ℕ := 0
  deriving DecidableEq

namespace SortedPriceLevelSet

variable (side : BookSide) (arithmetic : Arithmetic) (s : SortedPriceLevelSet)

abbrev priceLevels : List Shared := s.orders

def isPriceLevelCountWithinDepthLimit : Bool := s.isOrderCountWithinDepthLimit

def isPriceLevelWithinDepthLimit (pl : Shared) : Bool :=
  (s.isOrderWithinDepthLimit (Compared side) pl).getD true

def updateSnapshot : SortedPriceLevelSet :=
  { s with toSortedOrderSet := s.toSortedOrderSet.updateSnapshot }

/-- There is always a result, so the default never shows. -/
def markAsChangedIfNeeded (pl : Shared) : SortedPriceLevelSet :=
  { s with
    toSortedOrderSet := (s.toSortedOrderSet.markAsChangedIfNeeded (Compared side) pl).getD
      s.toSortedOrderSet }

def setDepthLimit (depthLimit : UInt64) : SortedPriceLevelSet :=
  { s with toSortedOrderSet := s.toSortedOrderSet.setDepthLimit depthLimit }

/-- The size of an object changes wherever there is a pointer to it. -/
def write (object : ℕ) (size : Double) : SortedPriceLevelSet :=
  { s with
    snapshot := s.snapshot.map fun pl => pl.written object size
    orders := s.priceLevels.map fun pl => pl.written object size
    handed := s.handed.map fun v => v.map fun pl => pl.written object size }

/-- `erase`, then `setSize` on the erased object, then `emplace` of a copy of it. -/
def resize (existing : Shared) (size : Double) : SortedPriceLevelSet :=
  let erased := { s with orders := (erase (Less side) existing s.priceLevels).1 }
  let sized := erased.write existing.object size
  { sized with
    orders :=
      (insert (Less side) ⟨s.created, existing.level.setSize size⟩ sized.priceLevels).1
    created := s.created + 1 }

/-- The level is a new object. -/
def insertOrIncrease (pl : PriceLevel) : SortedPriceLevelSet :=
  let added : Shared := ⟨s.created, pl⟩
  let s' := { s with created := s.created + 1 }
  match find (Less side) added s.priceLevels with
  | some existing =>
    (s'.resize side existing (arithmetic.plus existing.level.size pl.size)).markAsChangedIfNeeded
      side existing
  | none =>
    { s' with
      orders := (insert (Less side) added s.priceLevels).1 }.markAsChangedIfNeeded side added

def eraseOrDecrease (pl : PriceLevel) : SortedPriceLevelSet :=
  let s' := { s with created := s.created + 1 }
  match find (Less side) ⟨s.created, pl⟩ s.priceLevels with
  | some existing =>
    let newSize := arithmetic.minus existing.level.size pl.size
    if (Double.finite 0).less newSize then
      (s'.resize side existing newSize).markAsChangedIfNeeded side existing
    else
      { s' with
        orders := (erase (Less side) existing s.priceLevels).1 }.markAsChangedIfNeeded
          side existing
  | none => s'

def clearBySource (source : Int32) : Option SortedPriceLevelSet :=
  (s.toSortedOrderSet.clearBySource fun pl => some (pl.level.eventSource == source)).map
    fun cleared => { s with toSortedOrderSet := cleared }

def toVector : List Shared × SortedPriceLevelSet :=
  let t := if s.isChanged then s.updateSnapshot else s
  (t.snapshot, { t with handed := t.handed ++ [t.snapshot] })

end SortedPriceLevelSet

inductive Operation where
  | insertOrIncrease (pl : PriceLevel)
  | eraseOrDecrease (pl : PriceLevel)
  | clearBySource (source : Int32)
  | setDepthLimit (depthLimit : UInt64)
  | toVector

def step (side : BookSide) (arithmetic : Arithmetic) (s : SortedPriceLevelSet) :
    Operation → Option SortedPriceLevelSet
  | .insertOrIncrease pl => some (s.insertOrIncrease side arithmetic pl)
  | .eraseOrDecrease pl => some (s.eraseOrDecrease side arithmetic pl)
  | .clearBySource source => s.clearBySource source
  | .setDepthLimit depthLimit => some (s.setDepthLimit depthLimit)
  | .toVector => some s.toVector.2

/-! ## The order of the levels -/

def sideKey : BookSide → WithBot (WithTop ℚ) → (WithBot (WithTop ℚ))ᵒᵈ ⊕ₗ WithBot (WithTop ℚ)
  | .buy, p => toLex (Sum.inl (OrderDual.toDual p))
  | .sell, p => toLex (Sum.inr p)

theorem less_iff (side : BookSide) (a b : Shared) :
    Less side a b = true ↔ sideKey side a.position < sideKey side b.position := by
  cases side with
  | buy =>
    rw [Less, DoubleValues.less_iff b.level.price_isNumber a.level.price_isNumber]
    simp [sideKey, Shared.position]
  | sell =>
    rw [Less, DoubleValues.less_iff a.level.price_isNumber b.level.price_isNumber]
    simp [sideKey, Shared.position]

instance (side : BookSide) : IsStrictWeakOrder Shared fun a b => Less side a b = true :=
  ThreeWayComparisons.strictWeakOrder_of_key (less_iff side)

theorem sideKey_injective (side : BookSide) : Function.Injective (sideKey side) := by
  intro p q h
  cases side with
  | buy => simpa [sideKey] using h
  | sell => simpa [sideKey] using h

/-- Levels share a place when they share a price. -/
theorem equivalent_iff (side : BookSide) (a b : Shared) :
    Equivalent (Less side) a b ↔ a.position = b.position := by
  rw [Equivalent, Bool.eq_false_iff, Bool.eq_false_iff, ne_eq, ne_eq, less_iff, less_iff, not_lt,
    not_lt, and_comm, ← le_antisymm_iff]
  exact (sideKey_injective side).eq_iff

@[simp] theorem less_setSize_left (side : BookSide) (a b : Shared) (size : Double) :
    Less side (a.setSize size) b = Less side a b := by
  cases side <;> rfl

@[simp] theorem less_setSize_right (side : BookSide) (a b : Shared) (size : Double) :
    Less side a (b.setSize size) = Less side a b := by
  cases side <;> rfl

@[simp] theorem less_written_left (side : BookSide) (a b : Shared) (object : ℕ) (size : Double) :
    Less side (a.written object size) b = Less side a b := by
  unfold Shared.written
  split <;> simp

@[simp] theorem less_written_right (side : BookSide) (a b : Shared) (object : ℕ) (size : Double) :
    Less side a (b.written object size) = Less side a b := by
  unfold Shared.written
  split <;> simp

/-! ## Objects and the pointers to them -/

/-- The levels are sorted, each is an object of its own, and every pointer is to an object
that was made. -/
structure Sound (side : BookSide) (s : SortedPriceLevelSet) : Prop where
  sorted : Sorted (Less side) s.priceLevels
  distinct : (s.priceLevels.map Shared.object).Nodup
  levels_made : ∀ pl ∈ s.priceLevels, pl.object < s.created
  snapshot_made : ∀ pl ∈ s.snapshot, pl.object < s.created
  handed_made : ∀ v ∈ s.handed, ∀ pl ∈ v, pl.object < s.created

theorem sound_empty (side : BookSide) : Sound side {} where
  sorted := List.Pairwise.nil
  distinct := List.nodup_nil
  levels_made := by simp [SortedPriceLevelSet.priceLevels]
  snapshot_made := by simp
  handed_made := by simp

theorem written_of_ne {pl : Shared} {object : ℕ} (h : pl.object ≠ object) (size : Double) :
    pl.written object size = pl := if_neg h

@[simp] theorem object_written (pl : Shared) (object : ℕ) (size : Double) :
    (pl.written object size).object = pl.object := by
  unfold Shared.written
  split <;> rfl

theorem map_written_of_ne {l : List Shared} {object : ℕ} (h : ∀ pl ∈ l, pl.object ≠ object)
    (size : Double) : l.map (fun pl => pl.written object size) = l := by
  conv_rhs => rw [← List.map_id l]
  exact List.map_congr_left fun pl hpl => written_of_ne (h pl hpl) size

section Sets

variable {side : BookSide} {arithmetic : Arithmetic} {s : SortedPriceLevelSet}

theorem mark_eq (s : SortedPriceLevelSet) (side : BookSide) (pl : Shared) :
    s.toSortedOrderSet.markAsChangedIfNeeded (Compared side) pl =
      some (s.markAsChangedIfNeeded side pl).toSortedOrderSet := by
  obtain ⟨t, ht⟩ : ∃ t, s.toSortedOrderSet.markAsChangedIfNeeded (Compared side) pl = some t :=
    SortedOrderSets.markAsChanged_defined fun _ _ _ => rfl
  unfold SortedPriceLevelSet.markAsChangedIfNeeded
  rw [ht]
  rfl

theorem mark_keeps (s : SortedPriceLevelSet) (side : BookSide) (pl : Shared) :
    (s.markAsChangedIfNeeded side pl).priceLevels = s.priceLevels ∧
      (s.markAsChangedIfNeeded side pl).snapshot = s.snapshot ∧
      (s.markAsChangedIfNeeded side pl).handed = s.handed ∧
      (s.markAsChangedIfNeeded side pl).created = s.created ∧
      (s.markAsChangedIfNeeded side pl).depthLimit = s.depthLimit := by
  obtain ⟨hlevels, hlimit, hsnapshot⟩ := SortedOrderSets.markAsChanged_keeps (mark_eq s side pl)
  exact ⟨hlevels, hsnapshot, rfl, rfl, hlimit⟩

/-- The object of an erased level has left the set. -/
theorem Sound.object_ne_of_mem_erase (h : Sound side s) {existing pl : Shared}
    (hexisting : existing ∈ s.priceLevels)
    (hpl : pl ∈ (erase (Less side) existing s.priceLevels).1) : pl.object ≠ existing.object := by
  obtain ⟨hmem, hne⟩ := (mem_erase h.sorted).mp hpl
  intro hobject
  have hsame : pl = existing := List.inj_on_of_nodup_map h.distinct hmem hexisting hobject
  rw [hsame] at hne
  exact hne (Equivalent.refl existing)

theorem Sound.resize_priceLevels (h : Sound side s) {existing : Shared}
    (hexisting : existing ∈ s.priceLevels) (size : Double) :
    (s.resize side existing size).priceLevels =
      (insert (Less side) ⟨s.created, existing.level.setSize size⟩
        (erase (Less side) existing s.priceLevels).1).1 := by
  have hkept : (erase (Less side) existing s.priceLevels).1.map
      (fun pl => pl.written existing.object size) =
        (erase (Less side) existing s.priceLevels).1 :=
    map_written_of_ne (fun pl hpl => h.object_ne_of_mem_erase hexisting hpl) size
  exact congrArg (fun l => (insert (Less side) _ l).1) hkept

/-- A set in which the number of one more object is taken. -/
def SortedPriceLevelSet.numbered (s : SortedPriceLevelSet) : SortedPriceLevelSet :=
  { s with created := s.created + 1 }

theorem Sound.numbered (h : Sound side s) : Sound side s.numbered where
  sorted := h.sorted
  distinct := h.distinct
  levels_made pl hpl := (h.levels_made pl hpl).trans (Nat.lt_succ_self _)
  snapshot_made pl hpl := (h.snapshot_made pl hpl).trans (Nat.lt_succ_self _)
  handed_made v hv pl hpl := (h.handed_made v hv pl hpl).trans (Nat.lt_succ_self _)

/-- All that the two changing operations can do to a set with a level. -/
inductive Moved (side : BookSide) (s : SortedPriceLevelSet) (pl : PriceLevel) :
    SortedPriceLevelSet → Prop
  | resized (existing : Shared) (size : Double) (mem : existing ∈ s.priceLevels) :
    Moved side s pl ((s.numbered.resize side existing size).markAsChangedIfNeeded side existing)
  | added (free : find (Less side) ⟨s.created, pl⟩ s.priceLevels = none) :
    Moved side s pl
      ({ s.numbered with
        orders := (insert (Less side) ⟨s.created, pl⟩ s.priceLevels).1
          }.markAsChangedIfNeeded side ⟨s.created, pl⟩)
  | removed (existing : Shared) (mem : existing ∈ s.priceLevels) :
    Moved side s pl
      ({ s.numbered with
        orders := (erase (Less side) existing s.priceLevels).1
          }.markAsChangedIfNeeded side existing)
  | missed : Moved side s pl s.numbered

theorem moved_insertOrIncrease (h : Sound side s) (pl : PriceLevel) :
    Moved side s pl (s.insertOrIncrease side arithmetic pl) := by
  unfold SortedPriceLevelSet.insertOrIncrease
  cases hfind : find (Less side) ⟨s.created, pl⟩ s.priceLevels with
  | none =>
    simp only [hfind]
    exact .added hfind
  | some existing =>
    simp only [hfind]
    exact .resized existing _ ((find_eq_some h.sorted).mp hfind).1

theorem moved_eraseOrDecrease (h : Sound side s) (pl : PriceLevel) :
    Moved side s pl (s.eraseOrDecrease side arithmetic pl) := by
  unfold SortedPriceLevelSet.eraseOrDecrease
  cases hfind : find (Less side) ⟨s.created, pl⟩ s.priceLevels with
  | none =>
    exact .missed
  | some existing =>
    have hmem := ((find_eq_some h.sorted).mp hfind).1
    simp only
    split
    · exact .resized existing _ hmem
    · exact .removed existing hmem

theorem find_none {pl : Shared} (hs : Sorted (Less side) s.priceLevels)
    (h : find (Less side) pl s.priceLevels = none) :
    ∀ x ∈ s.priceLevels, ¬ Equivalent (Less side) pl x := by
  intro x hx heq
  have hsome := (find_eq_some hs).mpr ⟨hx, heq⟩
  rw [h] at hsome
  cases hsome

/-! ### Soundness -/

theorem Sound.mark (h : Sound side s) (pl : Shared) :
    Sound side (s.markAsChangedIfNeeded side pl) := by
  obtain ⟨hlevels, hsnapshot, hhanded, hcreated, -⟩ := mark_keeps s side pl
  constructor
  · rw [hlevels]
    exact h.sorted
  · rw [hlevels]
    exact h.distinct
  · rw [hlevels, hcreated]
    exact h.levels_made
  · rw [hsnapshot, hcreated]
    exact h.snapshot_made
  · rw [hhanded, hcreated]
    exact h.handed_made

/-- A new object enters a set that has no level of its price. -/
theorem Sound.insert (h : Sound side s) (pl : Shared)
    (hfree : ∀ x ∈ s.priceLevels, ¬ Equivalent (Less side) pl x)
    (hnew : ∀ x ∈ s.priceLevels, x.object ≠ pl.object) (hmade : pl.object < s.created) :
    Sound side { s with orders := (OrderedSet.insert (Less side) pl s.priceLevels).1 } := by
  have hadded := insert_added hfree
  refine ⟨h.sorted.insert, ?_, fun x hx => ?_, h.snapshot_made, h.handed_made⟩
  · have hperm : (OrderedSet.insert (Less side) pl s.priceLevels).1.Perm (pl :: s.priceLevels) := by
      have hnodup := (h.sorted.insert (x := pl)).nodup less_irrefl
      have hcons : (pl :: s.priceLevels).Nodup :=
        List.nodup_cons.mpr ⟨fun hmem => hnew pl hmem rfl, h.sorted.nodup less_irrefl⟩
      refine (List.perm_ext_iff_of_nodup hnodup hcons).mpr fun x => ?_
      rw [mem_insert hadded, List.mem_cons]
    refine (hperm.map Shared.object).nodup_iff.mpr (List.nodup_cons.mpr ⟨?_, h.distinct⟩)
    intro hmem
    obtain ⟨x, hx, heq⟩ := List.mem_map.mp hmem
    exact hnew x hx heq
  · rcases (mem_insert hadded).mp hx with rfl | hx
    · exact hmade
    · exact h.levels_made x hx

theorem Sound.erase (h : Sound side s) (pl : Shared) :
    Sound side { s with orders := (OrderedSet.erase (Less side) pl s.priceLevels).1 } where
  sorted := h.sorted.erase
  distinct := h.distinct.sublist ((erase_sublist pl s.priceLevels).map _)
  levels_made x hx := h.levels_made x ((erase_sublist pl s.priceLevels).subset hx)
  snapshot_made := h.snapshot_made
  handed_made := h.handed_made

theorem Sound.write (h : Sound side s) (object : ℕ) (size : Double) :
    Sound side (s.write object size) where
  sorted := List.pairwise_map.mpr (h.sorted.imp fun hab => by simpa using hab)
  distinct := by
    have hobjects : (s.write object size).priceLevels.map Shared.object =
        s.priceLevels.map Shared.object := by
      simp [SortedPriceLevelSet.write, SortedPriceLevelSet.priceLevels]
    rw [hobjects]
    exact h.distinct
  levels_made := by
    simpa [SortedPriceLevelSet.write, SortedPriceLevelSet.priceLevels] using h.levels_made
  snapshot_made := by
    simpa [SortedPriceLevelSet.write] using h.snapshot_made
  handed_made := by
    simpa [SortedPriceLevelSet.write] using h.handed_made

theorem Sound.resize (h : Sound side s) (existing : Shared) (size : Double) :
    Sound side (s.resize side existing size) := by
  have hsized := ((h.erase existing).write existing.object size).numbered
  have hlevels : ∀ x ∈ ({ s with
      orders := (OrderedSet.erase (Less side) existing s.priceLevels).1
        }.write existing.object size).priceLevels,
      ¬ x.position = existing.position ∧ x.object < s.created := by
    intro x hx
    obtain ⟨y, hy, rfl⟩ := List.mem_map.mp hx
    obtain ⟨hy, hne⟩ := (mem_erase h.sorted).mp hy
    rw [equivalent_iff] at hne
    refine ⟨fun heq => hne ?_, ?_⟩
    · rw [← heq]
      unfold Shared.written
      split <;> rfl
    · rw [object_written]
      exact h.levels_made y hy
  refine hsized.insert ⟨s.created, existing.level.setSize size⟩ ?_ ?_
    (Nat.lt_succ_self _)
  · intro x hx heq
    exact (hlevels x hx).1 ((equivalent_iff side _ _).mp heq).symm
  · intro x hx
    exact (hlevels x hx).2.ne

theorem Sound.moved (h : Sound side s) {pl : PriceLevel} {t : SortedPriceLevelSet}
    (hm : Moved side s pl t) : Sound side t := by
  cases hm with
  | resized existing size hmem => exact (h.numbered.resize existing size).mark existing
  | added hfree =>
    refine Sound.mark (h.numbered.insert _ (find_none h.sorted hfree) ?_ (Nat.lt_succ_self _)) _
    exact fun x hx => (h.levels_made x hx).ne
  | removed existing hmem => exact (h.numbered.erase existing).mark existing
  | missed => exact h.numbered

/-- What a clearing leaves. -/
theorem cleared_of_clearBySource {source : Int32} {t : SortedPriceLevelSet}
    (ht : s.clearBySource source = some t) :
    ∃ priceLevels, SortedOrderSets.clearLoop
        (fun pl : Shared => some (pl.level.eventSource == source)) s.priceLevels =
          some priceLevels ∧
      t = { s with
        orders := priceLevels
        isChanged := priceLevels.length != s.priceLevels.length } := by
  obtain ⟨cleared, hcleared, rfl⟩ := Option.map_eq_some_iff.mp ht
  obtain ⟨priceLevels, hloop, rfl⟩ := Option.map_eq_some_iff.mp hcleared
  exact ⟨priceLevels, hloop, rfl⟩

theorem Sound.clearBySource (h : Sound side s) {source : Int32} {t : SortedPriceLevelSet}
    (ht : s.clearBySource source = some t) : Sound side t := by
  obtain ⟨priceLevels, hloop, rfl⟩ := cleared_of_clearBySource ht
  have hsub := SortedOrderSets.clearLoop_sublist hloop
  exact ⟨h.sorted.sublist hsub, h.distinct.sublist (hsub.map _),
    fun pl hpl => h.levels_made pl (hsub.subset hpl), h.snapshot_made, h.handed_made⟩

theorem setDepthLimit_keeps (s : SortedPriceLevelSet) (depthLimit : UInt64) :
    (s.setDepthLimit depthLimit).priceLevels = s.priceLevels ∧
      (s.setDepthLimit depthLimit).snapshot = s.snapshot ∧
      (s.setDepthLimit depthLimit).depthLimit = depthLimit :=
  SortedOrderSets.setDepthLimit_keeps s.toSortedOrderSet depthLimit

theorem Sound.setDepthLimit (h : Sound side s) (depthLimit : UInt64) :
    Sound side (s.setDepthLimit depthLimit) := by
  obtain ⟨hlevels, hsnapshot, -⟩ := setDepthLimit_keeps s depthLimit
  exact ⟨hlevels ▸ h.sorted, hlevels ▸ h.distinct, hlevels ▸ h.levels_made,
    hsnapshot ▸ h.snapshot_made, h.handed_made⟩

theorem top_subset (s : SortedPriceLevelSet) : s.top ⊆ s.orders := by
  unfold SortedOrderSet.top
  split
  · exact fun pl hpl => hpl
  · exact List.take_subset _ _

theorem Sound.updateSnapshot (h : Sound side s) : Sound side s.updateSnapshot :=
  ⟨h.sorted, h.distinct, h.levels_made, fun pl hpl => h.levels_made pl (top_subset s hpl),
    h.handed_made⟩

theorem Sound.toVector (h : Sound side s) : Sound side s.toVector.2 := by
  have hread : Sound side (if s.isChanged then s.updateSnapshot else s) := by
    split
    · exact h.updateSnapshot
    · exact h
  refine ⟨hread.sorted, hread.distinct, hread.levels_made, hread.snapshot_made, ?_⟩
  intro v hv
  rcases List.mem_append.mp hv with hv | hv
  · exact hread.handed_made v hv
  · rw [List.mem_singleton.mp hv]
    exact hread.snapshot_made

/-- Step lemma. -/
theorem Sound.step (h : Sound side s) {op : Operation} {t : SortedPriceLevelSet}
    (ht : PriceLevelSets.step side arithmetic s op = some t) : Sound side t := by
  cases op with
  | insertOrIncrease pl =>
    cases ht
    exact h.moved (moved_insertOrIncrease h pl)
  | eraseOrDecrease pl =>
    cases ht
    exact h.moved (moved_eraseOrDecrease h pl)
  | clearBySource source => exact h.clearBySource ht
  | setDepthLimit depthLimit =>
    cases ht
    exact h.setDepthLimit depthLimit
  | toVector =>
    cases ht
    exact h.toVector

/-! ## What a listener keeps -/

/-- Where a listener finds a level: in one of its vectors, at a position. -/
def SortedPriceLevelSet.kept (s : SortedPriceLevelSet) (call place : ℕ) : Option Shared :=
  s.handed[call]?.bind fun v => v[place]?

/-- An operation writes to one object at most, which then is in the set no longer. -/
structure Writes (s t : SortedPriceLevelSet) (object : ℕ) (size : Double) : Prop where
  handed : ∃ more, t.handed = s.handed.map (fun v => v.map fun pl => pl.written object size) ++ more
  created : s.created ≤ t.created
  gone : ∀ pl ∈ t.priceLevels, pl.object ≠ object
  held : ∀ pl ∈ t.priceLevels, pl.object < s.created → ∃ x ∈ s.priceLevels, x.object = pl.object
  made : object < s.created → ∃ x ∈ s.priceLevels, x.object = object

/-- Nothing is written: the object has not been made yet. -/
theorem writes_nothing (h : Sound side s) {t : SortedPriceLevelSet}
    (hhanded : ∃ more, t.handed = s.handed ++ more) (hcreated : s.created ≤ t.created)
    (hmade : ∀ pl ∈ t.priceLevels, pl.object < t.created)
    (hheld : ∀ pl ∈ t.priceLevels, pl.object < s.created →
      ∃ x ∈ s.priceLevels, x.object = pl.object) : ∃ object size, Writes s t object size := by
  refine ⟨t.created, .nan, ?_, hcreated, fun pl hpl => (hmade pl hpl).ne, hheld,
    fun hlt => absurd hlt (Nat.not_lt.mpr hcreated)⟩
  obtain ⟨more, hmore⟩ := hhanded
  refine ⟨more, ?_⟩
  rw [hmore]
  refine congrArg (· ++ more) ?_
  conv_lhs => rw [← List.map_id s.handed]
  refine List.map_congr_left fun v hv => (map_written_of_ne (fun pl hpl => ?_) .nan).symm
  exact ((h.handed_made v hv pl hpl).trans_le hcreated).ne

theorem writes_moved (h : Sound side s) {pl : PriceLevel} {t : SortedPriceLevelSet}
    (hm : Moved side s pl t) : ∃ object size, Writes s t object size := by
  have ht := h.moved hm
  cases hm with
  | resized existing size hmem =>
    obtain ⟨hlevels, -, hhanded, hcreated, -⟩ :=
      mark_keeps (s.numbered.resize side existing size) side existing
    have hpriceLevels := h.numbered.resize_priceLevels hmem size
    have hmember : ∀ pl ∈ ((s.numbered.resize side existing size).markAsChangedIfNeeded side
        existing).priceLevels, pl.object = s.created + 1 ∨
          pl ∈ (erase (Less side) existing s.priceLevels).1 := by
      intro pl hpl
      rw [hlevels, hpriceLevels] at hpl
      rcases mem_of_mem_insert hpl with rfl | hpl
      · exact Or.inl rfl
      · exact Or.inr hpl
    refine ⟨existing.object, size, ⟨[], ?_⟩, ?_, fun pl hpl => ?_, fun pl hpl hlt => ?_,
      fun _ => ⟨existing, hmem, rfl⟩⟩
    · rw [hhanded, List.append_nil]
      rfl
    · rw [hcreated]
      exact Nat.le_add_right s.created 2
    · rcases hmember pl hpl with hnew | hold
      · have := h.levels_made existing hmem
        omega
      · exact h.object_ne_of_mem_erase hmem hold
    · rcases hmember pl hpl with hnew | hold
      · omega
      · exact ⟨pl, (erase_sublist existing s.priceLevels).subset hold, rfl⟩
  | added hfree =>
    obtain ⟨hlevels, -, hhanded, hcreated, -⟩ := mark_keeps
      { s.numbered with
        orders := (insert (Less side) ⟨s.created, pl⟩ s.priceLevels).1 } side ⟨s.created, pl⟩
    refine writes_nothing h ⟨[], ?_⟩ ?_ ht.levels_made fun x hx hlt => ?_
    · rw [hhanded, List.append_nil]
      rfl
    · rw [hcreated]
      exact Nat.le_succ s.created
    · rw [hlevels] at hx
      rcases mem_of_mem_insert hx with rfl | hx
      · exact absurd hlt (lt_irrefl _)
      · exact ⟨x, hx, rfl⟩
  | removed existing hmem =>
    obtain ⟨hlevels, -, hhanded, hcreated, -⟩ := mark_keeps
      { s.numbered with
        orders := (erase (Less side) existing s.priceLevels).1 } side existing
    refine writes_nothing h ⟨[], ?_⟩ ?_ ht.levels_made fun x hx _ => ?_
    · rw [hhanded, List.append_nil]
      rfl
    · rw [hcreated]
      exact Nat.le_succ s.created
    · rw [hlevels] at hx
      exact ⟨x, (erase_sublist existing s.priceLevels).subset hx, rfl⟩
  | missed =>
    refine writes_nothing h ⟨[], (List.append_nil _).symm⟩ (Nat.le_succ _) ht.levels_made ?_
    exact fun x hx _ => ⟨x, hx, rfl⟩

theorem writes_step (h : Sound side s) {op : Operation} {t : SortedPriceLevelSet}
    (ht : step side arithmetic s op = some t) : ∃ object size, Writes s t object size := by
  have hsound := h.step ht
  cases op with
  | insertOrIncrease pl =>
    cases ht
    exact writes_moved h (moved_insertOrIncrease h pl)
  | eraseOrDecrease pl =>
    cases ht
    exact writes_moved h (moved_eraseOrDecrease h pl)
  | clearBySource source =>
    obtain ⟨priceLevels, hloop, rfl⟩ := cleared_of_clearBySource ht
    have hsub := (SortedOrderSets.clearLoop_sublist hloop).subset
    refine writes_nothing h ⟨[], (List.append_nil _).symm⟩ le_rfl hsound.levels_made ?_
    exact fun x hx _ => ⟨x, hsub hx, rfl⟩
  | setDepthLimit depthLimit =>
    have hsame : t.handed = s.handed ∧ t.created = s.created ∧ t.priceLevels = s.orders := by
      cases ht
      exact ⟨rfl, rfl, (setDepthLimit_keeps s depthLimit).1⟩
    obtain ⟨hhanded, hcreated, hlevels⟩ := hsame
    refine writes_nothing h ⟨[], ?_⟩ hcreated.ge hsound.levels_made fun x hx _ => ?_
    · rw [hhanded, List.append_nil]
    · rw [hlevels] at hx
      exact ⟨x, hx, rfl⟩
  | toVector =>
    have hsame : ∃ v, t.handed = s.handed ++ [v] ∧ t.created = s.created ∧
        t.priceLevels = s.orders := by
      cases ht
      unfold SortedPriceLevelSet.toVector
      split <;> exact ⟨_, rfl, rfl, rfl⟩
    obtain ⟨v, hhanded, hcreated, hlevels⟩ := hsame
    refine writes_nothing h ⟨[v], hhanded⟩ hcreated.ge hsound.levels_made fun x hx _ => ?_
    rw [hlevels] at hx
    exact ⟨x, hx, rfl⟩

theorem kept_of_writes {t : SortedPriceLevelSet} {object : ℕ} {size : Double}
    (h : Writes s t object size) {call place : ℕ} {pl : Shared}
    (hkept : s.kept call place = some pl) :
    t.kept call place = some (pl.written object size) := by
  obtain ⟨more, hmore⟩ := h.handed
  obtain ⟨v, hv, hpl⟩ := Option.bind_eq_some_iff.mp hkept
  have hcall : call < (s.handed.map fun v => v.map fun pl => pl.written object size).length := by
    rw [List.length_map]
    exact (List.getElem?_eq_some_iff.mp hv).1
  unfold SortedPriceLevelSet.kept
  rw [hmore, List.getElem?_append_left hcall, List.getElem?_map, hv]
  simp [hpl]

/-- The object of a level that the set has no more. -/
def Frozen (s : SortedPriceLevelSet) (object : ℕ) : Prop :=
  object < s.created ∧ ∀ pl ∈ s.priceLevels, pl.object ≠ object

theorem frozen_of_writes {t : SortedPriceLevelSet} {object : ℕ} {size : Double}
    (h : Writes s t object size) {other : ℕ} (hfrozen : Frozen s other) :
    Frozen t other ∧ other ≠ object := by
  refine ⟨⟨hfrozen.1.trans_le h.created, fun pl hpl heq => ?_⟩, fun heq => ?_⟩
  · obtain ⟨x, hx, hobject⟩ := h.held pl hpl (heq ▸ hfrozen.1)
    exact hfrozen.2 x hx (hobject.trans heq)
  · obtain ⟨x, hx, hobject⟩ := h.made (heq ▸ hfrozen.1)
    exact hfrozen.2 x hx (hobject.trans heq.symm)

theorem kept_of_frozen (h : Sound side s) {ops : List Operation} {t : SortedPriceLevelSet}
    (hrun : run (step side arithmetic) s ops = some t) {call place : ℕ} {pl : Shared}
    (hkept : s.kept call place = some pl) (hfrozen : Frozen s pl.object) :
    t.kept call place = some pl := by
  induction ops generalizing s with
  | nil =>
    cases hrun
    exact hkept
  | cons op ops ih =>
    obtain ⟨u, hu, hrest⟩ := Option.bind_eq_some_iff.mp hrun
    obtain ⟨object, size, hwrites⟩ := writes_step h hu
    obtain ⟨hfrozen', hne⟩ := frozen_of_writes hwrites hfrozen
    have hkept' := kept_of_writes hwrites hkept
    rw [written_of_ne hne] at hkept'
    exact ih (h.step hu) hrest hkept' hfrozen'

end Sets

/-- What a listener was handed changes under its hands, but each level in it once at most: with
the step that changes its size the level leaves the set, and no later step reaches it. -/
theorem kept_level_changes_once (side : BookSide) (arithmetic : Arithmetic)
    (before after : List Operation) (op : Operation) (s t u : SortedPriceLevelSet)
    (hs : run (step side arithmetic) {} before = some s)
    (ht : step side arithmetic s op = some t)
    (hu : run (step side arithmetic) t after = some u)
    (call place : ℕ) (pl : Shared) (hkept : s.kept call place = some pl) :
    ∃ size, t.kept call place = some (pl.setSize size) ∧
      (pl.setSize size ≠ pl → Frozen t pl.object ∧ u.kept call place = some (pl.setSize size)) := by
  have hsound : Sound side s :=
    run_invariant (fun _ _ _ hs hstep => Sound.step hs hstep) (sound_empty side) hs
  obtain ⟨object, size, hwrites⟩ := writes_step hsound ht
  have hkept' := kept_of_writes hwrites hkept
  by_cases hobject : pl.object = object
  · have hwritten : pl.written object size = pl.setSize size := if_pos hobject
    rw [hwritten] at hkept'
    have hmade : pl.object < s.created := by
      obtain ⟨v, hv, hpl⟩ := Option.bind_eq_some_iff.mp hkept
      exact hsound.handed_made v (List.mem_of_getElem? hv) pl (List.mem_of_getElem? hpl)
    have hfrozen : Frozen t pl.object :=
      ⟨hmade.trans_le hwrites.created, fun x hx => hobject ▸ hwrites.gone x hx⟩
    refine ⟨size, hkept', fun _ => ⟨hfrozen, ?_⟩⟩
    exact kept_of_frozen (hsound.step ht) hu hkept' hfrozen
  · rw [written_of_ne hobject] at hkept'
    exact ⟨pl.level.size, hkept', fun hne => absurd rfl hne⟩

def buyLevel (price size : ℚ) : PriceLevel where
  eventSource := 0
  side := .BUY
  price := .finite price
  size := .finite size
  price_isNumber := by simp

/-- A level that was handed over grows twice, but the vector sees the first time only. -/
theorem kept_level_grows_once :
    ∃ s t u,
      run (step .buy unroundedArithmetic) {} [.insertOrIncrease (buyLevel 100 10), .toVector] =
        some s ∧
      step .buy unroundedArithmetic s (.insertOrIncrease (buyLevel 100 5)) = some t ∧
      run (step .buy unroundedArithmetic) t [.insertOrIncrease (buyLevel 100 7), .toVector] =
        some u ∧
      ∃ size, t.kept 0 0 = some (Shared.setSize ⟨0, buyLevel 100 10⟩ size) ∧
        (Shared.setSize ⟨0, buyLevel 100 10⟩ size ≠ ⟨0, buyLevel 100 10⟩ →
          Frozen t 0 ∧ u.kept 0 0 = some (Shared.setSize ⟨0, buyLevel 100 10⟩ size)) :=
  ⟨_, _, _, rfl, rfl, rfl, kept_level_changes_once .buy unroundedArithmetic
    [.insertOrIncrease (buyLevel 100 10), .toVector] [.insertOrIncrease (buyLevel 100 7), .toVector]
    (.insertOrIncrease (buyLevel 100 5)) _ _ _ rfl rfl rfl 0 0 ⟨0, buyLevel 100 10⟩ rfl⟩

end PriceLevelSets
