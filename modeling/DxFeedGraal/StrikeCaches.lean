import DxFeedGraal.OptionSeriesOrders
import Mathlib.Logic.Function.Basic

/-! # Cached strikes of option series

A series lists the strikes of its calls and puts when it is asked for them and keeps the list
until an option goes in at a new strike. Copies of a series take the list along. -/
namespace OptionChains

open DoubleValues OrderedSet PartialRuns

variable {π : Type*}

namespace OptionSeries

/-! ## The source -/

def insertStrike (strikesSet : List Double) (strike : Double) : List Double :=
  (OrderedSet.insert Double.less strike strikesSet).1

/-- The list, and the series with its cache filled. -/
def getStrikes (s : OptionSeries π) : List Double × OptionSeries π :=
  if s.strikes = [] then
    let strikesSet := (s.calls.map Prod.fst).foldl insertStrike []
    let strikesSet := (s.puts.map Prod.fst).foldl insertStrike strikesSet
    (strikesSet, { s with strikes := strikesSet })
  else (s.strikes, s)

/-- `std::lower_bound`, as the distance from the first element. -/
def lowerBound (l : List Double) (strike : Double) : ℕ :=
  (l.takeWhile fun element => element.less strike).length

def fromIndex (index n : UInt64) : UInt64 := if index < n / 2 then 0 else index - n / 2

/-- A copy of a range of a vector; iterators outside of it or out of order make none. -/
def range (l : List Double) (first last : UInt64) : Option (List Double) :=
  if first ≤ last ∧ last.toNat ≤ l.length then
    some ((l.take last.toNat).drop first.toNat)
  else none

def getNStrikesAround (s : OptionSeries π) (n : UInt64) (strike : Double) :
    Option (List Double) × OptionSeries π :=
  let (strikesVector, s) := s.getStrikes
  let index : UInt64 := .ofNat (lowerBound strikesVector strike)
  let fromIndex := fromIndex index n
  let toIndex := min (.ofNat strikesVector.length) (fromIndex + n)
  (range strikesVector fromIndex toIndex, s)

end OptionSeries

/-- Calls on the objects of a program. Moved-from series are not among them. -/
inductive StrikeCall (π : Type*) where
  | addOption (object : ℕ) (isCall : Bool) (strike : Double) (option : π)
  | getStrikes (object : ℕ)
  | getNStrikesAround (object : ℕ) (n : UInt64) (strike : Double)
  | copy (source target : ℕ)

abbrev Objects (π : Type*) := ℕ → OptionSeries π

namespace StrikeCall

/-- The object that a call may change. -/
def target : StrikeCall π → ℕ
  | .addOption object _ _ _ | .getStrikes object | .getNStrikesAround object _ _ => object
  | .copy _ target => target

def result (objects : Objects π) : StrikeCall π → OptionSeries π
  | .addOption object isCall strike option => (objects object).addOption isCall strike option
  | .getStrikes object => (objects object).getStrikes.2
  | .getNStrikesAround object n strike => ((objects object).getNStrikesAround n strike).2
  | .copy source _ => objects source

def apply (objects : Objects π) (call : StrikeCall π) : Objects π :=
  Function.update objects call.target (call.result objects)

end StrikeCall

namespace OptionSeries

/-! ## What is asked of the strikes -/

/-- The capacity of a vector of doubles. -/
def maxSize : ℕ := 2 ^ 60 - 1

def strikesOf (s : OptionSeries π) : List Double := s.calls.map Prod.fst ++ s.puts.map Prod.fst

/-- A block that begins at `first` and holds the first strike not below the centre. -/
structure Window (strikes : List Double) (n : UInt64) (centre : Double) (first : ℕ)
    (block : List Double) : Prop where
  contiguous : block <+: strikes.drop first
  inside : first ≤ strikes.length
  length_le : block.length ≤ n.toNat
  centred : 1 ≤ n.toNat → ∀ pre strike post, strikes = pre ++ strike :: post →
    (∀ below ∈ pre, below.less centre = true) → strike.less centre = false →
      first ≤ pre.length ∧ pre.length < first + block.length
  full : first + n.toNat ≤ strikes.length → block.length = n.toNat

structure Lawful (s : OptionSeries π) : Prop where
  ascending : Sorted Double.less s.getStrikes.1
  from_options : ∀ strike ∈ s.getStrikes.1, strike ∈ s.strikesOf
  /-- The two zeros are one strike. -/
  all_strikes : ∀ strike ∈ s.strikesOf, ∃ listed ∈ s.getStrikes.1, listed.rank = strike.rank
  window : s.getStrikes.1.length ≤ maxSize → ∀ n centre, ∃ first : UInt64, ∃ block,
    first.toNat + n.toNat < 2 ^ 64 ∧ (s.getNStrikesAround n centre).1 = some block ∧
      Window s.getStrikes.1 n centre first.toNat block

/-! ## Strikes that can be ordered -/

/-- Numbers only, or values only that are no numbers. -/
def Uniform (l : List Double) : Prop := ∀ a ∈ l, ∀ b ∈ l, a.isNaN = b.isNaN

theorem Uniform.subset {k l : List Double} (h : Uniform l) (hsub : k ⊆ l) : Uniform k :=
  fun a ha b hb => h a (hsub ha) b (hsub hb)

theorem Uniform.followsOn {l : List Double} (h : Uniform l) :
    FollowsOn Double.less Double.rank l := fun a ha b hb => less_iff_rank (h a ha b hb)

/-- A number does not go in where the first element is none, nor the other way round. -/
theorem insert_refused {x y : Double} {ys : List Double} (h : y.isNaN ≠ x.isNaN) :
    OrderedSet.insert Double.less x (y :: ys) = (y :: ys, false) := by
  have hyx : y.less x = false := by
    unfold Double.less
    cases hy : y.isNaN <;> cases hx : x.isNaN <;> simp_all
  have hxy : x.less y = false := by
    unfold Double.less
    cases hy : y.isNaN <;> cases hx : x.isNaN <;> simp_all
  simp [OrderedSet.insert, hyx, hxy]

/-- The ascending list of some strikes. -/
structure Lists (l strikes : List Double) : Prop where
  ascending : Sorted Double.less l
  subset : l ⊆ strikes
  ranks : ∀ r, r ∈ l.map Double.rank ↔ r ∈ strikes.map Double.rank

theorem lists_nil : Lists [] [] := ⟨List.Pairwise.nil, List.Subset.refl _, fun _ => Iff.rfl⟩

theorem Lists.insertStrike {l strikes : List Double} (h : Lists l strikes) {strike : Double}
    (huniform : Uniform (strikes ++ [strike])) :
    Lists (insertStrike l strike) (strikes ++ [strike]) := by
  have hsub : strike :: l ⊆ strikes ++ [strike] := by
    intro e he
    rcases List.mem_cons.mp he with rfl | he
    · simp
    · exact List.mem_append_left _ (h.subset he)
  have hfollows := (huniform.subset hsub).followsOn
  refine ⟨h.ascending.insert_on hfollows.strictWeakOn, ?_, ?_⟩
  · intro e he
    exact hsub (List.mem_cons.mpr (mem_of_mem_insert he))
  · intro r
    rw [OptionSeries.insertStrike, keys_insert hfollows, h.ranks, List.map_append, List.mem_append]
    simp [or_comm]

theorem Lists.foldl {l strikes : List Double} (h : Lists l strikes) {more : List Double}
    (huniform : Uniform (strikes ++ more)) :
    Lists (more.foldl OptionSeries.insertStrike l) (strikes ++ more) := by
  induction more generalizing l strikes with
  | nil => simpa using h
  | cons strike more ih =>
    rw [List.append_cons] at huniform ⊢
    exact ih (h.insertStrike (huniform.subset (List.subset_append_left _ _))) huniform

/-- What the cache holds once it is filled. -/
def union (s : OptionSeries π) : List Double := s.strikesOf.foldl insertStrike []

theorem lists_union {s : OptionSeries π} (h : Uniform s.strikesOf) :
    Lists s.union s.strikesOf := lists_nil.foldl h

theorem foldl_refused {l strikes : List Double} (hne : l ≠ [])
    (h : ∀ a ∈ l, ∀ b ∈ strikes, a.isNaN ≠ b.isNaN) : strikes.foldl insertStrike l = l := by
  obtain ⟨y, ys, rfl⟩ := List.exists_cons_of_ne_nil hne
  induction strikes with
  | nil => rfl
  | cons strike strikes ih =>
    have hrefused : OrderedSet.insert Double.less strike (y :: ys) = (y :: ys, false) :=
      insert_refused (h y List.mem_cons_self strike List.mem_cons_self)
    rw [List.foldl_cons, insertStrike, hrefused]
    exact ih fun a ha b hb => h a ha b (List.mem_cons_of_mem strike hb)

/-! ## The cache along a run -/

def strikesAt (s : OptionSeries π) (side : Bool) : List Double := (s.options side).map Prod.fst

theorem strikesOf_eq (s : OptionSeries π) : s.strikesOf = s.strikesAt true ++ s.strikesAt false :=
  rfl

structure Kept (s : OptionSeries π) : Prop where
  uniform : ∀ side, Uniform (s.strikesAt side)
  cache : s.strikes = [] ∨ s.strikes = s.union

theorem Kept.getStrikes_list {s : OptionSeries π} (h : Kept s) : s.getStrikes.1 = s.union := by
  have hunion : s.union = (s.puts.map Prod.fst).foldl insertStrike
      ((s.calls.map Prod.fst).foldl insertStrike []) := List.foldl_append
  unfold getStrikes
  split
  next hempty => exact hunion.symm
  next hfull => exact h.cache.resolve_left hfull

theorem Kept.getStrikes {s : OptionSeries π} (h : Kept s) : Kept s.getStrikes.2 := by
  have hlist := h.getStrikes_list
  unfold OptionSeries.getStrikes at hlist ⊢
  split
  next hempty =>
    rw [if_pos hempty] at hlist
    exact ⟨h.uniform, Or.inr hlist⟩
  next hfull => exact h

theorem strikesAt_getStrikes (s : OptionSeries π) (side : Bool) :
    s.getStrikes.2.strikesAt side = s.strikesAt side := by
  unfold OptionSeries.getStrikes
  split <;> rfl

theorem insert_strikesAt (s : OptionSeries π) (isCall : Bool) (strike : Double) (option : π) :
    OrderedSet.insert Double.less strike (s.strikesAt isCall) =
      ((OrderedSet.insert strikeLess (strike, option) (s.options isCall)).1.map Prod.fst,
        (OrderedSet.insert strikeLess (strike, option) (s.options isCall)).2) :=
  @insert_map _ Double.less _ Prod.fst (strike, option) (s.options isCall)

/-- A side takes a strike as an ordered set of strikes does. -/
theorem strikesAt_addOption (s : OptionSeries π) (isCall : Bool) (strike : Double) (option : π)
    (side : Bool) : (s.addOption isCall strike option).strikesAt side =
      if side = isCall then (OrderedSet.insert Double.less strike (s.strikesAt isCall)).1
      else s.strikesAt side := by
  rw [insert_strikesAt s isCall strike option, strikesAt, options_addOption]
  split <;> rfl

/-- The cache stays where the strike was there before. -/
theorem strikes_addOption (s : OptionSeries π) (isCall : Bool) (strike : Double) (option : π) :
    (s.addOption isCall strike option).strikes =
      if (OrderedSet.insert Double.less strike (s.strikesAt isCall)).2 then [] else s.strikes := by
  rw [insert_strikesAt s isCall strike option]
  unfold OptionSeries.addOption
  generalize OrderedSet.insert strikeLess (strike, option) (s.options isCall) = emplaced
  obtain ⟨l, added⟩ := emplaced
  cases isCall <;> cases added <;> rfl

theorem Uniform.insert {l : List Double} (h : Uniform l) (strike : Double) :
    Uniform (OrderedSet.insert Double.less strike l).1 := by
  cases l with
  | nil =>
    intro a ha b hb
    rw [List.mem_singleton.mp ha, List.mem_singleton.mp hb]
  | cons y ys =>
    by_cases hsame : y.isNaN = strike.isNaN
    · have hall : ∀ a ∈ (OrderedSet.insert Double.less strike (y :: ys)).1, a.isNaN = y.isNaN := by
        intro a ha
        rcases mem_of_mem_insert ha with rfl | ha
        · exact hsame.symm
        · exact h a ha y List.mem_cons_self
      exact fun a ha b hb => (hall a ha).trans (hall b hb).symm
    · rw [insert_refused hsame]
      exact h

theorem Kept.addOption {s : OptionSeries π} (h : Kept s) (isCall : Bool) (strike : Double)
    (option : π) : Kept (s.addOption isCall strike option) := by
  have hsides := strikesAt_addOption s isCall strike option
  have hcache := strikes_addOption s isCall strike option
  constructor
  · intro side
    rw [hsides]
    split
    · exact (h.uniform isCall).insert strike
    · exact h.uniform side
  · cases hadded : (OrderedSet.insert Double.less strike (s.strikesAt isCall)).2 with
    | true =>
      rw [hadded] at hcache
      exact Or.inl hcache
    | false =>
      rw [hadded] at hcache
      have hsame : ∀ side,
          (s.addOption isCall strike option).strikesAt side = s.strikesAt side := by
        intro side
        rw [hsides, insert_not_added hadded]
        split
        next hside => rw [hside]
        next => rfl
      have hunion : (s.addOption isCall strike option).union = s.union := by
        rw [union, strikesOf_eq, hsame, hsame, ← strikesOf_eq, union]
      rw [hcache, hunion]
      exact h.cache

/-! ## The law -/

theorem lowerBound_le (l : List Double) (centre : Double) : lowerBound l centre ≤ l.length :=
  (List.takeWhile_sublist _).length_le

theorem lowerBound_append {pre post : List Double} {strike centre : Double}
    (hpre : ∀ below ∈ pre, below.less centre = true) (hstrike : strike.less centre = false) :
    lowerBound (pre ++ strike :: post) centre = pre.length := by
  unfold lowerBound
  rw [List.takeWhile_append_of_pos hpre]
  simp [hstrike]

/-- The unsigned halving and the branch make a subtraction that stops at zero. -/
theorem toNat_fromIndex {index : ℕ} (h : index < 2 ^ 64) (n : UInt64) :
    (fromIndex (.ofNat index) n).toNat = index - n.toNat / 2 := by
  have hindex : (UInt64.ofNat index).toNat = index := UInt64.toNat_ofNat_of_lt' h
  have hhalf : (n / 2).toNat = n.toNat / 2 := rfl
  unfold fromIndex
  split
  next hlt =>
    rw [UInt64.lt_iff_toNat_lt, hindex, hhalf] at hlt
    change 0 = _
    omega
  next hge =>
    rw [UInt64.lt_iff_toNat_lt, hindex, hhalf] at hge
    rw [UInt64.toNat_sub_of_le, hindex, hhalf]
    rw [UInt64.le_iff_toNat_le, hindex, hhalf]
    omega

theorem toNat_min (a b : UInt64) : (min a b).toNat = min a.toNat b.toNat := by
  change (if a ≤ b then a else b).toNat = _
  split
  next h =>
    rw [UInt64.le_iff_toNat_le] at h
    exact (min_eq_left h).symm
  next h =>
    rw [UInt64.le_iff_toNat_le, not_le] at h
    exact (min_eq_right h.le).symm

theorem window {l : List Double} (h : l.length ≤ maxSize) (n : UInt64) (centre : Double) :
    ∃ first : UInt64, ∃ block, first = fromIndex (.ofNat (lowerBound l centre)) n ∧
      first.toNat + n.toNat < 2 ^ 64 ∧
      range l first (min (.ofNat l.length) (first + n)) = some block ∧
      Window l n centre first.toNat block := by
  have hindex := lowerBound_le l centre
  have hn := n.toNat_lt
  unfold maxSize at h
  obtain ⟨first, hfirst⟩ : ∃ first, first = fromIndex (.ofNat (lowerBound l centre)) n := ⟨_, rfl⟩
  have hstart : first.toNat = lowerBound l centre - n.toNat / 2 := by
    rw [hfirst, toNat_fromIndex (by omega)]
  have hfits : first.toNat + n.toNat < 2 ^ 64 := by omega
  have hlast : (min (UInt64.ofNat l.length) (first + n)).toNat =
      min l.length (first.toNat + n.toNat) := by
    have hsize : l.length < 2 ^ 64 := by omega
    rw [toNat_min, UInt64.toNat_ofNat_of_lt' hsize, UInt64.toNat_add, Nat.mod_eq_of_lt hfits]
  refine ⟨first, (l.take (min l.length (first.toNat + n.toNat))).drop first.toNat, hfirst, hfits,
    ?_, ?_⟩
  · unfold range
    rw [if_pos ⟨by rw [UInt64.le_iff_toNat_le, hlast]; omega, by omega⟩, hlast]
  · have hlength : ((l.take (min l.length (first.toNat + n.toNat))).drop first.toNat).length =
        min l.length (first.toNat + n.toNat) - first.toNat := by
      rw [List.length_drop, List.length_take]
      omega
    refine ⟨?_, by omega, by omega, ?_, by omega⟩
    · rw [List.drop_take]
      exact List.take_prefix _ _
    · intro hpos pre strike post hl hpre hstrike
      rw [hlength]
      rw [hl, lowerBound_append hpre hstrike] at hstart
      have hinside : pre.length < l.length := by
        rw [hl, List.length_append, List.length_cons]
        omega
      omega

/-- A side of numbers and a side without them leave one of the two out. -/
theorem uniform_of_union {s : OptionSeries π} (h : Kept s)
    (hranks : ∀ strike ∈ s.strikesOf, ∃ listed ∈ s.union, listed.rank = strike.rank) :
    Uniform s.strikesOf := by
  have hcalls : Lists ((s.strikesAt true).foldl insertStrike []) ([] ++ s.strikesAt true) :=
    lists_nil.foldl (h.uniform true)
  have hunion : s.union = (s.strikesAt false).foldl insertStrike
      ((s.strikesAt true).foldl insertStrike []) := List.foldl_append
  rw [List.nil_append] at hcalls
  -- A call and a put of different kinds: the put is refused.
  have hacross : ∀ a ∈ s.strikesAt true, ∀ b ∈ s.strikesAt false, a.isNaN = b.isNaN := by
    intro a ha b hb
    by_contra hne
    have hdiffer : ∀ c ∈ (s.strikesAt true).foldl insertStrike [], ∀ d ∈ s.strikesAt false,
        c.isNaN ≠ d.isNaN := by
      intro c hc d hd heq
      have hca := h.uniform true c (hcalls.subset hc) a ha
      have hdb := h.uniform false d hd b hb
      exact hne (hca.symm.trans (heq.trans hdb))
    have hne' : (s.strikesAt true).foldl insertStrike [] ≠ [] := by
      intro hnil
      have hrank := (hcalls.ranks a.rank).mpr (List.mem_map_of_mem ha)
      rw [hnil] at hrank
      exact List.not_mem_nil hrank
    obtain ⟨e, he, hrank⟩ := hranks b (by rw [strikesOf_eq]; exact List.mem_append_right _ hb)
    rw [hunion, foldl_refused hne' hdiffer] at he
    exact hdiffer e he b hb (isNaN_of_rank_eq hrank)
  intro a ha b hb
  rw [strikesOf_eq] at ha hb
  rcases List.mem_append.mp ha with ha | ha <;> rcases List.mem_append.mp hb with hb | hb
  · exact h.uniform true a ha b hb
  · exact hacross a ha b hb
  · exact (hacross b hb a ha).symm
  · exact h.uniform false a ha b hb

theorem Kept.lawful_iff {s : OptionSeries π} (h : Kept s) : Lawful s ↔ Uniform s.strikesOf := by
  constructor
  · intro hlaw
    have hall := hlaw.all_strikes
    rw [h.getStrikes_list] at hall
    exact uniform_of_union h hall
  · intro huniform
    have hlists := lists_union huniform
    rw [← h.getStrikes_list] at hlists
    refine ⟨hlists.ascending, hlists.subset, ?_, ?_⟩
    · intro strike hstrike
      exact List.mem_map.mp ((hlists.ranks strike.rank).mpr (List.mem_map_of_mem hstrike))
    · intro hsize n centre
      obtain ⟨first, block, hfirst, hfits, hrange, hwindow⟩ := window hsize n centre
      refine ⟨first, block, hfits, ?_, hwindow⟩
      rw [← hrange, hfirst]
      rfl

theorem mem_strikesOf {s : OptionSeries π} (isCall : Bool) {strike : Double} :
    strike ∈ s.strikesOf ↔ strike ∈ s.strikesAt isCall ∨ strike ∈ s.strikesAt (!isCall) := by
  rw [strikesOf_eq, List.mem_append]
  cases isCall with
  | true => exact Iff.rfl
  | false => exact or_comm

theorem uniform_iff {s : OptionSeries π} (h : ∀ side, Uniform (s.strikesAt side)) (isCall : Bool) :
    Uniform s.strikesOf ↔
      ∀ a ∈ s.strikesAt isCall, ∀ b ∈ s.strikesAt (!isCall), a.isNaN = b.isNaN := by
  constructor
  · intro huniform a ha b hb
    exact huniform a ((mem_strikesOf isCall).mpr (Or.inl ha)) b
      ((mem_strikesOf isCall).mpr (Or.inr hb))
  · intro hacross a ha b hb
    rcases (mem_strikesOf isCall).mp ha with ha | ha <;>
      rcases (mem_strikesOf isCall).mp hb with hb | hb
    · exact h isCall a ha b hb
    · exact hacross a ha b hb
    · exact (hacross b hb a ha).symm
    · exact h (!isCall) a ha b hb

/-- Only the first strike of a side can be of another kind than those of the other side. -/
theorem uniform_addOption_iff {s : OptionSeries π} (h : Kept s) (huniform : Uniform s.strikesOf)
    (isCall : Bool) (strike : Double) (option : π) :
    Uniform (s.addOption isCall strike option).strikesOf ↔
      (s.strikesAt isCall = [] → ∀ other ∈ s.strikesAt (!isCall), other.isNaN = strike.isNaN) := by
  have hthis := strikesAt_addOption s isCall strike option isCall
  have hother := strikesAt_addOption s isCall strike option (!isCall)
  rw [if_pos rfl] at hthis
  rw [if_neg (by simp)] at hother
  rw [uniform_iff (h.addOption isCall strike option).uniform isCall, hother]
  cases hside : s.strikesAt isCall with
  | nil =>
    rw [hside] at hthis
    rw [hthis]
    constructor
    · intro hacross _ other ho
      exact (hacross strike (List.mem_singleton.mpr rfl) other ho).symm
    · intro hmatch a ha other ho
      rw [List.mem_singleton.mp ha]
      exact (hmatch rfl other ho).symm
  | cons y ys =>
    refine ⟨fun _ hnil => absurd hnil (List.cons_ne_nil y ys), fun _ a ha b hb => ?_⟩
    have hy : y ∈ s.strikesAt isCall := by
      rw [hside]
      exact List.mem_cons_self
    have hay : a.isNaN = y.isNaN := (h.addOption isCall strike option).uniform isCall a ha y
      (by rw [hthis]; exact mem_insert_of_mem hy)
    exact hay.trans ((uniform_iff h.uniform isCall).mp huniform y hy b hb)

theorem strikesOf_getStrikes (s : OptionSeries π) : s.getStrikes.2.strikesOf = s.strikesOf := by
  rw [strikesOf_eq, strikesAt_getStrikes, strikesAt_getStrikes, ← strikesOf_eq]

end OptionSeries

/-! ## Runs -/

namespace StrikeCall

def step (objects : Objects π) (call : StrikeCall π) : Option (Objects π) :=
  some (call.apply objects)

/-- The first strike of one side is a number just where the strikes of the other side are. -/
def Matches (objects : Objects π) : StrikeCall π → Prop
  | .addOption object isCall strike _ => (objects object).strikesAt isCall = [] →
    ∀ other ∈ (objects object).strikesAt (!isCall), other.isNaN = strike.isNaN
  | _ => True

end StrikeCall

/-- Series without options, whatever their other fields are. -/
def Fresh (objects : Objects π) : Prop :=
  ∀ i, (objects i).calls = [] ∧ (objects i).puts = [] ∧ (objects i).strikes = []

/-- Caches are kept and no series mixes numbers with values that are none. -/
def Sound (objects : Objects π) : Prop :=
  ∀ i, (objects i).Kept ∧ OptionSeries.Uniform (objects i).strikesOf

theorem kept_result {objects : Objects π} (h : ∀ i, (objects i).Kept) (call : StrikeCall π) :
    (call.result objects).Kept := by
  cases call with
  | addOption object isCall strike option => exact (h object).addOption isCall strike option
  | getStrikes object => exact (h object).getStrikes
  | getNStrikesAround object n strike => exact (h object).getStrikes
  | copy source target => exact h source

theorem kept_apply {objects : Objects π} (h : ∀ i, (objects i).Kept) (call : StrikeCall π) (i : ℕ) :
    (call.apply objects i).Kept := by
  unfold StrikeCall.apply
  by_cases hi : i = call.target
  · rw [hi, Function.update_self]
    exact kept_result h call
  · rw [Function.update_of_ne hi]
    exact h i

theorem uniform_result_iff {objects : Objects π} (h : Sound objects) (call : StrikeCall π) :
    OptionSeries.Uniform (call.result objects).strikesOf ↔ call.Matches objects := by
  cases call with
  | addOption object isCall strike option =>
    exact OptionSeries.uniform_addOption_iff (h object).1 (h object).2 isCall strike option
  | getStrikes object =>
    change OptionSeries.Uniform (objects object).getStrikes.2.strikesOf ↔ True
    rw [OptionSeries.strikesOf_getStrikes]
    exact iff_true_intro (h object).2
  | getNStrikesAround object n strike =>
    change OptionSeries.Uniform (objects object).getStrikes.2.strikesOf ↔ True
    rw [OptionSeries.strikesOf_getStrikes]
    exact iff_true_intro (h object).2
  | copy source target => exact iff_true_intro (h source).2

theorem sound_apply_iff {objects : Objects π} (h : Sound objects) (call : StrikeCall π) :
    Sound (call.apply objects) ↔ call.Matches objects := by
  have hkept := kept_apply (fun i => (h i).1) call
  rw [← uniform_result_iff h call]
  unfold StrikeCall.apply at hkept ⊢
  constructor
  · intro hsound
    have htarget := (hsound call.target).2
    rwa [Function.update_self] at htarget
  · intro huniform i
    refine ⟨hkept i, ?_⟩
    by_cases hi : i = call.target
    · rw [hi, Function.update_self]
      exact huniform
    · rw [Function.update_of_ne hi]
      exact (h i).2

theorem sound_fresh {objects : Objects π} (h : Fresh objects) : Sound objects := by
  intro i
  obtain ⟨hcalls, hputs, hstrikes⟩ := h i
  have hside : ∀ side, (objects i).strikesAt side = [] := by
    intro side
    unfold OptionSeries.strikesAt OptionSeries.options
    cases side <;> simp [hcalls, hputs]
  refine ⟨⟨fun side => ?_, Or.inl hstrikes⟩, ?_⟩
  · rw [hside]
    exact fun a ha => (List.not_mem_nil ha).elim
  · rw [OptionSeries.strikesOf_eq, hside, hside]
    exact fun a ha => (List.not_mem_nil ha).elim

/-- In a run from series without options every list of strikes is in order and complete, and
every window is one, exactly when the first strikes of the two sides of a series match. -/
theorem strikes_lawful_iff {objects : Objects π} (h : Fresh objects) (calls : List (StrikeCall π)) :
    Always StrikeCall.step (fun objects => ∀ i, (objects i).Lawful) objects calls ↔
      Meets StrikeCall.step StrikeCall.Matches objects calls := by
  have hsound := sound_fresh h
  constructor
  · intro hlawful
    have hkept : Always StrikeCall.step
        (fun s : Objects π => (∀ i, (s i).Kept) ∧ ∀ i, (s i).Lawful) objects calls :=
      hlawful.and_invariant
        (fun s s' call hs hstep => Option.some.inj hstep ▸ kept_apply hs call)
        fun i => (hsound i).1
    have hall : Always StrikeCall.step Sound objects calls := hkept.imp fun s hs i =>
      ⟨hs.1 i, (hs.1 i).lawful_iff.mp (hs.2 i)⟩
    refine meets_of_always (fun s s' call hs hstep hs' => ?_) hall
    cases hstep
    exact (sound_apply_iff hs call).mp hs'
  · intro hmeets
    have hall : Always StrikeCall.step Sound objects calls :=
      always_of_meets (fun s call hs hcond =>
        ⟨call.apply s, rfl, (sound_apply_iff hs call).mpr hcond⟩) hsound hmeets
    exact hall.imp fun s hs i => (hs i).1.lawful_iff.mpr (hs i).2

theorem strikes_lawful_copies :
    Always StrikeCall.step (fun objects => ∀ i, (objects i).Lawful)
      (fun _ => {} : Objects Unit)
      [.addOption 0 true (.finite 100) (), .getStrikes 0, .copy 0 1,
        .addOption 1 false (.finite 90) (), .getNStrikesAround 1 3 (.finite 95)] := by
  apply (strikes_lawful_iff (fun i => ⟨rfl, rfl, rfl⟩) _).mpr
  refine ⟨fun _ other ho => ?_, ?_⟩
  · exact (List.not_mem_nil ho).elim
  rintro _ ⟨⟩
  refine ⟨trivial, ?_⟩
  rintro _ ⟨⟩
  refine ⟨trivial, ?_⟩
  rintro _ ⟨⟩
  refine ⟨fun _ other ho => ?_, ?_⟩
  · rw [List.mem_singleton.mp ho]
    rfl
  rintro _ ⟨⟩
  exact ⟨trivial, fun _ _ => trivial⟩

/-- A call at a strike that is no number hides the put at 100. -/
theorem strikes_left_out :
    let objects : Objects Unit := fun _ => {}
    let calls : List (StrikeCall Unit) :=
      [.addOption 0 true .nan (), .addOption 0 false (.finite 100) ()]
    Fresh objects ∧ (run StrikeCall.step objects calls).map (fun objects =>
      ((objects 0).getStrikes.1, (objects 0).puts)) = some ([.nan], [(.finite 100, ())]) ∧
    ¬ Always StrikeCall.step (fun objects => ∀ i, (objects i).Lawful) objects calls := by
  refine ⟨fun i => ⟨rfl, rfl, rfl⟩, by decide +kernel, fun h => ?_⟩
  obtain ⟨-, _, ⟨⟩, -, _, ⟨⟩, hlast⟩ := h
  obtain ⟨listed, hlisted, hrank⟩ := (hlast 0).all_strikes (.finite 100) (by decide +kernel)
  have hnan : listed ∈ [Double.nan] := hlisted
  rw [List.mem_singleton.mp hnan] at hrank
  exact absurd hrank (by decide +kernel)

end OptionChains
