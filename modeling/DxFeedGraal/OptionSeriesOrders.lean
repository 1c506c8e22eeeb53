import DxFeedGraal.OptionChains
import Mathlib.Data.Prod.Lex

/-! # The order of option series and of the options in them

Ten comparisons, each with a value of its own, make up the order; doubles that are not numbers
are what keeps it from telling all series apart. A series keeps the first option of a strike. -/
namespace OptionChains

open CppStrings DoubleValues NativeStrings OrderedSet LayeredOrders

variable {π : Type*}

/-! ## The order of series -/

theorem layer_double : Layer (fun a b : Double => a.less b = true) fun a b => a.eq b = true where
  irrefl a h := lt_irrefl _ (less_eq_true.mp h).2
  less_trans h k := by
    obtain ⟨⟨ha, -⟩, hab⟩ := less_eq_true.mp h
    obtain ⟨⟨-, hc⟩, hbc⟩ := less_eq_true.mp k
    exact less_eq_true.mpr ⟨⟨ha, hc⟩, hab.trans hbc⟩
  less_tie h k := by
    obtain ⟨⟨ha, -⟩, hab⟩ := less_eq_true.mp h
    obtain ⟨⟨-, hc⟩, hbc⟩ := eq_eq_true.mp k
    exact less_eq_true.mpr ⟨⟨ha, hc⟩, hbc ▸ hab⟩
  tie_less h k := by
    obtain ⟨⟨ha, -⟩, hab⟩ := eq_eq_true.mp h
    obtain ⟨⟨-, hc⟩, hbc⟩ := less_eq_true.mp k
    exact less_eq_true.mpr ⟨⟨ha, hc⟩, hab ▸ hbc⟩
  tie_trans := eq_trans

namespace OptionSeries

/-- The texts in the order of their comparison. -/
def texts (s : OptionSeries π) : Text ×ₗ Text ×ₗ Text ×ₗ Text ×ₗ Text ×ₗ Text :=
  toLex (s.additionalUnderlyings, toLex (s.mmy, toLex (s.optionType,
    toLex (s.expirationStyle, toLex (s.settlementStyle, s.cfi)))))

/-- One step of a chain of comparisons that go on where the values are equal. -/
theorem ite_lt {κ : Type*} [LinearOrder κ] {x y : κ} [Decidable (x ≠ y)] [Decidable (x < y)]
    {rest : Bool} :
    ((if x ≠ y then decide (x < y) else rest) = true) ↔ x < y ∨ x = y ∧ rest = true := by
  by_cases hxy : x = y
  · simp [hxy]
  · simp [hxy]

theorem ite_lt_int32 {x y : Int32} {rest : Bool} :
    ((if x ≠ y then decide (x < y) else rest) = true) ↔
      x.toInt < y.toInt ∨ x.toInt = y.toInt ∧ rest = true := by
  rw [Int32.toInt_inj, ← Int32.lt_iff_toInt_lt]
  by_cases hxy : x = y
  · have hirrefl : ¬ x < y := by
      rw [hxy, Int32.lt_iff_toInt_lt]
      exact lt_irrefl _
    simp [hxy]
  · simp [hxy]

theorem ite_less {x y : Double} {rest : Bool} :
    ((if !x.eq y then x.less y else rest) = true) ↔
      x.less y = true ∨ x.eq y = true ∧ rest = true := by
  cases heq : x.eq y with
  | false => simp
  | true =>
    have hless : ¬ x.less y = true := fun hlt =>
      (less_eq_true.mp hlt).2.ne (eq_eq_true.mp heq).2
    simp [hless]

theorem less_iff {a b : OptionSeries π} : a.less b = true ↔
    Chained (fun a b => a.expiration.toInt < b.expiration.toInt)
      (fun a b => a.expiration.toInt = b.expiration.toInt)
      (Chained (fun a b => a.lastTrade.toInt < b.lastTrade.toInt)
        (fun a b => a.lastTrade.toInt = b.lastTrade.toInt)
        (Chained (fun a b => a.multiplier.less b.multiplier = true)
          (fun a b => a.multiplier.eq b.multiplier = true)
          (Chained (fun a b => a.spc.less b.spc = true) (fun a b => a.spc.eq b.spc = true)
            fun a b => texts a < texts b))) a b := by
  unfold OptionSeries.less
  simp only [ite_lt_int32, ite_less, ite_lt, decide_eq_true_eq, Chained, texts,
    Prod.Lex.toLex_lt_toLex]

theorem layer_less : Layer (fun a b : OptionSeries π => a.less b = true) fun a b =>
    a.expiration.toInt = b.expiration.toInt ∧ a.lastTrade.toInt = b.lastTrade.toInt ∧
      a.multiplier.eq b.multiplier = true ∧ a.spc.eq b.spc = true ∧ texts a = texts b := by
  simp only [less_iff]
  have htexts := layer_lt.comap (texts (π := π))
  have hspc := (layer_double.comap OptionSeries.spc).lex htexts
  have hmultiplier := (layer_double.comap OptionSeries.multiplier).lex hspc
  have hlastTrade := (layer_lt.comap fun s : OptionSeries π => s.lastTrade.toInt).lex hmultiplier
  exact (layer_lt.comap fun s : OptionSeries π => s.expiration.toInt).lex hlastTrade

theorem int32_not_lt {x y : Int32} : (¬ x.toInt < y.toInt ∧ ¬ y.toInt < x.toInt) ↔ x = y := by
  rw [not_lt, not_lt, and_comm, ← le_antisymm_iff, Int32.toInt_inj]

theorem texts_not_lt {a b : OptionSeries π} :
    (¬ texts a < texts b ∧ ¬ texts b < texts a) ↔ texts a = texts b := by
  rw [not_lt, not_lt, and_comm, ← le_antisymm_iff]

/-- A layer that decides nothing ties or ends the comparison. -/
theorem tie_or_end {ended tie rest : Prop} (h : tie → ¬ ended) :
    ((ended ∨ tie) ∧ (tie → rest)) ↔ ended ∨ tie ∧ rest := by
  constructor
  · rintro ⟨hended | htie, hrest⟩
    · exact Or.inl hended
    · exact Or.inr ⟨htie, hrest htie⟩
  · rintro (hended | ⟨htie, hrest⟩)
    · exact ⟨Or.inl hended, fun htie => absurd hended (h htie)⟩
    · exact ⟨Or.inr htie, fun _ => hrest⟩

/-- A comparison ends at a multiplier or an `spc` that is no number, whatever comes behind. -/
theorem equivalent_iff {a b : OptionSeries π} : Equivalent less a b ↔
    a.expiration = b.expiration ∧ a.lastTrade = b.lastTrade ∧
      ((a.multiplier.isNaN = true ∨ b.multiplier.isNaN = true) ∨
        a.multiplier.eq b.multiplier = true ∧
          ((a.spc.isNaN = true ∨ b.spc.isNaN = true) ∨
            a.spc.eq b.spc = true ∧ texts a = texts b)) := by
  have hneither : Equivalent less a b ↔ ¬ a.less b = true ∧ ¬ b.less a = true := by
    simp [Equivalent]
  have hnumbers : ∀ x y : Double, x.eq y = true → ¬ (x.isNaN = true ∨ y.isNaN = true) := by
    intro x y heq
    obtain ⟨⟨hx, hy⟩, -⟩ := eq_eq_true.mp heq
    simp [hx, hy]
  rw [hneither, less_iff, less_iff, neither_chained, neither_chained, neither_chained,
    neither_chained, int32_not_lt, int32_not_lt, not_less_iff, not_less_iff, texts_not_lt,
    Int32.toInt_inj, Int32.toInt_inj]
  · have hmultiplier := hnumbers a.multiplier b.multiplier
    have hspc := hnumbers a.spc b.spc
    rw [tie_or_end hspc, tie_or_end hmultiplier]
    constructor
    · rintro ⟨hexpiration, hrest⟩
      obtain ⟨hlastTrade, hrest⟩ := hrest hexpiration
      exact ⟨hexpiration, hlastTrade, hrest hlastTrade⟩
    · rintro ⟨hexpiration, hlastTrade, hrest⟩
      exact ⟨hexpiration, fun _ => ⟨hlastTrade, fun _ => hrest⟩⟩
  · exact ⟨eq_symm, eq_symm⟩
  · exact ⟨eq_symm, eq_symm⟩
  · exact eq_comm
  · exact eq_comm

/-- The series without its options. -/
def stripped (s : OptionSeries π) : OptionSeries π :=
  { s with calls := [], puts := [], strikes := [] }

theorem less_stripped (a b : OptionSeries π) : (stripped a).less (stripped b) = a.less b := rfl

theorem stripped_addOption (s : OptionSeries π) (isCall : Bool) (strike : Double) (option : π) :
    stripped (s.addOption isCall strike option) = stripped s := by
  unfold OptionSeries.addOption
  generalize insert OptionSeries.strikeLess (strike, option) (s.options isCall) = emplaced
  obtain ⟨l, added⟩ := emplaced
  cases isCall <;> cases added <;> rfl

theorem strictWeakOn_stripped {l : List (OptionSeries π)} :
    StrictWeakOn OptionSeries.less (l.map stripped) ↔ StrictWeakOn OptionSeries.less l :=
  strictWeakOn_map

/-! ### Options by their strikes -/

/-- Ordered by strikes that are numbers. -/
structure Tidy (l : List (Double × π)) : Prop where
  sorted : Sorted OptionSeries.strikeLess l
  numbers : ∀ o ∈ l, o.1.isNaN = false

theorem tidy_nil : Tidy ([] : List (Double × π)) :=
  ⟨List.Pairwise.nil, fun _ h => (List.not_mem_nil h).elim⟩

/-- What `find` gives for a strike. -/
def standsAt (l : List (Double × π)) (strike : Double) : Option π :=
  (l.find? fun option => option.1.eq strike).map Prod.snd

theorem standsAt_cons (o : Double × π) (l : List (Double × π)) (strike : Double) :
    standsAt (o :: l) strike = if o.1.eq strike then some o.2 else standsAt l strike := by
  unfold standsAt
  cases h : o.1.eq strike <;> simp [h]

theorem standsAt_eq_none {l : List (Double × π)} {strike : Double}
    (h : ∀ o ∈ l, o.1.eq strike = false) : standsAt l strike = none := by
  unfold standsAt
  rw [List.find?_eq_none.mpr (by simpa using h)]
  rfl

theorem eq_of_not_less {a b : Double} (ha : a.isNaN = false) (hb : b.isNaN = false)
    (hab : ¬ a.less b = true) (hba : ¬ b.less a = true) : a.eq b = true := by
  rcases not_less_iff.mp ⟨hab, hba⟩ with (hnan | hnan) | heq
  · rw [ha] at hnan
    cases hnan
  · rw [hb] at hnan
    cases hnan
  · exact heq

/-- The first option of a strike stays. -/
theorem standsAt_insert {l : List (Double × π)} (h : Tidy l) {strike : Double}
    (hstrike : strike.isNaN = false) (option : π) (other : Double) :
    standsAt (insert OptionSeries.strikeLess (strike, option) l).1 other =
      if strike.eq other then (standsAt l other).or (some option) else standsAt l other := by
  induction l with
  | nil =>
    change standsAt [(strike, option)] other = _
    rw [standsAt_cons]
    rfl
  | cons o l ih =>
    obtain ⟨hsorted, hnumbers⟩ := h
    obtain ⟨ho, hl⟩ := List.pairwise_cons.mp hsorted
    have htidy : Tidy l := ⟨hl, fun o' ho' => hnumbers o' (List.mem_cons_of_mem o ho')⟩
    by_cases hbefore : OptionSeries.strikeLess o (strike, option) = true
    · simp only [OrderedSet.insert, hbefore, if_true, standsAt_cons, ih htidy]
      by_cases hother : o.1.eq other = true
      · simp [hother]
      · simp [hother]
    · by_cases hafter : OptionSeries.strikeLess (strike, option) o = true
      · simp only [OrderedSet.insert, hbefore, hafter, if_true]
        by_cases hother : strike.eq other = true
        · have hbehind : ∀ o' ∈ o :: l, o'.1.eq other = false := by
            intro o' ho'
            have hless : strike.less o'.1 = true := by
              rcases List.mem_cons.mp ho' with rfl | ho'
              · exact hafter
              · exact layer_double.less_trans hafter (ho o' ho')
            by_contra heq
            have hback : o'.1.eq strike = true := eq_trans (by simpa using heq) (eq_symm hother)
            exact layer_double.irrefl _ (layer_double.less_tie hless hback)
          have hnone := standsAt_eq_none hbehind
          simp [hnone, standsAt_cons (strike, option), hother]
        · simp [standsAt_cons (strike, option), hother]
      · have heq : o.1.eq strike = true :=
          eq_of_not_less (hnumbers o List.mem_cons_self) hstrike hbefore hafter
        simp only [OrderedSet.insert, hbefore, hafter]
        by_cases hother : strike.eq other = true
        · simp [standsAt_cons, hother, eq_trans heq hother]
        · simp [hother]

theorem Tidy.insert {l : List (Double × π)} (h : Tidy l) {strike : Double}
    (hstrike : strike.isNaN = false) (option : π) :
    Tidy (OrderedSet.insert OptionSeries.strikeLess (strike, option) l).1 := by
  have hnumbers : ∀ o ∈ (strike, option) :: l, o.1.isNaN = false := by
    intro o ho
    rcases List.mem_cons.mp ho with rfl | ho
    · exact hstrike
    · exact h.numbers o ho
  have hweak : StrictWeakOn OptionSeries.strikeLess ((strike, option) :: l) := by
    apply (layer_double.comap Prod.fst).strictWeakOn (f := fun o : Double × π => o.1.position)
    intro a ha b hb
    constructor
    · rintro ⟨hab, hba⟩
      have heq := eq_of_not_less (hnumbers a ha) (hnumbers b hb) (by simpa using hab)
        (by simpa using hba)
      exact (eq_eq_true.mp heq).2
    · intro hposition
      constructor
      · by_contra hless
        exact (less_eq_true.mp (by simpa using hless)).2.ne hposition
      · by_contra hless
        exact (less_eq_true.mp (by simpa using hless)).2.ne hposition.symm
  refine ⟨h.sorted.insert_on hweak, fun o ho => ?_⟩
  by_cases hadded : (OrderedSet.insert OptionSeries.strikeLess (strike, option) l).2 = true
  · exact hnumbers o (List.mem_cons.mpr ((mem_insert hadded).mp ho))
  · rw [insert_not_added (by simpa using hadded)] at ho
    exact h.numbers o ho

theorem options_addOption (s : OptionSeries π) (isCall : Bool) (strike : Double) (option : π)
    (side : Bool) : (s.addOption isCall strike option).options side =
      if side = isCall then
        (insert OptionSeries.strikeLess (strike, option) (s.options isCall)).1
      else s.options side := by
  unfold OptionSeries.addOption
  generalize insert OptionSeries.strikeLess (strike, option) (s.options isCall) = emplaced
  obtain ⟨l, added⟩ := emplaced
  cases isCall <;> cases side <;> cases added <;> rfl

theorem optionAt_addOption {s : OptionSeries π} (h : ∀ side, Tidy (s.options side))
    (isCall : Bool) {strike : Double} (hstrike : strike.isNaN = false) (option : π) (side : Bool)
    (other : Double) : (s.addOption isCall strike option).optionAt side other =
      if isCall = side ∧ strike.eq other = true then
        (s.optionAt side other).or (some option)
      else s.optionAt side other := by
  change standsAt ((s.addOption isCall strike option).options side) other = _
  rw [options_addOption]
  by_cases hside : side = isCall
  · subst hside
    rw [if_pos rfl, standsAt_insert (h side) hstrike]
    by_cases hother : strike.eq other = true <;> simp [hother] <;> rfl
  · rw [if_neg hside, if_neg (fun hc => hside hc.1.symm)]
    rfl

theorem tidy_addOption {s : OptionSeries π} (h : ∀ side, Tidy (s.options side))
    (isCall : Bool) {strike : Double} (hstrike : strike.isNaN = false) (option : π)
    (side : Bool) : Tidy ((s.addOption isCall strike option).options side) := by
  rw [options_addOption]
  split
  · exact (h isCall).insert hstrike option
  · exact h side

end OptionSeries

end OptionChains
