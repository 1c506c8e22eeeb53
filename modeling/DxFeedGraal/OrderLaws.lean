import DxFeedGraal.FeedOrders
import DxFeedGraal.PartialKeys

/-! # The comparators as strict orders

Both comparators skip the price where it is not a number, so an order without a price can
stand between two orders that their prices put the other way round. -/
namespace OrderLaws

open DoubleValues ThreeWayComparisons PartialKeys Orders Orders.FeedOrder

variable {O : OrderKind}

/-- The result is missing where the comparison dereferences a null pointer. -/
def BuyLess (o₁ o₂ : FeedOrder O) : Option Bool := (BuyComparator o₁ o₂).map fun c => decide (c < 0)

def SellLess (o₁ o₂ : FeedOrder O) : Option Bool :=
  (SellComparator o₁ o₂).map fun c => decide (c < 0)

/-- What a model admits to its sorted sets. -/
structure Admitted (S : Set (FeedOrder O)) : Prop where
  shallAdd : ∀ o ∈ S, o.shallAdd = true
  distinct : Set.InjOn getIndex S

structure StrictTotalOn (less : FeedOrder O → FeedOrder O → Option Bool)
    (S : Set (FeedOrder O)) : Prop where
  irreflexive : ∀ a ∈ S, less a a = some false
  asymmetric : ∀ a ∈ S, ∀ b ∈ S, less a b = some true → less b a = some false
  transitive : ∀ a ∈ S, ∀ b ∈ S, ∀ c ∈ S, less a b = some true → less b c = some true →
    less a c = some true
  total : ∀ a ∈ S, ∀ b ∈ S, a ≠ b → less a b = some true ∨ less b a = some true
  equivalent : ∀ a ∈ S, ∀ b ∈ S, less a b = some false → less b a = some false →
    a.getIndex = b.getIndex

/-- One price is less than the other. -/
def PricesDiffer (a b : FeedOrder O) : Prop :=
  a.getPrice.less b.getPrice = true ∨ b.getPrice.less a.getPrice = true

instance (a b : FeedOrder O) : Decidable (PricesDiffer a b) := inferInstanceAs (Decidable (_ ∨ _))

/-- What the sets of a book rest on. -/
structure Laws (S : Set (FeedOrder O)) : Prop where
  buy : StrictTotalOn BuyLess S
  sell : StrictTotalOn SellLess S
  individual_last : ∀ a ∈ S, ∀ b ∈ S, a.isIndividual = true → b.isIndividual = false →
    ¬ PricesDiffer a b → BuyLess a b = some false ∧ SellLess a b = some false
  mirror : ∀ a ∈ S, ∀ b ∈ S, PricesDiffer a b →
    (BuyLess b a).isSome = true ∧ SellLess a b = BuyLess b a

/-- No order without a price stands between two orders of different prices in the order that
holds within one price, and spread orders are individual. -/
structure Sortable (S : Set (FeedOrder O)) : Prop where
  individual : O = .spreadOrder → ∀ o ∈ S, o.isIndividual = true
  untorn : ∀ a ∈ S, ∀ n ∈ S, ∀ b ∈ S, n.getPrice = .nan → PricesDiffer a b →
    ¬ (orderKey a < orderKey n ∧ orderKey n < orderKey b)

/-! ## The comparators over prices that may be missing -/

def price (o : FeedOrder O) : Option (WithBot (WithTop ℚ)) :=
  if o.getPrice = .nan then none else some o.getPrice.position

def buyPrice (o : FeedOrder O) : Option (WithBot (WithTop ℚ))ᵒᵈ :=
  (price o).map OrderDual.toDual

theorem price_eq_none {o : FeedOrder O} : price o = none ↔ o.getPrice = .nan := by
  simp [price]

theorem price_eq_some {o : FeedOrder O} {p : WithBot (WithTop ℚ)} (h : price o = some p) :
    o.getPrice ≠ .nan ∧ o.getPrice.position = p := by
  unfold price at h
  split at h
  next => cases h
  next hnan => exact ⟨hnan, Option.some.inj h⟩

theorem price_of_ne_nan {o : FeedOrder O} (h : o.getPrice ≠ .nan) :
    price o = some o.getPrice.position := by
  simp [price, h]

theorem less_of_nan {a b : Double} (h : a = .nan ∨ b = .nan) :
    a.less b = false ∧ b.less a = false := by
  rcases h with rfl | rfl <;> simp [Double.less, Double.isNaN]

theorem ne_nan_of_less {a b : Double} (h : a.less b = true) : a ≠ .nan ∧ b ≠ .nan := by
  constructor
  · intro ha
    rw [(less_of_nan (Or.inl ha)).1] at h
    cases h
  · intro hb
    rw [(less_of_nan (Or.inr hb)).1] at h
    cases h

/-- Without one of the prices the comparators go on to the rest. -/
theorem comparators_of_nan {o₁ o₂ : FeedOrder O} (h : o₁.getPrice = .nan ∨ o₂.getPrice = .nan) :
    BuyComparator o₁ o₂ = OrderComparator o₁ o₂ ∧
      SellComparator o₁ o₂ = OrderComparator o₁ o₂ := by
  obtain ⟨h₁, h₂⟩ := less_of_nan h
  simp [BuyComparator, SellComparator, h₁, h₂]

theorem map_neg_iff {κ : Type*} [LinearOrder κ] {c : Option ℤ} {x y : κ} {P : Prop}
    (hsome : ∀ d, c = some d → Agrees d x y) (hnone : c = none ↔ P ∧ x = y) :
    c.map (fun d => decide (d < 0)) = some true ↔ x < y := by
  cases hc : c with
  | none => simp [(hnone.mp hc).2]
  | some d => simp [(hsome d hc).neg]

theorem orderComparator_neg_iff (o₁ o₂ : FeedOrder O) :
    (OrderComparator o₁ o₂).map (fun d => decide (d < 0)) = some true ↔
      orderKey o₁ < orderKey o₂ :=
  map_neg_iff (agrees_orderComparator o₁ o₂).1 (orderComparator_none_iff o₁ o₂)

theorem buyLess_iff (o₁ o₂ : FeedOrder O) :
    BuyLess o₁ o₂ = some true ↔ Precedes buyPrice orderKey o₁ o₂ := by
  by_cases h : o₁.getPrice = .nan ∨ o₂.getPrice = .nan
  · rw [BuyLess, (comparators_of_nan h).1, orderComparator_neg_iff, precedes_of_missing]
    simpa [buyPrice, price_eq_none] using h
  · obtain ⟨h₁, h₂⟩ := not_or.mp h
    have hagrees := agrees_buyComparator h₁ h₂
    rw [BuyLess, map_neg_iff hagrees.1 hagrees.2, buyKey, buyKey, Prod.Lex.toLex_lt_toLex,
      precedes_some (by rw [buyPrice, price_of_ne_nan h₁]; rfl)
        (by rw [buyPrice, price_of_ne_nan h₂]; rfl)]

theorem sellLess_iff (o₁ o₂ : FeedOrder O) :
    SellLess o₁ o₂ = some true ↔ Precedes price orderKey o₁ o₂ := by
  by_cases h : o₁.getPrice = .nan ∨ o₂.getPrice = .nan
  · rw [SellLess, (comparators_of_nan h).2, orderComparator_neg_iff, precedes_of_missing]
    simpa [price_eq_none] using h
  · obtain ⟨h₁, h₂⟩ := not_or.mp h
    have hagrees := agrees_sellComparator h₁ h₂
    rw [SellLess, map_neg_iff hagrees.1 hagrees.2, sellKey, sellKey, Prod.Lex.toLex_lt_toLex,
      precedes_some (price_of_ne_nan h₁) (price_of_ne_nan h₂)]

/-- The comparisons of prices before the last one always have a result. -/
theorem none_of_guarded {c d : Prop} [Decidable c] [Decidable d] {a b : ℤ} {last : Option ℤ}
    (h : (if c then some a else if d then some b else last) = none) : last = none := by
  split at h
  next => cases h
  next =>
    split at h
    next => cases h
    next => exact h

/-- Only a tie of spread orders has no result. -/
theorem less_none {o₁ o₂ : FeedOrder O} (h : BuyLess o₁ o₂ = none ∨ SellLess o₁ o₂ = none) :
    Ties o₁ o₂ := by
  rw [← (agrees_orderComparator o₁ o₂).2]
  rcases h with h | h
  · exact none_of_guarded (Option.map_eq_none_iff.mp h)
  · exact none_of_guarded (Option.map_eq_none_iff.mp h)

/-- A spread order that is not individual cannot be compared with itself. -/
theorem less_self_none {o : FeedOrder O} (hO : O = .spreadOrder) (ho : o.isIndividual = false) :
    BuyLess o o = none := by
  have hprice : o.getPrice.less o.getPrice = false := by
    cases hless : o.getPrice.less o.getPrice with
    | false => rfl
    | true =>
      have := less_asymm_double hless
      rw [hless] at this
      cases this
  have hchain : OrderComparator o o = none :=
    (agrees_orderComparator o o).2.mpr ⟨hO, ho, ho, rfl⟩
  simp [BuyLess, BuyComparator, hprice, hchain]

/-! ## Sets of orders -/

section Sets

variable {S : Set (FeedOrder O)} {π : Type*} [LinearOrder π]
  {less : FeedOrder O → FeedOrder O → Option Bool} {first : FeedOrder O → Option π}

theorem not_ties (h : O = .spreadOrder → ∀ o ∈ S, o.isIndividual = true) {a b : FeedOrder O}
    (ha : a ∈ S) : ¬ Ties a b := by
  rintro ⟨hO, hindividual, -⟩
  rw [h hO a ha] at hindividual
  cases hindividual

theorem orderKey_injOn (hS : Admitted S)
    (h : O = .spreadOrder → ∀ o ∈ S, o.isIndividual = true) : Set.InjOn orderKey S := by
  intro a ha b hb hkey
  exact hS.distinct ha hb (index_eq_of_orderKey hkey (not_ties h ha))

/-- A comparison that follows the keys and never fails is a strict total order exactly when
no order tears two others apart. -/
theorem strictTotalOn_iff (hless : ∀ a b, less a b = some true ↔ Precedes first orderKey a b)
    (hsome : ∀ a ∈ S, ∀ b ∈ S, less a b ≠ none) (hinj : Set.InjOn orderKey S) :
    StrictTotalOn less S ↔ ∀ a ∈ S, ∀ n ∈ S, ∀ b ∈ S, ¬ Torn first orderKey a n b := by
  have hfalse : ∀ a ∈ S, ∀ b ∈ S, (less a b = some false ↔ ¬ Precedes first orderKey a b) := by
    intro a ha b hb
    rw [← hless]
    rcases hab : less a b with _ | _ | _
    · exact absurd hab (hsome a ha b hb)
    · simp
    · simp
  rw [← transitive_iff hinj]
  constructor
  · intro h a ha b hb c hc hab hbc
    exact (hless a c).mp (h.transitive a ha b hb c hc ((hless a b).mpr hab) ((hless b c).mpr hbc))
  · intro h
    constructor
    · intro a ha
      exact (hfalse a ha a ha).mpr (precedes_irrefl a)
    · intro a ha b hb hab
      exact (hfalse b hb a ha).mpr (precedes_asymm ((hless a b).mp hab))
    · intro a ha b hb c hc hab hbc
      exact (hless a c).mpr (h a ha b hb c hc ((hless a b).mp hab) ((hless b c).mp hbc))
    · intro a ha b hb hne
      rw [hless, hless]
      exact precedes_total fun hkey => hne (hinj ha hb hkey)
    · intro a ha b hb hab hba
      by_contra hindex
      have hkey : orderKey a ≠ orderKey b := fun hkey => hindex (by rw [hinj ha hb hkey])
      rcases @precedes_total _ _ _ _ _ first orderKey a b hkey with h | h
      · exact (hfalse a ha b hb).mp hab h
      · exact (hfalse b hb a ha).mp hba h

theorem torn_price_iff {a n b : FeedOrder O} :
    Torn price orderKey a n b ↔ n.getPrice = .nan ∧ b.getPrice.less a.getPrice = true ∧
      orderKey a < orderKey n ∧ orderKey n < orderKey b := by
  constructor
  · rintro ⟨hmissing, ⟨p, q, hp, hq, hlt⟩, habove, hbelow⟩
    obtain ⟨ha, rfl⟩ := price_eq_some hp
    obtain ⟨hb, rfl⟩ := price_eq_some hq
    exact ⟨price_eq_none.mp hmissing, (less_iff hb ha).mpr hlt, habove, hbelow⟩
  · rintro ⟨hmissing, hless, habove, hbelow⟩
    obtain ⟨hb, ha⟩ := ne_nan_of_less hless
    exact ⟨price_eq_none.mpr hmissing, ⟨_, _, price_of_ne_nan ha, price_of_ne_nan hb,
      (less_iff hb ha).mp hless⟩, habove, hbelow⟩

theorem torn_buyPrice_iff {a n b : FeedOrder O} :
    Torn buyPrice orderKey a n b ↔ n.getPrice = .nan ∧ a.getPrice.less b.getPrice = true ∧
      orderKey a < orderKey n ∧ orderKey n < orderKey b := by
  constructor
  · rintro ⟨hmissing, ⟨p, q, hp, hq, hlt⟩, habove, hbelow⟩
    obtain ⟨p', hp', rfl⟩ := Option.map_eq_some_iff.mp hp
    obtain ⟨q', hq', rfl⟩ := Option.map_eq_some_iff.mp hq
    obtain ⟨ha, rfl⟩ := price_eq_some hp'
    obtain ⟨hb, rfl⟩ := price_eq_some hq'
    exact ⟨price_eq_none.mp (Option.map_eq_none_iff.mp hmissing), (less_iff ha hb).mpr hlt,
      habove, hbelow⟩
  · rintro ⟨hmissing, hless, habove, hbelow⟩
    obtain ⟨ha, hb⟩ := ne_nan_of_less hless
    refine ⟨Option.map_eq_none_iff.mpr (price_eq_none.mpr hmissing),
      ⟨_, _, congrArg _ (price_of_ne_nan ha), congrArg _ (price_of_ne_nan hb), ?_⟩, habove, hbelow⟩
    exact (less_iff ha hb).mp hless

/-! ## The laws of the sets of a book -/

theorem individual_last {a b : FeedOrder O} (ha : a.isIndividual = true)
    (hb : b.isIndividual = false) (hprice : ¬ PricesDiffer a b) :
    BuyLess a b = some false ∧ SellLess a b = some false := by
  obtain ⟨hab, hba⟩ := not_or.mp hprice
  constructor
  · simp [BuyLess, BuyComparator, OrderComparator, hab, hba, ha, hb]
  · simp [SellLess, SellComparator, OrderComparator, hab, hba, ha, hb]

theorem mirror {a b : FeedOrder O} (hprice : PricesDiffer a b) :
    (BuyLess b a).isSome = true ∧ SellLess a b = BuyLess b a := by
  rcases hprice with hless | hless
  · have hnot := less_asymm_double hless
    simp [BuyLess, SellLess, BuyComparator, SellComparator, hless, hnot]
  · have hnot := less_asymm_double hless
    simp [BuyLess, SellLess, BuyComparator, SellComparator, hless, hnot]

theorem laws_of_sortable (hS : Admitted S) (h : Sortable S) : Laws S := by
  have hinj := orderKey_injOn hS h.individual
  have hnone : ∀ a ∈ S, ∀ b ∈ S, ¬ (BuyLess a b = none ∨ SellLess a b = none) :=
    fun a ha b _ hless => not_ties h.individual ha (less_none hless)
  constructor
  · apply (strictTotalOn_iff buyLess_iff (fun a ha b hb hl => hnone a ha b hb (Or.inl hl)) hinj).mpr
    intro a ha n hn b hb htorn
    obtain ⟨hnan, hless, hkeys⟩ := torn_buyPrice_iff.mp htorn
    exact h.untorn a ha n hn b hb hnan (Or.inl hless) hkeys
  · apply (strictTotalOn_iff sellLess_iff
      (fun a ha b hb hl => hnone a ha b hb (Or.inr hl)) hinj).mpr
    intro a ha n hn b hb htorn
    obtain ⟨hnan, hless, hkeys⟩ := torn_price_iff.mp htorn
    exact h.untorn a ha n hn b hb hnan (Or.inr hless) hkeys
  · intro a _ b _ hindividual hother hprice
    exact individual_last hindividual hother hprice
  · intro a _ b _ hprice
    exact mirror hprice

theorem sortable_of_laws (hS : Admitted S) (h : Laws S) : Sortable S := by
  have hindividual : O = .spreadOrder → ∀ o ∈ S, o.isIndividual = true := by
    intro hO o ho
    by_contra hnot
    have hself := h.buy.irreflexive o ho
    rw [less_self_none hO (by simpa using hnot)] at hself
    cases hself
  have hinj := orderKey_injOn hS hindividual
  have hnone : ∀ a ∈ S, ∀ b ∈ S, ¬ (BuyLess a b = none ∨ SellLess a b = none) :=
    fun a ha b _ hless => not_ties hindividual ha (less_none hless)
  refine ⟨hindividual, fun a ha n hn b hb hnan hprice hkeys => ?_⟩
  rcases hprice with hless | hless
  · have huntorn := (strictTotalOn_iff buyLess_iff
      (fun a ha b hb hl => hnone a ha b hb (Or.inl hl)) hinj).mp h.buy
    exact huntorn a ha n hn b hb (torn_buyPrice_iff.mpr ⟨hnan, hless, hkeys⟩)
  · have huntorn := (strictTotalOn_iff sellLess_iff
      (fun a ha b hb hl => hnone a ha b hb (Or.inr hl)) hinj).mp h.sell
    exact huntorn a ha n hn b hb (torn_price_iff.mpr ⟨hnan, hless, hkeys⟩)

/-- The comparators serve the sets of a book exactly when the admitted orders are sortable. -/
theorem laws_iff (O : OrderKind) (S : Set (FeedOrder O)) (hS : Admitted S) :
    Laws S ↔ Sortable S :=
  ⟨sortable_of_laws hS, laws_of_sortable hS⟩

end Sets

/-- An aggregate buy order of size ten. -/
def sampleOrder (index time : Int64) (price : Double) : FeedOrder .order where
  data := { index := index, timeSequence := time, price := price, size := .finite 10, flags := 4 }

/-- An order without a price may stand behind the others. -/
theorem laws_of_two :
    Laws ({sampleOrder 1 1 (.finite 100), sampleOrder 2 2 .nan} : Set (FeedOrder .order)) := by
  have hadmitted : Admitted
      ({sampleOrder 1 1 (.finite 100), sampleOrder 2 2 .nan} : Set (FeedOrder .order)) := by
    constructor
    · rintro o (rfl | rfl) <;> decide
    · rintro a (rfl | rfl) b (rfl | rfl) <;> decide
  refine (laws_iff .order _ hadmitted).mpr ⟨fun hO => (by cases hO), ?_⟩
  rintro a (rfl | rfl) n (rfl | rfl) b (rfl | rfl) - hprice - <;> revert hprice <;> decide

/-- Between a hundred and a hundred and one the order without a price closes a cycle. -/
theorem cycle_of_three :
    Admitted ({sampleOrder 1 1 (.finite 100), sampleOrder 2 2 .nan, sampleOrder 3 3 (.finite 101)} :
        Set (FeedOrder .order)) ∧
      ¬ Laws ({sampleOrder 1 1 (.finite 100), sampleOrder 2 2 .nan, sampleOrder 3 3 (.finite 101)} :
        Set (FeedOrder .order)) := by
  refine ⟨⟨?_, ?_⟩, fun h => ?_⟩
  · rintro o (rfl | rfl | rfl) <;> decide
  · rintro a (rfl | rfl | rfl) b (rfl | rfl | rfl) <;> decide
  · have htransitive := h.buy.transitive (sampleOrder 1 1 (.finite 100)) (by simp)
      (sampleOrder 2 2 .nan) (by simp) (sampleOrder 3 3 (.finite 101)) (by simp)
    revert htransitive
    decide

end OrderLaws
