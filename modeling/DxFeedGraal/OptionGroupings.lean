import DxFeedGraal.OptionSeriesOrders

/-! # Option chains as groups of profiles

A chain should hold one series for each combination of attributes, and a series the last profile
for each strike. Series that are ordered neither way have the same attributes or one of them
has a multiplier or an `spc` that is not a number. -/
namespace OptionChains

open CppStrings DoubleValues NativeStrings OrderedSet PartialRuns

variable {π : Type*}

/-! ## What profiles ask for -/

/-- Equal doubles have one rank, and so have all that are not numbers. -/
structure Attributes where
  expiration : Int32
  lastTrade : Int32
  multiplier : WithBot (WithBot (WithTop ℚ))
  spc : WithBot (WithBot (WithTop ℚ))
  additionalUnderlyings : Text
  mmy : Text
  optionType : Text
  expirationStyle : Text
  settlementStyle : Text
  cfi : Text
  deriving DecidableEq

/-- The second letter of the code is left out. -/
def OptionSeries.attributes (s : OptionSeries π) : Attributes where
  expiration := s.expiration
  lastTrade := s.lastTrade
  multiplier := s.multiplier.rank
  spc := s.spc.rank
  additionalUnderlyings := s.additionalUnderlyings
  mmy := s.mmy
  optionType := s.optionType
  expirationStyle := s.expirationStyle
  settlementStyle := s.settlementStyle
  cfi := s.cfi.eraseIdx 1

namespace InstrumentProfile

variable (p : InstrumentProfile)

def attributes : Attributes where
  expiration := p.expiration
  lastTrade := p.lastTrade
  multiplier := p.multiplier.rank
  spc := p.spc.rank
  additionalUnderlyings := orEmpty p.additionalUnderlyings
  mmy := orEmpty p.mmy
  optionType := orEmpty p.optionType
  expirationStyle := orEmpty p.expirationStyle
  settlementStyle := orEmpty p.settlementStyle
  cfi := p.cfi.eraseIdx 1

def isCall : Bool := "OC".toList.isPrefixOf p.cfi

/-- An option with an expiration and a strike, by its code a call or a put. -/
def Accepted : Prop :=
  p.type = "OPTION".toList ∧ (p.isCall = true ∨ "OP".toList.isPrefixOf p.cfi = true) ∧
    p.expiration ≠ 0 ∧ p.strike.isNaN = false ∧ p.strike.isInf = false

instance : Decidable p.Accepted := inferInstanceAs (Decidable (_ ∧ _ ∧ _ ∧ _ ∧ _))

/-- The profile is an option of the symbol, as its product or as its underlying. -/
def Listed (symbol : Text) : Prop :=
  p.Accepted ∧ symbol ≠ [] ∧ (orEmpty p.product = symbol ∨ orEmpty p.underlying = symbol)

instance (symbol : Text) : Decidable (p.Listed symbol) :=
  inferInstanceAs (Decidable (_ ∧ _ ∧ _))

/-- The series that the builder holds after it has read the profile. -/
def series : OptionSeries π where
  expiration := p.expiration
  lastTrade := p.lastTrade
  multiplier := p.multiplier
  spc := p.spc
  additionalUnderlyings := orEmpty p.additionalUnderlyings
  mmy := orEmpty p.mmy
  optionType := orEmpty p.optionType
  expirationStyle := orEmpty p.expirationStyle
  settlementStyle := orEmpty p.settlementStyle
  cfi := anySide (orEmpty p.cfi)

theorem exists_cfi {p : InstrumentProfile} (h : p.Accepted) :
    ∃ side rest, p.cfi = 'O' :: side :: rest := by
  obtain ⟨-, hcfi, -⟩ := h
  rcases hcfi with hcall | hput
  · obtain ⟨rest, hrest⟩ := List.isPrefixOf_iff_prefix.mp hcall
    exact ⟨'C', rest, hrest.symm⟩
  · obtain ⟨rest, hrest⟩ := List.isPrefixOf_iff_prefix.mp hput
    exact ⟨'P', rest, hrest.symm⟩

theorem orEmpty_cfi {side : Char} {rest : Text} :
    orEmpty ('O' :: side :: rest) = 'O' :: side :: rest := by
  have hnul : 'O' :: side :: rest ≠ NUL := by
    intro h
    have hhead : 'O' = '<' := (List.cons.inj h).1
    revert hhead
    decide
  rw [orEmpty, if_neg (not_or.mpr ⟨hnul, List.cons_ne_nil _ _⟩)]

theorem series_cfi {p : InstrumentProfile} (h : p.Accepted) :
    ∃ rest, (p.series : OptionSeries π).cfi = 'O' :: 'X' :: rest ∧
      p.cfi.eraseIdx 1 = 'O' :: rest := by
  obtain ⟨side, rest, hcfi⟩ := exists_cfi h
  refine ⟨rest, ?_, ?_⟩
  · change anySide (orEmpty p.cfi) = _
    rw [hcfi, orEmpty_cfi]
    simp [anySide]
  · rw [hcfi]
    rfl

theorem attributes_series {p : InstrumentProfile} (h : p.Accepted) :
    (p.series : OptionSeries π).attributes = p.attributes := by
  obtain ⟨rest, hseries, hcfi⟩ := series_cfi (π := π) h
  have herase : (p.series : OptionSeries π).cfi.eraseIdx 1 = p.cfi.eraseIdx 1 := by
    rw [hseries, hcfi]
    rfl
  unfold OptionSeries.attributes attributes
  rw [herase]
  rfl

end InstrumentProfile

namespace OptionSeries

/-- The second letter of the code is `X`. -/
def Masked (s : OptionSeries π) : Prop := ∃ rest, s.cfi = 'O' :: 'X' :: rest

/-- The order sees no more of such series than their attributes. -/
theorem less_eq_of_attributes {a b c d : OptionSeries π} (ha : a.Masked) (hb : b.Masked)
    (hc : c.Masked) (hd : d.Masked) (hac : a.attributes = c.attributes)
    (hbd : b.attributes = d.attributes) : a.less b = c.less d := by
  obtain ⟨as, ha⟩ := ha
  obtain ⟨bs, hb⟩ := hb
  obtain ⟨cs, hc⟩ := hc
  obtain ⟨ds, hd⟩ := hd
  simp only [attributes, ha, hc, Attributes.mk.injEq, List.eraseIdx_cons_succ,
    List.eraseIdx_cons_zero, List.cons.injEq, true_and] at hac
  simp only [attributes, hb, hd, Attributes.mk.injEq, List.eraseIdx_cons_succ,
    List.eraseIdx_cons_zero, List.cons.injEq, true_and] at hbd
  obtain ⟨he, hl, hm, hs, hu, hy, ho, hx, ht, hcfi⟩ := hac
  obtain ⟨he', hl', hm', hs', hu', hy', ho', hx', ht', hcfi'⟩ := hbd
  unfold less
  rw [ha, hb, hc, hd, he, hl, hu, hy, ho, hx, ht, hcfi, he', hl', hu', hy', ho', hx', ht', hcfi',
    less_congr hm hm', less_congr hs hs', eq_congr hm hm', eq_congr hs hs']

theorem equivalent_of_attributes {a b : OptionSeries π} (ha : a.Masked) (hb : b.Masked)
    (h : a.attributes = b.attributes) : Equivalent less a b := by
  have hirrefl : ∀ s : OptionSeries π, s.less s = false := fun s => by
    simpa using layer_less.irrefl s
  constructor
  · rw [less_eq_of_attributes ha hb hb hb h rfl]
    exact hirrefl b
  · rw [less_eq_of_attributes hb ha hb hb rfl h]
    exact hirrefl b

end OptionSeries

namespace InstrumentProfile

/-- The order ends at a double that is no number, before it has seen all attributes. -/
def Undecided (p q : InstrumentProfile) : Prop :=
  p.expiration = q.expiration ∧ p.lastTrade = q.lastTrade ∧
    ((p.multiplier.isNaN = true ∨ q.multiplier.isNaN = true) ∨
      p.multiplier.eq q.multiplier = true ∧ (p.spc.isNaN = true ∨ q.spc.isNaN = true))

theorem masked_series {p : InstrumentProfile} (h : p.Accepted) :
    (p.series : OptionSeries π).Masked := by
  obtain ⟨rest, hrest, -⟩ := series_cfi (π := π) h
  exact ⟨rest, hrest⟩

theorem equivalent_series_iff {p q : InstrumentProfile} (hp : p.Accepted) (hq : q.Accepted) :
    Equivalent OptionSeries.less (p.series : OptionSeries π) q.series ↔
      p.Undecided q ∨ p.attributes = q.attributes := by
  constructor
  · intro h
    obtain ⟨hexpiration, hlastTrade, hopen | ⟨hmultiplier, hopen | ⟨hspc, htexts⟩⟩⟩ :=
      OptionSeries.equivalent_iff.mp h
    · exact Or.inl ⟨hexpiration, hlastTrade, Or.inl hopen⟩
    · exact Or.inl ⟨hexpiration, hlastTrade, Or.inr ⟨hmultiplier, hopen⟩⟩
    · right
      have hm := rank_eq_rank.mpr (Or.inl hmultiplier)
      have hs := rank_eq_rank.mpr (Or.inl hspc)
      simp only [OptionSeries.texts, EmbeddingLike.apply_eq_iff_eq, Prod.mk.injEq] at htexts
      obtain ⟨hu, hy, ho, hx, ht, hcfi⟩ := htexts
      rw [← attributes_series (π := π) hp, ← attributes_series (π := π) hq]
      unfold OptionSeries.attributes
      rw [hexpiration, hlastTrade, hm, hs, hu, hy, ho, hx, ht, hcfi]
  · rintro (⟨hexpiration, hlastTrade, hopen⟩ | hattributes)
    · apply OptionSeries.equivalent_iff.mpr
      exact ⟨hexpiration, hlastTrade, hopen.imp_right fun h => ⟨h.1, Or.inl h.2⟩⟩
    · apply OptionSeries.equivalent_of_attributes (masked_series hp) (masked_series hq)
      rwa [attributes_series hp, attributes_series hq]

end InstrumentProfile

/-! ## One chain -/

namespace OptionChain

variable (profile : π → InstrumentProfile)

/-- The call that the builder makes for an accepted profile. -/
def add (c : OptionChain π) (ip : π) : Option (OptionChain π) :=
  c.addOption (profile ip).series (profile ip).isCall (profile ip).strike ip

/-- The listed profiles for one strike on one side of a series. -/
def slot (a : Attributes) (isCall : Bool) (strike : Double) (ips : List π) : List π :=
  ips.filter fun ip => (profile ip).attributes = a ∧ (profile ip).isCall = isCall ∧
    (profile ip).strike.eq strike = true

variable {profile}

/-- Only the attributes count in a comparison. -/
theorem equivalent_stripped {a b s : OptionSeries π} (h : a.stripped = b.stripped) :
    Equivalent OptionSeries.less a s ↔ Equivalent OptionSeries.less b s := by
  unfold Equivalent
  rw [← OptionSeries.less_stripped a, ← OptionSeries.less_stripped s a, h,
    OptionSeries.less_stripped, OptionSeries.less_stripped]

theorem strictWeakOn_of_stripped {a b : OptionSeries π} {k l : List (OptionSeries π)}
    (h : StrictWeakOn OptionSeries.less (b :: l)) (hab : a.stripped = b.stripped) (hsub : k ⊆ l) :
    StrictWeakOn OptionSeries.less (a :: k) := by
  rw [← OptionSeries.strictWeakOn_stripped] at h ⊢
  apply h.subset
  rw [List.map_cons, List.map_cons, hab]
  exact List.cons_subset_cons _ (List.map_subset _ hsub)

/-- A new option goes to a series of its own or to the one that is ordered neither before nor
behind its own. -/
theorem add_spec {c c' : OptionChain π} {ip : π} (hs : Sorted OptionSeries.less c.series)
    (h : c.add profile ip = some c') :
    c'.symbol = c.symbol ∧ Sorted OptionSeries.less c'.series ∧
      ((∀ s ∈ c.series, ¬ Equivalent OptionSeries.less (profile ip).series s) ∧
          (∀ z, z ∈ c'.series ↔ z = (profile ip).series.addOption (profile ip).isCall
            (profile ip).strike ip ∨ z ∈ c.series) ∨
        ∃ it ∈ c.series, Equivalent OptionSeries.less (profile ip).series it ∧
          ∀ z, z ∈ c'.series ↔ z = it.addOption (profile ip).isCall (profile ip).strike ip ∨
            z ∈ c.series ∧ z ≠ it) := by
  unfold add addOption at h
  split at h
  next hweak =>
    split at h
    next hnone =>
      cases h
      have hstripped := OptionSeries.stripped_addOption (profile ip).series (profile ip).isCall
        (profile ip).strike ip
      have hfresh : ∀ s ∈ c.series, ¬ Equivalent OptionSeries.less (profile ip).series s := by
        intro s hmem heq
        rw [(find_eq_some_on hweak hs).mpr ⟨hmem, heq⟩] at hnone
        cases hnone
      have hadded := insert_added fun s hmem heq =>
        hfresh s hmem ((equivalent_stripped hstripped).mp heq)
      refine ⟨rfl, ?_, Or.inl ⟨hfresh, fun z => mem_insert hadded⟩⟩
      exact hs.insert_on (strictWeakOn_of_stripped hweak hstripped (List.Subset.refl _))
    next it hfound =>
      cases h
      have hstripped := OptionSeries.stripped_addOption it (profile ip).isCall
        (profile ip).strike ip
      obtain ⟨hmem, heq⟩ := (find_eq_some_on hweak hs).mp hfound
      have hweak' : StrictWeakOn OptionSeries.less (it :: c.series) :=
        hweak.subset (List.cons_subset.mpr ⟨List.mem_cons_of_mem _ hmem, List.subset_cons_self _ _⟩)
      have hadded := insert_added fun s hs' heq' =>
        ((mem_erase_on hweak' hs).mp hs').2 ((equivalent_stripped hstripped).mp heq')
      refine ⟨rfl, ?_, Or.inr ⟨it, hmem, heq, fun z => ?_⟩⟩
      · apply hs.erase.insert_on
        exact strictWeakOn_of_stripped hweak' hstripped (erase_sublist it c.series).subset
      · exact (mem_insert hadded).trans (or_congr_right (mem_erase_of_mem hweak' hs hmem))
  next => cases h

theorem add_defined {c : OptionChain π} {ip : π}
    (h : StrictWeakOn OptionSeries.less ((profile ip).series :: c.series)) :
    ∃ c', c.add profile ip = some c' := by
  unfold add addOption
  rw [if_pos h]
  split
  · exact ⟨_, rfl⟩
  · exact ⟨_, rfl⟩

/-- Profiles that the order leaves undecided agree in all attributes. -/
def ToldApart (profile : π → InstrumentProfile) (ips : List π) : Prop :=
  ∀ ip ∈ ips, ∀ jp ∈ ips, (profile ip).Undecided (profile jp) →
    (profile ip).attributes = (profile jp).attributes

/-- The chain groups the profiles added to it, of which the first ones stay. -/
structure Groups (profile : π → InstrumentProfile) (added : List π) (c : OptionChain π) :
    Prop where
  sorted : Sorted OptionSeries.less c.series
  fromProfile : ∀ s ∈ c.series, ∃ ip ∈ added, s.stripped = (profile ip).series
  covered : ∀ ip ∈ added, ∃ s ∈ c.series, s.attributes = (profile ip).attributes
  tidy : ∀ s ∈ c.series, ∀ isCall, OptionSeries.Tidy (s.options isCall)
  first : ∀ s ∈ c.series, ∀ isCall strike,
    s.optionAt isCall strike = (slot profile s.attributes isCall strike added).head?

theorem slot_snoc (a : Attributes) (isCall : Bool) (strike : Double) (added : List π) (ip : π) :
    (slot profile a isCall strike (added ++ [ip])).head? =
      if (profile ip).attributes = a ∧ (profile ip).isCall = isCall ∧
          (profile ip).strike.eq strike = true then
        (slot profile a isCall strike added).head?.or (some ip)
      else (slot profile a isCall strike added).head? := by
  rw [slot, List.filter_append, List.head?_append]
  split
  next h =>
    rw [List.filter_cons_of_pos (by simpa using h)]
    rfl
  next h =>
    rw [List.filter_cons_of_neg (by simpa using h), List.filter_nil]
    exact Option.or_none

/-- Profiles and series with one spelling of the attributes are told apart by them. -/
theorem equivalent_iff_attributes {ips : List π} (haccepted : ∀ ip ∈ ips, (profile ip).Accepted)
    (htold : ToldApart profile ips) {s t : OptionSeries π}
    (hs : ∃ ip ∈ ips, s.stripped = (profile ip).series)
    (ht : ∃ ip ∈ ips, t.stripped = (profile ip).series) :
    Equivalent OptionSeries.less s t ↔ s.attributes = t.attributes := by
  obtain ⟨ip, hip, hs⟩ := hs
  obtain ⟨jp, hjp, ht⟩ := ht
  have hsip : s.attributes = (profile ip).attributes :=
    (congrArg OptionSeries.attributes hs).trans
      (InstrumentProfile.attributes_series (haccepted ip hip))
  have htjp : t.attributes = (profile jp).attributes :=
    (congrArg OptionSeries.attributes ht).trans
      (InstrumentProfile.attributes_series (haccepted jp hjp))
  have hseries : Equivalent OptionSeries.less s t ↔
      Equivalent OptionSeries.less (profile ip).series ((profile jp).series : OptionSeries π) := by
    unfold Equivalent
    rw [← hs, ← ht]
    rfl
  rw [hseries, hsip, htjp, InstrumentProfile.equivalent_series_iff (haccepted ip hip)
    (haccepted jp hjp)]
  constructor
  · rintro (hundecided | hattributes)
    · exact htold ip hip jp hjp hundecided
    · exact hattributes
  · exact Or.inr

theorem attributes_addOption (s : OptionSeries π) (isCall : Bool) (strike : Double) (option : π) :
    (s.addOption isCall strike option).attributes = s.attributes := by
  have hattributes := congrArg OptionSeries.attributes
    (OptionSeries.stripped_addOption s isCall strike option)
  exact hattributes

/-- A series that can take the profile: it has its attributes and shows what was added. -/
structure Fits (profile : π → InstrumentProfile) (added : List π) (ip : π) (s : OptionSeries π) :
    Prop where
  attributes_eq : s.attributes = (profile ip).attributes
  fromProfile : ∃ jp ∈ added ++ [ip], s.stripped = (profile jp).series
  tidy : ∀ isCall, OptionSeries.Tidy (s.options isCall)
  first : ∀ isCall strike,
    s.optionAt isCall strike = (slot profile s.attributes isCall strike added).head?

/-- The series of the profile fits as long as no profile with its attributes was added. -/
theorem fits_new {added : List π} {ip : π} (hip : (profile ip).Accepted)
    (hnew : ∀ jp ∈ added, (profile jp).attributes ≠ (profile ip).attributes) :
    Fits profile added ip (profile ip).series := by
  have hkey := InstrumentProfile.attributes_series (π := π) hip
  refine ⟨hkey, ⟨ip, List.mem_append_right _ List.mem_cons_self, rfl⟩, fun isCall => ?_,
    fun isCall strike => ?_⟩
  · cases isCall <;> exact OptionSeries.tidy_nil
  · have hempty : slot profile (profile ip).attributes isCall strike added = [] := by
      apply List.filter_eq_nil_iff.mpr
      intro jp hjp hslot
      exact hnew jp hjp (of_decide_eq_true hslot).1
    rw [hkey, hempty]
    cases isCall <;> rfl

/-- The series that takes the option shows it where it has none yet. -/
theorem Fits.first_addOption {added : List π} {ip : π} {s : OptionSeries π}
    (h : Fits profile added ip s) (hip : (profile ip).Accepted) (isCall : Bool)
    (strike : Double) :
    (s.addOption (profile ip).isCall (profile ip).strike ip).optionAt isCall strike =
      (slot profile s.attributes isCall strike (added ++ [ip])).head? := by
  have hnumber : (profile ip).strike.isNaN = false := hip.2.2.2.1
  rw [OptionSeries.optionAt_addOption h.tidy _ hnumber, slot_snoc, h.first]
  simp only [h.attributes_eq, true_and]

theorem Groups.fits {added : List π} {c : OptionChain π} {ip : π} {s : OptionSeries π}
    (h : Groups profile added c) (hs : s ∈ c.series)
    (hattributes : s.attributes = (profile ip).attributes) : Fits profile added ip s := by
  obtain ⟨jp, hjp, hstripped⟩ := h.fromProfile s hs
  exact ⟨hattributes, ⟨jp, List.mem_append_left _ hjp, hstripped⟩, h.tidy s hs, h.first s hs⟩

/-- The series to which a profile is added is a new one or the one with its attributes. -/
theorem Groups.taker {added : List π} {c c' : OptionChain π} {ip : π} (h : Groups profile added c)
    (hip : (profile ip).Accepted)
    (hiff : ∀ s ∈ (profile ip).series :: c.series, ∀ t ∈ (profile ip).series :: c.series,
      Equivalent OptionSeries.less s t ↔ s.attributes = t.attributes)
    (hadd : c.add profile ip = some c') :
    ∃ s, Fits profile added ip s ∧
      ∀ z, z ∈ c'.series ↔ z = s.addOption (profile ip).isCall (profile ip).strike ip ∨
        z ∈ c.series ∧ z.attributes ≠ (profile ip).attributes := by
  have hdecided : ∀ s ∈ c.series, Equivalent OptionSeries.less (profile ip).series s ↔
      s.attributes = (profile ip).attributes := by
    intro s hs
    rw [hiff _ List.mem_cons_self s (List.mem_cons_of_mem _ hs),
      InstrumentProfile.attributes_series hip]
    exact eq_comm
  obtain ⟨-, -, ⟨hfresh, hmem⟩ | ⟨it, hit, heq, hmem⟩⟩ := add_spec h.sorted hadd
  · have hnew : ∀ s ∈ c.series, s.attributes ≠ (profile ip).attributes := fun s hs heq =>
      hfresh s hs ((hdecided s hs).mpr heq)
    refine ⟨_, fits_new hip ?_, fun z => ?_⟩
    · intro jp hjp heq
      obtain ⟨s, hs, hattributes⟩ := h.covered jp hjp
      exact hnew s hs (hattributes.trans heq)
    · rw [hmem z]
      exact or_congr_right ⟨fun hz => ⟨hz, hnew z hz⟩, fun hz => hz.1⟩
  · have hattributes : it.attributes = (profile ip).attributes := (hdecided it hit).mp heq
    refine ⟨it, h.fits hit hattributes, fun z => ?_⟩
    rw [hmem z]
    apply or_congr_right
    constructor
    · rintro ⟨hz, hne⟩
      refine ⟨hz, fun hsame => hne ?_⟩
      have hzit : Equivalent OptionSeries.less z it :=
        (hiff z (List.mem_cons_of_mem _ hz) it (List.mem_cons_of_mem _ hit)).mpr
          (hsame.trans hattributes.symm)
      exact h.sorted.eq_of_equivalent hz hit hzit
    · rintro ⟨hz, hne⟩
      refine ⟨hz, fun hzit => hne ?_⟩
      rw [hzit, hattributes]

theorem Groups.add {added ips : List π} {c : OptionChain π} {ip : π} (h : Groups profile added c)
    (haccepted : ∀ ip ∈ ips, (profile ip).Accepted) (htold : ToldApart profile ips)
    (hadded : added ⊆ ips) (hip : ip ∈ ips) :
    ∃ c', c.add profile ip = some c' ∧ Groups profile (added ++ [ip]) c' := by
  have hfrom : ∀ s ∈ (profile ip).series :: c.series,
      ∃ jp ∈ ips, s.stripped = (profile jp).series := by
    intro s hs
    rcases List.mem_cons.mp hs with rfl | hs
    · exact ⟨ip, hip, rfl⟩
    · obtain ⟨jp, hjp, hstripped⟩ := h.fromProfile s hs
      exact ⟨jp, hadded hjp, hstripped⟩
  have hiff : ∀ s ∈ (profile ip).series :: c.series, ∀ t ∈ (profile ip).series :: c.series,
      Equivalent OptionSeries.less s t ↔ s.attributes = t.attributes := fun s hs t ht =>
    equivalent_iff_attributes haccepted htold (hfrom s hs) (hfrom t ht)
  obtain ⟨c', hc'⟩ := add_defined (OptionSeries.layer_less.strictWeakOn hiff)
  obtain ⟨s, hfits, hmem⟩ := h.taker (haccepted ip hip) hiff hc'
  refine ⟨c', hc', (add_spec h.sorted hc').2.1, fun z hz => ?_, fun jp hjp => ?_,
    fun z hz => ?_, fun z hz => ?_⟩
  · rcases (hmem z).mp hz with rfl | ⟨hz, -⟩
    · rw [OptionSeries.stripped_addOption]
      exact hfits.fromProfile
    · obtain ⟨jp, hjp, hstripped⟩ := h.fromProfile z hz
      exact ⟨jp, List.mem_append_left _ hjp, hstripped⟩
  · by_cases hsame : (profile jp).attributes = (profile ip).attributes
    · refine ⟨_, (hmem _).mpr (Or.inl rfl), ?_⟩
      rw [attributes_addOption, hfits.attributes_eq, hsame]
    · have hold : jp ∈ added := by
        rcases List.mem_append.mp hjp with hjp | hjp
        · exact hjp
        · rw [List.mem_singleton.mp hjp] at hsame
          exact absurd rfl hsame
      obtain ⟨t, ht, hattributes⟩ := h.covered jp hold
      exact ⟨t, (hmem t).mpr (Or.inr ⟨ht, hattributes ▸ hsame⟩), hattributes⟩
  · rcases (hmem z).mp hz with rfl | ⟨hz, -⟩
    · exact OptionSeries.tidy_addOption hfits.tidy _ (haccepted ip hip).2.2.2.1 ip
    · exact h.tidy z hz
  · rcases (hmem z).mp hz with rfl | ⟨hz, hne⟩
    · rw [attributes_addOption]
      exact hfits.first_addOption (haccepted ip hip)
    · intro isCall strike
      rw [slot_snoc, if_neg fun hslot => hne hslot.1.symm]
      exact h.first z hz isCall strike

/-- Told apart, the profiles of a list make a chain of groups. -/
theorem run_groups {ips : List π} (haccepted : ∀ ip ∈ ips, (profile ip).Accepted)
    (htold : ToldApart profile ips) (symbol : Text) :
    ∃ c, run (add profile) { symbol := symbol } ips = some c ∧ Groups profile ips c := by
  have hempty : Groups profile [] ({ symbol := symbol } : OptionChain π) :=
    ⟨List.Pairwise.nil, by simp, by simp, by simp, by simp⟩
  have hmeets := @meets_of_mem _ _ (add profile) (fun _ ip => ip ∈ ips) ips (fun ip hip _ => hip)
    { symbol := symbol }
  have hstep : ∀ (c : OptionChain π) (added : List π) (ip : π),
      (added ⊆ ips ∧ Groups profile added c) → ip ∈ ips → ∃ c', c.add profile ip = some c' ∧
        (added ++ [ip] ⊆ ips ∧ Groups profile (added ++ [ip]) c') := by
    rintro c added ip ⟨hadded, hgroups⟩ hip
    obtain ⟨c', hc', hgroups'⟩ := hgroups.add haccepted htold hadded hip
    exact ⟨c', hc', List.append_subset.mpr ⟨hadded, by simpa using hip⟩, hgroups'⟩
  obtain ⟨c, hrun, -, hgroups⟩ := run_collects hstep ⟨List.nil_subset ips, hempty⟩ hmeets
  exact ⟨c, hrun, hgroups⟩

/-- Whatever the profiles are, the series stay in order and come from them. -/
theorem run_fromProfile {c : OptionChain π} {ips : List π} {symbol : Text}
    (h : run (add profile) { symbol := symbol } ips = some c) :
    Sorted OptionSeries.less c.series ∧
      ∀ s ∈ c.series, ∃ ip ∈ ips, s.stripped = (profile ip).series := by
  have hmeets := @meets_of_mem _ _ (add profile) (fun _ ip => ip ∈ ips) ips (fun ip hip _ => hip)
    { symbol := symbol }
  have hstep : ∀ (c c' : OptionChain π) (ip : π),
      (Sorted OptionSeries.less c.series ∧
        ∀ s ∈ c.series, ∃ ip ∈ ips, s.stripped = (profile ip).series) →
      ip ∈ ips → c.add profile ip = some c' → Sorted OptionSeries.less c'.series ∧
        ∀ s ∈ c'.series, ∃ ip ∈ ips, s.stripped = (profile ip).series := by
    rintro c c' ip ⟨hsorted, hfrom⟩ hip hadd
    obtain ⟨-, hsorted', ⟨-, hmem⟩ | ⟨it, hit, -, hmem⟩⟩ := add_spec hsorted hadd
    · refine ⟨hsorted', fun s hs => ?_⟩
      rcases (hmem s).mp hs with rfl | hs
      · exact ⟨ip, hip, OptionSeries.stripped_addOption _ _ _ _⟩
      · exact hfrom s hs
    · refine ⟨hsorted', fun s hs => ?_⟩
      rcases (hmem s).mp hs with rfl | ⟨hs, -⟩
      · rw [OptionSeries.stripped_addOption]
        exact hfrom it hit
      · exact hfrom s hs
  have hempty : Sorted OptionSeries.less ([] : List (OptionSeries π)) := List.Pairwise.nil
  exact Meets.run_invariant hstep ⟨hempty, by simp⟩ hmeets h

/-! ### What a chain should be -/

/-- The chain has one series for all profiles with the same attributes and no other series; a
series shows for each strike the last profile and has no other strikes. -/
structure Grouped (profile : π → InstrumentProfile) (listed : List π) (c : OptionChain π) :
    Prop where
  series_of : ∀ ip ∈ listed, ∃! s, s ∈ c.series ∧ s.attributes = (profile ip).attributes
  of_profile : ∀ s ∈ c.series, ∃ ip ∈ listed, s.attributes = (profile ip).attributes
  options : ∀ s ∈ c.series, ∀ isCall strike,
    s.optionAt isCall strike = (slot profile s.attributes isCall strike listed).getLast?
  strikes : ∀ s ∈ c.series, ∀ isCall, ∀ o ∈ s.options isCall,
    slot profile s.attributes isCall o.1 listed ≠ []

/-- No two profiles of the list meet in one place. -/
def Unrepeated (profile : π → InstrumentProfile) (listed : List π) : Prop :=
  ∀ a isCall strike, (slot profile a isCall strike listed).head? =
    (slot profile a isCall strike listed).getLast?

theorem mem_slot {a : Attributes} {isCall : Bool} {strike : Double} {ips : List π} {ip : π} :
    ip ∈ slot profile a isCall strike ips ↔ ip ∈ ips ∧ (profile ip).attributes = a ∧
      (profile ip).isCall = isCall ∧ (profile ip).strike.eq strike = true := by
  simp [slot]

/-- A list of profiles, as they come to a chain: one may come twice in a row. -/
structure Comes (profile : π → InstrumentProfile) (listed added : List π) : Prop where
  accepted : ∀ ip ∈ listed, (profile ip).Accepted
  mem : ∀ ip, ip ∈ added ↔ ip ∈ listed
  first : ∀ a isCall strike, (slot profile a isCall strike added).head? =
    (slot profile a isCall strike listed).head?

variable {listed added : List π}

theorem Comes.acceptedAdded (h : Comes profile listed added) :
    ∀ ip ∈ added, (profile ip).Accepted := fun ip hip => h.accepted ip ((h.mem ip).mp hip)

theorem Comes.toldApart (h : Comes profile listed added) (htold : ToldApart profile listed) :
    ToldApart profile added := fun ip hip jp hjp =>
  htold ip ((h.mem ip).mp hip) jp ((h.mem jp).mp hjp)

theorem slot_ne_nil_of_optionAt {s : OptionSeries π} {isCall : Bool} {o : Double × π}
    {last : Option π} (htidy : OptionSeries.Tidy (s.options isCall)) (ho : o ∈ s.options isCall)
    (h : s.optionAt isCall o.1 = last) : last ≠ none := by
  have hself : o.1.eq o.1 = true := eq_eq_true.mpr ⟨⟨htidy.numbers o ho, htidy.numbers o ho⟩, rfl⟩
  intro hnone
  rw [hnone, OptionSeries.optionAt, Option.map_eq_none_iff, List.find?_eq_none] at h
  exact h o ho hself

theorem Groups.grouped {c : OptionChain π} (h : Groups profile added c)
    (hcomes : Comes profile listed added) (htold : ToldApart profile listed)
    (hunrepeated : Unrepeated profile listed) : Grouped profile listed c := by
  have hlast : ∀ s ∈ c.series, ∀ isCall strike,
      s.optionAt isCall strike = (slot profile s.attributes isCall strike listed).getLast? := by
    intro s hs isCall strike
    rw [h.first s hs, hcomes.first, hunrepeated]
  refine ⟨fun ip hip => ?_, fun s hs => ?_, hlast, fun s hs isCall o ho => ?_⟩
  · obtain ⟨s, hs, hattributes⟩ := h.covered ip ((hcomes.mem ip).mpr hip)
    refine ⟨s, ⟨hs, hattributes⟩, ?_⟩
    rintro t ⟨ht, hsame⟩
    have hequivalent : Equivalent OptionSeries.less t s :=
      (equivalent_iff_attributes hcomes.acceptedAdded (hcomes.toldApart htold)
        (h.fromProfile t ht) (h.fromProfile s hs)).mpr (hsame.trans hattributes.symm)
    exact h.sorted.eq_of_equivalent ht hs hequivalent
  · obtain ⟨ip, hip, hstripped⟩ := h.fromProfile s hs
    have hattributes := congrArg OptionSeries.attributes hstripped
    rw [InstrumentProfile.attributes_series (hcomes.acceptedAdded ip hip)] at hattributes
    exact ⟨ip, (hcomes.mem ip).mp hip, hattributes⟩
  · intro hnil
    apply slot_ne_nil_of_optionAt (h.tidy s hs isCall) ho (hlast s hs isCall o.1)
    rw [hnil]
    rfl

theorem Grouped.toldApart {c : OptionChain π} {symbol : Text} (h : Grouped profile listed c)
    (hcomes : Comes profile listed added)
    (hrun : run (add profile) { symbol := symbol } added = some c) :
    ToldApart profile listed := by
  obtain ⟨hsorted, hfrom⟩ := run_fromProfile hrun
  have hmasked : ∀ s ∈ c.series, s.Masked := by
    intro s hs
    obtain ⟨ip, hip, hstripped⟩ := hfrom s hs
    obtain ⟨rest, hrest⟩ :=
      InstrumentProfile.masked_series (π := π) (hcomes.acceptedAdded ip hip)
    exact ⟨rest, (congrArg OptionSeries.cfi hstripped).trans hrest⟩
  intro ip hip jp hjp hundecided
  have hmaskedIp := InstrumentProfile.masked_series (π := π) (hcomes.accepted ip hip)
  have hmaskedJp := InstrumentProfile.masked_series (π := π) (hcomes.accepted jp hjp)
  have hequivalent := (InstrumentProfile.equivalent_series_iff (π := π) (hcomes.accepted ip hip)
    (hcomes.accepted jp hjp)).mpr (Or.inl hundecided)
  obtain ⟨s, ⟨hs, hsip⟩, -⟩ := h.series_of ip hip
  obtain ⟨t, ⟨ht, htjp⟩, -⟩ := h.series_of jp hjp
  rw [← InstrumentProfile.attributes_series (hcomes.accepted ip hip)] at hsip
  rw [← InstrumentProfile.attributes_series (hcomes.accepted jp hjp)] at htjp
  have hst : Equivalent OptionSeries.less s t := by
    constructor
    · rw [OptionSeries.less_eq_of_attributes (hmasked s hs) (hmasked t ht) hmaskedIp
        hmaskedJp hsip htjp]
      exact hequivalent.1
    · rw [OptionSeries.less_eq_of_attributes (hmasked t ht) (hmasked s hs) hmaskedJp
        hmaskedIp htjp hsip]
      exact hequivalent.2
  obtain rfl : s = t := hsorted.eq_of_equivalent hs ht hst
  rw [← InstrumentProfile.attributes_series (π := π) (hcomes.accepted ip hip), ← hsip, htjp,
    InstrumentProfile.attributes_series (hcomes.accepted jp hjp)]

theorem Grouped.unrepeated {c : OptionChain π} {symbol : Text} (h : Grouped profile listed c)
    (hcomes : Comes profile listed added)
    (hrun : run (add profile) { symbol := symbol } added = some c) :
    Unrepeated profile listed := by
  obtain ⟨c', hrun', hgroups⟩ :=
    run_groups hcomes.acceptedAdded (hcomes.toldApart (h.toldApart hcomes hrun)) symbol
  obtain rfl : c' = c := Option.some.inj (hrun'.symm.trans hrun)
  intro a isCall strike
  cases hslot : slot profile a isCall strike listed with
  | nil => rfl
  | cons ip rest =>
    have hmem : ip ∈ slot profile a isCall strike listed := by
      rw [hslot]
      exact List.mem_cons_self
    obtain ⟨hlisted, rfl, -⟩ := mem_slot.mp hmem
    obtain ⟨s, ⟨hs, hattributes⟩, -⟩ := h.series_of ip hlisted
    rw [← hslot, ← hcomes.first, ← hattributes, ← hgroups.first s hs, h.options s hs]

/-- A chain comes out right exactly for profiles that are told apart and do not repeat. -/
theorem grouped_iff (hcomes : Comes profile listed added) (symbol : Text) :
    (∃ c, run (add profile) { symbol := symbol } added = some c ∧ Grouped profile listed c) ↔
      ToldApart profile listed ∧ Unrepeated profile listed := by
  constructor
  · rintro ⟨c, hrun, hgrouped⟩
    exact ⟨hgrouped.toldApart hcomes hrun, hgrouped.unrepeated hcomes hrun⟩
  · rintro ⟨htold, hunrepeated⟩
    obtain ⟨c, hrun, hgroups⟩ :=
      run_groups hcomes.acceptedAdded (hcomes.toldApart htold) symbol
    exact ⟨c, hrun, hgroups.grouped hcomes htold hunrepeated⟩

end OptionChain

end OptionChains
