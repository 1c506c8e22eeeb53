import DxFeedGraal.CandlePrinting

/-! # Candle symbols made from texts

A text becomes a candle symbol by five passes and five reads. The texts for which none of
them fails, and those that are left as they are by a second time, are described on the
braces that the passes leave. -/
namespace CandleNormalisation

open CppStrings CppNumbers DoubleValues MarketEventSymbols SymbolAttributes GroupedSymbols
open CandleAttributes NormalisingPasses CandlePrinting

variable (lib : StandardLibrary)

/-- In the order of `CandleSymbol::normalize`. -/
def passes : List Pass :=
  [pass printable_price, pass printable_session, pass (printable_period lib),
    pass printable_alignment, pass (printable_priceLevel lib)]

theorem passes_keys : ((passes lib).map Pass.key).Nodup := by
  change ["price".toList, "tho".toList, [], "a".toList, "pl".toList].Nodup
  decide

theorem forall_passes {P : Pass → Prop} : (∀ p ∈ passes lib, P p) ↔
    P (pass printable_price) ∧ P (pass printable_session) ∧ P (pass (printable_period lib)) ∧
      P (pass printable_alignment) ∧ P (pass (printable_priceLevel lib)) := by
  simp [passes]

section Calls

theorem normalize_eq_ok {symbol result : Text} :
    CandleSymbol.normalize lib symbol = .ok result ↔
      runPasses (passes lib) symbol = .ok result := by
  simp only [CandleSymbol.normalize, passes, runPasses, noexcept_eq_ok, bind_eq_ok,
    normalizeAttributeForSymbol_eq printable_price,
    normalizeAttributeForSymbol_eq printable_session,
    normalizeAttributeForSymbol_eq (printable_period lib),
    normalizeAttributeForSymbol_eq printable_alignment,
    normalizeAttributeForSymbol_eq (printable_priceLevel lib), Except.ok.injEq, exists_eq_right]

theorem length_without_le (symbol : Text) :
    getLengthWithoutAttributesInternal symbol ≤ symbol.length := by
  obtain ⟨⟨bare, groups, hbare⟩, rfl⟩ := every_text_grouped symbol
  cases groups with
  | nil => exact hbare.le
  | cons g gs =>
    change getLengthWithoutAttributesInternal (textOf bare (g :: gs)) ≤
      (textOf bare (g :: gs)).length
    rw [length_textOf_cons, textOf, length_inBraces]
    omega

theorem getBaseSymbol_total (symbol : Text) : ∃ base, getBaseSymbol symbol = .ok base := by
  have hle := length_without_le symbol
  rw [getBaseSymbol, getBaseSymbolInternal]
  split
  next =>
    have hle' : getLengthWithoutAttributesInternal symbol - 2 ≤ symbol.length := by omega
    simp [substr]
  next => simp [substr]

theorem initTransientFields_symbol {symbol : Text} {c : CandleSymbol}
    (h : CandleSymbol.initTransientFields lib symbol = .ok c) : c.symbol = symbol := by
  simp only [CandleSymbol.initTransientFields, noexcept_eq_ok, bind_eq_ok] at h
  obtain ⟨_, -, _, -, _, -, _, -, _, -, _, -, hc⟩ := h
  cases hc
  rfl

/-- The getters return exactly when every text they read is accepted. -/
theorem initTransientFields_defined (symbol : Text) :
    (∃ c, CandleSymbol.initTransientFields lib symbol = .ok c) ↔ ∀ p ∈ passes lib, ∀ v,
      getAttributeStringByKey symbol p.key = .ok (some v) → p.Accepts v := by
  rw [forall_passes, ← getAttributeForSymbol_defined, ← getAttributeForSymbol_defined,
    ← getAttributeForSymbol_defined, ← getAttributeForSymbol_defined,
    ← getAttributeForSymbol_defined]
  simp only [CandleSymbol.initTransientFields, noexcept_eq_ok, bind_eq_ok]
  constructor
  · rintro ⟨c, _, -, price, hprice, session, hsession, period, hperiod, alignment, halignment,
      level, hlevel, -⟩
    exact ⟨⟨price, hprice⟩, ⟨session, hsession⟩, ⟨period, hperiod⟩, ⟨alignment, halignment⟩, level,
      hlevel⟩
  · rintro ⟨⟨price, hprice⟩, ⟨session, hsession⟩, ⟨period, hperiod⟩, ⟨alignment, halignment⟩, level,
    hlevel⟩
    obtain ⟨base, hbase⟩ := getBaseSymbol_total symbol
    exact ⟨_, base, hbase, price, hprice, session, hsession, period, hperiod, alignment, halignment,
      level, hlevel, rfl⟩

theorem valueOf_eq_ok {symbol : Text} {c : CandleSymbol} : CandleSymbol.valueOf lib symbol = .ok c ↔
    runPasses (passes lib) symbol = .ok c.symbol ∧
      CandleSymbol.initTransientFields lib c.symbol = .ok c := by
  rw [CandleSymbol.valueOf, noexcept_eq_ok, bind_eq_ok]
  constructor
  · rintro ⟨result, hresult, hc⟩
    rw [normalize_eq_ok] at hresult
    rw [initTransientFields_symbol lib hc]
    exact ⟨hresult, hc⟩
  · rintro ⟨hresult, hc⟩
    exact ⟨c.symbol, (normalize_eq_ok lib).mpr hresult, hc⟩

theorem valueOf_completes {symbol : Text} {c : CandleSymbol}
    (h : CandleSymbol.valueOf lib symbol = .ok c) :
    Completes (passes lib) symbol c.symbol := by
  obtain ⟨hrun, hread⟩ := (valueOf_eq_ok lib).mp h
  exact ⟨hrun, (initTransientFields_defined lib c.symbol).mp ⟨c, hread⟩⟩

theorem valueOf_defined (symbol : Text) :
    (∃ c, CandleSymbol.valueOf lib symbol = .ok c) ↔
      ∃ result, Completes (passes lib) symbol result := by
  constructor
  · rintro ⟨c, h⟩
    exact ⟨c.symbol, valueOf_completes lib h⟩
  · rintro ⟨result, hrun, hread⟩
    obtain ⟨c, hc⟩ := (initTransientFields_defined lib result).mpr hread
    obtain rfl := initTransientFields_symbol lib hc
    exact ⟨c, (valueOf_eq_ok lib).mpr ⟨hrun, hc⟩⟩

/-- A candle symbol is made again from its own text when the passes leave that text. -/
theorem valueOf_again {symbol : Text} {c : CandleSymbol}
    (h : CandleSymbol.valueOf lib symbol = .ok c) :
    CandleSymbol.valueOf lib c.symbol = .ok c ↔ runPasses (passes lib) c.symbol = .ok c.symbol := by
  have hread := ((valueOf_eq_ok lib).mp h).2
  rw [valueOf_eq_ok]
  exact and_iff_left hread

end Calls

section Completion

/-- What the braces that come to light have to hold, so that no call fails. A number that a
pass prints must not be refused when the getter reads it. -/
structure ReadableIn (s : GroupedSymbol) (g : Group) : Prop where
  price : ∀ v, valueAt CandlePrice.kind.attributeKey g.attributes = some v →
    ∃ x, CandlePrice.parse v = .ok x
  session : ∀ v, valueAt CandleSession.kind.attributeKey g.attributes = some v →
    ∃ x, CandleSession.parse v = .ok x
  period : ∀ v, valueAt (CandlePeriod.kind lib).attributeKey g.attributes = some v →
    ∃ p, CandlePeriod.parse lib v = .ok p ∧
      (Pending (passes lib) s (CandlePeriod.kind lib).attributeKey →
        equals p.value (.finite 1) = true ∨ refuses lib (printedNumber p.value) = false)
  alignment : ∀ v, valueAt CandleAlignment.kind.attributeKey g.attributes = some v →
    ∃ x, CandleAlignment.parse v = .ok x
  priceLevel : ∀ v, valueAt (CandlePriceLevel.kind lib).attributeKey g.attributes = some v →
    ∃ l, CandlePriceLevel.parse lib v = .ok l ∧
      (Pending (passes lib) s (CandlePriceLevel.kind lib).attributeKey →
        refuses lib (printedNumber l.value) = false ∧ reread lib l.value ≠ .negZero)

def Readable (s : GroupedSymbol) : Prop :=
  ∀ g ∈ (surface (passes lib) s.groups).2.head?, ReadableIn lib s g

variable {lib}

theorem period_reprintable {v : Text} {p : CandlePeriod} (hp : CandlePeriod.parse lib v = .ok p) :
    (reprint (CandlePeriod.kind lib) v = .ok none ∨
        ∃ t, reprint (CandlePeriod.kind lib) v = .ok (some t) ∧
          ∃ x, CandlePeriod.parse lib t = .ok x) ↔
      equals p.value (.finite 1) = true ∨ refuses lib (printedNumber p.value) = false := by
  obtain ⟨q, hq⟩ := period_value_finite lib hp
  by_cases hone : equals p.value (.finite 1) = true
  · have htext : CandlePeriod.toText p = p.type.toText := if_pos hone
    refine iff_of_true ?_ (Or.inl hone)
    by_cases hdefault : (CandlePeriod.kind lib).equals p (CandlePeriod.kind lib).default = true
    · exact Or.inl (reprint_eq_none.mpr ⟨p, hp, hdefault⟩)
    · have hkept := Bool.eq_false_of_not_eq_true hdefault
      exact Or.inr ⟨_, reprint_eq_some.mpr ⟨p, hp, hkept, htext⟩, _, period_parse_type lib p.type⟩
  · have hfalse := Bool.eq_false_of_not_eq_true hone
    rw [period_reprint lib hp hfalse, hfalse]
    simp only [Except.ok.injEq, reduceCtorEq, false_or, Option.some.injEq, exists_eq_left',
      period_parse_number lib hq, Bool.false_eq_true]
    exact ⟨fun ⟨_, hrange, _⟩ => hrange, fun hrange => ⟨_, hrange, rfl⟩⟩

theorem priceLevel_reprintable {v : Text} {l : CandlePriceLevel}
    (hl : CandlePriceLevel.parse lib v = .ok l) :
    (reprint (CandlePriceLevel.kind lib) v = .ok none ∨
        ∃ t, reprint (CandlePriceLevel.kind lib) v = .ok (some t) ∧
          ∃ x, CandlePriceLevel.parse lib t = .ok x) ↔
      refuses lib (printedNumber l.value) = false ∧ reread lib l.value ≠ .negZero := by
  rw [priceLevel_reprint lib hl]
  simp only [Except.ok.injEq, reduceCtorEq, false_or, Option.some.injEq, exists_eq_left']
  rcases priceLevel_value lib hl with hnan | ⟨q, hq⟩
  · have hprinted : printedNumber .nan = .nan := by decide +kernel
    have hreread : reread lib .nan = .nan := reread_of_not_finite rfl
    rw [hnan, hprinted, hreread, priceLevel_parse_nan]
    exact iff_of_true ⟨_, rfl⟩ ⟨rfl, by simp⟩
  · simp only [priceLevel_parse_number lib hq]
    exact ⟨fun ⟨_, hread, _⟩ => hread, fun hread => ⟨_, hread, rfl⟩⟩

theorem pass_acceptable {α : Type} {kind : AttributeKind α} (h : Printable kind) {v : Text}
    {pending : Prop} {P : α → Prop} (hP : ∀ x, kind.parse v = .ok x →
      ((reprint kind v = .ok none ∨
        ∃ t, reprint kind v = .ok (some t) ∧ ∃ y, kind.parse t = .ok y) ↔ P x)) :
    (pass h).Acceptable pending v ↔ ∃ x, kind.parse v = .ok x ∧ (pending → P x) := by
  simp only [Pass.Acceptable, pass_accepts]
  constructor
  · rintro ⟨hstill, hdone⟩
    by_cases hpending : pending
    · have hprinted := hstill hpending
      have hparse : ∃ x, kind.parse v = .ok x := by
        rcases hprinted with hnone | ⟨t, hsome, -⟩
        · obtain ⟨x, hparse, -⟩ := reprint_eq_none.mp hnone
          exact ⟨x, hparse⟩
        · obtain ⟨x, hparse, -⟩ := reprint_eq_some.mp hsome
          exact ⟨x, hparse⟩
      obtain ⟨x, hparse⟩ := hparse
      exact ⟨x, hparse, fun _ => (hP x hparse).mp hprinted⟩
    · obtain ⟨x, hparse⟩ := hdone hpending
      exact ⟨x, hparse, fun hyes => absurd hyes hpending⟩
  · rintro ⟨x, hparse, hx⟩
    exact ⟨fun hpending => (hP x hparse).mpr (hx hpending), fun _ => ⟨x, hparse⟩⟩

theorem enumeration_acceptable {α : Type} {kind : AttributeKind α} (h : Printable kind)
    (hback : ComesBack kind) {v : Text} {pending : Prop} :
    (pass h).Acceptable pending v ↔ ∃ x, kind.parse v = .ok x := by
  have hP : ∀ x, kind.parse v = .ok x → ((reprint kind v = .ok none ∨
      ∃ t, reprint kind v = .ok (some t) ∧ ∃ y, kind.parse t = .ok y) ↔ True) := by
    intro x hparse
    exact iff_of_true (hback.reprintable_iff.mpr ⟨x, hparse⟩) trivial
  rw [pass_acceptable h hP]
  simp

theorem acceptable_iff (s : GroupedSymbol) :
    OnSurface (passes lib) Pass.Acceptable s ↔ Readable lib s := by
  refine forall₂_congr fun g _ => ?_
  rw [forall_passes]
  simp only [enumeration_acceptable printable_price price_comes_back,
    enumeration_acceptable printable_session session_comes_back,
    enumeration_acceptable printable_alignment alignment_comes_back,
    pass_acceptable (printable_period lib) fun p hp => period_reprintable hp,
    pass_acceptable (printable_priceLevel lib) fun l hl => priceLevel_reprintable hl]
  constructor
  · rintro ⟨hprice, hsession, hperiod, halignment, hlevel⟩
    exact ⟨hprice, hsession, hperiod, halignment, hlevel⟩
  · rintro ⟨hprice, hsession, hperiod, halignment, hlevel⟩
    exact ⟨hprice, hsession, hperiod, halignment, hlevel⟩

end Completion

section Stability

/-- What the braces that come to light have to hold, so that nothing changes a second time:
a number that a pass prints keeps its value, and a text behind its pass is as it is printed. -/
structure LastingIn (s : GroupedSymbol) (g : Group) : Prop where
  price : ∀ v, valueAt CandlePrice.kind.attributeKey g.attributes = some v →
    ¬ Pending (passes lib) s CandlePrice.kind.attributeKey →
      reprint CandlePrice.kind v = .ok (some v)
  session : ∀ v, valueAt CandleSession.kind.attributeKey g.attributes = some v →
    ¬ Pending (passes lib) s CandleSession.kind.attributeKey →
      reprint CandleSession.kind v = .ok (some v)
  period : ∀ v, valueAt (CandlePeriod.kind lib).attributeKey g.attributes = some v →
    (Pending (passes lib) s (CandlePeriod.kind lib).attributeKey →
      ∀ p, CandlePeriod.parse lib v = .ok p →
        equals p.value (.finite 1) = true ∨ ¬ RoundsAway p.value) ∧
    (¬ Pending (passes lib) s (CandlePeriod.kind lib).attributeKey →
      reprint (CandlePeriod.kind lib) v = .ok (some v))
  alignment : ∀ v, valueAt CandleAlignment.kind.attributeKey g.attributes = some v →
    ¬ Pending (passes lib) s CandleAlignment.kind.attributeKey →
      reprint CandleAlignment.kind v = .ok (some v)
  priceLevel : ∀ v, valueAt (CandlePriceLevel.kind lib).attributeKey g.attributes = some v →
    (Pending (passes lib) s (CandlePriceLevel.kind lib).attributeKey →
      ∀ l, CandlePriceLevel.parse lib v = .ok l → ¬ RoundsAway l.value) ∧
    (¬ Pending (passes lib) s (CandlePriceLevel.kind lib).attributeKey →
      reprint (CandlePriceLevel.kind lib) v = .ok (some v))

def Lasting (s : GroupedSymbol) : Prop :=
  ∀ g ∈ (surface (passes lib) s.groups).2.head?, LastingIn lib s g

variable {lib}

theorem period_prints_again {v : Text} {p : CandlePeriod} (hp : CandlePeriod.parse lib v = .ok p)
    (hrange : equals p.value (.finite 1) = true ∨ refuses lib (printedNumber p.value) = false) :
    (∀ t, reprint (CandlePeriod.kind lib) v = .ok (some t) →
      reprint (CandlePeriod.kind lib) t = .ok (some t)) ↔
      equals p.value (.finite 1) = true ∨ ¬ RoundsAway p.value := by
  obtain ⟨q, hq⟩ := period_value_finite lib hp
  by_cases hone : equals p.value (.finite 1) = true
  · have htext : CandlePeriod.toText p = p.type.toText := if_pos hone
    refine iff_of_true ?_ (Or.inl hone)
    intro t ht
    obtain ⟨p', hp', hkept, rfl⟩ := reprint_eq_some.mp ht
    obtain rfl : p = p' := Except.ok.inj (hp.symm.trans hp')
    change (equals p.value (.finite 1) && p.type == .tick) = false at hkept
    rw [hone, Bool.true_and, beq_eq_false_iff_ne] at hkept
    change reprint (CandlePeriod.kind lib) (CandlePeriod.toText p)
      = .ok (some (CandlePeriod.toText p))
    rw [htext]
    exact period_reprint_type lib hkept
  · have hfalse := Bool.eq_false_of_not_eq_true hone
    simp only [period_reprint lib hp hfalse, Except.ok.injEq, Option.some.injEq, forall_eq']
    rw [period_reprint_number lib hq (isDouble_period lib hp) hfalse (hrange.resolve_left hone)]
    exact (or_iff_right hone).symm

theorem priceLevel_prints_again {v : Text} {l : CandlePriceLevel}
    (hl : CandlePriceLevel.parse lib v = .ok l)
    (hread : refuses lib (printedNumber l.value) = false ∧ reread lib l.value ≠ .negZero) :
    (∀ t, reprint (CandlePriceLevel.kind lib) v = .ok (some t) →
        reprint (CandlePriceLevel.kind lib) t = .ok (some t)) ↔ ¬ RoundsAway l.value := by
  simp only [priceLevel_reprint lib hl, Except.ok.injEq, Option.some.injEq, forall_eq']
  rcases priceLevel_value lib hl with hnan | ⟨q, hq⟩
  · rw [hnan]
    refine iff_of_true (priceLevel_reprint lib (priceLevel_parse_nan lib)) ?_
    rintro ⟨-, haway⟩
    have hfalse : equals (sixPlaces .nan) (.finite (toInt64 (sixPlaces .nan))) = false := by
      decide +kernel
    rw [hfalse] at haway
    cases haway
  · exact priceLevel_reprint_number lib hq (isDouble_priceLevel lib hl) hread.1 hread.2

theorem pass_settled {α : Type} {kind : AttributeKind α} (h : Printable kind) {v : Text}
    {pending : Prop} {P : α → Prop} (hdefined : ∃ x, kind.parse v = .ok x)
    (hP : pending → ∀ x, kind.parse v = .ok x →
      ((∀ t, reprint kind v = .ok (some t) → reprint kind t = .ok (some t)) ↔ P x)) :
    (pass h).Settled pending v ↔
      (pending → ∀ x, kind.parse v = .ok x → P x) ∧
        (¬ pending → reprint kind v = .ok (some v)) := by
  refine and_congr (forall_congr' fun hpending => ?_) Iff.rfl
  constructor
  · intro hagain x hparse
    exact (hP hpending x hparse).mp hagain
  · intro hx
    obtain ⟨x, hparse⟩ := hdefined
    exact (hP hpending x hparse).mpr (hx x hparse)

theorem enumeration_settled {α : Type} {kind : AttributeKind α} (h : Printable kind)
    (hback : ComesBack kind) {v : Text} {pending : Prop} :
    (pass h).Settled pending v ↔ (¬ pending → reprint kind v = .ok (some v)) := by
  constructor
  · rintro ⟨-, hdone⟩
    exact hdone
  · intro hdone
    exact ⟨fun _ _ ht => hback.reprint_again ht, hdone⟩

theorem ReadableIn.period_settled {s : GroupedSymbol} {g : Group} (h : ReadableIn lib s g)
    {v : Text}
    (hv : valueAt (CandlePeriod.kind lib).attributeKey g.attributes = some v) :
    (pass (printable_period lib)).Settled
      (Pending (passes lib) s (CandlePeriod.kind lib).attributeKey) v ↔
      (Pending (passes lib) s (CandlePeriod.kind lib).attributeKey →
        ∀ p, CandlePeriod.parse lib v = .ok p →
        equals p.value (.finite 1) = true ∨ ¬ RoundsAway p.value) ∧
      (¬ Pending (passes lib) s (CandlePeriod.kind lib).attributeKey →
        reprint (CandlePeriod.kind lib) v = .ok (some v)) := by
  obtain ⟨p, hp, hrange⟩ := h.period v hv
  apply pass_settled (printable_period lib) ⟨p, hp⟩
  intro hpending p' hp'
  obtain rfl : p = p' := Except.ok.inj (hp.symm.trans hp')
  exact period_prints_again hp (hrange hpending)

theorem ReadableIn.priceLevel_settled {s : GroupedSymbol} {g : Group} (h : ReadableIn lib s g)
    {v : Text}
    (hv : valueAt (CandlePriceLevel.kind lib).attributeKey g.attributes = some v) :
    (pass (printable_priceLevel lib)).Settled
        (Pending (passes lib) s (CandlePriceLevel.kind lib).attributeKey) v ↔
      (Pending (passes lib) s (CandlePriceLevel.kind lib).attributeKey →
        ∀ l, CandlePriceLevel.parse lib v = .ok l → ¬ RoundsAway l.value) ∧
      (¬ Pending (passes lib) s (CandlePriceLevel.kind lib).attributeKey →
        reprint (CandlePriceLevel.kind lib) v = .ok (some v)) := by
  obtain ⟨l, hl, hread⟩ := h.priceLevel v hv
  apply pass_settled (printable_priceLevel lib) ⟨l, hl⟩
  intro hpending l' hl'
  obtain rfl : l = l' := Except.ok.inj (hl.symm.trans hl')
  exact priceLevel_prints_again hl (hread hpending)

theorem settled_iff {s : GroupedSymbol} (h : Readable lib s) :
    OnSurface (passes lib) Pass.Settled s ↔ Lasting lib s := by
  refine forall₂_congr fun g hg => ?_
  have hreadable := h g hg
  rw [forall_passes]
  simp only [enumeration_settled printable_price price_comes_back,
    enumeration_settled printable_session session_comes_back,
    enumeration_settled printable_alignment alignment_comes_back]
  constructor
  · rintro ⟨hprice, hsession, hperiod, halignment, hlevel⟩
    exact
      { price := hprice
        session := hsession
        period := fun v hv => (hreadable.period_settled hv).mp (hperiod v hv)
        alignment := halignment
        priceLevel := fun v hv => (hreadable.priceLevel_settled hv).mp (hlevel v hv) }
  · intro hlasting
    exact ⟨hlasting.price, hlasting.session,
      fun v hv => (hreadable.period_settled hv).mpr (hlasting.period v hv), hlasting.alignment,
      fun v hv => (hreadable.priceLevel_settled hv).mpr (hlasting.priceLevel v hv)⟩

end Stability

/-- Numbers that round beyond the largest double are out of range, and so are positive
numbers below the least normal one. -/
def binary64 : StandardLibrary where
  viewsByStod := false
  outOfRange q := decide (2 ^ 1024 - 2 ^ 970 ≤ q) || (decide (0 < q) && decide (q < 1 / 2 ^ 1022))
  doubles := Doubles.binary64

def exactNumbers : StandardLibrary := { binary64 with doubles := Doubles.exact }

/-- `CandleSymbol::valueOf` returns exactly for the symbols whose last braces, once those
with default attributes alone are taken off, are readable. -/
theorem valueOf_returns_iff (symbol : Text) : (∃ c, CandleSymbol.valueOf lib symbol = .ok c) ↔
    ∃ s : GroupedSymbol, s.text = symbol ∧ Readable lib s := by
  have hreadable : ∀ s : GroupedSymbol,
      (∃ c, CandleSymbol.valueOf lib s.text = .ok c) ↔ Readable lib s := by
    intro s
    rw [valueOf_defined, completes_iff (passes_keys lib), acceptable_iff]
  constructor
  · intro hreturns
    obtain ⟨s, rfl⟩ := every_text_grouped symbol
    exact ⟨s, rfl, (hreadable s).mp hreturns⟩
  · rintro ⟨s, rfl, hs⟩
    exact (hreadable s).mpr hs

/-- A price that no parser accepts, a number that is out of range and two price levels that are
printed as minus zero, one of them only as the double that it is read as. -/
theorem valueOf_terminates :
    CandleSymbol.valueOf binary64 "X\x7bprice=zzz\x7d".toList = .error .terminated ∧
      CandleSymbol.valueOf binary64 "X\x7bpl=1e400\x7d".toList = .error .terminated ∧
      CandleSymbol.valueOf binary64 "X\x7bpl=-0.0000001\x7d".toList = .error .terminated ∧
      CandleSymbol.valueOf binary64 "X\x7bpl=-0.00000050000000000000000001\x7d".toList
        = .error .terminated := by
  decide +kernel

/-- A candle symbol is made again from its own text exactly when the braces it was made
from are lasting. -/
theorem valueOf_repeats_iff {symbol : Text} {c : CandleSymbol}
    (h : CandleSymbol.valueOf lib symbol = .ok c) :
    CandleSymbol.valueOf lib c.symbol = .ok c ↔
      ∃ s : GroupedSymbol, s.text = symbol ∧ Lasting lib s := by
  have hlasting : ∀ s : GroupedSymbol, s.text = symbol →
      (CandleSymbol.valueOf lib c.symbol = .ok c ↔ Lasting lib s) := by
    rintro s rfl
    have hcompletes := valueOf_completes lib h
    have hreadable : Readable lib s := by
      rw [← acceptable_iff, ← completes_iff (passes_keys lib)]
      exact ⟨c.symbol, hcompletes⟩
    rw [valueOf_again lib h, stable_iff (passes_keys lib) s hcompletes, settled_iff hreadable]
  constructor
  · intro hrepeats
    obtain ⟨s, hs⟩ := every_text_grouped symbol
    exact ⟨s, hs, (hlasting s hs).mp hrepeats⟩
  · rintro ⟨s, hs, hl⟩
    exact (hlasting s hs).mpr hl

/-- The candle symbol of `X` with a period of `n` minutes. -/
def minutes (symbol : String) (n : ℕ) : CandleSymbol where
  symbol := symbol.toList
  baseSymbol := ['X']
  exchange := CandleExchange.composite
  price := .last
  session := .any
  period := ⟨.finite n, .minute⟩
  alignment := .midnight
  priceLevel := CandlePriceLevel.default

theorem five_minutes_repeat : CandleSymbol.valueOf binary64 (minutes "X\x7b=5m\x7d" 5).symbol
      = .ok (minutes "X\x7b=5m\x7d" 5) ↔
    ∃ s : GroupedSymbol, s.text = "X\x7b=5.0Min\x7d".toList ∧ Lasting binary64 s :=
  valueOf_repeats_iff binary64 (by decide +kernel)

/-- A period close to one minute gets six decimals first and loses them the second time;
letters behind a pass that is over become lower-case the second time only. -/
theorem valueOf_changes_twice :
    (∀ lib ∈ [exactNumbers, binary64],
      (CandleSymbol.valueOf lib "X\x7b=1.0000001m\x7d".toList
        = .ok (minutes "X\x7b=1.000000m\x7d" 1) ∧
        CandleSymbol.valueOf lib "X\x7b=1.000000m\x7d".toList = .ok (minutes "X\x7b=m\x7d" 1)) ∧
      (CandleSymbol.valueOf lib "X\x7b=M\x7d\x7b=t\x7d".toList = .ok (minutes "X\x7b=M\x7d" 1) ∧
        CandleSymbol.valueOf lib "X\x7b=M\x7d".toList = .ok (minutes "X\x7b=m\x7d" 1))) ∧
    minutes "X\x7b=1.000000m\x7d" 1 ≠ minutes "X\x7b=m\x7d" 1 := by
  decide +kernel

end CandleNormalisation
