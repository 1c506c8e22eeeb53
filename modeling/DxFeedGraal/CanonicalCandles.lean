import DxFeedGraal.CandleSymbolChanges

/-! # Canonical texts of candle symbols

A candle symbol is canonical when its defaults leave no text and its text is determined by
its base and its getters. -/
namespace CanonicalCandles

open CppStrings CppNumbers DoubleValues MarketEventSymbols SymbolAttributes SymbolLenses
open NormalisingPasses CandleAttributes CandlePrinting CandleNormalisation OrderedSymbols
open OrderedCandles CandleSymbolChanges

section Numbers

variable {lib : StandardLibrary}

/-- A number that six decimals are read as. -/
def SixDecimals (lib : StandardLibrary) (d : Double) : Prop :=
  ∃ z : ℤ, d = .finite (lib.doubles.nearest (z / 1000000))

theorem sixDecimals_one : SixDecimals lib (.finite 1) := by
  have hone : ((1000000 : ℤ) : ℚ) / 1000000 = 1 := by norm_num
  exact ⟨1000000, congrArg Double.finite (by rw [hone, lib.doubles.one])⟩

/-- Doubles tell different numbers of six decimals apart. -/
theorem SixDecimals.eq_of_equals {d e : Double} (hd : SixDecimals lib d)
    (he : SixDecimals lib e) (h : equals d e = true) : d = e := by
  obtain ⟨z, rfl⟩ := hd
  obtain ⟨w, rfl⟩ := he
  obtain ⟨x, y, hx, hy, hclose⟩ := equals_iff.mp h
  obtain rfl := Option.some.inj hx
  obtain rfl := Option.some.inj hy
  exact congrArg Double.finite (lib.doubles.apart z w hclose)

theorem sixDecimals_reread {d : Double} {q : ℚ} (h : finiteValue d = some q)
    (hd : IsDouble lib d) (haway : ¬ RoundsAway d) : SixDecimals lib (reread lib d) := by
  rcases reread_cases lib h with hzero | hsix
  · exact absurd (roundsAway_of_negZero hd h hzero) haway
  · exact hsix

theorem reread_ne_nan {d : Double} {q : ℚ} (h : finiteValue d = some q) :
    reread lib d ≠ .nan := by
  obtain ⟨r, hr⟩ := finiteValue_reread lib h
  intro hnan
  rw [hnan] at hr
  cases hr

end Numbers

section Kinds

variable {α : Type} {kind : AttributeKind α} (h : Printable kind)

theorem settled_parsed {v : Text} {p : α} (hp : kind.parse v = .ok p) :
    settled (pass h) (some v) = .ok (printed kind p) := by
  have hreprint : (pass h).reprint v = reprint kind v := rfl
  rw [settled, Pass.outcome, hreprint, reprint, hp]
  rfl

/-- Where the getter has a value, its pass has left nothing or the printed text of a value. -/
theorem settled_cases {o o' : Option Text} {x : α} (hown : settled (pass h) o = .ok o')
    (hread : read kind o' = .ok x) :
    (o' = none ∧ x = kind.default) ∨
      ∃ v p, o = some v ∧ kind.parse v = .ok p ∧ kind.equals p kind.default = false ∧
        o' = some (kind.toText p) ∧ kind.parse (kind.toText p) = .ok x := by
  cases o with
  | none =>
    obtain rfl := Except.ok.inj hown
    exact Or.inl ⟨rfl, (Except.ok.inj hread).symm⟩
  | some v =>
    cases hparse : kind.parse v with
    | error e =>
      have hreprint : (pass h).reprint v = .error e := by
        change reprint kind v = .error e
        rw [reprint, hparse]
        rfl
      rw [settled, Pass.outcome, hreprint] at hown
      cases e with
      | invalidArgument m =>
        obtain rfl := Except.ok.inj hown
        change kind.parse v = .ok x at hread
        rw [hparse] at hread
        cases hread
      | outOfRange => cases hown
      | terminated => cases hown
      | unfinished => cases hown
    | ok p =>
      rw [settled_parsed h hparse] at hown
      obtain rfl := Except.ok.inj hown
      rw [printed] at hread ⊢
      by_cases hdefault : kind.equals p kind.default = true
      · rw [if_pos hdefault] at hread ⊢
        exact Or.inl ⟨rfl, (Except.ok.inj hread).symm⟩
      · rw [if_neg hdefault] at hread ⊢
        exact Or.inr ⟨v, p, rfl, hparse, Bool.eq_false_of_not_eq_true hdefault, rfl, hread⟩

theorem reprint_of_settled {v : Text} {p : α} (hp : kind.parse v = .ok p)
    (hsettled : settled (pass h) (some v) = .ok (some v)) : reprint kind v = .ok (some v) := by
  rw [settled_parsed h hp] at hsettled
  have hprinted := Except.ok.inj hsettled
  rw [printed] at hprinted
  split at hprinted
  next => cases hprinted
  next hdefault =>
    have hkept := Bool.eq_false_of_not_eq_true hdefault
    exact reprint_eq_some.mpr ⟨p, hp, hkept, Option.some.inj hprinted⟩

theorem settled_enumeration (hback : ComesBack kind)
    (hself : kind.equals kind.default kind.default = true) {o o' : Option Text} {x : α}
    (hown : settled (pass h) o = .ok o') (hread : read kind o' = .ok x) :
    o' = printed kind x := by
  rcases settled_cases h hown hread with ⟨rfl, rfl⟩ | ⟨v, p, -, -, hdefault, rfl, hparse⟩
  · rw [printed, if_pos hself]
  · obtain rfl := Except.ok.inj ((hback p).symm.trans hparse)
    rw [printed, if_neg (by simp [hdefault])]

variable (lib : StandardLibrary)

/-- What the pass of the period has printed, and how it is read. -/
theorem period_shape {o o' : Option Text} {x : CandlePeriod}
    (hown : settled (pass (printable_period lib)) o = .ok o')
    (hread : read (CandlePeriod.kind lib) o' = .ok x) :
    (o' = none ∧ x = CandlePeriod.tick) ∨
      (∃ t, t ≠ .tick ∧ o' = some t.toText ∧ x = ⟨.finite 1, t⟩) ∨
      ∃ v d q t, o = some v ∧ CandlePeriod.parse lib v = .ok ⟨d, t⟩ ∧ finiteValue d = some q ∧
        equals d (.finite 1) = false ∧ o' = some (numberText d ++ t.toText) ∧
        refuses lib (printedNumber d) = false ∧ x = ⟨reread lib d, t⟩ := by
  rcases settled_cases _ hown hread with hnone | ⟨v, ⟨d, t⟩, hv, hp, hdefault, rfl, hparse⟩
  · exact Or.inl hnone
  · refine Or.inr ?_
    by_cases hunit : equals d (.finite 1) = true
    · have htext : (CandlePeriod.kind lib).toText ⟨d, t⟩ = t.toText := if_pos hunit
      have htick : t ≠ .tick := by
        intro htype
        have hequal : CandlePeriod.equals ⟨d, t⟩ CandlePeriod.tick = true :=
          period_equals_iff.mpr ⟨hunit, htype⟩
        change CandlePeriod.equals ⟨d, t⟩ CandlePeriod.tick = false at hdefault
        rw [hequal] at hdefault
        cases hdefault
      rw [htext] at hparse ⊢
      exact Or.inl ⟨t, htick, rfl, Except.ok.inj (hparse.symm.trans (period_parse_type lib t))⟩
    · have hnot := Bool.eq_false_of_not_eq_true hunit
      have htext : (CandlePeriod.kind lib).toText ⟨d, t⟩ = numberText d ++ t.toText :=
        period_toText hnot t
      obtain ⟨q, hq⟩ := period_value_finite lib hp
      rw [htext] at hparse ⊢
      obtain ⟨hrange, rfl⟩ := (period_parse_number lib hq t x).mp hparse
      exact Or.inr ⟨v, d, q, t, hv, hp, hq, hnot, rfl, hrange, rfl⟩

/-- A period that does not round away is left as it is printed. -/
theorem settled_period {o o' : Option Text} {x : CandlePeriod}
    (hown : settled (pass (printable_period lib)) o = .ok o')
    (hread : read (CandlePeriod.kind lib) o' = .ok x)
    (hkept : ∀ v p, o = some v → CandlePeriod.parse lib v = .ok p →
      equals p.value (.finite 1) = true ∨ ¬ RoundsAway p.value) :
    o' = printed (CandlePeriod.kind lib) x ∧ SixDecimals lib x.value := by
  have hone : equals (.finite 1) (.finite 1) = true := equals_self 1
  rcases period_shape lib hown hread with ⟨rfl, rfl⟩ | ⟨t, htick, rfl, rfl⟩ |
    ⟨v, d, q, t, hv, hp, hq, hunit, rfl, -, rfl⟩
  · have hself : (CandlePeriod.kind lib).equals CandlePeriod.tick
        (CandlePeriod.kind lib).default = true := period_equals_iff.mpr ⟨hone, rfl⟩
    exact ⟨(if_pos hself).symm, sixDecimals_one⟩
  · have hother : ¬ (CandlePeriod.kind lib).equals ⟨.finite 1, t⟩
        (CandlePeriod.kind lib).default = true :=
      fun hequal => htick (period_equals_iff.mp hequal).2
    refine ⟨?_, sixDecimals_one⟩
    rw [printed, if_neg hother]
    exact congrArg some (if_pos hone).symm
  · have haway : ¬ RoundsAway d := by
      refine (hkept v ⟨d, t⟩ hv hp).resolve_left ?_
      rw [hunit]
      exact Bool.false_ne_true
    have hdouble : IsDouble lib d := isDouble_period lib hp
    have hnot : ¬ equals (reread lib d) (.finite 1) = true := by
      intro hagain
      rcases one_or_roundsAway hdouble hagain with hvalue | hrounds
      · rw [hunit] at hvalue
        cases hvalue
      · exact haway hrounds
    refine ⟨?_, sixDecimals_reread hq hdouble haway⟩
    rw [printed_period_number lib (Bool.eq_false_of_not_eq_true hnot),
      (numberText_reread hdouble hq).mpr haway]

/-- What a canonical symbol has for a price level. -/
def levelText (l : CandlePriceLevel) : Option Text :=
  if l.value = .nan then none else some (numberText l.value)

/-- What the pass of the price level has printed, and how it is read. -/
theorem priceLevel_shape {o o' : Option Text} {x : CandlePriceLevel}
    (hown : settled (pass (printable_priceLevel lib)) o = .ok o')
    (hread : read (CandlePriceLevel.kind lib) o' = .ok x) :
    (o' = none ∧ x = CandlePriceLevel.default) ∨
      (∃ v, o = some v ∧ CandlePriceLevel.parse lib v = .ok CandlePriceLevel.default ∧
        o' = some (numberText .nan) ∧ x = CandlePriceLevel.default) ∨
      ∃ v d q, o = some v ∧ CandlePriceLevel.parse lib v = .ok ⟨d⟩ ∧ finiteValue d = some q ∧
        o' = some (numberText d) ∧
        (refuses lib (printedNumber d) = false ∧ reread lib d ≠ .negZero) ∧ x = ⟨reread lib d⟩ := by
  rcases settled_cases _ hown hread with hnone | ⟨v, ⟨d⟩, hv, hl, -, rfl, hparse⟩
  · exact Or.inl hnone
  · have htext : (CandlePriceLevel.kind lib).toText ⟨d⟩ = numberText d := rfl
    rw [htext] at hparse ⊢
    refine Or.inr ?_
    rcases priceLevel_value lib hl with hnan | ⟨q, hq⟩
    · obtain rfl : d = .nan := hnan
      have hsame := Except.ok.inj ((priceLevel_parse_nan lib).symm.trans hparse)
      exact Or.inl ⟨v, hv, hl, rfl, hsame.symm⟩
    · obtain ⟨hrange, rfl⟩ := (priceLevel_parse_number lib hq x).mp hparse
      exact Or.inr ⟨v, d, q, hv, hl, hq, rfl, hrange, rfl⟩

theorem settled_priceLevel {o o' : Option Text} {x : CandlePriceLevel}
    (hown : settled (pass (printable_priceLevel lib)) o = .ok o')
    (hread : read (CandlePriceLevel.kind lib) o' = .ok x)
    (hkept : ∀ v l, o = some v → CandlePriceLevel.parse lib v = .ok l →
      l.value ≠ .nan ∧ ¬ RoundsAway l.value) :
    o' = levelText x ∧ (x.value = .nan ∨ SixDecimals lib x.value) := by
  rcases priceLevel_shape lib hown hread with ⟨rfl, rfl⟩ | ⟨v, hv, hl, -, -⟩ |
    ⟨v, d, q, hv, hl, hq, rfl, -, rfl⟩
  · exact ⟨(if_pos rfl).symm, Or.inl rfl⟩
  · exact absurd rfl (hkept v _ hv hl).1
  · have haway := (hkept v _ hv hl).2
    have hdouble : IsDouble lib d := isDouble_priceLevel lib hl
    have hsix := sixDecimals_reread hq hdouble haway
    refine ⟨?_, Or.inr hsix⟩
    obtain ⟨z, hz⟩ := hsix
    rw [levelText, if_neg (by simp [hz]), (numberText_reread hdouble hq).mpr haway]

/-! ## Once more -/

/-- A settled value is read alike when it is settled once more. -/
theorem final_enumeration_again (hback : ComesBack kind)
    (heq : ∀ a b, kind.equals a b = true → a = b)
    (hself : kind.equals kind.default kind.default = true) {o o' : Option Text} {x : α}
    (hown : settled (pass h) o = .ok o') (hread : read kind o' = .ok x) : final h o' = .ok x := by
  rw [settled_enumeration h hback hself hown hread]
  exact final_printed_enumeration h hback heq x

theorem finite_equals_reread {d : Double} {q : ℚ} (hq : finiteValue d = some q)
    (hd : IsDouble lib d) : equals (reread lib d) (reread lib (reread lib d)) = true := by
  obtain ⟨r, hr⟩ := finiteValue_reread lib hq
  exact equals_of_finiteValue hr ((finiteValue_reread_reread hd hq).trans hr)

theorem final_period_again {o o' : Option Text} {x : CandlePeriod}
    (hown : settled (pass (printable_period lib)) o = .ok o')
    (hread : read (CandlePeriod.kind lib) o' = .ok x) :
    ∃ y, final (printable_period lib) o' = .ok y ∧ (x = y ∨ CandlePeriod.equals x y = true) := by
  rcases period_shape lib hown hread with ⟨rfl, rfl⟩ | ⟨t, -, rfl, rfl⟩ |
    ⟨v, d, q, t, -, hp, hq, -, rfl, hrange, rfl⟩
  · exact ⟨_, rfl, Or.inl rfl⟩
  · exact ⟨_, final_period_type lib t, Or.inl rfl⟩
  · have hdouble : IsDouble lib d := isDouble_period lib hp
    refine ⟨_, (final_period_number lib hq hdouble t _).mpr ⟨hrange, rfl⟩, Or.inr ?_⟩
    exact period_equals_iff.mpr ⟨finite_equals_reread lib hq hdouble, rfl⟩

theorem final_priceLevel_again {o o' : Option Text} {x : CandlePriceLevel}
    (hown : settled (pass (printable_priceLevel lib)) o = .ok o')
    (hread : read (CandlePriceLevel.kind lib) o' = .ok x) :
    ∃ y, final (printable_priceLevel lib) o' = .ok y ∧
      (x = y ∨ CandlePriceLevel.equals x y = true) := by
  rcases priceLevel_shape lib hown hread with ⟨rfl, rfl⟩ | ⟨v, -, -, rfl, rfl⟩ |
    ⟨v, d, q, -, hl, hq, rfl, hrange, rfl⟩
  · exact ⟨_, rfl, Or.inl rfl⟩
  · exact ⟨_, final_priceLevel_nan lib, Or.inl rfl⟩
  · have hdouble : IsDouble lib d := isDouble_priceLevel lib hl
    refine ⟨_, (final_priceLevel_number lib hq hdouble _).mpr ⟨hrange, rfl⟩, Or.inr ?_⟩
    exact finite_equals_reread lib hq hdouble

/-- Settled once more, a text that stays does not round away. -/
theorem period_stays {o o' : Option Text} {x : CandlePeriod}
    (hown : settled (pass (printable_period lib)) o = .ok o')
    (hread : read (CandlePeriod.kind lib) o' = .ok x)
    (hagain : settled (pass (printable_period lib)) o' = .ok o') :
    ∀ v p, o = some v → CandlePeriod.parse lib v = .ok p →
      equals p.value (.finite 1) = true ∨ ¬ RoundsAway p.value := by
  intro v p hv hp
  subst hv
  by_cases hunit : equals p.value (.finite 1) = true
  · exact Or.inl hunit
  · right
    have hnot := Bool.eq_false_of_not_eq_true hunit
    have hprinted := settled_parsed (printable_period lib) hp
    rw [printed_period_number lib hnot] at hprinted
    obtain rfl := Except.ok.inj (hown.symm.trans hprinted)
    obtain ⟨q, hq⟩ := period_value_finite lib hp
    obtain ⟨hrange, -⟩ := (period_parse_number lib hq p.type x).mp hread
    apply (period_reprint_number lib hq (isDouble_period lib hp) hnot hrange p.type).mp
    exact reprint_of_settled _ hread hagain

theorem priceLevel_stays {o o' : Option Text} {x : CandlePriceLevel}
    (hown : settled (pass (printable_priceLevel lib)) o = .ok o')
    (hread : read (CandlePriceLevel.kind lib) o' = .ok x)
    (hagain : settled (pass (printable_priceLevel lib)) o' = .ok o')
    (hnan : x = CandlePriceLevel.default → o' = none) :
    ∀ v l, o = some v → CandlePriceLevel.parse lib v = .ok l →
      l.value ≠ .nan ∧ ¬ RoundsAway l.value := by
  intro v l hv hl
  subst hv
  have hprinted := settled_parsed (printable_priceLevel lib) hl
  rw [printed_priceLevel] at hprinted
  obtain rfl := Except.ok.inj (hown.symm.trans hprinted)
  change CandlePriceLevel.parse lib (numberText l.value) = .ok x at hread
  have hvalue : l.value ≠ .nan := by
    intro hvalue
    rw [hvalue] at hread hnan
    have hdefault := Except.ok.inj ((priceLevel_parse_nan lib).symm.trans hread)
    cases hnan hdefault.symm
  refine ⟨hvalue, ?_⟩
  obtain ⟨q, hq⟩ := (priceLevel_value lib hl).resolve_left hvalue
  obtain ⟨⟨hrange, hzero⟩, -⟩ := (priceLevel_parse_number lib hq x).mp hread
  apply (priceLevel_reprint_number lib hq (isDouble_priceLevel lib hl) hrange hzero).mp
  exact reprint_of_settled _ hread hagain

end Kinds

section Symbols

variable (lib : StandardLibrary)

/-- The getter gives the default, or what compares equal to it. -/
def IsDefault (c : CandleSymbol) : Variant → Prop
  | .exchange => c.exchange = CandleExchange.composite
  | .price => c.price = CandlePrice.kind.default
  | .session => c.session = CandleSession.kind.default
  | .period => c.period = (CandlePeriod.kind lib).default ∨
      CandlePeriod.equals c.period (CandlePeriod.kind lib).default = true
  | .alignment => c.alignment = CandleAlignment.kind.default
  | .priceLevel => c.priceLevel = (CandlePriceLevel.kind lib).default ∨
      CandlePriceLevel.equals c.priceLevel (CandlePriceLevel.kind lib).default = true

/-- Both getters give the same attribute, or attributes that compare equal. -/
def SameAttribute (c c' : CandleSymbol) : Variant → Prop
  | .exchange => c.exchange = c'.exchange
  | .price => c.price = c'.price
  | .session => c.session = c'.session
  | .period => c.period = c'.period ∨ CandlePeriod.equals c.period c'.period = true
  | .alignment => c.alignment = c'.alignment
  | .priceLevel => c.priceLevel = c'.priceLevel ∨
      CandlePriceLevel.equals c.priceLevel c'.priceLevel = true

theorem kind_of_pass : ∀ p ∈ passes lib, ∃ k : Variant, k.key lib = some p.key := by
  apply (forall_passes lib (P := fun p => ∃ k : Variant, k.key lib = some p.key)).mpr
  exact ⟨⟨.price, rfl⟩, ⟨.session, rfl⟩, ⟨.period, rfl⟩, ⟨.alignment, rfl⟩, .priceLevel, rfl⟩

/-- The base, and the keys that are no kind's. -/
structure SameBase (c c' : CandleSymbol) : Prop where
  base : c.baseSymbol = c'.baseSymbol
  others : ∀ key, (∀ k : Variant, k.key lib ≠ some key) →
    getAttributeStringByKey c.symbol key = getAttributeStringByKey c'.symbol key

/-- What a canonical symbol has under the key of a kind. -/
def writtenFor (c : CandleSymbol) : Variant → Option Text
  | .exchange => none
  | .price => printed CandlePrice.kind c.price
  | .session => printed CandleSession.kind c.session
  | .period => printed (CandlePeriod.kind lib) c.period
  | .alignment => printed CandleAlignment.kind c.alignment
  | .priceLevel => levelText c.priceLevel

/-- The texts are those of the getters. -/
structure Canonical (t : OrderedSymbol) (c : CandleSymbol) : Prop where
  texts : ∀ (k : Variant) (key : Text), k.key lib = some key →
    valueAt key t.attributes = writtenFor lib c k
  period : SixDecimals lib c.period.value
  level : c.priceLevel.value = .nan ∨ SixDecimals lib c.priceLevel.value

/-- What the passes find under the keys of the numbers. -/
structure Keeps (s : OrderedSymbol) : Prop where
  period : ∀ v p, valueAt (CandlePeriod.kind lib).attributeKey s.attributes = some v →
    CandlePeriod.parse lib v = .ok p → equals p.value (.finite 1) = true ∨ ¬ RoundsAway p.value
  level : ∀ v l, valueAt (CandlePriceLevel.kind lib).attributeKey s.attributes = some v →
    CandlePriceLevel.parse lib v = .ok l → l.value ≠ .nan ∧ ¬ RoundsAway l.value

variable {lib}

theorem canonical_of_keeps {s t : OrderedSymbol} {c : CandleSymbol}
    (hsettles : Settles (passes lib) s t) (hread : ReadsAs lib t c) (hkeeps : Keeps lib s) :
    Canonical lib t c := by
  obtain ⟨hprice, hsession, hperiod, halignment, hlevel⟩ := (forall_passes lib).mp hsettles.own
  obtain ⟨hperiodText, hperiodSix⟩ := settled_period lib hperiod hread.period hkeeps.period
  obtain ⟨hlevelText, hlevelSix⟩ := settled_priceLevel lib hlevel hread.priceLevel hkeeps.level
  refine ⟨?_, hperiodSix, hlevelSix⟩
  intro k key hkey
  cases k with
  | exchange => cases hkey
  | price =>
    obtain rfl := Option.some.inj hkey
    exact settled_enumeration printable_price price_comes_back rfl hprice hread.price
  | session =>
    obtain rfl := Option.some.inj hkey
    exact settled_enumeration printable_session session_comes_back rfl hsession hread.session
  | period =>
    obtain rfl := Option.some.inj hkey
    exact hperiodText
  | alignment =>
    obtain rfl := Option.some.inj hkey
    exact settled_enumeration printable_alignment alignment_comes_back rfl halignment
      hread.alignment
  | priceLevel =>
    obtain rfl := Option.some.inj hkey
    exact hlevelText

theorem getD_injective {x y : Option Char} (hx : x ≠ some noExchange) (hy : y ≠ some noExchange)
    (h : x.getD noExchange = y.getD noExchange) : x = y := by
  rw [← codeOf_getD hx, ← codeOf_getD hy, h]

/-- Defaults leave no text. -/
theorem writtenFor_default {c : CandleSymbol} {k : Variant} (hdefault : IsDefault lib c k) :
    writtenFor lib c k = none := by
  cases k with
  | exchange => rfl
  | price =>
    change printed CandlePrice.kind c.price = none
    rw [show c.price = CandlePrice.kind.default from hdefault]
    rfl
  | session =>
    change printed CandleSession.kind c.session = none
    rw [show c.session = CandleSession.kind.default from hdefault]
    rfl
  | period =>
    have hequal : (CandlePeriod.kind lib).equals c.period (CandlePeriod.kind lib).default
        = true := by
      rcases hdefault with hsame | hequal
      · rw [hsame]
        exact period_equals_iff.mpr ⟨equals_self 1, rfl⟩
      · exact hequal
    exact if_pos hequal
  | alignment =>
    change printed CandleAlignment.kind c.alignment = none
    rw [show c.alignment = CandleAlignment.kind.default from hdefault]
    rfl
  | priceLevel =>
    have hnan : c.priceLevel.value = .nan := by
      rcases hdefault with hsame | hequal
      · rw [hsame]
        rfl
      · have hnot := priceLevel_not_default lib c.priceLevel
        change CandlePriceLevel.equals c.priceLevel (CandlePriceLevel.kind lib).default = false
          at hnot
        rw [hnot] at hequal
        cases hequal
    exact if_pos hnan

theorem Canonical.defaults_absent {t : OrderedSymbol} {c : CandleSymbol}
    (hcanonical : Canonical lib t c) (hread : ReadsAs lib t c) {k : Variant}
    (hdefault : IsDefault lib c k) : k.AbsentFrom lib c.symbol := by
  rw [hread.symbol]
  by_cases hexchange : k = .exchange
  · subst hexchange
    have hzero : t.exchange.getD noExchange = noExchange :=
      congrArg CandleExchange.exchangeCode (hread.exchange.symm.trans hdefault)
    apply (absentFrom_exchange lib t).mpr
    exact getD_injective t.exchange_ne_zero (by simp) (by rw [hzero]; rfl)
  · have hkey : ∃ key, k.key lib = some key := by
      cases k with
      | exchange => exact absurd rfl hexchange
      | _ => exact ⟨_, rfl⟩
    obtain ⟨key, hkey⟩ := hkey
    rw [absentFrom_key lib t hkey, hcanonical.texts k key hkey, writtenFor_default hdefault]

theorem writtenFor_congr {t t' : OrderedSymbol} {c c' : CandleSymbol} (h : Canonical lib t c)
    (h' : Canonical lib t' c') (hsame : ∀ k, SameAttribute c c' k) (k : Variant) :
    writtenFor lib c k = writtenFor lib c' k := by
  have hk := hsame k
  cases k with
  | exchange => rfl
  | price => exact congrArg (printed CandlePrice.kind) hk
  | session => exact congrArg (printed CandleSession.kind) hk
  | period =>
    have hperiod : c.period = c'.period := by
      rcases hk with heq | hequal
      · exact heq
      · obtain ⟨hvalue, htype⟩ := period_equals_iff.mp hequal
        have hnumber := h.period.eq_of_equals h'.period hvalue
        cases hc : c.period
        cases hc' : c'.period
        rw [hc, hc'] at hnumber htype
        exact congrArg₂ CandlePeriod.mk hnumber htype
    exact congrArg (printed (CandlePeriod.kind lib)) hperiod
  | alignment => exact congrArg (printed CandleAlignment.kind) hk
  | priceLevel =>
    have hlevel : c.priceLevel = c'.priceLevel := by
      rcases hk with heq | hequal
      · exact heq
      · obtain ⟨x, y, hx, hy, -⟩ := equals_iff.mp hequal
        have hleft : c.priceLevel.value ≠ .nan := fun hnan => by simp [hnan, finiteValue] at hx
        have hright : c'.priceLevel.value ≠ .nan := fun hnan => by simp [hnan, finiteValue] at hy
        have hnumber := (h.level.resolve_left hleft).eq_of_equals (h'.level.resolve_left hright)
          hequal
        cases hc : c.priceLevel
        cases hc' : c'.priceLevel
        rw [hc, hc'] at hnumber
        exact congrArg CandlePriceLevel.mk hnumber
    exact congrArg levelText hlevel

/-- Canonical symbols of one base are told apart by their getters. -/
theorem canonical_unique {t t' : OrderedSymbol} {c c' : CandleSymbol} (h : Canonical lib t c)
    (h' : Canonical lib t' c') (hread : ReadsAs lib t c) (hread' : ReadsAs lib t' c')
    (hbase : SameBase lib c c') (hsame : ∀ k, SameAttribute c c' k) : c.symbol = c'.symbol := by
  have htexts : t = t' := by
    apply OrderedSymbol.ext_of_valueAt
    · rw [← hread.baseSymbol, ← hread'.baseSymbol, hbase.base]
    · apply getD_injective t.exchange_ne_zero t'.exchange_ne_zero
      have hcode : c.exchange = c'.exchange := hsame .exchange
      rw [hread.exchange, hread'.exchange] at hcode
      exact congrArg CandleExchange.exchangeCode hcode
    · intro key
      by_cases hkey : ∃ k : Variant, k.key lib = some key
      · obtain ⟨k, hk⟩ := hkey
        rw [h.texts k key hk, h'.texts k key hk, writtenFor_congr h h' hsame]
      · have hother := hbase.others key fun k hk => hkey ⟨k, hk⟩
        rw [hread.symbol, hread'.symbol, t.getAttributeStringByKey_text,
          t'.getAttributeStringByKey_text, Except.ok.injEq] at hother
        exact hother
  rw [hread.symbol, hread'.symbol, htexts]

end Symbols

/-! ## Settled symbols once more -/

section Again

variable {lib : StandardLibrary} {s t : OrderedSymbol} {c : CandleSymbol}
  (hsettles : Settles (passes lib) s t) (hread : ReadsAs lib t c)
  (hdefaults : ∀ k, IsDefault lib c k → k.AbsentFrom lib c.symbol)

include hread hdefaults in
theorem level_absent (hdefault : c.priceLevel = CandlePriceLevel.default) :
    valueAt (CandlePriceLevel.kind lib).attributeKey t.attributes = none := by
  have habsent := hdefaults .priceLevel (Or.inl hdefault)
  rw [hread.symbol] at habsent
  exact (absentFrom_key lib t rfl).mp habsent

include hsettles hread hdefaults in
/-- The texts that the passes leave do not round away. -/
theorem keeps_settled : Keeps lib t := by
  obtain ⟨-, -, hperiod, -, hlevel⟩ := (forall_passes lib).mp hsettles.own
  constructor
  · intro v p hv hp
    have hreadPeriod := hread.period
    rw [hv] at hreadPeriod
    obtain rfl := Except.ok.inj (hreadPeriod.symm.trans hp)
    rcases period_shape lib hperiod hread.period with ⟨hnone, -⟩ | ⟨u, -, -, hx⟩ |
      ⟨w, d, q, u, -, hw, hq, -, -, -, hx⟩
    · have hnone' := hv.symm.trans hnone
      cases hnone'
    · left
      rw [hx]
      exact equals_self 1
    · right
      rw [hx]
      exact not_roundsAway_reread (isDouble_period lib hw) hq
  · intro v l hv hl
    have hreadLevel := hread.priceLevel
    rw [hv] at hreadLevel
    obtain rfl := Except.ok.inj (hreadLevel.symm.trans hl)
    have hsome : c.priceLevel ≠ CandlePriceLevel.default := by
      intro hdefault
      rw [level_absent hread hdefaults hdefault] at hv
      cases hv
    rcases priceLevel_shape lib hlevel hread.priceLevel with ⟨-, hx⟩ | ⟨w, -, -, -, hx⟩ |
      ⟨w, d, q, -, hw, hq, -, -, hx⟩
    · exact absurd hx hsome
    · exact absurd hx hsome
    · rw [hx]
      exact ⟨reread_ne_nan hq, not_roundsAway_reread (isDouble_priceLevel lib hw) hq⟩

include hsettles hread in
/-- The settled symbol makes a candle symbol with the same getters. -/
theorem valueOf_settled : ∃ u c', CandleSymbol.valueOf lib t.text = .ok c' ∧
    Settles (passes lib) t u ∧ ReadsAs lib u c' ∧ SameBase lib c c' ∧
      ∀ k, SameAttribute c c' k := by
  obtain ⟨hprice, hsession, hperiod, halignment, hlevel⟩ := (forall_passes lib).mp hsettles.own
  have hfinalPrice := final_enumeration_again printable_price price_comes_back price_equals rfl
    hprice hread.price
  have hfinalSession := final_enumeration_again printable_session session_comes_back session_equals
    rfl hsession hread.session
  have hfinalAlignment := final_enumeration_again printable_alignment alignment_comes_back
    alignment_equals rfl halignment hread.alignment
  obtain ⟨period, hfinalPeriod, hsamePeriod⟩ := final_period_again lib hperiod hread.period
  obtain ⟨level, hfinalLevel, hsameLevel⟩ := final_priceLevel_again lib hlevel hread.priceLevel
  obtain ⟨symbol, baseSymbol, hc'⟩ := valueOf_of_finals lib (s := t)
    (c := { c with period := period, priceLevel := level })
    ⟨hread.exchange, hfinalPrice, hfinalSession, hfinalPeriod, hfinalAlignment, hfinalLevel⟩
  obtain ⟨u, hu, hreadu⟩ := (valueOf_text lib t _).mp hc'
  refine ⟨u, _, hc', hu, hreadu, ⟨?_, ?_⟩, ?_⟩
  · rw [hread.baseSymbol, hreadu.baseSymbol, hu.base]
  · intro key hkey
    rw [hread.symbol, hreadu.symbol, t.getAttributeStringByKey_text,
      u.getAttributeStringByKey_text, hu.other]
    intro hmem
    obtain ⟨p, hp, rfl⟩ := List.mem_map.mp hmem
    obtain ⟨k, hk⟩ := kind_of_pass lib p hp
    exact hkey k hk
  · intro k
    cases k with
    | exchange => rfl
    | price => rfl
    | session => rfl
    | period => exact hsamePeriod
    | alignment => rfl
    | priceLevel => exact hsameLevel

include hsettles hread hdefaults in
/-- When settling once more changes nothing, nothing had rounded away. -/
theorem keeps_of_settled_again (hagain : Settles (passes lib) t t) : Keeps lib s := by
  obtain ⟨-, -, hperiod, -, hlevel⟩ := (forall_passes lib).mp hsettles.own
  obtain ⟨-, -, hperiodAgain, -, hlevelAgain⟩ := (forall_passes lib).mp hagain.own
  exact ⟨period_stays lib hperiod hread.period hperiodAgain,
    priceLevel_stays lib hlevel hread.priceLevel hlevelAgain (level_absent hread hdefaults)⟩

end Again

/-! ## Attributes from the text and attributes given -/

section Choices

variable (lib : StandardLibrary)

theorem numberText_not_finite {d : Double} (h : finiteValue d = none) :
    numberText d = "nan".toList ∨ numberText d = "inf".toList ∨ numberText d = "-inf".toList := by
  cases d with
  | nan => exact Or.inl (by decide +kernel)
  | posInf => exact Or.inr (Or.inl (by decide +kernel))
  | negInf => exact Or.inr (Or.inr (by decide +kernel))
  | negZero => cases h
  | finite q => cases h

/-- The spelling of a number that is not finite is no period. -/
theorem period_parse_not_finite {d : Double} (h : finiteValue d = none) (t : CandleType)
    (x : CandlePeriod) : CandlePeriod.parse lib (numberText d ++ t.toText) ≠ .ok x := by
  intro hparse
  have htail : ∃ c u, (numberText d ++ t.toText).dropWhile CandlePeriod.isValueChar = c :: u ∧
      (tolower c = 'i' ∨ tolower c = 'n') := by
    rcases numberText_not_finite h with htext | htext | htext
    · exact ⟨'n', 'a' :: 'n' :: t.toText, by rw [htext]; rfl, by decide⟩
    · exact ⟨'i', 'n' :: 'f' :: t.toText, by rw [htext]; rfl, by decide⟩
    · exact ⟨'i', 'n' :: 'f' :: t.toText, by rw [htext]; rfl, by decide⟩
  obtain ⟨c, u, hdrop, hc⟩ := htail
  obtain ⟨hi, hn⟩ := period_parse_head lib hparse hdrop
  rcases hc with heq | heq
  · exact hi heq
  · exact hn heq

theorem printed_period_keeps {p x : CandlePeriod} {v : Text} (hp : IsDouble lib p.value)
    (hv : printed (CandlePeriod.kind lib) p = some v) (hx : CandlePeriod.parse lib v = .ok x) :
    equals x.value (.finite 1) = true ∨ ¬ RoundsAway x.value := by
  by_cases hunit : equals p.value (.finite 1) = true
  · have htext : v = p.type.toText := by
      rw [printed] at hv
      split at hv
      next => cases hv
      next => exact (Option.some.inj hv).symm.trans (if_pos hunit)
    rw [htext] at hx
    obtain rfl := Except.ok.inj ((period_parse_type lib p.type).symm.trans hx)
    exact Or.inl (equals_self 1)
  · rw [printed_period_number lib (Bool.eq_false_of_not_eq_true hunit)] at hv
    obtain rfl := Option.some.inj hv
    cases hd : finiteValue p.value with
    | none => exact absurd hx (period_parse_not_finite lib hd p.type x)
    | some q =>
      obtain ⟨-, rfl⟩ := (period_parse_number lib hd p.type x).mp hx
      exact Or.inr (not_roundsAway_reread hp hd)

theorem printed_level_keeps {l x : CandlePriceLevel} {v : Text} (hl : IsDouble lib l.value)
    (hnan : l.value ≠ .nan)
    (hv : printed (CandlePriceLevel.kind lib) l = some v)
    (hx : CandlePriceLevel.parse lib v = .ok x) : x.value ≠ .nan ∧ ¬ RoundsAway x.value := by
  rw [printed_priceLevel] at hv
  obtain rfl := Option.some.inj hv
  cases hd : finiteValue l.value with
  | some q =>
    obtain ⟨-, rfl⟩ := (priceLevel_parse_number lib hd x).mp hx
    exact ⟨reread_ne_nan hd, not_roundsAway_reread hl hd⟩
  | none =>
    cases hvalue : l.value with
    | nan => exact absurd hvalue hnan
    | posInf =>
      have htext : numberText .posInf = "inf".toList := by decide +kernel
      rw [hvalue, htext] at hx
      cases hx
    | negInf =>
      have htext : numberText .negInf = "-inf".toList := by decide +kernel
      rw [hvalue, htext] at hx
      cases hx
    | negZero =>
      rw [hvalue] at hd
      cases hd
    | finite q =>
      rw [hvalue] at hd
      cases hd

/-- The price level is a number, and a period or a price level of the text does not round away. -/
structure CanonicalChoice (s : OrderedSymbol) (as : List CandleSymbolAttribute) : Prop where
  given : ∀ l, .priceLevel l ∈ as → l.value ≠ .nan
  period : Variant.period ∉ as.map variantOf → ∀ v p,
    getAttributeStringByKey s.text (CandlePeriod.kind lib).attributeKey = .ok (some v) →
      CandlePeriod.parse lib v = .ok p → equals p.value (.finite 1) = true ∨ ¬ RoundsAway p.value
  level : Variant.priceLevel ∉ as.map variantOf → ∀ v l,
    getAttributeStringByKey s.text (CandlePriceLevel.kind lib).attributeKey = .ok (some v) →
      CandlePriceLevel.parse lib v = .ok l → l.value ≠ .nan ∧ ¬ RoundsAway l.value

variable (s : OrderedSymbol) {as : List CandleSymbolAttribute}

theorem keeps_changed_iff (hkinds : (as.map variantOf).Nodup)
    (hdoubles : ∀ a ∈ as, HoldsDouble lib a) :
    Keeps lib (s.edits (as.map (editOf lib))) ↔ CanonicalChoice lib s as := by
  have hperiods := (keyed_period lib).forall_parsed (s := s) hkinds
    fun p => equals p.value (.finite 1) = true ∨ ¬ RoundsAway p.value
  have hlevels := (keyed_priceLevel lib).forall_parsed (s := s) hkinds
    fun l => l.value ≠ .nan ∧ ¬ RoundsAway l.value
  constructor
  · rintro ⟨hperiod, hlevel⟩
    obtain ⟨-, hperiodRead⟩ := hperiods.mp hperiod
    obtain ⟨hgiven, hlevelRead⟩ := hlevels.mp hlevel
    refine ⟨fun l hl hnan => ?_, hperiodRead, hlevelRead⟩
    have hprinted := printed_priceLevel lib l
    rw [hnan] at hprinted
    exact (hgiven l hl _ _ hprinted (priceLevel_parse_nan lib)).1 rfl
  · rintro ⟨hgiven, hperiod, hlevel⟩
    constructor
    · exact hperiods.mpr ⟨fun p hp v x hv hx => printed_period_keeps lib (hdoubles _ hp) hv hx, hperiod⟩
    · exact hlevels.mpr
        ⟨fun l hl v x hv hx => printed_level_keeps lib (hdoubles _ hl) (hgiven l hl) hv hx,
          hlevel⟩

/-- `std::hash<CandleSymbol>`, over the hash of texts. -/
def hash (ofText : Text → UInt64) (c : CandleSymbol) : UInt64 := ofText c.symbol

/-- The candle symbol is told from the other canonical ones of its base by its getters. -/
def ToldByGetters (c : CandleSymbol) : Prop :=
  ∀ (s' : OrderedSymbol) (as' : List CandleSymbolAttribute) (c' : CandleSymbol),
    (as'.map variantOf).Nodup → (∀ a ∈ as', HoldsDouble lib a) →
    CandleSymbol.valueOfAttributes lib s'.text as' = .ok c' →
    CanonicalChoice lib s' as' → SameBase lib c c' → (∀ k, SameAttribute c c' k) →
    c.symbol = c'.symbol ∧ ∀ ofText, hash ofText c = hash ofText c'

/-- Defaults leave no text, and the getters tell candle symbols of one base apart, exactly
when the price level is a number and no number of the text rounds away. -/
theorem canonical_iff (hkinds : (as.map variantOf).Nodup)
    (hdoubles : ∀ a ∈ as, HoldsDouble lib a) {c : CandleSymbol}
    (hc : CandleSymbol.valueOfAttributes lib s.text as = .ok c) :
    ((∀ k, IsDefault lib c k → k.AbsentFrom lib c.symbol) ∧ ToldByGetters lib c) ↔
      CanonicalChoice lib s as := by
  rw [valueOfAttributes_text, valueOf_text] at hc
  obtain ⟨t, hsettles, hread⟩ := hc
  rw [← keeps_changed_iff lib s hkinds hdoubles]
  constructor
  · rintro ⟨hdefaults, htold⟩
    obtain ⟨u, c', hc', hsettles', hread', hbase, hsame⟩ := valueOf_settled hsettles hread
    have hkeeps := keeps_settled hsettles hread hdefaults
    have hnone : (([] : List CandleSymbolAttribute).map variantOf).Nodup := List.nodup_nil
    have hnoDoubles : ∀ a ∈ ([] : List CandleSymbolAttribute), HoldsDouble lib a := by simp
    have hchoice : CanonicalChoice lib t [] := (keeps_changed_iff lib t hnone hnoDoubles).mp hkeeps
    have hagain : CandleSymbol.valueOfAttributes lib t.text [] = .ok c' := by
      rw [valueOfAttributes_text]
      exact hc'
    obtain ⟨hsymbol, -⟩ := htold t [] c' hnone hnoDoubles hagain hchoice hbase hsame
    have hsettled : t = u := by
      apply OrderedSymbol.ext_of_valueAt hsettles'.base.symm hsettles'.exchange.symm
      intro key
      have htexts : t.text = u.text := by rw [← hread.symbol, ← hread'.symbol, hsymbol]
      have hget := congrArg (fun symbol => getAttributeStringByKey symbol key) htexts
      simp only [t.getAttributeStringByKey_text, u.getAttributeStringByKey_text,
        Except.ok.injEq] at hget
      exact hget
    rw [← hsettled] at hsettles'
    exact keeps_of_settled_again hsettles hread hdefaults hsettles'
  · intro hkeeps
    have hcanonical := canonical_of_keeps hsettles hread hkeeps
    refine ⟨fun k hdefault => hcanonical.defaults_absent hread hdefault, ?_⟩
    intro s' as' c' hkinds' hdoubles' hc' hchoice' hbase hsame
    rw [valueOfAttributes_text, valueOf_text] at hc'
    obtain ⟨t', hsettles', hread'⟩ := hc'
    have hkeeps' := (keeps_changed_iff lib s' hkinds' hdoubles').mpr hchoice'
    have hcanonical' := canonical_of_keeps hsettles' hread' hkeeps'
    have hsymbol := canonical_unique hcanonical hcanonical' hread hread' hbase hsame
    exact ⟨hsymbol, fun ofText => congrArg ofText hsymbol⟩

end Choices

/-- One attribute of each kind. -/
def everyKind : CandleSymbol :=
  ⟨"A&Q\x7b=10.100000h,a=s,foo=1,pl=0.500000,price=bid,tho=true\x7d".toList, ['A'], ⟨'Q'⟩, .bid,
    .regular, ⟨.finite (doubleRounding.nearest (101 / 10)), .hour⟩, .session, ⟨.finite (1 / 2)⟩⟩

theorem canonical_everyKind :
    (∀ k, IsDefault binary64 everyKind k → k.AbsentFrom binary64 everyKind.symbol) ∧
      ToldByGetters binary64 everyKind := by
  have hkinds : (allKinds.map variantOf).Nodup := by decide
  have hmade : CandleSymbol.valueOfAttributes binary64 strangeKey.text allKinds
      = .ok everyKind := by
    decide +kernel
  refine (canonical_iff binary64 strangeKey hkinds holdsDouble_allKinds hmade).mpr ⟨?_, ?_, ?_⟩
  · intro l hl
    simp only [allKinds, List.mem_cons, List.not_mem_nil, or_false, reduceCtorEq,
      CandleSymbolAttribute.priceLevel.injEq] at hl
    rw [hl]
    simp
  · intro hk
    exact absurd (by decide) hk
  · intro hk
    exact absurd (by decide) hk

/-- The default price level leaves a text, and a text of 2.0000001 minutes is not written as
two minutes. -/
theorem default_level_kept :
    (CandleSymbol.valueOfAttributes binary64 ['A']
        [.priceLevel CandlePriceLevel.default]).map (fun c => (c.symbol, c.priceLevel))
      = .ok ("A\x7bpl=nan\x7d".toList, CandlePriceLevel.default) ∧
    (CandleSymbol.valueOf binary64 "A\x7b=2.0000001m\x7d".toList).map
        (fun c => (c.symbol, c.period)) = .ok ("A\x7b=2.000000m\x7d".toList, ⟨.finite 2, .minute⟩) ∧
    (CandleSymbol.valueOfAttributes binary64 ['A']
        [.period ⟨.finite 2, .minute⟩]).map (fun c => (c.symbol, c.period))
      = .ok ("A\x7b=2m\x7d".toList, ⟨.finite 2, .minute⟩) := by
  decide +kernel

end CanonicalCandles
