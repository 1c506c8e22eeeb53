import DxFeedGraal.OrderedCandles

/-! # Candle symbols with attributes given

The attributes may be given in any order, and the getters give them back unless printing
loses digits of a number. -/
namespace CandleSymbolChanges

open CppStrings CppNumbers DoubleValues MarketEventSymbols SymbolAttributes SymbolLenses
open NormalisingPasses CandleAttributes CandlePrinting CandleNormalisation OrderedSymbols
open OrderedCandles

/-- The alternatives of the variant. -/
inductive Variant
  | exchange
  | price
  | session
  | period
  | alignment
  | priceLevel
  deriving DecidableEq

def variantOf : CandleSymbolAttribute → Variant
  | .exchange _ => .exchange
  | .price _ => .price
  | .session _ => .session
  | .period _ => .period
  | .alignment _ => .alignment
  | .priceLevel _ => .priceLevel

/-- The key of the attribute; the exchange has none. -/
def Variant.key (lib : StandardLibrary) : Variant → Option Text
  | exchange => none
  | price => some CandlePrice.kind.attributeKey
  | session => some CandleSession.kind.attributeKey
  | period => some (CandlePeriod.kind lib).attributeKey
  | alignment => some CandleAlignment.kind.attributeKey
  | priceLevel => some (CandlePriceLevel.kind lib).attributeKey

/-- The symbol has no text for the attribute. -/
def Variant.AbsentFrom (lib : StandardLibrary) (symbol : Text) (k : Variant) : Prop :=
  match k.key lib with
  | none => hasExchangeCode symbol = false
  | some key => getAttributeStringByKey symbol key = .ok none

/-- The getter gives the default. -/
def Variant.DefaultIn (lib : StandardLibrary) (c : CandleSymbol) : Variant → Prop
  | exchange => c.exchange = CandleExchange.composite
  | price => c.price = CandlePrice.kind.default
  | session => c.session = CandleSession.kind.default
  | period => c.period = (CandlePeriod.kind lib).default
  | alignment => c.alignment = CandleAlignment.kind.default
  | priceLevel => c.priceLevel = (CandlePriceLevel.kind lib).default

/-- The getter gives the attribute, or one that compares equal to it. -/
def Returned (c : CandleSymbol) : CandleSymbolAttribute → Prop
  | .exchange e => c.exchange = e
  | .price p => c.price = p
  | .session s => c.session = s
  | .period p => c.period = p ∨ CandlePeriod.equals c.period p = true
  | .alignment a => c.alignment = a
  | .priceLevel l => c.priceLevel = l ∨ CandlePriceLevel.equals c.priceLevel l = true

section Kept

variable (lib : StandardLibrary)

/-- The printed number is not refused, and as good as the number itself. -/
def NumberKept (d : Double) : Prop :=
  refuses lib (printedNumber d) = false ∧ equals (reread lib d) d = true

/-- The number of the attribute is one that the type can hold. -/
def HoldsDouble : CandleSymbolAttribute → Prop
  | .period p => IsDouble lib p.value
  | .priceLevel l => IsDouble lib l.value
  | _ => True

/-- Printing loses nothing of the attribute. -/
def Kept : CandleSymbolAttribute → Prop
  | .period p => equals p.value (.finite 1) = true ∨ NumberKept lib p.value
  | .priceLevel l => l.value = .nan ∨ NumberKept lib l.value
  | _ => True

/-- The text of the attribute in the symbol, if there is one, is parsed, and once more when it
has been printed. -/
def Variant.ReadableIn (symbol : Text) : Variant → Prop
  | exchange => True
  | price => ∀ v, getAttributeStringByKey symbol CandlePrice.kind.attributeKey = .ok (some v) →
      ∃ x, CandlePrice.parse v = .ok x
  | session => ∀ v, getAttributeStringByKey symbol CandleSession.kind.attributeKey = .ok (some v) →
      ∃ x, CandleSession.parse v = .ok x
  | period => ∀ v,
      getAttributeStringByKey symbol (CandlePeriod.kind lib).attributeKey = .ok (some v) →
      ∃ p, CandlePeriod.parse lib v = .ok p ∧
        (equals p.value (.finite 1) = true ∨ refuses lib (printedNumber p.value) = false)
  | alignment => ∀ v,
      getAttributeStringByKey symbol CandleAlignment.kind.attributeKey = .ok (some v) →
      ∃ x, CandleAlignment.parse v = .ok x
  | priceLevel => ∀ v,
      getAttributeStringByKey symbol (CandlePriceLevel.kind lib).attributeKey = .ok (some v) →
      ∃ l, CandlePriceLevel.parse lib v = .ok l ∧
        refuses lib (printedNumber l.value) = false ∧ reread lib l.value ≠ .negZero

theorem refuses_congr {d e : Double} (h : finiteValue d = finiteValue e) :
    refuses lib d = refuses lib e := by
  rw [refuses, refuses, h]

theorem final_printed_enumeration {α : Type} {kind : AttributeKind α} (h : Printable kind)
    (hback : ComesBack kind) (heq : ∀ a b, kind.equals a b = true → a = b) (x : α) :
    final h (printed kind x) = .ok x := by
  rw [printed]
  split
  next hdefault => rw [heq _ _ hdefault]; rfl
  next hdefault =>
    apply (final_some h).mpr
    exact ⟨x, hback x, Or.inr ⟨Bool.eq_false_of_not_eq_true hdefault, hback x⟩⟩

theorem period_equals_iff {a b : CandlePeriod} : CandlePeriod.equals a b = true ↔
    equals a.value b.value = true ∧ a.type = b.type := by
  simp [CandlePeriod.equals]

theorem period_equals_self {p : CandlePeriod} (h : finiteValue p.value ≠ none) :
    CandlePeriod.equals p p = true := by
  obtain ⟨q, hq⟩ := Option.ne_none_iff_exists'.mp h
  exact period_equals_iff.mpr ⟨equals_of_finiteValue hq hq, rfl⟩

theorem final_period_type (t : CandleType) :
    final (printable_period lib) (some t.toText) = .ok ⟨.finite 1, t⟩ := by
  have hone : equals (.finite 1) (.finite 1) = true := equals_self 1
  have htext : (CandlePeriod.kind lib).toText ⟨.finite 1, t⟩ = t.toText := if_pos hone
  apply (final_some (printable_period lib)).mpr
  refine ⟨⟨.finite 1, t⟩, period_parse_type lib t, ?_⟩
  by_cases htick : t = .tick
  · subst htick
    exact Or.inl ⟨period_equals_iff.mpr ⟨hone, rfl⟩, rfl⟩
  · refine Or.inr ⟨?_, ?_⟩
    · apply Bool.eq_false_of_not_eq_true
      exact fun h => htick (period_equals_iff.mp h).2
    · rw [htext]
      exact period_parse_type lib t

/-- A printed number is printed once more by the pass. -/
theorem final_period_number {d : Double} {q : ℚ} (h : finiteValue d = some q)
    (hd : IsDouble lib d) (t : CandleType) (y : CandlePeriod) :
    final (printable_period lib) (some (numberText d ++ t.toText)) = .ok y ↔
      refuses lib (printedNumber d) = false ∧ ⟨reread lib (reread lib d), t⟩ = y := by
  have hparse := period_parse_number lib h t
  cases hrange : refuses lib (printedNumber d) with
  | true =>
    refine iff_of_false ?_ fun hnot => absurd hnot.1 (by decide)
    intro hfinal
    obtain ⟨x, hx, -⟩ := (final_some (printable_period lib)).mp hfinal
    rw [((hparse x).mp hx).1] at hrange
    cases hrange
  | false =>
    have hread := (hparse ⟨reread lib d, t⟩).mpr ⟨hrange, rfl⟩
    rw [eq_self, true_and, final_of_parse (printable_period lib) hread]
    by_cases hunit : equals (reread lib d) (.finite 1) = true
    · -- the number is left out, and what is read is the type alone
      rw [reread_one hunit, reread_finite_one,
        ← final_of_parse (printable_period lib) (period_parse_type lib t), final_period_type,
        Except.ok.injEq]
    · have htext : (CandlePeriod.kind lib).toText ⟨reread lib d, t⟩ =
          numberText (reread lib d) ++ t.toText :=
        period_toText (Bool.eq_false_of_not_eq_true hunit) t
      have hkept : (CandlePeriod.kind lib).equals ⟨reread lib d, t⟩
          (CandlePeriod.kind lib).default = false := by
        apply Bool.eq_false_of_not_eq_true
        exact fun hequal => hunit (period_equals_iff.mp hequal).1
      obtain ⟨r, hr⟩ := finiteValue_reread lib h
      have hagain : CandlePeriod.parse lib (numberText (reread lib d) ++ t.toText) = .ok y ↔
          ⟨reread lib (reread lib d), t⟩ = y := by
        rw [period_parse_number lib hr,
          refuses_congr lib (finiteValue_printedNumber_reread hd h), hrange, eq_self, true_and]
      rw [htext, hkept, ← hagain]
      simp only [Bool.false_eq_true, false_and, false_or, true_and]
      rfl

theorem final_period_finite {o : Option Text} {y : CandlePeriod}
    (h : final (printable_period lib) o = .ok y) : finiteValue y.value ≠ none := by
  cases o with
  | none =>
    rw [← Except.ok.inj h]
    exact Option.some_ne_none 1
  | some v =>
    obtain ⟨x, -, ⟨-, rfl⟩ | ⟨-, hparse⟩⟩ := (final_some (printable_period lib)).mp h
    · exact Option.some_ne_none 1
    · obtain ⟨q, hq⟩ := period_value_finite lib hparse
      rw [hq]
      exact Option.some_ne_none q

theorem printed_period_number {p : CandlePeriod} (hunit : equals p.value (.finite 1) = false) :
    printed (CandlePeriod.kind lib) p = some (numberText p.value ++ p.type.toText) := by
  have hother : ¬ (CandlePeriod.kind lib).equals p (CandlePeriod.kind lib).default = true := by
    intro hequal
    have hvalue : equals p.value (.finite 1) = true := (period_equals_iff.mp hequal).1
    rw [hunit] at hvalue
    cases hvalue
  rw [printed, if_neg hother]
  exact congrArg some (period_toText hunit p.type)

theorem final_period_unit {p : CandlePeriod} (hunit : equals p.value (.finite 1) = true) :
    final (printable_period lib) (printed (CandlePeriod.kind lib) p)
      = .ok ⟨.finite 1, p.type⟩ := by
  rw [printed]
  split
  next hdefault =>
    rw [(period_equals_iff.mp hdefault).2]
    rfl
  next =>
    have htext : (CandlePeriod.kind lib).toText p = p.type.toText := if_pos hunit
    rw [htext, final_period_type]

/-- A period is given back exactly when it is one unit or its number is kept. -/
theorem final_printed_period {p : CandlePeriod} (hp : IsDouble lib p.value) :
    (∃ y, final (printable_period lib) (printed (CandlePeriod.kind lib) p) = .ok y ∧
      (y = p ∨ CandlePeriod.equals y p = true)) ↔ Kept lib (.period p) := by
  by_cases hunit : equals p.value (.finite 1) = true
  · refine iff_of_true ⟨_, final_period_unit lib hunit, Or.inr ?_⟩ (Or.inl hunit)
    exact period_equals_iff.mpr ⟨equals_comm hunit, rfl⟩
  · have hkept : Kept lib (.period p) ↔ NumberKept lib p.value := or_iff_right hunit
    rw [printed_period_number lib (Bool.eq_false_of_not_eq_true hunit), hkept]
    constructor
    · rintro ⟨y, hfinal, hsame⟩
      have hequal : CandlePeriod.equals y p = true := by
        rcases hsame with rfl | hequal
        · exact period_equals_self (final_period_finite lib hfinal)
        · exact hequal
      obtain ⟨-, q, -, hq, -⟩ := equals_iff.mp (period_equals_iff.mp hequal).1
      obtain ⟨hrange, rfl⟩ := (final_period_number lib hq hp p.type y).mp hfinal
      have hvalue := (period_equals_iff.mp hequal).1
      rw [equals_congr (finiteValue_reread_reread hp hq)] at hvalue
      exact ⟨hrange, hvalue⟩
    · rintro ⟨hrange, hclose⟩
      obtain ⟨-, q, -, hq, -⟩ := equals_iff.mp hclose
      refine ⟨_, (final_period_number lib hq hp p.type _).mpr ⟨hrange, rfl⟩, Or.inr ?_⟩
      refine period_equals_iff.mpr ⟨?_, rfl⟩
      rw [equals_congr (finiteValue_reread_reread hp hq)]
      exact hclose

theorem priceLevel_equals_self {l : CandlePriceLevel} (h : finiteValue l.value ≠ none) :
    CandlePriceLevel.equals l l = true := by
  obtain ⟨q, hq⟩ := Option.ne_none_iff_exists'.mp h
  exact equals_of_finiteValue hq hq

theorem final_priceLevel_some {v : Text} {x : CandlePriceLevel} :
    final (printable_priceLevel lib) (some v) = .ok x ↔
      ∃ y, CandlePriceLevel.parse lib v = .ok y ∧
        CandlePriceLevel.parse lib (numberText y.value) = .ok x := by
  rw [final_some]
  simp only [priceLevel_not_default, Bool.false_eq_true, false_and, false_or, true_and]
  rfl

theorem final_priceLevel_nan :
    final (printable_priceLevel lib) (some (numberText .nan)) = .ok CandlePriceLevel.default :=
  (final_priceLevel_some lib).mpr ⟨_, priceLevel_parse_nan lib, priceLevel_parse_nan lib⟩

theorem final_priceLevel_number {d : Double} {q : ℚ} (h : finiteValue d = some q)
    (hd : IsDouble lib d) (y : CandlePriceLevel) :
    final (printable_priceLevel lib) (some (numberText d)) = .ok y ↔
      (refuses lib (printedNumber d) = false ∧ reread lib d ≠ .negZero) ∧
        ⟨reread lib (reread lib d)⟩ = y := by
  obtain ⟨r, hr⟩ := finiteValue_reread lib h
  rw [final_priceLevel_some]
  constructor
  · rintro ⟨x, hx, hy⟩
    obtain ⟨hread, rfl⟩ := (priceLevel_parse_number lib h x).mp hx
    exact ⟨hread, ((priceLevel_parse_number lib hr y).mp hy).2⟩
  · rintro ⟨hread, hy⟩
    refine ⟨⟨reread lib d⟩, (priceLevel_parse_number lib h _).mpr ⟨hread, rfl⟩, ?_⟩
    apply (priceLevel_parse_number lib hr y).mpr
    rw [refuses_congr lib (finiteValue_printedNumber_reread hd h)]
    refine ⟨⟨hread.1, ?_⟩, hy⟩
    rw [reread_reread hd h hread.2]
    exact hread.2

theorem printed_priceLevel (l : CandlePriceLevel) :
    printed (CandlePriceLevel.kind lib) l = some (numberText l.value) := by
  rw [printed, if_neg (by simp [priceLevel_not_default])]
  rfl

/-- A price level is given back exactly when it is the default or its number is kept. -/
theorem final_printed_priceLevel {l : CandlePriceLevel} (hl : IsDouble lib l.value) :
    (∃ y, final (printable_priceLevel lib) (printed (CandlePriceLevel.kind lib) l) = .ok y ∧
      (y = l ∨ CandlePriceLevel.equals y l = true)) ↔ Kept lib (.priceLevel l) := by
  rw [printed_priceLevel]
  by_cases hnan : l.value = .nan
  · rw [hnan]
    refine iff_of_true ⟨_, final_priceLevel_nan lib, Or.inl ?_⟩ (Or.inl hnan)
    rw [CandlePriceLevel.default, ← hnan]
  · have hkept : Kept lib (.priceLevel l) ↔ NumberKept lib l.value := or_iff_right hnan
    rw [hkept]
    constructor
    · rintro ⟨y, hfinal, hsame⟩
      obtain ⟨x, -, hparse⟩ := (final_priceLevel_some lib).mp hfinal
      have hequal : CandlePriceLevel.equals y l = true := by
        rcases hsame with rfl | hequal
        · rcases priceLevel_value lib hparse with hvalue | ⟨q, hq⟩
          · exact absurd hvalue hnan
          · exact priceLevel_equals_self (by simp [hq])
        · exact hequal
      obtain ⟨-, q, -, hq, -⟩ := equals_iff.mp hequal
      obtain ⟨⟨hrange, -⟩, rfl⟩ := (final_priceLevel_number lib hq hl y).mp hfinal
      have hvalue : equals (reread lib (reread lib l.value)) l.value = true := hequal
      rw [equals_congr (finiteValue_reread_reread hl hq)] at hvalue
      exact ⟨hrange, hvalue⟩
    · rintro ⟨hrange, hclose⟩
      obtain ⟨-, q, -, hq, -⟩ := equals_iff.mp hclose
      refine ⟨_, (final_priceLevel_number lib hq hl _).mpr
        ⟨⟨hrange, reread_ne_negZero hclose⟩, rfl⟩, Or.inr ?_⟩
      change equals (reread lib (reread lib l.value)) l.value = true
      rw [equals_congr (finiteValue_reread_reread hl hq)]
      exact hclose

end Kept

section Places

variable (lib : StandardLibrary) (s : OrderedSymbol) (as : List CandleSymbolAttribute)

theorem absentFrom_key {k : Variant} {key : Text} (hkey : k.key lib = some key) :
    k.AbsentFrom lib s.text ↔ valueAt key s.attributes = none := by
  rw [Variant.AbsentFrom, hkey]
  change getAttributeStringByKey s.text key = .ok none ↔ _
  rw [s.getAttributeStringByKey_text, Except.ok.injEq]

theorem absentFrom_exchange : Variant.exchange.AbsentFrom lib s.text ↔ s.exchange = none := by
  change hasExchangeCode s.text = false ↔ _
  rw [s.hasExchangeCode_text, Option.isSome_eq_false_iff, Option.isNone_iff_eq_none]

theorem target_editOf (a : CandleSymbolAttribute) :
    (editOf lib a).target = (variantOf a).key lib := by
  cases a with
  | exchange e => rfl
  | price p => exact neat_price.target_edit p
  | session x => exact neat_session.target_edit x
  | period p => exact (neat_period lib).target_edit p
  | alignment x => exact neat_alignment.target_edit x
  | priceLevel l => exact (neat_priceLevel lib).target_edit l

theorem key_injective : Function.Injective (Variant.key lib) := by
  have hlevel : (CandlePriceLevel.kind lib).attributeKey = "pl".toList := rfl
  have hperiod : (CandlePeriod.kind lib).attributeKey = [] := rfl
  intro a b h
  cases a <;> cases b <;>
    first
      | rfl
      | (simp only [Variant.key, hlevel, hperiod] at h
         exact absurd h (by decide))

variable {as} (hkinds : (as.map variantOf).Nodup)

include hkinds in
theorem targets_nodup : ((as.map (editOf lib)).map Edit.target).Nodup := by
  rw [List.map_map]
  have hmap : (Edit.target ∘ editOf lib) = Variant.key lib ∘ variantOf :=
    funext (target_editOf lib)
  rw [hmap, ← List.map_map]
  exact hkinds.map (key_injective lib)

include hkinds in
/-- Only the kinds count, not the order. -/
theorem valueOfAttributes_perm {as' : List CandleSymbolAttribute} (hperm : as'.Perm as) :
    CandleSymbol.valueOfAttributes lib s.text as' =
      CandleSymbol.valueOf lib (s.edits (as.map (editOf lib))).text := by
  rw [valueOfAttributes_text, s.edits_perm (hperm.map (editOf lib)) (targets_nodup lib hkinds)]

include hkinds in
theorem valueAt_changed {k : Variant} {key : Text} (hkey : k.key lib = some key) :
    (∀ a ∈ as, variantOf a = k →
      valueAt key (s.edits (as.map (editOf lib))).attributes = (editOf lib a).value) ∧
    (k ∉ as.map variantOf →
      valueAt key (s.edits (as.map (editOf lib))).attributes = valueAt key s.attributes) := by
  obtain ⟨hown, hother⟩ := s.valueAt_edits (targets_nodup lib hkinds) key
  constructor
  · intro a ha hk
    apply hown _ (List.mem_map_of_mem ha)
    rw [target_editOf, hk, hkey]
  · intro hk
    apply hother
    intro e he htarget
    obtain ⟨a, ha, rfl⟩ := List.mem_map.mp he
    rw [target_editOf, ← hkey] at htarget
    exact hk (List.mem_map.mpr ⟨a, ha, key_injective lib htarget⟩)

include hkinds in
theorem exchange_changed :
    (∀ e, .exchange e ∈ as → (s.edits (as.map (editOf lib))).exchange = codeOf e.exchangeCode) ∧
    (Variant.exchange ∉ as.map variantOf →
      (s.edits (as.map (editOf lib))).exchange = s.exchange) := by
  obtain ⟨hown, hother⟩ := s.exchange_edits (targets_nodup lib hkinds)
  constructor
  · intro e he
    exact hown e.exchangeCode (List.mem_map_of_mem he)
  · intro hk
    apply hother
    intro e he htarget
    obtain ⟨a, ha, rfl⟩ := List.mem_map.mp he
    have hnone : Variant.key lib .exchange = none := rfl
    rw [target_editOf, ← hnone] at htarget
    exact hk (List.mem_map.mpr ⟨a, ha, key_injective lib htarget⟩)

end Places

/-! ## One kind at a time -/

/-- How a kind of attribute stands among the alternatives. -/
structure Keyed (lib : StandardLibrary) {α : Type} {kind : AttributeKind α} (h : Neat kind)
    (k : Variant) (make : α → CandleSymbolAttribute) : Prop where
  key : k.key lib = some kind.attributeKey
  edit : ∀ x, editOf lib (make x) = h.edit x
  alternative : ∀ a, variantOf a = k ↔ ∃ x, a = make x
  injective : ∀ x y, make x = make y → x = y

section Kinds

variable {lib : StandardLibrary} {s : OrderedSymbol} {as : List CandleSymbolAttribute}
  (hkinds : (as.map variantOf).Nodup)
variable {α : Type} {kind : AttributeKind α} {h : Neat kind} {k : Variant}
  {make : α → CandleSymbolAttribute} (hkeyed : Keyed lib h k make) {R : α → α → Prop}

include hkeyed in
theorem Keyed.mem_kinds {x : α} (hx : make x ∈ as) : k ∈ as.map variantOf :=
  List.mem_map.mpr ⟨_, hx, (hkeyed.alternative _).mpr ⟨x, rfl⟩⟩

include hkinds hkeyed in
theorem Keyed.given_unique {x y : α} (hx : make x ∈ as) (hy : make y ∈ as) : y = x := by
  apply hkeyed.injective
  apply List.inj_on_of_nodup_map hkinds hy hx
  rw [(hkeyed.alternative _).mpr ⟨x, rfl⟩, (hkeyed.alternative _).mpr ⟨y, rfl⟩]

include hkinds hkeyed in
theorem Keyed.valueAt_given {x : α} (hx : make x ∈ as) :
    valueAt kind.attributeKey (s.edits (as.map (editOf lib))).attributes = printed kind x := by
  obtain ⟨hown, -⟩ := valueAt_changed lib s hkinds hkeyed.key
  rw [hown _ hx ((hkeyed.alternative _).mpr ⟨x, rfl⟩), hkeyed.edit, h.value_edit]

include hkinds hkeyed in
/-- What is read under the key of the kind was given, or stood in the symbol. -/
theorem Keyed.forall_parsed (P : α → Prop) :
    (∀ v y, valueAt kind.attributeKey (s.edits (as.map (editOf lib))).attributes = some v →
        kind.parse v = .ok y → P y) ↔
      (∀ x, make x ∈ as → ∀ v y, printed kind x = some v → kind.parse v = .ok y → P y) ∧
        (k ∉ as.map variantOf → ∀ v y,
          getAttributeStringByKey s.text kind.attributeKey = .ok (some v) →
            kind.parse v = .ok y → P y) := by
  rw [s.getAttributeStringByKey_text]
  constructor
  · intro hall
    refine ⟨fun x hx v y hv => hall v y ?_, fun hk v y hv => hall v y ?_⟩
    · rw [hkeyed.valueAt_given hkinds hx, hv]
    · rw [(valueAt_changed lib s hkinds hkeyed.key).2 hk, Except.ok.inj hv]
  · rintro ⟨hgiven, hother⟩ v y hv
    by_cases hk : k ∈ as.map variantOf
    · obtain ⟨a, ha, hvariant⟩ := List.mem_map.mp hk
      obtain ⟨x, rfl⟩ := (hkeyed.alternative a).mp hvariant
      rw [hkeyed.valueAt_given hkinds ha] at hv
      exact hgiven x ha v y hv
    · rw [(valueAt_changed lib s hkinds hkeyed.key).2 hk] at hv
      exact hother hk v y (congrArg Except.ok hv)

include hkinds hkeyed in
/-- The getter of the kind gives back what was given, and reads what was not. -/
theorem final_changed :
    (∃ y, final h.toPrintable (valueAt kind.attributeKey
        (s.edits (as.map (editOf lib))).attributes) = .ok y ∧
      (∀ x, make x ∈ as → R y x) ∧
      (k ∉ as.map variantOf → k.AbsentFrom lib s.text → y = kind.default)) ↔
    (∀ x, make x ∈ as → ∃ y, final h.toPrintable (printed kind x) = .ok y ∧ R y x) ∧
      (k ∉ as.map variantOf → ∀ v,
        getAttributeStringByKey s.text kind.attributeKey = .ok (some v) →
          ∃ y, final h.toPrintable (some v) = .ok y) := by
  by_cases hgiven : k ∈ as.map variantOf
  · obtain ⟨a, ha, hk⟩ := List.mem_map.mp hgiven
    obtain ⟨x, rfl⟩ := (hkeyed.alternative a).mp hk
    rw [hkeyed.valueAt_given hkinds ha]
    constructor
    · rintro ⟨y, hy, hsame, -⟩
      refine ⟨fun z hz => ?_, fun hnot => absurd hgiven hnot⟩
      rw [hkeyed.given_unique hkinds ha hz]
      exact ⟨y, hy, hsame x ha⟩
    · rintro ⟨hkept, -⟩
      obtain ⟨y, hy, hsame⟩ := hkept x ha
      refine ⟨y, hy, fun z hz => ?_, fun hnot => absurd hgiven hnot⟩
      rw [hkeyed.given_unique hkinds ha hz]
      exact hsame
  · have hnone : ∀ x, make x ∉ as := fun x hx => hgiven (hkeyed.mem_kinds hx)
    obtain ⟨-, hother⟩ := valueAt_changed lib s hkinds hkeyed.key
    rw [hother hgiven, s.getAttributeStringByKey_text, absentFrom_key lib s hkeyed.key]
    constructor
    · rintro ⟨y, hy, -, -⟩
      refine ⟨fun x hx => absurd hx (hnone x), fun _ v hv => ?_⟩
      rw [Except.ok.inj hv] at hy
      exact ⟨y, hy⟩
    · rintro ⟨-, hreadable⟩
      cases hv : valueAt kind.attributeKey s.attributes with
      | none =>
        exact ⟨kind.default, rfl, fun x hx => absurd hx (hnone x), fun _ _ => rfl⟩
      | some v =>
        obtain ⟨y, hy⟩ := hreadable hgiven v (congrArg Except.ok hv)
        refine ⟨y, hy, fun x hx => absurd hx (hnone x), fun _ habsent => ?_⟩
        cases habsent

theorem final_readable (h : Printable kind) {v : Text} {P : α → Prop}
    (hP : ∀ x, kind.parse v = .ok x → ((reprint kind v = .ok none ∨
      ∃ t, reprint kind v = .ok (some t) ∧ ∃ y, kind.parse t = .ok y) ↔ P x)) :
    (∃ y, final h (some v) = .ok y) ↔ ∃ x, kind.parse v = .ok x ∧ P x := by
  constructor
  · rintro ⟨y, hy⟩
    obtain ⟨x, hx, -⟩ := (final_some h).mp hy
    exact ⟨x, hx, (hP x hx).mp ((final_defined h).mp ⟨y, hy⟩)⟩
  · rintro ⟨x, hx, hPx⟩
    exact (final_defined h).mpr ((hP x hx).mpr hPx)

theorem final_readable_enumeration (h : Printable kind) (hback : ComesBack kind) {v : Text} :
    (∃ y, final h (some v) = .ok y) ↔ ∃ x, kind.parse v = .ok x :=
  (final_defined h).trans hback.reprintable_iff

include hkinds hkeyed in
/-- Of an enumeration every given value comes back as it is. -/
theorem final_changed_enumeration (hback : ComesBack kind)
    (heq : ∀ a b, kind.equals a b = true → a = b) :
    (∃ y, final h.toPrintable (valueAt kind.attributeKey
        (s.edits (as.map (editOf lib))).attributes) = .ok y ∧
      (∀ x, make x ∈ as → y = x) ∧
      (k ∉ as.map variantOf → k.AbsentFrom lib s.text → y = kind.default)) ↔
    (k ∉ as.map variantOf → ∀ v,
      getAttributeStringByKey s.text kind.attributeKey = .ok (some v) →
        ∃ x, kind.parse v = .ok x) := by
  have hreturned : ∀ x, make x ∈ as →
      ∃ y, final h.toPrintable (printed kind x) = .ok y ∧ y = x :=
    fun x _ => ⟨x, final_printed_enumeration h.toPrintable hback heq x, rfl⟩
  rw [final_changed hkinds hkeyed, and_iff_right hreturned]
  simp only [final_readable_enumeration h.toPrintable hback]

end Kinds

section Alternatives

variable (lib : StandardLibrary)

theorem keyed_price : Keyed lib neat_price .price .price where
  key := rfl
  edit _ := rfl
  alternative a := by cases a <;> simp [variantOf]
  injective _ _ := CandleSymbolAttribute.price.inj

theorem keyed_session : Keyed lib neat_session .session .session where
  key := rfl
  edit _ := rfl
  alternative a := by cases a <;> simp [variantOf]
  injective _ _ := CandleSymbolAttribute.session.inj

theorem keyed_period : Keyed lib (neat_period lib) .period .period where
  key := rfl
  edit _ := rfl
  alternative a := by cases a <;> simp [variantOf]
  injective _ _ := CandleSymbolAttribute.period.inj

theorem keyed_alignment : Keyed lib neat_alignment .alignment .alignment where
  key := rfl
  edit _ := rfl
  alternative a := by cases a <;> simp [variantOf]
  injective _ _ := CandleSymbolAttribute.alignment.inj

theorem keyed_priceLevel : Keyed lib (neat_priceLevel lib) .priceLevel .priceLevel where
  key := rfl
  edit _ := rfl
  alternative a := by cases a <;> simp [variantOf]
  injective _ _ := CandleSymbolAttribute.priceLevel.inj

theorem price_equals (a b : CandlePrice) (h : CandlePrice.kind.equals a b = true) : a = b :=
  eq_of_beq h

theorem session_equals (a b : CandleSession) (h : CandleSession.kind.equals a b = true) : a = b :=
  eq_of_beq h

theorem alignment_equals (a b : CandleAlignment) (h : CandleAlignment.kind.equals a b = true) :
    a = b :=
  eq_of_beq h

end Alternatives

/-! ## All kinds -/

section Orders

variable (lib : StandardLibrary) (s : OrderedSymbol) {as : List CandleSymbolAttribute}
  (hkinds : (as.map variantOf).Nodup)

/-- What is said of the candle symbol that the attributes make. -/
structure GivesBack (c : CandleSymbol) (as : List CandleSymbolAttribute) : Prop where
  returned : ∀ a ∈ as, Returned c a
  default : ∀ k, k ∉ as.map variantOf → k.AbsentFrom lib s.text → k.DefaultIn lib c

include hkinds in
theorem kept_of_givesBack (hdoubles : ∀ a ∈ as, HoldsDouble lib a) {c : CandleSymbol}
    (hc : CandleSymbol.valueOf lib (s.edits (as.map (editOf lib))).text = .ok c)
    (hback : GivesBack lib s c as) :
    (∀ a ∈ as, Kept lib a) ∧ ∀ k, k ∉ as.map variantOf → k.ReadableIn lib s.text := by
  have hfinals := finals_of_valueOf lib hc
  have hperiod := (final_changed hkinds (keyed_period lib)
    (R := fun y p => y = p ∨ CandlePeriod.equals y p = true)).mp
    ⟨_, hfinals.period, fun x hx => hback.returned _ hx, hback.default .period⟩
  have hlevel := (final_changed hkinds (keyed_priceLevel lib)
    (R := fun y l => y = l ∨ CandlePriceLevel.equals y l = true)).mp
    ⟨_, hfinals.priceLevel, fun x hx => hback.returned _ hx, hback.default .priceLevel⟩
  constructor
  · intro a ha
    cases a with
    | period p => exact (final_printed_period lib (hdoubles _ ha)).mp (hperiod.1 p ha)
    | priceLevel l => exact (final_printed_priceLevel lib (hdoubles _ ha)).mp (hlevel.1 l ha)
    | exchange e => trivial
    | price p => trivial
    | session x => trivial
    | alignment x => trivial
  · intro k hk
    cases k with
    | exchange => trivial
    | price =>
      exact (final_changed_enumeration hkinds (keyed_price lib) price_comes_back price_equals).mp
        ⟨_, hfinals.price, fun x hx => hback.returned _ hx, hback.default .price⟩ hk
    | session =>
      exact (final_changed_enumeration hkinds (keyed_session lib) session_comes_back
        session_equals).mp
        ⟨_, hfinals.session, fun x hx => hback.returned _ hx, hback.default .session⟩ hk
    | period => exact fun v hv =>
        (final_readable _ fun p hp => period_reprintable hp).mp (hperiod.2 hk v hv)
    | alignment =>
      exact (final_changed_enumeration hkinds (keyed_alignment lib) alignment_comes_back
        alignment_equals).mp
        ⟨_, hfinals.alignment, fun x hx => hback.returned _ hx, hback.default .alignment⟩ hk
    | priceLevel => exact fun v hv =>
        (final_readable _ fun l hl => priceLevel_reprintable hl).mp (hlevel.2 hk v hv)

include hkinds in
theorem givesBack_of_kept (hdoubles : ∀ a ∈ as, HoldsDouble lib a) (hkept : ∀ a ∈ as, Kept lib a)
    (hreadable : ∀ k, k ∉ as.map variantOf → k.ReadableIn lib s.text) :
    ∃ c, CandleSymbol.valueOf lib (s.edits (as.map (editOf lib))).text = .ok c ∧
      GivesBack lib s c as := by
  obtain ⟨price, hprice, hsamePrice, hnoPrice⟩ :=
    (final_changed_enumeration (s := s) hkinds (keyed_price lib) price_comes_back
      price_equals).mpr (hreadable .price)
  obtain ⟨session, hsession, hsameSession, hnoSession⟩ :=
    (final_changed_enumeration (s := s) hkinds (keyed_session lib) session_comes_back
      session_equals).mpr (hreadable .session)
  obtain ⟨period, hperiod, hsamePeriod, hnoPeriod⟩ :=
    (final_changed (s := s) hkinds (keyed_period lib)).mpr
      ⟨fun p hp => (final_printed_period lib (hdoubles _ hp)).mpr (hkept _ hp),
        fun hk v hv => (final_readable _ fun p hp => period_reprintable hp).mpr
          (hreadable .period hk v hv)⟩
  obtain ⟨alignment, halignment, hsameAlignment, hnoAlignment⟩ :=
    (final_changed_enumeration (s := s) hkinds (keyed_alignment lib) alignment_comes_back
      alignment_equals).mpr (hreadable .alignment)
  obtain ⟨level, hlevel, hsameLevel, hnoLevel⟩ :=
    (final_changed (s := s) hkinds (keyed_priceLevel lib)).mpr
      ⟨fun l hl => (final_printed_priceLevel lib (hdoubles _ hl)).mpr (hkept _ hl),
        fun hk v hv => (final_readable _ fun l hl => priceLevel_reprintable hl).mpr
          (hreadable .priceLevel hk v hv)⟩
  obtain ⟨hcode, hnoCode⟩ := exchange_changed lib s hkinds
  obtain ⟨symbol, baseSymbol, hc⟩ := valueOf_of_finals lib (s := s.edits (as.map (editOf lib)))
    (c := ⟨[], [], ⟨(s.edits (as.map (editOf lib))).exchange.getD noExchange⟩, price, session,
      period, alignment, level⟩)
    ⟨rfl, hprice, hsession, hperiod, halignment, hlevel⟩
  refine ⟨_, hc, ?_, ?_⟩
  · intro a ha
    cases a with
    | exchange e =>
      change (⟨(s.edits (as.map (editOf lib))).exchange.getD noExchange⟩ : CandleExchange) = e
      rw [hcode e ha, getD_codeOf]
    | price p => exact hsamePrice p ha
    | session x => exact hsameSession x ha
    | period p => exact hsamePeriod p ha
    | alignment x => exact hsameAlignment x ha
    | priceLevel l => exact hsameLevel l ha
  · intro k hk habsent
    cases k with
    | exchange =>
      change (⟨(s.edits (as.map (editOf lib))).exchange.getD noExchange⟩ : CandleExchange) =
        ⟨noExchange⟩
      rw [hnoCode hk, (absentFrom_exchange lib s).mp habsent]
      rfl
    | price => exact hnoPrice hk habsent
    | session => exact hnoSession hk habsent
    | period => exact hnoPeriod hk habsent
    | alignment => exact hnoAlignment hk habsent
    | priceLevel => exact hnoLevel hk habsent

/-- In every order the attributes make the same candle symbol, which gives them back, exactly
when printing loses nothing of them and the other attributes of the text can be read. -/
theorem any_order_iff (hdistinct : (as.map variantOf).Nodup)
    (hdoubles : ∀ a ∈ as, HoldsDouble lib a) :
    (∃ c, (∀ as', as'.Perm as → CandleSymbol.valueOfAttributes lib s.text as' = .ok c) ∧
      GivesBack lib s c as) ↔
    (∀ a ∈ as, Kept lib a) ∧ ∀ k, k ∉ as.map variantOf → k.ReadableIn lib s.text := by
  constructor
  · rintro ⟨c, horder, hback⟩
    have hc := horder as (List.Perm.refl as)
    rw [valueOfAttributes_perm lib s hdistinct (List.Perm.refl as)] at hc
    exact kept_of_givesBack lib s hdistinct hdoubles hc hback
  · rintro ⟨hkept, hreadable⟩
    obtain ⟨c, hc, hback⟩ := givesBack_of_kept lib s hdistinct hdoubles hkept hreadable
    refine ⟨c, ?_, hback⟩
    intro as' hperm
    rw [valueOfAttributes_perm lib s hdistinct hperm, hc]

end Orders

/-- The symbol `A{foo=1}`. -/
def strangeKey : OrderedSymbol where
  base := ['A']
  exchange := none
  attributes := [⟨"foo".toList, "1".toList, by decide, by decide⟩]
  no_code := by decide
  open_free := by decide
  exchange_ne_zero := by simp
  attributes_free := List.forall_mem_singleton.mpr
    ⟨List.all_iff_forall_prop.mp (by decide), List.all_iff_forall_prop.mp (by decide)⟩
  ordered := by decide

def allKinds : List CandleSymbolAttribute :=
  [.priceLevel ⟨.finite (1 / 2)⟩, .alignment .session,
    .period ⟨.finite (doubleRounding.nearest (101 / 10)), .hour⟩,
    .session .regular, .price .bid, .exchange ⟨'Q'⟩]

theorem forall_allKinds {P : CandleSymbolAttribute → Prop}
    (hlevel : P (.priceLevel ⟨.finite (1 / 2)⟩))
    (hperiod : P (.period ⟨.finite (doubleRounding.nearest (101 / 10)), .hour⟩))
    (hothers : ∀ a, variantOf a ≠ .priceLevel → variantOf a ≠ .period → P a) :
    ∀ a ∈ allKinds, P a := by
  intro a ha
  simp only [allKinds, List.mem_cons, List.not_mem_nil, or_false] at ha
  rcases ha with rfl | rfl | rfl | rfl | rfl | rfl
  · exact hlevel
  · exact hothers _ (by decide) (by decide)
  · exact hperiod
  · exact hothers _ (by decide) (by decide)
  · exact hothers _ (by decide) (by decide)
  · exact hothers _ (by decide) (by decide)

theorem holdsDouble_allKinds : ∀ a ∈ allKinds, HoldsDouble binary64 a := by
  apply forall_allKinds
  · intro q hq
    obtain rfl := Option.some.inj hq
    change doubleRounding.nearest (1 / 2) = 1 / 2
    decide +kernel
  · intro q hq
    obtain rfl := Option.some.inj hq
    exact doubleRounding.keeps_nearest _
  · intro a hlevel hperiod
    cases a with
    | priceLevel l => exact absurd rfl hlevel
    | period p => exact absurd rfl hperiod
    | _ => trivial

/-- One attribute of each kind, in any order. The period is the double nearest to 10.1. -/
theorem any_order_all_kinds :
    ∃ c, (∀ as', as'.Perm allKinds →
        CandleSymbol.valueOfAttributes binary64 strangeKey.text as' = .ok c) ∧
      GivesBack binary64 strangeKey c allKinds := by
  have hkinds : (allKinds.map variantOf).Nodup := by decide
  refine (any_order_iff binary64 strangeKey hkinds holdsDouble_allKinds).mpr ⟨?_, ?_⟩
  · apply forall_allKinds
    · exact Or.inr ⟨by decide +kernel, by decide +kernel⟩
    · exact Or.inr ⟨by decide +kernel, by decide +kernel⟩
    · intro a hlevel hperiod
      cases a with
      | priceLevel l => exact absurd rfl hlevel
      | period p => exact absurd rfl hperiod
      | _ => trivial
  · intro k hk
    have hgiven : ∀ k : Variant, k ∈ allKinds.map variantOf := by
      intro k
      cases k <;> decide
    exact absurd (hgiven k) hk

/-- The getter gives 1.234568 minutes for 1.2345678 minutes. -/
theorem period_rounded :
    (CandleSymbol.valueOfAttributes binary64 ['A']
        [.period ⟨.finite (doubleRounding.nearest (12345678 / 10000000)), .minute⟩]).map
        CandleSymbol.period
      = .ok ⟨.finite (doubleRounding.nearest (1234568 / 1000000)), .minute⟩ ∧
    CandlePeriod.equals ⟨.finite (doubleRounding.nearest (1234568 / 1000000)), .minute⟩
      ⟨.finite (doubleRounding.nearest (12345678 / 10000000)), .minute⟩ = false := by
  decide +kernel

end CandleSymbolChanges
