import DxFeedGraal.WellFormedSymbols

/-! # The base and the exchange code of a symbol

Both are read and written in place. A base is any text that the helpers themselves read as one,
so that it may hold braces and ampersands. -/
namespace SymbolLenses

open CppStrings MarketEventSymbols DelimitedTexts KeyedLists SymbolAttributes WellFormedSymbols

abbrev noExchange : Char := Char.ofNat 0

/-- The helpers find neither an exchange code nor attributes in it. -/
structure PlainBase (base : Text) : Prop where
  no_code : hasExchangeCode base = false
  no_attributes : hasAttributesInternal base = false

def codeText : Option Char → Text
  | none => []
  | some x => [exchangeSeparator, x]

/-- Zero stands for no exchange code. -/
def codeOf (exchangeCode : Char) : Option Char :=
  if exchangeCode = noExchange then none else some exchangeCode

/-- The attributes in their braces. -/
def tail (attributes : List Attribute) : Text := braced [] (texts attributes none)

def compose (base : Text) (exchange : Option Char) (attributes : List Attribute) : Text :=
  base ++ codeText exchange ++ tail attributes

/-- A closing brace as the exchange code, with no attributes behind it, would close a brace that
the base opens. -/
def Readable (base : Text) (exchange : Option Char) (attributes : List Attribute) : Prop :=
  exchange = some attributesClose → attributes = [] → attributesOpen ∉ base

structure SymbolParts where
  base : Text
  exchange : Option Char
  attributes : List Attribute
  plain : PlainBase base
  exchange_ne_zero : exchange ≠ some noExchange
  readable : Readable base exchange attributes
  attributes_free : ∀ a ∈ attributes, WellFormedAttribute a

def SymbolParts.text (s : SymbolParts) : Text := compose s.base s.exchange s.attributes

/-! ## Where the parts end -/

theorem braced_eq_append (before : Text) (ts : List Text) :
    braced before ts = before ++ braced [] ts := by
  cases ts with
  | nil => exact (List.append_nil before).symm
  | cons t ts => rfl

theorem tail_nil : tail [] = [] := rfl

theorem charAt_append {x : Text} (y : Text) {n : ℕ} (h : n < x.length) :
    charAt (x ++ y) n = charAt x n := by
  rw [charAt, charAt, List.getD_eq_getElem?_getD, List.getD_eq_getElem?_getD,
    List.getElem?_append_left h]

theorem length_without_of_not {symbol : Text} (h : hasAttributesInternal symbol = false) :
    getLengthWithoutAttributesInternal symbol = symbol.length := by
  rw [getLengthWithoutAttributesInternal, if_neg (by simp [h])]

theorem hasAttributes_of_last {symbol : Text} {c : Char} (hc : c ≠ attributesClose) :
    hasAttributesInternal (symbol ++ [c]) = false := by
  have hlast : charAt (symbol ++ [c]) ((symbol ++ [c]).length - 1) = c :=
    charAt_split rfl (by simp)
  rw [hasAttributesInternal, hlast, if_neg fun h => hc h.2]

theorem open_notMem_code (x : Char) {base : Text} (h : attributesOpen ∉ base) :
    attributesOpen ∉ (base ++ codeText (some x)).take ((base ++ codeText (some x)).length - 1) := by
  have hsplit : base ++ codeText (some x) = base ++ [exchangeSeparator] ++ [x] := by
    simp [codeText]
  have hne : attributesOpen ≠ exchangeSeparator := by decide
  rw [hsplit, List.take_left' (by simp)]
  simp [h, hne]

section Parts

variable {base : Text} {exchange : Option Char} {attributes : List Attribute}
  (hbase : PlainBase base) (hread : Readable base exchange attributes)
  (hfree : ∀ a ∈ attributes, WellFormedAttribute a)

include hbase hread hfree in
theorem length_without_compose :
    getLengthWithoutAttributesInternal (compose base exchange attributes) =
      (base ++ codeText exchange).length := by
  by_cases hne : attributes = []
  · have hbare : compose base exchange attributes = base ++ codeText exchange := by
      rw [compose, hne, tail_nil, List.append_nil]
    rw [hbare]
    cases exchange with
    | none =>
      rw [codeText, List.append_nil]
      exact length_without_of_not hbase.no_attributes
    | some x =>
      by_cases hx : x = attributesClose
      · apply length_without_open
        exact open_notMem_code x (hread (congrArg some hx) hne)
      · apply length_without_of_not
        have hsplit : base ++ codeText (some x) = base ++ [exchangeSeparator] ++ [x] := by
          simp [codeText]
        rw [hsplit]
        exact hasAttributes_of_last hx
  · have hlisted := WellFormedSymbol.listed_of_ne hne hfree
    have hbraced : compose base exchange attributes =
        inBraces (base ++ codeText exchange) (texts attributes none) := by
      rw [compose, tail, ← braced_eq_append, braced_of_ne _ hlisted.ne_nil]
    rw [hbraced, hlisted.length_without]

include hbase in
/-- What stands two characters before the attributes. -/
theorem hasExchangeCode_compose :
    hasExchangeCodeInternal (compose base exchange attributes)
      (base ++ codeText exchange).length = exchange.isSome := by
  cases exchange with
  | none =>
    have hcode := hbase.no_code
    rw [hasExchangeCode, length_without_of_not hbase.no_attributes] at hcode
    rw [compose, codeText, List.append_nil, Option.isSome_none, ← hcode]
    by_cases hlen : 2 ≤ base.length
    · rw [hasExchangeCodeInternal, hasExchangeCodeInternal, charAt_append _ (by omega)]
    · simp [hasExchangeCodeInternal, hlen]
  | some x =>
    have hat : charAt (compose base (some x) attributes)
        ((base ++ codeText (some x)).length - 2) = exchangeSeparator :=
      charAt_split (x := base) (y := x :: tail attributes) (by simp [compose, codeText])
        (by simp [codeText])
    rw [hasExchangeCodeInternal, hat]
    simp [codeText]

include hbase in
theorem getBaseSymbolInternal_compose :
    getBaseSymbolInternal (compose base exchange attributes)
      (base ++ codeText exchange).length = .ok base := by
  rw [getBaseSymbolInternal, hasExchangeCode_compose hbase]
  cases exchange with
  | none =>
    exact congrArg noexcept (substr_split (y := tail attributes) (by simp [compose, codeText])
      (by simp [codeText]))
  | some x =>
    exact congrArg noexcept (substr_split (y := exchangeSeparator :: x :: tail attributes)
      (by simp [compose, codeText]) (by simp [codeText]))

theorem substrFrom_compose :
    substrFrom (compose base exchange attributes) (base ++ codeText exchange).length =
      .ok (tail attributes) :=
  substrFrom_split rfl rfl

theorem length_eq_compose_iff :
    (base ++ codeText exchange).length = (compose base exchange attributes).length ↔
      tail attributes = [] := by
  have hlength : (base ++ codeText exchange ++ tail attributes).length =
      (base ++ codeText exchange).length + (tail attributes).length := List.length_append
  rw [compose, hlength, ← List.length_eq_zero_iff]
  omega

/-! ## The operations -/

include hbase hread hfree

theorem getBaseSymbol_compose :
    getBaseSymbol (compose base exchange attributes) = .ok base := by
  rw [getBaseSymbol, length_without_compose hbase hread hfree,
    getBaseSymbolInternal_compose hbase]
  rfl

theorem getExchangeCode_compose :
    getExchangeCode (compose base exchange attributes) = exchange.getD noExchange := by
  rw [getExchangeCode, hasExchangeCode, length_without_compose hbase hread hfree,
    hasExchangeCode_compose hbase]
  cases exchange with
  | none => rfl
  | some x =>
    exact charAt_split (x := base ++ [exchangeSeparator]) (y := tail attributes)
      (by simp [compose, codeText]) (by simp [codeText])

theorem getAttributeStringByKey_compose (key : Text) :
    getAttributeStringByKey (compose base exchange attributes) key =
      .ok (valueAt key attributes) := by
  by_cases hne : attributes = []
  · have hlength := length_without_compose hbase hread hfree
    have htail : tail attributes = [] := by rw [hne, tail_nil]
    rw [length_eq_compose_iff.mpr htail] at hlength
    rw [getAttributeStringByKey_bare hlength, hne, valueAt_nil]
  · have hlisted := WellFormedSymbol.listed_of_ne hne hfree
    have hbraced : compose base exchange attributes =
        inBraces (base ++ codeText exchange) (texts attributes none) := by
      rw [compose, tail, ← braced_eq_append, braced_of_ne _ hlisted.ne_nil]
    rw [hbraced, hlisted.getAttributeStringByKey]

theorem changeBaseSymbol_compose (new : Text) :
    changeBaseSymbol (compose base exchange attributes) new =
      .ok (compose new exchange attributes) := by
  simp only [changeBaseSymbol, length_without_compose hbase hread hfree,
    hasExchangeCode_compose hbase, substrFrom_compose, length_eq_compose_iff]
  cases exchange with
  | none =>
    by_cases htail : tail attributes = []
    · simp [htail, compose, codeText]
    · simp [htail, compose, codeText, pure, Except.pure]
  | some x =>
    have hat : charAt (compose base (some x) attributes)
        ((base ++ codeText (some x)).length - 1) = x :=
      charAt_split (x := base ++ [exchangeSeparator]) (y := tail attributes)
        (by simp [compose, codeText]) (by simp [codeText])
    rw [hat]
    simp [compose, codeText, pure, Except.pure]

theorem changeExchangeCode_compose (exchangeCode : Char) :
    changeExchangeCode (compose base exchange attributes) exchangeCode =
      .ok (compose base (codeOf exchangeCode) attributes) := by
  have hresult : (if exchangeCode = noExchange then base
      else base ++ [exchangeSeparator, exchangeCode]) = base ++ codeText (codeOf exchangeCode) := by
    by_cases hzero : exchangeCode = noExchange
    · rw [if_pos hzero, codeOf, if_pos hzero, codeText, List.append_nil]
    · rw [if_neg hzero, codeOf, if_neg hzero, codeText]
  simp only [changeExchangeCode, length_without_compose hbase hread hfree,
    getBaseSymbolInternal_compose hbase, substrFrom_compose, length_eq_compose_iff, ok_bind,
    hresult]
  by_cases htail : tail attributes = []
  · simp [htail, compose, pure, Except.pure]
  · simp [htail, compose, pure, Except.pure]

end Parts

/-! ## The laws -/

theorem getD_codeOf (exchangeCode : Char) :
    (codeOf exchangeCode).getD noExchange = exchangeCode := by
  by_cases hzero : exchangeCode = noExchange
  · rw [codeOf, if_pos hzero, hzero]
    rfl
  · rw [codeOf, if_neg hzero]
    rfl

theorem codeOf_getD {exchange : Option Char} (h : exchange ≠ some noExchange) :
    codeOf (exchange.getD noExchange) = exchange := by
  cases exchange with
  | none => exact if_pos rfl
  | some x => exact if_neg fun hzero => h (congrArg some hzero)

/-- The base and the exchange code can be read and written independently, wherever the texts
written stay readable. -/
theorem symbol_lenses (s : SymbolParts) (base : Text) (exchangeCode : Char)
    (hbase : PlainBase base) (hread : Readable base s.exchange s.attributes)
    (hcode : Readable s.base (codeOf exchangeCode) s.attributes) :
    ∃ t u v : Text, changeBaseSymbol s.text base = .ok t ∧
      changeExchangeCode s.text exchangeCode = .ok u ∧
      (getBaseSymbol t = .ok base ∧ getExchangeCode u = exchangeCode) ∧
      (getBaseSymbol s.text >>= changeBaseSymbol s.text) = .ok s.text ∧
      changeExchangeCode s.text (getExchangeCode s.text) = .ok s.text ∧
      (∀ second, changeBaseSymbol t second = changeBaseSymbol s.text second) ∧
      (∀ second, changeExchangeCode u second = changeExchangeCode s.text second) ∧
      (getExchangeCode t = getExchangeCode s.text ∧
        getBaseSymbol u = getBaseSymbol s.text) ∧
      (∀ key, getAttributeStringByKey t key = getAttributeStringByKey s.text key ∧
        getAttributeStringByKey u key = getAttributeStringByKey s.text key) ∧
      changeExchangeCode t exchangeCode = .ok v ∧ changeBaseSymbol u base = .ok v := by
  have hs := s.plain
  have hrs := s.readable
  have hfree := s.attributes_free
  refine ⟨compose base s.exchange s.attributes,
    compose s.base (codeOf exchangeCode) s.attributes,
    compose base (codeOf exchangeCode) s.attributes,
    changeBaseSymbol_compose hs hrs hfree base,
    changeExchangeCode_compose hs hrs hfree exchangeCode, ⟨?_, ?_⟩, ?_, ?_, ?_, ?_, ⟨?_, ?_⟩, ?_,
    changeExchangeCode_compose hbase hread hfree exchangeCode,
    changeBaseSymbol_compose hs hcode hfree base⟩
  · exact getBaseSymbol_compose hbase hread hfree
  · rw [getExchangeCode_compose hs hcode hfree, getD_codeOf]
  · rw [SymbolParts.text, getBaseSymbol_compose hs hrs hfree, ok_bind,
      changeBaseSymbol_compose hs hrs hfree]
  · rw [SymbolParts.text, getExchangeCode_compose hs hrs hfree,
      changeExchangeCode_compose hs hrs hfree, codeOf_getD s.exchange_ne_zero]
  · intro second
    rw [SymbolParts.text, changeBaseSymbol_compose hbase hread hfree,
      changeBaseSymbol_compose hs hrs hfree]
  · intro second
    rw [SymbolParts.text, changeExchangeCode_compose hs hcode hfree,
      changeExchangeCode_compose hs hrs hfree]
  · rw [SymbolParts.text, getExchangeCode_compose hbase hread hfree,
      getExchangeCode_compose hs hrs hfree]
  · rw [SymbolParts.text, getBaseSymbol_compose hs hcode hfree,
      getBaseSymbol_compose hs hrs hfree]
  · intro key
    rw [SymbolParts.text, getAttributeStringByKey_compose hbase hread hfree,
      getAttributeStringByKey_compose hs hcode hfree,
      getAttributeStringByKey_compose hs hrs hfree]
    exact ⟨rfl, rfl⟩

/-- The symbol `A&Q{k=5}`. -/
def regional : SymbolParts where
  base := ['A']
  exchange := some 'Q'
  attributes := [⟨['k'], ['5'], by decide, by decide⟩]
  plain := ⟨by decide, by decide⟩
  exchange_ne_zero := by decide
  readable h := absurd h (by decide)
  attributes_free := List.forall_mem_singleton.mpr (wellFormed_of_single (by decide) (by decide))

/-- A base with an ampersand of its own, and the exchange code taken away. -/
theorem symbol_lenses_regional :
    ∃ t u v : Text, changeBaseSymbol regional.text "A&BC".toList = .ok t ∧
      changeExchangeCode regional.text noExchange = .ok u ∧
      (getBaseSymbol t = .ok "A&BC".toList ∧ getExchangeCode u = noExchange) ∧
      (getBaseSymbol regional.text >>= changeBaseSymbol regional.text) = .ok regional.text ∧
      changeExchangeCode regional.text (getExchangeCode regional.text) = .ok regional.text ∧
      (∀ second, changeBaseSymbol t second = changeBaseSymbol regional.text second) ∧
      (∀ second, changeExchangeCode u second = changeExchangeCode regional.text second) ∧
      (getExchangeCode t = getExchangeCode regional.text ∧
        getBaseSymbol u = getBaseSymbol regional.text) ∧
      (∀ key, getAttributeStringByKey t key = getAttributeStringByKey regional.text key ∧
        getAttributeStringByKey u key = getAttributeStringByKey regional.text key) ∧
      changeExchangeCode t noExchange = .ok v ∧ changeBaseSymbol u "A&BC".toList = .ok v :=
  symbol_lenses regional "A&BC".toList noExchange ⟨by decide, by decide⟩
    (fun h => absurd h (by decide)) fun h => absurd h (by decide)

/-- The symbol `B&}`. -/
def closedByCode : WellFormedSymbol where
  base := ['B']
  exchange := some attributesClose
  attributes := []
  base_free := List.forall_mem_singleton.mpr (by decide)
  attributes_free a ha := absurd ha List.not_mem_nil

/-- Given the base `{a` it is read as attributes alone. -/
theorem base_lost_in_braces :
    PlainBase "\x7ba".toList ∧
      changeBaseSymbol closedByCode.text "\x7ba".toList = .ok "\x7ba&\x7d".toList ∧
      getBaseSymbol "\x7ba&\x7d".toList ≠ .ok "\x7ba".toList := by
  refine ⟨⟨by decide, by decide⟩, rfl, ?_⟩
  have hread : getBaseSymbol "\x7ba&\x7d".toList = .ok [] := rfl
  rw [hread]
  decide

end SymbolLenses
