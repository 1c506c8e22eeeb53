import DxFeedGraal.CandleNormalisation
import DxFeedGraal.OrderedSymbols

/-! # Candle symbols made from ordered symbols

Attributes are edits of the symbol; what a getter then gives is settled by the pass of its
kind alone. -/
namespace OrderedCandles

open CppStrings CppNumbers DoubleValues Numerals MarketEventSymbols SymbolAttributes
open WellFormedSymbols SymbolLenses NormalisingPasses CandleAttributes CandlePrinting
open CandleNormalisation OrderedSymbols

/-- Keys and printed values may stand in a symbol. -/
structure Neat {α : Type} (kind : AttributeKind α) : Prop extends Printable kind where
  key_neat : ∀ c ∈ kind.attributeKey,
    c ≠ attributesSeparator ∧ c ≠ attributesOpen ∧ c ≠ attributesClose
  text_neat : ∀ x, ∀ c ∈ kind.toText x, c ≠ attributesOpen ∧ c ≠ attributesClose

section Kinds

variable (lib : StandardLibrary)

theorem neat_price : Neat CandlePrice.kind where
  toPrintable := printable_price
  key_neat := List.all_iff_forall_prop.mp (by decide)
  text_neat x := by cases x <;> exact List.all_iff_forall_prop.mp (by decide)

theorem neat_session : Neat CandleSession.kind where
  toPrintable := printable_session
  key_neat := List.all_iff_forall_prop.mp (by decide)
  text_neat x := by cases x <;> exact List.all_iff_forall_prop.mp (by decide)

theorem neat_alignment : Neat CandleAlignment.kind where
  toPrintable := printable_alignment
  key_neat := List.all_iff_forall_prop.mp (by decide)
  text_neat x := by cases x <;> exact List.all_iff_forall_prop.mp (by decide)

theorem numberText_neat (d : Double) : ∀ c ∈ numberText d,
    c ≠ attributesOpen ∧ c ≠ attributesClose := by
  intro c hc
  constructor
  · rintro rfl
    exact notMem_numberText (by decide) (by decide) d hc
  · rintro rfl
    exact notMem_numberText (by decide) (by decide) d hc

theorem neat_period : Neat (CandlePeriod.kind lib) where
  toPrintable := printable_period lib
  key_neat c hc := absurd hc List.not_mem_nil
  text_neat p := by
    have htype : ∀ c ∈ p.type.toText, c ≠ attributesOpen ∧ c ≠ attributesClose := by
      cases p.type <;> exact List.all_iff_forall_prop.mp (by decide)
    rcases period_text_cases lib p with htext | htext
    · rw [htext]
      exact htype
    · rw [htext]
      intro c hc
      rcases List.mem_append.mp hc with hnumber | hname
      · exact numberText_neat p.value c hnumber
      · exact htype c hname

theorem neat_priceLevel : Neat (CandlePriceLevel.kind lib) where
  toPrintable := printable_priceLevel lib
  key_neat := by
    change ∀ c ∈ "pl".toList, _
    exact List.all_iff_forall_prop.mp (by decide)
  text_neat l := numberText_neat l.value

variable {α : Type} {kind : AttributeKind α}

theorem Neat.clean (h : Neat kind) : Clean (pass h.toPrintable) where
  key_free := h.key_neat
  printed_free v t ht := by
    obtain ⟨x, -, -, rfl⟩ := reprint_eq_some.mp ht
    exact h.text_neat x

theorem passes_clean : ∀ p ∈ passes lib, Clean p := by
  apply (forall_passes lib (P := Clean)).mpr
  exact ⟨neat_price.clean, neat_session.clean, (neat_period lib).clean, neat_alignment.clean,
    (neat_priceLevel lib).clean⟩

/-- The edit that an attribute makes. -/
def Neat.edit (h : Neat kind) (x : α) : Edit :=
  if kind.equals x kind.default then .remove kind.attributeKey
  else .set ⟨kind.attributeKey, kind.toText x, h.key_free, (h.text_clean x).1⟩
    ⟨h.key_neat, h.text_neat x⟩

theorem Neat.changeAttributeForSymbol_eq (h : Neat kind) (x : α) (symbol : Text) :
    kind.changeAttributeForSymbol x symbol = OrderedSymbol.editText symbol (h.edit x) := by
  rw [AttributeKind.changeAttributeForSymbol, Neat.edit]
  split <;> rfl

theorem Neat.target_edit (h : Neat kind) (x : α) : (h.edit x).target = some kind.attributeKey := by
  rw [Neat.edit]
  split <;> rfl

/-- What stands in a symbol for a value. -/
def printed (kind : AttributeKind α) (x : α) : Option Text :=
  if kind.equals x kind.default then none else some (kind.toText x)

theorem Neat.value_edit (h : Neat kind) (x : α) : (h.edit x).value = printed kind x := by
  rw [Neat.edit, printed]
  split <;> rfl

end Kinds

section Settling

variable {α : Type} {kind : AttributeKind α}

/-- What the pass of a key leaves there. -/
def settled (p : Pass) : Option Text → Cpp (Option Text)
  | none => .ok none
  | some v => p.outcome v

def read (kind : AttributeKind α) : Option Text → Cpp α
  | none => .ok kind.default
  | some v => kind.parse v

/-- What the getter gives after the pass. -/
def final (h : Printable kind) (o : Option Text) : Cpp α := settled (pass h) o >>= read kind

theorem final_of_settled (h : Printable kind) {o o' : Option Text}
    (hown : settled (pass h) o = .ok o') : final h o = read kind o' := by
  rw [final, hown, ok_bind]

theorem getAttributeForSymbol_text (s : OrderedSymbol) :
    kind.getAttributeForSymbol s.text = read kind (valueAt kind.attributeKey s.attributes) := by
  rw [AttributeKind.getAttributeForSymbol, s.getAttributeStringByKey_text, ok_bind]
  cases valueAt kind.attributeKey s.attributes <;> rfl

/-- A text is parsed, printed and parsed again. -/
theorem final_some (h : Printable kind) {v : Text} {x : α} :
    final h (some v) = .ok x ↔ ∃ y, kind.parse v = .ok y ∧
      ((kind.equals y kind.default = true ∧ x = kind.default) ∨
        (kind.equals y kind.default = false ∧ kind.parse (kind.toText y) = .ok x)) := by
  have hreprint : (pass h).reprint v = reprint kind v := rfl
  rw [final, settled, Pass.outcome, hreprint, reprint]
  cases hparse : kind.parse v with
  | error e => cases e <;> simp [Except.map, read, hparse]
  | ok y =>
    by_cases hdefault : kind.equals y kind.default = true
    · simp only [Except.map, ok_bind, read, Except.ok.injEq, exists_eq_left', hdefault, if_true,
        true_and, Bool.true_eq_false, false_and, or_false]
      exact eq_comm
    · simp [Except.map, hdefault, read]

theorem final_of_parse (h : Printable kind) {v : Text} {x y : α} (hx : kind.parse v = .ok x) :
    final h (some v) = .ok y ↔ (kind.equals x kind.default = true ∧ y = kind.default) ∨
      (kind.equals x kind.default = false ∧ kind.parse (kind.toText x) = .ok y) := by
  rw [final_some]
  simp only [hx, Except.ok.injEq, exists_eq_left']

theorem final_defined (h : Printable kind) {v : Text} : (∃ x, final h (some v) = .ok x) ↔
    (reprint kind v = .ok none ∨
      ∃ t, reprint kind v = .ok (some t) ∧ ∃ x, kind.parse t = .ok x) := by
  simp only [final_some, reprint_eq_none, reprint_eq_some]
  constructor
  · rintro ⟨x, y, hy, ⟨hdefault, -⟩ | ⟨hkept, hx⟩⟩
    · exact Or.inl ⟨y, hy, hdefault⟩
    · exact Or.inr ⟨_, ⟨y, hy, hkept, rfl⟩, x, hx⟩
  · rintro (⟨y, hy, hdefault⟩ | ⟨t, ⟨y, hy, hkept, rfl⟩, x, hx⟩)
    · exact ⟨_, y, hy, Or.inl ⟨hdefault, rfl⟩⟩
    · exact ⟨x, y, hy, Or.inr ⟨hkept, hx⟩⟩

/-- Every key has what its pass leaves, and the other keys what they had. -/
structure Settles (ps : List Pass) (s t : OrderedSymbol) : Prop where
  base : t.base = s.base
  exchange : t.exchange = s.exchange
  own : ∀ p ∈ ps, settled p (valueAt p.key s.attributes) = .ok (valueAt p.key t.attributes)
  other : ∀ key, key ∉ ps.map Pass.key → valueAt key t.attributes = valueAt key s.attributes

theorem settles_of_runSteps {ps : List Pass} (hkeys : (ps.map Pass.key).Nodup)
    {s t : OrderedSymbol} (hbase : t.base = s.base) (hexchange : t.exchange = s.exchange)
    (hsteps : runSteps ps s.attributes = .ok t.attributes) : Settles ps s t := by
  obtain ⟨habsent, hown, hother⟩ := valueAt_runSteps hkeys hsteps
  refine ⟨hbase, hexchange, ?_, hother⟩
  intro p hp
  cases hv : valueAt p.key s.attributes with
  | none => rw [habsent p.key hv, settled]
  | some v => exact hown p hp v hv

theorem Settles.unique {ps : List Pass} {s t u : OrderedSymbol} (ht : Settles ps s t)
    (hu : Settles ps s u) : t = u := by
  apply OrderedSymbol.ext_of_valueAt (ht.base.trans hu.base.symm)
    (ht.exchange.trans hu.exchange.symm)
  intro key
  by_cases hkey : key ∈ ps.map Pass.key
  · obtain ⟨p, hp, rfl⟩ := List.mem_map.mp hkey
    exact Except.ok.inj ((ht.own p hp).symm.trans (hu.own p hp))
  · rw [ht.other key hkey, hu.other key hkey]

/-- The passes come to an end exactly when each of them settles its own key. -/
theorem runPasses_settles {ps : List Pass} (hkeys : (ps.map Pass.key).Nodup)
    (hps : ∀ p ∈ ps, Clean p) (s : OrderedSymbol) {result : Text} :
    runPasses ps s.text = .ok result ↔ ∃ t, Settles ps s t ∧ t.text = result := by
  rw [s.runPasses_text hps]
  constructor
  · rintro ⟨t, hbase, hexchange, hsteps, rfl⟩
    exact ⟨t, settles_of_runSteps hkeys hbase hexchange hsteps, rfl⟩
  · rintro ⟨t, ht, rfl⟩
    have hdefined : ∀ p ∈ ps, ∀ v, valueAt p.key s.attributes = some v →
        ∃ r, p.outcome v = .ok r := by
      intro p hp v hv
      have hown := ht.own p hp
      rw [hv] at hown
      exact ⟨_, hown⟩
    obtain ⟨as, hsteps⟩ := runSteps_defined hkeys hdefined
    obtain ⟨u, hbase, hexchange, rfl⟩ := s.runSteps_symbol hps hsteps
    obtain rfl := ht.unique (settles_of_runSteps hkeys hbase hexchange hsteps)
    exact ⟨t, hbase, hexchange, hsteps, rfl⟩

theorem settles_defined {ps : List Pass} (hkeys : (ps.map Pass.key).Nodup)
    (hps : ∀ p ∈ ps, Clean p) {s : OrderedSymbol}
    (h : ∀ p ∈ ps, ∃ o, settled p (valueAt p.key s.attributes) = .ok o) :
    ∃ t, Settles ps s t := by
  have hdefined : ∀ p ∈ ps, ∀ v, valueAt p.key s.attributes = some v →
      ∃ r, p.outcome v = .ok r := by
    intro p hp v hv
    have hown := h p hp
    rwa [hv] at hown
  obtain ⟨as, hsteps⟩ := runSteps_defined hkeys hdefined
  obtain ⟨t, hbase, hexchange, rfl⟩ := s.runSteps_symbol hps hsteps
  exact ⟨t, settles_of_runSteps hkeys hbase hexchange hsteps⟩

end Settling

section Symbols

variable (lib : StandardLibrary)

/-- What the getters of a candle symbol read off its symbol. -/
structure ReadsAs (s : OrderedSymbol) (c : CandleSymbol) : Prop where
  symbol : c.symbol = s.text
  baseSymbol : c.baseSymbol = s.base
  exchange : c.exchange = ⟨s.exchange.getD noExchange⟩
  price : read CandlePrice.kind (valueAt CandlePrice.kind.attributeKey s.attributes) = .ok c.price
  session : read CandleSession.kind (valueAt CandleSession.kind.attributeKey s.attributes)
    = .ok c.session
  period : read (CandlePeriod.kind lib)
    (valueAt (CandlePeriod.kind lib).attributeKey s.attributes) = .ok c.period
  alignment : read CandleAlignment.kind
    (valueAt CandleAlignment.kind.attributeKey s.attributes) = .ok c.alignment
  priceLevel : read (CandlePriceLevel.kind lib)
    (valueAt (CandlePriceLevel.kind lib).attributeKey s.attributes) = .ok c.priceLevel

theorem exchange_valueOf (x : Char) : CandleExchange.valueOf x = ⟨x⟩ := by
  rw [CandleExchange.valueOf]
  split
  next h => rw [h]; rfl
  next => rfl

theorem initTransientFields_text (s : OrderedSymbol) (c : CandleSymbol) :
    CandleSymbol.initTransientFields lib s.text = .ok c ↔ ReadsAs lib s c := by
  simp only [CandleSymbol.initTransientFields, noexcept_eq_ok, bind_eq_ok,
    getAttributeForSymbol_text, s.getBaseSymbol_text, CandleExchange.getAttributeForSymbol,
    s.getExchangeCode_text, exchange_valueOf]
  constructor
  · rintro ⟨base, hbase, price, hprice, session, hsession, period, hperiod, alignment, halignment,
      level, hlevel, hc⟩
    cases hbase
    cases hc
    exact ⟨rfl, rfl, rfl, hprice, hsession, hperiod, halignment, hlevel⟩
  · rintro ⟨hsymbol, hbase, hexchange, hprice, hsession, hperiod, halignment, hlevel⟩
    refine ⟨_, rfl, _, hprice, _, hsession, _, hperiod, _, halignment, _, hlevel, ?_⟩
    rw [← hsymbol, ← hbase, ← hexchange]
    rfl

theorem valueOf_text (s : OrderedSymbol) (c : CandleSymbol) :
    CandleSymbol.valueOf lib s.text = .ok c ↔
      ∃ t, Settles (passes lib) s t ∧ ReadsAs lib t c := by
  rw [valueOf_eq_ok, runPasses_settles (passes_keys lib) (passes_clean lib)]
  constructor
  · rintro ⟨⟨t, ht, hsymbol⟩, hread⟩
    rw [← hsymbol, initTransientFields_text] at hread
    exact ⟨t, ht, hread⟩
  · rintro ⟨t, ht, hread⟩
    refine ⟨⟨t, ht, hread.symbol.symm⟩, ?_⟩
    rw [hread.symbol, initTransientFields_text]
    exact hread

/-- The getters of a candle symbol made from a symbol. -/
structure Finals (s : OrderedSymbol) (c : CandleSymbol) : Prop where
  exchange : c.exchange = ⟨s.exchange.getD noExchange⟩
  price : final printable_price (valueAt CandlePrice.kind.attributeKey s.attributes) = .ok c.price
  session : final printable_session (valueAt CandleSession.kind.attributeKey s.attributes)
    = .ok c.session
  period : final (printable_period lib)
    (valueAt (CandlePeriod.kind lib).attributeKey s.attributes) = .ok c.period
  alignment : final printable_alignment
    (valueAt CandleAlignment.kind.attributeKey s.attributes) = .ok c.alignment
  priceLevel : final (printable_priceLevel lib)
    (valueAt (CandlePriceLevel.kind lib).attributeKey s.attributes) = .ok c.priceLevel

theorem finals_of_valueOf {s : OrderedSymbol} {c : CandleSymbol}
    (h : CandleSymbol.valueOf lib s.text = .ok c) : Finals lib s c := by
  obtain ⟨t, ht, hread⟩ := (valueOf_text lib s c).mp h
  obtain ⟨hprice, hsession, hperiod, halignment, hlevel⟩ := (forall_passes lib).mp ht.own
  exact
    { exchange := by rw [hread.exchange, ht.exchange]
      price := (final_of_settled _ hprice).trans hread.price
      session := (final_of_settled _ hsession).trans hread.session
      period := (final_of_settled _ hperiod).trans hread.period
      alignment := (final_of_settled _ halignment).trans hread.alignment
      priceLevel := (final_of_settled _ hlevel).trans hread.priceLevel }

/-- A candle symbol is made when every kind can be settled and read. -/
theorem valueOf_of_finals {s : OrderedSymbol} {c : CandleSymbol} (h : Finals lib s c) :
    ∃ symbol baseSymbol, CandleSymbol.valueOf lib s.text =
      .ok { c with symbol := symbol, baseSymbol := baseSymbol } := by
  obtain ⟨price, hprice, -⟩ := bind_eq_ok.mp h.price
  obtain ⟨session, hsession, -⟩ := bind_eq_ok.mp h.session
  obtain ⟨period, hperiod, -⟩ := bind_eq_ok.mp h.period
  obtain ⟨alignment, halignment, -⟩ := bind_eq_ok.mp h.alignment
  obtain ⟨level, hlevel, -⟩ := bind_eq_ok.mp h.priceLevel
  obtain ⟨t, ht⟩ := settles_defined (passes_keys lib) (passes_clean lib) (s := s)
    ((forall_passes lib).mpr ⟨⟨_, hprice⟩, ⟨_, hsession⟩, ⟨_, hperiod⟩, ⟨_, halignment⟩, _, hlevel⟩)
  obtain ⟨hprice', hsession', hperiod', halignment', hlevel'⟩ := (forall_passes lib).mp ht.own
  refine ⟨t.text, t.base, (valueOf_text lib s _).mpr ⟨t, ht, ?_⟩⟩
  exact
    { symbol := rfl
      baseSymbol := rfl
      exchange := by rw [ht.exchange]; exact h.exchange
      price := (final_of_settled _ hprice').symm.trans h.price
      session := (final_of_settled _ hsession').symm.trans h.session
      period := (final_of_settled _ hperiod').symm.trans h.period
      alignment := (final_of_settled _ halignment').symm.trans h.alignment
      priceLevel := (final_of_settled _ hlevel').symm.trans h.priceLevel }

end Symbols

/-! ## Attributes given as values -/

section Changes

variable (lib : StandardLibrary)

def editOf : CandleSymbolAttribute → Edit
  | .exchange e => .code e.exchangeCode
  | .price p => neat_price.edit p
  | .session s => neat_session.edit s
  | .period p => (neat_period lib).edit p
  | .alignment a => neat_alignment.edit a
  | .priceLevel l => (neat_priceLevel lib).edit l

theorem changeAttribute_text (s : OrderedSymbol) (a : CandleSymbolAttribute) :
    CandleSymbol.changeAttribute lib s.text a = .ok (s.edit (editOf lib a)).text := by
  have hedit : ∀ {symbol : Cpp Text}, symbol = OrderedSymbol.editText s.text (editOf lib a) →
      noexcept symbol = .ok (s.edit (editOf lib a)).text := by
    rintro symbol rfl
    rw [OrderedSymbol.editText_text]
    rfl
  cases a with
  | exchange e => exact hedit rfl
  | price p => exact hedit (neat_price.changeAttributeForSymbol_eq p s.text)
  | session x => exact hedit (neat_session.changeAttributeForSymbol_eq x s.text)
  | period p => exact hedit ((neat_period lib).changeAttributeForSymbol_eq p s.text)
  | alignment x => exact hedit (neat_alignment.changeAttributeForSymbol_eq x s.text)
  | priceLevel l => exact hedit ((neat_priceLevel lib).changeAttributeForSymbol_eq l s.text)

theorem changeAttributes_text (s : OrderedSymbol) (as : List CandleSymbolAttribute) :
    CandleSymbol.changeAttributes lib s.text as = .ok (s.edits (as.map (editOf lib))).text := by
  have hfold : ∀ t : OrderedSymbol, as.foldlM (CandleSymbol.changeAttribute lib) t.text =
      .ok (t.edits (as.map (editOf lib))).text := by
    induction as with
    | nil => intro t; rfl
    | cons a as ih =>
      intro t
      rw [List.foldlM_cons, changeAttribute_text, ok_bind, ih]
      rfl
  rw [CandleSymbol.changeAttributes, hfold]
  rfl

theorem valueOfAttributes_text (s : OrderedSymbol) (as : List CandleSymbolAttribute) :
    CandleSymbol.valueOfAttributes lib s.text as =
      CandleSymbol.valueOf lib (s.edits (as.map (editOf lib))).text := by
  rw [CandleSymbol.valueOfAttributes, changeAttributes_text]
  rfl

end Changes

end OrderedCandles
