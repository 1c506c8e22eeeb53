import DxFeedGraal.NormalisingPasses
import DxFeedGraal.SymbolEdits
import DxFeedGraal.SymbolLenses

/-! # Symbols with their attributes in order

A base, an exchange code and attributes in the order of their keys: every edit of the
library and every normalising pass leaves such a symbol. -/
namespace OrderedSymbols

open CppStrings MarketEventSymbols KeyedLists SymbolAttributes WellFormedSymbols SymbolLenses
open NormalisingPasses

@[ext] structure OrderedSymbol where
  base : Text
  exchange : Option Char
  attributes : List Attribute
  no_code : hasExchangeCode base = false
  open_free : attributesOpen ∉ base
  exchange_ne_zero : exchange ≠ some noExchange
  attributes_free : ∀ a ∈ attributes, WellFormedAttribute a
  ordered : (attributes.map Attribute.key).Pairwise (· < ·)

namespace OrderedSymbol

variable (s : OrderedSymbol)

def text : Text := compose s.base s.exchange s.attributes

theorem plain : PlainBase s.base where
  no_code := s.no_code
  no_attributes := by
    rw [hasAttributesInternal]
    split
    next => rw [findLastOf_none fun hmem => s.open_free (List.mem_of_mem_take hmem)]
    next => rfl

theorem readable : Readable s.base s.exchange s.attributes := fun _ _ => s.open_free

theorem getBaseSymbol_text : getBaseSymbol s.text = .ok s.base :=
  getBaseSymbol_compose s.plain s.readable s.attributes_free

theorem getExchangeCode_text : getExchangeCode s.text = s.exchange.getD noExchange :=
  getExchangeCode_compose s.plain s.readable s.attributes_free

theorem hasExchangeCode_text : hasExchangeCode s.text = s.exchange.isSome := by
  rw [hasExchangeCode, text, length_without_compose s.plain s.readable s.attributes_free,
    hasExchangeCode_compose s.plain]

theorem getAttributeStringByKey_text (key : Text) :
    getAttributeStringByKey s.text key = .ok (valueAt key s.attributes) :=
  getAttributeStringByKey_compose s.plain s.readable s.attributes_free key

/-- A symbol is determined by its base, its code and what it gives for every key. -/
theorem ext_of_valueAt {s t : OrderedSymbol} (hbase : s.base = t.base)
    (hexchange : s.exchange = t.exchange)
    (hvalues : ∀ key, valueAt key s.attributes = valueAt key t.attributes) : s = t := by
  refine OrderedSymbol.ext hbase hexchange (eq_of_lookup_eq s.ordered t.ordered ?_)
  intro key
  have hvalue := hvalues key
  rw [valueAt, valueAt] at hvalue
  cases ha : lookup Attribute.key key s.attributes with
  | none =>
    rw [ha, Option.map_none] at hvalue
    exact (Option.map_eq_none_iff.mp hvalue.symm).symm
  | some a =>
    rw [ha, Option.map_some] at hvalue
    obtain ⟨b, hb, hval⟩ := Option.map_eq_some_iff.mp hvalue.symm
    have hkeys : a.key = b.key := (key_of_lookup ha).trans (key_of_lookup hb).symm
    rw [hb, Attribute.ext hkeys hval.symm]

end OrderedSymbol

/-! ## Edits -/

inductive Edit
  | code (x : Char)
  | remove (key : Text)
  | set (new : Attribute) (free : WellFormedAttribute new)

/-- The key that is written, and none for the exchange code. -/
def Edit.target : Edit → Option Text
  | .code _ => none
  | .remove key => some key
  | .set new _ => some new.key

def Edit.value : Edit → Option Text
  | .code _ => none
  | .remove _ => none
  | .set new _ => some new.value

namespace OrderedSymbol

variable (s : OrderedSymbol)

def edit : Edit → OrderedSymbol
  | .code x =>
    { s with
      exchange := codeOf x
      exchange_ne_zero := by
        rw [codeOf]
        split
        next => simp
        next hx => simpa using hx }
  | .remove key =>
    { s with
      attributes := without Attribute.key key s.attributes
      attributes_free := fun a ha => s.attributes_free a (mem_without.mp ha).1
      ordered := s.ordered.sublist ((without_sublist key s.attributes).map Attribute.key) }
  | .set new free =>
    { s with
      attributes := write Attribute.key new s.attributes
      attributes_free := by
        intro a ha
        rcases mem_write ha with rfl | hmem
        · exact free
        · exact s.attributes_free a (mem_without.mp hmem).1
      ordered := write_strict s.ordered new }

/-- What an edit does in the text of the symbol. -/
def editText (symbol : Text) : Edit → Cpp Text
  | .code x => changeExchangeCode symbol x
  | .remove key => removeAttributeStringByKey symbol key
  | .set new _ => changeAttributeStringByKey symbol new.key new.value

theorem text_eq_braced :
    s.text = braced (s.base ++ codeText s.exchange) (texts s.attributes none) := by
  rw [text, compose, tail, ← braced_eq_append]

theorem bare_front : getLengthWithoutAttributesInternal (s.base ++ codeText s.exchange) =
    (s.base ++ codeText s.exchange).length := by
  have hread : Readable s.base s.exchange [] := fun _ _ => s.open_free
  have hbare := length_without_compose s.plain hread fun a ha => absurd ha List.not_mem_nil
  rwa [compose, tail_nil, List.append_nil] at hbare

theorem editText_text (e : Edit) : editText s.text e = .ok (s.edit e).text := by
  have hlisted := fun hne : s.attributes ≠ [] =>
    WellFormedSymbol.listed_of_ne hne s.attributes_free
  cases e with
  | code x => exact changeExchangeCode_compose s.plain s.readable s.attributes_free x
  | remove key =>
    rw [text_eq_braced, text_eq_braced]
    change removeAttributeStringByKey _ key = .ok (braced (s.base ++ codeText s.exchange)
      (texts (without Attribute.key key s.attributes) none))
    by_cases hne : s.attributes = []
    · rw [hne]
      exact SymbolEdits.removeAttributeStringByKey_bare s.bare_front key
    · rw [braced_of_ne _ (hlisted hne).ne_nil, (hlisted hne).removeAttributeStringByKey]
  | set new free =>
    have hwritten : texts (write Attribute.key new s.attributes) none ≠ [] := by
      simpa [texts] using write_ne_nil new s.attributes
    rw [text_eq_braced, text_eq_braced]
    change changeAttributeStringByKey _ new.key new.value =
      .ok (braced (s.base ++ codeText s.exchange)
        (texts (write Attribute.key new s.attributes) none))
    rw [braced_of_ne _ hwritten]
    by_cases hne : s.attributes = []
    · rw [hne]
      exact changeAttributeStringByKey_bare s.bare_front new
    · rw [braced_of_ne _ (hlisted hne).ne_nil, (hlisted hne).changeAttributeStringByKey _ hne]

@[simp] theorem edit_base (e : Edit) : (s.edit e).base = s.base := by
  cases e <;> rfl

theorem edit_exchange_of_key {e : Edit} (h : e.target ≠ none) :
    (s.edit e).exchange = s.exchange := by
  cases e with
  | code x => exact absurd rfl h
  | remove key => rfl
  | set new free => rfl

theorem valueAt_edit (e : Edit) (key : Text) :
    valueAt key (s.edit e).attributes =
      if e.target = some key then e.value else valueAt key s.attributes := by
  cases e with
  | code x => rfl
  | remove removed =>
    change valueAt key (without Attribute.key removed s.attributes) = _
    by_cases hkey : removed = key
    · rw [hkey, valueAt_without_self, Edit.target, if_pos rfl, Edit.value]
    · rw [valueAt_without (Ne.symm hkey), Edit.target, if_neg (by simpa using hkey)]
  | set new free =>
    change valueAt key (write Attribute.key new s.attributes) = _
    rw [valueAt_write]
    by_cases hkey : new.key = key
    · rw [if_pos hkey, Edit.target, if_pos (congrArg some hkey), Edit.value]
    · rw [if_neg hkey, Edit.target, if_neg (by simpa using hkey)]

/-- Edits of different places may come in either order. -/
theorem edit_comm {e f : Edit} (h : e.target ≠ f.target) :
    (s.edit e).edit f = (s.edit f).edit e := by
  apply ext_of_valueAt
  · simp
  · by_cases he : e.target = none
    · have hf : f.target ≠ none := he ▸ h.symm
      rw [edit_exchange_of_key _ hf]
      cases e with
      | code x => rfl
      | remove key => cases he
      | set new free => cases he
    · rw [edit_exchange_of_key _ he]
      cases f with
      | code x => rfl
      | remove key => exact edit_exchange_of_key s he
      | set new free => exact edit_exchange_of_key s he
  · intro key
    rw [valueAt_edit, valueAt_edit, valueAt_edit, valueAt_edit]
    by_cases he : e.target = some key
    · have hf : f.target ≠ some key := he ▸ h.symm
      rw [if_pos he, if_neg hf, if_pos he]
    · rw [if_neg he, if_neg he]

def edits (es : List Edit) : OrderedSymbol := es.foldl edit s

@[simp] theorem edits_base (es : List Edit) : (s.edits es).base = s.base := by
  induction es generalizing s with
  | nil => rfl
  | cons e es ih =>
    change ((s.edit e).edits es).base = _
    rw [ih, edit_base]

theorem edits_perm {es fs : List Edit} (hperm : fs.Perm es) (h : (es.map Edit.target).Nodup) :
    s.edits fs = s.edits es := by
  refine (hperm.symm.foldl_eq' ?_ s).symm
  intro e he f hf t
  by_cases heq : e.target = f.target
  · rw [List.inj_on_of_nodup_map h he hf heq]
  · exact t.edit_comm heq

/-- Among edits of different places each key has the value of its own edit. -/
theorem valueAt_edits {es : List Edit} (h : (es.map Edit.target).Nodup) (key : Text) :
    (∀ e ∈ es, e.target = some key → valueAt key (s.edits es).attributes = e.value) ∧
      ((∀ e ∈ es, e.target ≠ some key) →
        valueAt key (s.edits es).attributes = valueAt key s.attributes) := by
  induction es generalizing s with
  | nil => exact ⟨by simp, fun _ => rfl⟩
  | cons e es ih =>
    rw [List.map_cons, List.nodup_cons] at h
    obtain ⟨ihown, ihother⟩ := ih (s.edit e) h.2
    change (∀ f ∈ e :: es, f.target = some key →
      valueAt key ((s.edit e).edits es).attributes = f.value) ∧ ((∀ f ∈ e :: es, _) →
        valueAt key ((s.edit e).edits es).attributes = valueAt key s.attributes)
    constructor
    · intro f hf hkey
      rcases List.mem_cons.mp hf with rfl | hmem
      · have hrest : ∀ g ∈ es, g.target ≠ some key := by
          intro g hg heq
          exact h.1 (hkey.trans heq.symm ▸ List.mem_map_of_mem hg)
        rw [ihother hrest, valueAt_edit, if_pos hkey]
      · exact ihown f hmem hkey
    · intro hnone
      rw [ihother fun g hg => hnone g (List.mem_cons_of_mem e hg), valueAt_edit,
        if_neg (hnone e List.mem_cons_self)]

theorem exchange_edits {es : List Edit} (h : (es.map Edit.target).Nodup) :
    (∀ x, .code x ∈ es → (s.edits es).exchange = codeOf x) ∧
      ((∀ e ∈ es, e.target ≠ none) → (s.edits es).exchange = s.exchange) := by
  induction es generalizing s with
  | nil => exact ⟨by simp, fun _ => rfl⟩
  | cons e es ih =>
    rw [List.map_cons, List.nodup_cons] at h
    obtain ⟨ihown, ihother⟩ := ih (s.edit e) h.2
    change (∀ x, .code x ∈ e :: es → ((s.edit e).edits es).exchange = codeOf x) ∧
      ((∀ f ∈ e :: es, _) → ((s.edit e).edits es).exchange = s.exchange)
    constructor
    · intro x hx
      rcases List.mem_cons.mp hx with rfl | hmem
      · have hrest : ∀ g ∈ es, g.target ≠ none := by
          intro g hg heq
          exact h.1 (List.mem_map.mpr ⟨g, hg, heq⟩)
        rw [ihother hrest]
        rfl
      · exact ihown x hmem
    · intro hnone
      rw [ihother fun g hg => hnone g (List.mem_cons_of_mem e hg),
        edit_exchange_of_key _ (hnone e List.mem_cons_self)]

end OrderedSymbol

/-! ## Passes -/

/-- What a pass prints stays well formed. -/
structure Clean (p : Pass) : Prop where
  key_free : ∀ c ∈ p.key, c ≠ attributesSeparator ∧ c ≠ attributesOpen ∧ c ≠ attributesClose
  printed_free : ∀ v t, p.reprint v = .ok (some t) → ∀ c ∈ t, c ≠ attributesOpen ∧
    c ≠ attributesClose

namespace OrderedSymbol

variable (s : OrderedSymbol)

theorem outcome_printed {p : Pass} {v t : Text} (h : p.outcome v = .ok (some t)) (hne : v ≠ t) :
    p.reprint v = .ok (some t) := by
  rw [Pass.outcome] at h
  cases hr : p.reprint v with
  | ok r => rwa [hr] at h
  | error e => cases e <;> simp [hr, hne] at h

/-- A step of a pass is an edit. -/
theorem step_edit {p : Pass} (hp : Clean p) {as : List Attribute}
    (h : p.step s.attributes = .ok as) :
    ∃ t : OrderedSymbol, t.base = s.base ∧ t.exchange = s.exchange ∧ t.attributes = as := by
  rcases step_cases h with ⟨-, rfl⟩ | ⟨v, -, ⟨-, rfl⟩ | ⟨-, rfl⟩ | ⟨a, hkey, hne, ho, rfl⟩⟩
  · exact ⟨s, rfl, rfl, rfl⟩
  · exact ⟨s.edit (.remove p.key), rfl, rfl, rfl⟩
  · exact ⟨s, rfl, rfl, rfl⟩
  · have hfree : WellFormedAttribute a := by
      refine ⟨hkey ▸ hp.key_free, ?_⟩
      exact hp.printed_free v a.value (outcome_printed ho hne)
    exact ⟨s.edit (.set a hfree), rfl, rfl, rfl⟩

theorem runSteps_symbol {ps : List Pass} (hps : ∀ p ∈ ps, Clean p) {as : List Attribute}
    (h : runSteps ps s.attributes = .ok as) :
    ∃ t : OrderedSymbol, t.base = s.base ∧ t.exchange = s.exchange ∧ t.attributes = as := by
  induction ps generalizing s with
  | nil => exact ⟨s, rfl, rfl, Except.ok.inj h⟩
  | cons p ps ih =>
    obtain ⟨bs, hstep, hrest⟩ := bind_eq_ok.mp h
    obtain ⟨t, hbase, hexchange, rfl⟩ := s.step_edit (hps p List.mem_cons_self) hstep
    obtain ⟨u, hubase, huexchange, hu⟩ := ih t (fun q hq => hps q (List.mem_cons_of_mem p hq)) hrest
    exact ⟨u, hubase.trans hbase, huexchange.trans hexchange, hu⟩

theorem sound : Sound s.attributes none where
  rest_free := by simp
  open_free t ht := by
    rw [texts, Option.toList_none, List.append_nil] at ht
    obtain ⟨a, ha, rfl⟩ := List.mem_map.mp ht
    have hfree := s.attributes_free a ha
    have hne : attributesOpen ≠ attributeValue := by decide
    have hkey : attributesOpen ∉ a.key := fun hmem => (hfree.key_free _ hmem).2.1 rfl
    have hvalue : attributesOpen ∉ a.value := fun hmem => (hfree.value_free _ hmem).1 rfl
    simp [Attribute.text, keyAndValue, hkey, hvalue, hne]

theorem apply_text (p : Pass) : p.apply s.text = (p.step s.attributes).map fun as =>
    compose s.base s.exchange as := by
  have hcompose : ∀ as, compose s.base s.exchange as =
      braced (s.base ++ codeText s.exchange) (texts as none) := by
    intro as
    rw [compose, tail, ← braced_eq_append]
  simp only [hcompose]
  rw [text_eq_braced]
  by_cases hne : s.attributes = []
  · rw [hne, Pass.step_absent (valueAt_nil p.key)]
    change p.apply (s.base ++ codeText s.exchange) = .ok (s.base ++ codeText s.exchange)
    rw [Pass.apply, getAttributeStringByKey_bare s.bare_front]
    rfl
  · have hne' : texts s.attributes none ≠ [] := by simpa [texts] using hne
    rw [braced_of_ne _ hne', apply_inBraces s.sound hne']

/-- The passes leave a symbol with the attributes that their steps leave. -/
theorem runPasses_text {ps : List Pass} (hps : ∀ p ∈ ps, Clean p) {result : Text} :
    runPasses ps s.text = .ok result ↔ ∃ t : OrderedSymbol, t.base = s.base ∧
      t.exchange = s.exchange ∧ runSteps ps s.attributes = .ok t.attributes ∧ t.text = result := by
  induction ps generalizing s with
  | nil =>
    constructor
    · intro h
      exact ⟨s, rfl, rfl, rfl, Except.ok.inj h⟩
    · rintro ⟨t, hbase, hexchange, hsteps, rfl⟩
      rw [OrderedSymbol.ext hbase hexchange (Except.ok.inj hsteps).symm]
      rfl
  | cons p ps ih =>
    rw [runPasses, apply_text, runSteps]
    cases hstep : p.step s.attributes with
    | error e => simp [Except.map]
    | ok as =>
      obtain ⟨t, hbase, hexchange, rfl⟩ := s.step_edit (hps p List.mem_cons_self) hstep
      have htext : compose s.base s.exchange t.attributes = t.text := by
        rw [text, hbase, hexchange]
      simp only [Except.map, ok_bind, htext]
      rw [ih t fun q hq => hps q (List.mem_cons_of_mem p hq), hbase, hexchange]

end OrderedSymbol

end OrderedSymbols
