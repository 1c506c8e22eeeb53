import DxFeedGraal.WellFormedSymbols

/-! # Edits of the attributes of a symbol

What the removal of a key leaves, and that changes of two keys may come in either order. -/
namespace SymbolEdits

open CppStrings MarketEventSymbols DelimitedTexts KeyedLists SymbolAttributes WellFormedSymbols

/-- The first change, and on its result the second. -/
def changeTwice (symbol : Text) (a b : Attribute) : Cpp Text :=
  changeAttributeStringByKey symbol a.key a.value >>= fun changed =>
    changeAttributeStringByKey changed b.key b.value

/-! ## Removal -/

theorem removeAttributeStringByKey_bare {symbol : Text}
    (h : getLengthWithoutAttributesInternal symbol = symbol.length) (key : Text) :
    removeAttributeStringByKey symbol key = .ok symbol := by
  rw [removeAttributeStringByKey, h, removeAttributeInternal, if_pos rfl]
  rfl

def removeAttribute (s : WellFormedSymbol) (key : Text) : WellFormedSymbol where
  base := s.base
  exchange := s.exchange
  attributes := without Attribute.key key s.attributes
  base_free := s.base_free
  attributes_free a ha := s.attributes_free a (mem_without.mp ha).1

variable (s : WellFormedSymbol)

theorem removeAttributeStringByKey_text (key : Text) :
    removeAttributeStringByKey s.text key = .ok (removeAttribute s key).text := by
  by_cases hne : s.attributes = []
  · obtain ⟨htext, hbare⟩ := s.bare_of_nil hne
    have hsame : (removeAttribute s key).text = s.text := by
      simp [WellFormedSymbol.text, removeAttribute, WellFormedSymbol.front, hne, without]
    rw [hsame, htext]
    exact removeAttributeStringByKey_bare hbare key
  · have hlisted := WellFormedSymbol.listed_of_ne hne s.attributes_free
    rw [WellFormedSymbol.text, braced_of_ne _ hlisted.ne_nil]
    exact hlisted.removeAttributeStringByKey s.front key

theorem removeAttribute_twice (key : Text) :
    removeAttribute (removeAttribute s key) key = removeAttribute s key :=
  WellFormedSymbol.ext rfl rfl (without_without key s.attributes)

theorem key_notMem_removed (key : Text) : key ∉ (removeAttribute s key).keys := by
  intro hmem
  obtain ⟨a, ha, rfl⟩ := List.mem_map.mp hmem
  exact (mem_without.mp ha).2 rfl

theorem removeAttribute_setAttribute {new : Attribute} (h : WellFormedAttribute new)
    (habsent : valueAt new.key s.attributes = none) :
    removeAttribute (s.setAttribute new h) new.key = s :=
  WellFormedSymbol.ext rfl rfl (without_write (valueAt_eq_none.mp habsent))

/-- What stands in the braces is not empty, and the front does not look like braces. -/
theorem text_not_empty_braces (w : Text) : s.text ≠ w ++ [attributesOpen, attributesClose] := by
  intro htext
  have hlast : s.text.getLast? = some attributesClose ∧
      s.text.dropLast.getLast? = some attributesOpen := by
    rw [htext]
    constructor
    · simp
    · have hsplit : w ++ [attributesOpen, attributesClose] =
          (w ++ [attributesOpen]) ++ [attributesClose] := by simp
      rw [hsplit, List.dropLast_concat]
      simp
  by_cases hne : s.attributes = []
  · obtain ⟨hfront, -⟩ := s.bare_of_nil hne
    rw [hfront, WellFormedSymbol.front] at hlast
    cases hexchange : s.exchange with
    | none =>
      simp only [hexchange, Option.map_none, Option.getD_none, List.append_nil] at hlast
      exact (s.base_free _ (List.mem_of_getLast? hlast.1)).2.1 rfl
    | some x =>
      simp only [hexchange, Option.map_some, Option.getD_some] at hlast
      rw [show s.base ++ [exchangeSeparator, x] = s.base ++ [exchangeSeparator] ++ [x] by simp,
        List.dropLast_concat, List.getLast?_concat, List.getLast?_concat] at hlast
      exact absurd hlast.2 (by decide)
  · have hlisted := WellFormedSymbol.listed_of_ne hne s.attributes_free
    obtain ⟨b, hb, hbne⟩ := listed_eq_append hlisted.ne_nil hlisted.ne_empty
    have hopen : attributesOpen ∉ b := fun hmem =>
      hlisted.open_free (hb ▸ List.mem_append_left _ hmem)
    have hdrop : s.text.dropLast = s.front ++ [attributesOpen] ++ b := by
      rw [WellFormedSymbol.text, braced_of_ne _ hlisted.ne_nil, inBraces, hb]
      rw [show s.front ++ attributesOpen :: (b ++ [attributesClose]) =
        s.front ++ [attributesOpen] ++ b ++ [attributesClose] by simp, List.dropLast_concat]
    rw [hdrop, List.getLast?_append_of_ne_nil _ hbne] at hlast
    exact hopen (List.mem_of_getLast? hlast.2)

/-- A removed key is gone wherever it stood, all else is as before, and a removal undoes the
change that brought the key in. -/
theorem remove_attribute (key : Text) :
    ∃ t : WellFormedSymbol, removeAttributeStringByKey s.text key = .ok t.text ∧
      key ∉ t.keys ∧ getAttributeStringByKey t.text key = .ok none ∧
      (∀ other, other ≠ key →
        getAttributeStringByKey t.text other = getAttributeStringByKey s.text other) ∧
      getBaseSymbol t.text = getBaseSymbol s.text ∧
      getExchangeCode t.text = getExchangeCode s.text ∧
      (∀ w, t.text ≠ w ++ [attributesOpen, attributesClose]) ∧
      removeAttributeStringByKey t.text key = .ok t.text ∧
      ∀ new : Attribute, WellFormedAttribute new → new.key = key →
        getAttributeStringByKey s.text key = .ok none →
          (changeAttributeStringByKey s.text key new.value >>= fun changed =>
            removeAttributeStringByKey changed key) = .ok s.text := by
  refine ⟨removeAttribute s key, removeAttributeStringByKey_text s key, key_notMem_removed s key,
    ?_, ?_, ?_, ?_, text_not_empty_braces _, ?_, ?_⟩
  · rw [WellFormedSymbol.getAttributeStringByKey_text]
    exact congrArg Except.ok (valueAt_without_self key s.attributes)
  · intro other hother
    rw [WellFormedSymbol.getAttributeStringByKey_text,
      WellFormedSymbol.getAttributeStringByKey_text]
    exact congrArg Except.ok (valueAt_without hother s.attributes)
  · rw [WellFormedSymbol.getBaseSymbol_text, WellFormedSymbol.getBaseSymbol_text]
    rfl
  · rw [WellFormedSymbol.getExchangeCode_text, WellFormedSymbol.getExchangeCode_text]
    rfl
  · rw [removeAttributeStringByKey_text, removeAttribute_twice]
  · rintro new hnew rfl habsent
    rw [WellFormedSymbol.getAttributeStringByKey_text, Except.ok.injEq] at habsent
    rw [s.changeAttributeStringByKey_text new hnew, ok_bind, removeAttributeStringByKey_text,
      removeAttribute_setAttribute s hnew habsent]

/-! ## Two changes -/

theorem changeTwice_text {a b : Attribute} (ha : WellFormedAttribute a)
    (hb : WellFormedAttribute b) :
    changeTwice s.text a b = .ok ((s.setAttribute a ha).setAttribute b hb).text := by
  rw [changeTwice, s.changeAttributeStringByKey_text a ha, ok_bind,
    WellFormedSymbol.changeAttributeStringByKey_text]

/-- Over strictly sorted keys two changes may come in either order, and of two changes of one
key the second is the result. -/
theorem changes_commute (hs : s.keys.Pairwise (· < ·)) (a b : Attribute)
    (ha : WellFormedAttribute a) (hb : WellFormedAttribute b) :
    (a.key ≠ b.key →
      ∃ t : WellFormedSymbol, changeTwice s.text a b = .ok t.text ∧
        changeTwice s.text b a = .ok t.text) ∧
      (a.key = b.key →
        ∃ t : WellFormedSymbol, changeTwice s.text a b = .ok t.text ∧
          changeAttributeStringByKey s.text b.key b.value = .ok t.text) := by
  constructor
  · intro hne
    refine ⟨_, changeTwice_text s ha hb, ?_⟩
    have hcomm : (s.setAttribute b hb).setAttribute a ha =
        (s.setAttribute a ha).setAttribute b hb :=
      WellFormedSymbol.ext rfl rfl (write_comm hs (Ne.symm hne))
    rw [changeTwice_text s hb ha, hcomm]
  · intro heq
    refine ⟨_, ?_, s.changeAttributeStringByKey_text b hb⟩
    have hlast : (s.setAttribute a ha).setAttribute b hb = s.setAttribute b hb :=
      WellFormedSymbol.ext rfl rfl (write_write hs heq)
    rw [changeTwice_text s ha hb, hlast]

/-- The symbol `X{b=3}`. -/
def oneAttribute : WellFormedSymbol where
  base := ['X']
  exchange := none
  attributes := [⟨['b'], ['3'], by decide, by decide⟩]
  base_free := List.forall_mem_singleton.mpr (by decide)
  attributes_free := List.forall_mem_singleton.mpr (wellFormed_of_single (by decide) (by decide))

/-- A key in front without a value, and one behind. -/
theorem changes_around_one :
    (['a'] ≠ ['c'] → ∃ t : WellFormedSymbol,
      changeTwice oneAttribute.text ⟨['a'], [], by decide, by decide⟩
        ⟨['c'], ['x'], by decide, by decide⟩ = .ok t.text ∧
      changeTwice oneAttribute.text ⟨['c'], ['x'], by decide, by decide⟩
        ⟨['a'], [], by decide, by decide⟩ = .ok t.text) ∧
    (['a'] = ['c'] → ∃ t : WellFormedSymbol,
      changeTwice oneAttribute.text ⟨['a'], [], by decide, by decide⟩
        ⟨['c'], ['x'], by decide, by decide⟩ = .ok t.text ∧
      changeAttributeStringByKey oneAttribute.text ['c'] ['x'] = .ok t.text) := by
  have hempty : WellFormedAttribute ⟨['a'], [], by decide, by decide⟩ := by
    refine ⟨List.forall_mem_singleton.mpr (by decide), fun c hc => ?_⟩
    cases hc
  have hbehind : WellFormedAttribute ⟨['c'], ['x'], by decide, by decide⟩ :=
    wellFormed_of_single (by decide) (by decide)
  exact changes_commute oneAttribute (by decide) ⟨['a'], [], by decide, by decide⟩
    ⟨['c'], ['x'], by decide, by decide⟩ hempty hbehind

end SymbolEdits
