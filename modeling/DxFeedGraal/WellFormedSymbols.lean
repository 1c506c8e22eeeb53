import DxFeedGraal.SymbolAttributes

/-! # Well-formed symbols

A base, an exchange code and attributes, from which the text is put together. -/
namespace WellFormedSymbols

open CppStrings MarketEventSymbols DelimitedTexts KeyedLists SymbolAttributes

structure WellFormedAttribute (a : Attribute) : Prop where
  key_free : ∀ c ∈ a.key, c ≠ attributesSeparator ∧ c ≠ attributesOpen ∧ c ≠ attributesClose
  value_free : ∀ c ∈ a.value, c ≠ attributesOpen ∧ c ≠ attributesClose

@[ext] structure WellFormedSymbol where
  base : Text
  exchange : Option Char
  attributes : List Attribute
  base_free : ∀ c ∈ base, c ≠ attributesOpen ∧ c ≠ attributesClose ∧ c ≠ exchangeSeparator
  attributes_free : ∀ a ∈ attributes, WellFormedAttribute a

namespace WellFormedSymbol

variable (s : WellFormedSymbol)

def keys : List Text := s.attributes.map Attribute.key

/-- The part in front of the attributes. -/
def front : Text := s.base ++ (s.exchange.map fun x => [exchangeSeparator, x]).getD []

def text : Text := braced s.front (texts s.attributes none)

theorem open_notMem_base : attributesOpen ∉ s.base := fun h => (s.base_free _ h).1 rfl

theorem open_notMem_front : attributesOpen ∉ s.front.take (s.front.length - 1) := by
  have hbase := s.open_notMem_base
  rw [front]
  cases s.exchange with
  | none =>
    simp only [Option.map_none, Option.getD_none, List.append_nil]
    exact fun h => hbase (List.mem_of_mem_take h)
  | some x =>
    have hsplit : s.base ++ (Option.map (fun x => [exchangeSeparator, x]) (some x)).getD []
        = (s.base ++ [exchangeSeparator]) ++ [x] := by simp
    have hne : attributesOpen ≠ exchangeSeparator := by decide
    rw [hsplit, List.take_left' (by simp)]
    simp [hbase, hne]

theorem texts_ne_empty (attributes : List Attribute) : texts attributes none ≠ [[]] := by
  cases attributes with
  | nil => simp [texts]
  | cons a as => simp [texts, Attribute.text, keyAndValue]

theorem open_notMem_listed {attributes : List Attribute}
    (h : ∀ a ∈ attributes, WellFormedAttribute a) :
    attributesOpen ∉ listed (texts attributes none) := by
  intro hmem
  rcases mem_joined _ _ hmem with hsep | hclose | ⟨t, ht, hc⟩
  · exact absurd hsep (by decide)
  · exact absurd hclose (by decide)
  · rw [texts, Option.toList_none, List.append_nil] at ht
    obtain ⟨a, ha, rfl⟩ := List.mem_map.mp ht
    rw [Attribute.text, keyAndValue, List.mem_append, List.mem_cons] at hc
    rcases hc with hkey | hvalue | hvalue
    · exact ((h a ha).key_free _ hkey).2.1 rfl
    · exact absurd hvalue (by decide)
    · exact ((h a ha).value_free _ hvalue).1 rfl

theorem listed_of_ne {attributes : List Attribute} (hne : attributes ≠ [])
    (h : ∀ a ∈ attributes, WellFormedAttribute a) : Listed attributes none where
  rest_free := by simp
  open_free := open_notMem_listed h
  ne_nil := by simpa [texts] using hne
  ne_empty := texts_ne_empty attributes

theorem length_without : getLengthWithoutAttributesInternal s.text = s.front.length := by
  by_cases hne : s.attributes = []
  · have htext : s.text = s.front := by simp [text, hne, texts, braced]
    rw [htext, length_without_open s.open_notMem_front]
  · have hlisted := listed_of_ne hne s.attributes_free
    rw [text, braced_of_ne _ hlisted.ne_nil, hlisted.length_without]

theorem text_eq_append : ∃ tail, s.text = s.front ++ tail := by
  rw [text]
  cases texts s.attributes none with
  | nil => exact ⟨[], (List.append_nil _).symm⟩
  | cons t ts => exact ⟨_, rfl⟩

/-- What stands at the end of the part in front of the attributes. -/
theorem hasExchangeCode_iff (tail : Text) :
    hasExchangeCodeInternal (s.front ++ tail) s.front.length = s.exchange.isSome := by
  rw [front]
  cases s.exchange with
  | none =>
    simp only [Option.map_none, Option.getD_none, List.append_nil, Option.isSome_none]
    by_cases hlen : 2 ≤ s.base.length
    · have hmem := charAt_mem tail (show s.base.length - 2 < s.base.length by omega)
      have hne := (s.base_free _ hmem).2.2
      simpa [hasExchangeCodeInternal] using fun _ => hne
    · simp [hasExchangeCodeInternal, hlen]
  | some x =>
    simp only [Option.map_some, Option.getD_some, Option.isSome_some]
    have hat : charAt (s.base ++ exchangeSeparator :: x :: tail) s.base.length
      = exchangeSeparator :=
      charAt_split rfl rfl
    simp [hasExchangeCodeInternal, hat]

theorem getBaseSymbol_text : getBaseSymbol s.text = .ok s.base := by
  obtain ⟨tail, htail⟩ := s.text_eq_append
  have hcode := s.hasExchangeCode_iff tail
  rw [getBaseSymbol, s.length_without, getBaseSymbolInternal, htail, hcode, front]
  cases s.exchange with
  | none => exact congrArg (noexcept ∘ noexcept) (substr_split (y := tail) (by simp) (by simp))
  | some x =>
    refine congrArg (noexcept ∘ noexcept) (substr_split (y := exchangeSeparator :: x :: tail) ?_ ?_)
    · simp
    · simp

theorem getExchangeCode_text : getExchangeCode s.text = s.exchange.getD (Char.ofNat 0) := by
  obtain ⟨tail, htail⟩ := s.text_eq_append
  have hcode := s.hasExchangeCode_iff tail
  rw [getExchangeCode, hasExchangeCode, s.length_without, htail, hcode, front]
  cases s.exchange with
  | none => rfl
  | some x =>
    refine charAt_split (x := s.base ++ [exchangeSeparator]) (y := tail) ?_ ?_
    · simp
    · simp

theorem bare_of_nil (hne : s.attributes = []) :
    s.text = s.front ∧ getLengthWithoutAttributesInternal s.front = s.front.length := by
  constructor
  · simp [text, hne, texts, braced]
  · exact length_without_open s.open_notMem_front

theorem getAttributeStringByKey_text (key : Text) :
    getAttributeStringByKey s.text key = .ok (valueAt key s.attributes) := by
  by_cases hne : s.attributes = []
  · obtain ⟨htext, hbare⟩ := s.bare_of_nil hne
    rw [htext, getAttributeStringByKey_bare hbare, hne]
    rfl
  · have hlisted := listed_of_ne hne s.attributes_free
    rw [text, braced_of_ne _ hlisted.ne_nil, hlisted.getAttributeStringByKey]

/-- A symbol is determined by its text. -/
theorem text_injective {s t : WellFormedSymbol} (h : s.text = t.text) : s = t := by
  have hbase : s.base = t.base := by
    have hread := s.getBaseSymbol_text
    rw [h, t.getBaseSymbol_text] at hread
    exact (Except.ok.inj hread).symm
  have hlen : s.front.length = t.front.length := by
    rw [← s.length_without, ← t.length_without, h]
  obtain ⟨u, hu⟩ := s.text_eq_append
  obtain ⟨v, hv⟩ := t.text_eq_append
  have hfront : s.front = t.front := List.append_inj_left (hu.symm.trans (h.trans hv)) hlen
  have hexchange : s.exchange = t.exchange := by
    rw [front, front, hbase] at hfront
    have hcode := List.append_cancel_left hfront
    cases hs : s.exchange with
    | none =>
      cases ht : t.exchange with
      | none => rfl
      | some y => simp [hs, ht] at hcode
    | some x =>
      cases ht : t.exchange with
      | none => simp [hs, ht] at hcode
      | some y => simpa [hs, ht] using hcode
  have hattributes : s.attributes = t.attributes := by
    rw [text, text, hfront] at h
    apply listed_injective
    cases hs : texts s.attributes none with
    | nil =>
      cases ht : texts t.attributes none with
      | nil => rfl
      | cons w ws => simp [hs, ht, braced] at h
    | cons w ws =>
      cases ht : texts t.attributes none with
      | nil => simp [hs, ht, braced] at h
      | cons w' ws' => simpa [hs, ht, braced] using h
  exact WellFormedSymbol.ext hbase hexchange hattributes

def setAttribute (new : Attribute) (h : WellFormedAttribute new) : WellFormedSymbol where
  base := s.base
  exchange := s.exchange
  attributes := write Attribute.key new s.attributes
  base_free := s.base_free
  attributes_free := by
    intro a ha
    rcases mem_write ha with rfl | hmem
    · exact h
    · exact s.attributes_free a (mem_without.mp hmem).1

theorem changeAttributeStringByKey_text (new : Attribute) (h : WellFormedAttribute new) :
    changeAttributeStringByKey s.text new.key new.value = .ok (s.setAttribute new h).text := by
  have hwritten : texts (write Attribute.key new s.attributes) none ≠ [] := by
    simpa [texts] using write_ne_nil new s.attributes
  have hresult : (s.setAttribute new h).text
      = inBraces s.front (texts (write Attribute.key new s.attributes) none) :=
    braced_of_ne s.front hwritten
  rw [hresult]
  by_cases hne : s.attributes = []
  · obtain ⟨htext, hbare⟩ := s.bare_of_nil hne
    rw [htext, changeAttributeStringByKey_bare hbare, hne]
    rfl
  · have hlisted := listed_of_ne hne s.attributes_free
    rw [text, braced_of_ne _ hlisted.ne_nil, hlisted.changeAttributeStringByKey _ hne]

/-- Reading after writing, on the symbols themselves. -/
theorem valueAt_setAttribute (new : Attribute) (h : WellFormedAttribute new) (key : Text) :
    valueAt key (s.setAttribute new h).attributes
      = if new.key = key then some new.value else valueAt key s.attributes :=
  valueAt_write new s.attributes key

end WellFormedSymbol

/-- The two ways to compare keys count alike. -/
theorem count_keys (keys : List Text) (key : Text) : keys.count key =
    @List.count Text (@instBEqOfDecidableEq Text LinearOrder.toDecidableEq) key keys := by
  rw [lawful_beq_subsingleton List.instBEq
    (@instBEqOfDecidableEq Text LinearOrder.toDecidableEq)]

/-- A written attribute is read back, everything else is as before, its key stands once, and
the keys stay in order; they are in strict order when no other key stood twice. -/
theorem change_attribute_reads_back (s : WellFormedSymbol) (new : Attribute)
    (h : WellFormedAttribute new) :
    ∃ t : WellFormedSymbol, changeAttributeStringByKey s.text new.key new.value = .ok t.text ∧
      getAttributeStringByKey t.text new.key = .ok (some new.value) ∧
      (∀ key, key ≠ new.key →
        getAttributeStringByKey t.text key = getAttributeStringByKey s.text key) ∧
      getBaseSymbol t.text = getBaseSymbol s.text ∧
      getExchangeCode t.text = getExchangeCode s.text ∧
      t.keys.count new.key = 1 ∧
      (s.keys.Pairwise (· ≤ ·) → t.keys.Pairwise (· ≤ ·)) ∧
      (s.keys.Pairwise (· ≤ ·) → (∀ key, key ≠ new.key → s.keys.count key ≤ 1) →
        t.keys.Pairwise (· < ·)) := by
  refine ⟨s.setAttribute new h, s.changeAttributeStringByKey_text new h, ?_, ?_, ?_, ?_, ?_, ?_,
    ?_⟩
  · rw [WellFormedSymbol.getAttributeStringByKey_text, s.valueAt_setAttribute, if_pos rfl]
  · intro key hkey
    rw [WellFormedSymbol.getAttributeStringByKey_text,
      WellFormedSymbol.getAttributeStringByKey_text,
      s.valueAt_setAttribute, if_neg (Ne.symm hkey)]
  · rw [WellFormedSymbol.getBaseSymbol_text, WellFormedSymbol.getBaseSymbol_text]
    rfl
  · rw [WellFormedSymbol.getExchangeCode_text, WellFormedSymbol.getExchangeCode_text]
    rfl
  · rw [count_keys]
    exact count_write new s.attributes
  · exact write_sorted new
  · intro hsorted hcount
    refine write_strictly_sorted new ⟨hsorted, ?_⟩
    intro key hkey
    have hle := hcount key hkey
    rwa [count_keys] at hle

theorem wellFormed_of_single {k v : Char}
    {hkey : attributeValue ∉ [k]} {hvalue : attributesSeparator ∉ [v]}
    (hk : k ≠ attributesSeparator ∧ k ≠ attributesOpen ∧ k ≠ attributesClose)
    (hv : v ≠ attributesOpen ∧ v ≠ attributesClose) :
    WellFormedAttribute ⟨[k], [v], hkey, hvalue⟩ where
  key_free := List.forall_mem_singleton.mpr hk
  value_free := List.forall_mem_singleton.mpr hv

/-- The symbol `A{a=1,a=2}`. -/
def repeatedKey : WellFormedSymbol where
  base := ['A']
  exchange := none
  attributes := [⟨['a'], ['1'], by decide, by decide⟩, ⟨['a'], ['2'], by decide, by decide⟩]
  base_free := List.forall_mem_singleton.mpr (by decide)
  attributes_free := by
    intro b hb
    rcases List.mem_pair.mp hb with rfl | rfl
    · exact wellFormed_of_single (by decide) (by decide)
    · exact wellFormed_of_single (by decide) (by decide)

/-- With `a=x` written to it one key is left. -/
theorem repeated_key_collapsed :
    ∃ t : WellFormedSymbol, changeAttributeStringByKey repeatedKey.text ['a'] ['x'] = .ok t.text ∧
      getAttributeStringByKey t.text ['a'] = .ok (some ['x']) ∧ t.keys.count ['a'] = 1 ∧
      t.keys.Pairwise (· < ·) := by
  have hnew : WellFormedAttribute ⟨['a'], ['x'], by decide, by decide⟩ :=
    wellFormed_of_single (by decide) (by decide)
  obtain ⟨t, ht, hread, -, -, -, honce, -, hstrict⟩ :=
    change_attribute_reads_back repeatedKey _ hnew
  refine ⟨t, ht, hread, honce, hstrict (by decide) ?_⟩
  intro key hkey
  have hcount : repeatedKey.keys.count key = 0 := by
    apply List.count_eq_zero_of_not_mem
    simpa [WellFormedSymbol.keys, repeatedKey] using hkey
  rw [hcount]
  exact Nat.zero_le 1

/-- Its keys are sorted, and with `b=x` written to it they are `a`, `a`, `b`. -/
theorem repeated_key_kept :
    repeatedKey.text = "A\x7ba=1,a=2\x7d".toList ∧ repeatedKey.keys.Pairwise (· ≤ ·) ∧
      ∃ new : Attribute, WellFormedAttribute new ∧ new.value ≠ [] ∧
        ∀ t : WellFormedSymbol,
          changeAttributeStringByKey repeatedKey.text new.key new.value = .ok t.text →
            ¬ t.keys.Pairwise (· < ·) := by
  have hnew : WellFormedAttribute ⟨['b'], ['x'], by decide, by decide⟩ :=
    wellFormed_of_single (by decide) (by decide)
  refine ⟨by decide, by decide, ⟨['b'], ['x'], by decide, by decide⟩, hnew, by decide, ?_⟩
  intro t ht
  have hresult := repeatedKey.changeAttributeStringByKey_text _ hnew
  rw [ht] at hresult
  rw [WellFormedSymbol.text_injective (Except.ok.inj hresult)]
  change ¬ [['a'], ['a'], ['b']].Pairwise (· < ·)
  decide

end WellFormedSymbols
