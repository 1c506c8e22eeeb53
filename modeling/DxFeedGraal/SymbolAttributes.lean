import DxFeedGraal.DelimitedTexts
import DxFeedGraal.KeyedLists
import DxFeedGraal.MarketEventSymbols

/-! # The attribute list of a symbol

The scanning loops cut the text in braces into attributes and, at most once and at the end,
a rest that has no value. Every loop is described by what it does to this list. -/
namespace SymbolAttributes

open CppStrings MarketEventSymbols DelimitedTexts KeyedLists

@[ext] structure Attribute where
  key : Text
  value : Text
  key_free : attributeValue ∉ key
  value_free : attributesSeparator ∉ value
  deriving DecidableEq

def Attribute.text (a : Attribute) : Text := keyAndValue a.key a.value

abbrev listed : List Text → Text := joined attributesSeparator attributesClose

def texts (attributes : List Attribute) (rest : Option Text) : List Text :=
  attributes.map Attribute.text ++ rest.toList

/-- The symbol with its list in braces, and without braces when nothing is left in it. -/
def braced (before : Text) : List Text → Text
  | [] => before
  | t :: ts => before ++ attributesOpen :: listed (t :: ts)

/-- Where the scan stands after some attributes. -/
def position (before : Text) (attributes : List Attribute) : ℕ :=
  before.length + 1 + offset (attributes.map Attribute.text)

/-- The value of the first attribute with the key. -/
def valueAt (key : Text) (attributes : List Attribute) : Option Text :=
  (lookup Attribute.key key attributes).map Attribute.value

section Values

@[simp] theorem valueAt_nil (key : Text) : valueAt key [] = none := rfl

theorem valueAt_eq_none {key : Text} {attributes : List Attribute} :
    valueAt key attributes = none ↔ ∀ a ∈ attributes, a.key ≠ key := by
  rw [valueAt, Option.map_eq_none_iff, lookup_eq_none]

theorem exists_valueAt {attributes : List Attribute} (h : attributes ≠ []) :
    ∃ key v, valueAt key attributes = some v := by
  obtain ⟨a, ha⟩ := List.exists_mem_of_ne_nil attributes h
  refine ⟨a.key, ?_⟩
  rw [← Option.ne_none_iff_exists']
  intro hnone
  exact valueAt_eq_none.mp hnone a ha rfl

theorem valueAt_without_self (key : Text) (attributes : List Attribute) :
    valueAt key (without Attribute.key key attributes) = none := by
  rw [valueAt, lookup_without_self]
  rfl

theorem valueAt_without {key other : Text} (h : other ≠ key) (attributes : List Attribute) :
    valueAt other (without Attribute.key key attributes) = valueAt other attributes := by
  rw [valueAt, lookup_without key h]
  rfl

theorem valueAt_write (new : Attribute) (attributes : List Attribute) (key : Text) :
    valueAt key (write Attribute.key new attributes)
      = if new.key = key then some new.value else valueAt key attributes := by
  rw [valueAt, lookup_write]
  split <;> rfl

end Values

section Scan

theorem listed_append (before : Text) (ds us : List Text) :
    (before ++ attributesOpen :: listed (ds ++ us)).drop (before.length + 1 + offset ds)
      = listed us := by
  have hlen : (before ++ [attributesOpen]).length = before.length + 1 := by simp
  have hsplit : before ++ attributesOpen :: listed (ds ++ us)
      = (before ++ [attributesOpen]) ++ listed (ds ++ us) := by simp
  rw [hsplit, ← List.drop_drop, List.drop_left' hlen, drop_joined]

theorem texts_append (done as : List Attribute) (rest : Option Text) :
    texts (done ++ as) rest = done.map Attribute.text ++ texts as rest := by
  simp [texts]

@[simp] theorem texts_cons (a : Attribute) (as : List Attribute) (rest : Option Text) :
    texts (a :: as) rest = a.text :: texts as rest := rfl

theorem position_concat (before : Text) (done : List Attribute) (a : Attribute) :
    position before (done ++ [a]) = position before done + a.text.length + 1 := by
  simp [position]
  omega

/-- What the three scanning helpers read off one attribute. -/
structure Scanned (symbol : Text) (i : ℕ) (a : Attribute) : Prop where
  inside : i < symbol.length
  key : getKeyInternal symbol i = some a.key
  next : getNextKeyInternal symbol i = i + a.text.length + 1
  value : getValueInternal symbol i (i + a.text.length + 1) = .ok a.value

theorem scanned_of_drop {symbol w : Text} {i : ℕ} {a : Attribute} {c : Char}
    (h : symbol.drop i = a.text ++ c :: w)
    (hc : c = attributesSeparator ∨ c = attributesClose ∧ w = []) : Scanned symbol i a := by
  have hlen : symbol.length = i + a.text.length + 1 + w.length := by
    have hdrop := congrArg List.length h
    simp only [List.length_drop, List.length_append, List.length_cons] at hdrop
    omega
  have hkey : symbol.drop i = a.key ++ attributeValue :: (a.value ++ c :: w) := by
    rw [h, Attribute.text, keyAndValue]
    simp
  have hfound : findFirstOf attributeValue symbol i = some (i + a.key.length) :=
    findFirstOf_of_drop hkey a.key_free
  have htext : a.text.length = a.key.length + 1 + a.value.length := by
    simp [Attribute.text, keyAndValue]
    omega
  have hvalue : symbol.drop (i + a.key.length + 1) = a.value ++ c :: w := by
    rw [Nat.add_assoc, ← List.drop_drop, hkey, ← List.singleton_append, ← List.append_assoc,
      List.drop_left' (by simp)]
  refine ⟨by omega, ?_, ?_, ?_⟩
  · rw [getKeyInternal, hfound]
    simp only [sizeSub_of_le (Nat.le_add_right i a.key.length), Nat.add_sub_cancel_left]
    rw [substr, if_pos (by omega), hkey, List.take_left']
    · rfl
    · rfl
  · rw [getNextKeyInternal, hfound, succPos_some]
    rcases hc with rfl | ⟨rfl, rfl⟩
    · simp only [findFirstOf_of_drop hvalue a.value_free]
      omega
    · have hnone : findFirstOf attributesSeparator symbol (i + a.key.length + 1) = none := by
        apply findFirstOf_none
        rw [hvalue, List.mem_append, not_or]
        exact ⟨a.value_free, by decide⟩
      simp only [hnone]
      simpa using hlen
  · rw [getValueInternal, hfound, succPos_some]
    have hsize : sizeSub (sizeSub (i + a.text.length + 1) 1) (i + a.key.length + 1)
        = a.value.length := by
      rw [sizeSub_of_le (Nat.le_add_left 1 _), sizeSub_of_le (by omega)]
      omega
    simp only [hsize]
    rw [substr, if_pos (by omega), hvalue, List.take_left' rfl]

theorem getKeyInternal_none {symbol : Text} {i : ℕ} (h : attributeValue ∉ symbol.drop i) :
    getKeyInternal symbol i = none := by
  rw [getKeyInternal, findFirstOf_none h]

theorem scanned_cons (a : Attribute) (ts : List Text) : Scanned (listed (a.text :: ts)) 0 a :=
  scanned_of_drop rfl (closer_cases attributesSeparator attributesClose ts)

/-- The attributes are determined by their text. -/
theorem listed_injective {as bs : List Attribute}
    (h : listed (texts as none) = listed (texts bs none)) : as = bs := by
  induction as generalizing bs with
  | nil =>
    cases bs with
    | nil => rfl
    | cons b bs => simp [texts] at h
  | cons a as ih =>
    cases bs with
    | nil => simp [texts] at h
    | cons b bs =>
      have ha := scanned_cons a (texts as none)
      have hb := scanned_cons b (texts bs none)
      rw [← texts_cons] at ha hb
      rw [← h] at hb
      have hlen : a.text.length = b.text.length := by
        have hnext := ha.next.symm.trans hb.next
        omega
      have hkey : a.key = b.key := Option.some.inj (ha.key.symm.trans hb.key)
      have hvalue : a.value = b.value := by
        have hread := ha.value
        rw [hlen, hb.value] at hread
        exact (Except.ok.inj hread).symm
      obtain rfl : a = b := Attribute.ext hkey hvalue
      have htail := congrArg (List.drop (a.text.length + 1)) h
      have hdrop : ∀ cs, (listed (texts (a :: cs) none)).drop (a.text.length + 1)
          = listed (texts cs none) := by
        intro cs
        have hjoin := drop_joined attributesSeparator attributesClose [a.text] (texts cs none)
        rw [offset_cons, offset_nil, Nat.add_zero] at hjoin
        exact hjoin
      rw [hdrop, hdrop] at htail
      rw [ih htail]

variable (before : Text) (rest : Option Text)

/-- The text in braces, at least one text of it being there. -/
abbrev inBraces (ts : List Text) : Text := before ++ attributesOpen :: listed ts

theorem scanned_attribute (done : List Attribute) (a : Attribute) (as : List Attribute) :
    Scanned (inBraces before (texts (done ++ a :: as) rest)) (position before done) a := by
  have hdrop := listed_append before (done.map Attribute.text) (texts (a :: as) rest)
  rw [← texts_append] at hdrop
  exact scanned_of_drop hdrop (closer_cases attributesSeparator attributesClose (texts as rest))

theorem scan_stops (h : ∀ t ∈ rest, attributeValue ∉ t) (done : List Attribute) :
    getKeyInternal (inBraces before (texts done rest)) (position before done) = none := by
  apply getKeyInternal_none
  have hdrop := listed_append before (done.map Attribute.text) rest.toList
  rw [show texts done rest = done.map Attribute.text ++ rest.toList from rfl, position, hdrop]
  cases rest with
  | none => simp
  | some t =>
    have ht := h t rfl
    have hclose : attributeValue ≠ attributesClose := by decide
    simp [ht, hclose]

end Scan

section Edit

variable (before : Text)

/-- The symbol up to the end of the texts `ds`, when another text follows. -/
def upTo (ds : List Text) : Text := before ++ attributesOpen :: separated attributesSeparator ds

theorem length_upTo (ds : List Text) : (upTo before ds).length = before.length + 1 + offset ds := by
  simp [upTo, length_separated]
  omega

theorem inBraces_append_cons (ds : List Text) (u : Text) (us : List Text) :
    inBraces before (ds ++ u :: us) = upTo before ds ++ listed (u :: us) := by
  rw [inBraces, listed, joined_append_cons, upTo, List.append_assoc, List.cons_append]

theorem inBraces_append_of_ne {ds : List Text} (h : ds ≠ []) :
    ∃ b, upTo before ds = b ++ [attributesSeparator] ∧
      ∀ us, inBraces before (ds ++ us)
        = b ++ closer attributesSeparator attributesClose us :: listed us := by
  obtain ⟨b, hsep, hjoin⟩ := joined_append_of_ne attributesSeparator attributesClose h
  refine ⟨before ++ attributesOpen :: b, ?_, ?_⟩
  · rw [upTo, hsep, List.append_assoc, List.cons_append]
  · intro us
    rw [inBraces, listed, hjoin, List.append_assoc, List.cons_append]

theorem length_inBraces (ts : List Text) :
    (inBraces before ts).length = before.length + 1 + offset ts := by
  simp [inBraces, listed, length_joined]
  omega

theorem braced_of_ne {ts : List Text} (h : ts ≠ []) : braced before ts = inBraces before ts := by
  cases ts with
  | nil => exact absurd rfl h
  | cons t ts => rfl

theorem drop_inner_text (ds : List Text) (t v : Text) (vs : List Text) {i j : ℕ}
    (hi : i = before.length + 1 + offset ds) (hj : j = i + t.length + 1) :
    dropKeyAndValueInternal (inBraces before (ds ++ t :: v :: vs)) before.length i j
      = inBraces before (ds ++ v :: vs) := by
  have hlen : (inBraces before (ds ++ t :: v :: vs)).length = j + offset (v :: vs) := by
    rw [length_inBraces, offset_append, offset_cons]
    omega
  have hlast : (inBraces before (ds ++ t :: v :: vs)).length ≠ j := by
    rw [hlen, offset_cons]
    omega
  have hupTo := length_upTo before ds
  have hsplit := inBraces_append_cons before ds t (v :: vs)
  have hfrom : inBraces before (ds ++ t :: v :: vs)
      = (upTo before ds ++ t ++ [attributesSeparator]) ++ listed (v :: vs) := by
    rw [hsplit]
    simp
  have hresult := inBraces_append_cons before ds v vs
  rw [dropKeyAndValueInternal, if_neg hlast.symm, substr_split hsplit (by omega),
    substrFrom_split hfrom (by simp; omega), hresult]
  rfl

/-- The separator goes with the last text. -/
theorem drop_last_text {ds : List Text} (hds : ds ≠ []) (t : Text) {i j : ℕ}
    (hi : i = before.length + 1 + offset ds) (hj : j = i + t.length + 1) :
    dropKeyAndValueInternal (inBraces before (ds ++ [t])) before.length i j
      = inBraces before ds := by
  have hlen : (inBraces before (ds ++ [t])).length = j := by
    rw [length_inBraces, offset_append, offset_cons, offset_nil]
    omega
  have hupTo := length_upTo before ds
  obtain ⟨b, hb, hjoin⟩ := inBraces_append_of_ne before hds
  have hlenb : b.length + 1 = i := by
    rw [hb, List.length_append, List.length_singleton] at hupTo
    omega
  have hne : i ≠ before.length + 1 := by
    have hpos : 0 < ds.length := List.length_pos_iff.mpr hds
    have hle := length_le_offset ds
    omega
  have hto : inBraces before (ds ++ [t])
      = b ++ (attributesSeparator :: listed [t]) := hjoin [t]
  have hfrom : inBraces before (ds ++ [t])
      = (b ++ attributesSeparator :: t) ++ [attributesClose] := by
    rw [hto]
    simp
  have hclosed := hjoin []
  rw [List.append_nil] at hclosed
  rw [dropKeyAndValueInternal, if_pos hlen.symm, if_neg hne, sizeSub_of_le (by omega),
    sizeSub_of_le (by omega), substr_split hto (by omega), substrFrom_split hfrom (by simp; omega),
    hclosed]
  rfl

/-- The braces go with the only text. -/
theorem drop_only_text (t : Text) {j : ℕ} (hj : j = before.length + 1 + t.length + 1) :
    dropKeyAndValueInternal (inBraces before [t]) before.length (before.length + 1) j
      = before := by
  have hlen : (inBraces before [t]).length = j := by
    rw [length_inBraces, offset_cons, offset_nil]
    omega
  have hbefore : inBraces before [t] = before ++ attributesOpen :: listed [t] := rfl
  rw [dropKeyAndValueInternal, if_pos hlen.symm, if_pos rfl, substr_split hbefore rfl]

theorem drop_text (ds : List Text) (t : Text) (us : List Text) {i j : ℕ}
    (hi : i = before.length + 1 + offset ds) (hj : j = i + t.length + 1) :
    dropKeyAndValueInternal (inBraces before (ds ++ t :: us)) before.length i j
      = braced before (ds ++ us) := by
  cases us with
  | cons v vs =>
    rw [drop_inner_text before ds t v vs hi hj, braced_of_ne before (by simp)]
  | nil =>
    rw [List.append_nil]
    by_cases hds : ds = []
    · subst hds
      obtain rfl : i = before.length + 1 := hi
      exact drop_only_text before t hj
    · rw [drop_last_text before hds t hi hj, braced_of_ne before hds]

/-- Over the text `t`. -/
theorem replace_text (ds : List Text) (t new : Text) (us : List Text) {i j : ℕ}
    (hi : i = before.length + 1 + offset ds) (hj : j = i + t.length + 1) :
    ∃ front back, substr (inBraces before (ds ++ t :: us)) 0 i = .ok front ∧
      substrFrom (inBraces before (ds ++ t :: us)) (sizeSub j 1) = .ok back ∧
      front ++ new ++ back = inBraces before (ds ++ new :: us) := by
  have hupTo := length_upTo before ds
  have hsplit := inBraces_append_cons before ds t us
  have hfrom : inBraces before (ds ++ t :: us) = (upTo before ds ++ t)
      ++ closer attributesSeparator attributesClose us :: listed us := by
    rw [hsplit]
    simp
  refine ⟨upTo before ds, closer attributesSeparator attributesClose us :: listed us, ?_, ?_, ?_⟩
  · exact substr_split hsplit (by omega)
  · rw [sizeSub_of_le (by omega)]
    exact substrFrom_split hfrom (by simp; omega)
  · rw [inBraces_append_cons]
    simp

theorem insert_text (ds : List Text) (t new : Text) (us : List Text) {i : ℕ}
    (hi : i = before.length + 1 + offset ds) :
    ∃ front back, substr (inBraces before (ds ++ t :: us)) 0 i = .ok front ∧
      substrFrom (inBraces before (ds ++ t :: us)) i = .ok back ∧
      front ++ new ++ attributesSeparator :: back = inBraces before (ds ++ new :: t :: us) := by
  have hupTo := length_upTo before ds
  have hsplit := inBraces_append_cons before ds t us
  refine ⟨upTo before ds, listed (t :: us), ?_, ?_, ?_⟩
  · exact substr_split hsplit (by omega)
  · exact substrFrom_split hsplit (by omega)
  · rw [inBraces_append_cons]
    simp

/-- After the texts `ds`, which are not the whole list when a text without value follows. -/
theorem append_text {ds : List Text} (h : ds ≠ []) (new : Text) (us : List Text) {i : ℕ}
    (hi : i = before.length + 1 + offset ds) :
    ∃ front back, substr (inBraces before (ds ++ us)) 0 (sizeSub i 1) = .ok front ∧
      substrFrom (inBraces before (ds ++ us)) (sizeSub i 1) = .ok back ∧
      front ++ attributesSeparator :: new ++ back = inBraces before (ds ++ new :: us) := by
  have hupTo := length_upTo before ds
  obtain ⟨b, hb, hjoin⟩ := inBraces_append_of_ne before h
  have hlenb : b.length + 1 = i := by
    rw [hb, List.length_append, List.length_singleton] at hupTo
    omega
  refine ⟨b, closer attributesSeparator attributesClose us :: listed us, ?_, ?_, ?_⟩
  · rw [sizeSub_of_le (by omega)]
    exact substr_split (hjoin us) (by omega)
  · rw [sizeSub_of_le (by omega)]
    exact substrFrom_split (hjoin us) (by omega)
  · rw [hjoin]
    simp

end Edit

section Loops

variable (before : Text) {rest : Option Text} (hrest : ∀ t ∈ rest, attributeValue ∉ t)
include hrest

/-- The scan never meets a symbol it could leave: it stops at the rest or at the end. -/
theorem getAttributeLoop_eq (key : Text) (done as : List Attribute) (fuel : ℕ)
    (hfuel : as.length < fuel) :
    getAttributeLoop key (inBraces before (texts (done ++ as) rest)) fuel (position before done)
      = .ok (valueAt key as) := by
  induction as generalizing done fuel with
  | nil =>
    obtain ⟨fuel, rfl⟩ : ∃ n, fuel = n + 1 := ⟨fuel - 1, by omega⟩
    have hstop := scan_stops before rest hrest done
    rw [List.append_nil, getAttributeLoop]
    simp only [hstop]
    split <;> rfl
  | cons a as ih =>
    obtain ⟨fuel, rfl⟩ : ∃ n, fuel = n + 1 := ⟨fuel - 1, by omega⟩
    have hscan := scanned_attribute before rest done a as
    rw [getAttributeLoop, if_pos hscan.inside]
    simp only [hscan.key, hscan.next]
    by_cases hkey : key = a.key
    · rw [if_pos hkey, hscan.value]
      simp [valueAt, lookup_cons, hkey]
    · have hrec := ih (done ++ [a]) fuel (by simpa using hfuel)
      rw [List.append_assoc, List.singleton_append, position_concat] at hrec
      rw [if_neg hkey, hrec]
      simp [valueAt, lookup_cons, Ne.symm hkey]

theorem removeAttributeLoop_eq (key : Text) (done as : List Attribute) (fuel : ℕ)
    (hfuel : as.length < fuel) (hne : texts (done ++ as) rest ≠ []) :
    removeAttributeLoop key before.length fuel (inBraces before (texts (done ++ as) rest))
      (position before done)
        = .ok (braced before (texts (done ++ without Attribute.key key as) rest)) := by
  induction as generalizing done fuel with
  | nil =>
    obtain ⟨fuel, rfl⟩ : ∃ n, fuel = n + 1 := ⟨fuel - 1, by omega⟩
    have hstop := scan_stops before rest hrest done
    rw [List.append_nil] at hne ⊢
    simp only [removeAttributeLoop, hstop, without, List.filter_nil, List.append_nil,
      braced_of_ne before hne, ite_self]
  | cons a as ih =>
    obtain ⟨fuel, rfl⟩ : ∃ n, fuel = n + 1 := ⟨fuel - 1, by omega⟩
    have hfuel' : as.length < fuel := by simpa using hfuel
    have hscan := scanned_attribute before rest done a as
    rw [removeAttributeLoop, if_pos hscan.inside]
    simp only [hscan.key, hscan.next]
    by_cases hkey : key = a.key
    · have hwithout : without Attribute.key key (a :: as) = without Attribute.key key as :=
        without_cons_eq hkey.symm as
      have hdrop := drop_text before (done.map Attribute.text) a.text (texts as rest)
        (rfl : position before done = _) rfl
      rw [texts_append, texts_cons, if_pos hkey, hdrop, hwithout, ← texts_append]
      by_cases hempty : texts (done ++ as) rest = []
      · -- the braces went with the last attribute, and the scan stands behind the symbol
        have hdone : done = [] ∧ as = [] ∧ rest = none := by simpa [texts] using hempty
        obtain ⟨rfl, rfl, rfl⟩ := hdone
        obtain ⟨fuel, rfl⟩ : ∃ n, fuel = n + 1 := ⟨fuel - 1, by omega⟩
        have hbehind : ¬ position before [] < before.length := by simp [position]
        simp [texts, braced, removeAttributeLoop, hbehind, without]
      · rw [braced_of_ne before hempty]
        exact ih done fuel hfuel' hempty
    · have hwithout : without Attribute.key key (a :: as) = a :: without Attribute.key key as :=
        without_cons_ne (Ne.symm hkey) as
      have hrec := ih (done ++ [a]) fuel hfuel' (by simpa using hne)
      rw [position_concat] at hrec
      simp only [List.append_assoc, List.singleton_append] at hrec
      rw [if_neg hkey, hrec, hwithout]

/-- Once the key is written the scan drops every attribute that repeats it. -/
theorem addAttributeLoop_added (new : Attribute) (done as : List Attribute) (fuel : ℕ)
    (hfuel : as.length < fuel) (hne : done ≠ []) :
    addAttributeLoop new.key new.value before.length fuel
      (inBraces before (texts (done ++ as) rest)) (position before done) true
      = .ok (inBraces before (texts (done ++ without Attribute.key new.key as) rest),
          position before (done ++ without Attribute.key new.key as), true) := by
  induction as generalizing done fuel with
  | nil =>
    obtain ⟨fuel, rfl⟩ : ∃ n, fuel = n + 1 := ⟨fuel - 1, by omega⟩
    have hstop := scan_stops before rest hrest done
    simp only [List.append_nil, addAttributeLoop, hstop, without, List.filter_nil, ite_self]
  | cons a as ih =>
    obtain ⟨fuel, rfl⟩ : ∃ n, fuel = n + 1 := ⟨fuel - 1, by omega⟩
    have hfuel' : as.length < fuel := by simpa using hfuel
    have hscan := scanned_attribute before rest done a as
    rw [addAttributeLoop, if_pos hscan.inside]
    simp only [hscan.key, hscan.next]
    by_cases hkey : a.key = new.key
    · have hwithout : without Attribute.key new.key (a :: as) = without Attribute.key new.key as :=
        without_cons_eq hkey as
      have hdrop := drop_text before (done.map Attribute.text) a.text (texts as rest)
        (rfl : position before done = _) rfl
      have hkept : texts (done ++ as) rest ≠ [] := by simp [texts, hne]
      rw [if_pos hkey, if_pos trivial, texts_append, texts_cons, hdrop, hwithout, ← texts_append,
        braced_of_ne before hkept]
      exact ih done fuel hfuel' hne
    · have hwithout : without Attribute.key new.key (a :: as)
          = a :: without Attribute.key new.key as :=
        without_cons_ne hkey as
      have hrec := ih (done ++ [a]) fuel hfuel' (by simp)
      rw [position_concat] at hrec
      simp only [List.append_assoc, List.singleton_append] at hrec
      rw [if_neg hkey, if_neg (by simp), hrec, hwithout]

theorem addAttributeLoop_eq (new : Attribute) (done as : List Attribute) (fuel : ℕ)
    (hfuel : as.length + 1 < fuel) (hne : done ++ as ≠ []) :
    addAttributeLoop new.key new.value before.length fuel
        (inBraces before (texts (done ++ as) rest)) (position before done) false
        >>= addAttributeEnd new.key new.value
      = .ok (inBraces before (texts (done ++ write Attribute.key new as) rest)) := by
  induction as generalizing done fuel with
  | nil =>
    obtain ⟨fuel, rfl⟩ : ∃ n, fuel = n + 1 := ⟨fuel - 1, by omega⟩
    have hstop := scan_stops before rest hrest done
    have hdone : done.map Attribute.text ≠ [] := by simpa using hne
    obtain ⟨front, back, hfront, hback, hnew⟩ := append_text before hdone new.text rest.toList
      (rfl : position before done = _)
    rw [Attribute.text, List.append_assoc] at hnew
    simp only [List.append_nil, addAttributeLoop, hstop, ite_self, ok_bind, addAttributeEnd]
    simp only [texts, hfront, hback, ok_bind, hnew, write, List.map_append, List.map_cons,
      List.map_nil, List.append_assoc, List.singleton_append, Attribute.text]
    rfl
  | cons a as ih =>
    obtain ⟨fuel, rfl⟩ : ∃ n, fuel = n + 1 := ⟨fuel - 1, by omega⟩
    have hfuel' : as.length + 1 < fuel := by simpa using hfuel
    have hscan := scanned_attribute before rest done a as
    have hbehind : position before done + (new.key.length + new.value.length + 2)
        = position before (done ++ [new]) := by
      rw [position_concat]
      simp [Attribute.text, keyAndValue]
      omega
    rw [addAttributeLoop, if_pos hscan.inside]
    simp only [hscan.key, hscan.next]
    by_cases hkey : a.key = new.key
    · obtain ⟨front, back, hfront, hback, hnew⟩ := replace_text before (done.map Attribute.text)
        a.text new.text (texts as rest) (rfl : position before done = _) rfl
      rw [← texts_cons, ← texts_append] at hfront hback
      rw [← texts_cons, ← texts_append, Attribute.text, ← List.singleton_append (l := as),
        ← List.append_assoc] at hnew
      have hloop :=
        addAttributeLoop_added before hrest new (done ++ [new]) as fuel (by omega) (by simp)
      rw [if_pos hkey, if_neg (by decide), hfront, ok_bind, hback, ok_bind, hnew, hbehind, hloop,
        ok_bind, addAttributeEnd, write, if_pos hkey, List.append_assoc, List.singleton_append]
    · by_cases hless : new.key < a.key
      · obtain ⟨front, back, hfront, hback, hnew⟩ := insert_text before (done.map Attribute.text)
          a.text new.text (texts as rest) (rfl : position before done = _)
        rw [← texts_cons, ← texts_append] at hfront hback
        rw [← texts_cons, ← texts_cons, ← texts_append, Attribute.text,
          ← List.singleton_append (l := a :: as), ← List.append_assoc] at hnew
        have hloop := addAttributeLoop_added before hrest new (done ++ [new]) (a :: as) fuel
          (by simpa using hfuel') (by simp)
        rw [if_neg hkey, if_pos ⟨hless, trivial⟩, hfront, ok_bind, hback, ok_bind, hnew, hbehind,
          hloop, ok_bind, addAttributeEnd, write, if_neg hkey, if_pos hless, List.append_assoc,
          List.singleton_append]
      · have hrec := ih (done ++ [a]) fuel hfuel' (by simp)
        rw [position_concat] at hrec
        simp only [List.append_assoc, List.singleton_append] at hrec
        rw [if_neg hkey, if_neg (fun h => hless h.1), hrec, write, if_neg hkey, if_neg hless]

end Loops

section Symbols

/-- The text in the last braces of a symbol, cut into attributes and a rest. -/
structure Listed (attributes : List Attribute) (rest : Option Text) : Prop where
  rest_free : ∀ t ∈ rest, attributeValue ∉ t
  open_free : attributesOpen ∉ listed (texts attributes rest)
  ne_nil : texts attributes rest ≠ []
  ne_empty : texts attributes rest ≠ [[]]

theorem listed_eq_append {ts : List Text} (h : ts ≠ []) (hempty : ts ≠ [[]]) :
    ∃ b, listed ts = b ++ [attributesClose] ∧ b ≠ [] := by
  obtain ⟨b, hsep, hjoin⟩ := joined_append_of_ne attributesSeparator attributesClose h
  refine ⟨b, by simpa using hjoin [], ?_⟩
  intro hb
  cases ts with
  | nil => exact h rfl
  | cons t ts =>
    rw [hb, separated_cons] at hsep
    cases t with
    | nil =>
      cases ts with
      | nil => exact hempty rfl
      | cons u us =>
        have hlen := congrArg List.length hsep
        simp at hlen
    | cons c cs =>
      have hlen := congrArg List.length hsep
      simp at hlen

theorem length_without_listed (before : Text) {ts : List Text} (h : ts ≠ []) (hempty : ts ≠ [[]])
    (hopen : attributesOpen ∉ listed ts) :
    getLengthWithoutAttributesInternal (inBraces before ts) = before.length := by
  obtain ⟨b, hb, hne⟩ := listed_eq_append h hempty
  have hpos : 0 < b.length := List.length_pos_iff.mpr hne
  have hopenb : attributesOpen ∉ b := by
    intro hmem
    apply hopen
    rw [hb]
    exact List.mem_append_left _ hmem
  have hsplit : inBraces before ts = (before ++ attributesOpen :: b) ++ [attributesClose] := by
    rw [inBraces, hb]
    simp
  have hlen : (inBraces before ts).length = before.length + b.length + 2 := by
    rw [hsplit]
    simp
    omega
  have hlast : charAt (inBraces before ts) ((inBraces before ts).length - 1) = attributesClose :=
    charAt_split hsplit (by rw [hlen]; simp; omega)
  have hinner : findLastOf attributesOpen (inBraces before ts) ((inBraces before ts).length - 2)
      = some before.length := by
    apply findLastOf_of_take (w := b) _ hopenb
    have hsize : (before ++ attributesOpen :: b).length = (inBraces before ts).length - 2 + 1 := by
      rw [hlen]
      simp
      omega
    rw [← hsize, hsplit]
    exact List.take_left
  have houter : findLastOf attributesOpen (inBraces before ts) (inBraces before ts).length
      = some before.length := by
    apply findLastOf_of_take (w := listed ts) _ hopen
    rw [List.take_of_length_le (Nat.le_succ _)]
  have hhas : hasAttributesInternal (inBraces before ts) = true := by
    rw [hasAttributesInternal, if_pos ⟨by omega, hlast⟩, hinner, hlen]
    simpa using hpos
  rw [getLengthWithoutAttributesInternal, if_pos hhas, houter]
  rfl

theorem length_without_open {symbol : Text}
    (h : attributesOpen ∉ symbol.take (symbol.length - 1)) :
    getLengthWithoutAttributesInternal symbol = symbol.length := by
  have hhas : ¬ hasAttributesInternal symbol = true := by
    rw [hasAttributesInternal]
    split
    next hlong =>
      have hsub : symbol.length - 2 + 1 = symbol.length - 1 := by omega
      rw [findLastOf_none (by rw [hsub]; exact h)]
      simp
    next => simp
  rw [getLengthWithoutAttributesInternal, if_neg hhas]

section Bare

variable {symbol : Text} (h : getLengthWithoutAttributesInternal symbol = symbol.length)
include h

theorem getAttributeStringByKey_bare (key : Text) :
    getAttributeStringByKey symbol key = .ok none := by
  rw [getAttributeStringByKey, h, getAttributeInternal, if_pos rfl]
  rfl

theorem changeAttributeStringByKey_bare (new : Attribute) :
    changeAttributeStringByKey symbol new.key new.value = .ok (inBraces symbol [new.text]) := by
  simp only [changeAttributeStringByKey, h, ↓reduceIte, noexcept_ok]
  simp [Attribute.text]

end Bare

variable (before : Text) {attributes : List Attribute} {rest : Option Text}

theorem Listed.length_without (h : Listed attributes rest) :
    getLengthWithoutAttributesInternal (inBraces before (texts attributes rest)) = before.length :=
  length_without_listed before h.ne_nil h.ne_empty h.open_free

theorem length_ne_inBraces (ts : List Text) : before.length ≠ (inBraces before ts).length := by
  rw [length_inBraces]
  omega

theorem length_lt_inBraces (attributes : List Attribute) (rest : Option Text) :
    attributes.length < (inBraces before (texts attributes rest)).length := by
  have hle := length_le_offset (texts attributes rest)
  rw [length_inBraces]
  simp [texts] at hle ⊢
  omega

theorem Listed.getAttributeStringByKey (h : Listed attributes rest) (key : Text) :
    getAttributeStringByKey (inBraces before (texts attributes rest)) key
      = .ok (valueAt key attributes) := by
  have hlt := length_lt_inBraces before attributes rest
  have hloop := getAttributeLoop_eq before h.rest_free key [] attributes
    ((inBraces before (texts attributes rest)).length + 1) (by omega)
  rw [MarketEventSymbols.getAttributeStringByKey, h.length_without, getAttributeInternal,
    if_neg (length_ne_inBraces before _)]
  exact congrArg noexcept hloop

theorem Listed.removeAttributeStringByKey (h : Listed attributes rest) (key : Text) :
    removeAttributeStringByKey (inBraces before (texts attributes rest)) key
      = .ok (braced before (texts (without Attribute.key key attributes) rest)) := by
  have hlt := length_lt_inBraces before attributes rest
  have hloop := removeAttributeLoop_eq before h.rest_free key [] attributes
    ((inBraces before (texts attributes rest)).length + 1) (by omega) h.ne_nil
  rw [MarketEventSymbols.removeAttributeStringByKey, h.length_without, removeAttributeInternal,
    if_neg (length_ne_inBraces before _)]
  exact congrArg (noexcept ∘ noexcept) hloop

theorem Listed.changeAttributeStringByKey (h : Listed attributes rest) (hne : attributes ≠ [])
    (new : Attribute) :
    changeAttributeStringByKey (inBraces before (texts attributes rest)) new.key new.value
      = .ok (inBraces before (texts (write Attribute.key new attributes) rest)) := by
  have hlt := length_lt_inBraces before attributes rest
  have hloop := addAttributeLoop_eq before h.rest_free new [] attributes
    ((inBraces before (texts attributes rest)).length + 2) (by omega) hne
  simp only [MarketEventSymbols.changeAttributeStringByKey, h.length_without,
    if_neg (length_ne_inBraces before _), addAttributeInternal]
  exact congrArg noexcept hloop

end Symbols

end SymbolAttributes
