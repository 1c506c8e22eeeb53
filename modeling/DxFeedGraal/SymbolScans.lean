import DxFeedGraal.MarketEventSymbols

/-! # Scans of any text

The scanning loops once more, now with every position and every difference of sizes checked
where it is used and nothing caught. On no text does a check fail, and the loops end. -/
namespace SymbolScans

open CppStrings MarketEventSymbols

namespace Checked

def find (c : Char) (s : Text) (pos : ℕ) : Cpp (Option ℕ) :=
  if pos ≤ s.length then .ok (findFirstOf c s pos) else .error .outOfRange

def findLast (c : Char) (s : Text) (pos : ℕ) : Cpp (Option ℕ) :=
  if pos < s.length then .ok (findLastOf c s pos) else .error .outOfRange

def character (s : Text) (i : ℕ) : Cpp Char :=
  if i < s.length then .ok (charAt s i) else .error .outOfRange

/-- A difference of sizes that must not wrap around. -/
def sub (a b : ℕ) : Cpp ℕ := if b ≤ a then .ok (a - b) else .error .outOfRange

def hasAttributes (symbol : Text) : Cpp Bool :=
  if 3 ≤ symbol.length then
    sub symbol.length 1 >>= fun lastPos =>
    character symbol lastPos >>= fun last =>
    if last = attributesClose then
      sub symbol.length 2 >>= fun pos =>
      findLast attributesOpen symbol pos >>= fun found =>
      .ok (match found with
        | some attributesOpenPos => decide (attributesOpenPos < pos)
        | none => false)
    else .ok false
  else .ok false

/-- The search is over the whole text, from its end. -/
def getLengthWithoutAttributes (symbol : Text) : Cpp ℕ :=
  hasAttributes symbol >>= fun has =>
  if has then .ok ((findLastOf attributesOpen symbol symbol.length).getD npos)
  else .ok symbol.length

def getKey (symbol : Text) (i : ℕ) : Cpp (Option Text) :=
  find attributeValue symbol i >>= fun found =>
  match found with
  | some p => sub p i >>= fun size => some <$> substr symbol i size
  | none => .ok none

def getNextKey (symbol : Text) (i : ℕ) : Cpp ℕ :=
  find attributeValue symbol i >>= fun found =>
  find attributesSeparator symbol (succPos found) >>= fun separatorPos =>
  match separatorPos with
  | none => .ok symbol.length
  | some p => .ok (p + 1)

def getValue (symbol : Text) (i j : ℕ) : Cpp Text :=
  find attributeValue symbol i >>= fun found =>
  sub j 1 >>= fun last =>
  sub last (succPos found) >>= fun size =>
  substr symbol (succPos found) size

def dropKeyAndValue (symbol : Text) (length i j : ℕ) : Cpp Text :=
  if j = symbol.length then
    if i = length + 1 then substr symbol 0 length
    else
      sub i 1 >>= fun front => sub j 1 >>= fun back =>
      substr symbol 0 front >>= fun before => (before ++ ·) <$> substrFrom symbol back
  else substr symbol 0 i >>= fun before => (before ++ ·) <$> substrFrom symbol j

def getLoop (key symbol : Text) : ℕ → ℕ → Cpp (Option Text)
  | 0, _ => .error .unfinished
  | fuel + 1, i =>
    if i < symbol.length then
      getKey symbol i >>= fun found =>
      match found with
      | none => .ok none
      | some currentKey =>
        getNextKey symbol i >>= fun j =>
        if key = currentKey then some <$> getValue symbol i j else getLoop key symbol fuel j
    else .ok none

def removeLoop (key : Text) (length : ℕ) : ℕ → Text → ℕ → Cpp Text
  | 0, _, _ => .error .unfinished
  | fuel + 1, symbol, i =>
    if i < symbol.length then
      getKey symbol i >>= fun found =>
      match found with
      | none => .ok symbol
      | some currentKey =>
        getNextKey symbol i >>= fun j =>
        if key = currentKey then
          dropKeyAndValue symbol length i j >>= fun dropped => removeLoop key length fuel dropped i
        else removeLoop key length fuel symbol j
    else .ok symbol

def addLoop (key value : Text) (length : ℕ) : ℕ → Text → ℕ → Bool → Cpp (Text × ℕ × Bool)
  | 0, _, _, _ => .error .unfinished
  | fuel + 1, symbol, i, added =>
    if i < symbol.length then
      getKey symbol i >>= fun found =>
      match found with
      | none => .ok (symbol, i, added)
      | some currentKey =>
        getNextKey symbol i >>= fun j =>
        if currentKey = key then
          if added then
            dropKeyAndValue symbol length i j >>= fun dropped =>
            addLoop key value length fuel dropped i added
          else
            sub j 1 >>= fun back =>
            substr symbol 0 i >>= fun before =>
            substrFrom symbol back >>= fun after =>
            addLoop key value length fuel (before ++ keyAndValue key value ++ after)
              (i + (key.length + value.length + 2)) true
        else if key < currentKey ∧ added = false then
          substr symbol 0 i >>= fun before =>
          substrFrom symbol i >>= fun after =>
          addLoop key value length fuel
            (before ++ keyAndValue key value ++ attributesSeparator :: after)
            (i + (key.length + value.length + 2)) true
        else addLoop key value length fuel symbol j added
    else .ok (symbol, i, added)

def addEnd (key value : Text) : Text × ℕ × Bool → Cpp Text
  | (symbol, _, true) => .ok symbol
  | (symbol, i, false) =>
    sub i 1 >>= fun pos =>
    substr symbol 0 pos >>= fun before =>
    substrFrom symbol pos >>= fun after =>
    .ok (before ++ attributesSeparator :: keyAndValue key value ++ after)

def getAttributeStringByKey (symbol key : Text) : Cpp (Option Text) :=
  getLengthWithoutAttributes symbol >>= fun length =>
  if length = symbol.length then .ok none
  else getLoop key symbol (symbol.length + 1) (length + 1)

def removeAttributeStringByKey (symbol key : Text) : Cpp Text :=
  getLengthWithoutAttributes symbol >>= fun length =>
  if length = symbol.length then .ok symbol
  else removeLoop key length (symbol.length + 1) symbol (length + 1)

def changeAttributeStringByKey (symbol key value : Text) : Cpp Text :=
  getLengthWithoutAttributes symbol >>= fun length =>
  if length = symbol.length then
    .ok (symbol ++ attributesOpen :: keyAndValue key value ++ [attributesClose])
  else
    addLoop key value length (symbol.length + 2) symbol (length + 1) false >>= addEnd key value

end Checked

/-! ## One attribute -/

section Positions

variable {c : Char} {s : Text} {pos p : ℕ}

theorem findFirstOf_bounds (h : findFirstOf c s pos = some p) :
    pos ≤ p ∧ p < s.length ∧ charAt s p = c := by
  obtain ⟨k, hk, rfl⟩ := Option.map_eq_some_iff.mp h
  obtain ⟨hlt, hat, -⟩ := List.idxOf?_eq_some_iff.mp hk
  rw [List.length_drop] at hlt
  have hinside : pos + k < s.length := by omega
  refine ⟨Nat.le_add_right pos k, hinside, ?_⟩
  rw [List.getElem_drop] at hat
  rw [charAt, List.getD_eq_getElem?_getD, List.getElem?_eq_getElem hinside, Option.getD_some, hat]

theorem findLastOf_bounds (h : findLastOf c s pos = some p) : p < s.length ∧ c ∈ s := by
  obtain ⟨u, w, hsplit, -, rfl⟩ := findLastOf_eq_some h
  have hlength := congrArg List.length hsplit
  rw [List.length_take, List.length_append, List.length_cons] at hlength
  refine ⟨by omega, List.mem_of_mem_take (i := pos + 1) ?_⟩
  rw [hsplit]
  exact List.mem_append_right u List.mem_cons_self

theorem find_ok (h : pos ≤ s.length) : Checked.find c s pos = .ok (findFirstOf c s pos) := if_pos h

theorem sub_ok {a b : ℕ} (h : b ≤ a) : Checked.sub a b = .ok (a - b) := if_pos h

theorem substr_ok (h : pos ≤ s.length) (count : ℕ) :
    substr s pos count = .ok ((s.drop pos).take count) := if_pos h

theorem substrFrom_ok (h : pos ≤ s.length) : substrFrom s pos = .ok (s.drop pos) := if_pos h

end Positions

section OneAttribute

variable {symbol : Text} {i : ℕ} {currentKey : Text}

theorem getKey_ok (h : i ≤ symbol.length) :
    Checked.getKey symbol i = .ok (getKeyInternal symbol i) := by
  rw [Checked.getKey, find_ok h, ok_bind, getKeyInternal]
  cases hfound : findFirstOf attributeValue symbol i with
  | none => rfl
  | some p =>
    have hp := (findFirstOf_bounds hfound).1
    simp only [sub_ok hp, ok_bind, sizeSub_of_le hp, substr_ok h]
    rfl

theorem exists_value (hk : getKeyInternal symbol i = some currentKey) :
    ∃ p, findFirstOf attributeValue symbol i = some p := by
  cases hfound : findFirstOf attributeValue symbol i with
  | none =>
    rw [getKeyInternal, hfound] at hk
    cases hk
  | some p => exact ⟨p, rfl⟩

/-- The next key starts further on, at most at the end. -/
theorem getNextKey_ok (h : i < symbol.length) (hk : getKeyInternal symbol i = some currentKey) :
    Checked.getNextKey symbol i = .ok (getNextKeyInternal symbol i) ∧
      i < getNextKeyInternal symbol i ∧ getNextKeyInternal symbol i ≤ symbol.length := by
  obtain ⟨p, hp⟩ := exists_value hk
  obtain ⟨hle, hlt, -⟩ := findFirstOf_bounds hp
  rw [Checked.getNextKey, find_ok h.le, ok_bind, getNextKeyInternal, hp, succPos_some,
    find_ok (by omega), ok_bind]
  cases hseparator : findFirstOf attributesSeparator symbol (p + 1) with
  | none => exact ⟨rfl, h, le_refl _⟩
  | some q =>
    obtain ⟨hle', hlt', -⟩ := findFirstOf_bounds hseparator
    refine ⟨rfl, ?_, ?_⟩
    · change i < q + 1
      omega
    · change q + 1 ≤ symbol.length
      omega

/-- The closing brace behind the last value keeps its length from wrapping around. -/
theorem getValue_ok (h : i < symbol.length) (hk : getKeyInternal symbol i = some currentKey)
    (hclose : charAt symbol (symbol.length - 1) = attributesClose) :
    ∃ value, Checked.getValue symbol i (getNextKeyInternal symbol i) = .ok value ∧
      getValueInternal symbol i (getNextKeyInternal symbol i) = .ok value := by
  obtain ⟨p, hp⟩ := exists_value hk
  obtain ⟨hle, hlt, hat⟩ := findFirstOf_bounds hp
  have hinner : p + 1 ≤ getNextKeyInternal symbol i - 1 := by
    rw [getNextKeyInternal, hp, succPos_some]
    cases hseparator : findFirstOf attributesSeparator symbol (p + 1) with
    | none =>
      have hne : p ≠ symbol.length - 1 := by
        rintro rfl
        rw [hclose] at hat
        exact absurd hat (by decide)
      change p + 1 ≤ symbol.length - 1
      omega
    | some q =>
      have hq := (findFirstOf_bounds hseparator).1
      change p + 1 ≤ q + 1 - 1
      omega
  have hone : 1 ≤ getNextKeyInternal symbol i := by omega
  refine ⟨(symbol.drop (p + 1)).take (getNextKeyInternal symbol i - 1 - (p + 1)), ?_, ?_⟩
  · rw [Checked.getValue, find_ok h.le, ok_bind, sub_ok hone, ok_bind, hp, succPos_some,
      sub_ok hinner, ok_bind, substr_ok (by omega)]
  · simp only [getValueInternal, hp, succPos_some]
    rw [sizeSub_of_le hone, sizeSub_of_le hinner, substr_ok (by omega)]

/-- What is left is shorter by the attribute, or has lost its braces. -/
theorem dropKeyAndValue_ok {length j : ℕ} (hi : length + 1 ≤ i) (hij : i < j)
    (hj : j ≤ symbol.length) :
    Checked.dropKeyAndValue symbol length i j = .ok (dropKeyAndValueInternal symbol length i j) ∧
      (dropKeyAndValueInternal symbol length i j).length ≤ i + (symbol.length - j) := by
  rw [Checked.dropKeyAndValue, dropKeyAndValueInternal]
  by_cases hlast : j = symbol.length
  · rw [if_pos hlast, if_pos hlast]
    by_cases honly : i = length + 1
    · rw [if_pos honly, if_pos honly, substr_ok (Nat.zero_le _)]
      refine ⟨rfl, ?_⟩
      simp
      omega
    · rw [if_neg honly, if_neg honly, sub_ok (by omega), ok_bind, sub_ok (by omega), ok_bind,
        substr_ok (Nat.zero_le _), ok_bind, substrFrom_ok (by omega), sizeSub_of_le (by omega),
        sizeSub_of_le (by omega), substr_ok (Nat.zero_le _), ok_bind, substrFrom_ok (by omega),
        ok_bind]
      refine ⟨rfl, ?_⟩
      change (symbol.take (i - 1) ++ symbol.drop (j - 1)).length ≤ _
      rw [List.length_append, List.length_take, List.length_drop]
      omega
  · rw [if_neg hlast, if_neg hlast, substr_ok (Nat.zero_le _), ok_bind, substrFrom_ok hj, ok_bind,
      ok_bind]
    refine ⟨rfl, ?_⟩
    change (symbol.take i ++ symbol.drop j).length ≤ _
    rw [List.length_append, List.length_take, List.length_drop]
    omega

end OneAttribute

/-! ## The loops -/

section Loops

variable {key value : Text} {length : ℕ}

theorem getLoop_ok {symbol : Text} (hclose : charAt symbol (symbol.length - 1) = attributesClose)
    {fuel i : ℕ} (hi : i ≤ symbol.length) (hfuel : symbol.length - i < fuel) :
    ∃ found, Checked.getLoop key symbol fuel i = .ok found ∧
      getAttributeLoop key symbol fuel i = .ok found := by
  induction fuel generalizing i with
  | zero => exact absurd hfuel (Nat.not_lt_zero _)
  | succ fuel ih =>
    rw [Checked.getLoop, getAttributeLoop]
    by_cases hinside : i < symbol.length
    · rw [if_pos hinside, if_pos hinside, getKey_ok hi, ok_bind]
      cases hk : getKeyInternal symbol i with
      | none => exact ⟨none, rfl, rfl⟩
      | some currentKey =>
        obtain ⟨hnext, hlt, hle⟩ := getNextKey_ok hinside hk
        simp only [hnext, ok_bind]
        by_cases hkey : key = currentKey
        · obtain ⟨found, hchecked, hfound⟩ := getValue_ok hinside hk hclose
          rw [if_pos hkey, if_pos hkey, hchecked, hfound]
          exact ⟨some found, rfl, rfl⟩
        · rw [if_neg hkey, if_neg hkey]
          exact ih hle (by omega)
    · rw [if_neg hinside, if_neg hinside]
      exact ⟨none, rfl, rfl⟩

/-- The text may become shorter than the position, which ends the loop. -/
theorem removeLoop_ok {symbol : Text} {fuel i : ℕ} (hi : length + 1 ≤ i)
    (hfuel : symbol.length - i < fuel) :
    ∃ t, Checked.removeLoop key length fuel symbol i = .ok t ∧
      removeAttributeLoop key length fuel symbol i = .ok t := by
  induction fuel generalizing symbol i with
  | zero => exact absurd hfuel (Nat.not_lt_zero _)
  | succ fuel ih =>
    rw [Checked.removeLoop, removeAttributeLoop]
    by_cases hinside : i < symbol.length
    · rw [if_pos hinside, if_pos hinside, getKey_ok hinside.le, ok_bind]
      cases hk : getKeyInternal symbol i with
      | none => exact ⟨symbol, rfl, rfl⟩
      | some currentKey =>
        obtain ⟨hnext, hlt, hle⟩ := getNextKey_ok hinside hk
        simp only [hnext, ok_bind]
        by_cases hkey : key = currentKey
        · obtain ⟨hdrop, hshorter⟩ := dropKeyAndValue_ok hi hlt hle
          rw [if_pos hkey, if_pos hkey, hdrop, ok_bind]
          exact ih hi (by omega)
        · rw [if_neg hkey, if_neg hkey]
          exact ih (by omega) (by omega)
    · rw [if_neg hinside, if_neg hinside]
      exact ⟨symbol, rfl, rfl⟩

/-- The room left behind the position shrinks, but for the one insertion. -/
theorem addLoop_ok {symbol : Text} {fuel i : ℕ} {added : Bool} (hi : length + 1 ≤ i)
    (hend : added = false → i ≤ symbol.length)
    (hfuel : symbol.length - i + (if added then 0 else 1) < fuel) :
    ∃ t, Checked.addLoop key value length fuel symbol i added = .ok t ∧
      addAttributeLoop key value length fuel symbol i added = .ok t ∧
      (t.2.2 = false → 1 ≤ t.2.1 ∧ t.2.1 ≤ t.1.length) := by
  induction fuel generalizing symbol i added with
  | zero => exact absurd hfuel (Nat.not_lt_zero _)
  | succ fuel ih =>
    have hone : 1 ≤ i := le_trans (Nat.le_add_left 1 length) hi
    rw [Checked.addLoop, addAttributeLoop]
    by_cases hinside : i < symbol.length
    · rw [if_pos hinside, if_pos hinside, getKey_ok hinside.le, ok_bind]
      cases hk : getKeyInternal symbol i with
      | none => exact ⟨(symbol, i, added), rfl, rfl, fun _ => ⟨hone, hinside.le⟩⟩
      | some currentKey =>
        obtain ⟨hnext, hlt, hle⟩ := getNextKey_ok hinside hk
        simp only [hnext, ok_bind]
        by_cases hkey : currentKey = key
        · rw [if_pos hkey, if_pos hkey]
          cases added with
          | true =>
            obtain ⟨hdrop, hshorter⟩ := dropKeyAndValue_ok hi hlt hle
            rw [if_pos rfl, if_pos rfl, hdrop, ok_bind]
            simp only [if_true] at hfuel
            exact ih hi (fun h => absurd h (by decide)) (by simp only [if_true]; omega)
          | false =>
            have hnextOne : 1 ≤ getNextKeyInternal symbol i := by omega
            have hback : getNextKeyInternal symbol i - 1 ≤ symbol.length := by omega
            simp only [Bool.false_eq_true, if_false, sub_ok hnextOne, ok_bind,
              substr_ok (Nat.zero_le symbol.length), substrFrom_ok hback, sizeSub_of_le hnextOne]
            simp only [Bool.false_eq_true, if_false] at hfuel
            apply ih (by omega) (fun h => absurd h (by decide))
            simp [keyAndValue]
            omega
        · rw [if_neg hkey, if_neg hkey]
          by_cases hbefore : key < currentKey ∧ added = false
          · rw [if_pos hbefore, if_pos hbefore]
            simp only [ok_bind, substr_ok (Nat.zero_le symbol.length), substrFrom_ok hinside.le]
            simp only [hbefore.2, Bool.false_eq_true, if_false] at hfuel
            apply ih (by omega) (fun h => absurd h (by decide))
            simp [keyAndValue]
            omega
          · rw [if_neg hbefore, if_neg hbefore]
            exact ih (by omega) (fun _ => hle) (by omega)
    · rw [if_neg hinside, if_neg hinside]
      exact ⟨(symbol, i, added), rfl, rfl, fun h => ⟨hone, hend h⟩⟩

theorem addEnd_ok {t : Text × ℕ × Bool} (h : t.2.2 = false → 1 ≤ t.2.1 ∧ t.2.1 ≤ t.1.length) :
    ∃ result, Checked.addEnd key value t = .ok result ∧
      addAttributeEnd key value t = .ok result := by
  obtain ⟨symbol, i, added⟩ := t
  cases added with
  | true => exact ⟨symbol, rfl, rfl⟩
  | false =>
    obtain ⟨hone, hend⟩ := h rfl
    have hpos : i - 1 ≤ symbol.length := le_trans (Nat.sub_le i 1) hend
    simp only [Checked.addEnd, addAttributeEnd, sub_ok hone, sizeSub_of_le hone, ok_bind,
      substr_ok (Nat.zero_le symbol.length), substrFrom_ok hpos]
    exact ⟨_, rfl, rfl⟩

end Loops

/-! ## Every text -/

theorem hasAttributes_ok (symbol : Text) :
    Checked.hasAttributes symbol = .ok (hasAttributesInternal symbol) := by
  rw [Checked.hasAttributes, hasAttributesInternal]
  by_cases hlength : 3 ≤ symbol.length
  · have hlast : Checked.character symbol (symbol.length - 1) =
        .ok (charAt symbol (symbol.length - 1)) := if_pos (by omega)
    have hfind : Checked.findLast attributesOpen symbol (symbol.length - 2) =
        .ok (findLastOf attributesOpen symbol (symbol.length - 2)) := if_pos (by omega)
    rw [if_pos hlength, sub_ok (by omega), ok_bind, hlast, ok_bind]
    by_cases hclose : charAt symbol (symbol.length - 1) = attributesClose
    · rw [if_pos hclose, if_pos ⟨hlength, hclose⟩, sub_ok (by omega), ok_bind, hfind]
      cases findLastOf attributesOpen symbol (symbol.length - 2) <;> rfl
    · rw [if_neg hclose, if_neg fun h => hclose h.2]
  · rw [if_neg hlength, if_neg fun h => hlength h.1]

theorem getLengthWithoutAttributes_ok (symbol : Text) :
    Checked.getLengthWithoutAttributes symbol =
      .ok (getLengthWithoutAttributesInternal symbol) := by
  rw [Checked.getLengthWithoutAttributes, hasAttributes_ok, ok_bind,
    getLengthWithoutAttributesInternal]
  split <;> rfl

/-- Attributes begin inside the text, which then ends in a closing brace. -/
theorem length_without_spec {symbol : Text}
    (h : getLengthWithoutAttributesInternal symbol ≠ symbol.length) :
    getLengthWithoutAttributesInternal symbol + 1 ≤ symbol.length ∧
      charAt symbol (symbol.length - 1) = attributesClose := by
  rw [getLengthWithoutAttributesInternal] at h ⊢
  split at h
  next hhas =>
    rw [if_pos hhas]
    unfold hasAttributesInternal at hhas
    split at hhas
    next hclosed =>
      refine ⟨?_, hclosed.2⟩
      have hopen : attributesOpen ∈ symbol := by
        cases hinner : findLastOf attributesOpen symbol (symbol.length - 2) with
        | none =>
          rw [hinner] at hhas
          cases hhas
        | some p => exact (findLastOf_bounds hinner).2
      cases houter : findLastOf attributesOpen symbol symbol.length with
      | none =>
        obtain ⟨u, w, hsplit, hw⟩ := List.eq_append_cons_of_mem (List.mem_reverse.mpr hopen)
        have htake :
            symbol.take (symbol.length + 1) = w.reverse ++ attributesOpen :: u.reverse := by
          rw [List.take_of_length_le (Nat.le_succ _), ← List.reverse_reverse symbol, hsplit]
          simp
        rw [findLastOf_of_take htake (by simpa using hw)] at houter
        cases houter
      | some p => exact (findLastOf_bounds houter).1
    next => cases hhas
  next => exact absurd rfl h

/-- On every text the scans end, no position passed on is out of range and no size wraps
around, so that nothing leaves the operations that must not throw. -/
theorem scans_safe (symbol key value : Text) :
    (∃ found, Checked.getAttributeStringByKey symbol key = .ok found ∧
        getAttributeStringByKey symbol key = .ok found) ∧
      (∃ t, Checked.removeAttributeStringByKey symbol key = .ok t ∧
        removeAttributeStringByKey symbol key = .ok t) ∧
      ∃ t, Checked.changeAttributeStringByKey symbol key value = .ok t ∧
        changeAttributeStringByKey symbol key value = .ok t := by
  have hlength := getLengthWithoutAttributes_ok symbol
  by_cases hbare : getLengthWithoutAttributesInternal symbol = symbol.length
  · simp only [Checked.getAttributeStringByKey, Checked.removeAttributeStringByKey,
      Checked.changeAttributeStringByKey, getAttributeStringByKey, removeAttributeStringByKey,
      changeAttributeStringByKey, getAttributeInternal, removeAttributeInternal, hlength, ok_bind,
      if_pos hbare, noexcept_ok]
    exact ⟨⟨_, rfl, rfl⟩, ⟨_, rfl, rfl⟩, ⟨_, rfl, rfl⟩⟩
  · obtain ⟨hinside, hclose⟩ := length_without_spec hbare
    refine ⟨?_, ?_, ?_⟩
    · obtain ⟨found, hchecked, hloop⟩ := @getLoop_ok key symbol hclose (symbol.length + 1)
        (getLengthWithoutAttributesInternal symbol + 1) hinside (by omega)
      refine ⟨found, ?_, ?_⟩
      · rw [Checked.getAttributeStringByKey, hlength, ok_bind, if_neg hbare, hchecked]
      · rw [getAttributeStringByKey, getAttributeInternal, if_neg hbare, hloop]
        rfl
    · obtain ⟨t, hchecked, hloop⟩ := @removeLoop_ok key
        (getLengthWithoutAttributesInternal symbol) symbol (symbol.length + 1)
        (getLengthWithoutAttributesInternal symbol + 1) (le_refl _) (by omega)
      refine ⟨t, ?_, ?_⟩
      · rw [Checked.removeAttributeStringByKey, hlength, ok_bind, if_neg hbare, hchecked]
      · rw [removeAttributeStringByKey, removeAttributeInternal, if_neg hbare, hloop]
        rfl
    · obtain ⟨t, hchecked, hloop, hend⟩ := @addLoop_ok key value
        (getLengthWithoutAttributesInternal symbol) symbol (symbol.length + 2)
        (getLengthWithoutAttributesInternal symbol + 1) false (le_refl _) (fun _ => hinside)
        (by simp only [Bool.false_eq_true, if_false]; omega)
      obtain ⟨result, hcheckedEnd, hresult⟩ := @addEnd_ok key value t hend
      refine ⟨result, ?_, ?_⟩
      · rw [Checked.changeAttributeStringByKey, hlength, ok_bind, if_neg hbare, hchecked, ok_bind,
          hcheckedEnd]
      · simp only [changeAttributeStringByKey, if_neg hbare, addAttributeInternal, hloop, ok_bind,
          hresult, noexcept_ok]

end SymbolScans
