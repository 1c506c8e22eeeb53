import DxFeedGraal.CandleNormalisation
import DxFeedGraal.DecimalNumerals

/-! # Texts of candle periods

A period is printed and read back, and a period is read from any numeral that stands
before any spelling of a type. The value ends where the type begins. -/
namespace CandlePeriodTexts

open CppStrings CppNumbers DoubleValues Numerals DecimalNumerals CandleAttributes CandlePrinting
open CandleNormalisation

section Spellings

/-- The same letters, whatever their case. -/
def CaseVariant (s text : Text) : Prop := s.map tolower = text.map tolower

instance (s text : Text) : Decidable (CaseVariant s text) :=
  inferInstanceAs (Decidable (s.map tolower = text.map tolower))

def plural (t : CandleType) : Text := t.name ++ ['s']

/-- The abbreviation, or the full or plural name in any letter case. -/
def Spells (t : CandleType) (s : Text) : Prop :=
  s = t.toText ∨ CaseVariant s t.name ∨ CaseVariant s (plural t)

/-- The plural is told by a small letter at its end. -/
def CapitalPlural (t : CandleType) (s : Text) : Prop :=
  CaseVariant s (plural t) ∧ s.getLast? ≠ some 's'

theorem CaseVariant.length_eq {s text : Text} (h : CaseVariant s text) :
    s.length = text.length := by
  simpa using congrArg List.length h

theorem CaseVariant.iEquals_take {s text : Text} (h : CaseVariant s text) (name : Text) :
    iEquals (name.take s.length) s = iEquals (name.take text.length) text := by
  rw [iEquals, iEquals, h.length_eq, h]

theorem CaseVariant.iEquals_dropLast {s text : Text} (h : CaseVariant s text) (name : Text) :
    iEquals name s.dropLast = iEquals name text.dropLast := by
  have hdrop : s.dropLast.map tolower = text.dropLast.map tolower := by
    rw [List.map_dropLast, List.map_dropLast, h]
  rw [iEquals, iEquals, hdrop]

/-- How the second search compares a name with a text, the end of the text apart. -/
def agrees (text : Text) (small : Bool) (v : CandleType) : Bool :=
  (decide (text.length ≤ v.name.length) && iEquals (v.name.take text.length) text)
    || (small && iEquals v.name text.dropLast)

theorem no_abbreviation {s : Text} (h : 2 < s.length) :
    CandleType.values.find? (fun v => v.toText = s) = none := by
  have hshort : ∀ v : CandleType, v.toText.length ≤ 2 := by
    intro v
    cases v <;> decide
  rw [List.find?_eq_none]
  intro v _
  rw [decide_eq_true_eq]
  rintro rfl
  have := hshort v
  omega

/-- A long text is looked up by its letters and by whether a small one ends it. -/
theorem parse_variant {s text : Text} (h : CaseVariant s text) (hlong : 2 < text.length) :
    CandleType.parse s =
      match CandleType.values.find? (agrees text (s.getLast? == some 's')) with
      | some v => .ok v
      | none => .error (.invalidArgument ("Unknown candle type: ".toList ++ s)) := by
  have hlen := h.length_eq
  have hne : s ≠ [] := by
    rintro rfl
    rw [← hlen] at hlong
    exact absurd hlong (by decide)
  have hsearch : (fun v : CandleType =>
      (decide (s.length ≤ v.name.length) && iEquals (v.name.take s.length) s)
        || (s.getLast? == some 's' && iEquals v.name s.dropLast))
      = agrees text (s.getLast? == some 's') := by
    funext v
    rw [agrees, h.iEquals_take, h.iEquals_dropLast, hlen]
  rw [CandleType.parse, if_neg hne, no_abbreviation (by omega)]
  exact hsearch ▸ rfl

theorem name_long (t : CandleType) : 2 < t.name.length := by
  cases t <;> decide

/-- No name continues or shortens another type's name that stands before it. -/
theorem find_name (t : CandleType) (small : Bool) :
    CandleType.values.find? (agrees t.name small) = some t := by
  cases small <;> cases t <;> decide

theorem find_plural (t : CandleType) (small : Bool) :
    CandleType.values.find? (agrees (plural t) small) = if small then some t else none := by
  cases small <;> cases t <;> decide

theorem parse_name {s : Text} {t : CandleType} (h : CaseVariant s t.name) :
    CandleType.parse s = .ok t := by
  rw [parse_variant h (name_long t), find_name]

theorem parse_plural {s : Text} {t : CandleType} (h : CaseVariant s (plural t)) :
    CandleType.parse s = .ok t ↔ s.getLast? = some 's' := by
  have hlong : 2 < (plural t).length := by
    have := name_long t
    rw [plural, List.length_append]
    omega
  rw [parse_variant h hlong, find_plural]
  by_cases hsmall : s.getLast? = some 's'
  · simp [hsmall]
  · have hend : (s.getLast? == some 's') = false := beq_eq_false_iff_ne.mpr hsmall
    simp [hend, hsmall]

/-- Names are not plurals and abbreviations are neither. -/
theorem CapitalPlural.not_other {t : CandleType} {s : Text} (h : CapitalPlural t s) :
    s ≠ t.toText ∧ ¬ CaseVariant s t.name := by
  have hlen := h.1.length_eq
  rw [plural, List.length_append, List.length_singleton] at hlen
  constructor
  · rintro rfl
    have hlong := name_long t
    have hshort : t.toText.length ≤ 2 := by
      cases t <;> decide
    omega
  · intro hname
    have := hname.length_eq
    omega

theorem parse_spelling {t : CandleType} {s : Text} (h : Spells t s) :
    CandleType.parse s = .ok t ↔ ¬ CapitalPlural t s := by
  rcases h with rfl | hname | hplural
  · exact iff_of_true (type_comes_back t) fun hcapital => hcapital.not_other.1 rfl
  · exact iff_of_true (parse_name hname) fun hcapital => hcapital.not_other.2 hname
  · rw [parse_plural hplural, CapitalPlural]
    simp [hplural]

/-- The letters that types begin with are not characters of numbers. -/
theorem head_spelling {t : CandleType} {s : Text} (h : Spells t s) :
    ∃ c rest, s = c :: rest ∧ tolower c ∈ "tsmhdwoyvp".toList := by
  have hheads : ∀ text : Text, text = t.toText ∨ text = t.name ∨ text = plural t →
      ∃ c rest, text = c :: rest ∧ tolower c ∈ "tsmhdwoyvp".toList := by
    rintro text (rfl | rfl | rfl) <;> cases t <;> exact ⟨_, _, rfl, by decide⟩
  have hvariant : ∀ text : Text, text = t.name ∨ text = plural t → CaseVariant s text →
      ∃ c rest, s = c :: rest ∧ tolower c ∈ "tsmhdwoyvp".toList := by
    intro text htext hsame
    obtain ⟨c, rest, rfl, hc⟩ := hheads text (Or.inr htext)
    cases s with
    | nil => cases hsame
    | cons d s =>
      have hhead : tolower d = tolower c := (List.cons.inj hsame).1
      exact ⟨d, s, rfl, hhead ▸ hc⟩
  rcases h with rfl | hname | hplural
  · exact hheads _ (Or.inl rfl)
  · exact hvariant _ (Or.inl rfl) hname
  · exact hvariant _ (Or.inr rfl) hplural

end Spellings

section Numerals

variable (lib : StandardLibrary)

/-- Both readers take an unsigned numeral for its number. -/
theorem toDouble_unsigned {c : Char} {s : Text} {q : ℚ} {d : Double}
    (hc : isDigit 10 c = true ∨ c = '.') (hx : ∀ e ∈ s.head?, tolower e ≠ 'x')
    (hread : readDigits decimal (c :: s) = some q) :
    toDouble lib (c :: s) = .ok d ↔
      lib.outOfRange q = false ∧ .finite (lib.doubles.nearest q) = d := by
  have hplain : isSpace c = false ∧ (c == '-') = false ∧ (c == '+') = false ∧
      tolower c ≠ 'i' ∧ tolower c ≠ 'n' := by
    rcases hc with hdigit | rfl
    · exact forall_digit (P := fun c => isSpace c = false ∧ (c == '-') = false ∧
        (c == '+') = false ∧ tolower c ≠ 'i' ∧ tolower c ≠ 'n') (by decide) hdigit
    · decide
  obtain ⟨hspace, hminus, hplus, hletter⟩ := hplain
  have hnumber := fun hexadecimals => (readNumber_plain hletter hx hexadecimals).trans
    (congrArg _ hread)
  have hsign : withSign false (.finite (lib.doubles.nearest q))
      = .finite (lib.doubles.nearest q) := by
    rw [withSign]
    split
    next hzero => simp [hzero]
    next => rfl
  rw [toDouble]
  cases lib.viewsByStod with
  | true => cases h : lib.outOfRange q <;>
      simp [stod, hspace, hminus, hplus, hnumber, isOutOfRange, Reading.rounded, hsign, h]
  | false => cases h : lib.outOfRange q <;>
      simp [fromChars, hminus, hnumber, isOutOfRange, Reading.rounded, hsign, h]

theorem isValueChar_text (n : DecimalNumeral) :
    ∀ c ∈ n.text, CandlePeriod.isValueChar c = true := by
  intro c hc
  rcases chars n c hc with hdigit | hmark
  · exact forall_digit (P := fun c => CandlePeriod.isValueChar c = true) (by decide) hdigit
  · have hmarks : ∀ m ∈ numeralMarks, CandlePeriod.isValueChar m = true :=
      List.all_iff_forall_prop.mp (by decide)
    exact hmarks c hmark

/-- A spelling begins with a letter that numbers do not have. -/
theorem spelling_ends_value {t : CandleType} {s : Text} (hs : Spells t s) :
    ∃ a rest, s = a :: rest ∧ CandlePeriod.isValueChar a = false ∧ tolower a ≠ 'x' := by
  obtain ⟨a, rest, hsplit, ha⟩ := head_spelling hs
  have hletters : ∀ b ∈ "tsmhdwoyvp".toList, b ∉ "0123456789.-+e".toList ∧ b ≠ 'x' :=
    List.all_iff_forall_prop.mp (by decide)
  refine ⟨a, rest, hsplit, ?_, (hletters _ ha).2⟩
  by_contra hvalue
  exact (hletters _ ha).1 (tolower_valueChar (Bool.eq_true_of_not_eq_false hvalue))

section Ends

variable {a : Char} (rest : Text) (hnot : CandlePeriod.isValueChar a = false)

include hnot in
theorem endsNumeral_of_not_valueChar : EndsNumeral (a :: rest) := by
  intro b hb
  obtain rfl : a = b := by simpa using hb
  refine ⟨?_, ?_, ?_⟩
  · by_contra hdigit
    have hvalue := forall_digit (P := fun c => CandlePeriod.isValueChar c = true) (by decide)
      (Bool.eq_true_of_not_eq_false hdigit)
    rw [hnot] at hvalue
    cases hvalue
  · rintro rfl
    exact absurd hnot (by decide)
  · intro hmark
    have hmarks : ∀ m ∈ decimal.exponentMarks, CandlePeriod.isValueChar m = true :=
      List.all_iff_forall_prop.mp (by decide)
    rw [hmarks a hmark] at hnot
    cases hnot

include hnot in
theorem cut_numeral (n : DecimalNumeral) :
    (n.text ++ a :: rest).takeWhile CandlePeriod.isValueChar = n.text ∧
      (n.text ++ a :: rest).dropWhile CandlePeriod.isValueChar = a :: rest := by
  have hall := isValueChar_text n
  rw [List.takeWhile_append_of_pos hall, List.dropWhile_append_of_pos hall,
    List.takeWhile_cons_of_neg (by simp [hnot]), List.dropWhile_cons_of_neg (by simp [hnot])]
  exact ⟨List.append_nil _, rfl⟩

include hnot in
/-- Reading the whole text stops where the value ends. -/
theorem toDouble_numeral (n : DecimalNumeral) (ha : tolower a ≠ 'x') (d : Double) :
    toDouble lib (n.text ++ a :: rest) = .ok d ↔
      lib.outOfRange n.value = false ∧ .finite (lib.doubles.nearest n.value) = d := by
  obtain ⟨c, body, htext, hc⟩ := starts n
  have hends : EndsNumeral (a :: rest) := endsNumeral_of_not_valueChar rest hnot
  have hread := readDigits_text n hends
  have hx : ∀ e ∈ (body ++ a :: rest).head?, tolower e ≠ 'x' := by
    intro e he
    cases body with
    | nil =>
      obtain rfl : a = e := by simpa using he
      exact ha
    | cons b body =>
      obtain rfl : b = e := by simpa using he
      have hlower := tolower_valueChar (isValueChar_text n b (by simp [htext]))
      intro hxb
      rw [hxb] at hlower
      exact absurd hlower (by decide)
  rw [htext, List.cons_append] at hread ⊢
  exact toDouble_unsigned lib hc hx hread

end Ends

/-- The value ends where the type begins. -/
theorem period_parse_numeral (n : DecimalNumeral) {t : CandleType} {s : Text} (hs : Spells t s)
    (p : CandlePeriod) : CandlePeriod.parse lib (n.text ++ s) = .ok p ↔
      lib.outOfRange n.value = false ∧ ∃ u, CandleType.parse s = .ok u ∧
        CandlePeriod.valueOf (.finite (lib.doubles.nearest n.value)) u = p := by
  obtain ⟨a, rest, rfl, hnot, ha⟩ := spelling_ends_value hs
  obtain ⟨htake, hdrop⟩ := cut_numeral rest hnot n
  obtain ⟨c, body, htext, -⟩ := starts n
  rw [period_parse_value lib (by rw [htake, htext]; exact List.cons_ne_nil c body)]
  simp only [hdrop, toDouble_numeral lib rest hnot n ha, period_valueOf_eq]
  constructor
  · rintro ⟨d, u, ⟨hrange, rfl⟩, hu, hp⟩
    exact ⟨hrange, u, hu, hp⟩
  · rintro ⟨hrange, u, hu, hp⟩
    exact ⟨_, u, ⟨hrange, rfl⟩, hu, hp⟩

end Numerals

section Printing

variable (lib : StandardLibrary)

def AtMostSixDecimals (v : ℚ) : Prop := ∃ k : ℕ, v = k / 1000000

/-- Normal numbers are in range. -/
def CoversNormal : Prop :=
  ∀ q : ℚ, 1 / 2 ^ 1022 ≤ q → q < 2 ^ 1023 → lib.outOfRange q = false

/-- A period is printed and parsed without a loss when its value is a double that has no more
decimals than are printed. -/
theorem period_comes_back (hlib : CoversNormal lib) {v : ℚ} (hpos : 0 < v) (hbound : v < 2 ^ 53)
    (hsix : AtMostSixDecimals v) (hkeeps : lib.doubles.Keeps v) (t : CandleType) :
    CandlePeriod.parse lib (CandlePeriod.valueOf (.finite v) t).toText
      = .ok (CandlePeriod.valueOf (.finite v) t) := by
  obtain ⟨k, rfl⟩ := hsix
  have hk : 0 < k := by
    rcases Nat.eq_zero_or_pos k with rfl | hk
    · simp at hpos
    · exact hk
  rw [period_valueOf_eq]
  by_cases hone : equals (.finite ((k : ℚ) / 1000000)) (.finite 1) = true
  · have hvalue : (k : ℚ) / 1000000 = 1 := by
      have hcast : ((1 : ℤ) : ℚ) = 1 := Int.cast_one
      have hnat : ((k : ℤ) : ℚ) = k := Int.cast_natCast k
      rw [← hcast, ← hnat] at hone ⊢
      exact integer_of_close hone
    rw [hvalue] at hone ⊢
    have htext : CandlePeriod.toText ⟨.finite 1, t⟩ = t.toText := if_pos hone
    rw [htext, period_parse_type]
  · rw [period_toText (Bool.eq_false_of_not_eq_true hone)]
    apply (period_parse_number lib rfl t _).mpr
    have hprinted := printedNumber_sixDecimals k
    rw [Int.cast_natCast] at hprinted
    rw [reread, hprinted, rounded_of_keeps hkeeps]
    refine ⟨?_, rfl⟩
    have hleast : (1 : ℚ) / 2 ^ 1022 ≤ (k : ℚ) / 1000000 := by
      have hmillionth : (1 : ℚ) / 1000000 ≤ (k : ℚ) / 1000000 := by
        have : (1 : ℚ) ≤ k := by exact_mod_cast hk
        gcongr
      have hnormal : (1 : ℚ) / 2 ^ 1022 ≤ 1 / 2 ^ 20 :=
        one_div_le_one_div_of_le (by norm_num) (pow_le_pow_right₀ (by norm_num) (by norm_num))
      have hsmall : (1 : ℚ) / 2 ^ 20 ≤ 1 / 1000000 := by norm_num
      exact (hnormal.trans hsmall).trans hmillionth
    have hlargest : (k : ℚ) / 1000000 < 2 ^ 1023 :=
      hbound.trans_le (pow_le_pow_right₀ (by norm_num) (by norm_num))
    have habs : |(k : ℚ) / 1000000| = (k : ℚ) / 1000000 := abs_of_pos hpos
    have hrange := hlib _ hleast hlargest
    rw [refuses, finiteValue, Option.any_some, habs]
    exact hrange

theorem period_parse_spelled (n : DecimalNumeral) {t : CandleType} {s : Text} (hs : Spells t s) :
    CandlePeriod.parse lib (n.text ++ s)
        = .ok (CandlePeriod.valueOf (.finite (lib.doubles.nearest n.value)) t) ↔
      lib.outOfRange n.value = false ∧ ¬ CapitalPlural t s := by
  rw [period_parse_numeral lib n hs, ← parse_spelling hs]
  apply and_congr_right
  intro _
  constructor
  · rintro ⟨u, hu, hp⟩
    rw [period_valueOf_eq, period_valueOf_eq] at hp
    rwa [← (CandlePeriod.mk.inj hp).2]
  · intro ht
    exact ⟨t, ht, rfl⟩

/-- With doubles taken as exact numbers printed periods are parsed as they were, and a numeral
before a spelling of a type is parsed as that number of that type exactly when the number is in
range and the spelling is no plural with a capital letter at its end. -/
theorem period_texts_iff (hlib : CoversNormal lib) (hexact : lib.doubles = Doubles.exact) :
    (∀ (v : ℚ) (t : CandleType), 0 < v → v < 2 ^ 53 → AtMostSixDecimals v →
      CandlePeriod.parse lib (CandlePeriod.valueOf (.finite v) t).toText
        = .ok (CandlePeriod.valueOf (.finite v) t)) ∧
    ∀ (n : DecimalNumeral) (t : CandleType) (s : Text), Spells t s →
      (CandlePeriod.parse lib (n.text ++ s) = .ok (CandlePeriod.valueOf (.finite n.value) t) ↔
        lib.outOfRange n.value = false ∧ ¬ CapitalPlural t s) := by
  have hnearest : ∀ q, lib.doubles.nearest q = q := by
    intro q
    rw [hexact]
    rfl
  refine ⟨fun v t hpos hbound hsix => period_comes_back lib hlib hpos hbound hsix (hnearest v) t,
    fun n t s hs => ?_⟩
  have hspelled := period_parse_spelled lib n hs
  rwa [hnearest] at hspelled

theorem exactNumbers_covers : CoversNormal exactNumbers := by
  intro q hlow hhigh
  have hdouble : (2 : ℚ) ^ 1024 = 2 ^ 1023 + 2 ^ 1023 := by
    rw [pow_succ, mul_two]
  have hhalf : (2 : ℚ) ^ 970 ≤ 2 ^ 1023 := pow_le_pow_right₀ (by norm_num) (by norm_num)
  have hlargest : ¬ (2 : ℚ) ^ 1024 - 2 ^ 970 ≤ q := by
    rw [hdouble, not_le]
    generalize (2 : ℚ) ^ 1023 = a at hhigh hhalf ⊢
    generalize (2 : ℚ) ^ 970 = b at hhalf ⊢
    linarith
  have hleast : ¬ q < 1 / 2 ^ 1022 := not_lt.mpr hlow
  simp only [exactNumbers, binary64, Bool.or_eq_false_iff, Bool.and_eq_false_iff, decide_eq_false_iff_not]
  exact ⟨hlargest, Or.inr hleast⟩

/-- `25e-1` is five halves. -/
def fiveHalves : DecimalNumeral where
  whole := ['2', '5']
  fraction := none
  exponent := some ⟨'e', ['-'], ['1'], by decide, by decide, by decide,
    List.forall_mem_singleton.mpr rfl⟩
  digits_ne := by decide
  all_digits := List.all_iff_forall_prop.mp (by decide)

theorem period_texts_half :
    CandlePeriod.parse exactNumbers (CandlePeriod.valueOf (.finite (1 / 2)) .month).toText
        = .ok (CandlePeriod.valueOf (.finite (1 / 2)) .month) ∧
      CandlePeriod.parse exactNumbers (fiveHalves.text ++ "mOnThs".toList)
        = .ok (CandlePeriod.valueOf (.finite fiveHalves.value) .month) := by
  obtain ⟨hprinted, hspelled⟩ := period_texts_iff exactNumbers exactNumbers_covers rfl
  have hsix : AtMostSixDecimals (1 / 2) := ⟨500000, by norm_num⟩
  have hsmall : ¬ CapitalPlural .month "mOnThs".toList := fun h => h.2 (by decide)
  refine ⟨hprinted (1 / 2) .month (by norm_num) (by norm_num) hsix, ?_⟩
  exact (hspelled fiveHalves .month "mOnThs".toList (Or.inr (Or.inr (by decide)))).mpr
    ⟨by decide +kernel, hsmall⟩

theorem capital_plural_unknown :
    CaseVariant "MONTHS".toList (plural .month) ∧ ∀ lib ∈ [exactNumbers, binary64],
      CandlePeriod.parse lib "5MONTHS".toList
        = .error (.invalidArgument "Unknown candle type: MONTHS".toList) ∧
      CandlePeriod.parse lib "5MONTHs".toList
        = .ok (CandlePeriod.valueOf (.finite 5) .month) := by
  decide +kernel

end Printing

end CandlePeriodTexts
