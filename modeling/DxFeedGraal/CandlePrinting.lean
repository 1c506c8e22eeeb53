import DxFeedGraal.CandleAttributes
import DxFeedGraal.NormalisingPasses

/-! # Printed attributes of candle symbols

Printing and parsing a value are compared kind by kind. Values of an enumeration come back;
numbers come back as the printed digits say. -/
namespace CandlePrinting

open CppStrings CppNumbers Numerals DoubleValues MarketEventSymbols SymbolAttributes GroupedSymbols
open CandleAttributes NormalisingPasses

def reprint {α : Type} (kind : AttributeKind α) (v : Text) : Cpp (Option Text) :=
  (kind.parse v).map fun x => if kind.equals x kind.default then none else some (kind.toText x)

/-- Keys and printed values have none of the characters that attributes are read by. -/
structure Printable {α : Type} (kind : AttributeKind α) : Prop where
  key_free : attributeValue ∉ kind.attributeKey
  key_open : attributesOpen ∉ kind.attributeKey
  text_clean : ∀ x, attributesSeparator ∉ kind.toText x ∧ attributesOpen ∉ kind.toText x

section Kinds

variable {α : Type} {kind : AttributeKind α}

theorem reprint_eq_none {v : Text} :
    reprint kind v = .ok none ↔ ∃ x, kind.parse v = .ok x ∧ kind.equals x kind.default = true := by
  rw [reprint]
  cases kind.parse v with
  | error e => simp [Except.map]
  | ok x => simp [Except.map]

theorem reprint_eq_some {v t : Text} : reprint kind v = .ok (some t) ↔
    ∃ x, kind.parse v = .ok x ∧ kind.equals x kind.default = false ∧ kind.toText x = t := by
  rw [reprint]
  cases kind.parse v with
  | error e => simp [Except.map]
  | ok x => simp [Except.map]

def pass (h : Printable kind) : Pass where
  key := kind.attributeKey
  reprint := reprint kind
  key_free := h.key_free
  key_open := h.key_open
  clean := by
    intro v t hv
    obtain ⟨x, -, -, rfl⟩ := reprint_eq_some.mp hv
    exact h.text_clean x

theorem pass_accepts (h : Printable kind) {v : Text} :
    (pass h).Accepts v ↔ ∃ x, kind.parse v = .ok x := by
  change (∃ r, reprint kind v = .ok r) ↔ _
  rw [reprint]
  cases kind.parse v with
  | error e => simp [Except.map]
  | ok x => simp [Except.map]

theorem getAttributeStringByKey_total (symbol key : Text) :
    ∃ r, getAttributeStringByKey symbol key = .ok r := by
  obtain ⟨⟨bare, groups, hbare⟩, rfl⟩ := every_text_grouped symbol
  cases groups with
  | nil => exact ⟨none, getAttributeStringByKey_bare hbare key⟩
  | cons g gs => exact ⟨_, g.isListed.getAttributeStringByKey (textOf bare gs) key⟩

/-- The code that reads, compares and prints is the pass. -/
theorem normalizeAttributeForSymbol_eq (h : Printable kind) (symbol : Text) :
    kind.normalizeAttributeForSymbol symbol = (pass h).apply symbol := by
  obtain ⟨⟨bare, groups, hbare⟩, rfl⟩ := every_text_grouped symbol
  change kind.normalizeAttributeForSymbol (textOf bare groups) = (pass h).apply (textOf bare groups)
  cases groups with
  | nil =>
    have hget := getAttributeStringByKey_bare hbare kind.attributeKey
    rw [AttributeKind.normalizeAttributeForSymbol, Pass.apply]
    change (getAttributeStringByKey bare kind.attributeKey >>= _)
      = (getAttributeStringByKey bare kind.attributeKey >>= _)
    rw [hget]
    rfl
  | cons g gs =>
    have hget := g.isListed.getAttributeStringByKey (textOf bare gs) kind.attributeKey
    have hremove := g.isListed.removeAttributeStringByKey (textOf bare gs) kind.attributeKey
    rw [AttributeKind.normalizeAttributeForSymbol, Pass.apply]
    change (getAttributeStringByKey (textOf bare (g :: gs)) kind.attributeKey >>= _)
      = (getAttributeStringByKey (textOf bare (g :: gs)) kind.attributeKey >>= _)
    rw [textOf, hget, ok_bind, ok_bind]
    cases hv : valueAt kind.attributeKey g.attributes with
    | none => rfl
    | some v =>
      cases hparse : kind.parse v with
      | error e =>
        have hreprint : (pass h).reprint v = .error e := by
          change reprint kind v = _
          rw [reprint, hparse]
          rfl
        cases e <;> simp [Pass.outcome, hreprint, hparse]
      | ok x =>
        by_cases hdefault : kind.equals x kind.default = true
        · have hreprint : (pass h).reprint v = .ok none := reprint_eq_none.mpr ⟨x, hparse, hdefault⟩
          have hkey : (pass h).key = kind.attributeKey := rfl
          simp [Pass.outcome, hreprint, hparse, hdefault, hremove, hkey]
        · have hreprint : (pass h).reprint v = .ok (some (kind.toText x)) :=
            reprint_eq_some.mpr ⟨x, hparse, Bool.eq_false_of_not_eq_true hdefault, rfl⟩
          have hattributes : g.attributes ≠ [] := by
            intro hnil
            rw [hnil] at hv
            cases hv
          have hchange := g.isListed.changeAttributeStringByKey (textOf bare gs) hattributes
            ⟨kind.attributeKey, kind.toText x, h.key_free, (h.text_clean x).1⟩
          have hkey : (pass h).key = kind.attributeKey := rfl
          by_cases hsame : v = kind.toText x
          · simp [Pass.outcome, hreprint, hparse, hdefault, ← hsame]
            rfl
          · simp [Pass.outcome, hreprint, hparse, hdefault, hsame, hchange, hkey]

/-- A getter returns when it reads no text, or a text that is parsed. -/
theorem getAttributeForSymbol_defined (h : Printable kind) (symbol : Text) :
    (∃ x, kind.getAttributeForSymbol symbol = .ok x) ↔
      ∀ v, getAttributeStringByKey symbol (pass h).key = .ok (some v) → (pass h).Accepts v := by
  change _ ↔ ∀ v, getAttributeStringByKey symbol kind.attributeKey = .ok (some v) → _
  obtain ⟨r, hr⟩ := getAttributeStringByKey_total symbol kind.attributeKey
  rw [AttributeKind.getAttributeForSymbol, hr, ok_bind]
  cases r with
  | none => exact iff_of_true ⟨kind.default, rfl⟩ (by simp)
  | some v => simp [pass_accepts]

end Kinds

section Enumerations

variable {α : Type} {kind : AttributeKind α}

/-- Every printed value is parsed as itself. -/
def ComesBack (kind : AttributeKind α) : Prop := ∀ x, kind.parse (kind.toText x) = .ok x

theorem ComesBack.reprint_again (h : ComesBack kind) {v t : Text}
    (hv : reprint kind v = .ok (some t)) :
    reprint kind t = .ok (some t) := by
  obtain ⟨x, -, hdefault, rfl⟩ := reprint_eq_some.mp hv
  exact reprint_eq_some.mpr ⟨x, h x, hdefault, rfl⟩

theorem ComesBack.reprintable_iff (h : ComesBack kind) {v : Text} :
    (reprint kind v = .ok none ∨ ∃ t, reprint kind v = .ok (some t) ∧ ∃ x, kind.parse t = .ok x) ↔
      ∃ x, kind.parse v = .ok x := by
  constructor
  · rintro (hnone | ⟨t, hsome, -⟩)
    · obtain ⟨x, hparse, -⟩ := reprint_eq_none.mp hnone
      exact ⟨x, hparse⟩
    · obtain ⟨x, hparse, -, -⟩ := reprint_eq_some.mp hsome
      exact ⟨x, hparse⟩
  · rintro ⟨x, hparse⟩
    by_cases hdefault : kind.equals x kind.default = true
    · exact Or.inl (reprint_eq_none.mpr ⟨x, hparse, hdefault⟩)
    · have hkept := Bool.eq_false_of_not_eq_true hdefault
      exact Or.inr ⟨kind.toText x, reprint_eq_some.mpr ⟨x, hparse, hkept, rfl⟩, x, h x⟩

theorem printable_price : Printable CandlePrice.kind where
  key_free := by decide
  key_open := by decide
  text_clean x := by cases x <;> decide

theorem printable_session : Printable CandleSession.kind where
  key_free := by decide
  key_open := by decide
  text_clean x := by cases x <;> decide

theorem printable_alignment : Printable CandleAlignment.kind where
  key_free := by decide
  key_open := by decide
  text_clean x := by cases x <;> decide

theorem price_comes_back : ComesBack CandlePrice.kind := by
  intro x
  cases x <;> rfl

theorem session_comes_back : ComesBack CandleSession.kind := by
  intro x
  cases x <;> rfl

theorem alignment_comes_back : ComesBack CandleAlignment.kind := by
  intro x
  cases x <;> rfl

theorem type_comes_back (t : CandleType) : CandleType.parse t.toText = .ok t := by
  cases t <;> rfl

end Enumerations

section Numbers

variable (lib : StandardLibrary)

theorem follows_type (t : CandleType) : Follows t.toText where
  ends := by
    intro c hc
    cases t <;> cases hc <;> decide
  free := by
    have hall : t.toText.all (fun c => tolower c != 'x') = true := by
      cases t <;> decide
    intro c hc
    simpa using List.all_eq_true.mp hall c hc

theorem follows_nil : Follows [] where
  ends := by
    intro c hc
    cases hc
  free := by simp

/-- A printed number has no character that a type could begin with. -/
theorem isValueChar_numberText {d : Double} {q : ℚ} (h : finiteValue d = some q) :
    ∀ c ∈ numberText d, CandlePeriod.isValueChar c = true := by
  obtain ⟨negative, body, magnitude, htext, hbody, -⟩ := numberText_signed h
  intro c hc
  rw [htext] at hc
  rcases List.mem_append.mp hc with hsign | hdigits
  · cases negative with
    | false => cases hsign
    | true =>
      obtain rfl : c = '-' := by simpa [signText] using hsign
      decide
  · rcases hbody.chars c hdigits with hdigit | rfl
    · exact forall_digit (P := fun c => CandlePeriod.isValueChar c = true) (by decide) hdigit
    · decide

/-- Infinity and not-a-number are printed in letters. -/
theorem notMem_numberText {c : Char} (hvalue : CandlePeriod.isValueChar c = false)
    (hletter : c ∉ "-infa".toList) (d : Double) : c ∉ numberText d := by
  cases hd : finiteValue d with
  | some q =>
    intro hmem
    rw [isValueChar_numberText hd c hmem] at hvalue
    cases hvalue
  | none =>
    have hletters : numberText d ⊆ "-infa".toList := by
      cases d with
      | nan => exact List.all_iff_forall_prop.mp (by decide +kernel)
      | posInf => exact List.all_iff_forall_prop.mp (by decide +kernel)
      | negInf => exact List.all_iff_forall_prop.mp (by decide +kernel)
      | negZero => cases hd
      | finite q => cases hd
    exact fun hmem => hletter (hletters hmem)

theorem numberText_clean (d : Double) :
    attributesSeparator ∉ numberText d ∧ attributesOpen ∉ numberText d :=
  ⟨notMem_numberText (by decide) (by decide) d, notMem_numberText (by decide) (by decide) d⟩

theorem numberText_ne_nil {d : Double} {q : ℚ} (h : finiteValue d = some q) :
    numberText d ≠ [] := by
  obtain ⟨negative, body, magnitude, htext, hbody, -⟩ := numberText_signed h
  obtain ⟨c, s, rfl, -⟩ := hbody.starts
  rw [htext]
  simp

theorem takeWhile_type (t : CandleType) : t.toText.takeWhile CandlePeriod.isValueChar = [] ∧
    t.toText.dropWhile CandlePeriod.isValueChar = t.toText := by
  cases t <;> decide

theorem takeWhile_numberText {d : Double} {q : ℚ} (h : finiteValue d = some q) (t : CandleType) :
    (numberText d ++ t.toText).takeWhile CandlePeriod.isValueChar = numberText d ∧
      (numberText d ++ t.toText).dropWhile CandlePeriod.isValueChar = t.toText := by
  have htype := takeWhile_type t
  have hall := isValueChar_numberText h
  rw [List.takeWhile_append_of_pos hall, List.dropWhile_append_of_pos hall, htype.1, htype.2]
  exact ⟨List.append_nil _, rfl⟩

theorem period_valueOf_eq (value : Double) (type : CandleType) :
    CandlePeriod.valueOf value type = ⟨value, type⟩ := by
  have hone : value.eq (.finite 1) = true → value = .finite 1 := by
    cases value with
    | posInf =>
      have hne : Double.posInf.position ≠ (Double.finite 1).position :=
        fun heq => WithTop.top_ne_coe (WithBot.coe_injective heq)
      simp [Double.eq, hne]
    | _ => simp [Double.eq, Double.isNaN, Double.position]
  rw [CandlePeriod.valueOf]
  split
  next h => rw [hone h.1, h.2]; rfl
  next =>
    split
    next h => rw [hone h.1, h.2]; rfl
    next => rfl

/-- Without a value the whole text is the type, also where it is looked up first. -/
theorem period_parse_no_value {v : Text} (hnone : v.takeWhile CandlePeriod.isValueChar = [])
    (p : CandlePeriod) : CandlePeriod.parse lib v = .ok p ↔
      ∃ type, CandleType.parse (v.dropWhile CandlePeriod.isValueChar) = .ok type ∧
        ⟨.finite 1, type⟩ = p := by
  rw [CandlePeriod.parse]
  split
  next hday =>
    rw [hday, (takeWhile_type .day).2, type_comes_back]
    simp only [Except.ok.injEq, exists_eq_left']
    rfl
  next =>
    split
    next htick =>
      rw [htick, (takeWhile_type .tick).2, type_comes_back]
      simp only [Except.ok.injEq, exists_eq_left']
      rfl
    next =>
      simp only [if_pos hnone, ok_bind, bind_eq_ok, period_valueOf_eq]
      constructor
      · rintro ⟨type, htype, hp⟩
        exact ⟨type, htype, Except.ok.inj hp⟩
      · rintro ⟨type, htype, rfl⟩
        exact ⟨type, htype, rfl⟩

theorem period_parse_type (t : CandleType) :
    CandlePeriod.parse lib t.toText = .ok ⟨.finite 1, t⟩ := by
  obtain ⟨htake, hdrop⟩ := takeWhile_type t
  refine (period_parse_no_value lib htake _).mpr ⟨t, ?_, rfl⟩
  rw [hdrop]
  exact type_comes_back t

/-- A text with a value is read in two parts. -/
theorem period_parse_value {v : Text} (hne : v.takeWhile CandlePeriod.isValueChar ≠ [])
    (p : CandlePeriod) : CandlePeriod.parse lib v = .ok p ↔
      ∃ value type, toDouble lib v = .ok value ∧
        CandleType.parse (v.dropWhile CandlePeriod.isValueChar) = .ok type ∧
          ⟨value, type⟩ = p := by
  have hshort : ∀ t : CandleType, v ≠ t.toText := by
    rintro t rfl
    exact hne (takeWhile_type t).1
  rw [CandlePeriod.parse, if_neg (hshort .day), if_neg (hshort .tick)]
  simp only [if_neg hne, bind_eq_ok, period_valueOf_eq]
  constructor
  · rintro ⟨value, hvalue, type, htype, hp⟩
    exact ⟨value, type, hvalue, htype, Except.ok.inj hp⟩
  · rintro ⟨value, type, hvalue, htype, rfl⟩
    exact ⟨value, hvalue, type, htype, rfl⟩

theorem period_parse_number {d : Double} {q : ℚ} (h : finiteValue d = some q) (t : CandleType)
    (p : CandlePeriod) : CandlePeriod.parse lib (numberText d ++ t.toText) = .ok p ↔
      refuses lib (printedNumber d) = false ∧ ⟨reread lib d, t⟩ = p := by
  obtain ⟨htake, hdrop⟩ := takeWhile_numberText h t
  obtain ⟨negative, body, magnitude, htext, hbody, hreread⟩ := numberText_signed h
  have hread := fun x => toDouble_signed lib hbody (follows_type t) negative (d := x)
  rw [← htext, ← rounded_withSign hbody.nonneg, hreread,
    ← refuses_withSign lib hbody.nonneg negative, hreread] at hread
  rw [period_parse_value lib (by rw [htake]; exact numberText_ne_nil h)]
  simp only [hdrop, type_comes_back, hread, Except.ok.injEq]
  constructor
  · rintro ⟨x, type, ⟨hrange, rfl⟩, rfl, hp⟩
    exact ⟨hrange, hp⟩
  · rintro ⟨hrange, hp⟩
    exact ⟨_, t, ⟨hrange, rfl⟩, rfl, hp⟩

/-- A number that rereads as one is one, or six decimals make it one. -/
theorem one_or_roundsAway {lib : StandardLibrary} {d : Double} (hd : IsDouble lib d)
    (hone : equals (reread lib d) (.finite 1) = true) :
    equals d (.finite 1) = true ∨ RoundsAway d := by
  have hreread := reread_one hone
  by_cases hint : equals d (.finite (toInt64 d)) = true
  · rw [reread_integer hd hint] at hreread
    rw [hreread] at hint
    exact Or.inl hint
  · right
    by_contra haway
    cases hq : finiteValue d with
    | none =>
      rw [reread_of_not_finite hq] at hreread
      rw [hreread] at hq
      cases hq
    | some q =>
      obtain ⟨r, rfl⟩ := finite_of_not_integer hq hint
      have hnot := not_integer_of_stays (hd r rfl) hint haway
      rw [hreread] at hnot
      exact hnot (by decide +kernel)

theorem period_reprint_type {t : CandleType} (ht : t ≠ .tick) :
    reprint (CandlePeriod.kind lib) t.toText = .ok (some t.toText) := by
  have hone : equals (.finite 1) (.finite 1) = true := equals_self 1
  refine reprint_eq_some.mpr ⟨⟨.finite 1, t⟩, period_parse_type lib t, ?_, ?_⟩
  · change (equals (.finite 1) (.finite 1) && t == .tick) = false
    rw [hone, Bool.true_and, beq_eq_false_iff_ne]
    exact ht
  · exact if_pos hone

theorem period_toText {d : Double} (hone : equals d (.finite 1) = false) (t : CandleType) :
    CandlePeriod.toText ⟨d, t⟩ = numberText d ++ t.toText := by
  have hnot : ¬ equals d CandlePeriod.defaultPeriodValue = true := by
    rw [CandlePeriod.defaultPeriodValue, hone]
    exact Bool.false_ne_true
  rw [CandlePeriod.toText, if_neg hnot, numberText]
  split <;> rfl

theorem period_reprint {v : Text} {p : CandlePeriod} (hp : CandlePeriod.parse lib v = .ok p)
    (hone : equals p.value (.finite 1) = false) :
    reprint (CandlePeriod.kind lib) v = .ok (some (numberText p.value ++ p.type.toText)) := by
  refine reprint_eq_some.mpr ⟨p, hp, ?_, period_toText hone p.type⟩
  change (equals p.value (.finite 1) && _) = false
  rw [hone, Bool.false_and]

/-- A printed period other than one unit is printed alike again unless its value rounds away. -/
theorem period_reprint_number {d : Double} {q : ℚ} (h : finiteValue d = some q)
    (hd : IsDouble lib d) (hone : equals d (.finite 1) = false)
    (hrange : refuses lib (printedNumber d) = false)
    (t : CandleType) :
    reprint (CandlePeriod.kind lib) (numberText d ++ t.toText)
      = .ok (some (numberText d ++ t.toText)) ↔
      ¬ RoundsAway d := by
  have hparse : CandlePeriod.parse lib (numberText d ++ t.toText) = .ok ⟨reread lib d, t⟩ :=
    (period_parse_number lib h t _).mpr ⟨hrange, rfl⟩
  have hreprint : reprint (CandlePeriod.kind lib) (numberText d ++ t.toText)
      = .ok (some (numberText d ++ t.toText)) ↔
        (equals (reread lib d) (.finite 1) && t == .tick) = false ∧
          CandlePeriod.toText ⟨reread lib d, t⟩ = numberText d ++ t.toText := by
    rw [reprint_eq_some]
    change (∃ x, CandlePeriod.parse lib _ = _ ∧ _) ↔ _
    rw [hparse]
    simp only [Except.ok.injEq, exists_eq_left']
    rfl
  rw [hreprint]
  by_cases hagain : equals (reread lib d) (.finite 1) = true
  · have haway : RoundsAway d := by
      rcases one_or_roundsAway hd hagain with hvalue | haway
      · rw [hone] at hvalue
        cases hvalue
      · exact haway
    have htext : CandlePeriod.toText ⟨reread lib d, t⟩ = t.toText := if_pos hagain
    rw [htext]
    constructor
    · rintro ⟨-, heq⟩
      exact absurd (List.self_eq_append_left.mp heq) (numberText_ne_nil h)
    · intro hnot
      exact absurd haway hnot
  · have hfalse := Bool.eq_false_of_not_eq_true hagain
    rw [period_toText hfalse, hfalse, Bool.false_and, List.append_cancel_right_eq,
      numberText_reread hd h]
    simp

/-- A period is printed with its number, unless that is one. -/
theorem period_text_cases (p : CandlePeriod) :
    (CandlePeriod.kind lib).toText p = p.type.toText ∨
      (CandlePeriod.kind lib).toText p = numberText p.value ++ p.type.toText := by
  by_cases hone : equals p.value (.finite 1) = true
  · exact Or.inl (if_pos hone)
  · exact Or.inr (period_toText (Bool.eq_false_of_not_eq_true hone) p.type)

theorem printable_period : Printable (CandlePeriod.kind lib) where
  key_free := List.not_mem_nil
  key_open := List.not_mem_nil
  text_clean p := by
    have htype : attributesSeparator ∉ p.type.toText ∧ attributesOpen ∉ p.type.toText := by
      cases p.type <;> decide
    have hnumber := numberText_clean p.value
    rcases period_text_cases lib p with htext | htext
    · rw [htext]
      exact htype
    · simp [htext, htype, hnumber]

theorem tolower_of_startsWith {w : Char} {word s : Text} (h : startsWith (w :: word) s = true) :
    ∃ c u, s = c :: u ∧ tolower c = tolower w := by
  cases s with
  | nil => simp [startsWith, iEquals] at h
  | cons c u =>
    refine ⟨c, u, rfl, ?_⟩
    by_contra hne
    rw [startsWith_cons word u hne] at h
    cases h

/-- A number that is not finite is spelled with a letter in front. -/
theorem readNumber_not_finite {hexadecimals negative : Bool} {s : Text} {r : Reading}
    (h : readNumber hexadecimals s = some r)
    (hr : finiteValue (withSign negative (r.rounded lib)) = none) :
    ∃ c u, s = c :: u ∧ (tolower c = 'i' ∨ tolower c = 'n') := by
  have hnot : ∀ q, r ≠ .finite q := by
    rintro q rfl
    exact finiteValue_withSign negative _ hr
  rw [readNumber] at h
  split at h
  next hinf =>
    obtain ⟨c, u, hs, hc⟩ := tolower_of_startsWith hinf
    exact ⟨c, u, hs, Or.inl hc⟩
  next =>
    split at h
    next hnan =>
      obtain ⟨c, u, hs, hc⟩ := tolower_of_startsWith hnan
      exact ⟨c, u, hs, Or.inr hc⟩
    next =>
      split at h
      next => exact absurd (Option.some.inj h).symm (hnot _)
      next =>
        obtain ⟨q, -, hq⟩ := Option.map_eq_some_iff.mp h
        exact absurd hq.symm (hnot q)

theorem tolower_valueChar {c : Char} (h : CandlePeriod.isValueChar c = true) :
    tolower c ∈ "0123456789.-+e".toList := by
  simp only [CandlePeriod.isValueChar, Bool.or_eq_true, Bool.and_eq_true, decide_eq_true_eq,
    beq_iff_eq] at h
  rcases h with ((((⟨hlow, hhigh⟩ | rfl) | rfl) | rfl) | rfl) | rfl
  · have hdigit : isDigit 10 c = true := by
      apply isDigit_of_char
      rw [Char.isDigit, Bool.and_eq_true, decide_eq_true_eq, decide_eq_true_eq]
      exact ⟨hlow, hhigh⟩
    exact forall_digit (P := fun c => tolower c ∈ "0123456789.-+e".toList) (by decide) hdigit
  all_goals decide

theorem not_isValueChar {c : Char} (h : tolower c = 'i' ∨ tolower c = 'n') :
    CandlePeriod.isValueChar c = false := by
  by_contra hnot
  have hlower := tolower_valueChar (Bool.eq_true_of_not_eq_false hnot)
  rcases h with hi | hn
  · rw [hi] at hlower
    exact absurd hlower (by decide)
  · rw [hn] at hlower
    exact absurd hlower (by decide)

theorem tolower_of_iEquals {a b : Char} {as bs : Text} (h : iEquals (a :: as) (b :: bs) = true) :
    tolower a = tolower b := by
  simp [iEquals] at h
  exact h.1

/-- No type begins with the letters that spell infinity and not-a-number. -/
theorem type_parse_head {c : Char} {s : Text} {t : CandleType}
    (h : CandleType.parse (c :: s) = .ok t) :
    tolower c ≠ 'i' ∧ tolower c ≠ 'n' := by
  have hheads : ∀ v : CandleType, (∃ a as, v.toText = a :: as ∧ tolower a ≠ 'i' ∧ tolower a ≠ 'n') ∧
      ∃ a as, v.name = a :: as ∧ tolower a ≠ 'i' ∧ tolower a ≠ 'n' := by
    intro v
    cases v <;> exact ⟨⟨_, _, rfl, by decide, by decide⟩, _, _, rfl, by decide, by decide⟩
  rw [CandleType.parse, if_neg (List.cons_ne_nil c s)] at h
  split at h
  next v hfind =>
    obtain ⟨⟨a, as, hv, hi, hn⟩, -⟩ := hheads v
    have heq : v.toText = c :: s := by simpa using List.find?_some hfind
    rw [hv, List.cons.injEq] at heq
    rw [← heq.1]
    exact ⟨hi, hn⟩
  next =>
    split at h
    next v hfind =>
      obtain ⟨-, a, as, hv, hi, hn⟩ := hheads v
      have hsame : tolower a = tolower c := by
        have hfound := List.find?_some hfind
        simp only [Bool.or_eq_true, Bool.and_eq_true] at hfound
        rw [hv] at hfound
        rcases hfound with ⟨-, hstart⟩ | ⟨-, hplural⟩
        · exact tolower_of_iEquals hstart
        · cases s with
          | nil => simp [iEquals] at hplural
          | cons d s => exact tolower_of_iEquals hplural
      rw [← hsame]
      exact ⟨hi, hn⟩
    next => cases h

/-- The letter stands in front or behind a sign. -/
def Spelled (s : Text) : Prop :=
  ∃ c u, (s = c :: u ∨ ∃ sign, s = sign :: c :: u) ∧ (tolower c = 'i' ∨ tolower c = 'n')

theorem spelled_of_unsigned {signed : Bool} {s : Text}
    (h : ∃ c u, (if signed = true then s.tail else s) = c :: u ∧
      (tolower c = 'i' ∨ tolower c = 'n')) :
    Spelled s := by
  obtain ⟨c, u, hs, hc⟩ := h
  refine ⟨c, u, ?_, hc⟩
  cases signed with
  | false => exact Or.inl hs
  | true =>
    cases s with
    | nil => cases hs
    | cons sign rest => exact Or.inr ⟨sign, congrArg _ hs⟩

theorem stod_not_finite {s : Text} {d : Double} (h : stod lib s = .ok d)
    (hd : finiteValue d = none) :
    Spelled (s.dropWhile isSpace) := by
  simp only [stod] at h
  split at h
  next => cases h
  next r hread =>
    split at h
    next => cases h
    next =>
      rw [← Except.ok.inj h] at hd
      exact spelled_of_unsigned (readNumber_not_finite lib hread hd)

theorem fromChars_not_finite {s : Text} {d : Double} (h : fromChars lib s = some d)
    (hd : finiteValue d = none) : Spelled s := by
  simp only [fromChars] at h
  split at h
  next => cases h
  next r hread =>
    split at h
    next => cases h
    next =>
      rw [← Option.some.inj h] at hd
      exact spelled_of_unsigned (readNumber_not_finite lib hread hd)

theorem toDouble_not_finite {c : Char} {s : Text} {d : Double}
    (hc : CandlePeriod.isValueChar c = true) (h : toDouble lib (c :: s) = .ok d)
    (hd : finiteValue d = none) :
    ∃ b u, s = b :: u ∧ (tolower b = 'i' ∨ tolower b = 'n') := by
  have hspelled : Spelled (c :: s) := by
    rw [toDouble] at h
    split at h
    next =>
      have hspace : isSpace c = false := by
        by_contra hnot
        have hmem := Bool.eq_true_of_not_eq_false hnot
        have hall : [' ', '\t', '\n', Char.ofNat 11, Char.ofNat 12, '\r'].all
            (fun e => !CandlePeriod.isValueChar e) = true := by decide
        have hnone := List.all_eq_true.mp hall c (of_decide_eq_true hmem)
        rw [hc] at hnone
        cases hnone
      have hspelled := stod_not_finite lib h hd
      rwa [List.dropWhile_cons_of_neg (by simp [hspace])] at hspelled
    next =>
      split at h
      next e hread =>
        cases h
        exact fromChars_not_finite lib hread hd
      next => cases h
  obtain ⟨b, u, hs | ⟨sign, hs⟩, hb⟩ := hspelled
  · cases hs
    rw [not_isValueChar hb] at hc
    cases hc
  · cases hs
    exact ⟨b, u, rfl, hb⟩

/-- What stands behind the value begins like a type. -/
theorem period_parse_head {v u : Text} {c : Char} {p : CandlePeriod}
    (h : CandlePeriod.parse lib v = .ok p)
    (hdrop : v.dropWhile CandlePeriod.isValueChar = c :: u) :
    tolower c ≠ 'i' ∧ tolower c ≠ 'n' := by
  by_cases hvalue : v.takeWhile CandlePeriod.isValueChar = []
  · obtain ⟨type, htype, -⟩ := (period_parse_no_value lib hvalue p).mp h
    rw [hdrop] at htype
    exact type_parse_head htype
  · obtain ⟨value, type, -, htype, -⟩ := (period_parse_value lib hvalue p).mp h
    rw [hdrop] at htype
    exact type_parse_head htype

/-- A parsed period has a finite value: the spelling of any other would be its type. -/
theorem period_value_finite {v : Text} {p : CandlePeriod} (h : CandlePeriod.parse lib v = .ok p) :
    ∃ q, finiteValue p.value = some q := by
  by_cases hvalue : v.takeWhile CandlePeriod.isValueChar = []
  · obtain ⟨type, -, rfl⟩ := (period_parse_no_value lib hvalue p).mp h
    exact ⟨1, rfl⟩
  · rw [← Option.ne_none_iff_exists']
    intro hnone
    obtain ⟨value, type, hread, -, rfl⟩ := (period_parse_value lib hvalue p).mp h
    cases v with
    | nil => exact hvalue rfl
    | cons c s =>
      have hc : CandlePeriod.isValueChar c = true := by
        by_contra hnot
        exact hvalue (List.takeWhile_cons_of_neg hnot)
      obtain ⟨b, u, rfl, hb⟩ := toDouble_not_finite lib hc hread hnone
      have hdrop : (c :: b :: u).dropWhile CandlePeriod.isValueChar = b :: u := by
        rw [List.dropWhile_cons_of_pos hc,
          List.dropWhile_cons_of_neg (by simp [not_isValueChar hb])]
      obtain ⟨hi, hn⟩ := period_parse_head lib h hdrop
      rcases hb with heq | heq
      · exact hi heq
      · exact hn heq

theorem isDouble_one : IsDouble lib (.finite 1) := by
  intro q hq
  obtain rfl := Option.some.inj hq
  exact lib.doubles.one

theorem isDouble_period {v : Text} {p : CandlePeriod} (h : CandlePeriod.parse lib v = .ok p) :
    IsDouble lib p.value := by
  by_cases hvalue : v.takeWhile CandlePeriod.isValueChar = []
  · obtain ⟨type, -, rfl⟩ := (period_parse_no_value lib hvalue p).mp h
    exact isDouble_one lib
  · obtain ⟨value, type, hread, -, rfl⟩ := (period_parse_value lib hvalue p).mp h
    exact isDouble_toDouble hread

end Numbers

section PriceLevels

variable (lib : StandardLibrary)

theorem printable_priceLevel : Printable (CandlePriceLevel.kind lib) where
  key_free := by
    change attributeValue ∉ "pl".toList
    decide
  key_open := by
    change attributesOpen ∉ "pl".toList
    decide
  text_clean l := numberText_clean l.value

theorem priceLevel_not_default (l : CandlePriceLevel) :
    (CandlePriceLevel.kind lib).equals l (CandlePriceLevel.kind lib).default = false := by
  change equals l.value .nan = false
  rw [equals]
  cases finiteValue l.value <;> rfl

theorem priceLevel_reprint {v : Text} {l : CandlePriceLevel}
    (hl : CandlePriceLevel.parse lib v = .ok l) :
    reprint (CandlePriceLevel.kind lib) v = .ok (some (numberText l.value)) :=
  reprint_eq_some.mpr ⟨l, hl, priceLevel_not_default lib l, rfl⟩

/-- Parsed values are doubles. -/
theorem isDouble_priceLevel {v : Text} {l : CandlePriceLevel}
    (h : CandlePriceLevel.parse lib v = .ok l) : IsDouble lib l.value := by
  obtain ⟨d, hd, hvalue⟩ := bind_eq_ok.mp h
  rw [CandlePriceLevel.valueOf] at hvalue
  split at hvalue
  next => cases hvalue
  next =>
    split at hvalue
    next =>
      rw [← Except.ok.inj hvalue]
      intro q hq
      cases hq
    next =>
      rw [← Except.ok.inj hvalue]
      exact isDouble_stod hd

/-- A parsed price level is finite or the default. -/
theorem priceLevel_value {v : Text} {l : CandlePriceLevel}
    (h : CandlePriceLevel.parse lib v = .ok l) :
    l.value = .nan ∨ ∃ q, finiteValue l.value = some q := by
  obtain ⟨d, -, hvalue⟩ := bind_eq_ok.mp h
  rw [CandlePriceLevel.valueOf] at hvalue
  split at hvalue
  next => cases hvalue
  next hnot =>
    rw [not_or] at hnot
    cases d with
    | nan =>
      cases hvalue
      exact Or.inl rfl
    | finite q =>
      cases hvalue
      exact Or.inr ⟨q, rfl⟩
    | posInf => exact absurd rfl hnot.1
    | negInf => exact absurd rfl hnot.1
    | negZero => exact absurd rfl hnot.2

theorem priceLevel_parse_nan :
    CandlePriceLevel.parse lib (numberText .nan) = .ok CandlePriceLevel.default := by
  have htext : numberText .nan = "nan".toList := by decide +kernel
  rw [htext]
  rfl

theorem priceLevel_parse_number {d : Double} {q : ℚ} (h : finiteValue d = some q)
    (l : CandlePriceLevel) :
    CandlePriceLevel.parse lib (numberText d) = .ok l ↔
      (refuses lib (printedNumber d) = false ∧ reread lib d ≠ .negZero) ∧ ⟨reread lib d⟩ = l := by
  obtain ⟨negative, body, magnitude, htext, hbody, hreread⟩ := numberText_signed h
  have hread := stod_signed lib hbody follows_nil negative
  have hfinite : finiteValue (reread lib d) ≠ none := by
    rw [reread, ← hreread, rounded_withSign hbody.nonneg]
    exact finiteValue_withSign negative _
  rw [List.append_nil, ← htext, ← rounded_withSign hbody.nonneg, hreread,
    ← refuses_withSign lib hbody.nonneg negative, hreread, ← reread] at hread
  rw [CandlePriceLevel.parse, hread]
  cases hrange : refuses lib (printedNumber d) with
  | true => simp
  | false =>
    rw [if_neg Bool.false_ne_true, ok_bind, CandlePriceLevel.valueOf]
    cases hvalue : reread lib d with
    | finite r => simp [Double.isInf, Double.isNaN]
    | negZero => simp
    | nan => exact absurd (congrArg finiteValue hvalue) hfinite
    | posInf => exact absurd (congrArg finiteValue hvalue) hfinite
    | negInf => exact absurd (congrArg finiteValue hvalue) hfinite

/-- A printed price level is printed alike again unless its value rounds away. -/
theorem priceLevel_reprint_number {d : Double} {q : ℚ} (h : finiteValue d = some q)
    (hd : IsDouble lib d) (hrange : refuses lib (printedNumber d) = false)
    (hzero : reread lib d ≠ .negZero) :
    reprint (CandlePriceLevel.kind lib) (numberText d) = .ok (some (numberText d)) ↔
      ¬ RoundsAway d := by
  have hparse := (priceLevel_parse_number lib h ⟨reread lib d⟩).mpr ⟨⟨hrange, hzero⟩, rfl⟩
  rw [reprint_eq_some, ← numberText_reread hd h]
  change (∃ x, CandlePriceLevel.parse lib _ = _ ∧ _) ↔ _
  rw [hparse]
  simp only [Except.ok.injEq, exists_eq_left', priceLevel_not_default, true_and]
  rfl

end PriceLevels

end CandlePrinting
