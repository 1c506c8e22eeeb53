import DxFeedGraal.CppStrings
import DxFeedGraal.DoubleValues
import DxFeedGraal.NearestNumbers
import Mathlib.Tactic.Linarith
import Mathlib.Tactic.Positivity

/-! # Numbers in texts

`std::stod`, `std::from_chars` and `std::to_string`. A number in a text is read as the nearest
double, or as itself where doubles are taken as exact numbers. -/
namespace CppNumbers

open CppStrings DoubleValues Numerals NearestNumbers

def epsilon : ℚ := 1 / 2 ^ 52

/-- The finite doubles. What is too large for them is out of range. -/
def doubleRounding : Rounding := .binary 53 (-1074) (by decide) (by decide)

/-- The least difference that is rounded to `epsilon`. -/
def closeness : ℚ := epsilon - 1 / 2 ^ 106

/-- Numbers that texts are read as. Two that come from six decimals are far apart. -/
structure Doubles extends Rounding where
  apart : ∀ z w : ℤ, |nearest (z / 1000000) - nearest (w / 1000000)| < closeness →
    nearest (z / 1000000) = nearest (w / 1000000)

/-- What differs between standard libraries: whether a view is read by `std::stod`, and
which numbers are reported as out of the range of doubles. -/
structure StandardLibrary where
  viewsByStod : Bool
  outOfRange : ℚ → Bool
  doubles : Doubles

inductive Reading
  | nan
  | infinite
  | finite (magnitude : ℚ)

def isSpace (c : Char) : Bool := c ∈ [' ', '\t', '\n', Char.ofNat 11, Char.ofNat 12, '\r']

/-- `std::tolower` of the classic locale. -/
def tolower (c : Char) : Char := if 'A' ≤ c ∧ c ≤ 'Z' then Char.ofNat (c.toNat + 32) else c

def iEquals (first second : Text) : Bool := first.map tolower == second.map tolower

def startsWith (word s : Text) : Bool := iEquals word (s.take word.length)

/-- The number a text starts with, behind its sign. -/
def readNumber (hexadecimals : Bool) (s : Text) : Option Reading :=
  if startsWith ['i', 'n', 'f'] s then some .infinite
  else if startsWith ['n', 'a', 'n'] s then some .nan
  else if hexadecimals = true ∧ startsWith ['0', 'x'] s = true then
    -- without a digit behind the prefix the number is its zero
    some (.finite ((readDigits hexadecimal (s.drop 2)).getD 0))
  else (readDigits decimal s).map .finite

def withSign (negative : Bool) : Reading → Double
  | .nan => .nan
  | .infinite => if negative then .negInf else .posInf
  | .finite q =>
    if q = 0 then (if negative then .negZero else .finite 0)
    else .finite (if negative then -q else q)

def Reading.rounded (lib : StandardLibrary) : Reading → Reading
  | .finite q => .finite (lib.doubles.nearest q)
  | r => r

def isOutOfRange (lib : StandardLibrary) : Reading → Bool
  | .finite q => lib.outOfRange q
  | _ => false

def stod (lib : StandardLibrary) (s : Text) : Cpp Double :=
  let signed := s.dropWhile isSpace
  let negative := signed.head? == some '-'
  let unsigned := if negative || signed.head? == some '+' then signed.tail else signed
  match readNumber true unsigned with
  | none => .error (.invalidArgument "stod".toList)
  | some r =>
    if isOutOfRange lib r then .error .outOfRange else .ok (withSign negative (r.rounded lib))

/-- No space, no plus sign and no hexadecimal prefix; `none` for any error code. -/
def fromChars (lib : StandardLibrary) (s : Text) : Option Double :=
  let negative := s.head? == some '-'
  let unsigned := if negative then s.tail else s
  match readNumber false unsigned with
  | none => none
  | some r => if isOutOfRange lib r then none else some (withSign negative (r.rounded lib))

/-- `StringLike::operator double`. -/
def toDouble (lib : StandardLibrary) (s : Text) : Cpp Double :=
  if lib.viewsByStod then stod lib s
  else
    match fromChars lib s with
    | some d => .ok d
    | none => .error (.invalidArgument "StringLike: cannot convert to double".toList)

def int64ToString (i : ℤ) : Text :=
  if i < 0 then '-' :: Nat.toDigits 10 i.natAbs else Nat.toDigits 10 i.natAbs

/-- The number of millionths that is printed. -/
def millionths (q : ℚ) : ℕ := roundHalfEven (|q| * 1000000)

def doubleToString : Double → Text
  | .nan => "nan".toList
  | .posInf => "inf".toList
  | .negInf => "-inf".toList
  | .negZero => "-0.000000".toList
  | .finite q => (if q < 0 then ['-'] else []) ++ fixedPoint 6 (millionths q)

/-- The finite value, without the sign of zero. -/
def finiteValue : Double → Option ℚ
  | .finite q => some q
  | .negZero => some 0
  | _ => none

/-- `math::equals`. The difference is itself a double. -/
def equals (a b : Double) : Bool :=
  match finiteValue a, finiteValue b with
  | some x, some y => decide (doubleRounding.nearest |x - y| < epsilon)
  | _, _ => false

/-- `static_cast<std::int64_t>`; a value that does not fit becomes the least integer. -/
def toInt64 (d : Double) : ℤ :=
  match finiteValue d with
  | some q =>
    let i := q.num.tdiv q.den
    if -2 ^ 63 ≤ i ∧ i < 2 ^ 63 then i else -2 ^ 63
  | none => -2 ^ 63

/-- How numbers are printed in attributes: as an integer when they are one. -/
def numberText (d : Double) : Text :=
  if equals d (.finite (toInt64 d)) then int64ToString (toInt64 d) else doubleToString d

/-- The number that six printed decimals stand for. -/
def sixPlaces : Double → Double
  | .finite q => withSign (decide (q < 0)) (.finite ((millionths q : ℚ) / 1000000))
  | d => d

/-- Six decimals print an integer that the number is not. -/
def RoundsAway (d : Double) : Prop :=
  equals d (.finite (toInt64 d)) = false ∧
    equals (sixPlaces d) (.finite (toInt64 (sixPlaces d))) = true

/-- The number that the printed text stands for. -/
def printedNumber (d : Double) : Double :=
  if equals d (.finite (toInt64 d)) then .finite (toInt64 d) else sixPlaces d

def rounded (lib : StandardLibrary) : Double → Double
  | .finite q => withSign (decide (q < 0)) (.finite (lib.doubles.nearest |q|))
  | d => d

/-- The double that the printed text is read as. -/
def reread (lib : StandardLibrary) (d : Double) : Double := rounded lib (printedNumber d)

/-- The values that variables of the type can have. -/
def IsDouble (lib : StandardLibrary) (d : Double) : Prop :=
  ∀ q, finiteValue d = some q → lib.doubles.Keeps q

/-- Whether the library refuses a text that stands for the number. -/
def refuses (lib : StandardLibrary) (d : Double) : Bool :=
  (finiteValue d).any fun q => lib.outOfRange |q|

section Doubles

/-- The difference that is half way is rounded to the even one, `epsilon`. -/
theorem nearest_lt_epsilon {x : ℚ} : doubleRounding.nearest x < epsilon ↔ x < closeness := by
  constructor
  · intro h
    by_contra hnot
    have htie : doubleRounding.nearest closeness = epsilon := by decide +kernel
    linarith [doubleRounding.nearest_mono (not_lt.mp hnot)]
  · intro h
    have hbelow : doubleRounding.Keeps (epsilon - 1 / 2 ^ 105) := by
      rw [Rounding.Keeps]
      decide +kernel
    have hgap : epsilon - 1 / 2 ^ 105 < epsilon ∧ closeness + 1 / 2 ^ 106 = epsilon ∧
        closeness - (epsilon - 1 / 2 ^ 105) = 1 / 2 ^ 106 := by
      norm_num [closeness, epsilon]
    rcases le_or_gt x (epsilon - 1 / 2 ^ 105) with hle | hgt
    · have hmono := doubleRounding.nearest_mono hle
      rw [hbelow] at hmono
      linarith
    · have hclosest := hbelow.closest x
      rw [abs_sub_comm x (doubleRounding.nearest x), abs_of_pos (sub_pos.mpr hgt)] at hclosest
      linarith [le_abs_self (doubleRounding.nearest x - x)]

theorem closeness_pos : 0 < closeness := by norm_num [closeness, epsilon]

theorem closeness_lt_decimal : closeness < 1 / 1000000 := by norm_num [closeness, epsilon]

/-- Two numbers of six decimals that are nearer than a millionth are the same. -/
theorem decimal_eq {z w : ℤ} (h : |(z : ℚ) / 1000000 - w / 1000000| < 1 / 1000000) : z = w := by
  rw [← sub_div, abs_div, abs_of_pos (by norm_num : (0 : ℚ) < 1000000),
    div_lt_div_iff_of_pos_right (by norm_num)] at h
  have hint : |z - w| < 1 := by exact_mod_cast h
  have hzero := Int.abs_lt_one_iff.mp hint
  omega

/-- Doubles taken as exact numbers. -/
def Doubles.exact : Doubles where
  toRounding := .exact
  apart z w h := by
    have hzw := decimal_eq (h.trans closeness_lt_decimal)
    rw [hzw]

def Doubles.binary64 : Doubles where
  toRounding := doubleRounding
  apart z w h := by
    have hquantum : (2 : ℚ) ^ (1 - ((53 : ℕ) : ℤ)) = epsilon := by
      rw [epsilon]
      norm_num
    have hbound : closeness < epsilon ∧ closeness + epsilon < 1 / 1000000 := by
      norm_num [closeness, epsilon]
    change |binaryNearest 53 (-1074) _ - binaryNearest 53 (-1074) _| < _ at h
    rcases binary_apart 53 (-1074) (by decide) (by decide)
      (by rw [hquantum]; exact h.trans hbound.1) with hsame | hnear
    · exact hsame
    · rw [hquantum] at hnear
      have hzw : z = w := decimal_eq (lt_of_le_of_lt hnear (by linarith [hbound.2]))
      rw [hzw]

end Doubles

section Reading

theorem startsWith_cons {w c : Char} (word s : Text) (h : tolower c ≠ tolower w) :
    startsWith (w :: word) (c :: s) = false := by
  simp [startsWith, iEquals, Ne.symm h]

theorem readNumber_plain {c : Char} {s : Text} (hletter : tolower c ≠ 'i' ∧ tolower c ≠ 'n')
    (hx : ∀ d ∈ s.head?, tolower d ≠ 'x') (hexadecimals : Bool) :
    readNumber hexadecimals (c :: s) = (readDigits decimal (c :: s)).map .finite := by
  have hinf : startsWith ['i', 'n', 'f'] (c :: s) = false := startsWith_cons _ _ hletter.1
  have hnan : startsWith ['n', 'a', 'n'] (c :: s) = false := startsWith_cons _ _ hletter.2
  have hhex : startsWith ['0', 'x'] (c :: s) = false := by
    cases s with
    | nil => simp [startsWith, iEquals]
    | cons d s =>
      have hd : tolower d ≠ 'x' := hx d rfl
      have hlower : tolower 'x' = 'x' := by decide
      simp [startsWith, iEquals, hlower, Ne.symm hd]
  rw [readNumber, hinf, hnan, hhex]
  simp

def signText (negative : Bool) : Text := if negative then ['-'] else []

/-- What follows a printed number does not belong to it. -/
structure Follows (tail : Text) : Prop where
  ends : EndsNumeral tail
  free : ∀ c ∈ tail, tolower c ≠ 'x'

theorem readNumber_numeral {body tail : Text} {q : ℚ} (h : Numeral body q) (ht : Follows tail)
    (hexadecimals : Bool) : readNumber hexadecimals (body ++ tail) = some (.finite q) := by
  obtain ⟨c, s, rfl, hc⟩ := h.starts
  have hread := h.reads tail ht.ends
  have hx : ∀ d ∈ s ++ tail, tolower d ≠ 'x' := by
    intro d hd
    rcases List.mem_append.mp hd with hbody | htail
    · rcases h.chars d (List.mem_cons_of_mem c hbody) with hdigit | rfl
      · exact forall_digit (P := fun c => tolower c ≠ 'x') (by decide) hdigit
      · decide
    · exact ht.free d htail
  have hletter : tolower c ≠ 'i' ∧ tolower c ≠ 'n' :=
    forall_digit (P := fun c => tolower c ≠ 'i' ∧ tolower c ≠ 'n') (by decide) hc
  rw [List.cons_append, readNumber_plain hletter fun d hd => hx d (List.mem_of_mem_head? hd),
    ← List.cons_append, hread]
  rfl

theorem finiteValue_withSign (negative : Bool) (q : ℚ) :
    finiteValue (withSign negative (.finite q)) ≠ none := by
  rw [withSign]
  split
  next => cases negative <;> simp [finiteValue]
  next => simp [finiteValue]

theorem stod_signed (lib : StandardLibrary) {body tail : Text} {q : ℚ} (h : Numeral body q)
    (ht : Follows tail) (negative : Bool) :
    stod lib (signText negative ++ body ++ tail) = if lib.outOfRange q then .error .outOfRange
      else .ok (withSign negative (.finite (lib.doubles.nearest q))) := by
  have hread := readNumber_numeral h ht true
  obtain ⟨c, s, rfl, hc⟩ := h.starts
  have hspace : isSpace c = false := forall_digit (P := fun c => isSpace c = false) (by decide) hc
  have hminus : (c == '-') = false := forall_digit (P := fun c => (c == '-') = false) (by decide) hc
  have hplus : (c == '+') = false := forall_digit (P := fun c => (c == '+') = false) (by decide) hc
  rw [List.cons_append] at hread
  cases negative with
  | false => simp [stod, signText, hspace, hminus, hplus, hread, isOutOfRange, Reading.rounded]
  | true =>
    have hdash : isSpace '-' = false := by decide
    simp [stod, signText, hdash, hread, isOutOfRange, Reading.rounded]

theorem fromChars_signed (lib : StandardLibrary) {body tail : Text} {q : ℚ} (h : Numeral body q)
    (ht : Follows tail) (negative : Bool) :
    fromChars lib (signText negative ++ body ++ tail) = if lib.outOfRange q then none
      else some (withSign negative (.finite (lib.doubles.nearest q))) := by
  have hread := readNumber_numeral h ht false
  obtain ⟨c, s, rfl, hc⟩ := h.starts
  have hminus : (c == '-') = false := forall_digit (P := fun c => (c == '-') = false) (by decide) hc
  rw [List.cons_append] at hread
  cases negative with
  | false => simp [fromChars, signText, hminus, hread, isOutOfRange, Reading.rounded]
  | true => simp [fromChars, signText, hread, isOutOfRange, Reading.rounded]

theorem toDouble_signed (lib : StandardLibrary) {body tail : Text} {q : ℚ} (h : Numeral body q)
    (ht : Follows tail) (negative : Bool) {d : Double} :
    toDouble lib (signText negative ++ body ++ tail) = .ok d
      ↔ lib.outOfRange q = false ∧ withSign negative (.finite (lib.doubles.nearest q)) = d := by
  rw [toDouble, stod_signed lib h ht, fromChars_signed lib h ht]
  cases lib.outOfRange q with
  | true => cases lib.viewsByStod <;> simp
  | false => cases lib.viewsByStod <;> simp

end Reading

section Printing

theorem toInt64_bounds (d : Double) : -2 ^ 63 ≤ toInt64 d ∧ toInt64 d < 2 ^ 63 := by
  rw [toInt64]
  split
  next q _ =>
    dsimp only
    split
    next h => exact h
    next => norm_num
  next => norm_num

theorem toInt64_intCast {i : ℤ} (h : -2 ^ 63 ≤ i ∧ i < 2 ^ 63) : toInt64 (.finite i) = i := by
  have hnum : (i : ℚ).num.tdiv (i : ℚ).den = i := by simp
  simp only [toInt64, finiteValue, hnum, if_pos h]

theorem toInt64_toInt64 (d : Double) : toInt64 (.finite (toInt64 d)) = toInt64 d :=
  toInt64_intCast (toInt64_bounds d)

theorem equals_iff {a b : Double} : equals a b = true ↔
    ∃ x y, finiteValue a = some x ∧ finiteValue b = some y ∧ |x - y| < closeness := by
  rw [equals]
  cases finiteValue a with
  | none => simp
  | some x => cases finiteValue b <;> simp [nearest_lt_epsilon]

theorem equals_of_finiteValue {a b : Double} {q : ℚ} (ha : finiteValue a = some q)
    (hb : finiteValue b = some q) : equals a b = true :=
  equals_iff.mpr ⟨q, q, ha, hb, by rw [sub_self, abs_zero]; exact closeness_pos⟩

theorem equals_self (q : ℚ) : equals (.finite q) (.finite q) = true :=
  equals_of_finiteValue rfl rfl

theorem equals_comm {a b : Double} (h : equals a b = true) : equals b a = true := by
  obtain ⟨x, y, hx, hy, hclose⟩ := equals_iff.mp h
  exact equals_iff.mpr ⟨y, x, hy, hx, abs_sub_comm x y ▸ hclose⟩

/-- Doubles are compared by their finite values. -/
theorem equals_congr {a a' : Double} (h : finiteValue a = finiteValue a') (b : Double) :
    equals a b = equals a' b := by
  rw [equals, equals, h]

theorem int64ToString_eq (i : ℤ) :
    int64ToString i = signText (decide (i < 0)) ++ Nat.toDigits 10 i.natAbs := by
  by_cases h : i < 0
  · simp [int64ToString, signText, h]
  · simp [int64ToString, signText, h]

theorem doubleToString_finite (q : ℚ) :
    doubleToString (.finite q) = signText (decide (q < 0)) ++ fixedPoint 6 (millionths q) := by
  change (if q < 0 then ['-'] else []) ++ _ = _
  rw [signText]
  by_cases h : q < 0
  · rw [if_pos h, if_pos (decide_eq_true h)]
  · rw [if_neg h, if_neg (by rwa [decide_eq_true_eq])]

theorem cast_natAbs_neg {i : ℤ} (h : i < 0) : ((i.natAbs : ℕ) : ℚ) = -(i : ℚ) := by
  have habs : ((i.natAbs : ℕ) : ℤ) = -i := by omega
  rw [← Int.cast_natCast, habs, Int.cast_neg]

theorem cast_natAbs_nonneg {i : ℤ} (h : ¬ i < 0) : ((i.natAbs : ℕ) : ℚ) = (i : ℚ) := by
  have habs : ((i.natAbs : ℕ) : ℤ) = i := by omega
  rw [← Int.cast_natCast, habs]

theorem withSign_natAbs (i : ℤ) : withSign (decide (i < 0)) (.finite i.natAbs) = .finite i := by
  by_cases hzero : i = 0
  · subst hzero
    simp [withSign]
  · have hne : ((i.natAbs : ℕ) : ℚ) ≠ 0 := by simpa using hzero
    rw [withSign, if_neg hne]
    by_cases hneg : i < 0
    · simp [hneg, cast_natAbs_neg hneg]
    · simp [hneg, cast_natAbs_nonneg hneg]

theorem refuses_withSign (lib : StandardLibrary) {q : ℚ} (h : 0 ≤ q) (negative : Bool) :
    refuses lib (withSign negative (.finite q)) = lib.outOfRange q := by
  rw [withSign]
  by_cases hzero : q = 0
  · subst hzero
    cases negative <;> simp [refuses, finiteValue]
  · have habs : |q| = q := abs_of_nonneg h
    cases negative <;> simp [hzero, refuses, finiteValue, habs]

theorem finite_of_not_integer {d : Double} {q : ℚ} (h : finiteValue d = some q)
    (hint : ¬ equals d (.finite (toInt64 d)) = true) : ∃ r, d = .finite r := by
  cases d with
  | finite r => exact ⟨r, rfl⟩
  | negZero =>
    have hzero : equals .negZero (.finite (toInt64 .negZero)) = true := by decide +kernel
    exact absurd hzero hint
  | nan => cases h
  | posInf => cases h
  | negInf => cases h

/-- A finite number is printed as a signed numeral, which stands for the reread number. -/
theorem numberText_signed {d : Double} {q : ℚ} (h : finiteValue d = some q) :
    ∃ negative body magnitude, numberText d = signText negative ++ body ∧ Numeral body magnitude ∧
      withSign negative (.finite magnitude) = printedNumber d := by
  rw [numberText, printedNumber]
  by_cases hint : equals d (.finite (toInt64 d)) = true
  · rw [if_pos hint, if_pos hint]
    exact ⟨_, _, _, int64ToString_eq _, numeral_toDigits _, withSign_natAbs _⟩
  · rw [if_neg hint, if_neg hint]
    obtain ⟨r, rfl⟩ := finite_of_not_integer h hint
    have hmillion : (10 : ℚ) ^ 6 = 1000000 := by norm_num
    refine ⟨_, _, _, doubleToString_finite r, numeral_fixedPoint 6 _, ?_⟩
    rw [hmillion, sixPlaces]

theorem millionths_sixPlaces (m : ℕ) (negative : Bool) :
    millionths (if negative then -((m : ℚ) / 1000000) else (m : ℚ) / 1000000) = m := by
  have habs : |if negative then -((m : ℚ) / 1000000) else (m : ℚ) / 1000000|
      = (m : ℚ) / 1000000 := by
    have hnonneg : (0 : ℚ) ≤ (m : ℚ) / 1000000 := by positivity
    cases negative with
    | false => simpa using abs_of_nonneg hnonneg
    | true => simpa using abs_of_nonneg hnonneg
  have hcancel : (m : ℚ) / 1000000 * 1000000 = m := by field_simp
  rw [millionths, habs, hcancel, roundHalfEven_natCast]

theorem decimal_of_integer (i : ℤ) : ((i * 1000000 : ℤ) : ℚ) / 1000000 = i := by
  push_cast
  field_simp

theorem decimal_integer {z i : ℤ} (h : |(z : ℚ) / 1000000 - i| < 1 / 1000000) :
    (z : ℚ) / 1000000 = i := by
  rw [← decimal_of_integer i] at h ⊢
  rw [decimal_eq h]

/-- Six decimals that doubles cannot tell from an integer are that integer. -/
theorem integer_of_close {z i : ℤ}
    (h : equals (.finite ((z : ℚ) / 1000000)) (.finite i) = true) : (z : ℚ) / 1000000 = i := by
  obtain ⟨x, y, hx, hy, hclose⟩ := equals_iff.mp h
  obtain rfl := Option.some.inj hx
  obtain rfl := Option.some.inj hy
  exact decimal_integer (hclose.trans closeness_lt_decimal)

theorem millionths_sixDecimals (z : ℤ) : millionths ((z : ℚ) / 1000000) = z.natAbs := by
  have hsign := millionths_sixPlaces z.natAbs (decide (z < 0))
  by_cases hneg : z < 0
  · rw [if_pos (decide_eq_true hneg), cast_natAbs_neg hneg, neg_div, neg_neg] at hsign
    exact hsign
  · rwa [if_neg (by rwa [decide_eq_true_eq]), cast_natAbs_nonneg hneg] at hsign

/-- Six decimals are printed without a loss. -/
theorem printedNumber_sixDecimals (z : ℤ) :
    printedNumber (.finite ((z : ℚ) / 1000000)) = .finite ((z : ℚ) / 1000000) := by
  rw [printedNumber]
  split
  next hint => exact congrArg Double.finite (integer_of_close hint).symm
  next hnot =>
    have hz : z ≠ 0 := by
      rintro rfl
      exact hnot (by decide +kernel)
    rw [sixPlaces, millionths_sixDecimals, withSign]
    have hne : ((z.natAbs : ℕ) : ℚ) / 1000000 ≠ 0 := by simpa using hz
    rw [if_neg hne]
    by_cases hneg : z < 0
    · have hlt : (z : ℚ) / 1000000 < 0 := by
        have hcast : (z : ℚ) < 0 := by exact_mod_cast hneg
        linarith
      rw [if_pos (decide_eq_true hlt), cast_natAbs_neg hneg, neg_div, neg_neg]
    · have hnlt : ¬ (z : ℚ) / 1000000 < 0 := by
        have hcast : (0 : ℚ) ≤ z := by exact_mod_cast not_lt.mp hneg
        linarith
      rw [if_neg (by rwa [decide_eq_true_eq]), cast_natAbs_nonneg hneg]

theorem printedNumber_cases {d : Double} {q : ℚ} (h : finiteValue d = some q) :
    printedNumber d = .negZero ∨ ∃ z : ℤ, printedNumber d = .finite ((z : ℚ) / 1000000) := by
  rw [printedNumber]
  split
  next =>
    refine Or.inr ⟨toInt64 d * 1000000, congrArg Double.finite ?_⟩
    push_cast
    field_simp
  next hint =>
    obtain ⟨r, rfl⟩ := finite_of_not_integer h hint
    rw [sixPlaces, withSign]
    split
    next =>
      cases decide (r < 0) with
      | true => exact Or.inl rfl
      | false => exact Or.inr ⟨0, congrArg Double.finite (by simp)⟩
    next =>
      cases decide (r < 0) with
      | true =>
        refine Or.inr ⟨-(millionths r : ℤ), congrArg Double.finite ?_⟩
        rw [if_pos rfl]
        push_cast
        ring
      | false =>
        refine Or.inr ⟨(millionths r : ℤ), congrArg Double.finite ?_⟩
        rw [if_neg Bool.false_ne_true]
        push_cast
        ring

theorem finiteValue_printedNumber {d : Double} {q : ℚ} (h : finiteValue d = some q) :
    ∃ r, finiteValue (printedNumber d) = some r := by
  rcases printedNumber_cases h with hzero | ⟨z, hz⟩
  · exact ⟨0, by rw [hzero]; rfl⟩
  · exact ⟨_, by rw [hz]; rfl⟩

theorem toInt64_of_small {d : Double} {q : ℚ} (h : finiteValue d = some q) (hsmall : |q| < 1) :
    toInt64 d = 0 := by
  have hden : (0 : ℚ) < q.den := by exact_mod_cast q.den_pos
  have hlt : |(q.num : ℚ)| < q.den := by
    rw [← Rat.num_div_den q, abs_div, abs_of_pos hden, div_lt_one hden] at hsmall
    exact hsmall
  have hquot : q.num.tdiv q.den = 0 := by
    have hint : |q.num| < q.den := by exact_mod_cast hlt
    rw [← Int.natCast_natAbs] at hint
    have hnat : q.num.natAbs < q.den := by exact_mod_cast hint
    rw [← Int.natAbs_eq_zero, Int.natAbs_tdiv, Int.natAbs_natCast]
    exact Nat.div_eq_of_lt hnat
  rw [toInt64, h]
  simp only [hquot]
  norm_num

theorem int64ToString_ne_doubleToString (i : ℤ) (q : ℚ) :
    int64ToString i ≠ doubleToString (.finite q) := by
  intro h
  have hpoint : '.' ∈ doubleToString (.finite q) := by
    rw [doubleToString_finite]
    simp [fixedPoint]
  rw [← h, int64ToString_eq] at hpoint
  rcases List.mem_append.mp hpoint with hsign | hdigits
  · rw [signText] at hsign
    split at hsign <;> simp at hsign
  · have hdigit := isDigit_toDigits hdigits
    have hnot : isDigit 10 '.' = false := by decide
    rw [hnot] at hdigit
    cases hdigit

end Printing

section Rereading

variable {lib : StandardLibrary}

/-- The error of six decimals. -/
theorem sixPlaces_error (q : ℚ) :
    |((millionths q : ℚ) / 1000000 - |q|)| ≤ 1 / 2 / 1000000 := by
  have herror := roundHalfEven_error (by positivity : 0 ≤ |q| * 1000000)
  have hscale : (millionths q : ℚ) / 1000000 - |q|
      = -(|q| * 1000000 - millionths q) / 1000000 := by
    field_simp
    ring
  rw [hscale, abs_div, abs_neg, abs_of_pos (by norm_num : (0 : ℚ) < 1000000)]
  exact div_le_div_of_nonneg_right herror (by norm_num)

/-- A double is nowhere nearer to six decimals than the double they are read as. -/
theorem nearest_sixPlaces_error {q : ℚ} (hq : lib.doubles.Keeps q) :
    |(millionths q : ℚ) / 1000000 - lib.doubles.nearest ((millionths q : ℚ) / 1000000)|
      ≤ |((millionths q : ℚ) / 1000000 - |q|)| := by
  have habs : lib.doubles.Keeps |q| := by
    rw [Rounding.Keeps, lib.doubles.nearest_abs, hq]
  exact habs.closest _

variable (lib) in
theorem nearest_millionths_nonneg (m : ℕ) : 0 ≤ lib.doubles.nearest ((m : ℚ) / 1000000) :=
  lib.doubles.nearest_nonneg (by positivity)

theorem millionths_neg (q : ℚ) : millionths (-q) = millionths q := by
  rw [millionths, millionths, abs_neg]

/-- The double that six decimals are read as is printed with these decimals. -/
theorem millionths_nearest {q : ℚ} (hq : lib.doubles.Keeps q) :
    millionths (lib.doubles.nearest ((millionths q : ℚ) / 1000000)) = millionths q := by
  have hpos : (0 : ℚ) < 1000000 := by norm_num
  have hscale : ∀ x : ℚ, |x * 1000000 - millionths q|
      = |(millionths q : ℚ) / 1000000 - x| * 1000000 := by
    intro x
    rw [← abs_of_pos hpos, ← abs_mul, abs_of_pos hpos, abs_sub_comm]
    congr 1
    field_simp
  have hnear := mul_le_mul_of_nonneg_right (nearest_sixPlaces_error hq) hpos.le
  rw [← hscale, ← hscale] at hnear
  rw [millionths, abs_of_nonneg (nearest_millionths_nonneg lib _)]
  exact roundHalfEven_of_nearer (by positivity)
    (mul_nonneg (nearest_millionths_nonneg lib _) hpos.le) hnear

variable (lib) in
/-- What six decimals are read as is an integer where doubles cannot tell it from one. -/
theorem nearest_integer {z i : ℤ} (h : |lib.doubles.nearest (z / 1000000) - i| < closeness) :
    lib.doubles.nearest (z / 1000000) = i := by
  have hone : closeness < 1 := by norm_num [closeness, epsilon]
  have hint : lib.doubles.nearest i = i :=
    lib.doubles.integers _ (lib.doubles.keeps_nearest _) i (h.trans hone)
  have hsame := lib.doubles.apart z (i * 1000000)
    (by rwa [decimal_of_integer, hint])
  rwa [decimal_of_integer, hint] at hsame

theorem rounded_of_keeps {q : ℚ} (h : lib.doubles.Keeps q) :
    rounded lib (.finite q) = .finite q := by
  have habs : lib.doubles.nearest |q| = |q| := by rw [lib.doubles.nearest_abs, h]
  rw [rounded, habs, withSign]
  rcases lt_trichotomy q 0 with hneg | rfl | hpos
  · simp [hneg, hneg.ne, abs_of_neg hneg]
  · simp
  · simp [hpos.ne', hpos.le, abs_of_pos hpos]

theorem rounded_withSign {q : ℚ} (h : 0 ≤ q) (negative : Bool) :
    rounded lib (withSign negative (.finite q))
      = withSign negative (.finite (lib.doubles.nearest q)) := by
  rcases h.eq_or_lt with rfl | hpos
  · have hzero : lib.doubles.nearest 0 = 0 := lib.doubles.keeps_zero
    cases negative <;> simp [withSign, rounded, hzero]
  · rw [withSign, if_neg hpos.ne']
    cases negative with
    | false => simp [rounded, abs_of_pos hpos, not_lt.mpr hpos.le]
    | true => simp [rounded, abs_of_pos hpos, hpos]

variable (lib) in
/-- Only zero loses more than the number: which of the two zeros it is. -/
theorem rounded_finite (q : ℚ) : rounded lib (.finite q) = .negZero ∧ lib.doubles.nearest q = 0 ∨
    rounded lib (.finite q) = .finite (lib.doubles.nearest q) := by
  have habs := lib.doubles.nearest_abs q
  rw [rounded, withSign]
  by_cases hzero : lib.doubles.nearest |q| = 0
  · have hnearest : lib.doubles.nearest q = 0 := abs_eq_zero.mp (habs.symm.trans hzero)
    rw [if_pos hzero, hnearest]
    by_cases hneg : q < 0
    · exact Or.inl ⟨if_pos (decide_eq_true hneg), rfl⟩
    · exact Or.inr (if_neg (by rwa [decide_eq_true_eq]))
  · rw [if_neg hzero]
    rcases lt_or_ge q 0 with hneg | hnonneg
    · have hsign := lib.doubles.neg q
      rw [if_pos (decide_eq_true hneg), abs_of_neg hneg, hsign, neg_neg]
      exact Or.inr rfl
    · rw [if_neg (by rw [decide_eq_true_eq]; exact not_lt.mpr hnonneg), abs_of_nonneg hnonneg]
      exact Or.inr rfl

theorem finiteValue_rounded {d : Double} {q : ℚ} (h : finiteValue d = some q) :
    finiteValue (rounded lib d) = some (lib.doubles.nearest q) := by
  have hzero : lib.doubles.nearest 0 = 0 := lib.doubles.keeps_zero
  cases d with
  | finite r =>
    obtain rfl := Option.some.inj h
    rcases rounded_finite lib r with ⟨hvalue, hnearest⟩ | hvalue
    · rw [hvalue, hnearest]
      rfl
    · rw [hvalue]
      rfl
  | negZero =>
    obtain rfl := Option.some.inj h
    rw [hzero]
    rfl
  | nan => cases h
  | posInf => cases h
  | negInf => cases h

theorem rounded_of_not_finite {d : Double} (h : finiteValue d = none) : rounded lib d = d := by
  cases d with
  | finite q => cases h
  | negZero => cases h
  | nan => rfl
  | posInf => rfl
  | negInf => rfl

theorem reread_of_not_finite {d : Double} (h : finiteValue d = none) : reread lib d = d := by
  cases d with
  | finite q => cases h
  | negZero => cases h
  | nan => rfl
  | posInf => rfl
  | negInf => rfl

theorem isDouble_withSign {q : ℚ} (h : lib.doubles.Keeps q) (negative : Bool) :
    IsDouble lib (withSign negative (.finite q)) := by
  intro x hx
  rw [withSign] at hx
  split at hx
  next =>
    have hzero : x = 0 := by
      cases negative with
      | false => exact (Option.some.inj hx).symm
      | true => exact (Option.some.inj hx).symm
    rw [hzero]
    exact lib.doubles.keeps_zero
  next =>
    obtain rfl := Option.some.inj hx
    cases negative with
    | false => exact h
    | true => exact h.neg

theorem isDouble_reading (r : Reading) (negative : Bool) :
    IsDouble lib (withSign negative (r.rounded lib)) := by
  cases r with
  | nan =>
    intro q hq
    cases hq
  | infinite =>
    intro q hq
    cases negative <;> cases hq
  | finite q => exact isDouble_withSign (lib.doubles.keeps_nearest q) negative

theorem isDouble_stod {s : Text} {d : Double} (h : stod lib s = .ok d) : IsDouble lib d := by
  simp only [stod] at h
  split at h
  next => cases h
  next r _ =>
    split at h
    next => cases h
    next =>
      rw [← Except.ok.inj h]
      exact isDouble_reading r _

theorem isDouble_fromChars {s : Text} {d : Double} (h : fromChars lib s = some d) :
    IsDouble lib d := by
  simp only [fromChars] at h
  split at h
  next => cases h
  next r _ =>
    split at h
    next => cases h
    next =>
      rw [← Option.some.inj h]
      exact isDouble_reading r _

theorem isDouble_toDouble {s : Text} {d : Double} (h : toDouble lib s = .ok d) :
    IsDouble lib d := by
  rw [toDouble] at h
  split at h
  next => exact isDouble_stod h
  next =>
    split at h
    next e he =>
      rw [← Except.ok.inj h]
      exact isDouble_fromChars he
    next => cases h

variable (lib) in
theorem finiteValue_reread {d : Double} {q : ℚ} (h : finiteValue d = some q) :
    ∃ r, finiteValue (reread lib d) = some r := by
  obtain ⟨r, hr⟩ := finiteValue_printedNumber h
  exact ⟨_, finiteValue_rounded hr⟩

theorem reread_finite_one : reread lib (.finite 1) = .finite 1 := by
  have hprinted : printedNumber (.finite 1) = .finite 1 := by decide +kernel
  rw [reread, hprinted, rounded_of_keeps lib.doubles.one]

variable (lib) in
theorem reread_sixPlaces {q : ℚ}
    (hint : ¬ equals (.finite q) (.finite (toInt64 (.finite q))) = true) :
    reread lib (.finite q) = withSign (decide (q < 0))
      (.finite (lib.doubles.nearest ((millionths q : ℚ) / 1000000))) := by
  rw [reread, printedNumber, if_neg hint, sixPlaces, rounded_withSign (by positivity)]

theorem near_integer {negative : Bool} {q : ℚ} {i : ℤ}
    (h : equals (withSign negative (.finite q)) (.finite i) = true) :
    ∃ j : ℤ, |q - j| < closeness := by
  obtain ⟨x, y, hx, hy, hclose⟩ := equals_iff.mp h
  obtain rfl := Option.some.inj hy
  rw [withSign] at hx
  split at hx
  next hzero =>
    refine ⟨0, ?_⟩
    rw [hzero, Int.cast_zero, sub_self, abs_zero]
    exact closeness_pos
  next =>
    obtain rfl := Option.some.inj hx
    cases negative with
    | false => exact ⟨i, hclose⟩
    | true =>
      refine ⟨-i, ?_⟩
      rw [if_pos rfl, ← neg_add', abs_neg] at hclose
      rwa [Int.cast_neg, sub_neg_eq_add]

/-- Where six decimals are an integer, this is the double that they are read as. -/
theorem nearest_of_roundsAway {q : ℚ} (hq : lib.doubles.Keeps q) (h : RoundsAway (.finite q)) :
    lib.doubles.nearest ((millionths q : ℚ) / 1000000) = (millionths q : ℚ) / 1000000 := by
  obtain ⟨j, hj⟩ := near_integer h.2
  have hsix : (((millionths q : ℤ) : ℚ)) / 1000000 = j :=
    decimal_integer (hj.trans closeness_lt_decimal)
  have habs : lib.doubles.nearest |q| = |q| := by rw [lib.doubles.nearest_abs, hq]
  have herror := sixPlaces_error q
  rw [Int.cast_natCast] at hsix
  rw [hsix] at herror ⊢
  refine lib.doubles.integers |q| habs j ?_
  rw [abs_sub_comm]
  exact lt_of_le_of_lt herror (by norm_num)

/-- And if they are read as an integer, they are one. -/
theorem nearest_of_integer {q : ℚ} (hq : lib.doubles.Keeps q) {negative : Bool} {i : ℤ}
    (h : equals (withSign negative (.finite (lib.doubles.nearest ((millionths q : ℚ) / 1000000))))
      (.finite i) = true) :
    lib.doubles.nearest ((millionths q : ℚ) / 1000000) = (millionths q : ℚ) / 1000000 := by
  obtain ⟨j, hj⟩ := near_integer h
  have hnearest : lib.doubles.nearest ((millionths q : ℤ) / 1000000) = j :=
    nearest_integer lib (by rwa [Int.cast_natCast])
  rw [Int.cast_natCast] at hnearest
  have herror := (nearest_sixPlaces_error hq).trans (sixPlaces_error q)
  rw [hnearest] at herror ⊢
  have hsix : ((millionths q : ℤ) : ℚ) / 1000000 = j :=
    decimal_integer (by rw [Int.cast_natCast]; exact lt_of_le_of_lt herror (by norm_num))
  rw [← hsix, Int.cast_natCast]

theorem not_integer_of_stays {q : ℚ} (hq : lib.doubles.Keeps q)
    (hint : ¬ equals (.finite q) (.finite (toInt64 (.finite q))) = true)
    (haway : ¬ RoundsAway (.finite q)) :
    ¬ equals (reread lib (.finite q)) (.finite (toInt64 (reread lib (.finite q)))) = true := by
  intro hi
  have hreread := reread_sixPlaces lib hint
  have hnearest : lib.doubles.nearest ((millionths q : ℚ) / 1000000)
      = (millionths q : ℚ) / 1000000 := by
    rw [hreread] at hi
    exact nearest_of_integer hq hi
  rw [hnearest] at hreread
  have hsix : reread lib (.finite q) = sixPlaces (.finite q) := hreread
  rw [hsix] at hi
  exact haway ⟨Bool.eq_false_of_not_eq_true hint, hi⟩

/-- A number that does not round away keeps its sign and its six decimals. -/
theorem reread_stays {q : ℚ} (hq : lib.doubles.Keeps q)
    (hint : ¬ equals (.finite q) (.finite (toInt64 (.finite q))) = true)
    (haway : ¬ RoundsAway (.finite q)) :
    ∃ x, reread lib (.finite q) = .finite x ∧ decide (x < 0) = decide (q < 0) ∧
      millionths x = millionths q := by
  have hreread := reread_sixPlaces lib hint
  have hnonneg := nearest_millionths_nonneg lib (millionths q)
  have hmillionths := millionths_nearest hq
  have hne : lib.doubles.nearest ((millionths q : ℚ) / 1000000) ≠ 0 := by
    intro hzero
    have hall : ∀ negative, equals (withSign negative (.finite 0))
        (.finite (toInt64 (withSign negative (.finite 0)))) = true := by decide +kernel
    have hnot := not_integer_of_stays hq hint haway
    rw [hreread, hzero] at hnot
    exact hnot (hall _)
  have hpos := lt_of_le_of_ne hnonneg hne.symm
  rw [hreread, withSign, if_neg hne]
  by_cases hneg : q < 0
  · rw [if_pos (decide_eq_true hneg)]
    exact ⟨_, rfl, by simp [hneg, hpos], (millionths_neg _).trans hmillionths⟩
  · rw [if_neg (by rwa [decide_eq_true_eq])]
    exact ⟨_, rfl, by simp [hneg, not_lt.mpr hnonneg], hmillionths⟩

section Kept

variable {d : Double} (hd : IsDouble lib d)
include hd

/-- The integer that a double is printed as is a double. -/
theorem reread_integer (hint : equals d (.finite (toInt64 d)) = true) :
    reread lib d = .finite (toInt64 d) := by
  obtain ⟨x, y, hx, hy, hclose⟩ := equals_iff.mp hint
  obtain rfl := Option.some.inj hy
  have hone : closeness < 1 := by norm_num [closeness, epsilon]
  have hkeeps := lib.doubles.integers x (hd x hx) _ (hclose.trans hone)
  rw [reread, printedNumber, if_pos hint, rounded_of_keeps hkeeps]

theorem reread_of_roundsAway {q : ℚ} (h : finiteValue d = some q) (haway : RoundsAway d) :
    reread lib d = printedNumber d := by
  have hint : ¬ equals d (.finite (toInt64 d)) = true := by simp [haway.1]
  obtain ⟨r, rfl⟩ := finite_of_not_integer h hint
  rw [reread_sixPlaces lib hint, nearest_of_roundsAway (hd r rfl) haway, printedNumber, if_neg hint,
    sixPlaces]

/-- Printing the reread number gives another text exactly when six decimals are an integer
that the number is not. -/
theorem numberText_reread {q : ℚ} (h : finiteValue d = some q) :
    numberText (reread lib d) = numberText d ↔ ¬ RoundsAway d := by
  by_cases hint : equals d (.finite (toInt64 d)) = true
  · have hagain : equals (.finite (toInt64 d)) (.finite (toInt64 (.finite (toInt64 d))))
        = true := by
      rw [toInt64_toInt64]
      exact equals_self _
    have htext : numberText (.finite (toInt64 d)) = int64ToString (toInt64 d) := by
      rw [numberText, if_pos hagain, toInt64_toInt64]
    rw [reread_integer hd hint, htext, numberText, if_pos hint]
    simp [RoundsAway, hint]
  · by_cases haway : RoundsAway d
    · rw [reread_of_roundsAway hd h haway, printedNumber, if_neg hint, numberText,
        if_pos haway.2, numberText, if_neg hint]
      obtain ⟨r, rfl⟩ := finite_of_not_integer h hint
      exact iff_of_false (int64ToString_ne_doubleToString _ _) (not_not_intro haway)
    · obtain ⟨r, rfl⟩ := finite_of_not_integer h hint
      have hnot := not_integer_of_stays (hd r rfl) hint haway
      obtain ⟨x, hx, hsign, hmillionths⟩ := reread_stays (hd r rfl) hint haway
      rw [hx] at hnot ⊢
      rw [numberText, if_neg hnot, numberText, if_neg hint, doubleToString_finite,
        doubleToString_finite, hsign, hmillionths]
      exact iff_of_true rfl haway

/-- Printing a number that was read back loses nothing more. -/
theorem printedNumber_reread {q : ℚ} (h : finiteValue d = some q)
    (hzero : reread lib d ≠ .negZero) : printedNumber (reread lib d) = printedNumber d := by
  by_cases hint : equals d (.finite (toInt64 d)) = true
  · have hagain : equals (.finite (toInt64 d)) (.finite (toInt64 (.finite (toInt64 d))))
        = true := by
      rw [toInt64_toInt64]
      exact equals_self _
    rw [reread_integer hd hint, printedNumber, if_pos hagain, toInt64_toInt64, printedNumber,
      if_pos hint]
  · by_cases haway : RoundsAway d
    · rw [reread_of_roundsAway hd h haway] at hzero ⊢
      obtain ⟨z, hz⟩ := (printedNumber_cases h).resolve_left hzero
      rw [hz, printedNumber_sixDecimals]
    · obtain ⟨r, rfl⟩ := finite_of_not_integer h hint
      have hnot := not_integer_of_stays (hd r rfl) hint haway
      obtain ⟨x, hx, hsign, hmillionths⟩ := reread_stays (hd r rfl) hint haway
      rw [hx] at hnot ⊢
      rw [printedNumber, if_neg hnot, printedNumber, if_neg hint, sixPlaces, sixPlaces, hsign,
        hmillionths]

theorem reread_reread {q : ℚ} (h : finiteValue d = some q) (hzero : reread lib d ≠ .negZero) :
    reread lib (reread lib d) = reread lib d := by
  rw [reread, printedNumber_reread hd h hzero, ← reread]

/-- Minus zero is printed for numbers that are not integers only. -/
theorem roundsAway_of_negZero {q : ℚ} (h : finiteValue d = some q)
    (hzero : reread lib d = .negZero) : RoundsAway d := by
  by_contra hnot
  have hint : ¬ equals d (.finite (toInt64 d)) = true := by
    intro hint
    rw [reread_integer hd hint] at hzero
    cases hzero
  obtain ⟨r, rfl⟩ := finite_of_not_integer h hint
  obtain ⟨x, hx, -⟩ := reread_stays (hd r rfl) hint hnot
  rw [hx] at hzero
  cases hzero

/-- Minus zero is printed as the other zero. -/
theorem finiteValue_printedNumber_reread {q : ℚ} (h : finiteValue d = some q) :
    finiteValue (printedNumber (reread lib d)) = finiteValue (printedNumber d) := by
  by_cases hzero : reread lib d = .negZero
  · have haway := roundsAway_of_negZero hd h hzero
    rw [hzero, ← reread_of_roundsAway hd h haway, hzero]
    decide +kernel
  · rw [printedNumber_reread hd h hzero]

theorem finiteValue_reread_reread {q : ℚ} (h : finiteValue d = some q) :
    finiteValue (reread lib (reread lib d)) = finiteValue (reread lib d) := by
  obtain ⟨r, hr⟩ := finiteValue_printedNumber h
  have hagain := (finiteValue_printedNumber_reread hd h).trans hr
  rw [reread, finiteValue_rounded hagain, reread, finiteValue_rounded hr]

/-- What was printed does not round away again. -/
theorem not_roundsAway_reread {q : ℚ} (h : finiteValue d = some q) :
    ¬ RoundsAway (reread lib d) := by
  intro haway
  have hinteger : ∀ i : ℤ, toInt64 (.finite i) = i → ¬ RoundsAway (.finite i) := by
    rintro i hi ⟨hint, -⟩
    rw [hi, equals_self] at hint
    cases hint
  by_cases hint : equals d (.finite (toInt64 d)) = true
  · rw [reread_integer hd hint] at haway
    exact hinteger _ (toInt64_toInt64 d) haway
  · by_cases hgone : RoundsAway d
    · rw [reread_of_roundsAway hd h hgone] at haway
      have hnot : ¬ equals (printedNumber d) (.finite (toInt64 (printedNumber d))) = true := by
        simp [haway.1]
      rw [printedNumber, if_neg hint] at hnot
      exact hnot hgone.2
    · obtain ⟨r, rfl⟩ := finite_of_not_integer h hint
      obtain ⟨x, hx, hsign, hmillionths⟩ := reread_stays (hd r rfl) hint hgone
      rw [hx] at haway
      have hsame : sixPlaces (.finite x) = sixPlaces (.finite r) := by
        rw [sixPlaces, sixPlaces, hsign, hmillionths]
      have hsix := haway.2
      rw [hsame] at hsix
      exact hgone ⟨Bool.eq_false_of_not_eq_true hint, hsix⟩

end Kept

/-- A number that is as good as minus zero is printed as an integer. -/
theorem reread_ne_negZero {d : Double} (h : equals (reread lib d) d = true) :
    reread lib d ≠ .negZero := by
  intro hzero
  rw [hzero] at h
  obtain ⟨x, q, hx, hq, hclose⟩ := equals_iff.mp h
  obtain rfl := Option.some.inj hx
  rw [zero_sub, abs_neg] at hclose
  have hsmall : |q| < 1 := hclose.trans (by norm_num [closeness, epsilon])
  have hint : equals d (.finite (toInt64 d)) = true := by
    rw [toInt64_of_small hq hsmall, equals_iff]
    exact ⟨q, 0, hq, by simp [finiteValue], by simpa using hclose⟩
  have hkeeps : lib.doubles.Keeps ((0 : ℤ) : ℚ) := by
    rw [Int.cast_zero]
    exact lib.doubles.keeps_zero
  rw [reread, printedNumber, if_pos hint, toInt64_of_small hq hsmall,
    rounded_of_keeps hkeeps] at hzero
  cases hzero

variable (lib) in
/-- A finite number is read back as six decimals are, the zero of negative numbers apart. -/
theorem reread_cases {d : Double} {q : ℚ} (h : finiteValue d = some q) :
    reread lib d = .negZero ∨
      ∃ z : ℤ, reread lib d = .finite (lib.doubles.nearest (z / 1000000)) := by
  rw [reread]
  rcases printedNumber_cases h with hzero | ⟨z, hz⟩
  · rw [hzero]
    exact Or.inl rfl
  · rw [hz]
    rcases rounded_finite lib ((z : ℚ) / 1000000) with ⟨hvalue, -⟩ | hvalue
    · exact Or.inl hvalue
    · exact Or.inr ⟨z, hvalue⟩

/-- A number that rereads as good as one rereads as one. -/
theorem reread_one {d : Double} (h : equals (reread lib d) (.finite 1) = true) :
    reread lib d = .finite 1 := by
  obtain ⟨x, y, hx, hy, hclose⟩ := equals_iff.mp h
  obtain rfl := Option.some.inj hy
  cases hd : finiteValue d with
  | none =>
    rw [reread_of_not_finite hd, hd] at hx
    cases hx
  | some q =>
    rcases reread_cases lib hd with hzero | ⟨z, hz⟩
    · rw [hzero] at h
      have hfar : equals .negZero (.finite 1) = false := by decide +kernel
      rw [hfar] at h
      cases h
    · rw [hz] at hx ⊢
      obtain rfl := Option.some.inj hx
      have hone := nearest_integer lib (z := z) (i := 1) (by rwa [Int.cast_one])
      rw [hone, Int.cast_one]

end Rereading

end CppNumbers
