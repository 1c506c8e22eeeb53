import Mathlib.Algebra.Order.Field.Rat
import Mathlib.Data.Bool.AllAny
import Mathlib.Tactic.FieldSimp
import Mathlib.Tactic.Positivity
import Mathlib.Tactic.Ring

/-! # Positional numerals

Reading takes the longest numeral a text starts with: digits with an optional point and an
optional exponent. Numbers are exact. -/
namespace Numerals

/-- The value of a digit or letter; other characters are beyond every base. -/
def digitValue (c : Char) : ℕ :=
  if '0' ≤ c ∧ c ≤ '9' then c.toNat - 48
  else if 'a' ≤ c ∧ c ≤ 'z' then c.toNat - 87
  else if 'A' ≤ c ∧ c ≤ 'Z' then c.toNat - 55
  else 36

def isDigit (base : ℕ) (c : Char) : Bool := decide (digitValue c < base)

def ofDigits (base : ℕ) (cs : List Char) : ℕ := cs.foldl (fun n c => base * n + digitValue c) 0

structure Radix where
  base : ℕ
  exponentMarks : List Char
  exponentBase : ℕ

def decimal : Radix := ⟨10, ['e', 'E'], 10⟩

def hexadecimal : Radix := ⟨16, ['p', 'P'], 2⟩

/-- An integer with an optional sign; without digits it is zero. -/
def readInteger : List Char → ℤ
  | '-' :: t => -(ofDigits 10 (t.takeWhile (isDigit 10)) : ℤ)
  | '+' :: t => ofDigits 10 (t.takeWhile (isDigit 10))
  | t => ofDigits 10 (t.takeWhile (isDigit 10))

def readExponent (marks : List Char) : List Char → ℤ
  | [] => 0
  | c :: s => if c ∈ marks then readInteger s else 0

/-- `m * b ^ e`. -/
def scale (m b : ℕ) : ℤ → ℚ
  | .ofNat n => ((m * b ^ n : ℕ) : ℚ)
  | .negSucc n => (m : ℚ) / ((b ^ (n + 1) : ℕ) : ℚ)

/-- The digits after the point, and what follows them. -/
def splitPoint (base : ℕ) : List Char → List Char × List Char
  | [] => ([], [])
  | c :: s =>
    if c = '.' then (s.takeWhile (isDigit base), s.dropWhile (isDigit base))
    else ([], c :: s)

def readDigits (r : Radix) (s : List Char) : Option ℚ :=
  let whole := s.takeWhile (isDigit r.base)
  let point := splitPoint r.base (s.dropWhile (isDigit r.base))
  if whole = [] ∧ point.1 = [] then none
  else
    let digits := ofDigits r.base (whole ++ point.1)
    some (scale digits r.exponentBase (readExponent r.exponentMarks point.2)
      / ((r.base ^ point.1.length : ℕ) : ℚ))

def padded : ℕ → ℕ → List Char
  | 0, _ => []
  | width + 1, n => padded width (n / 10) ++ [Nat.digitChar (n % 10)]

/-- The number `k / 10 ^ places` with all its places. -/
def fixedPoint (places k : ℕ) : List Char :=
  Nat.toDigits 10 (k / 10 ^ places) ++ '.' :: padded places (k % 10 ^ places)

/-- To the nearest natural number, from half way to the even one. -/
def roundHalfEven (q : ℚ) : ℕ :=
  let n := q.num.natAbs / q.den
  let r := q.num.natAbs % q.den
  if 2 * r < q.den then n
  else if q.den < 2 * r then n + 1
  else n + n % 2

theorem digitValue_digitChar {n : ℕ} (h : n < 10) : digitValue (Nat.digitChar n) = n := by
  have hall : ∀ m < 10, digitValue (Nat.digitChar m) = m := by decide
  exact hall n h

/-- What holds of the ten digits holds of every character that is read as one. -/
theorem forall_digit {P : Char → Prop} (h : ∀ n < 10, P (Char.ofNat (48 + n))) {c : Char}
    (hc : isDigit 10 c = true) : P c := by
  have hbounds : 48 ≤ c.toNat ∧ c.toNat < 58 := by
    have hlt : digitValue c < 10 := of_decide_eq_true hc
    rw [digitValue] at hlt
    split at hlt
    next hdigit =>
      have hlow : 48 ≤ c.toNat := hdigit.1
      omega
    next =>
      split at hlt
      next hletter =>
        have hlow : 97 ≤ c.toNat := hletter.1
        omega
      next =>
        split at hlt
        next hletter =>
          have hlow : 65 ≤ c.toNat := hletter.1
          omega
        next => omega
  have hn := h (c.toNat - 48) (by omega)
  rwa [Nat.add_sub_cancel' hbounds.1, Char.ofNat_toNat] at hn

theorem isDigit_of_char {c : Char} (h : c.isDigit = true) : isDigit 10 c = true := by
  simp only [Char.isDigit, Bool.and_eq_true, decide_eq_true_eq, ge_iff_le] at h
  have hle : '0' ≤ c ∧ c ≤ '9' := h
  have hnine : c.toNat ≤ '9'.toNat := h.2
  have hvalue : digitValue c = c.toNat - 48 := if_pos hle
  simp only [isDigit, hvalue, decide_eq_true_eq]
  have : '9'.toNat = 57 := rfl
  omega

theorem isDigit_toDigits {n : ℕ} {c : Char} (h : c ∈ Nat.toDigits 10 n) : isDigit 10 c = true :=
  isDigit_of_char (Nat.isDigit_of_mem_toDigits (by decide) (by decide) h)

theorem length_padded (width n : ℕ) : (padded width n).length = width := by
  induction width generalizing n with
  | zero => rfl
  | succ width ih => simp [padded, ih]

theorem isDigit_padded {width n : ℕ} {c : Char} (h : c ∈ padded width n) : isDigit 10 c = true := by
  induction width generalizing n with
  | zero => simp [padded] at h
  | succ width ih =>
    rw [padded, List.mem_append, List.mem_singleton] at h
    rcases h with h | rfl
    · exact ih h
    · have hlt : n % 10 < 10 := Nat.mod_lt n (by decide)
      simpa [isDigit, digitValue_digitChar hlt] using hlt

theorem ofDigits_append (base : ℕ) (xs ys : List Char) :
    ofDigits base (xs ++ ys) = ofDigits base xs * base ^ ys.length + ofDigits base ys := by
  have hfold : ∀ (zs : List Char) (init : ℕ), zs.foldl (fun n c => base * n + digitValue c) init
      = init * base ^ zs.length + ofDigits base zs := by
    intro zs
    induction zs with
    | nil => intro init; simp [ofDigits]
    | cons z zs ih =>
      intro init
      rw [ofDigits, List.foldl_cons, List.foldl_cons, ih, ih (base * 0 + digitValue z),
        List.length_cons, pow_succ]
      ring
  rw [ofDigits, List.foldl_append, hfold]
  rfl

theorem ofDigits_toDigits (n : ℕ) : ofDigits 10 (Nat.toDigits 10 n) = n := by
  have hfold : ∀ (cs : List Char) (init : ℕ), (∀ c ∈ cs, c.isDigit = true) →
      cs.foldl (fun n c => 10 * n + digitValue c) init = Nat.ofDigitChars 10 cs init := by
    intro cs
    induction cs with
    | nil => intro init _; simp
    | cons c cs ih =>
      intro init h
      have hc := h c List.mem_cons_self
      simp only [Char.isDigit, Bool.and_eq_true, decide_eq_true_eq, ge_iff_le] at hc
      have hvalue : digitValue c = c.toNat - 48 := if_pos hc
      rw [List.foldl_cons, ih _ fun d hd => h d (List.mem_cons_of_mem c hd), Nat.ofDigitChars_cons,
        hvalue]
      rfl
  rw [ofDigits, hfold _ _ fun c hc => Nat.isDigit_of_mem_toDigits (by decide) (by decide) hc,
    Nat.ofDigitChars_ten_toDigits]

theorem ofDigits_padded {width n : ℕ} (h : n < 10 ^ width) : ofDigits 10 (padded width n) = n := by
  induction width generalizing n with
  | zero => simp at h; subst h; rfl
  | succ width ih =>
    have hlt : n % 10 < 10 := Nat.mod_lt n (by decide)
    have hdigit : ofDigits 10 [Nat.digitChar (n % 10)] = n % 10 := by
      simp [ofDigits, digitValue_digitChar hlt]
    rw [pow_succ] at h
    rw [padded, ofDigits_append, ih (by omega), hdigit]
    simp
    omega

/-- What may follow a numeral without being read as a part of it. -/
def EndsNumeral (tail : List Char) : Prop :=
  ∀ c ∈ tail.head?, isDigit 10 c = false ∧ c ≠ '.' ∧ c ∉ decimal.exponentMarks

theorem takeWhile_digits {cs tail : List Char} (h : ∀ c ∈ cs, isDigit 10 c = true)
    (ht : ∀ c ∈ tail.head?, isDigit 10 c = false) :
    (cs ++ tail).takeWhile (isDigit 10) = cs ∧ (cs ++ tail).dropWhile (isDigit 10) = tail := by
  rw [List.takeWhile_append_of_pos h, List.dropWhile_append_of_pos h]
  cases tail with
  | nil => simp
  | cons c tail =>
    have hc := ht c rfl
    rw [List.takeWhile_cons_of_neg (by simp [hc]), List.dropWhile_cons_of_neg (by simp [hc])]
    exact ⟨List.append_nil cs, rfl⟩

theorem readExponent_ends {tail : List Char} (h : EndsNumeral tail) :
    readExponent decimal.exponentMarks tail = 0 := by
  cases tail with
  | nil => rfl
  | cons c tail => rw [readExponent, if_neg (h c rfl).2.2]

theorem readDigits_toDigits (n : ℕ) {tail : List Char} (h : EndsNumeral tail) :
    readDigits decimal (Nat.toDigits 10 n ++ tail) = some n := by
  obtain ⟨hwhole, hrest⟩ := takeWhile_digits (fun c hc => isDigit_toDigits (n := n) hc)
    (fun c hc => (h c hc).1)
  have hpoint : splitPoint 10 tail = ([], tail) := by
    cases tail with
    | nil => rfl
    | cons c tail => rw [splitPoint, if_neg (h c rfl).2.1]
  have hne : Nat.toDigits 10 n ≠ [] := Nat.toDigits_ne_nil
  have hbase : decimal.base = 10 := rfl
  simp only [readDigits, hbase, hwhole, hrest, hpoint, readExponent_ends h, hne, false_and,
    if_false, List.append_nil, ofDigits_toDigits, List.length_nil, pow_zero, Nat.cast_one, div_one]
  simp [scale]

theorem readDigits_fixedPoint (places k : ℕ) {tail : List Char} (h : EndsNumeral tail) :
    readDigits decimal (fixedPoint places k ++ tail) = some ((k : ℚ) / 10 ^ places) := by
  have hstop : ∀ c ∈ ('.' :: (padded places (k % 10 ^ places) ++ tail)).head?, isDigit 10 c
      = false := by
    intro c hc
    obtain rfl : '.' = c := by simpa using hc
    decide
  have hwhole := takeWhile_digits (fun c hc => isDigit_toDigits (n := k / 10 ^ places) hc) hstop
  have hfraction := takeWhile_digits
    (fun c (hc : c ∈ padded places (k % 10 ^ places)) => isDigit_padded hc) (fun c hc => (h c hc).1)
  have hsplit : fixedPoint places k ++ tail
      = Nat.toDigits 10 (k / 10 ^ places) ++ '.' :: (padded places (k % 10 ^ places) ++ tail) := by
    simp [fixedPoint]
  have hne : Nat.toDigits 10 (k / 10 ^ places) ≠ [] := Nat.toDigits_ne_nil
  have hmod : k % 10 ^ places < 10 ^ places := Nat.mod_lt k (Nat.pow_pos (by decide))
  have hdigits : ofDigits 10 (Nat.toDigits 10 (k / 10 ^ places) ++ padded places (k % 10 ^ places))
      = k := by
    rw [ofDigits_append, ofDigits_toDigits, ofDigits_padded hmod, length_padded]
    exact Nat.div_add_mod' k (10 ^ places)
  have hbase : decimal.base = 10 := rfl
  rw [hsplit]
  simp only [readDigits, hbase, hwhole.1, hwhole.2, splitPoint, if_true, hfraction.1, hfraction.2,
    readExponent_ends h, hne, false_and, if_false, hdigits, length_padded]
  simp [scale]

/-- A printed numeral, and the number it is read as whatever follows it. -/
structure Numeral (body : List Char) (q : ℚ) : Prop where
  starts : ∃ c s, body = c :: s ∧ isDigit 10 c = true
  chars : ∀ c ∈ body, isDigit 10 c = true ∨ c = '.'
  nonneg : 0 ≤ q
  reads : ∀ tail, EndsNumeral tail → readDigits decimal (body ++ tail) = some q

theorem starts_toDigits (n : ℕ) : ∃ c s, Nat.toDigits 10 n = c :: s ∧ isDigit 10 c = true := by
  obtain ⟨c, s, h⟩ := List.exists_cons_of_ne_nil (Nat.toDigits_ne_nil : Nat.toDigits 10 n ≠ [])
  refine ⟨c, s, h, ?_⟩
  apply isDigit_toDigits (n := n)
  rw [h]
  exact List.mem_cons_self

theorem numeral_toDigits (n : ℕ) : Numeral (Nat.toDigits 10 n) n where
  starts := starts_toDigits n
  chars := fun _ hc => Or.inl (isDigit_toDigits hc)
  nonneg := Nat.cast_nonneg n
  reads := fun _ ht => readDigits_toDigits n ht

theorem numeral_fixedPoint (places k : ℕ) :
    Numeral (fixedPoint places k) ((k : ℚ) / 10 ^ places) where
  starts := by
    obtain ⟨c, s, h, hc⟩ := starts_toDigits (k / 10 ^ places)
    refine ⟨c, s ++ '.' :: padded places (k % 10 ^ places), ?_, hc⟩
    rw [fixedPoint, h, List.cons_append]
  chars := by
    intro c hc
    rcases List.mem_append.mp hc with hwhole | hpoint
    · exact Or.inl (isDigit_toDigits hwhole)
    · rcases List.mem_cons.mp hpoint with rfl | hfraction
      · exact Or.inr rfl
      · exact Or.inl (isDigit_padded hfraction)
  nonneg := by positivity
  reads := fun _ ht => readDigits_fixedPoint places k ht

theorem roundHalfEven_natCast (n : ℕ) : roundHalfEven (n : ℚ) = n := by
  simp [roundHalfEven, Nat.mod_one]

end Numerals
