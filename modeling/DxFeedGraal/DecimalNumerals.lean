import DxFeedGraal.Numerals
import Mathlib.Tactic.NormNum

/-! # Decimal numerals

Digits with or without a fraction and an exponent. The number is stated on the parts and
compared with what is read from the text. -/
namespace DecimalNumerals

open Numerals

structure Exponent where
  mark : Char
  sign : List Char
  digits : List Char
  mark_mem : mark ∈ decimal.exponentMarks
  sign_mem : sign ∈ [[], ['+'], ['-']]
  digits_ne : digits ≠ []
  all_digits : ∀ c ∈ digits, isDigit 10 c = true

def Exponent.text (e : Exponent) : List Char := e.mark :: (e.sign ++ e.digits)

def Exponent.value (e : Exponent) : ℤ :=
  if e.sign = ['-'] then -(ofDigits 10 e.digits : ℤ) else ofDigits 10 e.digits

/-- A fraction stands behind a point. Digits may be missing on one side of the point. -/
structure DecimalNumeral where
  whole : List Char
  fraction : Option (List Char)
  exponent : Option Exponent
  digits_ne : whole ++ fraction.getD [] ≠ []
  all_digits : ∀ c ∈ whole ++ fraction.getD [], isDigit 10 c = true

namespace DecimalNumeral

variable (n : DecimalNumeral)

def fractionText : List Char :=
  match n.fraction with
  | none => []
  | some f => '.' :: f

def exponentText : List Char :=
  match n.exponent with
  | none => []
  | some e => e.text

def exponentValue : ℤ :=
  match n.exponent with
  | none => 0
  | some e => e.value

def text : List Char := n.whole ++ (n.fractionText ++ n.exponentText)

def value : ℚ :=
  (ofDigits 10 n.whole + ofDigits 10 (n.fraction.getD []) / 10 ^ (n.fraction.getD []).length)
    * 10 ^ n.exponentValue

end DecimalNumeral

section Reading

theorem scale_eq (m b : ℕ) (e : ℤ) : scale m b e = m * (b : ℚ) ^ e := by
  cases e with
  | ofNat n => simp [scale]
  | negSucc n => simp [scale, zpow_negSucc, div_eq_mul_inv]

theorem takeWhile_all_digits {cs tail : List Char} (h : ∀ c ∈ cs, isDigit 10 c = true)
    (ht : EndsNumeral tail) : (cs ++ tail).takeWhile (isDigit 10) = cs :=
  (takeWhile_digits h fun c hc => (ht c hc).1).1

theorem readInteger_digits {cs tail : List Char} (hne : cs ≠ [])
    (h : ∀ c ∈ cs, isDigit 10 c = true) (ht : EndsNumeral tail) :
    readInteger (cs ++ tail) = ofDigits 10 cs := by
  obtain ⟨c, rest, rfl⟩ := List.exists_cons_of_ne_nil hne
  have hc := h c List.mem_cons_self
  have hsign : c ≠ '-' ∧ c ≠ '+' :=
    forall_digit (P := fun c => c ≠ '-' ∧ c ≠ '+') (by decide) hc
  have htake := takeWhile_all_digits h ht
  rw [List.cons_append] at htake ⊢
  rw [readInteger, htake]
  · exact fun s hs => hsign.1 (List.cons.inj hs).1
  · exact fun s hs => hsign.2 (List.cons.inj hs).1

theorem Exponent.reads (e : Exponent) {tail : List Char} (ht : EndsNumeral tail) :
    readExponent decimal.exponentMarks (e.text ++ tail) = e.value := by
  have htake := takeWhile_all_digits e.all_digits ht
  rw [Exponent.text, List.cons_append, readExponent, if_pos e.mark_mem, Exponent.value,
    List.append_assoc]
  have hsign := e.sign_mem
  simp only [List.mem_cons, List.not_mem_nil, or_false] at hsign
  rcases hsign with hnone | hplus | hminus
  · rw [hnone, List.nil_append, readInteger_digits e.digits_ne e.all_digits ht]
    simp
  · rw [hplus, List.cons_append, List.nil_append, readInteger, htake]
    simp
  · rw [hminus, List.cons_append, List.nil_append, readInteger, htake]
    simp

variable (n : DecimalNumeral)

theorem readExponent_text {tail : List Char} (ht : EndsNumeral tail) :
    readExponent decimal.exponentMarks (n.exponentText ++ tail) = n.exponentValue := by
  rw [DecimalNumeral.exponentText, DecimalNumeral.exponentValue]
  cases n.exponent with
  | none => exact readExponent_ends ht
  | some e => exact e.reads ht

/-- What stands behind the fraction is neither a digit nor a point. -/
theorem head_exponentText {tail : List Char} (ht : EndsNumeral tail) :
    ∀ c ∈ (n.exponentText ++ tail).head?, isDigit 10 c = false ∧ c ≠ '.' := by
  intro c hc
  rw [DecimalNumeral.exponentText] at hc
  cases hexponent : n.exponent with
  | none =>
    rw [hexponent] at hc
    exact ⟨(ht c hc).1, (ht c hc).2.1⟩
  | some e =>
    rw [hexponent] at hc
    obtain rfl : e.mark = c := by simpa [Exponent.text] using hc
    have hmarks : ∀ m ∈ decimal.exponentMarks, isDigit 10 m = false ∧ m ≠ '.' :=
      List.all_iff_forall_prop.mp (by decide)
    exact hmarks e.mark e.mark_mem

theorem splitPoint_text {tail : List Char} (ht : EndsNumeral tail) :
    splitPoint 10 (n.fractionText ++ (n.exponentText ++ tail))
      = (n.fraction.getD [], n.exponentText ++ tail) := by
  have hhead := head_exponentText n ht
  have hdigits : ∀ c ∈ n.fraction.getD [], isDigit 10 c = true :=
    fun c hc => n.all_digits c (List.mem_append_right n.whole hc)
  rw [DecimalNumeral.fractionText]
  cases hfraction : n.fraction with
  | none =>
    change splitPoint 10 (n.exponentText ++ tail) = ([], n.exponentText ++ tail)
    cases hrest : n.exponentText ++ tail with
    | nil => rfl
    | cons c s =>
      rw [hrest] at hhead
      rw [splitPoint, if_neg (hhead c rfl).2]
  | some f =>
    rw [hfraction] at hdigits
    have htake := takeWhile_digits hdigits fun c hc => (hhead c hc).1
    change splitPoint 10 ('.' :: (f ++ (n.exponentText ++ tail))) = (f, n.exponentText ++ tail)
    rw [splitPoint, if_pos rfl]
    exact Prod.ext htake.1 htake.2

theorem takeWhile_whole {tail : List Char} (ht : EndsNumeral tail) :
    (n.text ++ tail).takeWhile (isDigit 10) = n.whole ∧
      (n.text ++ tail).dropWhile (isDigit 10)
        = n.fractionText ++ (n.exponentText ++ tail) := by
  have hhead : ∀ c ∈ (n.fractionText ++ (n.exponentText ++ tail)).head?, isDigit 10 c = false := by
    intro c hc
    rw [DecimalNumeral.fractionText] at hc
    cases hfraction : n.fraction with
    | none =>
      rw [hfraction] at hc
      exact (head_exponentText n ht c hc).1
    | some f =>
      rw [hfraction] at hc
      obtain rfl : '.' = c := by simpa using hc
      decide
  have hdigits : ∀ c ∈ n.whole, isDigit 10 c = true :=
    fun c hc => n.all_digits c (List.mem_append_left _ hc)
  rw [DecimalNumeral.text, List.append_assoc, List.append_assoc]
  exact takeWhile_digits hdigits hhead

/-- Reading the text gives the number of the numeral, whatever follows. -/
theorem readDigits_text {tail : List Char} (ht : EndsNumeral tail) :
    readDigits decimal (n.text ++ tail) = some n.value := by
  obtain ⟨hwhole, hrest⟩ := takeWhile_whole n ht
  have hbase : decimal.base = 10 ∧ decimal.exponentBase = 10 := ⟨rfl, rfl⟩
  have hne : ¬ (n.whole = [] ∧ n.fraction.getD [] = []) := by
    rintro ⟨hw, hf⟩
    exact n.digits_ne (by rw [hw, hf, List.append_nil])
  simp only [readDigits, hbase.1, hbase.2, hwhole, hrest, splitPoint_text n ht, if_neg hne,
    readExponent_text n ht, scale_eq, ofDigits_append]
  have hpow : ((10 : ℚ) ^ (n.fraction.getD []).length) ≠ 0 := pow_ne_zero _ (by norm_num)
  rw [DecimalNumeral.value]
  push_cast
  congr 1
  field_simp

/-- A numeral starts with a digit or with its point. -/
theorem starts : ∃ c s, n.text = c :: s ∧ (isDigit 10 c = true ∨ c = '.') := by
  rw [DecimalNumeral.text]
  cases hwhole : n.whole with
  | cons c s =>
    have hc := n.all_digits c (by simp [hwhole])
    exact ⟨c, _, rfl, Or.inl hc⟩
  | nil =>
    cases hfraction : n.fraction with
    | none =>
      have hne := n.digits_ne
      rw [hwhole, hfraction] at hne
      exact absurd rfl hne
    | some f =>
      rw [DecimalNumeral.fractionText, hfraction]
      exact ⟨'.', _, rfl, Or.inr rfl⟩

/-- The characters of numerals. -/
def numeralMarks : List Char := ['.', '+', '-', 'e', 'E']

theorem chars : ∀ c ∈ n.text, isDigit 10 c = true ∨ c ∈ numeralMarks := by
  intro c hc
  rw [DecimalNumeral.text, DecimalNumeral.fractionText, DecimalNumeral.exponentText,
    List.mem_append, List.mem_append] at hc
  rcases hc with hwhole | hfraction | hexponent
  · exact Or.inl (n.all_digits c (List.mem_append_left _ hwhole))
  · cases hf : n.fraction with
    | none =>
      rw [hf] at hfraction
      cases hfraction
    | some f =>
      rw [hf] at hfraction
      rcases List.mem_cons.mp hfraction with rfl | hdigit
      · exact Or.inr (by decide)
      · refine Or.inl (n.all_digits c (List.mem_append_right _ ?_))
        rwa [hf]
  · cases he : n.exponent with
    | none =>
      rw [he] at hexponent
      cases hexponent
    | some e =>
      rw [he] at hexponent
      rcases List.mem_cons.mp hexponent with rfl | hbehind
      · have hmarks : ∀ m ∈ decimal.exponentMarks, m ∈ numeralMarks :=
          List.all_iff_forall_prop.mp (by decide)
        exact Or.inr (hmarks e.mark e.mark_mem)
      · rcases List.mem_append.mp hbehind with hsign | hdigit
        · have hsigns : ∀ s ∈ [[], ['+'], ['-']], s ⊆ numeralMarks :=
            List.all_iff_forall_prop.mp (by decide)
          exact Or.inr (hsigns e.sign e.sign_mem hsign)
        · exact Or.inl (e.all_digits c hdigit)

end Reading

end DecimalNumerals
