import Mathlib.Algebra.Order.Field.Rat
import Mathlib.Order.WithBot

/-! # Double-precision values with exact numbers

Finite values are rationals, taken exactly; the two zeros, the infinities and the
single not-a-number value are kept apart. Comparisons are those of IEEE 754. -/
namespace DoubleValues

inductive Double where
  | nan
  | negInf
  | negZero
  | finite (q : ℚ)
  | posInf
  deriving DecidableEq

instance : Inhabited Double := ⟨.finite 0⟩

def Double.isNaN : Double → Bool
  | .nan => true
  | _ => false

def Double.isInf : Double → Bool
  | .negInf | .posInf => true
  | _ => false

/-- Position on the extended line; the two zeros share one place. -/
def Double.position : Double → WithBot (WithTop ℚ)
  | .nan | .negInf => ⊥
  | .negZero => ((0 : ℚ) : WithTop ℚ)
  | .finite q => (q : WithTop ℚ)
  | .posInf => ((⊤ : WithTop ℚ) : WithBot (WithTop ℚ))

/-- `<` on doubles: false as soon as one side is not a number. -/
def Double.less (a b : Double) : Bool :=
  !a.isNaN && !b.isNaN && decide (a.position < b.position)

def Double.eq (a b : Double) : Bool :=
  !a.isNaN && !b.isNaN && decide (a.position = b.position)

theorem less_eq_true {a b : Double} :
    a.less b = true ↔ (a.isNaN = false ∧ b.isNaN = false) ∧ a.position < b.position := by
  simp [Double.less]

theorem eq_eq_true {a b : Double} :
    a.eq b = true ↔ (a.isNaN = false ∧ b.isNaN = false) ∧ a.position = b.position := by
  simp [Double.eq]

theorem eq_symm {a b : Double} (h : a.eq b = true) : b.eq a = true := by
  obtain ⟨⟨ha, hb⟩, hposition⟩ := eq_eq_true.mp h
  exact eq_eq_true.mpr ⟨⟨hb, ha⟩, hposition.symm⟩

theorem eq_trans {a b c : Double} (h : a.eq b = true) (k : b.eq c = true) : a.eq c = true := by
  obtain ⟨⟨ha, -⟩, hab⟩ := eq_eq_true.mp h
  obtain ⟨⟨-, hc⟩, hbc⟩ := eq_eq_true.mp k
  exact eq_eq_true.mpr ⟨⟨ha, hc⟩, hab.trans hbc⟩

/-- Doubles that are ordered neither way are equal, or one of them is no number. -/
theorem not_less_iff {a b : Double} : (¬ a.less b = true ∧ ¬ b.less a = true) ↔
    (a.isNaN = true ∨ b.isNaN = true) ∨ a.eq b = true := by
  rw [less_eq_true, less_eq_true, eq_eq_true]
  cases a.isNaN <;> cases b.isNaN <;> simp [le_antisymm_iff, and_comm]

theorem less_iff {a b : Double} (ha : a ≠ .nan) (hb : b ≠ .nan) :
    a.less b = true ↔ a.position < b.position := by
  cases a <;> cases b <;> simp_all [Double.less, Double.isNaN]

/-- Position in the total preorder that puts the not-a-number value below everything. -/
def Double.rank (a : Double) : WithBot (WithBot (WithTop ℚ)) :=
  if a.isNaN then ⊥ else (a.position : WithBot (WithBot (WithTop ℚ)))

/-- Two doubles have one rank when they are equal or neither is a number. -/
theorem rank_eq_rank {a b : Double} :
    a.rank = b.rank ↔ a.eq b = true ∨ a.isNaN = true ∧ b.isNaN = true := by
  unfold Double.rank Double.eq
  cases ha : a.isNaN <;> cases hb : b.isNaN <;> simp

theorem isNaN_of_rank_eq {a b : Double} (h : a.rank = b.rank) : a.isNaN = b.isNaN := by
  rcases rank_eq_rank.mp h with heq | ⟨ha, hb⟩
  · obtain ⟨⟨ha, hb⟩, -⟩ := eq_eq_true.mp heq
    rw [ha, hb]
  · rw [ha, hb]

/-- Numbers are compared by their ranks, and so are values that are no numbers. -/
theorem less_iff_rank {a b : Double} (h : a.isNaN = b.isNaN) :
    a.less b = true ↔ a.rank < b.rank := by
  unfold Double.less Double.rank
  cases ha : a.isNaN <;> cases hb : b.isNaN <;> simp_all

/-- Comparisons see no more of a double than its rank. -/
theorem less_congr {a b c d : Double} (hac : a.rank = c.rank) (hbd : b.rank = d.rank) :
    a.less b = c.less d := by
  unfold Double.rank at hac hbd
  unfold Double.less
  cases ha : a.isNaN <;> cases hb : b.isNaN <;> cases hc : c.isNaN <;> cases hd : d.isNaN <;>
    simp_all

theorem eq_congr {a b c d : Double} (hac : a.rank = c.rank) (hbd : b.rank = d.rank) :
    a.eq b = c.eq d := by
  unfold Double.rank at hac hbd
  unfold Double.eq
  cases ha : a.isNaN <;> cases hb : b.isNaN <;> cases hc : c.isNaN <;> cases hd : d.isNaN <;>
    simp_all

end DoubleValues
