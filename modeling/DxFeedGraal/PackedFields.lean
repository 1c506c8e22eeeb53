import Mathlib.Data.Nat.Basic

/-! # Fields packed into a machine word

A field is a mask and a shift. It is read by shifting down and masking, and written by clearing
its bits and or-ing the new ones in. Fields with disjoint bits do not see each other. -/
namespace PackedFields

variable {w : ℕ}

/-- No bit of the mask is lost above the word. -/
structure Field (w : ℕ) where
  mask : BitVec w
  shift : ℕ
  fits : (mask <<< shift) >>> shift = mask := by decide
  deriving DecidableEq

namespace Field

/-- Where the field lies in its word. -/
def bits (f : Field w) : BitVec w := f.mask <<< f.shift

def read (f : Field w) (v : BitVec w) : BitVec w := (v >>> f.shift) &&& f.mask

def write (f : Field w) (v x : BitVec w) : BitVec w :=
  (v &&& ~~~(f.mask <<< f.shift)) ||| ((x &&& f.mask) <<< f.shift)

theorem getLsbD_mask (f : Field w) {i : ℕ} (h : f.mask.getLsbD i = true) :
    f.shift + i < w ∧ f.bits.getLsbD (f.shift + i) = true := by
  have hfits : ((f.mask <<< f.shift) >>> f.shift).getLsbD i = true := by rw [f.fits, h]
  rw [BitVec.getLsbD_ushiftRight] at hfits
  exact ⟨BitVec.lt_of_getLsbD hfits, hfits⟩

/-- The bits outside a field stay. -/
theorem getLsbD_write (f : Field w) (v x : BitVec w) {i : ℕ} (h : f.bits.getLsbD i = false) :
    (f.write v x).getLsbD i = v.getLsbD i := by
  by_cases hi : i < w
  · have hplaced : ((x &&& f.mask) <<< f.shift).getLsbD i = false := by
      simp only [bits, BitVec.getLsbD_shiftLeft, hi, decide_true, Bool.true_and] at h
      simp only [BitVec.getLsbD_shiftLeft, BitVec.getLsbD_and, hi, decide_true, Bool.true_and]
      cases hs : decide (i < f.shift) with
      | true => rfl
      | false =>
        rw [hs, Bool.not_false, Bool.true_and] at h
        rw [h, Bool.and_false, Bool.and_false]
    have hkept : (~~~(f.mask <<< f.shift)).getLsbD i = true := by
      rw [BitVec.getLsbD_not, decide_eq_true hi, Bool.true_and, Bool.not_eq_true']
      exact h
    rw [write, BitVec.getLsbD_or, BitVec.getLsbD_and, hplaced, hkept, Bool.and_true, Bool.or_false]
  · rw [BitVec.getLsbD_of_ge _ _ (not_lt.mp hi), BitVec.getLsbD_of_ge _ _ (not_lt.mp hi)]

theorem read_write (f : Field w) (v x : BitVec w) : f.read (f.write v x) = x &&& f.mask := by
  apply BitVec.eq_of_getLsbD_eq
  intro i hi
  unfold read
  rw [BitVec.getLsbD_and, BitVec.getLsbD_ushiftRight, BitVec.getLsbD_and]
  cases hm : f.mask.getLsbD i with
  | false => rw [Bool.and_false, Bool.and_false]
  | true =>
    obtain ⟨hlt, hbit⟩ := f.getLsbD_mask hm
    have hcleared : (~~~(f.mask <<< f.shift)).getLsbD (f.shift + i) = false := by
      rw [BitVec.getLsbD_not, decide_eq_true hlt, Bool.true_and, Bool.not_eq_false']
      exact hbit
    have hplaced : ((x &&& f.mask) <<< f.shift).getLsbD (f.shift + i) = x.getLsbD i := by
      rw [BitVec.getLsbD_shiftLeft, BitVec.getLsbD_and, Nat.add_sub_cancel_left, hm]
      simp [hlt]
    rw [write, BitVec.getLsbD_or, BitVec.getLsbD_and, hcleared, hplaced, Bool.and_false,
      Bool.false_or]

/-- A field looks at its own bits only. -/
theorem read_congr (f : Field w) {v v' : BitVec w}
    (h : ∀ i, f.bits.getLsbD i = true → v.getLsbD i = v'.getLsbD i) : f.read v = f.read v' := by
  apply BitVec.eq_of_getLsbD_eq
  intro i hi
  unfold read
  rw [BitVec.getLsbD_and, BitVec.getLsbD_ushiftRight, BitVec.getLsbD_and,
    BitVec.getLsbD_ushiftRight]
  cases hm : f.mask.getLsbD i with
  | false => rw [Bool.and_false, Bool.and_false]
  | true =>
    obtain ⟨-, hbit⟩ := f.getLsbD_mask hm
    rw [h _ hbit]

def Disjoint (f g : Field w) : Prop := f.bits &&& g.bits = 0#w

instance (f g : Field w) : Decidable (f.Disjoint g) := inferInstanceAs (Decidable (_ = _))

theorem read_write_disjoint {f g : Field w} (h : f.Disjoint g) (v x : BitVec w) :
    g.read (f.write v x) = g.read v := by
  apply g.read_congr
  intro i hi
  apply f.getLsbD_write
  have hboth : (f.bits &&& g.bits).getLsbD i = false := by
    rw [show f.bits &&& g.bits = 0#w from h, BitVec.getLsbD_zero]
  rwa [BitVec.getLsbD_and, hi, Bool.and_true] at hboth

/-! ### Single bits -/

theorem read_unshifted {f : Field w} (h : f.shift = 0) (v : BitVec w) :
    f.read v = v &&& f.mask := by
  rw [read, h, BitVec.ushiftRight_zero]

/-- Setting the bits of a mask writes all ones. -/
theorem or_mask {f : Field w} (h : f.shift = 0) (v : BitVec w) :
    v ||| f.mask = f.write v f.mask := by
  apply BitVec.eq_of_getLsbD_eq
  intro i hi
  rw [write, h, BitVec.shiftLeft_zero, BitVec.shiftLeft_zero, BitVec.and_self]
  simp only [BitVec.getLsbD_or, BitVec.getLsbD_and, BitVec.getLsbD_not, hi, decide_true,
    Bool.true_and]
  cases v.getLsbD i <;> cases f.mask.getLsbD i <;> rfl

theorem and_not_mask {f : Field w} (h : f.shift = 0) (v : BitVec w) :
    v &&& ~~~f.mask = f.write v 0#w := by
  rw [write, h, BitVec.shiftLeft_zero, BitVec.shiftLeft_zero, BitVec.zero_and, BitVec.or_zero]

end Field

end PackedFields
