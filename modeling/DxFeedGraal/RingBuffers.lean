import Mathlib.Data.List.Basic
import Mathlib.Algebra.Order.Ring.Nat

/-! # Ring buffers

A buffer of a fixed capacity that fills up and from then on overwrites its cells in turn. It
holds the last elements that were put into it, and each new one takes the place of the oldest. -/
namespace RingBuffers

variable {α : Type*}

structure RingBuffer (α : Type*) where
  cells : List α := []
  index : ℕ := 0

/-- The buffer once the element is in, and the element that was overwritten. -/
def RingBuffer.put (size : ℕ) (r : RingBuffer α) (x : α) : RingBuffer α × Option α :=
  if r.cells.length < size then ({ r with cells := r.cells ++ [x] }, none)
  else
    let index := r.index % size
    (⟨r.cells.set index x, index + 1⟩, r.cells[index]?)

/-- The buffer after all these elements, the oldest one first. -/
structure Holds (size : ℕ) (r : RingBuffer α) (elements : List α) : Prop where
  length : r.cells.length = min size elements.length
  filling : elements.length < size → r.index = 0
  turning : size ≤ elements.length → r.index % size = elements.length % size
  cell : ∀ j < elements.length, elements.length ≤ j + size → r.cells[j % size]? = elements[j]?

theorem holds_empty (size : ℕ) : Holds size ({} : RingBuffer α) [] where
  length := (Nat.min_zero size).symm
  filling _ := rfl
  turning hsize := by
    rw [Nat.le_zero.mp hsize]
    rfl
  cell j hj := absurd hj (Nat.not_lt_zero j)

/-- Distances below the capacity tell places apart. -/
theorem mod_ne_of_close {size j n : ℕ} (hj : j < n) (hclose : n < j + size) :
    j % size ≠ n % size := by
  intro hsame
  have hdvd : size ∣ n - j := Nat.dvd_of_mod_eq_zero (Nat.sub_mod_eq_zero_of_mod_eq hsame.symm)
  have hle := Nat.le_of_dvd (Nat.sub_pos_of_lt hj) hdvd
  omega

theorem Holds.put {size : ℕ} {r : RingBuffer α} {elements : List α} (h : Holds size r elements)
    (hsize : 0 < size) (x : α) : Holds size (r.put size x).1 (elements ++ [x]) := by
  unfold RingBuffer.put
  have hlength := h.length
  split
  next hroom =>
    have hfilling : elements.length < size := by omega
    have hsame : r.cells.length = elements.length := by omega
    refine ⟨?_, fun _ => h.filling hfilling, fun hfull => ?_, fun j hj hlate => ?_⟩
    · simp only [List.length_append, List.length_singleton]
      omega
    · rw [h.filling hfilling]
      simp only [List.length_append, List.length_singleton] at hfull ⊢
      have hexact : elements.length + 1 = size := by omega
      rw [hexact, Nat.mod_self, Nat.zero_mod]
    · simp only [List.length_append, List.length_singleton] at hj hlate
      rw [Nat.mod_eq_of_lt (by omega)]
      rcases Nat.lt_succ_iff_lt_or_eq.mp hj with hold | rfl
      · have hcell := h.cell j hold (by omega)
        rw [Nat.mod_eq_of_lt (by omega)] at hcell
        rw [List.getElem?_append_left (by omega), List.getElem?_append_left hold, hcell]
      · rw [List.getElem?_append_right hsame.le, List.getElem?_append_right le_rfl, hsame]
  next hroom =>
    have hfull : size ≤ elements.length := by omega
    have hindex := h.turning hfull
    have hlt : elements.length % size < r.cells.length := by
      have := Nat.mod_lt elements.length hsize
      omega
    refine ⟨?_, fun hfilling => ?_, fun _ => ?_, fun j hj hlate => ?_⟩
    · simp only [List.length_set, List.length_append, List.length_singleton]
      omega
    · simp only [List.length_append, List.length_singleton] at hfilling
      omega
    · rw [hindex, List.length_append, List.length_singleton, Nat.mod_add_mod]
    · simp only [List.length_append, List.length_singleton] at hj hlate
      rw [hindex]
      rcases Nat.lt_succ_iff_lt_or_eq.mp hj with hold | rfl
      · rw [List.getElem?_set_ne (mod_ne_of_close hold (by omega)).symm,
          List.getElem?_append_left hold]
        exact h.cell j hold (by omega)
      · rw [List.getElem?_set_self hlt, List.getElem?_concat_length]

/-- What is overwritten is the oldest element of the buffer. -/
theorem Holds.overwritten {size : ℕ} {r : RingBuffer α} {elements : List α} (h : Holds size r elements)
    (hsize : 0 < size) (hfull : size ≤ elements.length) :
    r.cells[r.index % size]? = elements[elements.length - size]? := by
  have hplace : (elements.length - size) % size = elements.length % size := by
    rw [← Nat.mod_eq_sub_mod hfull]
  rw [h.turning hfull, ← hplace]
  exact h.cell (elements.length - size) (by omega) (by omega)

end RingBuffers
