import Mathlib.Algebra.Group.Nat.Defs
import Mathlib.Data.Char
import Mathlib.Data.List.Lex
import Mathlib.Data.List.Basic

/-! # Standard strings and exceptions

A string is a list of characters, one for each byte. Positions are `size_t`; `none` stands
for `npos`. A call returns a value or ends in a failure. -/
namespace CppStrings

abbrev Text := List Char

inductive Failure
  | outOfRange
  | invalidArgument (message : Text)
  /-- An exception left a `noexcept` function. -/
  | terminated
  /-- A loop was still running when its fuel was used up. -/
  | unfinished
  deriving DecidableEq, Repr

abbrev Cpp (α : Type) := Except Failure α

def noexcept {α : Type} : Cpp α → Cpp α
  | .ok a => .ok a
  | .error .unfinished => .error .unfinished
  | .error _ => .error .terminated

/-- The least position at or after `pos` that holds `c`. -/
def findFirstOf (c : Char) (s : Text) (pos : ℕ) : Option ℕ :=
  ((s.drop pos).idxOf? c).map (pos + ·)

/-- The greatest position at or before `pos` that holds `c`. -/
def findLastOf (c : Char) (s : Text) (pos : ℕ) : Option ℕ :=
  ((s.take (pos + 1)).reverse.idxOf? c).map fun k => (s.take (pos + 1)).length - 1 - k

def substr (s : Text) (pos count : ℕ) : Cpp Text :=
  if pos ≤ s.length then .ok ((s.drop pos).take count) else .error .outOfRange

def substrFrom (s : Text) (pos : ℕ) : Cpp Text :=
  if pos ≤ s.length then .ok (s.drop pos) else .error .outOfRange

/-- `operator[]`; at the end it is the terminating zero. -/
def charAt (s : Text) (i : ℕ) : Char := s.getD i (Char.ofNat 0)

/-- Subtraction of `size_t` wraps around. -/
def sizeSub (a b : ℕ) : ℕ := if b ≤ a then a - b else a + 2 ^ 64 - b

def npos : ℕ := 2 ^ 64 - 1

/-- `pos + 1`, where `npos + 1` is zero. -/
def succPos : Option ℕ → ℕ
  | none => 0
  | some p => p + 1

@[simp] theorem ok_bind {α β : Type} (a : α) (f : α → Cpp β) : (Except.ok a >>= f) = f a := rfl
@[simp] theorem error_bind {α β : Type} (e : Failure) (f : α → Cpp β) :
    ((Except.error e : Cpp α) >>= f) = .error e := rfl
theorem bind_eq_ok {α β : Type} {x : Cpp α} {f : α → Cpp β} {b : β} :
    (x >>= f) = .ok b ↔ ∃ a, x = .ok a ∧ f a = .ok b := by
  cases x with
  | ok a => simp
  | error e => simp

@[simp] theorem noexcept_ok {α : Type} (a : α) : noexcept (.ok a) = .ok a := rfl
@[simp] theorem succPos_some (p : ℕ) : succPos (some p) = p + 1 := rfl

theorem noexcept_eq_ok {α : Type} {x : Cpp α} {a : α} : noexcept x = .ok a ↔ x = .ok a := by
  cases x with
  | ok b => simp [noexcept]
  | error e => cases e <;> simp [noexcept]

@[simp] theorem sizeSub_of_le {a b : ℕ} (h : b ≤ a) : sizeSub a b = a - b := if_pos h

theorem idxOf?_append_cons {c : Char} {u : Text} (h : c ∉ u) (w : Text) :
    (u ++ c :: w).idxOf? c = some u.length := by
  induction u with
  | nil => simp [List.idxOf?_cons]
  | cons d u ih =>
    rw [List.mem_cons, not_or] at h
    have hd : (d == c) = false := by simp [Ne.symm h.1]
    simp [List.idxOf?_cons, hd, ih h.2]

theorem idxOf?_of_notMem {c : Char} {u : Text} (h : c ∉ u) : u.idxOf? c = none := by
  simpa [List.idxOf?_eq_none_iff] using h

theorem findFirstOf_of_drop {c : Char} {s u w : Text} {pos : ℕ} (hs : s.drop pos = u ++ c :: w)
    (h : c ∉ u) : findFirstOf c s pos = some (pos + u.length) := by
  rw [findFirstOf, hs, idxOf?_append_cons h]
  rfl

theorem findFirstOf_none {c : Char} {s : Text} {pos : ℕ} (h : c ∉ s.drop pos) :
    findFirstOf c s pos = none := by
  rw [findFirstOf, idxOf?_of_notMem h]
  rfl

theorem findLastOf_of_take {c : Char} {s u w : Text} {pos : ℕ} (hs : s.take (pos + 1) = u ++ c :: w)
    (h : c ∉ w) : findLastOf c s pos = some u.length := by
  have hrev : (u ++ c :: w).reverse = w.reverse ++ c :: u.reverse := by simp
  rw [findLastOf, hs, hrev, idxOf?_append_cons (by simpa using h)]
  simp

theorem findLastOf_none {c : Char} {s : Text} {pos : ℕ} (h : c ∉ s.take (pos + 1)) :
    findLastOf c s pos = none := by
  rw [findLastOf, idxOf?_of_notMem (by simpa using h)]
  rfl

theorem findLastOf_eq_some {c : Char} {s : Text} {pos p : ℕ} (h : findLastOf c s pos = some p) :
    ∃ u w, s.take (pos + 1) = u ++ c :: w ∧ c ∉ w ∧ p = u.length := by
  by_cases hmem : c ∈ s.take (pos + 1)
  · obtain ⟨w, u, hsplit, hw⟩ := List.eq_append_cons_of_mem (List.mem_reverse.mpr hmem)
    have htake : s.take (pos + 1) = u.reverse ++ c :: w.reverse := by
      rw [← List.reverse_reverse (s.take (pos + 1)), hsplit]
      simp
    have hnot : c ∉ w.reverse := by simpa using hw
    rw [findLastOf_of_take htake hnot] at h
    exact ⟨u.reverse, w.reverse, htake, hnot, (Option.some.inj h).symm⟩
  · rw [findLastOf_none hmem] at h
    cases h

theorem charAt_split {s x y : Text} {c : Char} {n : ℕ} (h : s = x ++ c :: y) (hn : n = x.length) :
    charAt s n = c := by
  subst h hn
  simp [charAt]

theorem charAt_mem {x : Text} (y : Text) {n : ℕ} (h : n < x.length) : charAt (x ++ y) n ∈ x := by
  rw [charAt, List.getD_eq_getElem?_getD, List.getElem?_append_left h,
    List.getElem?_eq_getElem h, Option.getD_some]
  exact List.getElem_mem h

theorem substr_split {s x y : Text} {n : ℕ} (h : s = x ++ y) (hn : n = x.length) :
    substr s 0 n = .ok x := by
  subst h hn
  simp [substr]

theorem substrFrom_split {s x y : Text} {n : ℕ} (h : s = x ++ y) (hn : n = x.length) :
    substrFrom s n = .ok y := by
  subst h hn
  simp [substrFrom]

end CppStrings
