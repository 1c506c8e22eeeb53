import Mathlib.Algebra.GroupWithZero.Nat
import Mathlib.Data.List.Basic

/-! # Texts joined by separators

Every text is followed by a separator and the last one by a closing symbol, so the position
reached after some texts does not depend on what follows them. -/
namespace DelimitedTexts

variable {α : Type*} (sep close : α)

/-- The symbol that stands before the texts `ts`: the closing one when there are none. -/
def closer : List (List α) → α
  | [] => close
  | _ :: _ => sep

def joined : List (List α) → List α
  | [] => []
  | t :: ts => t ++ closer sep close ts :: joined ts

def separated (ts : List (List α)) : List α := ts.flatMap (· ++ [sep])

/-- The position after the texts `ts`. -/
def offset (ts : List (List α)) : ℕ := (ts.map fun t => t.length + 1).sum

@[simp] theorem closer_nil : closer sep close [] = close := rfl
@[simp] theorem closer_cons (t : List α) (ts : List (List α)) : closer sep close (t :: ts) = sep :=
  rfl
@[simp] theorem joined_nil : joined sep close [] = [] := rfl
@[simp] theorem joined_cons (t : List α) (ts : List (List α)) :
    joined sep close (t :: ts) = t ++ closer sep close ts :: joined sep close ts := rfl
@[simp] theorem separated_nil : separated sep [] = [] := rfl
@[simp] theorem separated_cons (t : List α) (ts : List (List α)) :
    separated sep (t :: ts) = t ++ [sep] ++ separated sep ts := by simp [separated]
@[simp] theorem offset_nil : offset ([] : List (List α)) = 0 := rfl
@[simp] theorem offset_cons (t : List α) (ts : List (List α)) :
    offset (t :: ts) = t.length + 1 + offset ts := by simp [offset]
@[simp] theorem offset_append (ts us : List (List α)) :
    offset (ts ++ us) = offset ts + offset us := by
  simp [offset]

theorem closer_of_ne {ts : List (List α)} (h : ts ≠ []) : closer sep close ts = sep := by
  cases ts with
  | nil => exact absurd rfl h
  | cons t ts => rfl

theorem closer_cases (ts : List (List α)) :
    closer sep close ts = sep ∨ closer sep close ts = close ∧ joined sep close ts = [] := by
  cases ts with
  | nil => exact Or.inr ⟨rfl, rfl⟩
  | cons t ts => exact Or.inl rfl

theorem mem_joined {c : α} {ts : List (List α)} (h : c ∈ joined sep close ts) :
    c = sep ∨ c = close ∨ ∃ t ∈ ts, c ∈ t := by
  induction ts with
  | nil => simp at h
  | cons t ts ih =>
    rw [joined_cons, List.mem_append, List.mem_cons] at h
    rcases h with hc | hc | hc
    · exact Or.inr (Or.inr ⟨t, List.mem_cons_self, hc⟩)
    · rcases closer_cases sep close ts with hsep | ⟨hclose, -⟩
      · exact Or.inl (hc.trans hsep)
      · exact Or.inr (Or.inl (hc.trans hclose))
    · rcases ih hc with hsep | hclose | ⟨u, hu, hcu⟩
      · exact Or.inl hsep
      · exact Or.inr (Or.inl hclose)
      · exact Or.inr (Or.inr ⟨u, List.mem_cons_of_mem t hu, hcu⟩)

theorem mem_joined_of_mem {c : α} {t : List α} {ts : List (List α)} (ht : t ∈ ts) (hc : c ∈ t) :
    c ∈ joined sep close ts := by
  induction ts with
  | nil => simp at ht
  | cons u us ih =>
    rw [joined_cons, List.mem_append, List.mem_cons]
    rcases List.mem_cons.mp ht with rfl | hmem
    · exact Or.inl hc
    · exact Or.inr (Or.inr (ih hmem))

theorem length_joined (ts : List (List α)) : (joined sep close ts).length = offset ts := by
  induction ts with
  | nil => rfl
  | cons t ts ih => simp [ih]; omega

theorem length_le_offset (ts : List (List α)) : ts.length ≤ offset ts := by
  induction ts with
  | nil => simp
  | cons t ts ih => simp; omega

theorem drop_joined (ts us : List (List α)) :
    (joined sep close (ts ++ us)).drop (offset ts) = joined sep close us := by
  induction ts with
  | nil => simp
  | cons t ts ih =>
    have hlen : (t ++ [closer sep close (ts ++ us)]).length = t.length + 1 := by simp
    have hsplit : joined sep close (t :: ts ++ us)
        = (t ++ [closer sep close (ts ++ us)]) ++ joined sep close (ts ++ us) := by simp
    rw [hsplit, offset_cons, ← List.drop_drop, List.drop_left' hlen, ih]

theorem length_separated (ts : List (List α)) : (separated sep ts).length = offset ts := by
  induction ts with
  | nil => rfl
  | cons t ts ih => simp [ih]; omega

theorem joined_append_cons (ts : List (List α)) (u : List α) (us : List (List α)) :
    joined sep close (ts ++ u :: us) = separated sep ts ++ joined sep close (u :: us) := by
  induction ts with
  | nil => rfl
  | cons t ts ih =>
    have hc : closer sep close (ts ++ u :: us) = sep := closer_of_ne sep close (by simp)
    rw [List.cons_append, joined_cons, hc, ih, separated_cons]
    simp only [List.append_assoc, List.cons_append, List.nil_append]

/-- After at least one text only the symbol that follows it depends on the rest. -/
theorem joined_append_of_ne {ts : List (List α)} (h : ts ≠ []) :
    ∃ b, separated sep ts = b ++ [sep] ∧
      ∀ us, joined sep close (ts ++ us) = b ++ closer sep close us :: joined sep close us := by
  induction ts with
  | nil => exact absurd rfl h
  | cons t ts ih =>
    cases ts with
    | nil => exact ⟨t, by simp, fun us => by simp⟩
    | cons v vs =>
      obtain ⟨b, hb, hjoin⟩ := ih (by simp)
      refine ⟨t ++ sep :: b, ?_, ?_⟩
      · rw [separated_cons, hb]
        simp only [List.append_assoc, List.cons_append, List.nil_append]
      · intro us
        have hcons : joined sep close (t :: v :: vs ++ us)
            = t ++ sep :: joined sep close (v :: vs ++ us) := by simp
        rw [hcons, hjoin, List.append_assoc, List.cons_append]

end DelimitedTexts
