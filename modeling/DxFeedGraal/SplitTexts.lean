import Mathlib.Data.List.DropRight
import Mathlib.Data.List.TakeWhile

/-! # Texts split at a separator

A text is cut at a separator, the pieces lose the blanks around them, and pieces of nothing but
blanks are dropped. Joining the fields that are left and splitting again gives them back. -/
namespace SplitTexts

variable {α : Type*}

section Trimming

variable (blank : α → Bool)

def trim (s : List α) : List α := ((s.dropWhile blank).reverse.dropWhile blank).reverse

/-- Neither end of the text is blank. -/
def Trimmed (s : List α) : Prop :=
  (∀ c ∈ s.head?, blank c = false) ∧ ∀ c ∈ s.getLast?, blank c = false

instance [DecidableEq α] (s : List α) : Decidable (Trimmed blank s) :=
  inferInstanceAs (Decidable (_ ∧ _))

variable {blank}

theorem dropWhile_append_of_blank {a : List α} (h : ∀ c ∈ a, blank c = true) (s : List α) :
    (a ++ s).dropWhile blank = s.dropWhile blank := by
  induction a with
  | nil => rfl
  | cons c a ih =>
    rw [List.cons_append, List.dropWhile_cons_of_pos (h c List.mem_cons_self)]
    exact ih fun d hd => h d (List.mem_cons_of_mem _ hd)

theorem dropWhile_of_head {s : List α} (h : ∀ c ∈ s.head?, blank c = false) :
    s.dropWhile blank = s := by
  cases s with
  | nil => rfl
  | cons c s => exact List.dropWhile_cons_of_neg (by simp [h c rfl])

theorem head_dropWhile (s : List α) : ∀ c ∈ (s.dropWhile blank).head?, blank c = false := by
  intro c hc
  have h := List.head?_dropWhile_not blank s
  rw [Option.mem_def.mp hc] at h
  simpa using h

variable (blank) in
/-- Blanks, the trimmed text, and blanks again. -/
theorem exists_trim (s : List α) : ∃ a b : List α, s = a ++ trim blank s ++ b ∧
    (∀ c ∈ a, blank c = true) ∧ ∀ c ∈ b, blank c = true := by
  refine ⟨s.takeWhile blank, (s.dropWhile blank).rtakeWhile blank, ?_,
    fun c hc => List.mem_takeWhile_imp hc, fun c hc => List.mem_rtakeWhile_imp hc⟩
  calc s = s.takeWhile blank ++ s.dropWhile blank := List.takeWhile_append_dropWhile.symm
    _ = s.takeWhile blank ++ (trim blank s ++ (s.dropWhile blank).rtakeWhile blank) :=
      congrArg _ List.rdropWhile_append_rtakeWhile.symm
    _ = _ := (List.append_assoc _ _ _).symm

theorem trimmed_trim (s : List α) : Trimmed blank (trim blank s) := by
  constructor
  · intro c hc
    apply head_dropWhile s c
    obtain ⟨b, hb⟩ := List.rdropWhile_prefix blank (s.dropWhile blank)
    have hhead : (trim blank s ++ b).head? = some c := by
      rw [List.head?_append, Option.mem_def.mp hc]
      rfl
    exact hb ▸ hhead
  · intro c hc
    rw [trim, List.getLast?_reverse] at hc
    exact head_dropWhile _ c hc

/-- Blanks around a trimmed text are what trimming takes off. -/
theorem trim_padded {a s b : List α} (ha : ∀ c ∈ a, blank c = true) (h : Trimmed blank s)
    (hb : ∀ c ∈ b, blank c = true) : trim blank (a ++ s ++ b) = s := by
  have hback : ((s ++ b).reverse).dropWhile blank = s.reverse := by
    rw [List.reverse_append, dropWhile_append_of_blank fun c hc => hb c (List.mem_reverse.mp hc)]
    exact dropWhile_of_head fun c hc => h.2 c (List.head?_reverse ▸ hc)
  cases s with
  | nil =>
    have hnone : (a ++ [] ++ b).dropWhile blank = [] := by
      rw [List.append_nil, List.dropWhile_eq_nil_iff]
      intro c hc
      exact (List.mem_append.mp hc).elim (ha c) (hb c)
    rw [trim, hnone]
    rfl
  | cons c s =>
    have hfront : (a ++ (c :: s) ++ b).dropWhile blank = (c :: s) ++ b := by
      rw [List.append_assoc, dropWhile_append_of_blank ha]
      exact dropWhile_of_head h.1
    rw [trim, hfront, hback, List.reverse_reverse]

theorem trim_of_trimmed {s : List α} (h : Trimmed blank s) : trim blank s = s := by
  have hpad := trim_padded (a := []) (b := []) (by simp) h (by simp)
  rwa [List.nil_append, List.append_nil] at hpad

theorem mem_of_mem_trim {s : List α} {c : α} (h : c ∈ trim blank s) : c ∈ s := by
  obtain ⟨a, b, hs, -, -⟩ := exists_trim blank s
  rw [hs]
  exact List.mem_append_left _ (List.mem_append_right _ h)

/-- Blanks around a text make no difference. -/
theorem trim_surrounded {a b : List α} (ha : ∀ c ∈ a, blank c = true) (s : List α)
    (hb : ∀ c ∈ b, blank c = true) : trim blank (a ++ s ++ b) = trim blank s := by
  obtain ⟨x, y, hs, hx, hy⟩ := exists_trim blank s
  have hall : a ++ s ++ b = (a ++ x) ++ trim blank s ++ (y ++ b) := by
    conv_lhs => rw [hs]
    simp only [List.append_assoc]
  rw [hall]
  apply trim_padded _ (trimmed_trim s)
  · exact fun c hc => (List.mem_append.mp hc).elim (hy c) (hb c)
  · exact fun c hc => (List.mem_append.mp hc).elim (ha c) (hx c)

end Trimming

section Splitting

variable [DecidableEq α] (sep : α)

/-- The pieces between separators that are not empty. -/
def words (s : List α) : List (List α) := (s.splitOn sep).filter (· ≠ [])

variable {sep}

variable (sep) in
/-- A text without the separator, or one that begins with such a text and a separator. -/
@[elab_as_elim]
theorem split_induction {motive : List α → Prop} (free : ∀ s, sep ∉ s → motive s)
    (join : ∀ a b, sep ∉ a → motive b → motive (a ++ sep :: b)) (s : List α) : motive s := by
  induction hn : s.length using Nat.strong_induction_on generalizing s with
  | _ n ih =>
    by_cases hs : sep ∈ s
    · obtain ⟨a, b, rfl, ha⟩ := List.eq_append_cons_of_mem hs
      apply join a b ha
      exact ih b.length (by simp at hn; omega) b rfl
    · exact free s hs

theorem words_append_cons (a b : List α) :
    words sep (a ++ sep :: b) = words sep a ++ words sep b := by
  rw [words, List.splitOn_append_cons_self, List.filter_append]
  rfl

theorem words_of_free {s : List α} (h : sep ∉ s) :
    words sep s = if s = [] then [] else [s] := by
  rw [words, List.splitOn_eq_singleton h, List.filter_singleton]
  by_cases hs : s = [] <;> simp [hs]

theorem words_cons_self (s : List α) : words sep (sep :: s) = words sep s :=
  words_append_cons [] s

theorem words_replicate (n : ℕ) (s : List α) :
    words sep (List.replicate n sep ++ s) = words sep s := by
  induction n with
  | zero => rfl
  | succ n ih => exact (words_cons_self _).trans ih

/-- A word ends with the text or before a separator. -/
theorem words_append {w rest : List α} (hw : w ≠ []) (hfree : sep ∉ w)
    (hrest : ∀ c ∈ rest.head?, c = sep) : words sep (w ++ rest) = w :: words sep rest := by
  have hword : words sep w = [w] := (words_of_free hfree).trans (if_neg hw)
  cases rest with
  | nil => rw [List.append_nil, hword, words_of_free List.not_mem_nil, if_pos rfl]
  | cons c rest =>
    cases hrest c rfl
    rw [words_append_cons, hword, words_cons_self, List.singleton_append]

theorem exists_word {c : α} (h : c ≠ sep) (s : List α) : ∃ w rest, c :: s = w ++ rest ∧
    w ≠ [] ∧ sep ∉ w ∧ ∀ d ∈ rest.head?, d = sep := by
  refine ⟨(c :: s).takeWhile (· ≠ sep), (c :: s).dropWhile (· ≠ sep),
    List.takeWhile_append_dropWhile.symm, by simp [h], fun hmem => ?_, fun d hd => ?_⟩
  · simpa using List.mem_takeWhile_imp hmem
  · simpa using head_dropWhile _ d hd

/-- The text begins with `n` separators, a word, and what is left behind it. -/
theorem words_eq_cons_iff {s w : List α} {ws : List (List α)} :
    words sep s = w :: ws ↔ ∃ n rest, s = List.replicate n sep ++ (w ++ rest) ∧ w ≠ [] ∧
      sep ∉ w ∧ (∀ c ∈ rest.head?, c = sep) ∧ words sep rest = ws := by
  constructor
  · intro h
    induction s with
    | nil => cases h
    | cons c s ih =>
      by_cases hc : c = sep
      · cases hc
        obtain ⟨n, rest, rfl, hword⟩ := ih ((words_cons_self s).symm.trans h)
        exact ⟨n + 1, rest, rfl, hword⟩
      · obtain ⟨v, rest, hs, hv, hfree, hrest⟩ := exists_word hc s
        rw [hs, words_append hv hfree hrest] at h
        cases h
        exact ⟨0, rest, hs, hv, hfree, hrest, rfl⟩
  · rintro ⟨n, rest, rfl, hw, hfree, hrest, rfl⟩
    exact (words_replicate n _).trans (words_append hw hfree hrest)

theorem words_eq_nil_iff {s : List α} : words sep s = [] ↔ ∃ n, s = List.replicate n sep := by
  constructor
  · intro h
    induction s with
    | nil => exact ⟨0, rfl⟩
    | cons c s ih =>
      by_cases hc : c = sep
      · cases hc
        obtain ⟨n, rfl⟩ := ih ((words_cons_self s).symm.trans h)
        exact ⟨n + 1, rfl⟩
      · obtain ⟨w, rest, hs, hw, hfree, hrest⟩ := exists_word hc s
        rw [hs, words_append hw hfree hrest] at h
        cases h
  · rintro ⟨n, rfl⟩
    have hall : words sep (List.replicate n sep ++ []) = words sep [] := words_replicate n []
    rwa [List.append_nil, words_of_free List.not_mem_nil, if_pos rfl] at hall

end Splitting

section Fields

variable [DecidableEq α] (blank : α → Bool) (sep : α)

def pieces (s : List α) : List (List α) := (words sep s).map (trim blank)

def fields (s : List α) : List (List α) := (pieces blank sep s).filter (· ≠ [])

variable {blank sep}

theorem fields_append_cons (a b : List α) :
    fields blank sep (a ++ sep :: b) = fields blank sep a ++ fields blank sep b := by
  simp only [fields, pieces, words_append_cons, List.map_append, List.filter_append]

theorem fields_of_free {s : List α} (h : sep ∉ s) :
    fields blank sep s = if trim blank s = [] then [] else [trim blank s] := by
  rw [fields, pieces, words_of_free h]
  by_cases hs : s = []
  · cases hs
    rfl
  · rw [if_neg hs, List.map_singleton, List.filter_singleton]
    by_cases ht : trim blank s = [] <;> simp [ht]

/-- Every field is trimmed, not empty, and free of the separator. -/
theorem mem_fields {s t : List α} (h : t ∈ fields blank sep s) :
    Trimmed blank t ∧ t ≠ [] ∧ sep ∉ t := by
  induction s using split_induction sep with
  | free s hs =>
    rw [fields_of_free hs] at h
    split at h
    next => cases h
    next hne =>
      cases List.mem_singleton.mp h
      exact ⟨trimmed_trim s, hne, fun hsep => hs (mem_of_mem_trim hsep)⟩
  | join a b ha ih =>
    rw [fields_append_cons, List.mem_append] at h
    rcases h with h | h
    · rw [fields_of_free ha] at h
      split at h
      next => cases h
      next hne =>
        cases List.mem_singleton.mp h
        exact ⟨trimmed_trim a, hne, fun hsep => ha (mem_of_mem_trim hsep)⟩
    · exact ih h

/-- Splitting what was joined trims the parts and drops those that are blank. -/
theorem fields_intercalate {ps : List (List α)} (h : ∀ p ∈ ps, sep ∉ p) :
    fields blank sep ([sep].intercalate ps) = (ps.map (trim blank)).filter (· ≠ []) := by
  have hone : ∀ p : List α, sep ∉ p → fields blank sep p = [trim blank p].filter (· ≠ []) := by
    intro p hp
    rw [fields_of_free hp]
    by_cases ht : trim blank p = [] <;> simp [ht]
  induction ps with
  | nil => rfl
  | cons p ps ih =>
    have hp := h p List.mem_cons_self
    cases ps with
    | nil => rw [List.intercalate_singleton, hone p hp, List.map_singleton]
    | cons q ps =>
      rw [List.intercalate_cons_cons, List.append_assoc, List.singleton_append,
        fields_append_cons, hone p hp, ih fun r hr => h r (List.mem_cons_of_mem _ hr),
        ← List.filter_append]
      rfl

theorem fields_surrounded (h : blank sep = false) (s : List α) :
    ∀ a b : List α, (∀ c ∈ a, blank c = true) → (∀ c ∈ b, blank c = true) →
      fields blank sep (a ++ s ++ b) = fields blank sep s := by
  have hfree : ∀ a : List α, (∀ c ∈ a, blank c = true) → sep ∉ a := fun a ha hmem =>
    absurd (ha sep hmem) (by simp [h])
  have hone : ∀ s a b : List α, sep ∉ s → (∀ c ∈ a, blank c = true) →
      (∀ c ∈ b, blank c = true) → fields blank sep (a ++ s ++ b) = fields blank sep s := by
    intro s a b hs ha hb
    rw [fields_of_free (by simp [hs, hfree a ha, hfree b hb]), fields_of_free hs,
      trim_surrounded ha s hb]
  induction s using split_induction sep with
  | free s hs => exact fun a b ha hb => hone s a b hs ha hb
  | join x y hx ih =>
    intro a b ha hb
    have hcut : a ++ (x ++ sep :: y) ++ b = (a ++ x ++ []) ++ sep :: ([] ++ y ++ b) := by
      simp
    rw [hcut, fields_append_cons, fields_append_cons, hone x a [] hx ha (by simp),
      ih [] b (by simp) hb]

/-- Blanks at the ends of the text make no difference. -/
theorem fields_trim (h : blank sep = false) (s : List α) :
    fields blank sep (trim blank s) = fields blank sep s := by
  obtain ⟨a, b, hs, ha, hb⟩ := exists_trim blank s
  conv_rhs => rw [hs]
  exact (fields_surrounded h _ a b ha hb).symm

end Fields

end SplitTexts
