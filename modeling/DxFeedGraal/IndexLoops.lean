import Mathlib.Data.Nat.Notation
import Mathlib.Logic.Relation

/-! # Loops over an index

A loop that runs while its index is below a bound and whose body alone moves the index. A body
may fail; a loop is watched for a number of rounds. -/
namespace IndexLoops

variable {σ ε : Type*}

/-- `while (index < size)`; a loop that is still running after the given rounds is unfinished. -/
def loop (unfinished : ε) (index : σ → ℕ) (size : ℕ) (body : σ → Except ε σ) :
    ℕ → σ → Except ε σ
  | 0, s => if index s < size then .error unfinished else .ok s
  | rounds + 1, s =>
    if index s < size then
      match body s with
      | .error e => .error e
      | .ok t => loop unfinished index size body rounds t
    else .ok s

variable {unfinished : ε} {index : σ → ℕ} {size : ℕ} {body : σ → Except ε σ} {s t u : σ}

/-! ## Rounds -/

/-- One round of the loop. -/
structure Round (index : σ → ℕ) (size : ℕ) (body : σ → Except ε σ) (s t : σ) : Prop where
  inside : index s < size
  body_eq : body s = .ok t

def Reaches (index : σ → ℕ) (size : ℕ) (body : σ → Except ε σ) : σ → σ → Prop :=
  Relation.ReflTransGen (Round index size body)

/-- The final state of the loop. -/
def Ends (index : σ → ℕ) (size : ℕ) (body : σ → Except ε σ) (s t : σ) : Prop :=
  Reaches index size body s t ∧ size ≤ index t

theorem ends_of_outside (h : size ≤ index s) : Ends index size body s s := ⟨.refl, h⟩

theorem Ends.step (h : Round index size body s t) (hends : Ends index size body t u) :
    Ends index size body s u :=
  ⟨.head h hends.1, hends.2⟩

theorem loop_outside (h : size ≤ index s) (rounds : ℕ) :
    loop unfinished index size body rounds s = .ok s := by
  cases rounds with
  | zero => exact if_neg (Nat.not_lt.mpr h)
  | succ rounds => exact if_neg (Nat.not_lt.mpr h)

theorem loop_round (h : Round index size body s t) (rounds : ℕ) :
    loop unfinished index size body (rounds + 1) s =
      loop unfinished index size body rounds t := by
  simp only [loop, if_pos h.inside, h.body_eq]

theorem ends_of_loop {rounds : ℕ} (h : loop unfinished index size body rounds s = .ok t) :
    Ends index size body s t := by
  induction rounds generalizing s with
  | zero =>
    unfold loop at h
    split at h
    · cases h
    · obtain rfl := Except.ok.inj h
      exact ends_of_outside (by omega)
  | succ rounds ih =>
    by_cases hinside : index s < size
    · cases hbody : body s with
      | error e => simp [loop, hinside, hbody] at h
      | ok v =>
        have hround : Round index size body s v := ⟨hinside, hbody⟩
        rw [loop_round hround] at h
        exact (ih h).step hround
    · rw [loop_outside (Nat.not_lt.mp hinside)] at h
      obtain rfl := Except.ok.inj h
      exact ends_of_outside (Nat.not_lt.mp hinside)

theorem loop_of_ends (h : Ends index size body s t) :
    ∃ rounds, loop unfinished index size body rounds s = .ok t := by
  obtain ⟨hreaches, hend⟩ := h
  induction hreaches using Relation.ReflTransGen.head_induction_on with
  | refl => exact ⟨0, loop_outside hend 0⟩
  | head hround _ ih =>
    obtain ⟨rounds, hrounds⟩ := ih
    exact ⟨rounds + 1, (loop_round hround rounds).trans hrounds⟩

/-- Behind the bound a loop stays where it is. -/
theorem Reaches.outside (h : Reaches index size body s t) (houtside : size ≤ index s) : t = s := by
  rcases Relation.ReflTransGen.cases_head h with heq | ⟨u, hround, _⟩
  · exact heq.symm
  · exact absurd hround.inside (Nat.not_lt.mpr houtside)

/-- What is reached from a state is this state or reached from the one behind it. -/
theorem Reaches.head (h : Reaches index size body s u) (hround : Round index size body s t) :
    u = s ∨ Reaches index size body t u := by
  rcases Relation.ReflTransGen.cases_head h with heq | ⟨v, hfirst, hrest⟩
  · exact Or.inl heq.symm
  · obtain rfl := Except.ok.inj (hround.body_eq.symm.trans hfirst.body_eq)
    exact Or.inr hrest

theorem Ends.head (h : Ends index size body s u) (hround : Round index size body s t) :
    Ends index size body t u := by
  rcases h.1.head hround with rfl | hrest
  · exact absurd hround.inside (Nat.not_lt.mpr h.2)
  · exact ⟨hrest, h.2⟩

/-- A round that changes nothing is repeated for ever. -/
theorem not_ends_of_stay (h : Round index size body s s) : ¬ Ends index size body s t := by
  rintro ⟨hreaches, hend⟩
  have hstays : t = s := by
    clear hend
    induction hreaches with
    | refl => rfl
    | tail _ hround ih =>
      subst ih
      exact Except.ok.inj (hround.body_eq.symm.trans h.body_eq)
  exact absurd h.inside (Nat.not_lt.mpr (hstays ▸ hend))

/-! ## Sound loops -/

/-- The loop ends, every round of it is defined and moves the index up. -/
structure Sound (index : σ → ℕ) (size : ℕ) (body : σ → Except ε σ) (s : σ) : Prop where
  ends : ∃ t, Ends index size body s t
  defined : ∀ t, Reaches index size body s t → index t < size → ∃ u, body t = .ok u
  increases : ∀ t u, Reaches index size body s t → Round index size body t u → index t < index u

theorem sound_outside (h : size ≤ index s) : Sound index size body s where
  ends := ⟨s, ends_of_outside h⟩
  defined := by
    intro t ht hinside
    obtain rfl := ht.outside h
    exact absurd hinside (Nat.not_lt.mpr h)
  increases := by
    intro t u ht hround
    obtain rfl := ht.outside h
    exact absurd hround.inside (Nat.not_lt.mpr h)

theorem Sound.head (h : Sound index size body s) (hround : Round index size body s t) :
    Sound index size body t where
  ends := by
    obtain ⟨u, hends⟩ := h.ends
    exact ⟨u, hends.head hround⟩
  defined := fun u hu => h.defined u (Relation.ReflTransGen.head hround hu)
  increases := fun u v hu => h.increases u v (Relation.ReflTransGen.head hround hu)

theorem Sound.cons (hround : Round index size body s t) (hlt : index s < index t)
    (h : Sound index size body t) : Sound index size body s where
  ends := by
    obtain ⟨u, hends⟩ := h.ends
    exact ⟨u, hends.step hround⟩
  defined := by
    intro u hu hinside
    rcases hu.head hround with rfl | hrest
    · exact ⟨t, hround.body_eq⟩
    · exact h.defined u hrest hinside
  increases := by
    intro u v hu hnext
    rcases hu.head hround with rfl | hrest
    · obtain rfl := Except.ok.inj (hround.body_eq.symm.trans hnext.body_eq)
      exact hlt
    · exact h.increases u v hrest hnext

/-- Below the bound a loop is sound if its first round is and the loop is sound from there. -/
theorem sound_iff (h : Round index size body s t) :
    Sound index size body s ↔ index s < index t ∧ Sound index size body t :=
  ⟨fun hs => ⟨hs.increases s t .refl h, hs.head h⟩, fun ⟨hlt, ht⟩ => ht.cons h hlt⟩

/-- A loop whose rounds are all defined and move the index up ends. -/
theorem sound_of_rounds
    (h : ∀ s, index s < size → ∃ t, body s = .ok t ∧ index s < index t) (s : σ) :
    Sound index size body s := by
  induction hleft : size - index s using Nat.strongRecOn generalizing s with
  | ind left ih =>
    by_cases hinside : index s < size
    · obtain ⟨t, hbody, hlt⟩ := h s hinside
      exact (ih (size - index t) (by omega) t rfl).cons ⟨hinside, hbody⟩ hlt
    · exact sound_outside (Nat.not_lt.mp hinside)

end IndexLoops
