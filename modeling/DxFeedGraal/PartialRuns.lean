import Mathlib.Data.Option.Basic

/-! # Runs of a partial step function

A step may be undefined; a run is then undefined from that step on. Conditions are
put on the state before a step, results on the state after it. -/
namespace PartialRuns

variable {σ ι τ : Type*}

def run (step : σ → ι → Option σ) (s : σ) : List ι → Option σ
  | [] => some s
  | i :: is => (step s i).bind fun s' => run step s' is

/-- Every step of the run meets the condition in the state it starts from. -/
def Meets (step : σ → ι → Option σ) (cond : σ → ι → Prop) (s : σ) : List ι → Prop
  | [] => True
  | i :: is => cond s i ∧ ∀ s', step s i = some s' → Meets step cond s' is

/-- The run is defined throughout and every state on it, the first included, has `P`. -/
def Always (step : σ → ι → Option σ) (P : σ → Prop) (s : σ) : List ι → Prop
  | [] => P s
  | i :: is => P s ∧ ∃ s', step s i = some s' ∧ Always step P s' is

variable {step : σ → ι → Option σ} {cond : σ → ι → Prop}

@[simp] theorem run_nil (s : σ) : run step s [] = some s := rfl

theorem run_cons {s s' : σ} {i : ι} (h : step s i = some s') (is : List ι) :
    run step s (i :: is) = run step s' is := by
  simp [run, h]

/-- A condition that does not depend on the state. -/
theorem meets_of_mem {is : List ι} (h : ∀ i ∈ is, ∀ s, cond s i) (s : σ) :
    Meets step cond s is := by
  induction is generalizing s with
  | nil => trivial
  | cons i is ih =>
    exact ⟨h i List.mem_cons_self s, fun s' _ =>
      ih (fun j hj => h j (List.mem_cons_of_mem i hj)) s'⟩

/-- A condition that follows from an invariant of the run and a property of the input. -/
theorem meets_of_invariant {Inv : σ → Prop} {P : ι → Prop}
    (hcond : ∀ s i, Inv s → P i → cond s i)
    (hstep : ∀ s s' i, Inv s → P i → step s i = some s' → Inv s')
    {s : σ} {is : List ι} (hs : Inv s) (h : ∀ i ∈ is, P i) : Meets step cond s is := by
  induction is generalizing s with
  | nil => trivial
  | cons i is ih =>
    obtain ⟨hi, his⟩ := List.forall_mem_cons.mp h
    exact ⟨hcond s i hs hi, fun s' hs' => ih (hstep s s' i hs hi hs') his⟩

/-- Safety rule: steps that meet the condition are defined and keep the invariant. -/
theorem always_of_meets {Inv : σ → Prop}
    (hstep : ∀ s i, Inv s → cond s i → ∃ s', step s i = some s' ∧ Inv s')
    {s : σ} {is : List ι} (hs : Inv s) (hm : Meets step cond s is) : Always step Inv s is := by
  induction is generalizing s with
  | nil => exact hs
  | cons i is ih =>
    obtain ⟨s', hi, hs'⟩ := hstep s i hs hm.1
    exact ⟨hs, s', hi, ih hs' (hm.2 s' hi)⟩

/-- Converse rule: if a good step always met the condition, a good run met it throughout. -/
theorem meets_of_always {Inv : σ → Prop}
    (hstep : ∀ s s' i, Inv s → step s i = some s' → Inv s' → cond s i)
    {s : σ} {is : List ι} (h : Always step Inv s is) : Meets step cond s is := by
  induction is generalizing s with
  | nil => trivial
  | cons i is ih =>
    obtain ⟨hs, s', hi, hrest⟩ := h
    have hs' : Inv s' := by cases is with
      | nil => exact hrest
      | cons => exact hrest.1
    refine ⟨hstep s s' i hs hi hs', fun t ht => ?_⟩
    rw [hi] at ht
    cases ht
    exact ih hrest

/-- Where every step meets one condition, what holds along a run is settled by another one. -/
theorem always_iff_meets {given : σ → ι → Prop} {Inv P : σ → Prop}
    (hgood : ∀ s, Inv s → P s)
    (hstep : ∀ s i, Inv s → given s i → cond s i → ∃ s', step s i = some s' ∧ Inv s')
    (hconverse : ∀ s s' i, Inv s → given s i → step s i = some s' → P s' → cond s i)
    {s : σ} {is : List ι} (hs : Inv s) (hgiven : Meets step given s is) :
    Always step P s is ↔ Meets step cond s is := by
  induction is generalizing s with
  | nil => exact ⟨fun _ => trivial, fun _ => hgood s hs⟩
  | cons i is ih =>
    constructor
    · rintro ⟨-, s', hi, hrest⟩
      have hP : P s' := by cases is with
        | nil => exact hrest
        | cons => exact hrest.1
      have hcond := hconverse s s' i hs hgiven.1 hi hP
      obtain ⟨t, ht, hinv⟩ := hstep s i hs hgiven.1 hcond
      rw [hi] at ht
      cases ht
      refine ⟨hcond, fun t ht => ?_⟩
      rw [hi] at ht
      cases ht
      exact (ih hinv (hgiven.2 s' hi)).mp hrest
    · rintro ⟨hcond, hrest⟩
      obtain ⟨s', hi, hinv⟩ := hstep s i hs hgiven.1 hcond
      exact ⟨hgood s hs, s', hi, (ih hinv (hgiven.2 s' hi)).mpr (hrest s' hi)⟩

theorem Meets.and {cond' : σ → ι → Prop} {s : σ} {is : List ι} (h : Meets step cond s is)
    (h' : Meets step cond' s is) : Meets step (fun s i => cond s i ∧ cond' s i) s is := by
  induction is generalizing s with
  | nil => trivial
  | cons i is ih => exact ⟨⟨h.1, h'.1⟩, fun s' hi => ih (h.2 s' hi) (h'.2 s' hi)⟩

theorem Always.imp {P Q : σ → Prop} (hPQ : ∀ s, P s → Q s) {s : σ} {is : List ι}
    (h : Always step P s is) : Always step Q s is := by
  induction is generalizing s with
  | nil => exact hPQ s h
  | cons i is ih =>
    obtain ⟨hs, s', hi, hrest⟩ := h
    exact ⟨hPQ s hs, s', hi, ih hrest⟩

/-- An invariant of all steps may be added to what holds along a run. -/
theorem Always.and_invariant {P Inv : σ → Prop}
    (hstep : ∀ s s' i, Inv s → step s i = some s' → Inv s')
    {s : σ} {is : List ι} (hs : Inv s) (h : Always step P s is) :
    Always step (fun t => Inv t ∧ P t) s is := by
  induction is generalizing s with
  | nil => exact ⟨hs, h⟩
  | cons i is ih =>
    obtain ⟨hp, s', hi, hrest⟩ := h
    exact ⟨⟨hs, hp⟩, s', hi, ih (hstep s s' i hs hi) hrest⟩

theorem Always.last {P : σ → Prop} {s : σ} {is : List ι} (h : Always step P s is) :
    ∃ s', run step s is = some s' ∧ P s' := by
  induction is generalizing s with
  | nil => exact ⟨s, rfl, h⟩
  | cons i is ih =>
    obtain ⟨_, s', hi, hrest⟩ := h
    rw [run_cons hi]
    exact ih hrest

/-- An invariant of all steps holds wherever a run gets. -/
theorem run_invariant {Inv : σ → Prop}
    (hstep : ∀ s s' i, Inv s → step s i = some s' → Inv s')
    {s s' : σ} {is : List ι} (hs : Inv s) (h : run step s is = some s') : Inv s' := by
  induction is generalizing s with
  | nil =>
    cases h
    exact hs
  | cons i is ih =>
    obtain ⟨t, hi, hrest⟩ := Option.bind_eq_some_iff.mp h
    exact ih (hstep s t i hs hi) hrest

theorem run_append (s : σ) (is js : List ι) :
    run step s (is ++ js) = (run step s is).bind fun s' => run step s' js := by
  induction is generalizing s with
  | nil => rfl
  | cons i is ih =>
    cases hi : step s i with
    | none => simp [run, hi]
    | some t => simp [run, hi, ih]

theorem Meets.append {s : σ} {is js : List ι} (h : Meets step cond s (is ++ js)) :
    Meets step cond s is ∧ ∀ s', run step s is = some s' → Meets step cond s' js := by
  induction is generalizing s with
  | nil =>
    refine ⟨trivial, fun s' hs => ?_⟩
    cases hs
    exact h
  | cons i is ih =>
    refine ⟨⟨h.1, fun t ht => (ih (h.2 t ht)).1⟩, fun s' hs => ?_⟩
    obtain ⟨t, ht, hrest⟩ := Option.bind_eq_some_iff.mp hs
    exact (ih (h.2 t ht)).2 s' hrest

/-- What every step that meets the condition keeps holds wherever such a run gets. -/
theorem Meets.run_invariant {Inv : σ → Prop}
    (hstep : ∀ s s' i, Inv s → cond s i → step s i = some s' → Inv s')
    {s s' : σ} {is : List ι} (hs : Inv s) (hm : Meets step cond s is)
    (h : run step s is = some s') : Inv s' := by
  induction is generalizing s with
  | nil =>
    cases h
    exact hs
  | cons i is ih =>
    obtain ⟨t, hi, hrest⟩ := Option.bind_eq_some_iff.mp h
    exact ih (hstep s t i hs hm.1 hi) (hm.2 t hi) hrest

/-- Forward simulation of a total abstract step by a partial concrete one. -/
theorem run_simulates {abstract : τ → ι → τ} {R : σ → τ → Prop}
    (hstep : ∀ s t i, R s t → cond s i → ∃ s', step s i = some s' ∧ R s' (abstract t i))
    {s : σ} {t : τ} {is : List ι} (h : R s t) (hm : Meets step cond s is) :
    ∃ s', run step s is = some s' ∧ R s' (is.foldl abstract t) := by
  induction is generalizing s t with
  | nil => exact ⟨s, rfl, h⟩
  | cons i is ih =>
    obtain ⟨s', hi, hs'⟩ := hstep s t i h hm.1
    rw [run_cons hi]
    exact ih hs' (hm.2 s' hi)

/-- What holds of a state and the inputs read so far. -/
theorem run_collects {R : σ → List ι → Prop}
    (hstep : ∀ s done i, R s done → cond s i → ∃ s', step s i = some s' ∧ R s' (done ++ [i]))
    {s : σ} {done is : List ι} (h : R s done) (hm : Meets step cond s is) :
    ∃ s', run step s is = some s' ∧ R s' (done ++ is) := by
  induction is generalizing s done with
  | nil => exact ⟨s, rfl, by rwa [List.append_nil]⟩
  | cons i is ih =>
    obtain ⟨s', hi, hs'⟩ := hstep s done i h hm.1
    rw [run_cons hi, List.append_cons]
    exact ih hs' (hm.2 s' hi)

end PartialRuns
