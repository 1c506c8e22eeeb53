import DxFeedGraal.KeyedLists
import DxFeedGraal.PartialRuns

/-! # Runs of machines under keys

Each key has a machine of its own, which starts when the first input for it comes. A run of all
machines together is a run of each of them over the inputs for its key. -/
namespace KeyedRuns

open KeyedLists PartialRuns

variable {κ σ ι : Type*}

/-- A step leaves a machine under its key. -/
structure Machine (κ σ ι : Type*) where
  key : σ → κ
  fresh : κ → σ
  step : σ → ι → Option σ
  key_fresh : ∀ k, key (fresh k) = k
  key_step : ∀ s s' i, step s i = some s' → key s' = key s

namespace Machine

variable [LinearOrder κ] (M : Machine κ σ ι)

def stateAt (k : κ) (l : List σ) : σ := (lookup M.key k l).getD (M.fresh k)

def stepAt (l : List σ) (op : κ × ι) : Option (List σ) :=
  (M.step (M.stateAt op.1 l) op.2).map fun s => write M.key s l

/-- The inputs for one key. -/
def inputs (k : κ) : List (κ × ι) → List ι
  | [] => []
  | op :: ops => if op.1 = k then op.2 :: inputs k ops else inputs k ops

variable {M}

theorem key_stateAt (k : κ) (l : List σ) : M.key (M.stateAt k l) = k := by
  unfold stateAt
  cases h : lookup M.key k l with
  | none => exact M.key_fresh k
  | some s => exact of_decide_eq_true (List.find?_some (p := fun s => decide (M.key s = k)) h)

theorem inputs_append (k : κ) (ops rest : List (κ × ι)) :
    inputs k (ops ++ rest) = inputs k ops ++ inputs k rest := by
  induction ops with
  | nil => rfl
  | cons op ops ih =>
    by_cases hk : op.1 = k
    · simp [inputs, hk, ih]
    · simp [inputs, hk, ih]

theorem mem_inputs {k : κ} {i : ι} {ops : List (κ × ι)} :
    i ∈ inputs k ops ↔ (k, i) ∈ ops := by
  induction ops with
  | nil => simp [inputs]
  | cons op ops ih =>
    obtain ⟨other, j⟩ := op
    by_cases hk : other = k
    · simp [inputs, hk, ih]
    · simp [inputs, hk, ih, Ne.symm hk]

/-- A step moves the machine under its key and no other. -/
theorem stepAt_spec {l l' : List σ} {op : κ × ι} (h : M.stepAt l op = some l') :
    ∃ s, M.step (M.stateAt op.1 l) op.2 = some s ∧
      ∀ k, lookup M.key k l' = if op.1 = k then some s else lookup M.key k l := by
  obtain ⟨s, hs, rfl⟩ := Option.map_eq_some_iff.mp h
  have hkey : M.key s = op.1 := (M.key_step _ _ _ hs).trans (key_stateAt op.1 l)
  refine ⟨s, hs, fun k => ?_⟩
  rw [lookup_write, hkey]

theorem stateAt_of_lookup {l l' : List σ} {op : κ × ι} {s : σ}
    (h : ∀ k, lookup M.key k l' = if op.1 = k then some s else lookup M.key k l) (k : κ) :
    M.stateAt k l' = if op.1 = k then s else M.stateAt k l := by
  unfold stateAt
  rw [h]
  split
  · rfl
  · rfl

theorem run_stateAt {l l' : List σ} {ops : List (κ × ι)} (k : κ)
    (h : run M.stepAt l ops = some l') :
    run M.step (M.stateAt k l) (inputs k ops) = some (M.stateAt k l') := by
  induction ops generalizing l with
  | nil =>
    cases h
    rfl
  | cons op ops ih =>
    obtain ⟨t, ht, hrest⟩ := Option.bind_eq_some_iff.mp h
    obtain ⟨s, hs, hlookup⟩ := stepAt_spec ht
    have hnext := ih hrest
    rw [stateAt_of_lookup hlookup] at hnext
    by_cases hk : op.1 = k
    · subst hk
      rw [inputs, if_pos rfl, run_cons hs]
      rwa [if_pos rfl] at hnext
    · rw [inputs, if_neg hk]
      rwa [if_neg hk] at hnext

/-- The keys with a machine are those with an input, besides the ones from before. -/
theorem run_lookup {l l' : List σ} {ops : List (κ × ι)} (k : κ)
    (h : run M.stepAt l ops = some l') :
    (∃ s, lookup M.key k l' = some s) ↔
      (∃ s, lookup M.key k l = some s) ∨ inputs k ops ≠ [] := by
  induction ops generalizing l with
  | nil =>
    cases h
    simp [inputs]
  | cons op ops ih =>
    obtain ⟨t, ht, hrest⟩ := Option.bind_eq_some_iff.mp h
    obtain ⟨s, -, hlookup⟩ := stepAt_spec ht
    rw [ih hrest, hlookup]
    by_cases hk : op.1 = k
    · simp [inputs, hk]
    · simp [inputs, hk]

/-- All machines run through when each of them does. -/
theorem run_defined {l : List σ} {ops : List (κ × ι)}
    (h : ∀ k, ∃ s, run M.step (M.stateAt k l) (inputs k ops) = some s) :
    ∃ l', run M.stepAt l ops = some l' := by
  induction ops generalizing l with
  | nil => exact ⟨l, rfl⟩
  | cons op ops ih =>
    obtain ⟨last, hlast⟩ := h op.1
    rw [inputs, if_pos rfl] at hlast
    obtain ⟨s, hs, -⟩ := Option.bind_eq_some_iff.mp hlast
    have ht : M.stepAt l op = some (write M.key s l) := by
      unfold stepAt
      rw [hs]
      rfl
    rw [run_cons ht]
    obtain ⟨s', hs', hlookup⟩ := stepAt_spec ht
    obtain rfl : s' = s := Option.some.inj (hs'.symm.trans hs)
    apply ih
    intro k
    obtain ⟨last, hlast⟩ := h k
    refine ⟨last, ?_⟩
    rw [stateAt_of_lookup hlookup]
    by_cases hk : op.1 = k
    · subst hk
      rw [inputs, if_pos rfl, run_cons hs] at hlast
      rwa [if_pos rfl]
    · rw [inputs, if_neg hk] at hlast
      rwa [if_neg hk]

end Machine

end KeyedRuns
