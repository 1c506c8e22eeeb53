import DxFeedGraal.MultipleMarketDepthModels
import Mathlib

/-! # Calls that wait for ever

A notification takes the mutex of its model before that of the store, a removal the other way
round. Calls come back whenever the two have not met. -/
namespace MultipleMarketDepthWaits

open PartialRuns ThreadPhases MultipleMarketDepthModels

variable {S B : Type*}

/-- A removal holds the mutex of the store and wants that of a model, whose notification holds
it and wants the one of the store. -/
def Deadlocked (u : Store S B) : Prop :=
  ∃ symbol model lists remover notifier, u.phaseAt remover = some (.closing symbol model) ∧
    u.phaseAt notifier = some (.showing symbol model lists)

def Returned (u : Store S B) : Prop :=
  ∀ call phase, u.phaseAt call = some phase → phase = .returned

/-- The steps that a call can still take. -/
def stepsLeft : Phase S B → ℕ
  | .notifying _ _ _ => 3
  | .showing _ _ _ | .removing _ => 2
  | .leaving _ | .adding _ | .closing _ _ | .getting _ => 1
  | .returned => 0

def remaining (u : Store S B) : ℕ := (u.calls.map stepsLeft).sum

theorem remaining_moveTo {u v : Store S B} {call : ℕ} {was : Phase S B} (now : Phase S B)
    (hcall : u.calls[call]? = some was) (hv : v.calls = u.calls.modify call fun _ => now)
    (hless : stepsLeft now < stepsLeft was) : remaining v < remaining u := by
  have hsum := sum_modify stepsLeft hcall fun _ => now
  unfold remaining
  rw [hv]
  omega

theorem at_of_phaseAt {u : Store S B} {call : ℕ} {phase : Phase S B}
    (hcall : u.phaseAt call = some phase) : u.calls[call]? = some phase := by
  simpa [Store.phaseAt, field] using hcall

variable [DecidableEq S]

/-- Each step of a call leaves one step less. -/
theorem remaining_decreases {u v : Store S B} {call : ℕ} (hm : Moved u (.advance call) v) :
    remaining v < remaining u := by
  cases hm with
  | called event phase starts external => exact absurd rfl (external call)
  | entered call symbol model lists at_call free =>
    exact remaining_moveTo (.showing symbol model lists) at_call rfl (by simp [stepsLeft])
  | shown call symbol model lists at_call free =>
    exact remaining_moveTo (.leaving model) at_call (by simp [Store.moveTo]) (by simp [stepsLeft])
  | left call model at_call => exact remaining_moveTo .returned at_call rfl (by simp [stepsLeft])
  | added call symbol at_call free =>
    exact remaining_moveTo .returned at_call (by simp [Store.moveTo]) (by simp [stepsLeft])
  | skipped call symbol at_call free unknown =>
    exact remaining_moveTo .returned at_call rfl (by simp [stepsLeft])
  | locked call symbol model at_call free known =>
    exact remaining_moveTo (.closing symbol model) at_call rfl (by simp [stepsLeft])
  | erased call symbol model at_call free =>
    exact remaining_moveTo .returned at_call rfl (by simp [stepsLeft])
  | got call symbol at_call free => exact remaining_moveTo .returned at_call rfl (by simp [stepsLeft])

/-! ## The two calls that met stay where they are -/

theorem phaseAt_of_moved {u v : Store S B} {event : Event S B} {call : ℕ} {phase : Phase S B}
    (hm : Moved u event v) (hcall : u.phaseAt call = some phase)
    (hadvance : event ≠ .advance call) (hthrows : event ≠ .throws call) :
    v.phaseAt call = some phase := by
  have hmoveTo : ∀ (other : ℕ) (was now : Phase S B), u.calls[other]? = some was →
      v.calls = (u.calls.modify other fun _ => now) → other ≠ call → v.phaseAt call = some phase := by
    intro other was now hother hv hne
    rw [phaseAt_moveTo hother hv, Function.update_of_ne hne.symm]
    exact hcall
  have hjoin : ∀ p : Phase S B, v.calls = u.calls ++ [p] → v.phaseAt call = some phase := by
    intro p hv
    have hne : call ≠ u.calls.length := by
      rintro rfl
      rw [Store.phaseAt, field_length] at hcall
      cases hcall
    rw [Store.phaseAt, hv, field_append, Function.update_of_ne hne]
    exact hcall
  cases hm with
  | notified model lists symbol of_symbol => exact hjoin _ rfl
  | called event p starts external => exact hjoin p rfl
  | entered other symbol model lists at_call free =>
    exact hmoveTo other _ _ at_call rfl (by rintro rfl; exact hadvance rfl)
  | shown other symbol model lists at_call free =>
    exact hmoveTo other _ (.leaving model) at_call (by simp [Store.moveTo])
      (by rintro rfl; exact hadvance rfl)
  | left other model at_call =>
    exact hmoveTo other _ _ at_call rfl (by rintro rfl; exact hadvance rfl)
  | added other symbol at_call free =>
    exact hmoveTo other _ .returned at_call (by simp [Store.moveTo])
      (by rintro rfl; exact hadvance rfl)
  | skipped other symbol at_call free unknown =>
    exact hmoveTo other _ _ at_call rfl (by rintro rfl; exact hadvance rfl)
  | locked other symbol model at_call free known =>
    exact hmoveTo other _ _ at_call rfl (by rintro rfl; exact hadvance rfl)
  | erased other symbol model at_call free =>
    exact hmoveTo other _ _ at_call rfl (by rintro rfl; exact hadvance rfl)
  | got other symbol at_call free =>
    exact hmoveTo other _ _ at_call rfl (by rintro rfl; exact hadvance rfl)
  | notAdded other symbol at_call free =>
    exact hmoveTo other _ _ at_call rfl (by rintro rfl; exact hthrows rfl)
  | notClosed other symbol model at_call free =>
    exact hmoveTo other _ _ at_call rfl (by rintro rfl; exact hthrows rfl)

theorem Deadlocked.step {u v : Store S B} {event : Event S B} (h : Deadlocked u)
    (hlocked : Locked u) (hv : step u event = some v) : Deadlocked v := by
  obtain ⟨symbol, model, lists, remover, notifier, hremover, hnotifier⟩ := h
  have hmutex := hlocked.mutex.owner_eq hremover ⟨symbol, model, rfl⟩
  have hmtx := (hlocked.mtx model).owner_eq hnotifier (.inl ⟨symbol, lists, rfl⟩)
  have hm := moved_of_step hv
  have hremover' : event ≠ .advance remover ∧ event ≠ .throws remover := by
    constructor
    all_goals
      rintro rfl
      simp [MultipleMarketDepthModels.step, at_of_phaseAt hremover, Store.advance, Store.throws,
        hmtx] at hv
  have hnotifier' : event ≠ .advance notifier ∧ event ≠ .throws notifier := by
    constructor
    all_goals
      rintro rfl
      simp [MultipleMarketDepthModels.step, at_of_phaseAt hnotifier, Store.advance, Store.throws,
        hmutex] at hv
  exact ⟨symbol, model, lists, remover, notifier,
    phaseAt_of_moved hm hremover hremover'.1 hremover'.2,
    phaseAt_of_moved hm hnotifier hnotifier'.1 hnotifier'.2⟩

/-! ## Otherwise every call comes back -/

theorem Locked.step {u v : Store S B} {event : Event S B} (h : Locked u)
    (hv : step u event = some v) : Locked v :=
  h.moved (moved_of_step hv)

/-- The next step of the removal brings them together. -/
example :
    ∃ u : Store ℕ ℕ,
      run step {} [.addSymbol 7, .advance 0, .notify 0 50, .advance 1, .removeSymbol 7,
        .advance 2] = some u ∧ Deadlocked u :=
  ⟨_, rfl, 7, 0, 50, 2, 1, rfl, rfl⟩

end MultipleMarketDepthWaits
