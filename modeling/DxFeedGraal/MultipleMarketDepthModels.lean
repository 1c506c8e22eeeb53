import DxFeedGraal.PartialRuns
import DxFeedGraal.ThreadPhases
import Mathlib.Logic.Function.Basic

/-! # Order books of many symbols

One market depth model for each symbol, all of them handing their lists to one store. A model
hands them over under its own mutex and then wants the mutex of the store, which a removal
holds while it wants the mutex of the model. Every call is a thread of its own; steps are taken
in any order. The listener does not use the store. -/
namespace MultipleMarketDepthModels

open PartialRuns ThreadPhases

-- Symbols, and the two lists of a book.
variable {S B : Type*} [DecidableEq S]

/-- Where a call stands. A notification wants the mutex of its model, holds it and wants the
one of the store, has been with the listener; a removal may hold the mutex of the store and
want the one of the model. -/
inductive Phase (S B : Type*) where
  | notifying (symbol : S) (model : ℕ) (lists : B)
  | showing (symbol : S) (model : ℕ) (lists : B)
  | leaving (model : ℕ)
  | adding (symbol : S)
  | removing (symbol : S)
  | closing (symbol : S) (model : ℕ)
  | getting (symbol : S)
  | returned
  deriving DecidableEq, Repr

/-- A notification keeps its model alive. One that a timer of the model runs reaches it by a bare
pointer and does not: such notifications are none of the calls here. -/
def Phase.keepsAlive (model : ℕ) : Phase S B → Bool
  | .notifying _ m _ | .showing _ m _ | .leaving m => m = model
  | .adding _ | .removing _ | .closing _ _ | .getting _ | .returned => false

/-- What a call did in its turn with the mutex of the store, and its answer: the book that the
listener was handed, or the one found with its lists. -/
inductive Operation (S B : Type*) where
  | addSymbol (symbol : S)
  | removeSymbol (symbol : S)
  | onBook (symbol : S) (lists : B) (book : Option ℕ)
  | tryGetBook (symbol : S) (book : Option (ℕ × B))
  deriving DecidableEq, Repr

structure Store (S B : Type*) where
  /-- `models_`, by the number of the model. -/
  models : S → Option ℕ := fun _ => none
  /-- `books_`, by the number of the object. -/
  books : S → Option ℕ := fun _ => none
  objects : List B := []
  /-- The symbols of all models that were created. -/
  created : List S := []
  mutex : Option ℕ := none
  /-- `mtx_` of each model. -/
  mtx : ℕ → Option ℕ := fun _ => none
  calls : List (Phase S B) := []
  /-- The first operation first. -/
  done : List (Operation S B) := []

inductive Event (S B : Type*) where
  | notify (model : ℕ) (lists : B)
  | addSymbol (symbol : S)
  | removeSymbol (symbol : S)
  | tryGetBook (symbol : S)
  | advance (call : ℕ)
  /-- `createModel` or `close` throws. -/
  | throws (call : ℕ)
  deriving DecidableEq, Repr

namespace Store

variable (u : Store S B)

def call (phase : Phase S B) : Store S B := { u with calls := u.calls ++ [phase] }

def moveTo (call : ℕ) (phase : Phase S B) : Store S B :=
  { u with calls := u.calls.modify call fun _ => phase }

/-- The object is looked up in `books_`, and its lists with it. -/
def found (symbol : S) : Option (ℕ × B) :=
  (u.books symbol).bind fun book => u.objects[book]?.map fun lists => (book, lists)

def onBook (symbol : S) (lists : B) : Store S B :=
  match u.models symbol with
  | none => { u with done := u.done ++ [.onBook symbol lists none] }
  | some _ =>
    match u.books symbol with
    | some book =>
      { u with
        objects := u.objects.set book lists
        done := u.done ++ [.onBook symbol lists (some book)] }
    | none =>
      { u with
        books := Function.update u.books symbol (some u.objects.length)
        objects := u.objects ++ [lists]
        done := u.done ++ [.onBook symbol lists (some u.objects.length)] }

def addSymbol (symbol : S) : Store S B :=
  match u.models symbol with
  | some _ => { u with done := u.done ++ [.addSymbol symbol] }
  | none =>
    { u with
      models := Function.update u.models symbol (some u.created.length)
      created := u.created ++ [symbol]
      done := u.done ++ [.addSymbol symbol] }

/-- A symbol without a model is not there to be removed. -/
def skip (symbol : S) : Store S B := { u with done := u.done ++ [.removeSymbol symbol] }

/-- The symbol is taken out after its model was closed, if it had one. -/
def erase (symbol : S) : Store S B :=
  { u with
    models := Function.update u.models symbol none
    books := Function.update u.books symbol none
    done := u.done ++ [.removeSymbol symbol] }

def tryGetBook (symbol : S) : Store S B :=
  { u with done := u.done ++ [.tryGetBook symbol (u.found symbol)] }

/-- The next step of a call, which may have to wait for a mutex. -/
def advance (call : ℕ) : Phase S B → Option (Store S B)
  | .notifying symbol model lists =>
    if u.mtx model = none then
      some { u.moveTo call (.showing symbol model lists) with
        mtx := Function.update u.mtx model (some call) }
    else none
  | .showing symbol model lists =>
    if u.mutex = none then some ((u.onBook symbol lists).moveTo call (.leaving model)) else none
  | .leaving model =>
    some { u.moveTo call .returned with mtx := Function.update u.mtx model none }
  | .adding symbol =>
    if u.mutex = none then some ((u.addSymbol symbol).moveTo call .returned) else none
  | .removing symbol =>
    if u.mutex ≠ none then none
    else
      match u.models symbol with
      | none => some ((u.skip symbol).moveTo call .returned)
      | some model => some { u.moveTo call (.closing symbol model) with mutex := some call }
  | .closing symbol model =>
    if u.mtx model = none then
      some { (u.erase symbol).moveTo call .returned with mutex := none }
    else none
  | .getting symbol =>
    if u.mutex = none then some ((u.tryGetBook symbol).moveTo call .returned) else none
  | .returned => none

/-- The mutex of the store is freed and nothing is changed. -/
def throws (call : ℕ) : Phase S B → Option (Store S B)
  | .adding symbol =>
    if u.mutex = none ∧ u.models symbol = none then some (u.moveTo call .returned) else none
  | .closing _ model =>
    if u.mtx model = none then some { u.moveTo call .returned with mutex := none } else none
  | .notifying _ _ _ | .showing _ _ _ | .leaving _ | .removing _ | .getting _ | .returned => none

/-- A model is reached through a weak pointer. -/
def alive (symbol : S) (model : ℕ) : Bool :=
  u.models symbol = some model || u.calls.any (Phase.keepsAlive model)

end Store

def step (u : Store S B) : Event S B → Option (Store S B)
  | .notify model lists => u.created[model]?.bind fun symbol =>
    if u.alive symbol model then some (u.call (.notifying symbol model lists)) else none
  | .addSymbol symbol => some (u.call (.adding symbol))
  | .removeSymbol symbol => some (u.call (.removing symbol))
  | .tryGetBook symbol => some (u.call (.getting symbol))
  | .advance call => u.calls[call]?.bind (u.advance call)
  | .throws call => u.calls[call]?.bind (u.throws call)

/-- All that a step can do. -/
inductive Moved (u : Store S B) : Event S B → Store S B → Prop
  | notified (model : ℕ) (lists : B) (symbol : S) (of_symbol : u.created[model]? = some symbol) :
      Moved u (.notify model lists) (u.call (.notifying symbol model lists))
  | called (event : Event S B) (phase : Phase S B)
      (starts : ∃ symbol, phase = .adding symbol ∨ phase = .removing symbol ∨
        phase = .getting symbol) (external : ∀ call, event ≠ .advance call) :
      Moved u event (u.call phase)
  | entered (call : ℕ) (symbol : S) (model : ℕ) (lists : B)
      (at_call : u.calls[call]? = some (.notifying symbol model lists))
      (free : u.mtx model = none) :
      Moved u (.advance call)
        { u.moveTo call (.showing symbol model lists) with
          mtx := Function.update u.mtx model (some call) }
  | shown (call : ℕ) (symbol : S) (model : ℕ) (lists : B)
      (at_call : u.calls[call]? = some (.showing symbol model lists)) (free : u.mutex = none) :
      Moved u (.advance call) ((u.onBook symbol lists).moveTo call (.leaving model))
  | left (call model : ℕ) (at_call : u.calls[call]? = some (.leaving model)) :
      Moved u (.advance call)
        { u.moveTo call .returned with mtx := Function.update u.mtx model none }
  | added (call : ℕ) (symbol : S) (at_call : u.calls[call]? = some (.adding symbol))
      (free : u.mutex = none) :
      Moved u (.advance call) ((u.addSymbol symbol).moveTo call .returned)
  | skipped (call : ℕ) (symbol : S) (at_call : u.calls[call]? = some (.removing symbol))
      (free : u.mutex = none) (unknown : u.models symbol = none) :
      Moved u (.advance call) ((u.skip symbol).moveTo call .returned)
  | locked (call : ℕ) (symbol : S) (model : ℕ)
      (at_call : u.calls[call]? = some (.removing symbol)) (free : u.mutex = none)
      (known : u.models symbol = some model) :
      Moved u (.advance call) { u.moveTo call (.closing symbol model) with mutex := some call }
  | erased (call : ℕ) (symbol : S) (model : ℕ)
      (at_call : u.calls[call]? = some (.closing symbol model)) (free : u.mtx model = none) :
      Moved u (.advance call) { (u.erase symbol).moveTo call .returned with mutex := none }
  | got (call : ℕ) (symbol : S) (at_call : u.calls[call]? = some (.getting symbol))
      (free : u.mutex = none) :
      Moved u (.advance call) ((u.tryGetBook symbol).moveTo call .returned)
  | notAdded (call : ℕ) (symbol : S) (at_call : u.calls[call]? = some (.adding symbol))
      (free : u.mutex = none) : Moved u (.throws call) (u.moveTo call .returned)
  | notClosed (call : ℕ) (symbol : S) (model : ℕ)
      (at_call : u.calls[call]? = some (.closing symbol model)) (free : u.mtx model = none) :
      Moved u (.throws call) { u.moveTo call .returned with mutex := none }

theorem moved_of_advance {u v : Store S B} {call : ℕ} {phase : Phase S B}
    (hcall : u.calls[call]? = some phase) (hv : u.advance call phase = some v) :
    Moved u (.advance call) v := by
  cases phase with
  | notifying symbol model lists =>
    obtain ⟨hfree, hv⟩ := Option.ite_none_right_eq_some.mp hv
    cases hv
    exact .entered call symbol model lists hcall hfree
  | showing symbol model lists =>
    obtain ⟨hfree, hv⟩ := Option.ite_none_right_eq_some.mp hv
    cases hv
    exact .shown call symbol model lists hcall hfree
  | leaving model =>
    cases hv
    exact .left call model hcall
  | adding symbol =>
    obtain ⟨hfree, hv⟩ := Option.ite_none_right_eq_some.mp hv
    cases hv
    exact .added call symbol hcall hfree
  | removing symbol =>
    obtain ⟨hfree, hv⟩ := Option.ite_none_left_eq_some.mp hv
    have hfree : u.mutex = none := not_not.mp hfree
    cases hmodel : u.models symbol with
    | none =>
      rw [hmodel] at hv
      cases hv
      exact .skipped call symbol hcall hfree hmodel
    | some model =>
      rw [hmodel] at hv
      cases hv
      exact .locked call symbol model hcall hfree hmodel
  | closing symbol model =>
    obtain ⟨hfree, hv⟩ := Option.ite_none_right_eq_some.mp hv
    cases hv
    exact .erased call symbol model hcall hfree
  | getting symbol =>
    obtain ⟨hfree, hv⟩ := Option.ite_none_right_eq_some.mp hv
    cases hv
    exact .got call symbol hcall hfree
  | returned => cases hv

theorem moved_of_throws {u v : Store S B} {call : ℕ} {phase : Phase S B}
    (hcall : u.calls[call]? = some phase) (hv : u.throws call phase = some v) :
    Moved u (.throws call) v := by
  cases phase with
  | adding symbol =>
    obtain ⟨⟨hfree, -⟩, hv⟩ := Option.ite_none_right_eq_some.mp hv
    cases hv
    exact .notAdded call symbol hcall hfree
  | closing symbol model =>
    obtain ⟨hfree, hv⟩ := Option.ite_none_right_eq_some.mp hv
    cases hv
    exact .notClosed call symbol model hcall hfree
  | notifying _ _ _ => cases hv
  | showing _ _ _ => cases hv
  | leaving _ => cases hv
  | removing _ => cases hv
  | getting _ => cases hv
  | returned => cases hv

theorem moved_of_step {u v : Store S B} {event : Event S B} (hv : step u event = some v) :
    Moved u event v := by
  cases event with
  | notify model lists =>
    obtain ⟨symbol, hsymbol, hv⟩ := Option.bind_eq_some_iff.mp hv
    obtain ⟨-, hv⟩ := Option.ite_none_right_eq_some.mp hv
    cases hv
    exact .notified model lists symbol hsymbol
  | addSymbol symbol =>
    cases hv
    exact .called _ _ ⟨symbol, .inl rfl⟩ (by simp)
  | removeSymbol symbol =>
    cases hv
    exact .called _ _ ⟨symbol, .inr (.inl rfl)⟩ (by simp)
  | tryGetBook symbol =>
    cases hv
    exact .called _ _ ⟨symbol, .inr (.inr rfl)⟩ (by simp)
  | advance call =>
    obtain ⟨phase, hphase, hv⟩ := Option.bind_eq_some_iff.mp hv
    exact moved_of_advance hphase hv
  | throws call =>
    obtain ⟨phase, hphase, hv⟩ := Option.bind_eq_some_iff.mp hv
    exact moved_of_throws hphase hv

/-! ## Who holds which mutex -/

namespace Store

variable (u : Store S B)

abbrev phaseAt : ℕ → Option (Phase S B) := field id u.calls

@[simp] theorem onBook_calls (symbol : S) (lists : B) :
    (u.onBook symbol lists).calls = u.calls := by
  unfold onBook
  split
  next => rfl
  next => split <;> rfl

@[simp] theorem onBook_mutex (symbol : S) (lists : B) :
    (u.onBook symbol lists).mutex = u.mutex := by
  unfold onBook
  split
  next => rfl
  next => split <;> rfl

@[simp] theorem onBook_mtx (symbol : S) (lists : B) : (u.onBook symbol lists).mtx = u.mtx := by
  unfold onBook
  split
  next => rfl
  next => split <;> rfl

@[simp] theorem onBook_models (symbol : S) (lists : B) :
    (u.onBook symbol lists).models = u.models := by
  unfold onBook
  split
  next => rfl
  next => split <;> rfl

@[simp] theorem onBook_created (symbol : S) (lists : B) :
    (u.onBook symbol lists).created = u.created := by
  unfold onBook
  split
  next => rfl
  next => split <;> rfl

@[simp] theorem addSymbol_calls (symbol : S) : (u.addSymbol symbol).calls = u.calls := by
  unfold addSymbol
  split <;> rfl

@[simp] theorem addSymbol_mutex (symbol : S) : (u.addSymbol symbol).mutex = u.mutex := by
  unfold addSymbol
  split <;> rfl

@[simp] theorem addSymbol_mtx (symbol : S) : (u.addSymbol symbol).mtx = u.mtx := by
  unfold addSymbol
  split <;> rfl

end Store

def Phase.HoldsMutex (phase : Phase S B) : Prop := ∃ symbol model, phase = .closing symbol model

def Phase.HoldsMtx (model : ℕ) (phase : Phase S B) : Prop :=
  (∃ symbol lists, phase = .showing symbol model lists) ∨ phase = .leaving model

structure Locked (u : Store S B) : Prop where
  mutex : Owned Phase.HoldsMutex u.mutex u.phaseAt
  mtx : ∀ model, Owned (Phase.HoldsMtx model) (u.mtx model) u.phaseAt

section Locks

omit [DecidableEq S]

theorem phaseAt_moveTo {u v : Store S B} {call : ℕ} {was now : Phase S B}
    (hcall : u.calls[call]? = some was) (hv : v.calls = u.calls.modify call fun _ => now) :
    v.phaseAt = Function.update u.phaseAt call (some now) := by
  rw [Store.phaseAt, hv, field_modify id hcall]
  rfl

/-- A call goes on in a way that neither takes nor frees a mutex. -/
theorem Locked.keeps {u v : Store S B} (h : Locked u) {call : ℕ} {was : Phase S B}
    (now : Phase S B) (hcall : u.calls[call]? = some was) (hv : v.calls = u.calls.modify call fun _ => now)
    (hmutex : v.mutex = u.mutex) (hmtx : v.mtx = u.mtx) (hholds : now.HoldsMutex ↔ was.HoldsMutex)
    (hmodel : ∀ model, now.HoldsMtx model ↔ was.HoldsMtx model) : Locked v := by
  constructor
  · rw [phaseAt_moveTo hcall hv, hmutex]
    exact h.mutex.keeps (field_of_at id hcall) hholds
  · intro model
    rw [phaseAt_moveTo hcall hv, hmtx]
    exact (h.mtx model).keeps (field_of_at id hcall) (hmodel model)

theorem Locked.joins {u : Store S B} (h : Locked u) {phase : Phase S B}
    (hmutex : ¬ phase.HoldsMutex) (hmtx : ∀ model, ¬ phase.HoldsMtx model) :
    Locked (u.call phase) := by
  have hphase : (u.call phase).phaseAt = Function.update u.phaseAt u.calls.length (some phase) :=
    field_append id u.calls phase
  constructor
  · rw [hphase]
    exact h.mutex.joins (field_length id u.calls) hmutex
  · intro model
    rw [hphase]
    exact (h.mtx model).joins (field_length id u.calls) (hmtx model)

/-- A removal frees the mutex of the store. -/
theorem Locked.closed {u v : Store S B} (h : Locked u) {call : ℕ} {symbol : S} {model : ℕ}
    (hcall : u.calls[call]? = some (.closing symbol model))
    (hv : v.calls = u.calls.modify call fun _ => .returned) (hmutex : v.mutex = none)
    (hmtx : v.mtx = u.mtx) : Locked v := by
  constructor
  · rw [phaseAt_moveTo hcall hv, hmutex]
    exact h.mutex.releases (field_of_at id hcall) ⟨symbol, model, rfl⟩
      (by simp [Phase.HoldsMutex])
  · intro other
    rw [phaseAt_moveTo hcall hv, hmtx]
    exact (h.mtx other).keeps (field_of_at id hcall) (by simp [Phase.HoldsMtx])

end Locks

theorem Locked.moved {u v : Store S B} {event : Event S B} (h : Locked u)
    (hm : Moved u event v) : Locked v := by
  cases hm with
  | notified model lists symbol of_symbol =>
    exact h.joins (by simp [Phase.HoldsMutex]) (by simp [Phase.HoldsMtx])
  | called event phase starts external =>
    obtain ⟨symbol, rfl | rfl | rfl⟩ := starts
    all_goals exact h.joins (by simp [Phase.HoldsMutex]) (by simp [Phase.HoldsMtx])
  | entered call symbol model lists at_call free =>
    have hphase := phaseAt_moveTo (v := { u.moveTo call (.showing symbol model lists) with
      mtx := Function.update u.mtx model (some call) }) at_call rfl
    refine ⟨?_, fun other => ?_⟩
    · rw [hphase]
      exact h.mutex.keeps (field_of_at id at_call) (by simp [Phase.HoldsMutex])
    · rw [hphase]
      by_cases hother : other = model
      · subst hother
        have hfree := h.mtx other
        rw [free] at hfree
        change Owned _ (Function.update u.mtx other (some call) other) _
        rw [Function.update_self]
        exact hfree.acquires (.inl ⟨symbol, lists, rfl⟩)
      · change Owned _ (Function.update u.mtx model (some call) other) _
        rw [Function.update_of_ne hother]
        refine (h.mtx other).keeps (field_of_at id at_call) ?_
        simp [Phase.HoldsMtx, Ne.symm hother]
  | shown call symbol model lists at_call free =>
    refine h.keeps (.leaving model) at_call (by simp [Store.moveTo]) (by simp [Store.moveTo])
      (by simp [Store.moveTo]) (by simp [Phase.HoldsMutex]) fun other => ?_
    simp [Phase.HoldsMtx]
  | left call model at_call =>
    have hphase := phaseAt_moveTo (v := { u.moveTo call .returned with
      mtx := Function.update u.mtx model none }) at_call rfl
    refine ⟨?_, fun other => ?_⟩
    · rw [hphase]
      exact h.mutex.keeps (field_of_at id at_call) (by simp [Phase.HoldsMutex])
    · rw [hphase]
      by_cases hother : other = model
      · subst hother
        change Owned _ (Function.update u.mtx other none other) _
        rw [Function.update_self]
        exact (h.mtx other).releases (field_of_at id at_call) (.inr rfl)
          (by simp [Phase.HoldsMtx])
      · change Owned _ (Function.update u.mtx model none other) _
        rw [Function.update_of_ne hother]
        refine (h.mtx other).keeps (field_of_at id at_call) ?_
        simp [Phase.HoldsMtx, Ne.symm hother]
  | added call symbol at_call free =>
    exact h.keeps .returned at_call (by simp [Store.moveTo]) (by simp [Store.moveTo])
      (by simp [Store.moveTo]) (by simp [Phase.HoldsMutex]) (by simp [Phase.HoldsMtx])
  | skipped call symbol at_call free unknown =>
    exact h.keeps .returned at_call rfl rfl rfl (by simp [Phase.HoldsMutex]) (by simp [Phase.HoldsMtx])
  | locked call symbol model at_call free known =>
    have hphase := phaseAt_moveTo (v := { u.moveTo call (.closing symbol model) with
      mutex := some call }) at_call rfl
    refine ⟨?_, fun other => ?_⟩
    · rw [hphase]
      have hfree := h.mutex
      rw [free] at hfree
      exact hfree.acquires ⟨symbol, model, rfl⟩
    · rw [hphase]
      exact (h.mtx other).keeps (field_of_at id at_call) (by simp [Phase.HoldsMtx])
  | erased call symbol model at_call free =>
    exact h.closed at_call rfl rfl rfl
  | got call symbol at_call free =>
    exact h.keeps .returned at_call rfl rfl rfl (by simp [Phase.HoldsMutex]) (by simp [Phase.HoldsMtx])
  | notAdded call symbol at_call free =>
    exact h.keeps .returned at_call rfl rfl rfl (by simp [Phase.HoldsMutex]) (by simp [Phase.HoldsMtx])
  | notClosed call symbol model at_call free =>
    exact h.closed at_call rfl rfl rfl

/-! ## What the store is made of -/

/-- A notification carries the symbol of its model, a removal closes the model of its symbol. -/
def Phase.Fits (u : Store S B) : Phase S B → Prop
  | .notifying symbol model _ | .showing symbol model _ => u.created[model]? = some symbol
  | .closing symbol model => u.models symbol = some model
  | .leaving _ | .adding _ | .removing _ | .getting _ | .returned => True

/-- Every model and every book belongs to one symbol. -/
structure Filed (u : Store S B) : Prop where
  models : ∀ symbol model, u.models symbol = some model → u.created[model]? = some symbol
  books : ∀ symbol book, u.books symbol = some book →
    u.models symbol ≠ none ∧ book < u.objects.length
  apart : ∀ symbol other book, u.books symbol = some book → u.books other = some book →
    symbol = other
  calls : ∀ call phase, u.phaseAt call = some phase → phase.Fits u

section Files

omit [DecidableEq S]

theorem Phase.Fits.of_same {u v : Store S B} {phase : Phase S B} (h : phase.Fits u)
    (hcreated : v.created = u.created) (hmodels : v.models = u.models) : phase.Fits v := by
  cases phase with
  | notifying symbol model lists => exact (congrArg (·[model]?) hcreated).trans h
  | showing symbol model lists => exact (congrArg (·[model]?) hcreated).trans h
  | closing symbol model => exact (congrFun hmodels symbol).trans h
  | leaving _ => trivial
  | adding _ => trivial
  | removing _ => trivial
  | getting _ => trivial
  | returned => trivial

/-- One call goes on while the others fit as before. -/
theorem fits_moveTo {u v : Store S B} {call : ℕ} {was : Phase S B} (now : Phase S B)
    (hcall : u.calls[call]? = some was) (hv : v.calls = u.calls.modify call fun _ => now)
    (hnow : now.Fits v)
    (hothers : ∀ other phase, other ≠ call → u.phaseAt other = some phase → phase.Fits v)
    (other : ℕ) (phase : Phase S B) (hother : v.phaseAt other = some phase) : phase.Fits v := by
  rw [phaseAt_moveTo hcall hv] at hother
  by_cases hsame : other = call
  · subst hsame
    rw [Function.update_self] at hother
    cases hother
    exact hnow
  · rw [Function.update_of_ne hsame] at hother
    exact hothers other phase hsame hother

/-- A call goes on and the store keeps its models and its books. -/
theorem Filed.keeps {u v : Store S B} (h : Filed u) {call : ℕ} {was : Phase S B}
    (now : Phase S B) (hcall : u.calls[call]? = some was)
    (hv : v.calls = u.calls.modify call fun _ => now) (hnow : now.Fits u)
    (hcreated : v.created = u.created) (hmodels : v.models = u.models)
    (hbooks : v.books = u.books) (hobjects : v.objects = u.objects) : Filed v := by
  constructor
  · rw [hmodels, hcreated]
    exact h.models
  · rw [hbooks, hmodels, hobjects]
    exact h.books
  · rw [hbooks]
    exact h.apart
  · refine fits_moveTo now hcall hv (hnow.of_same hcreated hmodels) fun other phase _ hother => ?_
    exact (h.calls other phase hother).of_same hcreated hmodels

theorem Filed.joins {u : Store S B} (h : Filed u) {phase : Phase S B} (hphase : phase.Fits u) :
    Filed (u.call phase) := by
  refine ⟨h.models, h.books, h.apart, fun other p hother => ?_⟩
  have hat : (u.call phase).phaseAt = Function.update u.phaseAt u.calls.length (some phase) :=
    field_append id u.calls phase
  rw [hat] at hother
  by_cases hnew : other = u.calls.length
  · subst hnew
    rw [Function.update_self] at hother
    cases hother
    exact hphase.of_same rfl rfl
  · rw [Function.update_of_ne hnew] at hother
    exact (h.calls other p hother).of_same rfl rfl

end Files

theorem Filed.shown {u : Store S B} (h : Filed u) {call : ℕ} {symbol : S} {model : ℕ} {lists : B}
    (hcall : u.calls[call]? = some (.showing symbol model lists)) :
    Filed ((u.onBook symbol lists).moveTo call (.leaving model)) := by
  have hcalls : ∀ other phase, ((u.onBook symbol lists).moveTo call (.leaving model)).phaseAt
      other = some phase →
        phase.Fits ((u.onBook symbol lists).moveTo call (.leaving model)) := by
    refine fits_moveTo (.leaving model) hcall (by simp [Store.moveTo]) trivial
      fun other phase _ hother => ?_
    exact (h.calls other phase hother).of_same (by simp [Store.moveTo]) (by simp [Store.moveTo])
  have hmodels : ∀ symbol' model', (u.onBook symbol lists).models symbol' = some model' →
      (u.onBook symbol lists).created[model']? = some symbol' := by
    simpa using h.models
  suffices hbooks : (∀ s b, (u.onBook symbol lists).books s = some b →
      (u.onBook symbol lists).models s ≠ none ∧ b < (u.onBook symbol lists).objects.length) ∧
      ∀ s t b, (u.onBook symbol lists).books s = some b →
        (u.onBook symbol lists).books t = some b → s = t by
    exact ⟨hmodels, hbooks.1, hbooks.2, hcalls⟩
  cases hmodel : u.models symbol with
  | none => simpa [Store.onBook, hmodel] using And.intro h.books h.apart
  | some m =>
    cases hbook : u.books symbol with
    | some book =>
      simp only [Store.onBook, hmodel, hbook, List.length_set]
      exact ⟨h.books, h.apart⟩
    | none =>
      simp only [Store.onBook, hmodel, hbook, List.length_append, List.length_singleton]
      constructor
      · intro s b hs
        by_cases hsymbol : s = symbol
        · subst hsymbol
          rw [Function.update_self] at hs
          cases hs
          exact ⟨by simp [hmodel], Nat.lt_succ_self _⟩
        · rw [Function.update_of_ne hsymbol] at hs
          exact ⟨(h.books s b hs).1, (h.books s b hs).2.trans (Nat.lt_succ_self _)⟩
      · intro s t b hs ht
        by_cases hsymbol : s = symbol <;> by_cases htsymbol : t = symbol
        · rw [hsymbol, htsymbol]
        · subst hsymbol
          rw [Function.update_self] at hs
          rw [Function.update_of_ne htsymbol] at ht
          cases hs
          exact absurd (h.books t _ ht).2 (lt_irrefl _)
        · subst htsymbol
          rw [Function.update_self] at ht
          rw [Function.update_of_ne hsymbol] at hs
          cases ht
          exact absurd (h.books s _ hs).2 (lt_irrefl _)
        · rw [Function.update_of_ne hsymbol] at hs
          rw [Function.update_of_ne htsymbol] at ht
          exact h.apart s t b hs ht

theorem Filed.added {u : Store S B} (h : Filed u) {call : ℕ} {symbol : S}
    (hcall : u.calls[call]? = some (.adding symbol)) :
    Filed ((u.addSymbol symbol).moveTo call .returned) := by
  cases hmodel : u.models symbol with
  | some model =>
    have hsame : u.addSymbol symbol = { u with done := u.done ++ [.addSymbol symbol] } := by
      simp [Store.addSymbol, hmodel]
    rw [hsame]
    exact h.keeps .returned hcall rfl trivial rfl rfl rfl rfl
  | none =>
    have hnew : u.addSymbol symbol =
        { u with
          models := Function.update u.models symbol (some u.created.length)
          created := u.created ++ [symbol]
          done := u.done ++ [.addSymbol symbol] } := by
      simp [Store.addSymbol, hmodel]
    have hcreated : ∀ (m : ℕ) (s : S), u.created[m]? = some s →
        (u.created ++ [symbol])[m]? = some s := fun m s hs => by
      rwa [List.getElem?_append_left (List.getElem?_eq_some_iff.mp hs).1]
    have hother : ∀ s m, u.models s = some m → s ≠ symbol := by
      rintro s m hs rfl
      rw [hmodel] at hs
      cases hs
    rw [hnew]
    refine ⟨fun s m hs => ?_, fun s b hs => ⟨?_, (h.books s b hs).2⟩, h.apart, ?_⟩
    · change (u.created ++ [symbol])[m]? = some s
      change Function.update u.models symbol (some u.created.length) s = some m at hs
      by_cases hsymbol : s = symbol
      · subst hsymbol
        rw [Function.update_self] at hs
        cases hs
        exact List.getElem?_concat_length
      · rw [Function.update_of_ne hsymbol] at hs
        exact hcreated m s (h.models s m hs)
    · obtain ⟨m, hm⟩ := Option.ne_none_iff_exists'.mp (h.books s b hs).1
      change Function.update u.models symbol (some u.created.length) s ≠ none
      rw [Function.update_of_ne (hother s m hm), hm]
      exact Option.some_ne_none m
    · refine fits_moveTo .returned hcall rfl trivial fun other phase _ hat => ?_
      have hfits := h.calls other phase hat
      cases phase with
      | notifying s m l => exact hcreated m s hfits
      | showing s m l => exact hcreated m s hfits
      | closing s m =>
        change Function.update u.models symbol (some u.created.length) s = some m
        rwa [Function.update_of_ne (hother s m hfits)]
      | leaving _ => trivial
      | adding _ => trivial
      | removing _ => trivial
      | getting _ => trivial
      | returned => trivial

theorem Filed.erased {u : Store S B} (h : Filed u) (hlocked : Locked u) {call : ℕ} {symbol : S}
    {model : ℕ} (hcall : u.calls[call]? = some (.closing symbol model)) :
    Filed { (u.erase symbol).moveTo call .returned with mutex := none } := by
  have hheld := hlocked.mutex.owner_eq (field_of_at id hcall) ⟨symbol, model, rfl⟩
  have hold : ∀ {γ : Type} (f : S → Option γ) (s : S) (c : γ),
      Function.update f symbol none s = some c → s ≠ symbol ∧ f s = some c := by
    intro γ f s c hs
    by_cases hsymbol : s = symbol
    · subst hsymbol
      rw [Function.update_self] at hs
      cases hs
    · rw [Function.update_of_ne hsymbol] at hs
      exact ⟨hsymbol, hs⟩
  refine ⟨fun s m hs => h.models s m (hold u.models s m hs).2, fun s b hs => ?_,
    fun s t b hs ht => h.apart s t b (hold u.books s b hs).2 (hold u.books t b ht).2, ?_⟩
  · obtain ⟨hsymbol, hs⟩ := hold u.books s b hs
    refine ⟨?_, (h.books s b hs).2⟩
    change Function.update u.models symbol none s ≠ none
    rw [Function.update_of_ne hsymbol]
    exact (h.books s b hs).1
  · refine fits_moveTo .returned hcall rfl trivial fun other phase hother hat => ?_
    have hfits := h.calls other phase hat
    cases phase with
    | notifying _ _ _ => exact hfits
    | showing _ _ _ => exact hfits
    | closing s m =>
      -- Only the holder of the mutex of the store closes a model.
      have howner := hlocked.mutex.owner_eq hat ⟨s, m, rfl⟩
      rw [hheld] at howner
      exact absurd (Option.some.inj howner).symm hother
    | leaving _ => trivial
    | adding _ => trivial
    | removing _ => trivial
    | getting _ => trivial
    | returned => trivial

theorem Filed.moved {u v : Store S B} {event : Event S B} (h : Filed u) (hlocked : Locked u)
    (hm : Moved u event v) : Filed v := by
  cases hm with
  | notified model lists symbol of_symbol => exact h.joins of_symbol
  | called event phase starts external =>
    obtain ⟨symbol, rfl | rfl | rfl⟩ := starts
    all_goals exact h.joins trivial
  | entered call symbol model lists at_call free =>
    have hfits := h.calls call _ (field_of_at id at_call)
    exact h.keeps (.showing symbol model lists) at_call rfl hfits rfl rfl rfl rfl
  | shown call symbol model lists at_call free => exact h.shown at_call
  | left call model at_call => exact h.keeps .returned at_call rfl trivial rfl rfl rfl rfl
  | added call symbol at_call free => exact h.added at_call
  | skipped call symbol at_call free unknown =>
    exact h.keeps .returned at_call rfl trivial rfl rfl rfl rfl
  | locked call symbol model at_call free known =>
    exact h.keeps (.closing symbol model) at_call rfl known rfl rfl rfl rfl
  | erased call symbol model at_call free => exact h.erased hlocked at_call
  | got call symbol at_call free => exact h.keeps .returned at_call rfl trivial rfl rfl rfl rfl
  | notAdded call symbol at_call free =>
    exact h.keeps .returned at_call rfl trivial rfl rfl rfl rfl
  | notClosed call symbol model at_call free =>
    exact h.keeps .returned at_call rfl trivial rfl rfl rfl rfl

theorem sound_run {events : List (Event S B)} {u : Store S B}
    (hrun : run step {} events = some u) : Locked u ∧ Filed u := by
  have hstep : ∀ (u v : Store S B) (event : Event S B), Locked u ∧ Filed u →
      step u event = some v → Locked v ∧ Filed v := fun u v event h hv =>
    ⟨h.1.moved (moved_of_step hv), h.2.moved h.1 (moved_of_step hv)⟩
  have hempty : ∀ call, ({} : Store S B).phaseAt call = none := fun call => rfl
  refine run_invariant hstep ⟨⟨fun call => ?_, fun model call => ?_⟩, ?_⟩ hrun
  · simp [hempty]
  · simp [hempty]
  · constructor <;> simp [hempty]

end MultipleMarketDepthModels
