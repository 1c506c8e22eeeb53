import DxFeedGraal.SimpleHandlers
import Mathlib.Data.List.Induction
import Mathlib.Logic.Function.Basic

/-! # State change listeners behind an endpoint handle

The wrapper of a handle keeps the identifier under which the endpoint's handler holds a
callback. Other handles and other code share the endpoint and the counter of identifiers. -/
namespace StateChangeListeners

open SimpleHandlers

/-- What the handler of an endpoint holds: closures of this handle and those of others. -/
inductive Closure (U C F : Type) where
  | listener (userData : U) (callback : C)
  | other (tag : F)
  deriving DecidableEq, Repr

structure EndpointWrapper (U C : Type) where
  userData : U
  listeners : C → Option UInt64 := fun _ => none

def EndpointWrapper.register {U C : Type} [DecidableEq C] (w : EndpointWrapper U C)
    (listener : C) (id : UInt64) : EndpointWrapper U C :=
  { w with listeners := Function.update w.listeners listener (some id) }

/-- The wrapper is gone once the handle is released. -/
structure State (U C F : Type) where
  lastId : UInt64 := 0
  onStateChange : SimpleHandler (Closure U C F) := {}
  wrapper : Option (EndpointWrapper U C) := none

inductive ErrorCode where
  | SUCCESS | ERROR
  deriving DecidableEq, Repr

variable {U C F : Type} [DecidableEq C]

/-- A null callback is refused, and so is a handle without a wrapper. -/
def addStateChangeListener (s : State U C F) : Option C → ErrorCode × State U C F
  | none => (.ERROR, s)
  | some listener =>
    match s.wrapper with
    | none => (.ERROR, s)
    | some w =>
      if (w.listeners listener).isSome then (.SUCCESS, s)
      else
        let added := s.onStateChange.add (.listener w.userData listener) s.lastId
        (.SUCCESS, ⟨added.2.2, added.2.1, some (w.register listener added.1)⟩)

/-- The entry of the map stays. -/
def removeStateChangeListener (s : State U C F) : Option C → ErrorCode × State U C F
  | none => (.ERROR, s)
  | some listener =>
    match s.wrapper with
    | none => (.ERROR, s)
    | some w =>
      match w.listeners listener with
      | none => (.SUCCESS, s)
      | some id => (.SUCCESS, { s with onStateChange := s.onStateChange.remove id })

/-- Releasing a handle takes its wrapper out of the registry. -/
def free (s : State U C F) : ErrorCode × State U C F :=
  match s.wrapper with
  | none => (.ERROR, s)
  | some _ => (.SUCCESS, { s with wrapper := none })

/-- What other code does: it adds to the handler, removes its own listeners, or takes an
identifier for a handler of another endpoint. -/
inductive Foreign (F : Type) where
  | add (tag : F)
  | addLowPriority (tag : F)
  | remove (id : UInt64)
  | takeId (tag : F)
  deriving DecidableEq, Repr

def Closure.isOther : Closure U C F → Bool
  | .other _ => true
  | .listener _ _ => false

def foreign (s : State U C F) : Foreign F → State U C F
  | .add tag =>
    let added := s.onStateChange.add (.other tag) s.lastId
    { s with lastId := added.2.2, onStateChange := added.2.1 }
  | .addLowPriority tag =>
    let added := s.onStateChange.addLowPriority (.other tag) s.lastId
    { s with lastId := added.2.2, onStateChange := added.2.1 }
  | .remove id =>
    if s.onStateChange.entries.all fun e => e.1 != id || e.2.isOther then
      { s with onStateChange := s.onStateChange.remove id }
    else s
  | .takeId tag => { s with lastId := (({} : SimpleHandler F).add tag s.lastId).2.2 }

inductive Operation (C F : Type) where
  | add (listener : Option C)
  | remove (listener : Option C)
  | free
  | foreign (action : Foreign F)
  deriving DecidableEq, Repr

def step (s : State U C F) : Operation C F → State U C F
  | .add listener => (addStateChangeListener s listener).2
  | .remove listener => (removeStateChangeListener s listener).2
  | .free => (free s).2
  | .foreign action => foreign s action

def run (s : State U C F) (ops : List (Operation C F)) : State U C F := ops.foldl step s

theorem unchanged_of_error {s : State U C F} {listener : Option C} :
    ((addStateChangeListener s listener).1 = .ERROR → (addStateChangeListener s listener).2 = s) ∧
      ((removeStateChangeListener s listener).1 = .ERROR →
        (removeStateChangeListener s listener).2 = s) := by
  cases listener with
  | none => exact ⟨fun _ => rfl, fun _ => rfl⟩
  | some listener =>
    cases hw : s.wrapper with
    | none => simp [addStateChangeListener, removeStateChangeListener, hw]
    | some w =>
      constructor
      · simp only [addStateChangeListener, hw]
        split <;> simp
      · simp only [removeStateChangeListener, hw]
        split <;> simp

/-- A new handle on an endpoint that others have used. -/
def opened (others : List (Foreign F)) (userData : U) : State U C F :=
  { others.foldl foreign {} with wrapper := some { userData := userData } }

def Closure.calls (listener : C) : Closure U C F → Bool
  | .listener _ callback => callback = listener
  | .other _ => false

/-- How often the endpoint calls a callback of the handle at a state change. -/
def calls (s : State U C F) (listener : C) : ℕ :=
  s.onStateChange.handle.countP (Closure.calls listener)

/-! ## What a caller has asked for -/

def Operation.adds (listener : C) : Operation C F → Bool
  | .add l => l = some listener
  | _ => false

def Operation.removes (listener : C) : Operation C F → Bool
  | .remove l => l = some listener
  | _ => false

def Operation.isFree : Operation C F → Bool
  | .free => true
  | _ => false

def added (listener : C) (ops : List (Operation C F)) : Bool := ops.any (Operation.adds listener)

/-- The last operation for the callback was an add. -/
def wanted (listener : C) (ops : List (Operation C F)) : Bool :=
  ops.foldl (fun w op => op.adds listener || (w && !op.removes listener)) false

def released (ops : List (Operation C F)) : Bool := ops.any Operation.isFree

def Served (ops : List (Operation C F)) (s : State U C F) : Prop :=
  ∀ listener, calls s listener = if wanted listener ops && !released ops then 1 else 0

/-- No callback comes back after it was removed, an identifier is left for a new one, and
none is added when the handle is released. -/
def Sound (ops : List (Operation C F)) (s : State U C F) : Operation C F → Prop
  | .add (some listener) => released ops = true ∨
      if added listener ops then wanted listener ops = true else s.lastId < FAKE_ID - 1
  | .free => released ops = true ∨ ∀ listener, wanted listener ops = false
  | _ => True

/-! ## The wrapper and the handler -/

/-- The map of the wrapper tells where the handler holds the callbacks of the handle. -/
structure Linked (h : SimpleHandler (Closure U C F)) (lastId : UInt64)
    (w : EndpointWrapper U C) : Prop where
  others : ∀ e ∈ h.lowPriorityListeners, e.2.isOther = true
  mapped : ∀ e ∈ h.entries, ∀ u listener, e.2 = .listener u listener →
    w.listeners listener = some e.1
  map_le : ∀ listener id, w.listeners listener = some id → id = FAKE_ID ∨ id ≤ lastId
  map_only : ∀ listener id, w.listeners listener = some id → ∀ e ∈ h.entries, e.1 = id →
    e.2 = .listener w.userData listener

variable {h : SimpleHandler (Closure U C F)} {lastId : UInt64} {w : EndpointWrapper U C}

omit [DecidableEq C] in
/-- No identifier of the map is the next one. -/
theorem Linked.next_unmapped (hw : Linked h lastId w) (hlast : ¬ lastId ≥ FAKE_ID - 1)
    (listener : C) : w.listeners listener ≠ some (lastId + 1) := by
  obtain ⟨hgrows, hbound⟩ := succ_of_not_exhausted hlast
  intro hmap
  rcases hw.map_le listener _ hmap with hid | hid
  · rw [hid] at hbound
    exact absurd hbound (UInt64.lt_irrefl _)
  · exact absurd hgrows (UInt64.not_lt.mpr hid)

omit [DecidableEq C] in
theorem Linked.raise (hw : Linked h lastId w) {n : UInt64} (hn : lastId ≤ n) : Linked h n w :=
  { hw with
    map_le := fun listener id hmap =>
      (hw.map_le listener id hmap).imp_right fun hle => UInt64.le_trans hle hn }

omit [DecidableEq C] in
theorem Linked.remove (hw : Linked h lastId w) (id : UInt64) : Linked (h.remove id) lastId w where
  others := fun e he => hw.others e ((remove_sublist h id).2.subset he)
  mapped := fun e he => hw.mapped e ((remove_entries_sublist h id).subset he)
  map_le := hw.map_le
  map_only := fun listener i hmap e he =>
    hw.map_only listener i hmap e ((remove_entries_sublist h id).subset he)

omit [DecidableEq C] in
theorem Linked.addOther (hw : Linked h lastId w) (hlast : ¬ lastId ≥ FAKE_ID - 1)
    {h' : SimpleHandler (Closure U C F)} {tag : F}
    (hadd : AddedTo h h' (lastId + 1) (.other tag)) : Linked h' (lastId + 1) w := by
  have hgrows := UInt64.le_of_lt (succ_of_not_exhausted hlast).1
  constructor
  · intro e he
    rcases hadd.mem_lowPriority e he with rfl | he
    · rfl
    · exact hw.others e he
  · intro e he u listener hcall
    rcases (hadd.mem_entries e).mp he with rfl | he
    · cases hcall
    · exact hw.mapped e he u listener hcall
  · exact (hw.raise hgrows).map_le
  · intro listener id hmap e he hid
    rcases (hadd.mem_entries e).mp he with rfl | he
    · subst hid
      exact absurd hmap (hw.next_unmapped hlast listener)
    · exact hw.map_only listener id hmap e he hid

theorem register_eq_some {listener other : C} {id i : UInt64} :
    (w.register listener id).listeners other = some i ↔
      other = listener ∧ i = id ∨ other ≠ listener ∧ w.listeners other = some i := by
  by_cases h : other = listener
  · subst h
    simp [EndpointWrapper.register, eq_comm]
  · simp [EndpointWrapper.register, h]

/-- A callback that the map does not hold is entered under what the handler answers. -/
theorem Linked.addListener (hw : Linked h lastId w) (hn : Numbered h lastId) {listener : C}
    (hnew : w.listeners listener = none) :
    Linked (h.add (.listener w.userData listener) lastId).2.1
      (h.add (.listener w.userData listener) lastId).2.2
      (w.register listener (h.add (.listener w.userData listener) lastId).1) := by
  have hkept : ∀ {i : UInt64} {other : C} {id : UInt64}, w.listeners other = some i →
      (w.register listener id).listeners other = some i := by
    intro i other id hmap
    refine register_eq_some.mpr (Or.inr ⟨fun heq => ?_, hmap⟩)
    rw [heq, hnew] at hmap
    cases hmap
  rcases add_cases hn (.listener w.userData listener) with
    ⟨-, hadd⟩ | ⟨hlast, h', hadd, hlow, hadded⟩
  · -- Nothing was added, and the map now holds the reserved identifier.
    rw [hadd]
    refine ⟨hw.others, fun e he u other hcall => hkept (hw.mapped e he u other hcall),
      fun other id hmap => ?_, fun other id hmap e he hid => ?_⟩
    · rcases register_eq_some.mp hmap with ⟨-, hid⟩ | ⟨-, hmap⟩
      · exact Or.inl hid
      · exact hw.map_le other id hmap
    · rcases register_eq_some.mp hmap with ⟨-, hfake⟩ | ⟨-, hmap⟩
      · have hle := hn.entries_le e he
        rw [hid, hfake] at hle
        exact absurd hn.bounded (UInt64.not_lt.mpr hle)
      · exact hw.map_only other id hmap e he hid
  · rw [hadd]
    have hgrows := UInt64.le_of_lt (succ_of_not_exhausted hlast).1
    refine ⟨fun e he => hw.others e (hlow ▸ he), fun e he u other hcall => ?_,
      fun other id hmap => ?_, fun other id hmap e he hid => ?_⟩
    · rcases (hadded.mem_entries e).mp he with rfl | he
      · cases hcall
        exact register_eq_some.mpr (Or.inl ⟨rfl, rfl⟩)
      · exact hkept (hw.mapped e he u other hcall)
    · rcases register_eq_some.mp hmap with ⟨-, hid⟩ | ⟨-, hmap⟩
      · exact Or.inr (hid ▸ UInt64.le_refl _)
      · exact (hw.raise hgrows).map_le other id hmap
    · rcases register_eq_some.mp hmap with ⟨hother, hnext⟩ | ⟨-, hmap⟩
      · subst hother
        rcases (hadded.mem_entries e).mp he with rfl | he
        · rfl
        · exact absurd (hid.trans hnext) (fresh_of_numbered hn hlast e he)
      · rcases (hadded.mem_entries e).mp he with rfl | he
        · subst hid
          exact absurd hmap (hw.next_unmapped hlast other)
        · exact hw.map_only other id hmap e he hid

/-! ## How often a callback is called -/

theorem calls_iff {listener : C} {c : Closure U C F} :
    c.calls listener = true ↔ ∃ u, c = .listener u listener := by
  cases c with
  | listener u callback => simp [Closure.calls]
  | other tag => simp [Closure.calls]

theorem calls_of_isOther {listener : C} {c : Closure U C F} (hc : c.isOther = true) :
    c.calls listener = false := by
  cases c with
  | listener u callback => cases hc
  | other tag => rfl

/-- The handler holds nothing for a callback that the map does not know. -/
theorem Linked.count_unmapped (hw : Linked h lastId w) {listener : C}
    (hnew : w.listeners listener = none) : h.handle.countP (Closure.calls listener) = 0 := by
  rw [List.countP_eq_zero]
  intro c hc hcalls
  obtain ⟨e, he, rfl⟩ := List.mem_map.mp hc
  obtain ⟨u, hu⟩ := calls_iff.mp hcalls
  have := hw.mapped e he u listener hu
  rw [hnew] at this
  cases this

theorem calls_added {s : State U C F} {h' : SimpleHandler (Closure U C F)} {id n : UInt64}
    {wrapper : Option (EndpointWrapper U C)} {u : U} {listener : C}
    (hadded : AddedTo s.onStateChange h' id (.listener u listener)) (other : C) :
    calls ⟨n, h', wrapper⟩ other = calls s other + if listener = other then 1 else 0 := by
  unfold calls
  rw [hadded.count]
  simp [Closure.calls]

/-- Removing what the map holds for a callback takes out its closure and no other. -/
theorem Linked.count_remove (hw : Linked h lastId w) (hn : Numbered h lastId) {listener : C}
    {id : UInt64} (hmap : w.listeners listener = some id) (other : C) :
    (h.remove id).handle.countP (Closure.calls other) =
      if other = listener then 0 else h.handle.countP (Closure.calls other) := by
  have hcalled : ∀ e ∈ h.entries, ∀ c : C, e.2.calls c = true → w.listeners c = some e.1 := by
    intro e he c hcalls
    obtain ⟨u, hu⟩ := calls_iff.mp hcalls
    exact hw.mapped e he u c hu
  by_cases hother : other = listener
  · subst hother
    rw [if_pos rfl]
    by_cases hid : id = FAKE_ID
    · rw [SimpleHandler.remove, if_pos hid, List.countP_eq_zero]
      intro c hc hcalls
      obtain ⟨e, he, rfl⟩ := List.mem_map.mp hc
      have hfake := hcalled e he other hcalls
      rw [hmap, hid] at hfake
      have hle := hn.entries_le e he
      rw [← Option.some.inj hfake] at hle
      exact absurd hn.bounded (UInt64.not_lt.mpr hle)
    · apply count_remove_self hid
      · intro e he hcalls
        have := hcalled e (List.mem_append_left _ he) other hcalls
        rw [hmap] at this
        exact (Option.some.inj this).symm
      · intro e he
        exact calls_of_isOther (hw.others e he)
  · rw [if_neg hother]
    apply count_remove_other
    intro e he hid
    rw [hw.map_only listener id hmap e he hid]
    simpa [Closure.calls] using fun heq => hother heq.symm

/-! ## Steps -/

/-- What other code does leaves the callbacks of the handle alone. -/
structure Unaffected (s t : State U C F) : Prop where
  numbered : Numbered t.onStateChange t.lastId
  wrapper_eq : t.wrapper = s.wrapper
  calls_eq : ∀ listener, calls t listener = calls s listener
  linked : ∀ w, Linked s.onStateChange s.lastId w → Linked t.onStateChange t.lastId w

theorem unaffected_self {s : State U C F}
    (hn : Numbered s.onStateChange s.lastId) : Unaffected s s :=
  ⟨hn, rfl, fun _ => rfl, fun _ hw => hw⟩

theorem unaffected_of_added {s : State U C F} (hn : Numbered s.onStateChange s.lastId)
    (hlast : ¬ s.lastId ≥ FAKE_ID - 1) {h' : SimpleHandler (Closure U C F)} {tag : F}
    (hadded : AddedTo s.onStateChange h' (s.lastId + 1) (.other tag)) :
    Unaffected s { s with lastId := s.lastId + 1, onStateChange := h' } where
  numbered := hn.added hlast hadded
  wrapper_eq := rfl
  calls_eq := fun listener => by
    unfold calls
    rw [hadded.count]
    simp [Closure.calls]
  linked := fun _ hw => hw.addOther hlast hadded

theorem foreign_unaffected {s : State U C F} (hn : Numbered s.onStateChange s.lastId)
    (action : Foreign F) : Unaffected s (foreign s action) := by
  cases action with
  | add tag =>
    rcases add_cases hn (.other tag) with ⟨-, hadd⟩ | ⟨hlast, h', hadd, -, hadded⟩
    · simp only [foreign, hadd]
      exact unaffected_self hn
    · simp only [foreign, hadd]
      exact unaffected_of_added hn hlast hadded
  | addLowPriority tag =>
    rcases addLowPriority_cases hn (.other tag) with ⟨-, hadd⟩ | ⟨hlast, h', hadd, hadded⟩
    · simp only [foreign, hadd]
      exact unaffected_self hn
    · simp only [foreign, hadd]
      exact unaffected_of_added hn hlast hadded
  | remove id =>
    by_cases hguard : (s.onStateChange.entries.all fun e => e.1 != id || e.2.isOther) = true
    · simp only [foreign, hguard, if_true]
      refine ⟨hn.remove id, rfl, fun listener => ?_, fun _ hw => hw.remove id⟩
      apply count_remove_other
      intro e he hid
      have hother := List.all_eq_true.mp hguard e he
      rw [hid] at hother
      exact calls_of_isOther (by simpa using hother)
    · simp only [foreign, hguard]
      exact unaffected_self hn
  | takeId tag =>
    have hempty : Numbered ({} : SimpleHandler F) s.lastId := ⟨hn.bounded, fun _ he => by cases he⟩
    rcases add_cases hempty tag with ⟨-, hadd⟩ | ⟨hlast, h', hadd, -, -⟩
    · simp only [foreign, hadd]
      exact unaffected_self hn
    · simp only [foreign, hadd]
      obtain ⟨hgrows, hbound⟩ := succ_of_not_exhausted hlast
      have hle := UInt64.le_of_lt hgrows
      exact ⟨⟨hbound, fun e he => UInt64.le_trans (hn.entries_le e he) hle⟩, rfl, fun _ => rfl,
        fun _ hw => hw.raise hle⟩

/-- The state after a history: released, or with a wrapper that holds what was added. -/
structure Reached (ops : List (Operation C F)) (s : State U C F) : Prop where
  numbered : Numbered s.onStateChange s.lastId
  wrapper : released ops = true ∧ s.wrapper = none ∨ released ops = false ∧
    ∃ w, s.wrapper = some w ∧ Linked s.onStateChange s.lastId w ∧
      ∀ listener, (w.listeners listener).isSome = added listener ops

/-! ### Histories that grow -/

theorem added_snoc (listener : C) (ops : List (Operation C F)) (op : Operation C F) :
    added listener (ops ++ [op]) = (added listener ops || op.adds listener) := by
  simp [added]

theorem wanted_snoc (listener : C) (ops : List (Operation C F)) (op : Operation C F) :
    wanted listener (ops ++ [op]) =
      (op.adds listener || (wanted listener ops && !op.removes listener)) := by
  simp [wanted]

omit [DecidableEq C] in
theorem released_snoc (ops : List (Operation C F)) (op : Operation C F) :
    released (ops ++ [op]) = (released ops || op.isFree) := by
  simp [released]

theorem run_snoc (s : State U C F) (ops : List (Operation C F)) (op : Operation C F) :
    run s (ops ++ [op]) = step (run s ops) op := by
  simp [run]

/-- An operation that asks for nothing and finds its callbacks where they were. -/
theorem served_iff_of_neutral {ops : List (Operation C F)} {op : Operation C F}
    {s t : State U C F} (hop : ∀ listener, op.adds listener = false ∧ op.removes listener = false)
    (hfree : op.isFree = false) (hcalls : ∀ listener, calls t listener = calls s listener) :
    Served (ops ++ [op]) t ↔ Served ops s := by
  have hwanted : ∀ listener, wanted listener (ops ++ [op]) = wanted listener ops := by
    intro listener
    rw [wanted_snoc, (hop listener).1, (hop listener).2]
    simp
  simp only [Served, hwanted, released_snoc, hfree, Bool.or_false, hcalls]

theorem Reached.of_neutral {ops : List (Operation C F)} {op : Operation C F} {s t : State U C F}
    (hs : Reached ops s) (hop : ∀ listener, op.adds listener = false) (hfree : op.isFree = false)
    (ht : Unaffected s t) : Reached (ops ++ [op]) t := by
  refine ⟨ht.numbered, ?_⟩
  rw [released_snoc, hfree, Bool.or_false, ht.wrapper_eq]
  rcases hs.wrapper with hgone | ⟨hreleased, w, hw, hlinked, hadded⟩
  · exact Or.inl hgone
  · refine Or.inr ⟨hreleased, w, hw, ht.linked w hlinked, fun listener => ?_⟩
    rw [hadded, added_snoc, hop, Bool.or_false]

/-- After the release nothing may be called. -/
theorem served_iff_of_released {ops : List (Operation C F)} {s : State U C F}
    (h : released ops = true) : Served ops s ↔ ∀ listener, calls s listener = 0 := by
  simp [Served, h]

theorem served_iff_of_registered {ops : List (Operation C F)} {s : State U C F}
    (h : released ops = false) :
    Served ops s ↔ ∀ listener, calls s listener = if wanted listener ops then 1 else 0 := by
  simp [Served, h]

/-- One operation keeps the record of what was added, and serves what is asked for exactly when
its condition holds. -/
structure StepSpec (ops : List (Operation C F)) (s : State U C F) (op : Operation C F) : Prop where
  reached : Reached (ops ++ [op]) (step s op)
  served : Served ops s → (Served (ops ++ [op]) (step s op) ↔ Sound ops s op)

/-- An operation on a released handle changes nothing. -/
theorem step_released {ops : List (Operation C F)} {s : State U C F} {op : Operation C F}
    (hs : Reached ops s) (hreleased : released ops = true) (hstep : step s op = s)
    (hsound : Sound ops s op) : StepSpec ops s op := by
  have hsnoc : released (ops ++ [op]) = true := by rw [released_snoc, hreleased, Bool.true_or]
  rcases hs.wrapper with ⟨-, hgone⟩ | ⟨hnot, -⟩
  · constructor
    · rw [hstep]
      exact ⟨hs.numbered, Or.inl ⟨hsnoc, hgone⟩⟩
    · intro hserved
      rw [hstep, served_iff_of_released hsnoc]
      exact iff_of_true ((served_iff_of_released hreleased).mp hserved) hsound
  · rw [hreleased] at hnot
    cases hnot

theorem step_neutral {ops : List (Operation C F)} {s : State U C F} {op : Operation C F}
    (hs : Reached ops s) (hop : ∀ listener, op.adds listener = false ∧ op.removes listener = false)
    (hfree : op.isFree = false) (hunaffected : Unaffected s (step s op))
    (hsound : Sound ops s op) : StepSpec ops s op where
  reached := hs.of_neutral (fun listener => (hop listener).1) hfree hunaffected
  served := fun hserved => iff_of_true
    ((served_iff_of_neutral hop hfree hunaffected.calls_eq).mpr hserved) hsound

theorem wanted_add (listener other : C) (ops : List (Operation C F)) :
    wanted other (ops ++ [.add (some listener)]) =
      (decide (listener = other) || wanted other ops) := by
  rw [wanted_snoc]
  simp [Operation.adds, Operation.removes]

theorem added_add (listener other : C) (ops : List (Operation C F)) :
    added other (ops ++ [.add (some listener)]) =
      (decide (listener = other) || added other ops) := by
  rw [added_snoc, Bool.or_comm]
  simp [Operation.adds]

omit [DecidableEq C] in
theorem released_add {ops : List (Operation C F)} (h : released ops = false) (listener : C) :
    released (ops ++ [.add (some listener)]) = false := by
  rw [released_snoc, h]
  rfl

theorem wanted_remove (listener other : C) (ops : List (Operation C F)) :
    wanted other (ops ++ [.remove (some listener)]) =
      (wanted other ops && !decide (listener = other)) := by
  rw [wanted_snoc]
  simp [Operation.adds, Operation.removes]

theorem added_remove (listener other : C) (ops : List (Operation C F)) :
    added other (ops ++ [.remove (some listener)]) = added other ops := by
  rw [added_snoc]
  simp [Operation.adds]

omit [DecidableEq C] in
theorem released_remove {ops : List (Operation C F)} (h : released ops = false) (listener : C) :
    released (ops ++ [.remove (some listener)]) = false := by
  rw [released_snoc, h]
  rfl

theorem sound_add {ops : List (Operation C F)} {s : State U C F} (h : released ops = false)
    {listener : C} : Sound ops s (.add (some listener)) ↔
      if added listener ops then wanted listener ops = true else s.lastId < FAKE_ID - 1 := by
  simp [Sound, h]

section Registered

variable {ops : List (Operation C F)} {s : State U C F} {w : EndpointWrapper U C}
  (hn : Numbered s.onStateChange s.lastId) (hreleased : released ops = false)
  (hw : s.wrapper = some w) (hlinked : Linked s.onStateChange s.lastId w)
  (hadded : ∀ listener, (w.listeners listener).isSome = added listener ops)

include hadded in
/-- What the map knows after a registration. -/
theorem isSome_register (listener : C) (id : UInt64) (other : C) :
    ((w.register listener id).listeners other).isSome =
      added other (ops ++ [.add (some listener)]) := by
  rw [added_add, ← hadded]
  by_cases hother : listener = other
  · subst hother
    simp [EndpointWrapper.register]
  · simp [EndpointWrapper.register, hother, Ne.symm hother]

include hn hreleased hw hlinked hadded in
/-- The map still knows the callback, so the call does nothing. -/
theorem step_add_known {listener : C} {id : UInt64} (hmap : w.listeners listener = some id) :
    StepSpec ops s (.add (some listener)) := by
  have hsnoc := released_add hreleased listener
  have hstep : step s (.add (some listener)) = s := by
    simp [step, addStateChangeListener, hw, hmap]
  have hknown : added listener ops = true := by
    rw [← hadded, hmap]
    rfl
  constructor
  · rw [hstep]
    refine ⟨hn, Or.inr ⟨hsnoc, w, hw, hlinked, fun other => ?_⟩⟩
    rw [hadded, added_add]
    by_cases hother : listener = other
    · subst hother
      simp [hknown]
    · simp [hother]
  · intro hserved
    have hbefore := (served_iff_of_registered hreleased).mp hserved
    rw [hstep, served_iff_of_registered hsnoc, sound_add hreleased, hknown, if_pos rfl]
    constructor
    · intro hafter
      have hone := hafter listener
      rw [wanted_add, hbefore listener] at hone
      simpa using hone
    · intro hlast other
      rw [hbefore other, wanted_add]
      by_cases hother : listener = other
      · subst hother
        simp [hlast]
      · simp [hother]

include hn hreleased hw hlinked hadded in
/-- A new callback is called from now on, unless the identifiers are used up. -/
theorem step_add_new {listener : C} (hmap : w.listeners listener = none) :
    StepSpec ops s (.add (some listener)) := by
  have hsnoc := released_add hreleased listener
  have hunknown : added listener ops = false := by
    rw [← hadded, hmap]
    rfl
  have hzero : calls s listener = 0 := hlinked.count_unmapped hmap
  have hstep : step s (.add (some listener)) =
      ⟨(s.onStateChange.add (.listener w.userData listener) s.lastId).2.2,
        (s.onStateChange.add (.listener w.userData listener) s.lastId).2.1,
        some (w.register listener
          (s.onStateChange.add (.listener w.userData listener) s.lastId).1)⟩ := by
    simp [step, addStateChangeListener, hw, hmap]
  have hlink := hlinked.addListener hn hmap
  rcases add_cases hn (.listener w.userData listener) with
    ⟨hlast, hadd⟩ | ⟨hlast, h', hadd, -, haddedTo⟩
  · rw [hadd] at hstep hlink
    constructor
    · rw [hstep]
      exact ⟨hn, Or.inr ⟨hsnoc, _, rfl, hlink, isSome_register hadded listener _⟩⟩
    · intro hserved
      rw [hstep, served_iff_of_registered hsnoc, sound_add hreleased, hunknown,
        if_neg Bool.false_ne_true]
      refine iff_of_false (fun hafter => ?_) (UInt64.not_lt.mpr hlast)
      have hone := hafter listener
      rw [wanted_add, decide_eq_true rfl] at hone
      exact absurd (hzero.symm.trans hone) (by simp)
  · rw [hadd] at hstep hlink
    constructor
    · rw [hstep]
      exact ⟨hn.added hlast haddedTo,
        Or.inr ⟨hsnoc, _, rfl, hlink, isSome_register hadded listener _⟩⟩
    · intro hserved
      have hbefore := (served_iff_of_registered hreleased).mp hserved
      rw [hstep, served_iff_of_registered hsnoc, sound_add hreleased, hunknown,
        if_neg Bool.false_ne_true]
      refine iff_of_true (fun other => ?_) (UInt64.not_le.mp hlast)
      rw [calls_added haddedTo, wanted_add]
      by_cases hother : listener = other
      · subst hother
        simp [hzero]
      · simp [hother, hbefore other]

include hn hreleased hw hlinked hadded in
theorem step_add (listener : C) : StepSpec ops s (.add (some listener)) := by
  cases hmap : w.listeners listener with
  | some id => exact step_add_known hn hreleased hw hlinked hadded hmap
  | none => exact step_add_new hn hreleased hw hlinked hadded hmap

include hn hreleased hw hlinked hadded in
/-- The map does not know the callback, and the handler holds nothing for it. -/
theorem step_remove_unknown {listener : C} (hmap : w.listeners listener = none) :
    StepSpec ops s (.remove (some listener)) := by
  have hsnoc := released_remove hreleased listener
  have hstep : step s (.remove (some listener)) = s := by
    simp [step, removeStateChangeListener, hw, hmap]
  constructor
  · rw [hstep]
    exact ⟨hn, Or.inr ⟨hsnoc, w, hw, hlinked, fun other => by rw [hadded, added_remove]⟩⟩
  · intro hserved
    have hbefore := (served_iff_of_registered hreleased).mp hserved
    rw [hstep, served_iff_of_registered hsnoc]
    refine iff_of_true (fun other => ?_) trivial
    rw [wanted_remove]
    by_cases hother : listener = other
    · subst hother
      have hzero : calls s listener = 0 := hlinked.count_unmapped hmap
      simp [hzero]
    · simp [hother, hbefore other]

include hn hreleased hw hlinked hadded in
/-- The closure of the callback leaves the handler; the map keeps its identifier. -/
theorem step_remove_known {listener : C} {id : UInt64} (hmap : w.listeners listener = some id) :
    StepSpec ops s (.remove (some listener)) := by
  have hsnoc := released_remove hreleased listener
  have hstep : step s (.remove (some listener)) =
      { s with onStateChange := s.onStateChange.remove id } := by
    simp [step, removeStateChangeListener, hw, hmap]
  constructor
  · rw [hstep]
    exact ⟨hn.remove id, Or.inr ⟨hsnoc, w, hw, hlinked.remove id,
      fun other => by rw [hadded, added_remove]⟩⟩
  · intro hserved
    have hbefore := (served_iff_of_registered hreleased).mp hserved
    rw [hstep, served_iff_of_registered hsnoc]
    refine iff_of_true (fun other => ?_) trivial
    have hcount : calls { s with onStateChange := s.onStateChange.remove id } other =
        if other = listener then 0 else calls s other := hlinked.count_remove hn hmap other
    rw [hcount, wanted_remove]
    by_cases hother : listener = other
    · subst hother
      simp
    · simp [hother, Ne.symm hother, hbefore other]

include hn hreleased hw hlinked hadded in
theorem step_remove (listener : C) : StepSpec ops s (.remove (some listener)) := by
  cases hmap : w.listeners listener with
  | none => exact step_remove_unknown hn hreleased hw hlinked hadded hmap
  | some id => exact step_remove_known hn hreleased hw hlinked hadded hmap

include hn hreleased hw in
theorem step_free : StepSpec ops s .free := by
  have hsnoc : released (ops ++ [.free]) = true := by
    rw [released_snoc]
    simp [Operation.isFree]
  have hstep : step s .free = { s with wrapper := none } := by
    simp [step, free, hw]
  constructor
  · rw [hstep]
    exact ⟨hn, Or.inl ⟨hsnoc, rfl⟩⟩
  · intro hserved
    have hbefore := (served_iff_of_registered hreleased).mp hserved
    rw [hstep, served_iff_of_released hsnoc]
    have hcalls : ∀ listener, calls s listener = 0 ↔ wanted listener ops = false := by
      intro listener
      rw [hbefore]
      cases wanted listener ops <;> simp
    simp only [Sound, hreleased, Bool.false_eq_true, false_or]
    exact forall_congr' hcalls

end Registered

theorem step_spec {ops : List (Operation C F)} {s : State U C F} (hs : Reached ops s)
    (op : Operation C F) : StepSpec ops s op := by
  cases op with
  | foreign action =>
    exact step_neutral hs (fun _ => ⟨rfl, rfl⟩) rfl (foreign_unaffected hs.numbered action) trivial
  | free =>
    rcases hs.wrapper with ⟨hreleased, hgone⟩ | ⟨hreleased, w, hw, -⟩
    · exact step_released hs hreleased (by simp [step, free, hgone]) (Or.inl hreleased)
    · exact step_free hs.numbered hreleased hw
  | add listener =>
    cases listener with
    | none => exact step_neutral hs (fun _ => ⟨rfl, rfl⟩) rfl (unaffected_self hs.numbered) trivial
    | some listener =>
      rcases hs.wrapper with ⟨hreleased, hgone⟩ | ⟨hreleased, w, hw, hlinked, hadded⟩
      · exact step_released hs hreleased (by simp [step, addStateChangeListener, hgone])
          (Or.inl hreleased)
      · exact step_add hs.numbered hreleased hw hlinked hadded listener
  | remove listener =>
    cases listener with
    | none => exact step_neutral hs (fun _ => ⟨rfl, rfl⟩) rfl (unaffected_self hs.numbered) trivial
    | some listener =>
      rcases hs.wrapper with ⟨hreleased, hgone⟩ | ⟨hreleased, w, hw, hlinked, hadded⟩
      · exact step_released hs hreleased (by simp [step, removeStateChangeListener, hgone]) trivial
      · exact step_remove hs.numbered hreleased hw hlinked hadded listener

/-! ## Runs -/

theorem others_only (others : List (Foreign F)) {s : State U C F}
    (hn : Numbered s.onStateChange s.lastId) (hs : ∀ listener, calls s listener = 0) :
    Numbered (others.foldl foreign s).onStateChange (others.foldl foreign s).lastId ∧
      ∀ listener, calls (others.foldl foreign s) listener = 0 := by
  induction others generalizing s with
  | nil => exact ⟨hn, hs⟩
  | cons action others ih =>
    have hunaffected := foreign_unaffected hn action
    exact ih hunaffected.numbered fun listener =>
      (hunaffected.calls_eq listener).trans (hs listener)

/-- A handler that calls no callback of the handle is linked to an empty map. -/
theorem linked_empty {h : SimpleHandler (Closure U C F)} {lastId : UInt64}
    (hcalls : ∀ listener, h.handle.countP (Closure.calls listener) = 0) (userData : U) :
    Linked h lastId { userData := userData } := by
  have hother : ∀ e ∈ h.entries, e.2.isOther = true := by
    intro e he
    cases hc : e.2 with
    | other tag => rfl
    | listener u callback =>
      have hnot := List.countP_eq_zero.mp (hcalls callback) e.2 (List.mem_map_of_mem he)
      exact absurd (calls_iff.mpr ⟨u, hc⟩) hnot
  constructor
  · intro e he
    exact hother e (List.mem_append_right _ he)
  · intro e he u listener hcall
    have := hother e he
    rw [hcall] at this
    cases this
  · intro listener id hmap
    cases hmap
  · intro listener id hmap
    cases hmap

/-- A new handle holds nothing, whatever others did before. -/
theorem reached_opened (others : List (Foreign F)) (userData : U) :
    Reached ([] : List (Operation C F)) (opened others userData) ∧
      Served ([] : List (Operation C F)) (opened others userData) := by
  have hempty : ∀ listener : C, calls ({} : State U C F) listener = 0 := fun _ => rfl
  obtain ⟨hn, hcalls⟩ := others_only others numbered_empty hempty
  constructor
  · exact ⟨hn, Or.inr ⟨rfl, _, rfl, linked_empty hcalls userData, fun _ => rfl⟩⟩
  · intro listener
    exact hcalls listener

theorem reached_run (others : List (Foreign F)) (userData : U) (ops : List (Operation C F)) :
    Reached ops (run (opened others userData) ops) := by
  induction ops using List.reverseRecOn with
  | nil => exact (reached_opened others userData).1
  | append_singleton ops op ih =>
    rw [run_snoc]
    exact (step_spec ih op).reached

/-- Along every history of a handle the endpoint calls exactly the callbacks asked for, each
once, and none after the release, exactly when every operation meets its condition. -/
theorem served_iff (others : List (Foreign F)) (userData : U) (ops : List (Operation C F)) :
    (∀ before after, ops = before ++ after → Served before (run (opened others userData) before)) ↔
      ∀ before op after, ops = before ++ op :: after →
        Sound before (run (opened others userData) before) op := by
  constructor
  · intro h before op after hops
    have hbefore := h before (op :: after) hops
    have hthen := h (before ++ [op]) after (by rw [hops, List.append_assoc]; rfl)
    rw [run_snoc] at hthen
    exact ((step_spec (reached_run others userData before) op).served hbefore).mp hthen
  · intro h before
    induction before using List.reverseRecOn with
    | nil => exact fun _ _ => (reached_opened others userData).2
    | append_singleton before op ih =>
      intro after hops
      have hops : ops = before ++ op :: after := by rw [hops, List.append_assoc]; rfl
      rw [run_snoc]
      have hspec := step_spec (reached_run others userData before) op
      exact (hspec.served (ih (op :: after) hops)).mpr (h before op after hops)

/-- A callback that comes back is not called, and one that is there at the release stays. -/
theorem callback_lost_and_left :
    ¬ Served ([.add (some 'a'), .remove (some 'a'), .add (some 'a')] : List (Operation Char Unit))
        (run (opened [] ()) [.add (some 'a'), .remove (some 'a'), .add (some 'a')]) ∧
      ¬ Served ([.add (some 'a'), .free] : List (Operation Char Unit))
        (run (opened [] ()) [.add (some 'a'), .free]) := by
  constructor
  · intro h
    have hcalled := h 'a'
    revert hcalled
    decide
  · intro h
    have hcalled := h 'a'
    revert hcalled
    decide

end StateChangeListeners
