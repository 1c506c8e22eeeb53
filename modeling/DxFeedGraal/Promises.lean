import DxFeedGraal.OwnershipLedgers
import DxFeedGraal.PartialRuns
import Mathlib.Data.List.Nodup
import Mathlib.Logic.Function.Basic
import Mathlib.Order.Nat

/-! # Ownership of promise handles

A promise releases its native handle when it is destroyed and owns it; a list releases its
own handle and those of its elements. Ownership is a flag that moves from promise to promise. -/
namespace Promises

open OwnershipLedgers PartialRuns

/-- `EventPromiseImpl` inside a promise, with the list that the promise is an element of.
Handles, promises and lists are named by numbers, in the order in which they are made. -/
structure Promise where
  handle : Option ℕ
  own : Bool
  holder : Option ℕ := none
  deriving DecidableEq, Repr

/-- `PromiseListImpl` with the elements of its native list and the promises made of them. -/
structure PromiseList where
  handle : ℕ
  elements : List (Option ℕ)
  data : List ℕ
  deriving DecidableEq, Repr

structure State where
  promises : ℕ → Option Promise := fun _ => none
  lists : ℕ → Option PromiseList := fun _ => none
  released : List ℕ := []
  nextHandle : ℕ := 0
  nextPromise : ℕ := 0
  nextList : ℕ := 0

def setPromise (s : State) (p : ℕ) (promise : Option Promise) : State :=
  { s with promises := Function.update s.promises p promise }

/-- The constructors `Promise(handle, own)`. -/
def newPromise (s : State) (promise : Promise) : State :=
  { setPromise s s.nextPromise (some promise) with nextPromise := s.nextPromise + 1 }

def release (s : State) (handles : List ℕ) : State :=
  { s with released := s.released ++ handles }

/-- The deleter ignores a null handle. -/
def destructor (s : State) (p : ℕ) : State :=
  match s.promises p with
  | some promise =>
    release (setPromise s p none) (if promise.own then promise.handle.toList else [])
  | none => s

def moveConstruct (s : State) (p : ℕ) : Option State :=
  (s.promises p).map fun other =>
    newPromise (setPromise s p (some { other with handle := none, own := false }))
      { handle := other.handle, own := other.own }

def sharedAs (s : State) (p : ℕ) (transferOwnership : Bool) : Option State :=
  (s.promises p).map fun promise =>
    newPromise
      (if transferOwnership then setPromise s p (some { promise with own := false }) else s)
      { handle := promise.handle, own := transferOwnership }

/-- The handles of a fresh native list, null elements included. -/
def freshElements (handle : ℕ) : List Bool → List (Option ℕ)
  | [] => []
  | true :: rest => some handle :: freshElements (handle + 1) rest
  | false :: rest => none :: freshElements handle rest

/-- The loop of `PromiseList::create`: every element that is not null is borrowed. -/
def emplaceElements (s : State) (l : ℕ) : List (Option ℕ) → State × List ℕ
  | [] => (s, [])
  | none :: rest => emplaceElements s l rest
  | some element :: rest =>
    let out := emplaceElements
      (newPromise s { handle := some element, own := false, holder := some l }) l rest
    (out.1, s.nextPromise :: out.2)

/-- `PromiseList::create` on a native list that was just made. -/
def createList (s : State) (elements : List Bool) : State :=
  let native := freshElements (s.nextHandle + 1) elements
  let out := emplaceElements { s with nextHandle := s.nextHandle + 1 + elements.length }
    s.nextList native
  { out.1 with
    lists := Function.update out.1.lists s.nextList (some ⟨s.nextHandle, native, out.2⟩)
    nextList := s.nextList + 1 }

/-- The handles that a list releases. -/
def PromiseList.handles (list : PromiseList) : List ℕ :=
  list.handle :: list.elements.filterMap id

/-- The promises of the vector go first, then the native list with its elements. -/
def destroyList (s : State) (l : ℕ) : Option State :=
  (s.lists l).map fun list =>
    let t := list.data.foldl destructor s
    release { t with lists := Function.update t.lists l none } list.handles

inductive Operation where
  | createPromise (own : Bool)
  | createList (handle : Option (List Bool))
  | moveConstruct (p : ℕ)
  | sharedAs (p : ℕ) (transferOwnership : Bool)
  | destroyPromise (p : ℕ)
  | destroyList (l : ℕ)
  deriving DecidableEq, Repr

/-- An operation on an object that does not exist is none, nor can an element of a list be
destroyed without the list. A null list handle makes no list. -/
def step (s : State) : Operation → Option State
  | .createPromise own =>
    some (newPromise { s with nextHandle := s.nextHandle + 1 }
      { handle := some s.nextHandle, own := own })
  | .createList none => some s
  | .createList (some elements) => some (createList s elements)
  | .moveConstruct p => moveConstruct s p
  | .sharedAs p transferOwnership => sharedAs s p transferOwnership
  | .destroyPromise p =>
    if (s.promises p).any fun promise => promise.holder.isNone then some (destructor s p) else none
  | .destroyList l => destroyList s l

/-! ## Owners -/

inductive Owner where
  | promise (p : ℕ)
  | list (l : ℕ)
  deriving DecidableEq, Repr

def Owns (s : State) : Owner → ℕ → Prop
  | .promise p, h => ∃ promise, s.promises p = some promise ∧ promise.own = true ∧
      promise.handle = some h
  | .list l, h => ∃ list, s.lists l = some list ∧ h ∈ list.handles

/-- No handle has two owners or was released twice. -/
def Sound (s : State) : Prop :=
  (∀ h w w', Owns s w h → Owns s w' h → w = w') ∧ ∀ h, s.released.count h ≤ 1

def AllDestroyed (s : State) : Prop := (∀ p, s.promises p = none) ∧ ∀ l, s.lists l = none

/-- The condition on a transfer: the promise owns its handle, has none, or its handle neither
has an owner nor was released. -/
def Transferable (s : State) : Operation → Prop
  | .sharedAs p true => ∀ promise h, s.promises p = some promise → promise.own = false →
      promise.handle = some h → (∀ w, ¬ Owns s w h) ∧ h ∉ s.released
  | _ => True

/-! ## Objects of a state -/

/-- What every state has: names below the counters, promises made from elements that own
nothing, lists of different handles. -/
structure WellFormed (s : State) : Prop where
  promise_lt : ∀ p promise, s.promises p = some promise →
    p < s.nextPromise ∧ ∀ h, promise.handle = some h → h < s.nextHandle
  list_lt : ∀ l list, s.lists l = some list →
    l < s.nextList ∧ list.handles.Nodup ∧ ∀ h ∈ list.handles, h < s.nextHandle
  data_lt : ∀ l list p, s.lists l = some list → p ∈ list.data → p < s.nextPromise
  borrowed : ∀ l list p promise, s.lists l = some list → p ∈ list.data →
    s.promises p = some promise → promise.own = false
  released_lt : ∀ h ∈ s.released, h < s.nextHandle

theorem wellFormed_init : WellFormed {} := by
  constructor
  · intro p promise h
    cases h
  · intro l list h
    cases h
  · intro l list p h
    cases h
  · intro l list p promise h
    cases h
  · intro h hh
    cases hh

theorem WellFormed.promise_none {s : State} (h : WellFormed s) {p : ℕ}
    (hp : s.nextPromise ≤ p) : s.promises p = none := by
  cases hs : s.promises p with
  | none => rfl
  | some promise =>
    have := (h.promise_lt p promise hs).1
    omega

theorem WellFormed.owned_lt {s : State} (hs : WellFormed s) {w : Owner} {h : ℕ}
    (hw : Owns s w h) : h < s.nextHandle := by
  cases w with
  | promise p =>
    obtain ⟨promise, hp, -, hh⟩ := hw
    exact (hs.promise_lt p promise hp).2 h hh
  | list l =>
    obtain ⟨list, hl, hh⟩ := hw
    exact (hs.list_lt l list hl).2.2 h hh

/-- A handle that is still to be made is untouched. -/
theorem WellFormed.untouched {s : State} (hs : WellFormed s) {h : ℕ}
    (hh : s.nextHandle ≤ h) : (∀ w, ¬ Owns s w h) ∧ h ∉ s.released := by
  constructor
  · intro w hw
    have := hs.owned_lt hw
    omega
  · intro hr
    have := hs.released_lt h hr
    omega

/-! ### A new promise -/

@[simp] theorem newPromise_lists (s : State) (promise : Promise) :
    (newPromise s promise).lists = s.lists := rfl
@[simp] theorem newPromise_released (s : State) (promise : Promise) :
    (newPromise s promise).released = s.released := rfl
@[simp] theorem newPromise_nextHandle (s : State) (promise : Promise) :
    (newPromise s promise).nextHandle = s.nextHandle := rfl
@[simp] theorem newPromise_nextList (s : State) (promise : Promise) :
    (newPromise s promise).nextList = s.nextList := rfl
@[simp] theorem newPromise_nextPromise (s : State) (promise : Promise) :
    (newPromise s promise).nextPromise = s.nextPromise + 1 := rfl

theorem newPromise_promises (s : State) (promise : Promise) (p : ℕ) :
    (newPromise s promise).promises p =
      if p = s.nextPromise then some promise else s.promises p := by
  simp [newPromise, setPromise, Function.update_apply]

/-- The part of a state that owning is about, as a ledger. -/
def ledger (s : State) : Ledger Owner ℕ := ⟨Owns s, s.released⟩

theorem owns_newPromise {s : State} (hs : WellFormed s) (promise : Promise) (w : Owner)
    (h : ℕ) : Owns (newPromise s promise) w h ↔
      Owns s w h ∨ w = .promise s.nextPromise ∧ promise.own = true ∧ promise.handle = some h := by
  cases w with
  | list l => simp [Owns]
  | promise p =>
    by_cases hp : p = s.nextPromise
    · subst hp
      simp [Owns, newPromise_promises, hs.promise_none (le_refl _)]
    · simp [Owns, newPromise_promises, hp]

theorem WellFormed.newPromise {s : State} (hs : WellFormed s) {promise : Promise}
    (hh : ∀ h, promise.handle = some h → h < s.nextHandle) :
    WellFormed (newPromise s promise) := by
  constructor
  · intro p other hp
    rw [newPromise_promises] at hp
    split at hp
    next heq =>
      cases hp
      exact ⟨by simp [heq], hh⟩
    next hne =>
      obtain ⟨hlt, hbound⟩ := hs.promise_lt p other hp
      exact ⟨Nat.lt_succ_of_lt hlt, hbound⟩
  · exact hs.list_lt
  · intro l list p hl hp
    exact Nat.lt_succ_of_lt (hs.data_lt l list p hl hp)
  · intro l list p other hl hp hother
    have hlt := hs.data_lt l list p hl hp
    rw [newPromise_promises, if_neg (by omega)] at hother
    exact hs.borrowed l list p other hl hp hother
  · exact hs.released_lt

/-! ### A promise that loses its handle or its flag -/

@[simp] theorem setPromise_lists (s : State) (p : ℕ) (promise : Option Promise) :
    (setPromise s p promise).lists = s.lists := rfl
@[simp] theorem setPromise_released (s : State) (p : ℕ) (promise : Option Promise) :
    (setPromise s p promise).released = s.released := rfl
@[simp] theorem setPromise_nextHandle (s : State) (p : ℕ) (promise : Option Promise) :
    (setPromise s p promise).nextHandle = s.nextHandle := rfl
@[simp] theorem setPromise_nextPromise (s : State) (p : ℕ) (promise : Option Promise) :
    (setPromise s p promise).nextPromise = s.nextPromise := rfl

theorem setPromise_promises (s : State) (p q : ℕ) (promise : Option Promise) :
    (setPromise s p promise).promises q = if q = p then promise else s.promises q := by
  simp [setPromise, Function.update_apply]

/-- A promise in its place that owns nothing. -/
theorem owns_setPromise {s : State} {p : ℕ} {promise : Option Promise}
    (hown : ∀ o ∈ promise, o.own = false) (w : Owner) (h : ℕ) :
    Owns (setPromise s p promise) w h ↔ Owns s w h ∧ w ≠ .promise p := by
  cases w with
  | list l => simp [Owns]
  | promise q =>
    by_cases hq : q = p
    · subst hq
      simp only [Owns, setPromise_promises, if_true, ne_eq, not_true_eq_false, and_false,
        iff_false]
      rintro ⟨o, rfl, ho, -⟩
      rw [hown o rfl] at ho
      cases ho
    · simp [Owns, setPromise_promises, hq]

theorem WellFormed.setPromise {s : State} (hs : WellFormed s) {p : ℕ}
    {promise : Option Promise} (hp : p < s.nextPromise) (hown : ∀ o ∈ promise, o.own = false)
    (hh : ∀ o ∈ promise, ∀ h, o.handle = some h → h < s.nextHandle) :
    WellFormed (setPromise s p promise) := by
  constructor
  · intro q other hq
    rw [setPromise_promises] at hq
    split at hq
    next heq => exact ⟨heq ▸ hp, hh other hq⟩
    next hne => exact hs.promise_lt q other hq
  · exact hs.list_lt
  · exact hs.data_lt
  · intro l list q other hl hq hother
    rw [setPromise_promises] at hother
    split at hother
    next heq => exact hown other hother
    next hne => exact hs.borrowed l list q other hl hq hother
  · exact hs.released_lt

/-! ### Lists -/

theorem freshElements_bounds {h handle : ℕ} {elements : List Bool}
    (hh : some h ∈ freshElements handle elements) :
    handle ≤ h ∧ h < handle + elements.length := by
  induction elements generalizing handle with
  | nil => cases hh
  | cons present rest ih =>
    rw [List.length_cons]
    cases present with
    | true =>
      rcases List.mem_cons.mp hh with heq | hh
      · cases heq
        omega
      · have := ih hh
        omega
    | false =>
      rcases List.mem_cons.mp hh with heq | hh
      · cases heq
      · have := ih hh
        omega

theorem mem_filterMap_id {h : ℕ} {native : List (Option ℕ)} :
    h ∈ native.filterMap id ↔ some h ∈ native := by
  simp [List.mem_filterMap]

theorem freshElements_nodup (handle : ℕ) (elements : List Bool) :
    ((freshElements handle elements).filterMap id).Nodup := by
  induction elements generalizing handle with
  | nil => exact List.nodup_nil
  | cons present rest ih =>
    cases present with
    | true =>
      simp only [freshElements, List.filterMap_cons, id_eq]
      refine List.nodup_cons.mpr ⟨fun hmem => ?_, ih (handle + 1)⟩
      have := (freshElements_bounds (mem_filterMap_id.mp hmem)).1
      omega
    | false => exact ih handle

/-- The state after the loop of `create`: promises were added that own nothing. -/
structure Emplaced (s t : State) (data : List ℕ) : Prop where
  wellFormed : WellFormed t
  owns_iff : ∀ w h, Owns t w h ↔ Owns s w h
  lists_eq : t.lists = s.lists
  released_eq : t.released = s.released
  nextHandle_eq : t.nextHandle = s.nextHandle
  nextList_eq : t.nextList = s.nextList
  nextPromise_le : s.nextPromise ≤ t.nextPromise
  kept : ∀ p < s.nextPromise, t.promises p = s.promises p
  data_lt : ∀ p ∈ data, p < t.nextPromise ∧ ∀ promise, t.promises p = some promise →
    promise.own = false

theorem emplaced {s : State} (hs : WellFormed s) (l : ℕ) (native : List (Option ℕ))
    (hnative : ∀ h, some h ∈ native → h < s.nextHandle) :
    Emplaced s (emplaceElements s l native).1 (emplaceElements s l native).2 := by
  induction native generalizing s with
  | nil =>
    refine ⟨hs, fun w h => Iff.rfl, rfl, rfl, rfl, rfl, le_refl _, fun p hp => rfl, ?_⟩
    intro p hp
    cases hp
  | cons element rest ih =>
    cases element with
    | none => exact ih hs fun h hh => hnative h (List.mem_cons_of_mem none hh)
    | some element =>
      have hnew : WellFormed (newPromise s ⟨some element, false, some l⟩) :=
        hs.newPromise fun h hh => hnative h (by rw [← hh]; exact List.mem_cons_self)
      have hloop := ih hnew fun h hh => hnative h (List.mem_cons_of_mem _ hh)
      have hle : s.nextPromise + 1 ≤ _ := hloop.nextPromise_le
      refine ⟨hloop.wellFormed, fun w h => ?_, hloop.lists_eq, hloop.released_eq,
        hloop.nextHandle_eq, hloop.nextList_eq, Nat.le_of_succ_le hle, fun p hp => ?_, ?_⟩
      · exact (hloop.owns_iff w h).trans ((owns_newPromise hs _ w h).trans (by simp))
      · have hkept := hloop.kept p (Nat.lt_succ_of_lt hp)
        rw [newPromise_promises, if_neg (Nat.ne_of_lt hp)] at hkept
        exact hkept
      · intro p hp
        rcases List.mem_cons.mp hp with rfl | hp
        · refine ⟨hle, fun promise hpromise => ?_⟩
          have hkept := hloop.kept s.nextPromise (Nat.lt_succ_self _)
          rw [newPromise_promises, if_pos rfl] at hkept
          have heq := hkept.symm.trans hpromise
          cases heq
          rfl
        · exact hloop.data_lt p hp

theorem WellFormed.raise {s : State} (hs : WellFormed s) {n : ℕ} (hn : s.nextHandle ≤ n) :
    WellFormed { s with nextHandle := n } := by
  constructor
  · intro p promise hp
    obtain ⟨hlt, hh⟩ := hs.promise_lt p promise hp
    exact ⟨hlt, fun h heq => (hh h heq).trans_le hn⟩
  · intro l list hl
    obtain ⟨hlt, hnodup, hh⟩ := hs.list_lt l list hl
    exact ⟨hlt, hnodup, fun h hmem => (hh h hmem).trans_le hn⟩
  · exact hs.data_lt
  · exact hs.borrowed
  · intro h hr
    exact (hs.released_lt h hr).trans_le hn

/-- The list that `create` makes. -/
def createdList (s : State) (elements : List Bool) : PromiseList :=
  let native := freshElements (s.nextHandle + 1) elements
  ⟨s.nextHandle, native, (emplaceElements
    { s with nextHandle := s.nextHandle + 1 + elements.length } s.nextList native).2⟩

theorem createdList_handles (s : State) (elements : List Bool) :
    (createdList s elements).handles.Nodup ∧
      ∀ h ∈ (createdList s elements).handles,
        s.nextHandle ≤ h ∧ h < s.nextHandle + 1 + elements.length := by
  constructor
  · refine List.nodup_cons.mpr ⟨fun hmem => ?_, freshElements_nodup _ elements⟩
    have := (freshElements_bounds (mem_filterMap_id.mp hmem)).1
    change s.nextHandle + 1 ≤ s.nextHandle at this
    omega
  · intro h hh
    rcases List.mem_cons.mp hh with rfl | hh
    · change s.nextHandle ≤ s.nextHandle ∧ s.nextHandle < _
      omega
    · have := freshElements_bounds (mem_filterMap_id.mp hh)
      omega

/-- What the loop of `create` leaves, from the first free handle behind its own ones on. -/
theorem createList_loop {s : State} (hs : WellFormed s) (elements : List Bool) :
    Emplaced { s with nextHandle := s.nextHandle + 1 + elements.length }
      (emplaceElements { s with nextHandle := s.nextHandle + 1 + elements.length } s.nextList
        (freshElements (s.nextHandle + 1) elements)).1 (createdList s elements).data :=
  emplaced (hs.raise (n := s.nextHandle + 1 + elements.length) (by omega)) s.nextList
    (freshElements (s.nextHandle + 1) elements) fun _ hh => (freshElements_bounds hh).2

theorem createList_lists {s : State} (hs : WellFormed s) (elements : List Bool) (l : ℕ) :
    (createList s elements).lists l =
      if l = s.nextList then some (createdList s elements) else s.lists l := by
  simp only [createList, Function.update_apply, (createList_loop hs elements).lists_eq]
  rfl

theorem WellFormed.nextList_free {s : State} (hs : WellFormed s) : s.lists s.nextList = none := by
  cases hl : s.lists s.nextList with
  | none => rfl
  | some list => exact absurd (hs.list_lt s.nextList list hl).1 (lt_irrefl _)

theorem WellFormed.createList {s : State} (hs : WellFormed s) (elements : List Bool) :
    WellFormed (createList s elements) := by
  have hloop := createList_loop hs elements
  have hlists := createList_lists hs elements
  obtain ⟨hnodup, hhandles⟩ := createdList_handles s elements
  have hraised : (Promises.createList s elements).nextHandle =
      s.nextHandle + 1 + elements.length := hloop.nextHandle_eq
  refine ⟨hloop.wellFormed.promise_lt, fun l list hl => ?_, fun l list p hl hp => ?_,
    fun l list p promise hl hp hpromise => ?_, hloop.wellFormed.released_lt⟩
  · change l < s.nextList + 1 ∧ list.handles.Nodup ∧ ∀ h ∈ list.handles, h < _
    rw [hlists] at hl
    split at hl
    next heq =>
      cases hl
      refine ⟨by omega, hnodup, fun h hh => ?_⟩
      exact (hhandles h hh).2.trans_eq hraised.symm
    next hne =>
      obtain ⟨hlt, hnodup', hh⟩ := hs.list_lt l list hl
      refine ⟨by omega, hnodup', fun h hmem => ?_⟩
      have hh := hh h hmem
      omega
  · rw [hlists] at hl
    split at hl
    next heq =>
      cases hl
      exact (hloop.data_lt p hp).1
    next hne => exact (hs.data_lt l list p hl hp).trans_le hloop.nextPromise_le
  · rw [hlists] at hl
    split at hl
    next heq =>
      cases hl
      exact (hloop.data_lt p hp).2 promise hpromise
    next hne =>
      have hkept := hloop.kept p (hs.data_lt l list p hl hp)
      exact hs.borrowed l list p promise hl hp (hkept.symm.trans hpromise)

/-- A new list owns its handles; nobody else gets or loses one. -/
theorem owns_createList {s : State} (hs : WellFormed s) (elements : List Bool) (w : Owner)
    (h : ℕ) : Owns (createList s elements) w h ↔
      Owns s w h ∨ w = .list s.nextList ∧ h ∈ (createdList s elements).handles := by
  cases w with
  | promise p =>
    have howns := (createList_loop hs elements).owns_iff (.promise p) h
    simp only [reduceCtorEq, false_and, or_false]
    exact howns
  | list l =>
    simp only [Owns, createList_lists hs, Owner.list.injEq]
    by_cases hl : l = s.nextList
    · subst hl
      simp [hs.nextList_free]
    · simp [hl]

theorem createList_spec {s : State} (hs : WellFormed s) (elements : List Bool) :
    WellFormed (createList s elements) ∧
      (createList s elements).released = s.released ∧
      ∀ w h, Owns (createList s elements) w h ↔
        Owns s w h ∨ w = .list s.nextList ∧ h ∈ (createdList s elements).handles :=
  ⟨hs.createList elements, (createList_loop hs elements).released_eq,
    owns_createList hs elements⟩

/-! ### Destruction -/

theorem destructor_spec {s : State} (hs : WellFormed s) {p : ℕ} {promise : Promise}
    (hp : s.promises p = some promise) :
    WellFormed (destructor s p) ∧
      (destructor s p).released =
        s.released ++ (if promise.own then promise.handle.toList else []) ∧
      ∀ w h, Owns (destructor s p) w h ↔ Owns s w h ∧ w ≠ .promise p := by
  obtain ⟨hlt, hhandle⟩ := hs.promise_lt p promise hp
  have hnone : ∀ o ∈ (none : Option Promise), o.own = false := fun o ho => by cases ho
  have hgone : WellFormed (setPromise s p none) :=
    hs.setPromise hlt hnone fun o ho => by cases ho
  simp only [destructor, hp]
  refine ⟨⟨hgone.promise_lt, hgone.list_lt, hgone.data_lt, hgone.borrowed, fun h hh => ?_⟩, rfl,
    fun w h => owns_setPromise hnone w h⟩
  rcases List.mem_append.mp hh with hh | hh
  · exact hs.released_lt h hh
  · split at hh
    next => exact hhandle h (Option.mem_toList.mp hh)
    next => cases hh

/-- The state after the promises of a vector are gone, none of which owned anything. -/
structure Emptied (s t : State) : Prop where
  wellFormed : WellFormed t
  owns_iff : ∀ w h, Owns t w h ↔ Owns s w h
  released_eq : t.released = s.released
  lists_eq : t.lists = s.lists

theorem emptied {s : State} (hs : WellFormed s) {data : List ℕ}
    (hdata : ∀ p ∈ data, ∀ promise, s.promises p = some promise → promise.own = false) :
    Emptied s (data.foldl destructor s) := by
  induction data generalizing s with
  | nil => exact ⟨hs, fun w h => Iff.rfl, rfl, rfl⟩
  | cons p data ih =>
    cases hp : s.promises p with
    | none =>
      have hsame : destructor s p = s := by simp only [destructor, hp]
      rw [List.foldl_cons, hsame]
      exact ih hs fun q hq => hdata q (List.mem_cons_of_mem p hq)
    | some promise =>
      have hown := hdata p List.mem_cons_self promise hp
      obtain ⟨hwf, hreleased, howns⟩ := destructor_spec hs hp
      have hpromises : ∀ q o, (destructor s p).promises q = some o → s.promises q = some o := by
        intro q o hq
        simp only [destructor, hp, release, setPromise_promises] at hq
        split at hq
        next => cases hq
        next => exact hq
      have hrest := ih hwf fun q hq o ho =>
        hdata q (List.mem_cons_of_mem p hq) o (hpromises q o ho)
      rw [hown, if_neg Bool.false_ne_true, List.append_nil] at hreleased
      refine ⟨hrest.wellFormed, fun w h => ?_, hrest.released_eq.trans hreleased,
        hrest.lists_eq.trans (by simp only [destructor, hp]; rfl)⟩
      rw [List.foldl_cons, hrest.owns_iff, howns]
      refine ⟨fun h => h.1, fun h => ⟨h, ?_⟩⟩
      rintro rfl
      obtain ⟨o, ho, htrue, -⟩ := h
      rw [hdata p List.mem_cons_self o ho] at htrue
      cases htrue

theorem destroyList_spec {s t : State} (hs : WellFormed s) {l : ℕ} (ht : destroyList s l = some t) :
    ∃ list, s.lists l = some list ∧ WellFormed t ∧ t.released = s.released ++ list.handles ∧
      ∀ w h, Owns t w h ↔ Owns s w h ∧ w ≠ .list l := by
  obtain ⟨list, hl, rfl⟩ := Option.map_eq_some_iff.mp ht
  have hgone := emptied hs fun p hp promise => hs.borrowed l list p promise hl hp
  have hlists : ∀ k o, (Function.update (list.data.foldl destructor s).lists l none) k = some o →
      k ≠ l ∧ (list.data.foldl destructor s).lists k = some o := by
    intro k o hk
    by_cases hkl : k = l
    · subst hkl
      simp at hk
    · exact ⟨hkl, by simpa [hkl] using hk⟩
  have hwf := hgone.wellFormed
  refine ⟨list, hl, ⟨hwf.promise_lt, fun k o hk => hwf.list_lt k o (hlists k o hk).2,
    fun k o p hk => hwf.data_lt k o p (hlists k o hk).2,
    fun k o p promise hk => hwf.borrowed k o p promise (hlists k o hk).2, fun h hh => ?_⟩, ?_,
    fun w h => ?_⟩
  · rcases List.mem_append.mp hh with hh | hh
    · exact hwf.released_lt h hh
    · have hl' : (list.data.foldl destructor s).lists l = some list := by
        rw [hgone.lists_eq, hl]
      exact (hwf.list_lt l list hl').2.2 h hh
  · simp only [release, hgone.released_eq]
  · rw [← hgone.owns_iff]
    cases w with
    | promise p => simp [Owns, release]
    | list k =>
      by_cases hk : k = l
      · subst hk
        simp [Owns, release]
      · simp [Owns, release, hk]

/-! ## Steps of the ledger -/

theorem owns_promise_iff {s : State} {p : ℕ} {promise : Promise}
    (hp : s.promises p = some promise) (h : ℕ) :
    Owns s (.promise p) h ↔ promise.own = true ∧ promise.handle = some h := by
  simp [Owns, hp]

theorem createPromise_step {s : State} (hs : WellFormed s) (own : Bool) :
    WellFormed
        (newPromise { s with nextHandle := s.nextHandle + 1 } ⟨some s.nextHandle, own, none⟩) ∧
      Ledger.Step (ledger s) (ledger
        (newPromise { s with nextHandle := s.nextHandle + 1 } ⟨some s.nextHandle, own, none⟩)) := by
  have hraised : WellFormed { s with nextHandle := s.nextHandle + 1 } := hs.raise (by omega)
  refine ⟨hraised.newPromise fun h hh => ?_, .acquire (.promise s.nextPromise)
    (fun h => own = true ∧ some s.nextHandle = some h) (fun h hh => ?_) (fun w h => ?_) rfl⟩
  · cases hh
    exact Nat.lt_succ_self _
  · cases hh.2
    exact hs.untouched (le_refl _)
  · exact owns_newPromise hraised _ w h

theorem moveConstruct_step {s t : State} (hs : WellFormed s) {p : ℕ}
    (ht : moveConstruct s p = some t) : WellFormed t ∧ Ledger.Step (ledger s) (ledger t) := by
  obtain ⟨other, hp, rfl⟩ := Option.map_eq_some_iff.mp ht
  obtain ⟨hlt, hhandle⟩ := hs.promise_lt p other hp
  have hown : ∀ o ∈ some { other with handle := none, own := false }, o.own = false := by
    intro o ho
    cases ho
    rfl
  have hcleared : WellFormed (setPromise s p (some { other with handle := none, own := false })) :=
    hs.setPromise hlt hown fun o ho h hh => by cases ho; cases hh
  refine ⟨hcleared.newPromise hhandle, .transfer (.promise p) (.promise s.nextPromise)
    (fun w h => ?_) rfl⟩
  change Owns _ w h ↔ _
  rw [owns_newPromise hcleared, owns_setPromise hown]
  exact or_congr_right (and_congr_right fun _ => (owns_promise_iff hp h).symm)

/-- Sharing without the flag, or from a promise without it, adds an owner; otherwise the flag
is handed on. -/
theorem sharedAs_step {s t : State} (hs : WellFormed s) {p : ℕ} {transferOwnership : Bool}
    (hc : Transferable s (.sharedAs p transferOwnership))
    (ht : sharedAs s p transferOwnership = some t) : Ledger.Step (ledger s) (ledger t) := by
  obtain ⟨promise, hp, rfl⟩ := Option.map_eq_some_iff.mp ht
  obtain ⟨hlt, hhandle⟩ := hs.promise_lt p promise hp
  cases transferOwnership with
  | false =>
    refine .acquire (.promise s.nextPromise) (fun _ => False) (fun h hh => hh.elim)
      (fun w h => ?_) rfl
    change Owns _ w h ↔ Owns s w h ∨ _
    rw [if_neg Bool.false_ne_true, owns_newPromise hs]
    simp
  | true =>
    have hown : ∀ o ∈ some { promise with own := false }, o.own = false := by
      intro o ho
      cases ho
      rfl
    have hcleared : WellFormed (setPromise s p (some { promise with own := false })) :=
      hs.setPromise hlt hown fun o ho h hh => by cases ho; exact hhandle h hh
    have howns : ∀ w h, Owns (newPromise (setPromise s p (some { promise with own := false }))
        { handle := promise.handle, own := true }) w h ↔ (Owns s w h ∧ w ≠ .promise p) ∨
          w = .promise s.nextPromise ∧ promise.handle = some h := by
      intro w h
      rw [owns_newPromise hcleared, owns_setPromise hown]
      simp
    cases hflag : promise.own with
    | true =>
      refine .transfer (.promise p) (.promise s.nextPromise) (fun w h => ?_) rfl
      refine (howns w h).trans (or_congr_right (and_congr_right fun _ => ?_))
      exact ((owns_promise_iff hp h).trans (by simp [hflag])).symm
    | false =>
      refine .acquire (.promise s.nextPromise) (fun h => promise.handle = some h)
        (fun h hh => hc promise h hp hflag hh) (fun w h => ?_) rfl
      refine (howns w h).trans (or_congr_left ⟨fun hw => hw.1, fun hw => ⟨hw, ?_⟩⟩)
      rintro rfl
      rw [((owns_promise_iff hp h).mp hw).1] at hflag
      cases hflag

theorem sharedAs_wellFormed {s t : State} (hs : WellFormed s) {p : ℕ} {transferOwnership : Bool}
    (ht : sharedAs s p transferOwnership = some t) : WellFormed t := by
  obtain ⟨promise, hp, rfl⟩ := Option.map_eq_some_iff.mp ht
  obtain ⟨hlt, hhandle⟩ := hs.promise_lt p promise hp
  cases transferOwnership with
  | false => exact hs.newPromise hhandle
  | true =>
    have hcleared : WellFormed (setPromise s p (some { promise with own := false })) := by
      refine hs.setPromise hlt (fun o ho => ?_) (fun o ho h hh => ?_)
      · cases ho
        rfl
      · cases ho
        exact hhandle h hh
    exact hcleared.newPromise hhandle

theorem destroyPromise_step {s : State} (hs : WellFormed s) {p : ℕ} {promise : Promise}
    (hp : s.promises p = some promise) :
    WellFormed (destructor s p) ∧ Ledger.Step (ledger s) (ledger (destructor s p)) := by
  obtain ⟨hwf, hreleased, howns⟩ := destructor_spec hs hp
  refine ⟨hwf, .release (.promise p) _ ?_ (fun h => ?_) howns hreleased⟩
  · split
    next => cases promise.handle <;> simp
    next => exact List.nodup_nil
  · refine Iff.trans ?_ (owns_promise_iff hp h).symm
    cases promise.own <;> simp

/-- Every operation is a step of the ledger, a transfer under its condition. -/
theorem step_ledger {s t : State} {op : Operation} (hs : WellFormed s) (hc : Transferable s op)
    (h : step s op = some t) : WellFormed t ∧ Ledger.Step (ledger s) (ledger t) := by
  cases op with
  | createPromise own =>
    cases h
    exact createPromise_step hs own
  | createList handle =>
    cases handle with
    | none =>
      cases h
      exact ⟨hs, .acquire (.list 0) (fun _ => False) (fun h hh => hh.elim)
        (fun w h => by simp) rfl⟩
    | some elements =>
      cases h
      obtain ⟨hwf, hreleased, howns⟩ := createList_spec hs elements
      refine ⟨hwf, .acquire (.list s.nextList) (· ∈ (createdList s elements).handles)
        (fun h hh => ?_) howns hreleased⟩
      exact hs.untouched ((createdList_handles s elements).2 h hh).1
  | moveConstruct p => exact moveConstruct_step hs h
  | sharedAs p transferOwnership =>
    exact ⟨sharedAs_wellFormed hs h, sharedAs_step hs hc h⟩
  | destroyPromise p =>
    simp only [step] at h
    split at h
    next hexists =>
      cases h
      cases hp : s.promises p with
      | none => simp [hp] at hexists
      | some promise => exact destroyPromise_step hs hp
    next => cases h
  | destroyList l =>
    obtain ⟨list, hl, hwf, hreleased, howns⟩ := destroyList_spec hs h
    refine ⟨hwf, .release (.list l) list.handles (hs.list_lt l list hl).2.1 (fun h => ?_) howns
      hreleased⟩
    simp [ledger, Owns, hl]

/-! ## Runs -/

/-- Every state of a run whose transfers meet the condition. -/
structure Reached (s : State) : Prop where
  wellFormed : WellFormed s
  fair : (ledger s).Fair

theorem reached_init : Reached {} := by
  refine ⟨wellFormed_init, ?_, ?_, List.nodup_nil⟩
  · rintro h (p | l) w' hw
    · obtain ⟨promise, hp, -⟩ := hw
      cases hp
    · obtain ⟨list, hl, -⟩ := hw
      cases hl
  · intro h w _ hr
    cases hr

theorem reached_step {s t : State} {op : Operation} (hs : Reached s) (hc : Transferable s op)
    (h : step s op = some t) : Reached t := by
  obtain ⟨hwf, hstep⟩ := step_ledger hs.wellFormed hc h
  exact ⟨hwf, hs.fair.step hstep⟩

theorem sound_of_reached {s : State} (hs : Reached s) : Sound s :=
  ⟨hs.fair.unique, List.nodup_iff_count_le_one.mp hs.fair.once⟩

/-- From a handle with an owner a run leads to one that has an owner or was released. -/
theorem accounted_run {s t : State} (hs : Reached s) {ops : List Operation}
    (hm : Meets step Transferable s ops) (ht : run step s ops = some t) {h : ℕ}
    (hh : (ledger s).Accounted h) : (ledger t).Accounted h := by
  refine (@Meets.run_invariant State Operation step Transferable
    (fun u => Reached u ∧ (ledger u).Accounted h) ?_ s t ops ⟨hs, hh⟩ hm ht).2
  intro u v op hu hc hstep
  exact ⟨reached_step hu.1 hc hstep, hu.2.step (step_ledger hu.1.wellFormed hc hstep).2⟩

theorem not_owns_of_allDestroyed {s : State} (h : AllDestroyed s) (w : Owner) (r : ℕ) :
    ¬ Owns s w r := by
  cases w with
  | promise p =>
    rintro ⟨promise, hp, -⟩
    rw [h.1 p] at hp
    cases hp
  | list l =>
    rintro ⟨list, hl, -⟩
    rw [h.2 l] at hl
    cases hl

theorem reached_run {s : State} {ops : List Operation} (hm : Meets step Transferable {} ops)
    (hs : run step {} ops = some s) : Reached s :=
  hm.run_invariant (fun _ _ _ => reached_step) reached_init hs

/-- In a run whose transfers meet the condition no handle ever has two owners or is released
twice, and one that had an owner is released exactly once when all objects are gone. -/
theorem ownership_kept (ops : List Operation) (hm : Meets step Transferable {} ops) :
    (∀ before after s, ops = before ++ after → run step {} before = some s → Sound s) ∧
      ∀ before after s t w h, ops = before ++ after → run step {} before = some s →
        Owns s w h → run step {} ops = some t → AllDestroyed t → t.released.count h = 1 := by
  constructor
  · rintro before after s rfl hs
    exact sound_of_reached (reached_run hm.append.1 hs)
  · rintro before after s t w h rfl hs hw ht hgone
    obtain ⟨hbefore, hafter⟩ := hm.append
    have hall := reached_run hm ht
    rw [run_append, hs] at ht
    have hacc := accounted_run (reached_run hbefore hs) (hafter s hs) ht (Or.inl ⟨w, hw⟩)
    exact hall.fair.released_once hacc fun v => not_owns_of_allDestroyed hgone v h

/-- The condition is exact for one transfer: any other leaves a second owner of the handle,
or an owner of a handle that was released. -/
theorem transfer_fair_iff {s t : State} (hs : Reached s) {p : ℕ}
    (ht : sharedAs s p true = some t) :
    (ledger t).Fair ↔ Transferable s (.sharedAs p true) := by
  constructor
  · intro hfair promise h hp hown hh
    obtain ⟨promise', hp', rfl⟩ := Option.map_eq_some_iff.mp ht
    rw [hp] at hp'
    cases hp'
    have hcleared : setPromise s p (some { promise with own := false }) = s := by
      rw [← hown, setPromise, ← hp, Function.update_eq_self]
    rw [if_pos rfl, hcleared] at hfair
    have hnew : Owns (newPromise s { handle := promise.handle, own := true })
        (.promise s.nextPromise) h :=
      (owns_newPromise hs.wellFormed _ _ h).mpr (Or.inr ⟨rfl, rfl, hh⟩)
    refine ⟨fun w hw => ?_, hfair.live h (.promise s.nextPromise) hnew⟩
    have hold : Owns (newPromise s { handle := promise.handle, own := true }) w h :=
      (owns_newPromise hs.wellFormed _ w h).mpr (Or.inl hw)
    have heq := hfair.unique h w (.promise s.nextPromise) hold hnew
    subst heq
    obtain ⟨o, ho, -⟩ := hw
    rw [hs.wellFormed.promise_none (le_refl _)] at ho
    cases ho
  · intro hc
    exact hs.fair.step (sharedAs_step hs.wellFormed hc ht)

/-- A borrowed element moves out of its list, and a promise hands its handle on. -/
def sampleRun : List Operation :=
  [.createList (some [true]), .moveConstruct 0, .createPromise true, .sharedAs 2 true,
    .destroyPromise 2, .destroyList 0, .destroyPromise 3, .destroyPromise 1]

theorem ownership_kept_handed_on :
    ∃ t, run step {} sampleRun = some t ∧ t.released.count 2 = 1 := by
  have hm : Meets step Transferable {} sampleRun := by
    refine ⟨trivial, fun s hs => ?_⟩
    cases hs
    refine ⟨trivial, fun s hs => ?_⟩
    cases hs
    refine ⟨trivial, fun s hs => ?_⟩
    cases hs
    refine ⟨fun promise h hp hown => ?_, fun s hs => ?_⟩
    · cases hp
      cases hown
    · cases hs
      exact meets_of_mem (by simp [Transferable]) _
  refine ⟨_, rfl, ?_⟩
  refine (ownership_kept sampleRun hm).2 (sampleRun.take 3) (sampleRun.drop 3) _ _ (.promise 2) 2
    rfl rfl ⟨_, rfl, rfl, rfl⟩ rfl ⟨fun p => ?_, fun l => ?_⟩
  · rcases p with _ | _ | _ | _ | p
    · rfl
    · rfl
    · rfl
    · rfl
    · exact (reached_run hm rfl).wellFormed.promise_none (by change 4 ≤ p + 4; omega)
  · cases l <;> rfl

/-- Transferring from an element of a list makes a second owner of its handle. -/
theorem element_transferred_twice_owned :
    ¬ ∀ before after s, [Operation.createList (some [true]), .sharedAs 0 true] = before ++ after →
      run step {} before = some s → Sound s := by
  intro h
  have hsound := h _ [] _ (List.append_nil _).symm rfl
  have heq := hsound.1 1 (.promise 1) (.list 0) ⟨_, rfl, rfl, rfl⟩ ⟨_, rfl, by decide⟩
  cases heq

end Promises
