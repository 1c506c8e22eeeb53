import Mathlib.Data.List.Basic
import Mathlib.Data.Nat.Init
import Mathlib.Order.Basic

/-! # Handlers and the identifiers of their listeners

A handler calls its main listeners and then those of low priority, each once. All handlers of a
signature take their identifiers from one counter, which stops before the reserved one. -/
namespace SimpleHandlers

variable {L : Type*}

def FAKE_ID : UInt64 := 0xFFFFFFFFFFFFFFFF

/-- The two maps, as lists of their entries. -/
structure SimpleHandler (L : Type*) where
  listeners : List (UInt64 × L) := []
  lowPriorityListeners : List (UInt64 × L) := []

def emplace (id : UInt64) (listener : L) (l : List (UInt64 × L)) : List (UInt64 × L) :=
  if l.any fun e => e.1 == id then l else l ++ [(id, listener)]

namespace SimpleHandler

variable (h : SimpleHandler L)

/-- The result is the identifier and the counter's new value. -/
def add (listener : L) (lastId : UInt64) : UInt64 × SimpleHandler L × UInt64 :=
  if lastId ≥ FAKE_ID - 1 then (FAKE_ID, h, lastId)
  else
    let id := lastId + 1
    (id, { h with listeners := emplace id listener h.listeners }, id)

def addLowPriority (listener : L) (lastId : UInt64) : UInt64 × SimpleHandler L × UInt64 :=
  if lastId ≥ FAKE_ID - 1 then (FAKE_ID, h, lastId)
  else
    let id := lastId + 1
    (id, { h with lowPriorityListeners := emplace id listener h.lowPriorityListeners }, id)

def remove (id : UInt64) : SimpleHandler L :=
  if id = FAKE_ID then h
  else if h.listeners.any fun e => e.1 == id then
    { h with listeners := h.listeners.filter fun e => e.1 != id }
  else if h.lowPriorityListeners.any fun e => e.1 == id then
    { h with lowPriorityListeners := h.lowPriorityListeners.filter fun e => e.1 != id }
  else h

def entries : List (UInt64 × L) := h.listeners ++ h.lowPriorityListeners

/-- The listeners that `handle` calls. -/
def handle : List L := h.entries.map Prod.snd

end SimpleHandler

/-- The identifiers come from the counter, which has not passed its end. Handlers with other
mutexes share the counter; the bound rests on its check and its increment being one step. -/
structure Numbered (h : SimpleHandler L) (lastId : UInt64) : Prop where
  bounded : lastId < FAKE_ID
  entries_le : ∀ e ∈ h.entries, e.1 ≤ lastId

variable {h : SimpleHandler L} {lastId : UInt64}

theorem numbered_empty : Numbered ({} : SimpleHandler L) 0 :=
  ⟨by decide, fun _ he => by cases he⟩

/-- The counter grows until only the reserved identifier is left. -/
theorem succ_of_not_exhausted (hlast : ¬ lastId ≥ FAKE_ID - 1) :
    lastId < lastId + 1 ∧ lastId + 1 < FAKE_ID := by
  have hlast : lastId.toNat < 18446744073709551614 := by
    rw [ge_iff_le, UInt64.le_iff_toNat_le] at hlast
    exact Nat.lt_of_not_le hlast
  rw [UInt64.lt_iff_toNat_lt, UInt64.lt_iff_toNat_lt, UInt64.toNat_add]
  have hfake : FAKE_ID.toNat = 18446744073709551615 := rfl
  have hone : (1 : UInt64).toNat = 1 := rfl
  omega

theorem emplace_fresh {id : UInt64} {l : List (UInt64 × L)} (hfresh : ∀ e ∈ l, e.1 ≠ id)
    (listener : L) : emplace id listener l = l ++ [(id, listener)] := by
  have hnot : ¬ (l.any fun e => e.1 == id) = true := by
    simpa using fun x hx => hfresh (id, x) hx rfl
  rw [emplace, if_neg hnot]

/-- The entries after a listener was added under the next identifier. -/
structure AddedTo (h h' : SimpleHandler L) (id : UInt64) (listener : L) : Prop where
  mem_entries : ∀ e, e ∈ h'.entries ↔ e = (id, listener) ∨ e ∈ h.entries
  mem_lowPriority : ∀ e, e ∈ h'.lowPriorityListeners →
    e = (id, listener) ∨ e ∈ h.lowPriorityListeners
  count : ∀ p : L → Bool, h'.handle.countP p = h.handle.countP p + if p listener then 1 else 0

theorem fresh_of_numbered (hn : Numbered h lastId) (hlast : ¬ lastId ≥ FAKE_ID - 1) :
    ∀ e ∈ h.entries, e.1 ≠ lastId + 1 := by
  intro e he heq
  have := hn.entries_le e he
  rw [heq] at this
  exact absurd (succ_of_not_exhausted hlast).1 (UInt64.not_lt.mpr this)

/-- Adding either finds the counter at its end or puts the listener in under the next number. -/
theorem add_cases (hn : Numbered h lastId) (listener : L) :
    (lastId ≥ FAKE_ID - 1 ∧ h.add listener lastId = (FAKE_ID, h, lastId)) ∨
      ¬ lastId ≥ FAKE_ID - 1 ∧ ∃ h', h.add listener lastId = (lastId + 1, h', lastId + 1) ∧
        h'.lowPriorityListeners = h.lowPriorityListeners ∧
        AddedTo h h' (lastId + 1) listener := by
  by_cases hlast : lastId ≥ FAKE_ID - 1
  · left
    exact ⟨hlast, by rw [SimpleHandler.add, if_pos hlast]⟩
  · right
    have hfresh : ∀ e ∈ h.listeners, e.1 ≠ lastId + 1 :=
      fun e he => fresh_of_numbered hn hlast e (List.mem_append_left _ he)
    refine ⟨hlast, { h with listeners := h.listeners ++ [(lastId + 1, listener)] }, ?_, rfl, ?_⟩
    · rw [SimpleHandler.add, if_neg hlast]
      simp only [emplace_fresh hfresh]
    · constructor
      · intro e
        simp only [SimpleHandler.entries, List.mem_append, List.mem_singleton]
        exact or_assoc.trans (or_left_comm.trans Iff.rfl)
      · intro e he
        exact Or.inr he
      · intro p
        simp only [SimpleHandler.handle, SimpleHandler.entries, List.map_append, List.countP_append,
          List.map_cons, List.map_nil, List.countP_singleton]
        omega

theorem addLowPriority_cases (hn : Numbered h lastId) (listener : L) :
    (lastId ≥ FAKE_ID - 1 ∧ h.addLowPriority listener lastId = (FAKE_ID, h, lastId)) ∨
      ¬ lastId ≥ FAKE_ID - 1 ∧
        ∃ h', h.addLowPriority listener lastId = (lastId + 1, h', lastId + 1) ∧
        AddedTo h h' (lastId + 1) listener := by
  by_cases hlast : lastId ≥ FAKE_ID - 1
  · left
    exact ⟨hlast, by rw [SimpleHandler.addLowPriority, if_pos hlast]⟩
  · right
    have hfresh : ∀ e ∈ h.lowPriorityListeners, e.1 ≠ lastId + 1 :=
      fun e he => fresh_of_numbered hn hlast e (List.mem_append_right _ he)
    refine ⟨hlast,
      { h with lowPriorityListeners := h.lowPriorityListeners ++ [(lastId + 1, listener)] }, ?_, ?_⟩
    · rw [SimpleHandler.addLowPriority, if_neg hlast]
      simp only [emplace_fresh hfresh]
    · constructor
      · intro e
        simp only [SimpleHandler.entries, List.mem_append, List.mem_singleton]
        exact or_assoc.symm.trans or_comm
      · intro e he
        exact (List.mem_append.mp he).symm.imp List.mem_singleton.mp id
      · intro p
        simp only [SimpleHandler.handle, SimpleHandler.entries, List.map_append, List.countP_append,
          List.map_cons, List.map_nil, List.countP_singleton]
        omega

/-- What a handler holds after an addition of either kind: a new entry, or nothing new once the
identifiers are used up. -/
theorem added_perm (hn : Numbered h lastId) (listener : L) (lowPriority : Bool) :
    let added := if lowPriority then h.addLowPriority listener lastId else h.add listener lastId
    added = (FAKE_ID, h, lastId) ∨ lastId < lastId + 1 ∧ lastId + 1 < FAKE_ID ∧
      ∃ h', added = (lastId + 1, h', lastId + 1) ∧
        h'.entries.Perm ((lastId + 1, listener) :: h.entries) := by
  by_cases hlast : lastId ≥ FAKE_ID - 1
  · left
    cases lowPriority
    · exact if_pos hlast
    · exact if_pos hlast
  · right
    have hfresh := fresh_of_numbered hn hlast
    refine ⟨(succ_of_not_exhausted hlast).1, (succ_of_not_exhausted hlast).2, ?_⟩
    cases lowPriority with
    | false =>
      refine ⟨_, if_neg hlast, ?_⟩
      simp only [SimpleHandler.entries,
        emplace_fresh fun e he => hfresh e (List.mem_append_left _ he), List.append_assoc]
      exact List.perm_middle
    | true =>
      refine ⟨_, if_neg hlast, ?_⟩
      simp only [SimpleHandler.entries,
        emplace_fresh fun e he => hfresh e (List.mem_append_right _ he)]
      rw [← List.append_assoc]
      exact List.perm_append_singleton _ _

theorem Numbered.added {h' : SimpleHandler L} {listener : L} (hn : Numbered h lastId)
    (hlast : ¬ lastId ≥ FAKE_ID - 1) (hadd : AddedTo h h' (lastId + 1) listener) :
    Numbered h' (lastId + 1) := by
  obtain ⟨hgrows, hbound⟩ := succ_of_not_exhausted hlast
  refine ⟨hbound, fun e he => ?_⟩
  rcases (hadd.mem_entries e).mp he with rfl | he
  · exact UInt64.le_refl _
  · exact UInt64.le_trans (hn.entries_le e he) (UInt64.le_of_lt hgrows)

/-- Removing takes entries out of the main listeners or, failing that, out of the others. -/
theorem remove_sublist (h : SimpleHandler L) (id : UInt64) :
    (h.remove id).listeners.Sublist h.listeners ∧
      (h.remove id).lowPriorityListeners.Sublist h.lowPriorityListeners := by
  unfold SimpleHandler.remove
  split
  next => exact ⟨List.Sublist.refl _, List.Sublist.refl _⟩
  next =>
    split
    next => exact ⟨List.filter_sublist, List.Sublist.refl _⟩
    next =>
      split
      next => exact ⟨List.Sublist.refl _, List.filter_sublist⟩
      next => exact ⟨List.Sublist.refl _, List.Sublist.refl _⟩

theorem remove_entries_sublist (h : SimpleHandler L) (id : UInt64) :
    (h.remove id).entries.Sublist h.entries :=
  (remove_sublist h id).1.append (remove_sublist h id).2

theorem Numbered.remove (hn : Numbered h lastId) (id : UInt64) : Numbered (h.remove id) lastId :=
  ⟨hn.bounded, fun e he => hn.entries_le e ((remove_entries_sublist h id).subset he)⟩

/-- Removing takes out exactly the entry under the identifier. -/
theorem mem_remove (hn : Numbered h lastId) (hdistinct : (h.entries.map Prod.fst).Nodup)
    (id : UInt64) (e : UInt64 × L) : e ∈ (h.remove id).entries ↔ e ∈ h.entries ∧ e.1 ≠ id := by
  have hfilter : ∀ l : List (UInt64 × L), e ∈ l.filter (fun e => e.1 != id) ↔ e ∈ l ∧ e.1 ≠ id :=
    fun l => by simp
  have hnot : ∀ l : List (UInt64 × L), ¬ (l.any fun e => e.1 == id) = true → ∀ d ∈ l, d.1 ≠ id :=
    fun l hany d hd hid => hany (List.any_eq_true.mpr ⟨d, hd, by simpa using hid⟩)
  by_cases hfake : id = FAKE_ID
  · rw [SimpleHandler.remove, if_pos hfake]
    refine (and_iff_left_of_imp fun he hid => ?_).symm
    have hle := hn.entries_le e he
    rw [hid, hfake] at hle
    exact absurd hn.bounded (UInt64.not_lt.mpr hle)
  · by_cases hmain : (h.listeners.any fun e => e.1 == id) = true
    · have hlow : e ∈ h.lowPriorityListeners → e.1 ≠ id := by
        intro he hid
        obtain ⟨d, hd, hdid⟩ := List.any_eq_true.mp hmain
        rw [SimpleHandler.entries, List.map_append] at hdistinct
        exact (List.nodup_append.mp hdistinct).2.2 d.1 (List.mem_map_of_mem hd) e.1
          (List.mem_map_of_mem he) ((eq_of_beq hdid).trans hid.symm)
      rw [SimpleHandler.remove, if_neg hfake, if_pos hmain]
      simp only [SimpleHandler.entries, List.mem_append, hfilter]
      constructor
      · rintro (hin | hin)
        · exact ⟨.inl hin.1, hin.2⟩
        · exact ⟨.inr hin, hlow hin⟩
      · rintro ⟨hin | hin, hid⟩
        · exact .inl ⟨hin, hid⟩
        · exact .inr hin
    · have hlisteners := hnot _ hmain e
      rw [SimpleHandler.remove, if_neg hfake, if_neg hmain]
      split
      next =>
        simp only [SimpleHandler.entries, List.mem_append, hfilter]
        constructor
        · rintro (hin | hin)
          · exact ⟨.inl hin, hlisteners hin⟩
          · exact ⟨.inr hin.1, hin.2⟩
        · rintro ⟨hin | hin, hid⟩
          · exact .inl hin
          · exact .inr ⟨hin, hid⟩
      next hlow =>
        refine (and_iff_left_of_imp fun he => ?_).symm
        exact (List.mem_append.mp he).elim hlisteners (hnot _ hlow e)

/-- Entries under other identifiers stay. -/
theorem count_remove_other {id : UInt64} {p : L → Bool}
    (hp : ∀ e ∈ h.entries, e.1 = id → p e.2 = false) :
    (h.remove id).handle.countP p = h.handle.countP p := by
  have hfilter : ∀ l : List (UInt64 × L), (∀ e ∈ l, e.1 = id → p e.2 = false) →
      ((l.filter fun e => e.1 != id).map Prod.snd).countP p = (l.map Prod.snd).countP p := by
    intro l hl
    rw [List.countP_map, List.countP_map, List.countP_filter]
    apply List.countP_congr
    intro e he
    by_cases hid : e.1 = id
    · simp [hid, hl e he hid]
    · simp [hid]
  have hmain : ∀ e ∈ h.listeners, e.1 = id → p e.2 = false :=
    fun e he => hp e (List.mem_append_left _ he)
  have hlow : ∀ e ∈ h.lowPriorityListeners, e.1 = id → p e.2 = false :=
    fun e he => hp e (List.mem_append_right _ he)
  simp only [SimpleHandler.handle, SimpleHandler.entries, List.map_append, List.countP_append]
  unfold SimpleHandler.remove
  split
  next => rfl
  next =>
    split
    next => rw [hfilter _ hmain]
    next =>
      split
      next => rw [hfilter _ hlow]
      next => rfl

/-- A listener that only stands under the identifier, among the main ones, is gone. -/
theorem count_remove_self {id : UInt64} {p : L → Bool} (hid : id ≠ FAKE_ID)
    (hmain : ∀ e ∈ h.listeners, p e.2 = true → e.1 = id)
    (hlow : ∀ e ∈ h.lowPriorityListeners, p e.2 = false) :
    (h.remove id).handle.countP p = 0 := by
  rw [List.countP_eq_zero]
  intro listener hlistener
  obtain ⟨e, he, rfl⟩ := List.mem_map.mp hlistener
  rcases List.mem_append.mp he with he | he
  · intro hpe
    have hin : e ∈ h.listeners := (remove_sublist h id).1.subset he
    have hany : (h.listeners.any fun e => e.1 == id) = true :=
      List.any_eq_true.mpr ⟨e, hin, by simpa using hmain e hin hpe⟩
    rw [SimpleHandler.remove, if_neg hid, if_pos hany] at he
    have hother := (List.mem_filter.mp he).2
    exact absurd (hmain e hin hpe) (by simpa using hother)
  · have hin : e ∈ h.lowPriorityListeners := (remove_sublist h id).2.subset he
    simp [hlow e hin]

end SimpleHandlers
