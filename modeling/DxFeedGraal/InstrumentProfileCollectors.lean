import DxFeedGraal.BitOperations
import DxFeedGraal.EntityManagers
import DxFeedGraal.PartialRuns
import DxFeedGraal.SimpleHandlers
import Mathlib.Logic.Function.Basic

/-! # Listeners of instrument profile collectors

Native code knows a listener by one word of user data, made of the identifiers of its collector
and of its own. Everything that native code does with the word later goes through the registry
of collectors. -/
namespace InstrumentProfileCollectors

open FixedWidthIntegers BitOperations EntityManagers SimpleHandlers

/-! ## Two identifiers in one word -/

def sizeOfSize : UInt64 := 64

def pack (t u : UInt64) : UInt64 := orOp (shl t (sizeOfSize / 2)) u

def unpack (v : UInt64) : UInt64 × UInt64 :=
  (shr v (sizeOfSize / 2), andOp v (shr (~~~(0 : UInt64)) (sizeOfSize / 2)))

theorem value_half : value (sizeOfSize / 2) = 32 := by decide

theorem toNat_shr_half (v : UInt64) : (shr v (sizeOfSize / 2)).toNat = v.toNat / 2 ^ 32 := by
  have hbits := toBits_shr v (value_half ▸ (by decide : (0 : ℤ) ≤ 32))
  rw [value_half] at hbits
  exact (congrArg BitVec.toNat hbits).trans (Nat.shiftRight_eq_div_pow _ _)

theorem toNat_low_half (v : UInt64) :
    (andOp v (shr (~~~(0 : UInt64)) (sizeOfSize / 2))).toNat = v.toNat % 2 ^ 32 := by
  have hmask : (shr (~~~(0 : UInt64)) (sizeOfSize / 2)).toNat = 2 ^ 32 - 1 := toNat_shr_half _
  have hbits := toBits_andOp le_rfl v (shr (~~~(0 : UInt64)) (sizeOfSize / 2))
  rw [ofInt_value] at hbits
  refine (congrArg BitVec.toNat hbits).trans ((BitVec.toNat_and _ _).trans ?_)
  change v.toNat &&& (shr (~~~(0 : UInt64)) (sizeOfSize / 2)).toNat = _
  rw [hmask, and_low_mask]

theorem toNat_shl_half (t : UInt64) :
    (shl t (sizeOfSize / 2)).toNat = t.toNat % 2 ^ 32 * 2 ^ 32 := by
  have hshl : shl t (sizeOfSize / 2) = wrap (value t * 2 ^ 32) := by
    rw [shl, value_half, if_neg (by decide), leftShift_eq]
    rfl
  have hvalue : value (wrap (value t * 2 ^ 32) : UInt64) = value t * 2 ^ 32 % 2 ^ 64 :=
    value_wrap_unsigned rfl _
  rw [← hshl] at hvalue
  have ht : value t = (t.toNat : ℤ) := rfl
  have hs : value (shl t (sizeOfSize / 2)) = ((shl t (sizeOfSize / 2)).toNat : ℤ) := rfl
  rw [ht, hs] at hvalue
  omega

theorem toNat_pack (t u : UInt64) : (pack t u).toNat = t.toNat % 2 ^ 32 * 2 ^ 32 ||| u.toNat := by
  have hbits := toBits_orOp le_rfl (shl t (sizeOfSize / 2)) u
  rw [ofInt_value] at hbits
  refine (congrArg BitVec.toNat hbits).trans ((BitVec.toNat_or _ _).trans ?_)
  change (shl t (sizeOfSize / 2)).toNat ||| u.toNat = _
  rw [toNat_shl_half]

/-- The word gives back both identifiers exactly when each of them fits into a half. -/
theorem unpack_pack_iff (t u : UInt64) :
    unpack (pack t u) = (t, u) ↔ t.toNat < 2 ^ 32 ∧ u.toNat < 2 ^ 32 := by
  constructor
  · intro h
    have ht := congrArg UInt64.toNat (congrArg Prod.fst h)
    have hu := congrArg UInt64.toNat (congrArg Prod.snd h)
    change (shr (pack t u) (sizeOfSize / 2)).toNat = t.toNat at ht
    change (andOp (pack t u) _).toNat = u.toNat at hu
    rw [toNat_shr_half] at ht
    rw [toNat_low_half] at hu
    have := (pack t u).toNat_lt
    omega
  · rintro ⟨ht, hu⟩
    have hpack : (pack t u).toNat = t.toNat * 2 ^ 32 + u.toNat := by
      rw [toNat_pack, Nat.mod_eq_of_lt ht, or_disjoint (Nat.mul_mod_left _ _) hu]
    refine Prod.ext (UInt64.toNat_inj.mp ?_) (UInt64.toNat_inj.mp ?_)
    · refine (toNat_shr_half _).trans (?_ : _ = t.toNat)
      omega
    · refine (toNat_low_half _).trans (?_ : _ = u.toNat)
      omega

/-! ## Collectors -/

/-- `onInstrumentProfilesUpdateHandlers_` and `listenerHandles_`, with the numbers of the native
listeners. -/
structure Collector (L : Type*) where
  id : EntityManagers.Id
  handlers : UInt64 → Option (SimpleHandler L) := fun _ => none
  listenerHandles : UInt64 → Option ℕ := fun _ => none

structure Api (L A : Type*) where
  /-- The manager of collectors, which are known by their places in the list. -/
  entities : EntityManagers.State Unit ℕ := {}
  collectors : List (Collector L) := []
  /-- The counter of the handlers' signature. -/
  lastId : UInt64 := 0
  /-- The user data of the native listeners. -/
  userData : List UInt64 := []
  /-- The native listeners of each native collector. -/
  updateListeners : ℕ → List ℕ := fun _ => []
  /-- What `addUpdateListener` was given and returned. -/
  returned : List (ℕ × UInt64 × L) := []
  /-- The listeners that were called: of which collector, under which identifier. -/
  called : List (ℕ × UInt64 × L × A) := []

/-- The native listener is made and added, or one of the two throws. -/
inductive Outcome where
  | added | notCreated | notAdded
  deriving DecidableEq, Repr

inductive Event (L A : Type*) where
  | create
  | addUpdateListener (collector : ℕ) (listener : L) (outcome : Outcome)
  | removeUpdateListener (collector : ℕ) (listenerId : UInt64) (throws : Bool)
  | onInstrumentProfilesUpdate (native : ℕ) (profiles : A)
  deriving DecidableEq, Repr

/-- `emplace` and `try_emplace` leave a value that is there. -/
def tryEmplace {V : Type*} (m : UInt64 → Option V) (key : UInt64) (v : V) : UInt64 → Option V :=
  match m key with
  | some _ => m
  | none => Function.update m key (some v)

namespace Api

variable {L A : Type*} (u : Api L A)

def create : Api L A :=
  let registered := (u.entities.managers ()).registerEntity u.collectors.length u.entities.value
  { u with
    entities := EntityManagers.step u.entities (.registerEntity () u.collectors.length)
    collectors := u.collectors ++ [{ id := registered.1 }] }

def set (c : ℕ) (collector : Collector L) : Api L A :=
  { u with collectors := u.collectors.set c collector }

/-- The handle is stored before the native listener is added. -/
def addListenerHandle (c : ℕ) (collector : Collector L) (id : UInt64) (outcome : Outcome) :
    Api L A :=
  match outcome with
  | .notCreated => u.set c collector
  | .added | .notAdded =>
    let handles := tryEmplace collector.listenerHandles id u.userData.length
    let u := { u.set c { collector with listenerHandles := handles } with
      userData := u.userData ++ [pack collector.id id] }
    match outcome, handles id with
    | .added, some native =>
      { u with updateListeners :=
        Function.update u.updateListeners c (u.updateListeners c ++ [native]) }
    | _, _ => u

/-- A new handler for each listener. -/
def addUpdateListener (c : ℕ) (collector : Collector L) (listener : L) (outcome : Outcome) :
    Api L A :=
  let added := ({} : SimpleHandler L).add listener u.lastId
  let handlers := tryEmplace collector.handlers added.1 added.2.1
  let u := { u with lastId := added.2.2 }.addListenerHandle c
    { collector with handlers := handlers } added.1 outcome
  if outcome = .added then { u with returned := u.returned ++ [(c, added.1, listener)] } else u

/-- Nothing is removed when the native listener could not be. -/
def removeUpdateListener (c : ℕ) (collector : Collector L) (id : UInt64) (throws : Bool) :
    Api L A :=
  match collector.handlers id, collector.listenerHandles id with
  | none, _ => u
  | some _, none => u.set c { collector with handlers := Function.update collector.handlers id none }
  | some _, some native =>
    if throws then u
    else
      { u.set c { collector with handlers := Function.update collector.handlers id none } with
        updateListeners := Function.update u.updateListeners c
          ((u.updateListeners c).filter fun other => other ≠ native) }

def onInstrumentProfilesUpdate (userData : UInt64) (profiles : A) : Api L A :=
  let ids := unpack userData
  match (u.entities.managers ()).getEntity ids.1 with
  | none => u
  | some c =>
    match u.collectors[c]?.bind fun collector => collector.handlers ids.2 with
    | none => u
    | some handler =>
      { u with called := u.called ++
        handler.handle.map fun listener => (c, ids.2, listener, profiles) }

end Api

variable {L A : Type*}

/-- Native code may still call a listener that it was told to remove. -/
def step (u : Api L A) : Event L A → Option (Api L A)
  | .create => some u.create
  | .addUpdateListener c listener outcome =>
    u.collectors[c]?.map fun collector => u.addUpdateListener c collector listener outcome
  | .removeUpdateListener c id throws =>
    u.collectors[c]?.map fun collector => u.removeUpdateListener c collector id throws
  | .onInstrumentProfilesUpdate native profiles =>
    u.userData[native]?.map fun userData => u.onInstrumentProfilesUpdate userData profiles

/-! ## What a collector knows of its listeners -/

/-- A listener that was added has a native listener of its own, which is registered as long as
the handler is there; both were numbered before. -/
structure Kept (u : Api L A) (c : ℕ) (collector : Collector L) : Prop where
  entity : (u.entities.managers ()).entitiesById collector.id = some c
  handlers_le : ∀ l handler, collector.handlers l = some handler → l ≤ u.lastId
  handles_le : ∀ l native, collector.listenerHandles l = some native → l ≤ u.lastId
  userData : ∀ l native, collector.listenerHandles l = some native →
    u.userData[native]? = some (pack collector.id l)
  apart : ∀ l l' native, collector.listenerHandles l = some native →
    collector.listenerHandles l' = some native → l = l'
  natives : ∀ native ∈ u.updateListeners c, ∃ l, collector.listenerHandles l = some native
  returned : ∀ l listener, (c, l, listener) ∈ u.returned →
    ∃ native, collector.listenerHandles l = some native ∧
      (native ∈ u.updateListeners c ↔ collector.handlers l ≠ none) ∧
      ∀ handler, collector.handlers l = some handler → handler.entries = [(l, listener)]

structure Sound (u : Api L A) : Prop where
  issued : EntityManagers.Issued u.entities u.collectors.length
  kept : ∀ c collector, u.collectors[c]? = some collector → Kept u c collector
  returned_lt : ∀ c l listener, (c, l, listener) ∈ u.returned → c < u.collectors.length
  natives_lt : ∀ c, u.updateListeners c ≠ [] → c < u.collectors.length
  entities_lt : ∀ id c, (u.entities.managers ()).entitiesById id = some c → c < u.collectors.length

/-- Neither counter has come to its end. -/
structure Bounded (u : Api L A) : Prop where
  collectors : u.collectors.length + 1 < 2 ^ 64
  listeners : ¬ u.lastId ≥ FAKE_ID - 1

theorem sound_initial : Sound ({} : Api L A) := by
  refine ⟨EntityManagers.issued_init, ?_, ?_, ?_, ?_⟩ <;> simp

/-- The registry and the counters stay, and one collector takes another value. -/
theorem Sound.set {u v : Api L A} (h : Sound u) {c : ℕ} {collector : Collector L}
    (hc : c < u.collectors.length) (hentities : v.entities = u.entities)
    (hcollectors : v.collectors = u.collectors.set c collector) (hlast : u.lastId ≤ v.lastId)
    (huserData : ∀ (n : ℕ) (data : UInt64), u.userData[n]? = some data → v.userData[n]? = some data)
    (hnatives : ∀ other, other ≠ c → v.updateListeners other = u.updateListeners other)
    (hreturned : ∀ other l listener, other ≠ c →
      (other, l, listener) ∈ v.returned → (other, l, listener) ∈ u.returned)
    (hkept : Kept v c collector) : Sound v := by
  have hlength : v.collectors.length = u.collectors.length := by rw [hcollectors, List.length_set]
  refine ⟨?_, fun other col hother => ?_, fun other l listener hmem => ?_, fun other hne => ?_, ?_⟩
  · rw [hentities, hlength]
    exact h.issued
  · rw [hcollectors] at hother
    by_cases hsame : c = other
    · subst hsame
      rw [List.getElem?_set_self hc] at hother
      cases hother
      exact hkept
    · rw [List.getElem?_set_ne hsame] at hother
      have hold := h.kept other col hother
      have hlisteners := hnatives other (Ne.symm hsame)
      constructor
      · rw [hentities]
        exact hold.entity
      · exact fun l handler hl => UInt64.le_trans (hold.handlers_le l handler hl) hlast
      · exact fun l native hl => UInt64.le_trans (hold.handles_le l native hl) hlast
      · exact fun l native hl => huserData native _ (hold.userData l native hl)
      · exact hold.apart
      · rw [hlisteners]
        exact hold.natives
      · rw [hlisteners]
        exact fun l listener hmem =>
          hold.returned l listener (hreturned other l listener (Ne.symm hsame) hmem)
  · rw [hlength]
    by_cases hsame : other = c
    · exact hsame ▸ hc
    · exact h.returned_lt other l listener (hreturned other l listener hsame hmem)
  · rw [hlength]
    by_cases hsame : other = c
    · exact hsame ▸ hc
    · rw [hnatives other hsame] at hne
      exact h.natives_lt other hne
  · rw [hentities, hlength]
    exact h.entities_lt

theorem registerEntity_new {m : EntityManager ℕ} {entity : ℕ} (h : m.idsByEntities entity = none)
    (value : UInt64) : m.registerEntity entity value = (value, m.link value entity, value + 1) := by
  rw [EntityManager.registerEntity, h]
  rfl

theorem Sound.create {u : Api L A} (h : Sound u) (hroom : u.collectors.length + 1 < 2 ^ 64) :
    Sound u.create := by
  let n := u.collectors.length
  have hnew : (u.entities.managers ()).idsByEntities n = none :=
    Option.eq_none_iff_forall_ne_some.mpr fun id hid =>
      absurd (h.entities_lt id n ((h.issued.inverse () id n).mpr hid)) (lt_irrefl n)
  have hfresh := EntityManagers.next_not_held h.issued hroom ()
  have hregister := registerEntity_new hnew u.entities.value
  have hissued : EntityManagers.issued u.entities (.registerEntity () n) =
      some u.entities.value := by
    simp [EntityManagers.issued, EntityManager.getId, hnew, hregister]
  have hid : ((u.entities.managers ()).registerEntity n u.entities.value).1 =
      u.entities.value := by rw [hregister]
  have hentities : ∀ id, (u.create.entities.managers ()).entitiesById id =
      Function.update (u.entities.managers ()).entitiesById u.entities.value (some n) id := by
    intro id
    change (Function.update u.entities.managers ()
      ((u.entities.managers ()).registerEntity n u.entities.value).2.1 ()).entitiesById id = _
    rw [Function.update_self, hregister]
    rfl
  have hlength : u.create.collectors.length = n + 1 := by simp [Api.create, n]
  have hstep := (EntityManagers.issued_step_some h.issued hissued hroom).2
  refine ⟨?_, fun c collector hc => ?_, fun c l listener hmem => ?_, fun c hne => ?_,
    fun id c hheld => ?_⟩
  · rw [hlength]
    exact hstep
  · rcases Nat.lt_or_ge c n with hlt | hge
    · have hold : u.collectors[c]? = some collector := by
        rwa [Api.create, List.getElem?_append_left hlt] at hc
      have hkept := h.kept c collector hold
      have hne : collector.id ≠ u.entities.value := by
        intro heq
        have hentity := hkept.entity
        rw [heq, hfresh] at hentity
        cases hentity
      refine ⟨?_, hkept.handlers_le, hkept.handles_le, hkept.userData, hkept.apart,
        hkept.natives, hkept.returned⟩
      rw [hentities, Function.update_of_ne hne]
      exact hkept.entity
    · have hlast : c = n := by
        have := (List.getElem?_eq_some_iff.mp hc).1
        omega
      subst hlast
      rw [Api.create, List.getElem?_append_right le_rfl, Nat.sub_self] at hc
      cases hc
      refine ⟨?_, by simp, by simp, by simp, by simp, fun native hnative => ?_,
        fun l listener hmem => absurd (h.returned_lt n l listener hmem) (lt_irrefl n)⟩
      · rw [hentities]
        exact (congrArg _ hid).trans (Function.update_self _ _ _)
      · exact absurd (h.natives_lt n (List.ne_nil_of_mem hnative)) (lt_irrefl n)
  · rw [hlength]
    exact (h.returned_lt c l listener hmem).trans (Nat.lt_succ_self n)
  · rw [hlength]
    exact (h.natives_lt c hne).trans (Nat.lt_succ_self n)
  · rw [hlength]
    rw [hentities] at hheld
    by_cases hvalue : id = u.entities.value
    · subst hvalue
      rw [Function.update_self] at hheld
      cases hheld
      exact Nat.lt_succ_self n
    · rw [Function.update_of_ne hvalue] at hheld
      exact (h.entities_lt id c hheld).trans (Nat.lt_succ_self n)

theorem tryEmplace_fresh {V : Type*} {m : UInt64 → Option V} {key : UInt64} (h : m key = none)
    (v : V) : tryEmplace m key v = Function.update m key (some v) := by
  rw [tryEmplace, h]

/-! ## Adding a listener -/

theorem update_cases {V : Type*} {m : UInt64 → Option V} {id l : UInt64} {v w : V}
    (h : Function.update m id (some v) l = some w) : l = id ∧ w = v ∨ l ≠ id ∧ m l = some w := by
  by_cases hl : l = id
  · subst hl
    rw [Function.update_self] at h
    exact .inl ⟨rfl, (Option.some.inj h).symm⟩
  · rw [Function.update_of_ne hl] at h
    exact .inr ⟨hl, h⟩

/-- A handler under the next identifier. -/
theorem Kept.numbered {u v : Api L A} {c : ℕ} {collector : Collector L} (h : Kept u c collector)
    {id : UInt64} (hlt : u.lastId < id) (handler : SimpleHandler L) (hlast : v.lastId = id)
    (hentities : v.entities = u.entities) (huserData : v.userData = u.userData)
    (hlisteners : v.updateListeners = u.updateListeners) (hreturned : v.returned = u.returned) :
    Kept v c { collector with handlers := Function.update collector.handlers id (some handler) } := by
  have hle := UInt64.le_of_lt hlt
  constructor
  · rw [hentities]
    exact h.entity
  · intro l handler' hl
    rw [hlast]
    rcases update_cases hl with ⟨rfl, -⟩ | ⟨-, hl⟩
    · exact UInt64.le_refl _
    · exact UInt64.le_trans (h.handlers_le l handler' hl) hle
  · intro l native hl
    rw [hlast]
    exact UInt64.le_trans (h.handles_le l native hl) hle
  · rw [huserData]
    exact h.userData
  · exact h.apart
  · rw [hlisteners]
    exact h.natives
  · rw [hlisteners, hreturned]
    intro l listener hmem
    obtain ⟨native, hl, hiff, hentries⟩ := h.returned l listener hmem
    have hne : l ≠ id := by
      rintro rfl
      exact absurd (h.handles_le l native hl) (UInt64.not_le.mpr hlt)
    refine ⟨native, hl, ?_⟩
    dsimp only
    rw [Function.update_of_ne hne]
    exact ⟨hiff, hentries⟩

/-- A native listener for an identifier that has none. -/
theorem Kept.handled {u v : Api L A} {c : ℕ} {collector : Collector L} (h : Kept u c collector)
    {id : UInt64} (hle : id ≤ u.lastId) (hnone : collector.listenerHandles id = none)
    (hlast : v.lastId = u.lastId) (hentities : v.entities = u.entities)
    (huserData : v.userData = u.userData ++ [pack collector.id id])
    (hlisteners : v.updateListeners = u.updateListeners) (hreturned : v.returned = u.returned) :
    Kept v c { collector with
      listenerHandles := Function.update collector.listenerHandles id (some u.userData.length) } := by
  have hlt : ∀ l native, collector.listenerHandles l = some native → native < u.userData.length :=
    fun l native hl => (List.getElem?_eq_some_iff.mp (h.userData l native hl)).1
  have hold : ∀ l native, collector.listenerHandles l = some native → l ≠ id := by
    rintro l native hl rfl
    rw [hnone] at hl
    cases hl
  constructor
  · rw [hentities]
    exact h.entity
  · rw [hlast]
    exact h.handlers_le
  · intro l native hl
    rw [hlast]
    rcases update_cases hl with ⟨rfl, -⟩ | ⟨-, hl⟩
    · exact hle
    · exact h.handles_le l native hl
  · intro l native hl
    rw [huserData]
    rcases update_cases hl with ⟨rfl, rfl⟩ | ⟨-, hl⟩
    · exact List.getElem?_concat_length
    · rw [List.getElem?_append_left (hlt l native hl)]
      exact h.userData l native hl
  · intro l l' native hl hl'
    rcases update_cases hl with ⟨rfl, rfl⟩ | ⟨-, hbefore⟩ <;>
      rcases update_cases hl' with ⟨rfl, hnew⟩ | ⟨-, hbefore'⟩
    · rfl
    · exact absurd (hlt l' _ hbefore') (lt_irrefl _)
    · exact absurd (hnew ▸ hlt l native hbefore) (lt_irrefl _)
    · exact h.apart l l' native hbefore hbefore'
  · rw [hlisteners]
    intro native hnative
    obtain ⟨l, hl⟩ := h.natives native hnative
    exact ⟨l, (Function.update_of_ne (hold l native hl) _ _).trans hl⟩
  · rw [hlisteners, hreturned]
    intro l listener hmem
    obtain ⟨native, hl, hrest⟩ := h.returned l listener hmem
    exact ⟨native, (Function.update_of_ne (hold l native hl) _ _).trans hl, hrest⟩

/-- The native listener is added, and the identifier returned. -/
theorem Kept.listed {u v : Api L A} {c : ℕ} {collector : Collector L} (h : Kept u c collector)
    {id : UInt64} {native : ℕ} {handler : SimpleHandler L} {listener : L}
    (hid : collector.listenerHandles id = some native) (hnew : native ∉ u.updateListeners c)
    (hhandler : collector.handlers id = some handler) (hentries : handler.entries = [(id, listener)])
    (hlast : v.lastId = u.lastId) (hentities : v.entities = u.entities)
    (huserData : v.userData = u.userData)
    (hlisteners : v.updateListeners c = u.updateListeners c ++ [native])
    (hreturned : v.returned = u.returned ++ [(c, id, listener)]) : Kept v c collector := by
  constructor
  · rw [hentities]
    exact h.entity
  · rw [hlast]
    exact h.handlers_le
  · rw [hlast]
    exact h.handles_le
  · rw [huserData]
    exact h.userData
  · exact h.apart
  · rw [hlisteners]
    intro other hother
    rcases List.mem_append.mp hother with hother | hother
    · exact h.natives other hother
    · exact ⟨id, by rwa [List.mem_singleton.mp hother]⟩
  · rw [hlisteners, hreturned]
    intro l x hmem
    rcases List.mem_append.mp hmem with hmem | hmem
    · obtain ⟨other, hl, hiff, hrest⟩ := h.returned l x hmem
      have hne : other ≠ native := by
        rintro rfl
        cases h.apart l id other hl hid
        exact hnew (hiff.mpr (by simp [hhandler]))
      refine ⟨other, hl, ?_, hrest⟩
      simpa [hne] using hiff
    · cases List.mem_singleton.mp hmem
      refine ⟨native, hid, by simp [hhandler], fun other hother => ?_⟩
      rw [hhandler] at hother
      cases hother
      exact hentries

/-- Adding a listener while the counter has not come to its end. -/
theorem Sound.addUpdateListener {u : Api L A} (h : Sound u) (hroom : ¬ u.lastId ≥ FAKE_ID - 1)
    {c : ℕ} {collector : Collector L} (hc : u.collectors[c]? = some collector) (listener : L)
    (outcome : Outcome) : Sound (u.addUpdateListener c collector listener outcome) := by
  obtain ⟨hlt, -⟩ := succ_of_not_exhausted hroom
  have hkept := h.kept c collector hc
  have hlength := (List.getElem?_eq_some_iff.mp hc).1
  let id := u.lastId + 1
  let handler : SimpleHandler L := { listeners := [(id, listener)] }
  have hadd : ({} : SimpleHandler L).add listener u.lastId = (id, handler, id) := by
    rw [SimpleHandler.add, if_neg hroom]
    rfl
  have hhandlers : collector.handlers id = none :=
    Option.eq_none_iff_forall_ne_some.mpr fun _ hl =>
      absurd (hkept.handlers_le id _ hl) (UInt64.not_le.mpr hlt)
  have hhandles : collector.listenerHandles id = none :=
    Option.eq_none_iff_forall_ne_some.mpr fun _ hl =>
      absurd (hkept.handles_le id _ hl) (UInt64.not_le.mpr hlt)
  have hnew : u.userData.length ∉ u.updateListeners c := by
    intro hmem
    obtain ⟨l, hl⟩ := hkept.natives _ hmem
    exact absurd (List.getElem?_eq_some_iff.mp (hkept.userData l _ hl)).1 (lt_irrefl _)
  let numbered : Collector L :=
    { collector with handlers := Function.update collector.handlers id (some handler) }
  let handled : Collector L :=
    { numbered with
      listenerHandles := Function.update collector.listenerHandles id (some u.userData.length) }
  have hnumbered : Kept { u with lastId := id } c numbered :=
    hkept.numbered hlt handler rfl rfl rfl rfl rfl
  have huserData : ∀ (n : ℕ) (data : UInt64), u.userData[n]? = some data →
      (u.userData ++ [pack collector.id id])[n]? = some data := fun n data hn => by
    rwa [List.getElem?_append_left (List.getElem?_eq_some_iff.mp hn).1]
  cases outcome with
  | notCreated =>
    have hv : u.addUpdateListener c collector listener .notCreated =
        { u.set c numbered with lastId := id } := by
      simp only [Api.addUpdateListener, hadd, tryEmplace_fresh hhandlers, Api.addListenerHandle]
      rfl
    rw [hv]
    exact h.set hlength rfl rfl (UInt64.le_of_lt hlt) (fun _ _ hn => hn) (fun _ _ => rfl)
      (fun _ _ _ _ hmem => hmem) (hkept.numbered hlt handler rfl rfl rfl rfl rfl)
  | notAdded =>
    have hv : u.addUpdateListener c collector listener .notAdded =
        { u.set c handled with
          lastId := id
          userData := u.userData ++ [pack collector.id id] } := by
      simp only [Api.addUpdateListener, hadd, tryEmplace_fresh hhandlers, Api.addListenerHandle,
        tryEmplace_fresh hhandles]
      rfl
    rw [hv]
    exact h.set hlength rfl rfl (UInt64.le_of_lt hlt) huserData (fun _ _ => rfl)
      (fun _ _ _ _ hmem => hmem) (hnumbered.handled (UInt64.le_refl id) hhandles rfl rfl rfl rfl rfl)
  | added =>
    have hv : u.addUpdateListener c collector listener .added =
        { u.set c handled with
          lastId := id
          userData := u.userData ++ [pack collector.id id]
          updateListeners := Function.update u.updateListeners c
            (u.updateListeners c ++ [u.userData.length])
          returned := u.returned ++ [(c, id, listener)] } := by
      simp only [Api.addUpdateListener, hadd, tryEmplace_fresh hhandlers, Api.addListenerHandle,
        tryEmplace_fresh hhandles, Function.update_self, if_true]
      rfl
    have hhandled : Kept { u with
        lastId := id
        userData := u.userData ++ [pack collector.id id] } c handled :=
      hnumbered.handled (UInt64.le_refl id) hhandles rfl rfl rfl rfl rfl
    rw [hv]
    refine h.set hlength rfl rfl (UInt64.le_of_lt hlt) huserData
      (fun other hother => Function.update_of_ne hother _ _) ?_
      (hhandled.listed (Function.update_self _ _ _) hnew (Function.update_self _ _ _) rfl rfl rfl rfl
        (Function.update_self _ _ _) rfl)
    intro other l x hother hmem
    rcases List.mem_append.mp hmem with hmem | hmem
    · exact hmem
    · cases List.mem_singleton.mp hmem
      exact absurd rfl hother

/-! ## Removing one -/

theorem Kept.removed {u v : Api L A} {c : ℕ} {collector : Collector L} (h : Kept u c collector)
    (id : UInt64) (hlast : v.lastId = u.lastId) (hentities : v.entities = u.entities)
    (huserData : v.userData = u.userData) (hreturned : v.returned = u.returned)
    (hlisteners : ∀ native, native ∈ v.updateListeners c ↔
      native ∈ u.updateListeners c ∧ collector.listenerHandles id ≠ some native) :
    Kept v c { collector with handlers := Function.update collector.handlers id none } := by
  have hold : ∀ l handler, Function.update collector.handlers id none l = some handler →
      l ≠ id ∧ collector.handlers l = some handler := by
    intro l handler hl
    by_cases hid : l = id
    · subst hid
      rw [Function.update_self] at hl
      cases hl
    · exact ⟨hid, (Function.update_of_ne hid _ _).symm.trans hl⟩
  constructor
  · rw [hentities]
    exact h.entity
  · rw [hlast]
    exact fun l handler hl => h.handlers_le l handler (hold l handler hl).2
  · rw [hlast]
    exact h.handles_le
  · rw [huserData]
    exact h.userData
  · exact h.apart
  · exact fun native hnative => h.natives native ((hlisteners native).mp hnative).1
  · rw [hreturned]
    intro l listener hmem
    obtain ⟨native, hl, hiff, hentries⟩ := h.returned l listener hmem
    refine ⟨native, hl, ?_, fun handler hhandler => hentries handler (hold l handler hhandler).2⟩
    rw [hlisteners, hiff]
    dsimp only
    by_cases hid : l = id
    · subst hid
      simp [hl]
    · rw [Function.update_of_ne hid]
      exact and_iff_left fun hsame => hid (h.apart l id native hl hsame)

theorem Sound.removeUpdateListener {u : Api L A} (h : Sound u) {c : ℕ} {collector : Collector L}
    (hc : u.collectors[c]? = some collector) (id : UInt64) (throws : Bool) :
    Sound (u.removeUpdateListener c collector id throws) := by
  have hkept := h.kept c collector hc
  have hlength := (List.getElem?_eq_some_iff.mp hc).1
  cases hhandler : collector.handlers id with
  | none =>
    have hv : u.removeUpdateListener c collector id throws = u := by
      simp only [Api.removeUpdateListener, hhandler]
    rwa [hv]
  | some handler =>
    cases hhandle : collector.listenerHandles id with
    | none =>
      have hv : u.removeUpdateListener c collector id throws = u.set c
          { collector with handlers := Function.update collector.handlers id none } := by
        simp only [Api.removeUpdateListener, hhandler, hhandle]
      rw [hv]
      refine h.set hlength rfl rfl (UInt64.le_refl _) (fun _ _ hn => hn) (fun _ _ => rfl)
        (fun _ _ _ _ hmem => hmem) (hkept.removed id rfl rfl rfl rfl fun native => ?_)
      simp [Api.set, hhandle]
    | some native =>
      cases throws with
      | true =>
        have hv : u.removeUpdateListener c collector id true = u := by
          simp only [Api.removeUpdateListener, hhandler, hhandle, if_true]
        rwa [hv]
      | false =>
        have hv : u.removeUpdateListener c collector id false =
            { u.set c { collector with handlers := Function.update collector.handlers id none } with
              updateListeners := Function.update u.updateListeners c
                ((u.updateListeners c).filter fun other => other ≠ native) } := by
          simp only [Api.removeUpdateListener, hhandler, hhandle]
          rfl
        rw [hv]
        refine h.set hlength rfl rfl (UInt64.le_refl _) (fun _ _ hn => hn)
          (fun other hother => Function.update_of_ne hother _ _) (fun _ _ _ _ hmem => hmem)
          (hkept.removed id rfl rfl rfl rfl fun other => ?_)
        change other ∈ Function.update u.updateListeners c _ c ↔ _
        rw [Function.update_self, List.mem_filter, decide_eq_true_eq, hhandle]
        exact and_congr_right fun _ => ⟨fun hne hsame => hne (Option.some.inj hsame).symm,
          fun hne hsame => hne (congrArg some hsame.symm)⟩

/-! ## Runs -/

theorem Sound.of_called {u : Api L A} (h : Sound u) (called : List (ℕ × UInt64 × L × A)) :
    Sound { u with called := called } :=
  ⟨h.issued, fun c collector hc =>
    have hkept := h.kept c collector hc
    ⟨hkept.entity, hkept.handlers_le, hkept.handles_le, hkept.userData, hkept.apart, hkept.natives,
      hkept.returned⟩, h.returned_lt, h.natives_lt, h.entities_lt⟩

theorem Sound.onInstrumentProfilesUpdate {u : Api L A} (h : Sound u) (userData : UInt64)
    (profiles : A) : Sound (u.onInstrumentProfilesUpdate userData profiles) := by
  unfold Api.onInstrumentProfilesUpdate
  dsimp only
  split
  next => exact h
  next =>
    split
    next => exact h
    next => exact h.of_called _

theorem addListenerHandle_same (u : Api L A) (c : ℕ) (collector : Collector L) (id : UInt64)
    (outcome : Outcome) :
    (u.addListenerHandle c collector id outcome).lastId = u.lastId ∧
      (u.addListenerHandle c collector id outcome).collectors.length = u.collectors.length := by
  cases outcome with
  | notCreated => simp [Api.addListenerHandle, Api.set]
  | notAdded => simp [Api.addListenerHandle, Api.set]
  | added =>
    simp only [Api.addListenerHandle]
    split <;> simp [Api.set]

theorem addUpdateListener_same (u : Api L A) (c : ℕ) (collector : Collector L) (listener : L)
    (outcome : Outcome) :
    (u.addUpdateListener c collector listener outcome).lastId =
        (({} : SimpleHandler L).add listener u.lastId).2.2 ∧
      (u.addUpdateListener c collector listener outcome).collectors.length =
        u.collectors.length := by
  simp only [Api.addUpdateListener]
  split <;> simp [addListenerHandle_same]

/-- The counters only grow. -/
theorem Bounded.before {u v : Api L A} {event : Event L A} (h : Bounded v)
    (hv : step u event = some v) : Bounded u := by
  cases event with
  | create =>
    cases hv
    have hcollectors := h.collectors
    simp only [Api.create, List.length_append, List.length_singleton] at hcollectors
    exact ⟨by omega, h.listeners⟩
  | addUpdateListener c listener outcome =>
    obtain ⟨collector, hc, rfl⟩ := Option.map_eq_some_iff.mp hv
    obtain ⟨hlast, hlength⟩ := addUpdateListener_same u c collector listener outcome
    refine ⟨hlength ▸ h.collectors, fun hend => h.listeners ?_⟩
    rw [hlast, SimpleHandler.add, if_pos hend]
    exact hend
  | removeUpdateListener c id throws =>
    obtain ⟨collector, hc, rfl⟩ := Option.map_eq_some_iff.mp hv
    have hsame : (u.removeUpdateListener c collector id throws).lastId = u.lastId ∧
        (u.removeUpdateListener c collector id throws).collectors.length =
          u.collectors.length := by
      unfold Api.removeUpdateListener
      split
      next => exact ⟨rfl, rfl⟩
      next => simp [Api.set]
      next => cases throws <;> simp [Api.set]
    exact ⟨hsame.2 ▸ h.collectors, hsame.1 ▸ h.listeners⟩
  | onInstrumentProfilesUpdate native profiles =>
    obtain ⟨userData, hdata, rfl⟩ := Option.map_eq_some_iff.mp hv
    have hsame : (u.onInstrumentProfilesUpdate userData profiles).lastId = u.lastId ∧
        (u.onInstrumentProfilesUpdate userData profiles).collectors = u.collectors := by
      unfold Api.onInstrumentProfilesUpdate
      dsimp only
      split
      next => exact ⟨rfl, rfl⟩
      next => split <;> exact ⟨rfl, rfl⟩
    exact ⟨hsame.2 ▸ h.collectors, hsame.1 ▸ h.listeners⟩

theorem Sound.step {u v : Api L A} {event : Event L A} (h : Sound u) (hbounded : Bounded v)
    (hv : step u event = some v) : Sound v := by
  have hroom := hbounded.before hv
  cases event with
  | create =>
    cases hv
    exact h.create hroom.collectors
  | addUpdateListener c listener outcome =>
    obtain ⟨collector, hc, rfl⟩ := Option.map_eq_some_iff.mp hv
    exact h.addUpdateListener hroom.listeners hc listener outcome
  | removeUpdateListener c id throws =>
    obtain ⟨collector, hc, rfl⟩ := Option.map_eq_some_iff.mp hv
    exact h.removeUpdateListener hc id throws
  | onInstrumentProfilesUpdate native profiles =>
    obtain ⟨userData, hdata, rfl⟩ := Option.map_eq_some_iff.mp hv
    exact h.onInstrumentProfilesUpdate userData profiles

theorem sound_run {events : List (Event L A)} {u : Api L A}
    (hrun : PartialRuns.run InstrumentProfileCollectors.step {} events = some u)
    (hbounded : Bounded u) : Sound u := by
  have hstep : ∀ (s t : Api L A) (event : Event L A), (Bounded s → Sound s) →
      InstrumentProfileCollectors.step s event = some t → (Bounded t → Sound t) :=
    fun s t event h ht hbounded => (h (hbounded.before ht)).step hbounded ht
  have hall : Bounded u → Sound u :=
    PartialRuns.run_invariant hstep (fun _ => sound_initial) hrun
  exact hall hbounded

/-! ## Which listener an update reaches -/

/-- The listeners that native code calls for a returned identifier, as it is told when to stop,
and what an update through one of them does: it calls the listener that was given, exactly when
both identifiers fit into half a word, and nothing after it was removed. -/
theorem updates_reach_their_listener (events : List (Event L A)) (u : Api L A)
    (hrun : PartialRuns.run InstrumentProfileCollectors.step {} events = some u)
    (hbounded : Bounded u) (c : ℕ) (l : UInt64) (listener : L)
    (hreturned : (c, l, listener) ∈ u.returned) :
    ∃ collector native, u.collectors[c]? = some collector ∧
      u.userData[native]? = some (pack collector.id l) ∧
      (native ∈ u.updateListeners c ↔ collector.handlers l ≠ none) ∧
      ∀ profiles,
        (collector.handlers l ≠ none →
          (InstrumentProfileCollectors.step u (.onInstrumentProfilesUpdate native profiles) =
              some { u with called := u.called ++ [(c, l, listener, profiles)] } ↔
            collector.id.toNat < 2 ^ 32 ∧ l.toNat < 2 ^ 32)) ∧
        (collector.handlers l = none → collector.id.toNat < 2 ^ 32 → l.toNat < 2 ^ 32 →
          InstrumentProfileCollectors.step u (.onInstrumentProfilesUpdate native profiles) =
            some u) := by
  have hs := sound_run hrun hbounded
  have hlt := hs.returned_lt c l listener hreturned
  obtain ⟨collector, hc⟩ : ∃ collector, u.collectors[c]? = some collector :=
    ⟨_, List.getElem?_eq_getElem hlt⟩
  have hkept := hs.kept c collector hc
  obtain ⟨native, hnative, hregistered, hentries⟩ := hkept.returned l listener hreturned
  have hdata := hkept.userData l native hnative
  refine ⟨collector, native, hc, hdata, hregistered, fun profiles => ⟨fun hlive => ?_,
    fun hgone hid hl => ?_⟩⟩
  · obtain ⟨handler, hhandler⟩ := Option.ne_none_iff_exists'.mp hlive
    have hhandle : handler.handle = [listener] := by
      rw [SimpleHandler.handle, hentries handler hhandler]
      rfl
    rw [InstrumentProfileCollectors.step, hdata, Option.map_some, Option.some.injEq,
      ← unpack_pack_iff]
    constructor
    · intro hcalled
      have hcalls := congrArg Api.called hcalled
      unfold Api.onInstrumentProfilesUpdate at hcalls
      dsimp only at hcalls
      split at hcalls
      next => simp at hcalls
      next other hentity =>
        split at hcalls
        next => simp at hcalls
        next found hfound =>
          have hcalls := List.append_cancel_left hcalls
          obtain ⟨x, hx⟩ : ∃ x, found.handle = [x] := by
            have hlength := congrArg List.length hcalls
            rw [List.length_map, List.length_singleton] at hlength
            exact List.length_eq_one_iff.mp hlength
          rw [hx] at hcalls
          have hsame := (List.cons.inj hcalls).1
          simp only [Prod.mk.injEq] at hsame
          obtain ⟨rfl, hl, -⟩ := hsame
          -- The registry gives back the collector for its identifier only.
          have hid := (hs.issued.inverse () _ _).mp hentity
          rw [(hs.issued.inverse () _ _).mp hkept.entity] at hid
          exact Prod.ext (Option.some.inj hid).symm hl
    · intro hpair
      unfold Api.onInstrumentProfilesUpdate
      dsimp only
      rw [hpair, EntityManager.getEntity, hkept.entity]
      simp only [hc, Option.bind_some, hhandler, hhandle, List.map_cons, List.map_nil]
  · have hpair := (unpack_pack_iff collector.id l).mpr ⟨hid, hl⟩
    rw [InstrumentProfileCollectors.step, hdata, Option.map_some]
    unfold Api.onInstrumentProfilesUpdate
    dsimp only
    rw [hpair, EntityManager.getEntity, hkept.entity]
    simp only [hc, Option.bind_some, hgone]

/-- Two listeners of two collectors; the first one is removed. -/
theorem second_listener_is_reached :
    ∃ u : Api ℕ ℕ,
      PartialRuns.run InstrumentProfileCollectors.step {}
        [.create, .create, .addUpdateListener 0 50 .added, .addUpdateListener 1 60 .added,
          .removeUpdateListener 0 1 false] = some u ∧
      ∃ collector native, u.collectors[1]? = some collector ∧
        u.userData[native]? = some (pack collector.id 2) ∧
        (native ∈ u.updateListeners 1 ↔ collector.handlers 2 ≠ none) ∧
        ∀ profiles,
          (collector.handlers 2 ≠ none →
            (InstrumentProfileCollectors.step u (.onInstrumentProfilesUpdate native profiles) =
                some { u with called := u.called ++ [(1, 2, 60, profiles)] } ↔
              collector.id.toNat < 2 ^ 32 ∧ (2 : UInt64).toNat < 2 ^ 32)) ∧
          (collector.handlers 2 = none → collector.id.toNat < 2 ^ 32 →
            (2 : UInt64).toNat < 2 ^ 32 →
              InstrumentProfileCollectors.step u (.onInstrumentProfilesUpdate native profiles) =
                some u) :=
  ⟨_, rfl, updates_reach_their_listener
    [.create, .create, .addUpdateListener 0 50 .added, .addUpdateListener 1 60 .added,
      .removeUpdateListener 0 1 false] _ rfl ⟨by decide, by decide⟩ 1 2 60 (by decide)⟩

end InstrumentProfileCollectors
