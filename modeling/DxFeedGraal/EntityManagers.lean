import Mathlib.Algebra.Group.Nat.Defs
import Mathlib.Data.List.Nodup
import Mathlib.Logic.Function.Basic
import Mathlib.Order.Nat

/-! # Entity managers and their handles

A manager maps handles to entities and back. The handles come from one counter for all
managers that share the identifier type, and native code keeps them for arbitrary time. -/
namespace EntityManagers

/-- `Id`: a `std::size_t` of 64 bits, also what `from` makes of a native pointer. -/
abbrev Id := UInt64

/-- Entities stand for the pointers that the maps compare. -/
structure EntityManager (ε : Type) where
  entitiesById : Id → Option ε := fun _ => none
  idsByEntities : ε → Option Id := fun _ => none
  lastId : UInt64 := 0

/-- `Id::getNext` over its static counter. -/
def getNext (value : UInt64) : Id × UInt64 := (value, value + 1)

namespace EntityManager

variable {ε : Type} [DecidableEq ε] (m : EntityManager ε)

/-- The identifier, the manager and the counter after the call. -/
def registerEntity (entity : ε) (value : UInt64) : Id × EntityManager ε × UInt64 :=
  match m.idsByEntities entity with
  | some id => (id, m, value)
  | none =>
    let id := (getNext value).1
    (id,
      { entitiesById := Function.update m.entitiesById id (some entity)
        idsByEntities := Function.update m.idsByEntities entity (some id)
        lastId := id },
      (getNext value).2)

def getLastId : UInt64 := m.lastId

def unregisterEntity (entity : ε) : Bool × EntityManager ε :=
  match m.idsByEntities entity with
  | some id =>
    (true,
      { m with
        entitiesById := Function.update m.entitiesById id none
        idsByEntities := Function.update m.idsByEntities entity none })
  | none => (false, m)

def unregisterId (id : Id) : Bool × EntityManager ε :=
  match m.entitiesById id with
  | some entity =>
    (true,
      { m with
        entitiesById := Function.update m.entitiesById id none
        idsByEntities := Function.update m.idsByEntities entity none })
  | none => (false, m)

omit [DecidableEq ε]

def getEntity (id : Id) : Option ε := m.entitiesById id
def containsId (id : Id) : Bool := (m.entitiesById id).isSome
def getId (entity : ε) : Option Id := m.idsByEntities entity
def containsEntity (entity : ε) : Bool := (m.idsByEntities entity).isSome

/-- The two maps undo each other, so each is one-to-one. -/
def MutuallyInverse : Prop :=
  ∀ id entity, m.entitiesById id = some entity ↔ m.idsByEntities entity = some id

end EntityManager

/-- Managers of one identifier type with the counter they share. -/
structure State (κ ε : Type) where
  managers : κ → EntityManager ε := fun _ => {}
  value : UInt64 := 1

inductive Operation (κ ε : Type) where
  | registerEntity (manager : κ) (entity : ε)
  | unregisterEntity (manager : κ) (entity : ε)
  | unregisterId (manager : κ) (id : Id)
  | getEntity (manager : κ) (id : Id)
  | getId (manager : κ) (entity : ε)
  | containsId (manager : κ) (id : Id)
  | containsEntity (manager : κ) (entity : ε)
  deriving DecidableEq, Repr

variable {κ ε : Type} [DecidableEq κ] [DecidableEq ε]

def step (s : State κ ε) : Operation κ ε → State κ ε
  | .registerEntity k entity =>
    let out := (s.managers k).registerEntity entity s.value
    { managers := Function.update s.managers k out.2.1, value := out.2.2 }
  | .unregisterEntity k entity =>
    { s with managers := Function.update s.managers k ((s.managers k).unregisterEntity entity).2 }
  | .unregisterId k id =>
    { s with managers := Function.update s.managers k ((s.managers k).unregisterId id).2 }
  | .getEntity _ _ | .getId _ _ | .containsId _ _ | .containsEntity _ _ => s

def run (s : State κ ε) (ops : List (Operation κ ε)) : State κ ε := ops.foldl step s

omit [DecidableEq κ] [DecidableEq ε] in
def Operation.isRegistration : Operation κ ε → Bool
  | .registerEntity _ _ => true
  | _ => false

/-- The handle that the registration of a new entity returns. -/
def issued (s : State κ ε) : Operation κ ε → Option Id
  | .registerEntity k entity =>
    if ((s.managers k).getId entity).isSome then none
    else some ((s.managers k).registerEntity entity s.value).1
  | .unregisterEntity _ _ | .unregisterId _ _ | .getEntity _ _ | .getId _ _ | .containsId _ _
  | .containsEntity _ _ => none

namespace EntityManager

variable {m : EntityManager ε}

/-- The manager after a pair of the maps was added, or taken out. -/
def link (m : EntityManager ε) (id : Id) (entity : ε) : EntityManager ε :=
  { entitiesById := Function.update m.entitiesById id (some entity)
    idsByEntities := Function.update m.idsByEntities entity (some id)
    lastId := id }

def unlink (m : EntityManager ε) (id : Id) (entity : ε) : EntityManager ε :=
  { m with
    entitiesById := Function.update m.entitiesById id none
    idsByEntities := Function.update m.idsByEntities entity none }

theorem mutuallyInverse_link (h : m.MutuallyInverse) {id : Id} {entity : ε}
    (hid : m.entitiesById id = none) (hentity : m.idsByEntities entity = none) :
    (m.link id entity).MutuallyInverse := by
  intro i e
  simp only [link]
  by_cases hi : i = id
  · subst hi
    by_cases he : e = entity
    · subst he
      simp
    · have hother : m.idsByEntities e ≠ some i := by
        intro hmap
        rw [← h i e, hid] at hmap
        cases hmap
      simp [he, hother, Ne.symm he]
  · by_cases he : e = entity
    · subst he
      have hother : m.entitiesById i ≠ some e := by
        intro hmap
        rw [h i e, hentity] at hmap
        cases hmap
      simp [hi, hother, Ne.symm hi]
    · simpa [hi, he] using h i e

theorem mutuallyInverse_unlink (h : m.MutuallyInverse) {id : Id} {entity : ε}
    (hpair : m.entitiesById id = some entity) : (m.unlink id entity).MutuallyInverse := by
  have hback := (h id entity).mp hpair
  intro i e
  simp only [unlink]
  by_cases hi : i = id
  · subst hi
    by_cases he : e = entity
    · subst he
      simp
    · have hother : m.idsByEntities e ≠ some i := by
        intro hmap
        rw [← h i e, hpair] at hmap
        exact he (Option.some.inj hmap).symm
      simp [he, hother]
  · by_cases he : e = entity
    · subst he
      have hother : m.entitiesById i ≠ some e := by
        intro hmap
        rw [h i e, hback] at hmap
        exact hi (Option.some.inj hmap).symm
      simp [hi, hother]
    · simpa [hi, he] using h i e

end EntityManager

/-- The state after one manager was replaced. -/
def setManager (s : State κ ε) (k : κ) (m : EntityManager ε) : State κ ε :=
  { s with managers := Function.update s.managers k m }

/-- An operation changes nothing, links a new pair in one manager or unlinks a pair there. -/
theorem step_cases {s : State κ ε} (h : ∀ k, (s.managers k).MutuallyInverse)
    (op : Operation κ ε) :
    (step s op = s ∧ issued s op = none) ∨
      (∃ k entity, op = .registerEntity k entity ∧ (s.managers k).idsByEntities entity = none ∧
        issued s op = some s.value ∧
        step s op =
          { setManager s k ((s.managers k).link s.value entity) with value := s.value + 1 }) ∨
      ∃ k id entity, (s.managers k).entitiesById id = some entity ∧ issued s op = none ∧
        step s op = setManager s k ((s.managers k).unlink id entity) := by
  cases op with
  | registerEntity k entity =>
    cases hfind : (s.managers k).idsByEntities entity with
    | some id =>
      left
      refine ⟨?_, by simp [issued, EntityManager.getId, hfind]⟩
      simp only [step, EntityManager.registerEntity, hfind, Function.update_eq_self]
    | none =>
      right
      left
      refine ⟨k, entity, rfl, hfind, ?_, ?_⟩
      · simp [issued, EntityManager.getId, EntityManager.registerEntity, hfind, getNext]
      · simp only [step, EntityManager.registerEntity, hfind, getNext]
        rfl
  | unregisterEntity k entity =>
    cases hfind : (s.managers k).idsByEntities entity with
    | some id =>
      right
      right
      refine ⟨k, id, entity, (h k id entity).mpr hfind, rfl, ?_⟩
      simp only [step, EntityManager.unregisterEntity, hfind]
      rfl
    | none =>
      left
      refine ⟨?_, rfl⟩
      simp only [step, EntityManager.unregisterEntity, hfind, Function.update_eq_self]
  | unregisterId k id =>
    cases hfind : (s.managers k).entitiesById id with
    | some entity =>
      right
      right
      refine ⟨k, id, entity, hfind, rfl, ?_⟩
      simp only [step, EntityManager.unregisterId, hfind]
      rfl
    | none =>
      left
      refine ⟨?_, rfl⟩
      simp only [step, EntityManager.unregisterId, hfind, Function.update_eq_self]
  | getEntity k id => exact Or.inl ⟨rfl, rfl⟩
  | getId k entity => exact Or.inl ⟨rfl, rfl⟩
  | containsId k id => exact Or.inl ⟨rfl, rfl⟩
  | containsEntity k entity => exact Or.inl ⟨rfl, rfl⟩

/-! ## Runs -/

/-- The state after `n` handles were issued: their values are `1` to `n`, and no two
managers hold one handle. -/
structure Issued (s : State κ ε) (n : ℕ) : Prop where
  value_eq : s.value = UInt64.ofNat (n + 1)
  inverse : ∀ k, (s.managers k).MutuallyInverse
  bounded : ∀ k id entity, (s.managers k).entitiesById id = some entity → id.toNat ≤ n
  disjoint : ∀ j k id, (s.managers j).containsId id = true →
    (s.managers k).containsId id = true → j = k

omit [DecidableEq κ] [DecidableEq ε] in
theorem issued_init : Issued ({} : State κ ε) 0 := by
  constructor
  · rfl
  · intro k id entity
    simp
  · intro k id entity h
    cases h
  · intro j k id h
    cases h

omit [DecidableEq κ] [DecidableEq ε] in
/-- The counter stands at a handle that nobody holds. -/
theorem next_not_held {s : State κ ε} {n : ℕ} (h : Issued s n) (hn : n + 1 < 2 ^ 64) (k : κ) :
    (s.managers k).entitiesById s.value = none := by
  cases hheld : (s.managers k).entitiesById s.value with
  | none => rfl
  | some entity =>
    have hle := h.bounded k s.value entity hheld
    rw [h.value_eq, UInt64.toNat_ofNat_of_lt' hn] at hle
    omega

/-- Nothing is resolved after a step that was not resolved before, the new handle apart. -/
theorem held_before {s : State κ ε} (h : ∀ k, (s.managers k).MutuallyInverse)
    {op : Operation κ ε} {k : κ} {id : Id} {entity : ε}
    (hheld : ((step s op).managers k).entitiesById id = some entity) :
    (s.managers k).entitiesById id = some entity ∨
      issued s op = some id ∧ ∃ e, op = .registerEntity k e := by
  rcases step_cases h op with ⟨hs, -⟩ | ⟨j, e, hop, -, hissued, hs⟩ | ⟨j, i, e, -, -, hs⟩
  · rw [hs] at hheld
    exact Or.inl hheld
  · rw [hs] at hheld
    by_cases hk : k = j
    · subst hk
      by_cases hid : id = s.value
      · exact Or.inr ⟨hid ▸ hissued, e, hop⟩
      · left
        simpa [setManager, EntityManager.link, hid] using hheld
    · left
      simpa [setManager, hk] using hheld
  · left
    rw [hs] at hheld
    by_cases hk : k = j
    · subst hk
      by_cases hid : id = i
      · simp [setManager, EntityManager.unlink, hid] at hheld
      · simpa [setManager, EntityManager.unlink, hid] using hheld
    · simpa [setManager, hk] using hheld

omit [DecidableEq ε] in
theorem containsId_iff {m : EntityManager ε} {id : Id} :
    m.containsId id = true ↔ ∃ entity, m.entitiesById id = some entity :=
  Option.isSome_iff_exists

theorem inverse_step {s : State κ ε} {n : ℕ} (h : Issued s n) {op : Operation κ ε}
    (hn : issued s op = none ∨ n + 1 < 2 ^ 64) (k : κ) :
    ((step s op).managers k).MutuallyInverse := by
  rcases step_cases h.inverse op with ⟨hs, -⟩ | ⟨j, e, -, hfresh, hissued, hs⟩ |
    ⟨j, i, e, hpair, -, hs⟩
  · rw [hs]
    exact h.inverse k
  · have hroom := hn.resolve_left (by rw [hissued]; exact Option.some_ne_none _)
    rw [hs]
    by_cases hk : k = j
    · subst hk
      simpa [setManager] using
        EntityManager.mutuallyInverse_link (h.inverse k) (next_not_held h hroom k) hfresh
    · simpa [setManager, hk] using h.inverse k
  · rw [hs]
    by_cases hk : k = j
    · subst hk
      simpa [setManager] using EntityManager.mutuallyInverse_unlink (h.inverse k) hpair
    · simpa [setManager, hk] using h.inverse k

theorem issued_step_none {s : State κ ε} {n : ℕ} (h : Issued s n) {op : Operation κ ε}
    (hnone : issued s op = none) : Issued (step s op) n := by
  have hbefore : ∀ {k id entity}, ((step s op).managers k).entitiesById id = some entity →
      (s.managers k).entitiesById id = some entity := by
    intro k id entity hheld
    rcases held_before h.inverse hheld with hold | ⟨hissued, -⟩
    · exact hold
    · rw [hnone] at hissued
      cases hissued
  constructor
  · rcases step_cases h.inverse op with ⟨hs, -⟩ | ⟨j, e, -, -, hissued, -⟩ | ⟨j, i, e, -, -, hs⟩
    · rw [hs]
      exact h.value_eq
    · rw [hnone] at hissued
      cases hissued
    · rw [hs]
      exact h.value_eq
  · exact inverse_step h (Or.inl hnone)
  · intro k id entity hheld
    exact h.bounded k id entity (hbefore hheld)
  · intro j k id hj hk
    rw [containsId_iff] at hj hk
    obtain ⟨e, hj⟩ := hj
    obtain ⟨e', hk⟩ := hk
    exact h.disjoint j k id (containsId_iff.mpr ⟨e, hbefore hj⟩)
      (containsId_iff.mpr ⟨e', hbefore hk⟩)

theorem issued_step_some {s : State κ ε} {n : ℕ} (h : Issued s n) {op : Operation κ ε} {id : Id}
    (hsome : issued s op = some id) (hn : n + 1 < 2 ^ 64) :
    id.toNat = n + 1 ∧ Issued (step s op) (n + 1) := by
  rcases step_cases h.inverse op with ⟨-, hnone⟩ | ⟨k, entity, hop, -, hissued, hs⟩ |
    ⟨k, i, e, -, hnone, -⟩
  · rw [hnone] at hsome
    cases hsome
  · rw [hsome, Option.some.injEq] at hissued
    have hid : id.toNat = n + 1 := by
      rw [hissued, h.value_eq, UInt64.toNat_ofNat_of_lt' hn]
    have hold : ∀ {j i e}, ((step s op).managers j).entitiesById i = some e →
        (s.managers j).entitiesById i = some e ∨ i = id ∧ j = k := by
      intro j i e hheld
      rcases held_before h.inverse hheld with hheld | ⟨hnew, e', hreg⟩
      · exact Or.inl hheld
      · rw [hsome, Option.some.injEq] at hnew
        rw [hop] at hreg
        cases hreg
        exact Or.inr ⟨hnew.symm, rfl⟩
    refine ⟨hid, ?_, inverse_step h (Or.inr hn), ?_, ?_⟩
    · rw [hs]
      change s.value + 1 = _
      rw [h.value_eq, ← UInt64.ofNat_one, ← UInt64.ofNat_add]
    · intro j i e hheld
      rcases hold hheld with hheld | ⟨rfl, -⟩
      · exact (h.bounded j i e hheld).trans (Nat.le_succ n)
      · exact hid.le
    · intro j j' i hj hj'
      rw [containsId_iff] at hj hj'
      obtain ⟨e, hj⟩ := hj
      obtain ⟨e', hj'⟩ := hj'
      -- The new handle exceeds every handle held before.
      rcases hold hj with hj | ⟨rfl, rfl⟩
      · rcases hold hj' with hj' | ⟨rfl, rfl⟩
        · exact h.disjoint j j' i (containsId_iff.mpr ⟨e, hj⟩) (containsId_iff.mpr ⟨e', hj'⟩)
        · have := h.bounded j i e hj
          omega
      · rcases hold hj' with hj' | ⟨-, rfl⟩
        · have := h.bounded j' i e' hj'
          omega
        · rfl
  · rw [hnone] at hsome
    cases hsome

def registrations (ops : List (Operation κ ε)) : ℕ := ops.countP Operation.isRegistration

omit [DecidableEq κ] in
theorem issued_length_le (s : State κ ε) (op : Operation κ ε) :
    (issued s op).toList.length ≤ registrations [op] := by
  cases op with
  | registerEntity k entity =>
    cases hissued : issued s (.registerEntity k entity) with
    | none => exact Nat.zero_le _
    | some id => exact le_refl 1
  | _ => exact Nat.zero_le _

theorem issued_step {s : State κ ε} {n : ℕ} (h : Issued s n) (op : Operation κ ε)
    (hn : n + registrations [op] < 2 ^ 64) :
    Issued (step s op) (n + (issued s op).toList.length) ∧
      (issued s op).toList.map UInt64.toNat =
        List.range' (n + 1) (issued s op).toList.length := by
  have hle := issued_length_le s op
  cases hissued : issued s op with
  | none => exact ⟨issued_step_none h hissued, rfl⟩
  | some id =>
    rw [hissued] at hle
    have hroom : n + 1 < 2 ^ 64 := lt_of_le_of_lt (Nat.add_le_add_left hle n) hn
    obtain ⟨hid, hstep⟩ := issued_step_some h hissued hroom
    exact ⟨hstep, by simp [hid]⟩

/-- The state that the operations lead to from fresh managers. -/
def reached (ops : List (Operation κ ε)) : State κ ε := run {} ops

/-- Two managers and an entity that comes and goes. -/
def sampleRun : List (Operation Bool ℕ) :=
  [.registerEntity true 7, .unregisterId true 1, .registerEntity false 7, .registerEntity true 7]

end EntityManagers
