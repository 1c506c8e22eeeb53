import Mathlib.Data.List.Basic
import Mathlib.Data.List.Induction
import Mathlib.Data.List.TakeWhile
import Mathlib.Logic.Function.Basic

/-! # Broadcasts

Messages are published under topics and numbered in one order. Who joined a topic is owed every
message of it until they leave, in the order of the numbers. -/
namespace Broadcasts

variable {κ ι α μ β : Type*}

inductive Happening (κ ι α μ : Type*) where
  | joined (topic : κ) (id : ι) (listener : α)
  | left (topic : κ) (id : ι)
  | published (topic : κ) (message : μ)

/-- Who listens, what everyone is owed, and the number of the next message. -/
structure Board (κ ι α β : Type*) where
  audience : κ → ι → Option α := fun _ _ => none
  owed : ι → List (ℕ × β) := fun _ => []
  next : ℕ := 0

namespace Happening

def isPublished : Happening κ ι α μ → Bool
  | published _ _ => true
  | joined _ _ _ | left _ _ => false

def Joins (id : ι) : Happening κ ι α μ → Prop
  | joined _ i _ => i = id
  | left _ _ | published _ _ => False

variable [DecidableEq κ] [DecidableEq ι]

def leaves (topic : κ) (id : ι) : Happening κ ι α μ → Bool
  | left t i => t = topic ∧ i = id
  | joined _ _ _ | published _ _ => false

end Happening

/-- The messages with their topics, numbered from `n` on. -/
def publications (n : ℕ) : List (Happening κ ι α μ) → List (ℕ × κ × μ)
  | [] => []
  | .published topic message :: rest => (n, topic, message) :: publications (n + 1) rest
  | .joined _ _ _ :: rest | .left _ _ :: rest => publications n rest

section Boards

variable [DecidableEq κ] [DecidableEq ι] (receive : α → μ → β)

def seat (audience : κ → ι → Option α) (topic : κ) (id : ι) (listener : Option α) :
    κ → ι → Option α :=
  Function.update audience topic (Function.update (audience topic) id listener)

def record (b : Board κ ι α β) : Happening κ ι α μ → Board κ ι α β
  | .joined topic id listener => { b with audience := seat b.audience topic id (some listener) }
  | .left topic id => { b with audience := seat b.audience topic id none }
  | .published topic message =>
    { b with
      owed := fun id => b.owed id ++
        ((b.audience topic id).map fun listener => (b.next, receive listener message)).toList
      next := b.next + 1 }

def board (history : List (Happening κ ι α μ)) : Board κ ι α β :=
  history.foldl (record receive) {}

theorem board_snoc (history : List (Happening κ ι α μ)) (happening : Happening κ ι α μ) :
    board receive (history ++ [happening]) = record receive (board receive history) happening :=
  List.foldl_concat ..

end Boards

section Seats

variable [DecidableEq κ] [DecidableEq ι]

theorem seat_apply (audience : κ → ι → Option α) (topic t : κ) (id i : ι) (listener : Option α) :
    seat audience topic id listener t i =
      if t = topic ∧ i = id then listener else audience t i := by
  by_cases ht : t = topic
  · subst ht
    by_cases hi : i = id
    · simp [seat, hi]
    · simp [seat, hi]
  · simp [seat, ht]

variable (receive : α → μ → β) (b : Board κ ι α β)

theorem audience_joined (topic t : κ) (id i : ι) (listener : α) :
    (record receive b (.joined topic id listener)).audience t i =
      if t = topic ∧ i = id then some listener else b.audience t i :=
  seat_apply ..

theorem audience_left (topic t : κ) (id i : ι) :
    (record receive b (.left topic id)).audience t i =
      if t = topic ∧ i = id then none else b.audience t i :=
  seat_apply ..

end Seats

/-! ## The order of the numbers -/

section Numbers

variable [DecidableEq κ] [DecidableEq ι] {receive : α → μ → β}

/-- Every message that is owed has a number of the past, and they are in order. -/
structure Numbered (b : Board κ ι α β) : Prop where
  below : ∀ id, ∀ p ∈ b.owed id, p.1 < b.next
  ordered : ∀ id, (b.owed id).Pairwise fun p q => p.1 < q.1

theorem numbered_record {b : Board κ ι α β} (h : Numbered b) (happening : Happening κ ι α μ) :
    Numbered (record receive b happening) := by
  cases happening with
  | joined topic id listener => exact ⟨h.below, h.ordered⟩
  | left topic id => exact ⟨h.below, h.ordered⟩
  | published topic message =>
    constructor
    · intro id p hp
      rcases List.mem_append.mp hp with hold | hnew
      · exact Nat.lt_succ_of_lt (h.below id p hold)
      · obtain ⟨listener, -, rfl⟩ := Option.map_eq_some_iff.mp (Option.mem_toList.mp hnew)
        exact Nat.lt_succ_self _
    · intro id
      refine List.pairwise_append.mpr ⟨h.ordered id, ?_, fun p hp q hq => ?_⟩
      · cases b.audience topic id <;> simp
      · obtain ⟨listener, -, rfl⟩ := Option.map_eq_some_iff.mp (Option.mem_toList.mp hq)
        exact h.below id p hp

theorem numbered_board (history : List (Happening κ ι α μ)) :
    Numbered (board receive history) := by
  induction history using List.reverseRecOn with
  | nil => exact ⟨fun _ _ hp => (List.not_mem_nil hp).elim, fun _ => List.Pairwise.nil⟩
  | append_singleton history happening ih =>
    rw [board_snoc]
    exact numbered_record ih happening

variable (receive) in
theorem next_foldl (history : List (Happening κ ι α μ)) (b : Board κ ι α β) :
    (history.foldl (record receive) b).next = b.next + history.countP Happening.isPublished := by
  induction history generalizing b with
  | nil => rfl
  | cons happening history ih =>
    rw [List.foldl_cons, ih, List.countP_cons]
    cases happening with
    | joined topic id listener => rfl
    | left topic id => rfl
    | published topic message => exact Nat.add_right_comm b.next 1 _

variable (receive) in
theorem next_board (history : List (Happening κ ι α μ)) :
    (board receive history).next = history.countP Happening.isPublished :=
  (next_foldl receive history {}).trans (Nat.zero_add _)

end Numbers

/-! ## What a listener is owed -/

section Owed

variable [DecidableEq κ] [DecidableEq ι] {receive : α → μ → β} {id : ι}

/-- As long as nothing changes where `id` sits, it is owed what is published there. -/
theorem owed_of_seated (receive : α → μ → β) (place : κ → Option α)
    (history : List (Happening κ ι α μ)) {b : Board κ ι α β}
    (hplace : ∀ topic, b.audience topic id = place topic)
    (hjoins : ∀ h ∈ history, ¬ h.Joins id)
    (hleaves : ∀ h ∈ history, ∀ topic, place topic ≠ none → h.leaves topic id = false) :
    ((history.foldl (record receive) b).owed id = b.owed id ++
        ((publications b.next history).filterMap fun p =>
          (place p.2.1).map fun listener => (p.1, receive listener p.2.2))) ∧
      ∀ topic, (history.foldl (record receive) b).audience topic id = place topic := by
  induction history generalizing b with
  | nil => exact ⟨(List.append_nil _).symm, hplace⟩
  | cons happening history ih =>
    have hlater := fun (b' : Board κ ι α β) (h : ∀ topic, b'.audience topic id = place topic) =>
      ih h (fun h hh => hjoins h (List.mem_cons_of_mem _ hh))
        fun h hh => hleaves h (List.mem_cons_of_mem _ hh)
    have hjoin := hjoins happening List.mem_cons_self
    have hleave := hleaves happening List.mem_cons_self
    rw [List.foldl_cons]
    cases happening with
    | joined topic i listener =>
      refine hlater _ fun t => ?_
      rw [audience_joined, if_neg fun h => hjoin h.2.symm, hplace]
    | left topic i =>
      refine hlater _ fun t => ?_
      by_cases hhere : t = topic ∧ id = i
      · obtain ⟨rfl, rfl⟩ := hhere
        have hnone : place t = none := by
          by_contra hsome
          simpa [Happening.leaves] using hleave t hsome
        rw [audience_left, if_pos ⟨rfl, rfl⟩, hnone]
      · rw [audience_left, if_neg hhere, hplace]
    | published topic message =>
      obtain ⟨howed, hseats⟩ := hlater (record receive b (.published topic message)) hplace
      refine ⟨?_, hseats⟩
      rw [howed]
      cases hp : place topic <;>
        simp [record, publications, hplace, hp]

/-- What happens until `id` leaves the topic. -/
def span (topic : κ) (id : ι) (history : List (Happening κ ι α μ)) : List (Happening κ ι α μ) :=
  history.takeWhile fun h => !h.leaves topic id

/-- The messages of the topic, numbered from `n` on, as the listener receives them. -/
def received (receive : α → μ → β) (n : ℕ) (topic : κ) (listener : α)
    (history : List (Happening κ ι α μ)) : List (ℕ × β) :=
  (publications n history).filterMap fun p =>
    if p.2.1 = topic then some (p.1, receive listener p.2.2) else none

omit [DecidableEq ι] in
theorem received_eq (n : ℕ) (topic : κ) (listener : α) (history : List (Happening κ ι α μ)) :
    received receive n topic listener history = (publications n history).filterMap fun p =>
      (if p.2.1 = topic then some listener else none).map fun l => (p.1, receive l p.2.2) := by
  refine List.filterMap_congr fun p _ => ?_
  split <;> rfl

theorem eq_left_of_leaves {h : Happening κ ι α μ} {topic : κ}
    (hleaves : h.leaves topic id = true) : h = .left topic id := by
  cases h with
  | joined t i listener => cases hleaves
  | published t message => cases hleaves
  | left t i =>
    obtain ⟨rfl, rfl⟩ := of_decide_eq_true hleaves
    rfl

/-- From a seat under one topic, `id` is owed what is published there until it leaves. -/
theorem owed_until_left (topic : κ) (listener : α) {after : List (Happening κ ι α μ)}
    {b : Board κ ι α β}
    (hseat : ∀ t, b.audience t id = if t = topic then some listener else none)
    (hafter : ∀ h ∈ after, ¬ h.Joins id) :
    (after.foldl (record receive) b).owed id =
      b.owed id ++ received receive b.next topic listener (span topic id after) := by
  have hsplit : span topic id after ++ after.dropWhile (fun h => !h.leaves topic id) = after :=
    List.takeWhile_append_dropWhile
  have hin : ∀ h ∈ span topic id after, h ∈ after := fun h hh =>
    hsplit ▸ List.mem_append_left _ hh
  have hstays : ∀ h ∈ span topic id after, ∀ t, (if t = topic then some listener else none) ≠ none →
      h.leaves t id = false := by
    intro h hh t ht
    have htopic : t = topic := by
      by_contra hne
      exact ht (if_neg hne)
    subst htopic
    simpa using List.mem_takeWhile_imp hh
  obtain ⟨howed, hseats⟩ := owed_of_seated receive _ (span topic id after) hseat
    (fun h hh => hafter h (hin h hh)) hstays
  rw [received_eq, ← howed]
  cases hrest : after.dropWhile (fun h => !h.leaves topic id) with
  | nil =>
    rw [hrest, List.append_nil] at hsplit
    rw [hsplit]
  | cons leave rest =>
    have hleave : leave.leaves topic id = true := by
      have hhead := List.head?_dropWhile_not (fun h => !h.leaves topic id) after
      rw [hrest] at hhead
      simpa using hhead
    rw [hrest] at hsplit
    conv_lhs => rw [← hsplit, List.foldl_append, List.foldl_cons, eq_left_of_leaves hleave]
    -- Nobody sits under `id` any more.
    refine (owed_of_seated receive (fun _ => none) rest (fun t => ?_) (fun h hh => hafter h ?_)
      fun _ _ _ hne => absurd rfl hne).1.trans ?_
    · rw [audience_left, hseats t]
      by_cases ht : t = topic <;> simp [ht]
    · rw [← hsplit]
      exact List.mem_append_right _ (List.mem_cons_of_mem _ hh)
    · simp [record]

/-- Someone who joins once is owed what is published under the topic until they leave it, and
nothing else. -/
theorem owed_of_joined {before after : List (Happening κ ι α μ)} {topic : κ} {listener : α}
    (hbefore : ∀ h ∈ before, ¬ h.Joins id) (hafter : ∀ h ∈ after, ¬ h.Joins id) :
    (board receive (before ++ .joined topic id listener :: after)).owed id =
      received receive (before.countP Happening.isPublished) topic listener
        (span topic id after) := by
  obtain ⟨hfirst, hseats⟩ := owed_of_seated (b := {}) receive (fun _ => none) before
    (fun _ => rfl) hbefore fun _ _ _ hne => absurd rfl hne
  have hnext := next_board receive before
  rw [board] at hnext
  rw [board, List.foldl_append, List.foldl_cons]
  refine (owed_until_left topic listener (fun t => ?_) hafter).trans ?_
  · rw [audience_joined, hseats t]
    by_cases ht : t = topic <;> simp [ht]
  · simp [record, hfirst, hnext]

end Owed

end Broadcasts
