import DxFeedGraal.SortedOrderSets
import DxFeedGraal.SourceDecoding

/-! # The iterator that clears a source

The loop of `clearBySource` round by round, with the iterator that `erase` replaces and the
header then increments, and the registry that every look at a source may extend. -/
namespace ClearingLoops

open OrderSources OrderIndices Orders SourceIdentities SortedOrderSets

/-- A set and an iterator, which stands at an order or behind the last one. -/
structure Cursor (α : Type*) where
  orders : List α
  position : ℕ
  inside : position ≤ orders.length

namespace Cursor

variable {α : Type*} (c : Cursor α)

def begin (orders : List α) : Cursor α := ⟨orders, 0, Nat.zero_le _⟩

/-- The end iterator has nothing to dereference. -/
def deref : Option α := c.orders[c.position]?

/-- `orders_.erase(it)` returns the iterator to the order behind. -/
def erase : Cursor α where
  orders := c.orders.eraseIdx c.position
  position := c.position
  inside := by
    have hinside := c.inside
    rw [List.length_eraseIdx]
    split <;> omega

/-- The end iterator must not be incremented. -/
def next : Option (Cursor α) :=
  if h : c.position < c.orders.length then some ⟨c.orders, c.position + 1, h⟩ else none

/-- What the iterator has passed and what is still before it. -/
structure SplitAt (before after : List α) : Prop where
  orders_eq : c.orders = before ++ after
  position_eq : c.position = before.length

end Cursor

/-- A loop watched for a number of rounds, each of which ends it or goes on. -/
def watch {σ ε : Type*} (round : σ → Except ε σ) : ℕ → σ → Option ε
  | 0, _ => none
  | rounds + 1, s =>
    match round s with
    | .error ending => some ending
    | .ok t => watch round rounds t

/-- The source is read by a function that must not throw. -/
inductive Ending (α : Type*) where
  | finished (orders : List α)
  | endIncremented
  | processEnded

structure State (O : OrderKind) where
  users : UserSources
  cursor : Cursor (FeedOrder O)

variable {O : OrderKind}

/-- The body of the loop and the increment behind it. -/
def body (source : Int32) (s : State O) (o : FeedOrder O) :
    Except (Ending (FeedOrder O)) (State O) :=
  match getSource s.users o.data with
  | none => .error .processEnded
  | some (found, users) =>
    match (if found.id = source then s.cursor.erase else s.cursor).next with
    | none => .error .endIncremented
    | some cursor => .ok ⟨users, cursor⟩

def round (source : Int32) (s : State O) : Except (Ending (FeedOrder O)) (State O) :=
  match s.cursor.deref with
  | none => .error (.finished s.cursor.orders)
  | some o => body source s o

def loop (source : Int32) (rounds : ℕ) (s : State O) : Option (Ending (FeedOrder O)) :=
  watch (round source) rounds s

/-- No order of the source stands directly behind another one or at the end, and an order
without any source only directly behind one of the source. -/
structure StandApart {α : Type*} (p : α → Option Bool) (l : List α) : Prop where
  first : ∀ o ∈ l.head?, p o ≠ none
  chain : l.IsChain fun o next =>
    (p o = some true → p next ≠ some true) ∧ (p next = none → p o = some true)
  last : ∀ o ∈ l.getLast?, p o ≠ some true

instance {α : Type*} (p : α → Option Bool) (l : List α) : Decidable (StandApart p l) :=
  decidable_of_iff (_ ∧ _ ∧ _) ⟨fun h => ⟨h.1, h.2.1, h.2.2⟩, fun h => ⟨h.1, h.2, h.3⟩⟩

/-! ## The iterator and the list -/

section Cursors

variable {α : Type*} {c : Cursor α} {before rest : List α} {o : α}

theorem splitAt_begin (orders : List α) : (Cursor.begin orders).SplitAt [] orders := ⟨rfl, rfl⟩

theorem deref_nil (h : c.SplitAt before []) : c.deref = none := by
  rw [Cursor.deref, h.orders_eq, h.position_eq, List.append_nil]
  exact List.getElem?_eq_none (le_refl _)

theorem deref_cons (h : c.SplitAt before (o :: rest)) : c.deref = some o := by
  rw [Cursor.deref, h.orders_eq, h.position_eq, List.getElem?_append_right (le_refl _),
    Nat.sub_self]
  rfl

theorem erase_splitAt (h : c.SplitAt before (o :: rest)) : c.erase.SplitAt before rest := by
  refine ⟨?_, h.position_eq⟩
  change c.orders.eraseIdx c.position = before ++ rest
  rw [h.orders_eq, h.position_eq, List.eraseIdx_append_of_length_le (le_refl _), Nat.sub_self]
  rfl

theorem next_nil (h : c.SplitAt before []) : c.next = none := by
  have hend : ¬ c.position < c.orders.length := by
    rw [h.orders_eq, h.position_eq, List.append_nil]
    exact lt_irrefl _
  rw [Cursor.next, dif_neg hend]

theorem next_cons (h : c.SplitAt before (o :: rest)) :
    ∃ d, c.next = some d ∧ d.SplitAt (before ++ [o]) rest := by
  have hinside : c.position < c.orders.length := by
    rw [h.orders_eq, h.position_eq, List.length_append, List.length_cons]
    omega
  refine ⟨⟨c.orders, c.position + 1, hinside⟩, by rw [Cursor.next, dif_pos hinside], ?_, ?_⟩
  · rw [h.orders_eq, List.append_assoc]
    rfl
  · rw [List.length_append, ← h.position_eq]
    rfl

end Cursors

/-! ## One round -/

section Rounds

variable {source : Int32} {s : State O} {before rest : List (FeedOrder O)} {o : FeedOrder O}

theorem getSource_of_from (hu : Registered s.users) (o : FeedOrder O) :
    (getSource s.users o.data).map (fun found => found.1.id == source) =
      fromSource [] source o := by
  have hnumber := SourceDecoding.getSource_number (SourceDecoding.wellRegistered hu) o.data
  have := congrArg (Option.map fun id : Int32 => id == source) hnumber
  rwa [Option.map_map, Option.map_map] at this

theorem round_nil (h : s.cursor.SplitAt before []) :
    round source s = .error (.finished before) := by
  unfold round
  rw [deref_nil h, h.orders_eq, List.append_nil]

theorem round_cons (h : s.cursor.SplitAt before (o :: rest)) :
    round source s = body source s o := by
  unfold round
  rw [deref_cons h]

theorem round_without (hu : Registered s.users) (h : s.cursor.SplitAt before (o :: rest))
    (ho : fromSource [] source o = none) : round source s = .error .processEnded := by
  rw [← getSource_of_from hu, Option.map_eq_none_iff] at ho
  rw [round_cons h]
  unfold body
  rw [ho]

/-- A look at a source may register it; the rest is between the iterator and the answer. -/
theorem body_defined (hu : Registered s.users) {found : Bool}
    (ho : fromSource [] source o = some found) :
    ∃ users, Registered users ∧ body source s o =
      match (if found then s.cursor.erase else s.cursor).next with
      | none => .error .endIncremented
      | some cursor => .ok ⟨users, cursor⟩ := by
  rw [← getSource_of_from hu] at ho
  obtain ⟨⟨seen, users⟩, hseen, hfound⟩ := Option.map_eq_some_iff.mp ho
  have hvalue : valueOfId s.users (SourceDecoding.lookedUp o.data.index) = .ok (seen, users) := by
    rw [SourceDecoding.getSource_eq] at hseen
    cases hv : valueOfId s.users (SourceDecoding.lookedUp o.data.index) with
    | error message => rw [hv] at hseen; cases hseen
    | ok out => rw [hv] at hseen; cases hseen; rfl
  refine ⟨users, .byId hu hvalue, ?_⟩
  unfold body
  rw [hseen]
  cases found with
  | true => simp only [if_pos (beq_iff_eq.mp hfound), if_true]
  | false => simp only [if_neg (beq_eq_false_iff_ne.mp hfound), Bool.false_eq_true, if_false]

theorem round_other (hu : Registered s.users) (h : s.cursor.SplitAt before (o :: rest))
    (ho : fromSource [] source o = some false) :
    ∃ t, round source s = .ok t ∧ Registered t.users ∧
      t.cursor.SplitAt (before ++ [o]) rest := by
  obtain ⟨users, husers, hbody⟩ := body_defined hu ho
  obtain ⟨d, hd, hsplit⟩ := next_cons h
  simp only [Bool.false_eq_true, if_false, hd] at hbody
  exact ⟨⟨users, d⟩, (round_cons h).trans hbody, husers, hsplit⟩

/-- The order behind an erased one is passed over. -/
theorem round_match {next : FeedOrder O} (hu : Registered s.users)
    (h : s.cursor.SplitAt before (o :: next :: rest))
    (ho : fromSource [] source o = some true) :
    ∃ t, round source s = .ok t ∧ Registered t.users ∧
      t.cursor.SplitAt (before ++ [next]) rest := by
  obtain ⟨users, husers, hbody⟩ := body_defined hu ho
  obtain ⟨d, hd, hsplit⟩ := next_cons (erase_splitAt h)
  simp only [if_true, hd] at hbody
  exact ⟨⟨users, d⟩, (round_cons h).trans hbody, husers, hsplit⟩

theorem round_match_last (hu : Registered s.users) (h : s.cursor.SplitAt before [o])
    (ho : fromSource [] source o = some true) : round source s = .error .endIncremented := by
  obtain ⟨users, -, hbody⟩ := body_defined hu ho
  simp only [if_true, next_nil (erase_splitAt h)] at hbody
  exact (round_cons h).trans hbody

end Rounds

/-! ## All rounds -/

theorem clearLoop_other {α : Type*} {p : α → Option Bool} {o : α} (ho : p o = some false)
    (rest : List α) : clearLoop p (o :: rest) = (clearLoop p rest).map (o :: ·) := by
  cases rest with
  | nil => simp [clearLoop, ho]
  | cons next rest => simp [clearLoop, ho]

section Runs

variable {source : Int32} {rounds : ℕ} {s : State O} {before after : List (FeedOrder O)}

theorem loop_error {ending : Ending (FeedOrder O)} (h : round source s = .error ending) :
    loop source (rounds + 1) s = some ending := by
  rw [loop, watch, h]

theorem loop_ok {t : State O} (h : round source s = .ok t) :
    loop source (rounds + 1) s = loop source rounds t := by
  rw [loop, watch, h, loop]

/-- The loop follows the recursion along the list, whatever the number of rounds. -/
theorem clearLoop_of_finished {l : List (FeedOrder O)} (hu : Registered s.users)
    (h : s.cursor.SplitAt before after) (hloop : loop source rounds s = some (.finished l)) :
    ∃ kept, clearLoop (fromSource [] source) after = some kept ∧ l = before ++ kept := by
  induction rounds generalizing s before after with
  | zero => cases hloop
  | succ rounds ih =>
    cases after with
    | nil =>
      rw [loop_error (round_nil h)] at hloop
      cases hloop
      exact ⟨[], rfl, (List.append_nil _).symm⟩
    | cons o rest =>
      cases ho : fromSource [] source o with
      | none =>
        rw [loop_error (round_without hu h ho)] at hloop
        cases hloop
      | some found =>
        cases found with
        | false =>
          obtain ⟨t, ht, hut, hsplit⟩ := round_other hu h ho
          rw [loop_ok ht] at hloop
          obtain ⟨kept, hkept, rfl⟩ := ih hut hsplit hloop
          exact ⟨o :: kept, by rw [clearLoop_other ho, hkept]; rfl, by simp⟩
        | true =>
          cases rest with
          | nil =>
            rw [loop_error (round_match_last hu h ho)] at hloop
            cases hloop
          | cons next rest =>
            obtain ⟨t, ht, hut, hsplit⟩ := round_match hu h ho
            rw [loop_ok ht] at hloop
            obtain ⟨kept, hkept, rfl⟩ := ih hut hsplit hloop
            exact ⟨next :: kept, by simp [clearLoop, ho, hkept], by simp⟩

/-- Each round that goes on takes at least one order behind the iterator, so the loop ends, and
where the recursion has a result it finishes. -/
theorem loop_ends (hu : Registered s.users) (h : s.cursor.SplitAt before after)
    (hrounds : after.length < rounds) :
    ∃ ending, loop source rounds s = some ending ∧
      ∀ kept, clearLoop (fromSource [] source) after = some kept →
        ending = .finished (before ++ kept) := by
  induction rounds generalizing s before after with
  | zero => exact absurd hrounds (Nat.not_lt_zero _)
  | succ rounds ih =>
    cases after with
    | nil =>
      refine ⟨_, loop_error (round_nil h), fun kept hkept => ?_⟩
      cases hkept
      rw [List.append_nil]
    | cons o rest =>
      rw [List.length_cons] at hrounds
      cases ho : fromSource [] source o with
      | none =>
        refine ⟨_, loop_error (round_without hu h ho), fun kept hkept => ?_⟩
        cases rest <;> simp [clearLoop, ho] at hkept
      | some found =>
        cases found with
        | false =>
          obtain ⟨t, ht, hut, hsplit⟩ := round_other hu h ho
          obtain ⟨ending, hending, hfinished⟩ := ih hut hsplit (by omega)
          refine ⟨ending, (loop_ok ht).trans hending, fun kept hkept => ?_⟩
          rw [clearLoop_other ho] at hkept
          obtain ⟨kept', hkept', rfl⟩ := Option.map_eq_some_iff.mp hkept
          rw [hfinished kept' hkept', List.append_assoc]
          rfl
        | true =>
          cases rest with
          | nil =>
            refine ⟨_, loop_error (round_match_last hu h ho), fun kept hkept => ?_⟩
            simp [clearLoop, ho] at hkept
          | cons next rest =>
            rw [List.length_cons] at hrounds
            obtain ⟨t, ht, hut, hsplit⟩ := round_match hu h ho
            obtain ⟨ending, hending, hfinished⟩ := ih hut hsplit (by omega)
            refine ⟨ending, (loop_ok ht).trans hending, fun kept hkept => ?_⟩
            simp only [clearLoop, ho, Option.bind_some, if_true] at hkept
            obtain ⟨kept', hkept', rfl⟩ := Option.map_eq_some_iff.mp hkept
            rw [hfinished kept' hkept', List.append_assoc]
            rfl

end Runs

/-! ## Where the loop removes exactly the source -/

section Apart

variable {α : Type*} {p : α → Option Bool} {o next : α} {rest : List α}

theorem standApart_nil : StandApart p [] :=
  ⟨by simp, List.isChain_nil, by simp⟩

theorem standApart_without (ho : p o = none) (rest : List α) : ¬ StandApart p (o :: rest) :=
  fun h => h.first o rfl ho

theorem standApart_other (ho : p o = some false) (rest : List α) :
    StandApart p (o :: rest) ↔ StandApart p rest := by
  cases rest with
  | nil =>
    refine iff_of_true ⟨?_, List.isChain_singleton o, ?_⟩ standApart_nil
    · simp [ho]
    · simp [ho]
  | cons next rest =>
    constructor
    · intro h
      obtain ⟨hlink, hchain⟩ := List.isChain_cons_cons.mp h.chain
      have hnext : p next ≠ none := fun hnone => by simp [ho] at hlink; exact hlink hnone
      refine ⟨fun n hn => ?_, hchain, fun last hlast => h.last last ?_⟩
      · cases hn
        exact hnext
      · rw [List.getLast?_cons_cons]
        exact hlast
    · intro h
      refine ⟨?_, List.isChain_cons_cons.mpr ⟨⟨?_, ?_⟩, h.chain⟩, ?_⟩
      · simp [ho]
      · simp [ho]
      · exact fun hnone => absurd hnone (h.first next rfl)
      · rw [List.getLast?_cons_cons]
        exact h.last

theorem standApart_match (ho : p o = some true) :
    StandApart p (o :: next :: rest) ↔ p next ≠ some true ∧ StandApart p rest := by
  constructor
  · intro h
    obtain ⟨hlink, hchain⟩ := List.isChain_cons_cons.mp h.chain
    have hnext := hlink.1 ho
    refine ⟨hnext, ?_⟩
    cases rest with
    | nil => exact standApart_nil
    | cons behind rest =>
      obtain ⟨hbehind, hchain⟩ := List.isChain_cons_cons.mp hchain
      refine ⟨fun n hn => ?_, hchain, fun last hlast => h.last last ?_⟩
      · cases hn
        exact fun hnone => hnext (hbehind.2 hnone)
      · rw [List.getLast?_cons_cons, List.getLast?_cons_cons]
        exact hlast
  · rintro ⟨hnext, h⟩
    refine ⟨by simp [ho], List.isChain_cons_cons.mpr ⟨⟨fun _ => hnext, fun _ => ho⟩, ?_⟩, ?_⟩
    · cases rest with
      | nil => exact List.isChain_singleton next
      | cons behind rest =>
        refine List.isChain_cons_cons.mpr ⟨⟨fun hmatch => absurd hmatch hnext, ?_⟩, h.chain⟩
        exact fun hnone => absurd hnone (h.first behind rfl)
    · rw [List.getLast?_cons_cons]
      cases rest with
      | nil => simpa using hnext
      | cons behind rest =>
        rw [List.getLast?_cons_cons]
        exact h.last

theorem clearLoop_filter_iff (p : α → Option Bool) (l : List α) :
    clearLoop p l = some (l.filter fun o => p o != some true) ↔ StandApart p l := by
  fun_induction clearLoop p l with
  | case1 => exact iff_of_true rfl standApart_nil
  | case2 o =>
    cases ho : p o with
    | none => simp [standApart_without ho]
    | some found =>
      cases found with
      | false => simp [ho, standApart_other ho, standApart_nil]
      | true =>
        refine iff_of_false (by simp) fun h => h.last o rfl ho
  | case3 o next rest ih₁ ih₂ =>
    cases ho : p o with
    | none => simp [standApart_without ho]
    | some found =>
      cases found with
      | false =>
        have hfilter : (o :: next :: rest).filter (fun o => p o != some true) =
            o :: (next :: rest).filter fun o => p o != some true := by simp [ho]
        rw [hfilter, standApart_other ho, ← ih₂]
        simp
      | true =>
        rw [standApart_match ho]
        by_cases hnext : p next = some true
        · have hdropped : next ∉ (o :: next :: rest).filter fun o => p o != some true := by
            simp [hnext]
          refine iff_of_false (fun h => ?_) fun h => h.1 hnext
          obtain ⟨rest', -, hrest⟩ := Option.map_eq_some_iff.mp h
          exact hdropped (hrest ▸ List.mem_cons_self)
        · have hfilter : (o :: next :: rest).filter (fun o => p o != some true) =
              next :: rest.filter fun o => p o != some true := by simp [ho, hnext]
          rw [hfilter, and_iff_right hnext, ← ih₁]
          simp

end Apart

/-- The loop comes to its end and has removed exactly the orders of the source if and only if
they stand apart. -/
theorem clears_exactly_iff (calls : List Call) (orders : List (FeedOrder O)) (source : Int32) :
    (∃ rounds, loop source rounds ⟨calls.foldl serve [], .begin orders⟩ =
      some (.finished (orders.filter fun o => !IsFrom source o))) ↔
      StandApart (fromSource [] source) orders := by
  have hu : Registered (calls.foldl serve []) := (registered_iff _).mpr ⟨calls, rfl⟩
  have hsplit := splitAt_begin orders
  have hfilter := clearLoop_filter_iff (fromSource [] source) orders
  change _ = some (orders.filter fun o => !IsFrom source o) ↔ _ at hfilter
  constructor
  · rintro ⟨rounds, hloop⟩
    obtain ⟨kept, hkept, heq⟩ := clearLoop_of_finished hu hsplit hloop
    rw [List.nil_append] at heq
    rw [← hfilter, hkept, heq]
  · intro h
    obtain ⟨ending, hending, hfinished⟩ := @loop_ends O source (orders.length + 1)
      ⟨calls.foldl serve [], .begin orders⟩ [] orders hu hsplit (Nat.lt_succ_self _)
    refine ⟨orders.length + 1, ?_⟩
    rw [hending, hfinished _ (hfilter.mpr h)]
    rfl

def neighbours : List (FeedOrder .order) :=
  [OrderLaws.sampleOrder 1 1 (.finite 100), OrderLaws.sampleOrder 2 2 (.finite 99)]

/-- Of two orders of a source the second stays, and one alone carries the iterator too far. -/
theorem neighbour_kept_and_end_passed :
    neighbours.filter (fun o => !IsFrom 0 o) = [] ∧
      (¬ ∃ rounds, loop 0 rounds ⟨[], .begin neighbours⟩ = some (.finished [])) ∧
      loop 0 1 ⟨[], .begin (neighbours.take 1)⟩ = some .endIncremented := by
  refine ⟨by decide, ?_, ?_⟩
  · rintro ⟨rounds, hloop⟩
    obtain ⟨kept, hkept, heq⟩ := clearLoop_of_finished .empty (splitAt_begin neighbours) hloop
    have hsecond : clearLoop (fromSource [] 0) neighbours = some (neighbours.drop 1) := by decide
    rw [hsecond] at hkept
    cases hkept
    cases heq
  · exact loop_error (round_match_last .empty (splitAt_begin _) (by decide))

end ClearingLoops
