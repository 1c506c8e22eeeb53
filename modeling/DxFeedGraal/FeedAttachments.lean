import DxFeedGraal.FeedSubscriptions

/-! # How batches come to subscriptions

A subscription has one native listener at most, and its identifier leads back to the
subscription. Batches are counted from their arrival at the native subscription to their
publication. -/
namespace FeedAttachments

open PartialRuns ThreadPhases Broadcasts EntityManagers SimpleHandlers
open CppNumbers NativeEvents EventClasses EventMapper FeedSubscriptions

variable {K : Type}

/-- The subscription whose `eventListenerMutex_` is held. -/
def attachOf : Phase K → Option K
  | .creating subscription _ _ | .attaching subscription _ _ => some subscription
  | .entering _ _ _ | .changing _ _ | .resolving _ _ | .publishing _ _ | .calling _ _ _ _ _
  | .returned _ => none

abbrev attachesTo (u : State K) : ℕ → Option K := part attachOf u.threads

/-- What is known while the mutex is held. -/
def Fits (u : State K) : Phase K → Prop
  | .creating subscription _ _ => u.eventListenerHandle subscription = none
  | .attaching subscription id _ =>
    u.eventListenerHandle subscription = some id ∧ u.attached subscription = []
  | .entering _ _ _ | .changing _ _ | .resolving _ _ | .publishing _ _ | .calling _ _ _ _ _
  | .returned _ => True

section Invariants

/-- Native listeners are made once, under the identifier that the manager resolves, and attached
once at most; `steps` bounds the registrations. -/
structure Attached (u : State K) (steps : ℕ) : Prop where
  mutex : Matches u.eventListenerMutex (attachesTo u)
  issued : ∃ n ≤ steps, Issued u.entities n
  handle : ∀ subscription id, u.eventListenerHandle subscription = some id →
    (u.entities.managers ()).entitiesById id = some subscription
  single : ∀ subscription, u.attached subscription = [] ∨
    ∃ id, u.eventListenerHandle subscription = some id ∧ u.attached subscription = [id]
  fits : ∀ (thread : ℕ) phase, u.threads[thread]? = some phase → Fits u phase

variable {u v : State K} {steps : ℕ}

theorem attached_init : Attached ({} : State K) 0 :=
  ⟨fun _ _ => iff_of_false nofun nofun, ⟨0, le_rfl, issued_init⟩, nofun, fun _ => .inl rfl,
    nofun⟩

theorem Attached.inverse (h : Attached u steps) : (u.entities.managers ()).MutuallyInverse :=
  h.issued.choose_spec.2.inverse ()

theorem Attached.later (h : Attached u steps) {more : ℕ} (hle : steps ≤ more) :
    Attached u more :=
  ⟨h.mutex, h.issued.imp fun _ hn => ⟨hn.1.trans hle, hn.2⟩, h.handle, h.single, h.fits⟩

/-- The thread that holds the mutex is the only one that does. -/
theorem Attached.alone (h : Attached u steps) {thread other : ℕ} {subscription : K}
    {was phase : Phase K} (hthread : u.threads[thread]? = some was)
    (hwas : attachOf was = some subscription) (hother : u.threads[other]? = some phase)
    (hne : other ≠ thread) : attachOf phase ≠ some subscription := by
  intro hphase
  have hmine := (h.mutex subscription thread).mpr ((part_of_at attachOf hthread).trans hwas)
  have htheirs := (h.mutex subscription other).mpr ((part_of_at attachOf hother).trans hphase)
  exact hne (Option.some.inj (htheirs.symm.trans hmine))

/-- Nothing that concerns the native listeners changes, apart from threads that do not hold
their mutex. -/
theorem Attached.keeps (h : Attached u steps) (hentities : v.entities = u.entities)
    (hhandle : v.eventListenerHandle = u.eventListenerHandle)
    (hmutex : v.eventListenerMutex = u.eventListenerMutex) (hattached : v.attached = u.attached)
    (hattaches : attachesTo v = attachesTo u)
    (hthreads : ∀ (thread : ℕ) phase, v.threads[thread]? = some phase →
      attachOf phase = none ∨ u.threads[thread]? = some phase) : Attached v steps := by
  refine ⟨?_, ?_, ?_, ?_, fun thread phase hphase => ?_⟩
  · rw [hmutex, hattaches]
    exact h.mutex
  · rw [hentities]
    exact h.issued
  · rw [hentities, hhandle]
    exact h.handle
  · rw [hattached, hhandle]
    exact h.single
  · have hfits : ∀ p : Phase K, Fits u p → Fits v p := by
      intro p hp
      cases p with
      | creating subscription change required => exact (congrFun hhandle subscription).trans hp
      | attaching subscription id change =>
        exact ⟨(congrFun hhandle subscription).trans hp.1,
          (congrFun hattached subscription).trans hp.2⟩
      | entering _ _ _ | changing _ _ | resolving _ _ | publishing _ _ | calling _ _ _ _ _
      | returned _ => trivial
    rcases hthreads thread phase hphase with hnone | hold
    · cases phase with
      | creating _ _ _ => cases hnone
      | attaching _ _ _ => cases hnone
      | entering _ _ _ | changing _ _ | resolving _ _ | publishing _ _ | calling _ _ _ _ _
      | returned _ => trivial
    · exact hfits phase (h.fits thread phase hold)

theorem threads_moveTo {thread : ℕ} {was now : Phase K} (hthread : u.threads[thread]? = some was)
    {other : ℕ} {phase : Phase K}
    (hphase : (u.threads.modify thread fun _ => now)[other]? = some phase) :
    other = thread ∧ phase = now ∨ other ≠ thread ∧ u.threads[other]? = some phase := by
  rw [List.getElem?_modify] at hphase
  by_cases hother : thread = other
  · subst hother
    rw [hthread] at hphase
    exact .inl ⟨rfl, by simpa using hphase.symm⟩
  · exact .inr ⟨Ne.symm hother, by simpa [hother] using hphase⟩

/-- A thread goes on without the mutex. -/
theorem Attached.keeps_moveTo (h : Attached u steps) {thread : ℕ} {was now : Phase K}
    (hthread : u.threads[thread]? = some was) (hwas : attachOf was = none)
    (hnow : attachOf now = none) (hv : v.threads = u.threads.modify thread fun _ => now)
    (hentities : v.entities = u.entities)
    (hhandle : v.eventListenerHandle = u.eventListenerHandle)
    (hmutex : v.eventListenerMutex = u.eventListenerMutex) (hattached : v.attached = u.attached) :
    Attached v steps := by
  refine h.keeps hentities hhandle hmutex hattached ?_ fun other phase hphase => ?_
  · rw [attachesTo, hv]
    exact part_modify_none attachOf hthread hwas hnow
  · rw [hv] at hphase
    rcases threads_moveTo hthread hphase with ⟨-, rfl⟩ | ⟨-, hold⟩
    · exact .inl hnow
    · exact .inr hold

theorem Attached.keeps_append (h : Attached u steps) {added : List (Phase K)}
    (hadded : ∀ p ∈ added, attachOf p = none) :
    Attached { u with threads := u.threads ++ added } steps := by
  refine h.keeps rfl rfl rfl rfl (part_append attachOf hadded) fun thread phase hphase => ?_
  change (u.threads ++ added)[thread]? = some phase at hphase
  rw [List.getElem?_append] at hphase
  split at hphase
  next => exact .inr hphase
  next => exact .inl (hadded phase (List.mem_of_getElem? hphase))

/-- A thread takes the mutex, holds it in another phase or frees it, and says what it knows. -/
theorem Attached.holds (h : Attached u steps) {thread : ℕ} {was now : Phase K} {subscription : K}
    (hthread : u.threads[thread]? = some was)
    (hheld : ∀ other phase, other ≠ thread → u.threads[other]? = some phase →
      attachOf phase ≠ some subscription)
    (hv : v.threads = u.threads.modify thread fun _ => now)
    (hmutex : Matches v.eventListenerMutex
      (Function.update (attachesTo u) thread (attachOf now)))
    (hentities : v.entities = u.entities)
    (hhandles : ∀ s, s ≠ subscription → v.eventListenerHandle s = u.eventListenerHandle s)
    (hattacheds : ∀ s, s ≠ subscription → v.attached s = u.attached s)
    (hhandle : ∀ id, v.eventListenerHandle subscription = some id →
      (u.entities.managers ()).entitiesById id = some subscription)
    (hsingle : v.attached subscription = [] ∨
      ∃ id, v.eventListenerHandle subscription = some id ∧ v.attached subscription = [id])
    (hnow : Fits v now) : Attached v steps := by
  refine ⟨?_, ?_, fun s id hid => ?_, fun s => ?_, fun other phase hphase => ?_⟩
  · rw [attachesTo, hv, part_modify attachOf hthread]
    exact hmutex
  · rw [hentities]
    exact h.issued
  · rw [hentities]
    by_cases hs : s = subscription
    · subst hs
      exact hhandle id hid
    · rw [hhandles s hs] at hid
      exact h.handle s id hid
  · by_cases hs : s = subscription
    · subst hs
      exact hsingle
    · rw [hhandles s hs, hattacheds s hs]
      exact h.single s
  · rw [hv] at hphase
    rcases threads_moveTo hthread hphase with ⟨-, rfl⟩ | ⟨hother, hold⟩
    · exact hnow
    · have hfits := h.fits other phase hold
      have hne := hheld other phase hother hold
      cases phase with
      | creating s change required =>
        exact (hhandles s fun hs => hne (congrArg some hs)).trans hfits
      | attaching s id change =>
        have hs : s ≠ subscription := fun hs => hne (congrArg some hs)
        exact ⟨(hhandles s hs).trans hfits.1, (hattacheds s hs).trans hfits.2⟩
      | entering _ _ _ | changing _ _ | resolving _ _ | publishing _ _ | calling _ _ _ _ _
      | returned _ => trivial

/-- What was registered stays registered. -/
theorem entity_registered [DecidableEq K] (h : Attached u steps) (hsteps : steps + 1 < 2 ^ 64)
    (subscription : K) {id : Id} {s : K} (hid : (u.entities.managers ()).entitiesById id = some s) :
    ((EntityManagers.step u.entities (.registerEntity () subscription)).managers ()).entitiesById
      id = some s := by
  obtain ⟨n, hn, hissued⟩ := h.issued
  cases hfind : (u.entities.managers ()).idsByEntities subscription with
  | some i =>
    simp only [EntityManagers.step, EntityManager.registerEntity, hfind, Function.update_self]
    exact hid
  | none =>
    have hnew : id ≠ u.entities.value := by
      rintro rfl
      rw [next_not_held hissued (by omega) ()] at hid
      cases hid
    simp only [EntityManagers.step, EntityManager.registerEntity, hfind, getNext,
      Function.update_self, Function.update_of_ne hnew]
    exact hid

variable [DecidableEq K] {number : EventClazz → ℤ} {lib : StandardLibrary}

/-- A registration changes nothing but the manager, where the pairs stay. -/
theorem Attached.registered (h : Attached u steps) (hsteps : steps + 1 < 2 ^ 64)
    (subscription : K) :
    Attached { u with entities := EntityManagers.step u.entities (.registerEntity () subscription) }
      (steps + 1) := by
  obtain ⟨n, hn, hissued⟩ := h.issued
  refine ⟨h.mutex, ?_, fun s id hid => entity_registered h hsteps subscription (h.handle s id hid),
    h.single, fun thread phase hphase => ?_⟩
  · have hone : (EntityManagers.issued u.entities
        (.registerEntity () subscription)).toList.length ≤ 1 :=
      Option.length_toList_le
    have hroom : n + registrations [Operation.registerEntity () subscription] < 2 ^ 64 := by
      change n + 1 < 2 ^ 64
      omega
    exact ⟨_, by omega, (issued_step hissued _ hroom).1⟩
  · have hfits := h.fits thread phase hphase
    cases phase with
    | creating _ _ _ => exact hfits
    | attaching _ _ _ => exact hfits
    | entering _ _ _ | changing _ _ | resolving _ _ | publishing _ _ | calling _ _ _ _ _
    | returned _ => trivial

theorem Attached.moved {action : Action K} (h : Attached u steps) (hsteps : steps + 1 < 2 ^ 64)
    (hm : Moved number lib u action v) : Attached v (steps + 1) := by
  have hlater := h.later (Nat.le_succ steps)
  cases hm with
  | registered subscription => exact h.registered hsteps subscription
  | started action subscription phase starts asked arrives =>
    refine hlater.keeps_append fun p hp => ?_
    rw [List.mem_singleton.mp hp]
    rcases starts with ⟨change, required, rfl⟩ | ⟨change, rfl⟩ <;> rfl
  | arrived subscription list =>
    refine hlater.keeps_append fun p hp => ?_
    obtain ⟨id, -, rfl⟩ := List.mem_map.mp hp
    rfl
  | found thread subscription change required at_thread known =>
    exact hlater.keeps_moveTo at_thread rfl rfl rfl rfl rfl rfl rfl
  | locked thread subscription change required at_thread free unknown =>
    have hidle := part_of_at attachOf at_thread
    refine hlater.holds at_thread
      (fun other phase _ hother (hphase : attachOf phase = some subscription) => ?_)
      rfl (h.mutex.takes free hidle) rfl (fun _ _ => rfl) (fun _ _ => rfl)
      (h.handle subscription) (h.single subscription) unknown
    have howner := (h.mutex subscription other).mpr ((part_of_at attachOf hother).trans hphase)
    cases free.symm.trans howner
  | left action thread subscription phase next at_thread holds leaves internal =>
    have hphase : attachOf phase = some subscription := by
      rcases holds with ⟨change, required, rfl⟩ | ⟨id, change, rfl⟩ <;> rfl
    have hnext : attachOf next = none := by
      rcases leaves with ⟨answer, rfl⟩ | ⟨change, required, -, rfl⟩ <;> rfl
    refine hlater.holds at_thread (fun other p hne hother => h.alone at_thread hphase hother hne)
      rfl ?_ rfl (fun _ _ => rfl) (fun _ _ => rfl) (h.handle subscription)
      (h.single subscription) ?_
    · rw [hnext]
      exact h.mutex.frees ((part_of_at attachOf at_thread).trans hphase)
    · rcases leaves with ⟨answer, rfl⟩ | ⟨change, required, -, rfl⟩ <;> trivial
  | created thread subscription change required id at_thread registered =>
    have hfits := h.fits thread _ at_thread
    have hnone : u.attached subscription = [] := by
      rcases h.single subscription with hnil | ⟨i, hi, -⟩
      · exact hnil
      · cases hfits.symm.trans hi
    have hsame : Function.update (attachesTo u) thread (some subscription) = attachesTo u :=
      Function.update_eq_self_iff.mpr (part_of_at attachOf at_thread).symm
    refine hlater.holds at_thread (fun other p hne hother => h.alone at_thread rfl hother hne)
      rfl ?_ rfl (fun s hs => Function.update_of_ne hs ..) (fun _ _ => rfl) (fun i hi => ?_)
      (.inl hnone) ⟨Function.update_self .., hnone⟩
    · change Matches u.eventListenerMutex
        (Function.update (attachesTo u) thread (some subscription))
      rw [hsame]
      exact h.mutex
    · have hi : Function.update u.eventListenerHandle subscription (some id) subscription =
        some i := hi
      rw [Function.update_self] at hi
      cases hi
      exact (h.inverse id subscription).mpr registered
  | attached thread subscription id change at_thread =>
    obtain ⟨hhandle, hnone⟩ := h.fits thread _ at_thread
    refine hlater.holds at_thread (fun other p hne hother => h.alone at_thread rfl hother hne)
      rfl (h.mutex.frees (part_of_at attachOf at_thread)) rfl (fun _ _ => rfl)
      (fun s hs => Function.update_of_ne hs ..) (h.handle subscription)
      (.inr ⟨id, hhandle, ?_⟩) trivial
    change Function.update u.attached subscription (u.attached subscription ++ [id])
      subscription = _
    rw [Function.update_self, hnone]
    rfl
  | changed thread subscription change at_thread free =>
    cases change <;> exact hlater.keeps_moveTo at_thread rfl rfl rfl rfl rfl rfl rfl
  | lost thread id list at_thread unknown =>
    exact hlater.keeps_moveTo at_thread rfl rfl rfl rfl rfl rfl rfl
  | resolved thread id list subscription events at_thread known read =>
    exact hlater.keeps_moveTo at_thread rfl rfl rfl rfl rfl rfl rfl
  | published thread subscription events at_thread free =>
    exact hlater.keeps_moveTo at_thread rfl rfl rfl rfl rfl rfl rfl
  | called thread place subscription publication events listeners low listeners' low' e at_thread
      picked =>
    exact hlater.keeps_moveTo at_thread rfl rfl rfl rfl rfl rfl rfl
  | finished thread subscription publication events at_thread =>
    exact hlater.keeps_moveTo at_thread rfl rfl rfl rfl rfl rfl rfl
  | cut thread subscription publication events listeners low at_thread =>
    exact hlater.keeps_moveTo at_thread rfl rfl rfl rfl rfl rfl rfl

theorem attached_run {actions : List (Action K)} (h : Attached u steps)
    (hlength : steps + actions.length < 2 ^ 64)
    (hrun : run (step number lib) u actions = some v) : Attached v (steps + actions.length) := by
  induction actions generalizing u steps with
  | nil =>
    cases hrun
    exact h
  | cons action actions ih =>
    obtain ⟨w, hw, hrest⟩ := Option.bind_eq_some_iff.mp hrun
    rw [List.length_cons] at hlength ⊢
    have hnext := ih (h.moved (by omega) (moved_of_step hw)) (by omega) hrest
    rwa [Nat.add_right_comm] at hnext

end Invariants

/-! ## The account of batches -/

section Accounts

variable [DecidableEq K] (number : EventClazz → ℤ) (lib : StandardLibrary) (subscription : K)
  (id : Id)

/-- A batch that was handed to the native listener and is not published yet; one that cannot be
read stays where it is. -/
def way : Phase K → Multiset (Option (List Event))
  | .resolving i list => if i = id then {readEvents number lib list} else 0
  | .publishing s events => if s = subscription then {some events} else 0
  | .entering _ _ _ | .creating _ _ _ | .attaching _ _ _ | .changing _ _ | .calling _ _ _ _ _
  | .returned _ => 0

def onWay (u : State K) : Multiset (Option (List Event)) :=
  (u.threads.map (way number lib subscription id)).sum

def publishedBatch : Happening K UInt64 Listener (List Event) → Option (Option (List Event))
  | .published s events => if s = subscription then some (some events) else none
  | .joined _ _ _ | .left _ _ => none

def published (u : State K) : Multiset (Option (List Event)) :=
  u.history.filterMap (publishedBatch subscription)

/-- The batches that come to the native subscription. -/
def arrivals : List (Action K) → Multiset (Option (List Event))
  | [] => 0
  | .arrive s list :: actions =>
    (if s = subscription then {readEvents number lib list} else 0) + arrivals actions
  | .registerEntity _ :: actions | .addEventListener _ _ :: actions | .onEvent _ _ :: actions
  | .removeEventListener _ _ :: actions | .advance _ :: actions | .call _ _ :: actions
  | .throws _ :: actions => arrivals actions

/-- The native listener was made, and whether it could be attached is settled. -/
structure Settled (u : State K) : Prop where
  handle : u.eventListenerHandle subscription = some id
  free : u.eventListenerMutex subscription = none

variable {number lib subscription id} {u v : State K} {steps : ℕ}

theorem onWay_append (added : List (Phase K)) :
    onWay number lib subscription id { u with threads := u.threads ++ added } =
      onWay number lib subscription id u + (added.map (way number lib subscription id)).sum := by
  rw [onWay, List.map_append, List.sum_append]
  rfl

theorem onWay_modify {thread : ℕ} {was now : Phase K} (hthread : u.threads[thread]? = some was)
    (hv : v.threads = u.threads.modify thread fun _ => now) :
    onWay number lib subscription id v + way number lib subscription id was =
      onWay number lib subscription id u + way number lib subscription id now := by
  rw [onWay, hv]
  exact sum_modify _ hthread _

/-- A thread goes on with the batch that it has, if any. -/
theorem onWay_same {thread : ℕ} {was now : Phase K} (hthread : u.threads[thread]? = some was)
    (hv : v.threads = u.threads.modify thread fun _ => now)
    (hway : way number lib subscription id now = way number lib subscription id was) :
    onWay number lib subscription id v = onWay number lib subscription id u := by
  have hsum : onWay number lib subscription id v + way number lib subscription id was =
    onWay number lib subscription id u + way number lib subscription id now :=
    onWay_modify hthread hv
  rw [hway] at hsum
  exact add_right_cancel hsum

theorem arrivals_of_other {action : Action K} (harrives : ∀ s list, action ≠ .arrive s list) :
    arrivals number lib subscription [action] = 0 := by
  cases action with
  | arrive s list => exact absurd rfl (harrives s list)
  | registerEntity _ | addEventListener _ _ | onEvent _ _ | removeEventListener _ _ | advance _
  | call _ _ | throws _ => rfl

variable (number lib subscription id u v) in
/-- What a step adds to the published batches and to those on their way. -/
def Balanced (action : Action K) : Prop :=
  published subscription v + onWay number lib subscription id v =
    published subscription u + onWay number lib subscription id u +
      if u.attached subscription = [] then 0 else arrivals number lib subscription [action]

theorem balanced_same {action : Action K} (harrives : ∀ s list, action ≠ .arrive s list)
    (hhistory : v.history = u.history)
    (hway : onWay number lib subscription id v = onWay number lib subscription id u) :
    Balanced number lib subscription id u v action := by
  rw [Balanced, published, hhistory, hway, arrivals_of_other harrives, ite_self, add_zero,
    published]

theorem balanced_moveTo {action : Action K} (harrives : ∀ s list, action ≠ .arrive s list)
    {thread : ℕ} {was now : Phase K} (hthread : u.threads[thread]? = some was)
    (hv : v.threads = u.threads.modify thread fun _ => now) (hhistory : v.history = u.history)
    (hway : way number lib subscription id now = way number lib subscription id was) :
    Balanced number lib subscription id u v action :=
  balanced_same harrives hhistory (onWay_same hthread hv hway)

theorem published_snoc (happening : Happening K UInt64 Listener (List Event))
    (hv : v.history = u.history ++ [happening]) :
    published subscription v =
      published subscription u + (publishedBatch subscription happening).toList := by
  rw [published, hv, List.filterMap_append, ← Multiset.coe_add]
  refine congrArg (published subscription u + ·) ?_
  cases h : publishedBatch subscription happening <;> simp [h]

/-- A change of a handler publishes nothing. -/
theorem published_change (s : K) (change : Change) :
    published subscription (u.change s change) = published subscription u := by
  cases change with
  | add listener lowPriority =>
    have hadded : ∀ i : UInt64, ((if i = FAKE_ID then u.history
        else u.history ++ [.joined s i listener]).filterMap (publishedBatch subscription) :
        Multiset (Option (List Event))) = published subscription u := by
      intro i
      split
      next => rfl
      next =>
        exact congrArg Multiset.ofList ((List.filterMap_append ..).trans (List.append_nil _))
    exact hadded _
  | remove i => exact (published_snoc (.left s i) rfl).trans (add_zero _)

/-- A batch is handed to the native listener, if there is one. -/
theorem balanced_arrive (h : Attached u steps) (hs : Settled subscription id u) (s : K)
    (list : GraalEventList) :
    Balanced number lib subscription id u
      { u with threads := u.threads ++ (u.attached s).map fun i => .resolving i list }
      (.arrive s list) := by
  rw [Balanced, onWay_append, ← add_assoc]
  refine congrArg (published subscription u + onWay number lib subscription id u + ·) ?_
  rw [List.map_map]
  by_cases hsub : s = subscription
  · subst hsub
    rcases h.single s with hnil | ⟨i, hi, hone⟩
    · simp [hnil]
    · cases hs.handle.symm.trans hi
      simp [hone, way, arrivals]
  · -- Another subscription has another native listener.
    have hother : ∀ i ∈ u.attached s, i ≠ id := by
      rintro i hi rfl
      rcases h.single s with hnil | ⟨j, hj, hone⟩
      · rw [hnil] at hi
        cases hi
      · rw [hone] at hi
        cases List.mem_singleton.mp hi
        have htheirs := h.handle s i hj
        rw [h.handle subscription i hs.handle] at htheirs
        exact hsub (Option.some.inj htheirs).symm
    have hzero : ((u.attached s).map (way number lib subscription id ∘ fun i =>
        .resolving i list)).sum = 0 := by
      refine List.sum_eq_zero fun x hx => ?_
      obtain ⟨i, hi, rfl⟩ := List.mem_map.mp hx
      exact if_neg (hother i hi)
    rw [hzero]
    simp [arrivals, hsub]

theorem balanced_moved {action : Action K} (h : Attached u steps)
    (hs : Settled subscription id u) (hm : Moved number lib u action v) :
    Balanced number lib subscription id u v action := by
  cases hm with
  | registered s => exact balanced_same (by simp) rfl rfl
  | started action s phase starts asked arrives =>
    refine balanced_same arrives rfl ((onWay_append [phase]).trans ?_)
    rcases starts with ⟨change, required, rfl⟩ | ⟨change, rfl⟩ <;> exact add_zero _
  | arrived s list => exact balanced_arrive h hs s list
  | found thread s change required at_thread known =>
    exact balanced_moveTo (by simp) at_thread rfl rfl rfl
  | locked thread s change required at_thread free unknown =>
    exact balanced_moveTo (by simp) at_thread rfl rfl rfl
  | left action thread s phase next at_thread holds leaves internal =>
    refine balanced_moveTo (fun t list harrive => ?_) at_thread rfl rfl ?_
    · rw [harrive] at internal
      exact internal.elim
    have hphase : way number lib subscription id phase = 0 := by
      rcases holds with ⟨change, required, rfl⟩ | ⟨i, change, rfl⟩ <;> rfl
    rw [hphase]
    rcases leaves with ⟨answer, rfl⟩ | ⟨change, required, -, rfl⟩ <;> rfl
  | created thread s change required i at_thread registered =>
    exact balanced_moveTo (by simp) at_thread rfl rfl rfl
  | attached thread s i change at_thread =>
    exact balanced_moveTo (by simp) at_thread rfl rfl rfl
  | changed thread s change at_thread free =>
    have hthreads : (u.change s change).threads = u.threads := by cases change <;> rfl
    have hway : onWay number lib subscription id ((u.change s change).moveTo thread
        (.returned (u.answer s change))) = onWay number lib subscription id u := by
      have hmoved : ((u.change s change).moveTo thread (.returned (u.answer s change))).threads =
          u.threads.modify thread fun _ => .returned (u.answer s change) := by
        rw [State.moveTo, hthreads]
      exact onWay_same at_thread hmoved rfl
    rw [Balanced, hway, arrivals_of_other (by simp), ite_self, add_zero]
    exact congrArg (· + onWay number lib subscription id u) (published_change s change)
  | lost thread i list at_thread unknown =>
    refine balanced_moveTo (by simp) at_thread rfl rfl (if_neg ?_).symm
    rintro rfl
    cases unknown.symm.trans (h.handle subscription i hs.handle)
  | resolved thread i list s events at_thread known read =>
    refine balanced_moveTo (by simp) at_thread rfl rfl ?_
    have hsame : s = subscription ↔ i = id := by
      constructor
      · rintro rfl
        have hback := (h.inverse i s).mp known
        rw [(h.inverse id s).mp (h.handle s id hs.handle)] at hback
        exact (Option.some.inj hback).symm
      · rintro rfl
        exact Option.some.inj (known.symm.trans (h.handle subscription i hs.handle))
    simp only [way, hsame, read]
  | published thread s events at_thread free =>
    have hsum : onWay number lib subscription id (u.publish thread s events) +
        way number lib subscription id (.publishing s events) =
        onWay number lib subscription id u := (onWay_modify at_thread rfl).trans (add_zero _)
    have hpublished : published subscription (u.publish thread s events) =
        published subscription u + (publishedBatch subscription (.published s events)).toList :=
      published_snoc (.published s events) rfl
    have hsame : ((publishedBatch subscription (.published s events)).toList : Multiset _) =
        way number lib subscription id (.publishing s events) := by
      simp only [publishedBatch, way]
      split <;> rfl
    rw [Balanced, hpublished, hsame, arrivals_of_other (by simp), ite_self, add_zero, add_assoc,
      add_comm (way number lib subscription id (.publishing s events)), hsum]
  | called thread place s publication events listeners low listeners' low' e at_thread picked =>
    exact balanced_moveTo (by simp) at_thread rfl rfl rfl
  | finished thread s publication events at_thread =>
    exact balanced_moveTo (by simp) at_thread rfl rfl rfl
  | cut thread s publication events listeners low at_thread =>
    exact balanced_moveTo (by simp) at_thread rfl rfl rfl

theorem Settled.leave (hs : Settled subscription id u) (s : K) :
    Settled subscription id (u.leave s) := by
  refine ⟨hs.handle, ?_⟩
  change Function.update u.eventListenerMutex s none subscription = none
  by_cases hsub : subscription = s
  · rw [hsub, Function.update_self]
  · rw [Function.update_of_ne hsub, hs.free]

omit [DecidableEq K] in
/-- Nobody holds the mutex of a settled subscription. -/
theorem Settled.other (hs : Settled subscription id u) (h : Attached u steps) {thread : ℕ}
    {was : Phase K} (hthread : u.threads[thread]? = some was) {s : K}
    (hwas : attachOf was = some s) : subscription ≠ s := by
  rintro rfl
  have howner := (h.mutex subscription thread).mpr ((part_of_at attachOf hthread).trans hwas)
  cases hs.free.symm.trans howner

theorem settled_moved {action : Action K} (h : Attached u steps)
    (hs : Settled subscription id u) (hm : Moved number lib u action v) :
    Settled subscription id v ∧ v.attached subscription = u.attached subscription := by
  cases hm with
  | locked thread s change required at_thread free unknown =>
    have hother : subscription ≠ s := by
      rintro rfl
      cases hs.handle.symm.trans unknown
    exact ⟨⟨hs.handle, (Function.update_of_ne hother ..).trans hs.free⟩, rfl⟩
  | left action thread s phase next at_thread holds leaves internal =>
    have hmoved : Settled subscription id (u.moveTo thread next) := ⟨hs.handle, hs.free⟩
    exact ⟨hmoved.leave s, rfl⟩
  | created thread s change required i at_thread registered =>
    have hother := hs.other h at_thread rfl
    exact ⟨⟨(Function.update_of_ne hother ..).trans hs.handle, hs.free⟩, rfl⟩
  | attached thread s i change at_thread =>
    have hmoved : Settled subscription id (u.moveTo thread (.changing s change)) :=
      ⟨hs.handle, hs.free⟩
    have hleft := hmoved.leave s
    exact ⟨⟨hleft.handle, hleft.free⟩, Function.update_of_ne (hs.other h at_thread rfl) ..⟩
  | changed thread s change at_thread free =>
    cases change <;> exact ⟨⟨hs.handle, hs.free⟩, rfl⟩
  | registered _ | started _ _ _ _ _ _ | arrived _ _ | found _ _ _ _ _ _ | lost _ _ _ _ _
  | resolved _ _ _ _ _ _ _ _ | published _ _ _ _ _ | called _ _ _ _ _ _ _ _ _ _ _ _
  | finished _ _ _ _ _ | cut _ _ _ _ _ _ _ => exact ⟨⟨hs.handle, hs.free⟩, rfl⟩

theorem arrivals_cons (action : Action K) (actions : List (Action K)) :
    arrivals number lib subscription (action :: actions) =
      arrivals number lib subscription [action] + arrivals number lib subscription actions := by
  cases action with
  | arrive s list => simp only [arrivals, add_zero]
  | registerEntity _ | addEventListener _ _ | onEvent _ _ | removeEventListener _ _ | advance _
  | call _ _ | throws _ => exact (zero_add _).symm

theorem account_run {actions : List (Action K)} (h : Attached u steps)
    (hs : Settled subscription id u) (hlength : steps + actions.length < 2 ^ 64)
    (hrun : run (step number lib) u actions = some v) :
    v.attached subscription = u.attached subscription ∧
      published subscription v + onWay number lib subscription id v =
        published subscription u + onWay number lib subscription id u +
          if u.attached subscription = [] then 0 else arrivals number lib subscription actions := by
  induction actions generalizing u steps with
  | nil =>
    cases hrun
    refine ⟨rfl, ?_⟩
    rw [arrivals, ite_self, add_zero]
  | cons action actions ih =>
    obtain ⟨w, hw, hrest⟩ := Option.bind_eq_some_iff.mp hrun
    have hm := moved_of_step hw
    rw [List.length_cons] at hlength
    obtain ⟨hsw, hattached⟩ := settled_moved h hs hm
    obtain ⟨hlast, haccount⟩ := ih (h.moved (by omega) hm) hsw (by omega) hrest
    have hstep := balanced_moved h hs hm
    refine ⟨hlast.trans hattached, ?_⟩
    rw [haccount, hstep, hattached, arrivals_cons action actions]
    split
    next => rw [add_zero]
    next => rw [add_assoc]

/-- Once the native listener of a subscription was made and nobody is busy attaching it, what is
attached stays for ever: one native listener or none. With one, every batch that comes to the
subscription is published there once or still on its way; with none, because attaching it failed,
nothing that comes is ever published. -/
theorem batches_are_published_once {actions more : List (Action K)}
    (hlength : (actions ++ more).length < 2 ^ 64)
    (hrun : run (step number lib) {} actions = some u)
    (hmore : run (step number lib) u more = some v)
    (hhandle : u.eventListenerHandle subscription = some id)
    (hfree : u.eventListenerMutex subscription = none) :
    v.attached subscription = u.attached subscription ∧
      (v.attached subscription = [] ∨ v.attached subscription = [id]) ∧
      published subscription v + onWay number lib subscription id v =
        published subscription u + onWay number lib subscription id u +
          if v.attached subscription = [] then 0 else arrivals number lib subscription more := by
  rw [List.length_append] at hlength
  have hattached := attached_run attached_init (by omega) hrun
  obtain ⟨hsame, haccount⟩ := account_run hattached ⟨hhandle, hfree⟩ (by omega) hmore
  rw [hsame]
  refine ⟨rfl, ?_, haccount⟩
  rcases hattached.single subscription with hnil | ⟨i, hi, hone⟩
  · exact .inl hnil
  · cases hhandle.symm.trans hi
    exact .inr hone

end Accounts

/-! Two batches without events come to a subscription with a native listener. -/

def withListener : List (Action ℕ) :=
  [.registerEntity 7, .addEventListener 7 ⟨none, 1⟩, .advance 0, .advance 0, .advance 0]

def twoBatches : List (Action ℕ) :=
  [.arrive 7 ⟨0, []⟩, .arrive 7 ⟨0, []⟩, .advance 1, .advance 1, .advance 2]

theorem two_batches_counted :
    ∃ u v, run (step (fun _ => 0) CandleNormalisation.binary64) {} withListener = some u ∧
      run (step (fun _ => 0) CandleNormalisation.binary64) u twoBatches = some v ∧
      published 7 v + onWay (fun _ => 0) CandleNormalisation.binary64 7 1 v =
        published 7 u + onWay (fun _ => 0) CandleNormalisation.binary64 7 1 u +
          if v.attached 7 = [] then 0
          else arrivals (fun _ => 0) CandleNormalisation.binary64 7 twoBatches := by
  obtain ⟨u, hu⟩ : ∃ u, run (step (fun _ => 0) CandleNormalisation.binary64) {} withListener =
    some u := ⟨_, rfl⟩
  have hhandle : (run (step (fun _ => 0) CandleNormalisation.binary64) {} withListener).map
      (fun u => (u.eventListenerHandle 7, u.eventListenerMutex 7)) = some (some 1, none) := rfl
  have hv : ∃ v, (run (step (fun _ => 0) CandleNormalisation.binary64) {} withListener).bind
      (fun u => run (step (fun _ => 0) CandleNormalisation.binary64) u twoBatches) = some v :=
    ⟨_, rfl⟩
  rw [hu] at hhandle hv
  obtain ⟨v, hv⟩ := hv
  obtain ⟨hmade, hfree⟩ := Prod.mk.inj (Option.some.inj hhandle)
  exact ⟨u, v, hu, hv, (batches_are_published_once (by decide) hu hv hmade hfree).2.2⟩

end FeedAttachments
