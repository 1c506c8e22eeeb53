import DxFeedGraal.MultipleMarketDepthModels

/-! # The store of order books over whole runs

What the calls did under the mutex of the store is a run of a sequential object that knows, for
every symbol, whether it is followed and which lists were shown last. -/
namespace MultipleMarketDepthRuns

open PartialRuns ThreadPhases MultipleMarketDepthModels

variable {S B : Type*} [DecidableEq S]

/-! ## The sequential object -/

/-- The symbols that are followed, each with its book once there is one. -/
structure Followed (S B : Type*) where
  view : S → Option (Option (ℕ × B)) := fun _ => none
  /-- The books that were made so far. -/
  books : ℕ := 0

def Followed.set (w : Followed S B) (symbol : S) (shown : Option (Option (ℕ × B))) :
    Followed S B :=
  { w with view := Function.update w.view symbol shown }

/-- An operation with another answer cannot happen. -/
def perform [DecidableEq B] (w : Followed S B) : Operation S B → Option (Followed S B)
  | .addSymbol symbol =>
    match w.view symbol with
    | none => some (w.set symbol (some none))
    | some _ => some w
  | .removeSymbol symbol => some (w.set symbol none)
  | .onBook symbol lists answer =>
    match w.view symbol with
    | none => if answer = none then some w else none
    | some none =>
      if answer = some w.books then
        some { w.set symbol (some (some (w.books, lists))) with books := w.books + 1 }
      else none
    | some (some (book, _)) =>
      if answer = some book then some (w.set symbol (some (some (book, lists)))) else none
  | .tryGetBook symbol answer => if answer = (w.view symbol).join then some w else none

/-- What the store amounts to. -/
def followed (u : Store S B) : Followed S B where
  view symbol := (u.models symbol).map fun _ => u.found symbol
  books := u.objects.length

section Views

omit [DecidableEq S]

/-- The view of a symbol depends on nothing but its own model, book and object. -/
theorem view_of_same {u v : Store S B} {symbol : S} (hmodels : v.models symbol = u.models symbol)
    (hbooks : v.books symbol = u.books symbol)
    (hobject : ∀ book, u.books symbol = some book → v.objects[book]? = u.objects[book]?) :
    (followed v).view symbol = (followed u).view symbol := by
  have hfound : v.found symbol = u.found symbol := by
    rw [Store.found, Store.found, hbooks]
    exact Option.bind_congr fun book hbook => by rw [hobject book hbook]
  change (v.models symbol).map _ = (u.models symbol).map _
  rw [hmodels, hfound]

theorem followed_of_same {u v : Store S B} (hmodels : v.models = u.models)
    (hbooks : v.books = u.books) (hobjects : v.objects = u.objects) : followed v = followed u :=
  Followed.mk.injEq .. ▸ ⟨funext fun symbol => view_of_same (congrFun hmodels symbol)
    (congrFun hbooks symbol) fun book _ => congrArg (·[book]?) hobjects,
      congrArg List.length hobjects⟩

end Views

/-- A step that concerns one symbol. -/
theorem followed_set {u v : Store S B} (symbol : S) {shown : Option (Option (ℕ × B))}
    (hsymbol : (followed v).view symbol = shown)
    (hothers : ∀ other, other ≠ symbol → (followed v).view other = (followed u).view other) :
    followed v = { (followed u).set symbol shown with books := v.objects.length } := by
  have hview : (followed v).view = Function.update (followed u).view symbol shown := by
    funext other
    by_cases hother : other = symbol
    · subst hother
      rw [Function.update_self, hsymbol]
    · rw [Function.update_of_ne hother]
      exact hothers other hother
  rw [Followed.set, ← hview]
  rfl

variable [DecidableEq B]

/-! ## Steps of the store -/

theorem perform_first {w : Followed S B} {symbol : S} (hview : w.view symbol = some none)
    (lists : B) : perform w (.onBook symbol lists (some w.books)) =
      some { w.set symbol (some (some (w.books, lists))) with books := w.books + 1 } := by
  simp [perform, hview]

theorem perform_again {w : Followed S B} {symbol : S} {book : ℕ} {old : B}
    (hview : w.view symbol = some (some (book, old))) (lists : B) :
    perform w (.onBook symbol lists (some book)) =
      some (w.set symbol (some (some (book, lists)))) := by
  simp [perform, hview]

/-- The operation that a step adds is one that the sequential object allows. -/
def Performs (u v : Store S B) : Prop :=
  ∃ op, v.done = u.done ++ [op] ∧ perform (followed u) op = some (followed v)

theorem performs_onBook {u : Store S B} (h : Filed u) (symbol : S) (lists : B) :
    Performs u (u.onBook symbol lists) := by
  cases hmodel : u.models symbol with
  | none =>
    refine ⟨.onBook symbol lists none, by simp [Store.onBook, hmodel], ?_⟩
    have hsame : followed (u.onBook symbol lists) = followed u := by
      apply followed_of_same <;> simp [Store.onBook, hmodel]
    rw [hsame]
    simp [perform, followed, hmodel]
  | some model =>
    cases hbook : u.books symbol with
    | none =>
      refine ⟨.onBook symbol lists (some u.objects.length), by simp [Store.onBook, hmodel, hbook],
        ?_⟩
      have hbefore : (followed u).view symbol = some none := by
        simp [followed, hmodel, Store.found, hbook]
      have hafter : (followed (u.onBook symbol lists)).view symbol =
          some (some (u.objects.length, lists)) := by
        simp [followed, hmodel, Store.found, Store.onBook, hbook]
      have hset := followed_set (u := u) symbol hafter fun other hother =>
        view_of_same (by simp) (by simp [Store.onBook, hmodel, hbook, hother])
          fun book hat => by
            have hlt := (h.books other book hat).2
            simp [Store.onBook, hmodel, hbook, List.getElem?_append_left hlt]
      refine (perform_first hbefore lists).trans (congrArg some ?_)
      rw [hset]
      simp [followed, Store.onBook, hmodel, hbook]
    | some book =>
      refine ⟨.onBook symbol lists (some book), by simp [Store.onBook, hmodel, hbook], ?_⟩
      have hlt := (h.books symbol book hbook).2
      have hbefore : (followed u).view symbol = some (some (book, u.objects[book])) := by
        simp [followed, hmodel, Store.found, hbook, hlt]
      have hafter : (followed (u.onBook symbol lists)).view symbol =
          some (some (book, lists)) := by
        simp [followed, hmodel, Store.found, Store.onBook, hbook, hlt]
      have hset := followed_set (u := u) symbol hafter fun other hother =>
        view_of_same (by simp) (by simp [Store.onBook, hmodel, hbook]) fun b hat => by
          have hne : book ≠ b := by
            rintro rfl
            exact hother (h.apart other symbol book hat hbook)
          simp [Store.onBook, hmodel, hbook, List.getElem?_set_ne hne]
      refine (perform_again hbefore lists).trans (congrArg some ?_)
      rw [hset]
      simp [followed, Store.onBook, hmodel, hbook, Followed.set]

theorem performs_addSymbol {u : Store S B} (h : Filed u) (symbol : S) :
    Performs u (u.addSymbol symbol) := by
  cases hmodel : u.models symbol with
  | some model =>
    refine ⟨.addSymbol symbol, by simp [Store.addSymbol, hmodel], ?_⟩
    have hsame : followed (u.addSymbol symbol) = followed u := by
      apply followed_of_same <;> simp [Store.addSymbol, hmodel]
    rw [hsame]
    simp [perform, followed, hmodel]
  | none =>
    refine ⟨.addSymbol symbol, by simp [Store.addSymbol, hmodel], ?_⟩
    have hbook : u.books symbol = none := Option.eq_none_iff_forall_ne_some.mpr fun book hbook =>
      (h.books symbol book hbook).1 hmodel
    have hafter : (followed (u.addSymbol symbol)).view symbol = some none := by
      simp [followed, Store.addSymbol, hmodel, Store.found, hbook]
    have hset := followed_set (u := u) symbol hafter fun other hother =>
      view_of_same (by simp [Store.addSymbol, hmodel, hother]) (by simp [Store.addSymbol, hmodel])
        fun book _ => by simp [Store.addSymbol, hmodel]
    rw [hset]
    simp [perform, followed, Store.addSymbol, hmodel, Followed.set]

theorem performs_removeSymbol {u v : Store S B} {symbol : S}
    (hdone : v.done = u.done ++ [.removeSymbol symbol])
    (hmodels : v.models = Function.update u.models symbol none)
    (hbooks : v.books = Function.update u.books symbol none) (hobjects : v.objects = u.objects) :
    Performs u v := by
  refine ⟨.removeSymbol symbol, hdone, ?_⟩
  have hafter : (followed v).view symbol = none := by simp [followed, hmodels]
  have hset := followed_set (u := u) symbol hafter fun other hother =>
    view_of_same (by simp [hmodels, hother]) (by simp [hbooks, hother])
      fun book _ => by simp [hobjects]
  rw [hset]
  simp [perform, followed, hobjects, Followed.set]

theorem performs_tryGetBook {u : Store S B} (h : Filed u) (symbol : S) :
    Performs u (u.tryGetBook symbol) := by
  refine ⟨.tryGetBook symbol (u.found symbol), rfl, ?_⟩
  have hsame : followed (u.tryGetBook symbol) = followed u := followed_of_same rfl rfl rfl
  rw [hsame]
  cases hmodel : u.models symbol with
  | some model => simp [perform, followed, hmodel]
  | none =>
    have hfound : u.found symbol = none := by
      rw [Store.found, Option.eq_none_iff_forall_ne_some.mpr fun book hbook =>
        (h.books symbol book hbook).1 hmodel]
      rfl
    simp [perform, followed, hmodel, hfound]

/-- A step does one operation or leaves the books as they are. -/
theorem performs_of_moved {u v : Store S B} {event : Event S B} (h : Filed u)
    (hm : Moved u event v) : Performs u v ∨ v.done = u.done ∧ followed v = followed u := by
  cases hm with
  | notified model lists symbol of_symbol => exact .inr ⟨rfl, followed_of_same rfl rfl rfl⟩
  | called event phase starts external => exact .inr ⟨rfl, followed_of_same rfl rfl rfl⟩
  | entered call symbol model lists at_call free =>
    exact .inr ⟨rfl, followed_of_same rfl rfl rfl⟩
  | shown call symbol model lists at_call free => exact .inl (performs_onBook h symbol lists)
  | left call model at_call => exact .inr ⟨rfl, followed_of_same rfl rfl rfl⟩
  | added call symbol at_call free => exact .inl (performs_addSymbol h symbol)
  | skipped call symbol at_call free unknown =>
    have hbook : u.books symbol = none := Option.eq_none_iff_forall_ne_some.mpr fun book hbook =>
      (h.books symbol book hbook).1 unknown
    refine .inl (performs_removeSymbol rfl ?_ ?_ rfl)
    · rw [← unknown, Function.update_eq_self]
      rfl
    · rw [← hbook, Function.update_eq_self]
      rfl
  | locked call symbol model at_call free known => exact .inr ⟨rfl, followed_of_same rfl rfl rfl⟩
  | erased call symbol model at_call free => exact .inl (performs_removeSymbol rfl rfl rfl rfl)
  | got call symbol at_call free => exact .inl (performs_tryGetBook h symbol)
  | notAdded call symbol at_call free => exact .inr ⟨rfl, followed_of_same rfl rfl rfl⟩
  | notClosed call symbol model at_call free => exact .inr ⟨rfl, followed_of_same rfl rfl rfl⟩

/-- Whatever the order of steps, what the calls did and answered is a run of the sequential
object, and the store amounts to where that run ends. -/
theorem operations_are_sequential (events : List (Event S B)) (u : Store S B)
    (hrun : run step {} events = some u) : run perform {} u.done = some (followed u) := by
  have hstep : ∀ (u v : Store S B) (event : Event S B),
      (Locked u ∧ Filed u) ∧ run perform {} u.done = some (followed u) → step u event = some v →
        (Locked v ∧ Filed v) ∧ run perform {} v.done = some (followed v) := by
    intro u v event ⟨⟨hlocked, hfiled⟩, hdone⟩ hv
    have hm := moved_of_step hv
    refine ⟨⟨hlocked.moved hm, hfiled.moved hlocked hm⟩, ?_⟩
    rcases performs_of_moved hfiled hm with ⟨op, hop, hperform⟩ | ⟨hsame, hfollowed⟩
    · rw [hop, run_append, hdone, Option.bind_some, run_cons hperform]
      rfl
    · rw [hsame, hfollowed]
      exact hdone
  have hempty : Locked ({} : Store S B) ∧ Filed ({} : Store S B) :=
    sound_run (run_nil ({} : Store S B))
  exact (run_invariant hstep ⟨hempty, rfl⟩ hrun).2

/-- A symbol gets lists, is looked up, removed and added again, and gets lists once more. -/
def readded : List (Event ℕ ℕ) :=
  [.addSymbol 7, .advance 0, .notify 0 50, .advance 1, .advance 1, .advance 1, .tryGetBook 7,
    .advance 2, .removeSymbol 7, .advance 3, .advance 3, .addSymbol 7, .advance 4, .notify 1 60,
    .advance 5, .advance 5]

theorem readding_is_sequential :
    ∃ u : Store ℕ ℕ, run step {} readded = some u ∧ run perform {} u.done = some (followed u) :=
  ⟨_, rfl, operations_are_sequential readded _ rfl⟩

/-! ## Which book is whose -/

/-- The book that an operation hands out, and its symbol. -/
def hands : Operation S B → Option (S × ℕ)
  | .onBook symbol _ (some book) => some (symbol, book)
  | .tryGetBook symbol (some (book, _)) => some (symbol, book)
  | .onBook _ _ none | .tryGetBook _ none | .addSymbol _ | .removeSymbol _ => none

def Shows (w : Followed S B) (symbol : S) (book : ℕ) : Prop :=
  ∃ lists, w.view symbol = some (some (book, lists))

/-- All books were made by the object, each for one symbol. -/
structure Distinct (w : Followed S B) : Prop where
  made : ∀ symbol book, Shows w symbol book → book < w.books
  apart : ∀ symbol other book, Shows w symbol book → Shows w other book → symbol = other

/-- All that an operation can do to the books: a symbol loses its book, the first lists make a
new one, and further ones go to the book that is there. -/
inductive Performed (w : Followed S B) : Operation S B → Followed S B → Prop
  | same (op : Operation S B) (kept : ∀ symbol, op ≠ .removeSymbol symbol)
      (handed : ∀ symbol book, hands op = some (symbol, book) → Shows w symbol book) :
      Performed w op w
  | added (symbol : S) (unknown : w.view symbol = none) :
      Performed w (.addSymbol symbol) (w.set symbol (some none))
  | removed (symbol : S) : Performed w (.removeSymbol symbol) (w.set symbol none)
  | first (symbol : S) (lists : B) (empty : w.view symbol = some none) :
      Performed w (.onBook symbol lists (some w.books))
        { w.set symbol (some (some (w.books, lists))) with books := w.books + 1 }
  | again (symbol : S) (lists : B) (book : ℕ) (shown : Shows w symbol book) :
      Performed w (.onBook symbol lists (some book)) (w.set symbol (some (some (book, lists))))

theorem performed_of_perform {w w' : Followed S B} {op : Operation S B}
    (hw : perform w op = some w') : Performed w op w' := by
  cases op with
  | addSymbol symbol =>
    cases hview : w.view symbol with
    | none =>
      simp only [perform, hview] at hw
      cases hw
      exact .added symbol hview
    | some shown =>
      simp only [perform, hview] at hw
      cases hw
      exact .same _ (by simp) (by simp [hands])
  | removeSymbol symbol =>
    cases hw
    exact .removed symbol
  | onBook symbol lists answer =>
    cases hview : w.view symbol with
    | none =>
      simp only [perform, hview] at hw
      obtain ⟨rfl, hw⟩ := Option.ite_none_right_eq_some.mp hw
      cases hw
      exact .same _ (by simp) (by simp [hands])
    | some shown =>
      cases shown with
      | none =>
        simp only [perform, hview] at hw
        obtain ⟨hanswer, hnow⟩ := Option.ite_none_right_eq_some.mp hw
        cases hanswer
        cases hnow
        exact .first symbol lists hview
      | some found =>
        obtain ⟨book, old⟩ := found
        simp only [perform, hview] at hw
        obtain ⟨hanswer, hnow⟩ := Option.ite_none_right_eq_some.mp hw
        cases hanswer
        cases hnow
        exact .again symbol lists book ⟨old, hview⟩
  | tryGetBook symbol answer =>
    obtain ⟨hanswer, hnow⟩ := Option.ite_none_right_eq_some.mp hw
    cases hanswer
    cases hnow
    refine .same _ (by simp) fun s book hhands => ?_
    cases hview : w.view symbol with
    | none => simp [hands, hview] at hhands
    | some shown =>
      cases shown with
      | none => simp [hands, hview] at hhands
      | some found =>
        simp only [hands, hview, Option.join_some, Option.some.injEq, Prod.mk.injEq] at hhands
        obtain ⟨rfl, rfl⟩ := hhands
        exact ⟨found.2, hview⟩

omit [DecidableEq B] in
theorem shows_set {w : Followed S B} {symbol other : S} {shown : Option (Option (ℕ × B))}
    {book count : ℕ} :
    Shows { w.set symbol shown with books := count } other book ↔
      if other = symbol then ∃ lists, shown = some (some (book, lists)) else Shows w other book := by
  unfold Shows Followed.set
  by_cases hother : other = symbol
  · subst hother
    simp
  · simp [hother]

omit [DecidableEq B] in
theorem Distinct.performed {w w' : Followed S B} {op : Operation S B} (h : Distinct w)
    (hp : Performed w op w') : Distinct w' := by
  have hset : ∀ (symbol : S) (shown : Option (Option (ℕ × B))) (count : ℕ), w.books ≤ count →
      (∀ book lists, shown = some (some (book, lists)) → book < count ∧
        ∀ other, Shows w other book → other = symbol) →
      Distinct { w.set symbol shown with books := count } := by
    intro symbol shown count hcount hshown
    constructor
    · intro s book hs
      rw [shows_set] at hs
      split at hs
      next =>
        obtain ⟨lists, hlists⟩ := hs
        exact (hshown book lists hlists).1
      next => exact (h.made s book hs).trans_le hcount
    · intro s t book hs ht
      rw [shows_set] at hs ht
      split at hs <;> split at ht
      next hsymbol htsymbol => rw [hsymbol, htsymbol]
      next hsymbol htsymbol =>
        obtain ⟨lists, hlists⟩ := hs
        exact absurd ((hshown book lists hlists).2 t ht) htsymbol
      next hsymbol htsymbol =>
        obtain ⟨lists, hlists⟩ := ht
        exact absurd ((hshown book lists hlists).2 s hs) hsymbol
      next => exact h.apart s t book hs ht
  cases hp with
  | same op kept handed => exact h
  | added symbol unknown => exact hset symbol _ _ le_rfl (by simp)
  | removed symbol => exact hset symbol _ _ le_rfl (by simp)
  | first symbol lists empty =>
    refine hset symbol _ _ (Nat.le_succ _) fun book l hl => ?_
    cases hl
    exact ⟨Nat.lt_succ_self _, fun other hother => absurd (h.made other _ hother) (lt_irrefl _)⟩
  | again symbol lists book shown =>
    refine hset symbol _ _ le_rfl fun b l hl => ?_
    cases hl
    exact ⟨h.made symbol book shown, fun other hother => h.apart other symbol book hother shown⟩

/-- A book stays with its symbol until the symbol is removed, and then comes back no more. -/
inductive Fate (w : Followed S B) (symbol : S) (book : ℕ) (removed : Prop) : Prop
  | kept (stays : ¬ removed) (shows : Shows w symbol book)
  | gone (isRemoved : removed) (made : book < w.books) (unseen : ∀ other, ¬ Shows w other book)

omit [DecidableEq B] in
theorem Fate.performed {w w' : Followed S B} {symbol : S} {book : ℕ} {mid : List (Operation S B)}
    {op : Operation S B} (h : Fate w symbol book (.removeSymbol symbol ∈ mid)) (hd : Distinct w)
    (hp : Performed w op w') : Fate w' symbol book (.removeSymbol symbol ∈ mid ++ [op]) := by
  rw [List.mem_append, List.mem_singleton]
  cases h with
  | gone isRemoved made unseen =>
    have hset : ∀ (other : S) (shown : Option (Option (ℕ × B))) (count : ℕ), w.books ≤ count →
        (∀ lists, shown ≠ some (some (book, lists))) →
        Fate { w.set other shown with books := count } symbol book
          (.removeSymbol symbol ∈ mid ∨ .removeSymbol symbol = op) := by
      intro other shown count hcount hshown
      refine .gone (.inl isRemoved) (made.trans_le hcount) fun t ht => ?_
      rw [shows_set] at ht
      split at ht
      next =>
        obtain ⟨lists, hlists⟩ := ht
        exact hshown lists hlists
      next => exact unseen t ht
    cases hp with
    | same op kept handed => exact .gone (.inl isRemoved) made unseen
    | added other unknown => exact hset other _ _ le_rfl (by simp)
    | removed other => exact hset other _ _ le_rfl (by simp)
    | first other lists empty =>
      refine hset other _ _ (Nat.le_succ _) fun l hl => ?_
      cases hl
      exact absurd made (lt_irrefl _)
    | again other lists b shown =>
      refine hset other _ _ le_rfl fun l hl => ?_
      cases hl
      exact unseen other shown
  | kept stays shows =>
    cases hp with
    | same op kept handed =>
      exact .kept (not_or.mpr ⟨stays, (kept symbol).symm⟩) shows
    | added other unknown =>
      refine .kept (not_or.mpr ⟨stays, by simp⟩) (shows_set.mpr ?_)
      obtain ⟨lists, hlists⟩ := shows
      have hne : symbol ≠ other := by
        rintro rfl
        rw [unknown] at hlists
        cases hlists
      rw [if_neg hne]
      exact ⟨lists, hlists⟩
    | removed other =>
      by_cases hother : symbol = other
      · subst hother
        refine .gone (.inr rfl) (hd.made symbol book shows) fun t ht => ?_
        rw [Shows, Followed.set] at ht
        by_cases htsymbol : t = symbol
        · simp [htsymbol] at ht
        · simp only [Function.update_of_ne htsymbol] at ht
          exact htsymbol (hd.apart t symbol book ht shows)
      · refine .kept (not_or.mpr ⟨stays, by simp [hother]⟩) (shows_set.mpr ?_)
        rwa [if_neg hother]
    | first other lists empty =>
      refine .kept (not_or.mpr ⟨stays, by simp⟩) (shows_set.mpr ?_)
      obtain ⟨old, hold⟩ := shows
      have hne : symbol ≠ other := by
        rintro rfl
        rw [empty] at hold
        cases hold
      rw [if_neg hne]
      exact ⟨old, hold⟩
    | again other lists b shown =>
      refine .kept (not_or.mpr ⟨stays, by simp⟩) (shows_set.mpr ?_)
      by_cases hother : symbol = other
      · subst hother
        obtain ⟨old, hold⟩ := shows
        obtain ⟨old', hold'⟩ := shown
        rw [hold'] at hold
        cases hold
        rw [if_pos rfl]
        exact ⟨lists, rfl⟩
      · rwa [if_neg hother]

omit [DecidableEq B] in
theorem shows_of_hands {w w' : Followed S B} {op : Operation S B} {symbol : S} {book : ℕ}
    (hp : Performed w op w') (hop : hands op = some (symbol, book)) : Shows w' symbol book := by
  cases hp with
  | same op kept handed => exact handed symbol book hop
  | added other unknown => cases hop
  | removed other => cases hop
  | first other lists empty =>
    cases hop
    exact shows_set.mpr (by simp)
  | again other lists b shown =>
    cases hop
    exact shows_set.mpr (by simp)

theorem fate_run {w w' : Followed S B} {symbol : S} {book : ℕ} (before : List (Operation S B))
    {mid : List (Operation S B)} (h : Fate w symbol book (.removeSymbol symbol ∈ before)) (hd : Distinct w)
    (hrun : run perform w mid = some w') :
    Fate w' symbol book (.removeSymbol symbol ∈ before ++ mid) ∧ Distinct w' := by
  induction mid generalizing w before with
  | nil =>
    cases hrun
    rw [List.append_nil]
    exact ⟨h, hd⟩
  | cons op mid ih =>
    obtain ⟨v, hv, hrest⟩ := Option.bind_eq_some_iff.mp hrun
    have hp := performed_of_perform hv
    rw [List.append_cons]
    exact ih (before ++ [op]) (h.performed hd hp) (hd.performed hp) hrest

/-- Two operations that hand out a book, the listener's call or a look-up, hand out the same
one exactly when they are about one symbol that was not removed in between. -/
theorem books_stay_with_symbols (events : List (Event S B)) (u : Store S B)
    (hrun : run step {} events = some u) (before mid after : List (Operation S B))
    (x y : Operation S B) (hdone : u.done = before ++ x :: (mid ++ y :: after))
    (symbol other : S) (book found : ℕ) (hx : hands x = some (symbol, book))
    (hy : hands y = some (other, found)) :
    book = found ↔ symbol = other ∧ .removeSymbol symbol ∉ mid := by
  have hall := operations_are_sequential events u hrun
  rw [hdone, run_append] at hall
  obtain ⟨w, hw, hall⟩ := Option.bind_eq_some_iff.mp hall
  obtain ⟨w₁, hw₁, hall⟩ := Option.bind_eq_some_iff.mp hall
  rw [run_append] at hall
  obtain ⟨w₂, hw₂, hall⟩ := Option.bind_eq_some_iff.mp hall
  obtain ⟨w₃, hw₃, -⟩ := Option.bind_eq_some_iff.mp hall
  have hinitial : Distinct ({} : Followed S B) := by
    constructor <;> simp [Shows]
  have hd : Distinct w := run_invariant
    (fun v v' op hv hstep => hv.performed (performed_of_perform hstep)) hinitial hw
  have hshows := shows_of_hands (performed_of_perform hw₁) hx
  have hd₁ := hd.performed (performed_of_perform hw₁)
  obtain ⟨hfate, hd₂⟩ := fate_run [] (.kept List.not_mem_nil hshows) hd₁ hw₂
  have hp := performed_of_perform hw₃
  have hd₃ := hd₂.performed hp
  have hfound := shows_of_hands hp hy
  have hne : y ≠ .removeSymbol symbol := by
    rintro rfl
    cases hy
  have hlast := hfate.performed hd₂ hp
  rw [List.nil_append, List.mem_append, List.mem_singleton, or_iff_left hne.symm] at hlast
  cases hlast with
  | kept stays shows =>
    constructor
    · rintro rfl
      exact ⟨hd₃.apart symbol other book shows hfound, stays⟩
    · rintro ⟨rfl, -⟩
      obtain ⟨_, hold⟩ := shows
      obtain ⟨_, hnew⟩ := hfound
      rw [hold] at hnew
      cases hnew
      rfl
  | gone isRemoved made unseen =>
    constructor
    · rintro rfl
      exact absurd hfound (unseen other)
    · exact fun h => absurd isRemoved h.2

/-- A book that was removed and one that was made after the symbol was added again. -/
theorem readded_symbol_gets_another_book :
    ∃ u : Store ℕ ℕ, run step {} readded = some u ∧
      ((0 : ℕ) = 1 ↔ (7 : ℕ) = 7 ∧ Operation.removeSymbol 7 ∉
        [.tryGetBook 7 (some (0, 50)), .removeSymbol 7, .addSymbol 7]) :=
  ⟨_, rfl, books_stay_with_symbols readded _ rfl [.addSymbol 7]
    [.tryGetBook 7 (some (0, 50)), .removeSymbol 7, .addSymbol 7] []
    (.onBook 7 50 (some 0)) (.onBook 7 60 (some 1)) rfl 7 7 0 1 rfl rfl⟩

end MultipleMarketDepthRuns
