import DxFeedGraal.SourceDecoding
import DxFeedGraal.SymbolWrappers

/-! # Event sources and their native form

A source is carried as a variant by a wrapper and as a copy of its base class by a subscription
symbol. The record of an order source has a tag of its own and is read back by its number. -/
namespace EventSources

open CppStrings NativeStrings OrderSources SourceIdentities SymbolWrappers

/-! ## The source -/

/-- The alternatives in the order of the variant. -/
inductive EventSourceWrapper where
  | indexedEventSource (data : IndexedEventSource)
  | orderSource (data : OrderSource)
  deriving DecidableEq, Repr

def OrderSource.toGraal (source : OrderSource) : GraalSource :=
  ⟨.ORDER_SOURCE, source.id, createCString source.name⟩

/-- A copy of the base class. -/
def OrderSource.base (source : OrderSource) : IndexedEventSource := ⟨source.id, source.name⟩

namespace EventSourceWrapper

def id : EventSourceWrapper → Int32
  | indexedEventSource data => data.id
  | orderSource data => data.id

def name : EventSourceWrapper → Text
  | indexedEventSource data => data.name
  | orderSource data => data.name

def isOrderSource : EventSourceWrapper → Bool
  | indexedEventSource _ => false
  | orderSource _ => true

def toGraal : EventSourceWrapper → Option GraalSource
  | indexedEventSource data => data.toGraal
  | orderSource data => some (OrderSource.toGraal data)

/-- A source is looked up in the registry that stands then. -/
def fromGraal (users : UserSources) (graalNative : GraalSource) :
    Except String (EventSourceWrapper × UserSources) :=
  match graalNative.type with
  | .ORDER_SOURCE => (valueOfId users graalNative.id).map fun out => (orderSource out.1, out.2)
  | .INDEXED_EVENT_SOURCE =>
    .ok (indexedEventSource (IndexedEventSource.fromGraal (some graalNative)), users)

/-- What a reference to the base class is copied to. -/
def copied : EventSourceWrapper → IndexedEventSource
  | indexedEventSource data => data
  | orderSource data => OrderSource.base data

end EventSourceWrapper

/-- The constructor keeps copies of the symbol and of the source. -/
def indexedEventSubscriptionSymbol (eventSymbol : SymbolWrapper) (source : EventSourceWrapper) :
    SymbolWrapper := .indexed eventSymbol source.copied

/-- The source record inside of a subscription symbol's record. -/
def sourceRecord : GraalSymbol → Option GraalSource
  | .INDEXED_EVENT_SUBSCRIPTION _ source => source
  | _ => none

/-! ## Agreement -/

namespace EventSourceWrapper

/-- The sources that a program can hold in a state of the registry. -/
def Held (users : UserSources) : EventSourceWrapper → Prop
  | indexedEventSource _ => True
  | orderSource data => Known users data

/-- The wrapper's record gives the source back, whatever was looked up in the meantime. -/
def ComesBack (users : UserSources) (s : EventSourceWrapper) : Prop :=
  ∀ calls : List Call, ∃ record out, s.toGraal = some record ∧
    fromGraal (calls.foldl serve users) record = .ok out ∧
      out.1.isOrderSource = s.isOrderSource ∧ out.1.id = s.id ∧ out.1.name = s.name

/-- A subscription symbol writes the record that the source itself writes. -/
def SameRecord (s : EventSourceWrapper) : Prop :=
  ∀ eventSymbol : SymbolWrapper,
    sourceRecord (indexedEventSubscriptionSymbol eventSymbol s).toGraal = s.toGraal

def Agree (users : UserSources) (s : EventSourceWrapper) : Prop := s.ComesBack users ∧ s.SameRecord

theorem comesBack {users : UserSources} (h : WellRegistered users) {s : EventSourceWrapper}
    (hs : s.Held users) (hname : NoZero s.name) (hnul : s.name ≠ NUL) : s.ComesBack users := by
  intro calls
  cases s with
  | indexedEventSource data =>
    have hback : IndexedEventSource.fromGraal data.toGraal = data :=
      SymbolWrapper.source_round_trip hname hnul
    refine ⟨_, _, rfl, rfl, rfl, ?_, ?_⟩
    · exact congrArg IndexedEventSource.id hback
    · exact congrArg IndexedEventSource.name hback
  | orderSource data =>
    have hlater := wellRegistered_calls h calls
    have hknown : Known (calls.foldl serve users) data := by
      rcases hs with hs | hs
      · exact Or.inl hs
      · exact Or.inr ((prefix_calls users calls).subset hs)
    refine ⟨_, (orderSource data, calls.foldl serve users), rfl, ?_, rfl, rfl, rfl⟩
    have hfound := valueOfId_of_known hlater hknown
    unfold fromGraal OrderSource.toGraal
    dsimp only
    rw [hfound]
    rfl

theorem sameRecord_iff (s : EventSourceWrapper) : s.SameRecord ↔ s.isOrderSource = false := by
  cases s with
  | indexedEventSource data => exact iff_of_true (fun _ => rfl) rfl
  | orderSource data =>
    refine iff_of_false (fun h => ?_) nofun
    have htype := congrArg GraalSource.type (Option.some.inj (h default))
    cases htype

/-- A wrapper's record gives every source back. A subscription symbol writes the source's own
record exactly when this is no order source. -/
theorem encodings_agree_iff {users : UserSources} (h : Registered users) {s : EventSourceWrapper}
    (hs : s.Held users) (hname : NoZero s.name) (hnul : s.name ≠ NUL) :
    (Agree users s ↔ s.isOrderSource = false) ∧ s.ComesBack users := by
  have hback := comesBack (SourceDecoding.wellRegistered h) hs hname hnul
  refine ⟨?_, hback⟩
  rw [← sameRecord_iff]
  exact ⟨And.right, fun hsame => ⟨hback, hsame⟩⟩

/-- What the first `valueOf("BOB")` returns, and the registry after it. -/
def registeredBob : OrderSource × UserSources := register [] 4345666 "BOB".toList

theorem valueOfName_bob : valueOfName [] "BOB".toList = .ok registeredBob := by rfl

theorem encodings_agree_bob :
    (Agree registeredBob.2 (.orderSource registeredBob.1) ↔
      (orderSource registeredBob.1).isOrderSource = false) ∧
        (orderSource registeredBob.1).ComesBack registeredBob.2 :=
  encodings_agree_iff (.byName .empty valueOfName_bob)
    (show Known registeredBob.2 registeredBob.1 from Or.inr (by decide))
    (noZero_of_all (by decide)) (by decide)

/-- The record inside of a subscription symbol has lost the tag of an order source. -/
theorem order_source_tag_lost :
    sourceRecord (indexedEventSubscriptionSymbol (.string "AAPL".toList)
      (.orderSource OrderSources.NTV)).toGraal =
        some ⟨.INDEXED_EVENT_SOURCE, OrderSources.NTV.id, some "NTV".toList⟩ ∧
    (orderSource OrderSources.NTV).toGraal =
      some ⟨.ORDER_SOURCE, OrderSources.NTV.id, some "NTV".toList⟩ ∧
    ¬ Agree [] (.orderSource OrderSources.NTV) := by
  refine ⟨by decide, by decide, fun h => ?_⟩
  have hlost := h.2 (.string "AAPL".toList)
  exact absurd hlost (by decide)

end EventSourceWrapper

end EventSources
