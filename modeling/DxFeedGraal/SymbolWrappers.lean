import DxFeedGraal.CandleNormalisation
import DxFeedGraal.NativeStrings

/-! # Symbols and their native form

A symbol of a subscription is one of five alternatives, two of which wrap another symbol. Its
native form is a tree of records; a time series writes no source and a wildcard no text. -/
namespace SymbolWrappers

open CppStrings CppNumbers CandleAttributes NativeStrings

def RESERVED_PREFIX : Text := ['*']

/-- The constructor from a text is private: beside `ALL` there is only the default. -/
structure WildcardSymbol where
  symbol : Text := []
  symbol_cases : symbol = RESERVED_PREFIX ∨ symbol = [] := by decide
  deriving DecidableEq

def WildcardSymbol.ALL : WildcardSymbol where
  symbol := RESERVED_PREFIX

structure IndexedEventSource where
  id : Int32 := 0
  name : Text := []
  deriving DecidableEq, Repr

def IndexedEventSource.DEFAULT : IndexedEventSource := ⟨0, "DEFAULT".toList⟩

/-- The alternatives in the order of the variant. -/
inductive SymbolWrapper where
  | wildcard (symbol : WildcardSymbol)
  | string (data : Text)
  | indexed (eventSymbol : SymbolWrapper) (source : IndexedEventSource)
  | timeSeries (eventSymbol : SymbolWrapper) (fromTime : Int64)
  | candle (symbol : CandleSymbol)
  deriving DecidableEq

/-- `SymbolWrapper()` holds the first alternative, itself by default. -/
instance : Inhabited SymbolWrapper := ⟨.wildcard {}⟩

/-! ## Native records -/

inductive GraalSourceType where
  | INDEXED_EVENT_SOURCE | ORDER_SOURCE
  deriving DecidableEq, Repr

structure GraalSource where
  type : GraalSourceType
  id : Int32
  name : CString
  deriving DecidableEq, Repr

/-- A pointer to a record, which starts with its type. -/
inductive GraalSymbol where
  | null
  | STRING (symbol : CString)
  | CANDLE (symbol : CString)
  | WILDCARD
  | INDEXED_EVENT_SUBSCRIPTION (symbol : GraalSymbol) (source : Option GraalSource)
  | TIME_SERIES_SUBSCRIPTION (symbol : GraalSymbol) (from_time : Int64)
  | other (type : Int32)
  deriving DecidableEq, Repr

inductive Failure where
  | invalidArgumentException (message : String)
  | runtimeException (message : String)
  | candleSymbol (failure : CppStrings.Failure)
  deriving DecidableEq, Repr

def IndexedEventSource.toGraal (source : IndexedEventSource) : Option GraalSource :=
  some ⟨.INDEXED_EVENT_SOURCE, source.id, createCString source.name⟩

def IndexedEventSource.fromGraal : Option GraalSource → IndexedEventSource
  | none => {}
  | some source => ⟨source.id, stringLike source.name⟩

namespace SymbolWrapper

def toGraal : SymbolWrapper → GraalSymbol
  | wildcard _ => .WILDCARD
  | string data => .STRING (createCString data)
  | indexed eventSymbol source =>
    .INDEXED_EVENT_SUBSCRIPTION eventSymbol.toGraal source.toGraal
  | timeSeries eventSymbol fromTime => .TIME_SERIES_SUBSCRIPTION eventSymbol.toGraal fromTime
  | candle symbol => .CANDLE (createCString symbol.symbol)

variable (lib : StandardLibrary)

def fromGraal : GraalSymbol → Except Failure SymbolWrapper
  | .null => .error (.invalidArgumentException
      "Unable to create SymbolWrapper. The `graalNative` parameter is nullptr")
  | .STRING symbol => .ok (string (NativeStrings.toString symbol))
  | .CANDLE symbol =>
    match CandleSymbol.valueOf lib (stringLike symbol) with
    | .ok c => .ok (candle c)
    | .error failure => .error (.candleSymbol failure)
  | .WILDCARD => .ok (wildcard WildcardSymbol.ALL)
  | .INDEXED_EVENT_SUBSCRIPTION symbol source => do
    let eventSymbol ← fromGraal symbol
    return indexed eventSymbol (IndexedEventSource.fromGraal source)
  | .TIME_SERIES_SUBSCRIPTION symbol from_time => do
    let eventSymbol ← fromGraal symbol
    return timeSeries eventSymbol from_time
  | .other type => .error (.runtimeException
      ("Unable to create SymbolWrapper. Unknown symbol type: " ++ ToString.toString type.toInt))

/-- The source of a wrapping symbol; a time series always has the default one. -/
def getSource : SymbolWrapper → Option IndexedEventSource
  | indexed _ source => some source
  | timeSeries _ _ => some IndexedEventSource.DEFAULT
  | _ => none

end SymbolWrapper

/-- The elements are an array of pointers, or null where the size is zero. -/
structure GraalList where
  size : ℕ
  elements : Option (List GraalSymbol)
  deriving DecidableEq, Repr

section Lists

variable (maxSize : ℕ)

/-- The size is a `ptrdiff_t`, and `maxSize` the maximum of the native size type. -/
def calculateSize (initSize : ℤ) : ℕ :=
  if initSize < 0 then 0 else if initSize > maxSize then maxSize else initSize.toNat

def newList (size : ℕ) : GraalList :=
  ⟨size, if size = 0 then none else some (List.replicate size .null)⟩

/-- No result stands for `false`. -/
def setElement (list : GraalList) (elementIdx : ℕ) (element : GraalSymbol) : Option GraalList :=
  if elementIdx ≥ maxSize ∨ element = .null then none
  else some { list with elements := list.elements.map fun es => es.set elementIdx element }

/-- The loop of `toGraalList`; a failure frees the list and gives a null pointer. -/
def setElements (size : ℕ) (list : GraalList) (elementIdx : ℕ) :
    List SymbolWrapper → Option GraalList
  | [] => some list
  | symbol :: rest =>
    if elementIdx < size then
      (setElement maxSize list elementIdx symbol.toGraal).bind fun list =>
        setElements size list (elementIdx + 1) rest
    else some list

def toGraalList (symbols : List SymbolWrapper) : Option GraalList :=
  let size := calculateSize maxSize symbols.length
  let list := newList size
  if size = 0 then some list else setElements maxSize size list 0 symbols

variable (lib : StandardLibrary)

/-- Null elements are left out. -/
def fromElements : List GraalSymbol → Except Failure (List SymbolWrapper)
  | [] => .ok []
  | .null :: rest => fromElements rest
  | element :: rest => do
    let symbol ← SymbolWrapper.fromGraal lib element
    let symbols ← fromElements rest
    return symbol :: symbols

def fromGraalList : Option GraalList → Except Failure (List SymbolWrapper)
  | none => .ok []
  | some list =>
    match list.elements with
    | none => .ok []
    | some elements => fromElements lib (elements.take list.size)

end Lists

/-! ## Round trips -/

namespace SymbolWrapper

variable (lib : StandardLibrary)

/-- No text is cut short or taken for the null pointer, and every candle symbol is made again
from its own text. -/
def Sendable : SymbolWrapper → Prop
  | wildcard _ => True
  | string data => NoZero data
  | indexed eventSymbol source => eventSymbol.Sendable ∧ NoZero source.name ∧ source.name ≠ NUL
  | timeSeries eventSymbol _ => eventSymbol.Sendable
  | candle symbol => NoZero symbol.symbol ∧ symbol.symbol ≠ NUL ∧
    CandleSymbol.valueOf lib symbol.symbol = .ok symbol

/-- The symbol with `ALL` for every wildcard in it. -/
def withAll : SymbolWrapper → SymbolWrapper
  | wildcard _ => wildcard WildcardSymbol.ALL
  | string data => string data
  | indexed eventSymbol source => indexed eventSymbol.withAll source
  | timeSeries eventSymbol fromTime => timeSeries eventSymbol.withAll fromTime
  | candle symbol => candle symbol

/-- Every wildcard in the symbol is `ALL`. -/
def AllWildcards : SymbolWrapper → Prop
  | wildcard symbol => symbol = WildcardSymbol.ALL
  | string _ | candle _ => True
  | indexed eventSymbol _ | timeSeries eventSymbol _ => eventSymbol.AllWildcards

theorem source_round_trip {source : IndexedEventSource} (h : NoZero source.name)
    (hnul : source.name ≠ NUL) : IndexedEventSource.fromGraal source.toGraal = source := by
  simp [IndexedEventSource.toGraal, IndexedEventSource.fromGraal, stringLike_createCString h hnul]

/-- The native form keeps everything but the text of a wildcard. -/
theorem fromGraal_toGraal {s : SymbolWrapper} (h : s.Sendable lib) :
    fromGraal lib s.toGraal = .ok s.withAll := by
  induction s with
  | wildcard symbol => rfl
  | string data =>
    have hdata : NativeStrings.toString (createCString data) = data := toString_createCString h
    simp only [toGraal, fromGraal, withAll, hdata]
  | indexed eventSymbol source ih =>
    obtain ⟨hsymbol, hname, hnul⟩ := h
    simp only [toGraal, fromGraal, withAll, ih hsymbol, source_round_trip hname hnul]
    rfl
  | timeSeries eventSymbol fromTime ih =>
    have hsymbol : eventSymbol.Sendable lib := h
    simp only [toGraal, fromGraal, withAll, ih hsymbol]
    rfl
  | candle symbol =>
    obtain ⟨htext, hnul, hagain⟩ := h
    simp only [toGraal, fromGraal, withAll, stringLike_createCString htext hnul, hagain]

theorem withAll_eq_self_iff {s : SymbolWrapper} : s.withAll = s ↔ s.AllWildcards := by
  induction s with
  | wildcard symbol =>
    simp only [withAll, AllWildcards, wildcard.injEq]
    exact eq_comm
  | string data => simp [withAll, AllWildcards]
  | indexed eventSymbol source ih => simpa [withAll, AllWildcards] using ih
  | timeSeries eventSymbol fromTime ih => simpa [withAll, AllWildcards] using ih
  | candle symbol => simp [withAll, AllWildcards]

theorem toGraal_ne_null (s : SymbolWrapper) : s.toGraal ≠ .null := by
  cases s <;> simp [toGraal]

end SymbolWrapper

section Lists

variable {maxSize : ℕ}

/-- From any point on the loop fills the rest of the array in order. -/
theorem setElements_spec {rest : List SymbolWrapper} {done : List GraalSymbol} {size : ℕ}
    (hsize : size = done.length + rest.length) (hmax : size ≤ maxSize) :
    setElements maxSize size ⟨size, some (done ++ List.replicate rest.length .null)⟩ done.length
      rest = some ⟨size, some (done ++ rest.map SymbolWrapper.toGraal)⟩ := by
  induction rest generalizing done with
  | nil => simp [setElements]
  | cons symbol rest ih =>
    rw [List.length_cons] at hsize
    have hlt : done.length < size := by omega
    have hset : ¬ (done.length ≥ maxSize ∨ symbol.toGraal = .null) := by
      rintro (hge | hnull)
      · omega
      · exact symbol.toGraal_ne_null hnull
    have hfilled : (done ++ List.replicate (rest.length + 1) GraalSymbol.null).set done.length
        symbol.toGraal =
        (done ++ [symbol.toGraal]) ++ List.replicate rest.length .null := by
      rw [List.replicate_succ, List.set_append_right _ _ le_rfl, Nat.sub_self, List.set_cons_zero,
        List.append_assoc]
      rfl
    have hrest := @ih (done ++ [symbol.toGraal]) (by rw [List.length_append]; simp; omega)
    rw [List.length_append, List.length_singleton] at hrest
    simp only [setElements, hlt, if_true, setElement, hset, if_false, Option.map_some,
      Option.bind_some, List.length_cons, hfilled]
    rw [hrest, List.map_cons, List.append_assoc]
    rfl

theorem toGraalList_spec {symbols : List SymbolWrapper} (h : symbols.length ≤ maxSize) :
    toGraalList maxSize symbols = some ⟨symbols.length,
      if symbols = [] then none else some (symbols.map SymbolWrapper.toGraal)⟩ := by
  have hsize : calculateSize maxSize symbols.length = symbols.length := by
    unfold calculateSize
    rw [if_neg (by omega), if_neg (by omega), Int.toNat_natCast]
  simp only [toGraalList, hsize, newList]
  cases symbols with
  | nil => rfl
  | cons symbol rest =>
    have hfill := @setElements_spec maxSize (symbol :: rest) [] _ (Nat.zero_add _).symm h
    simpa using hfill

variable (lib : StandardLibrary)

theorem fromElements_spec {symbols : List SymbolWrapper} (h : ∀ s ∈ symbols, s.Sendable lib) :
    fromElements lib (symbols.map SymbolWrapper.toGraal) =
      .ok (symbols.map SymbolWrapper.withAll) := by
  induction symbols with
  | nil => rfl
  | cons symbol rest ih =>
    have hsymbol := SymbolWrapper.fromGraal_toGraal lib (h symbol List.mem_cons_self)
    have hrest := ih fun s hs => h s (List.mem_cons_of_mem symbol hs)
    cases hnative : symbol.toGraal with
    | null => exact absurd hnative symbol.toGraal_ne_null
    | _ =>
      rw [hnative] at hsymbol
      simp only [List.map_cons, hnative, fromElements, hsymbol, hrest]
      rfl

theorem fromGraalList_toGraalList {symbols : List SymbolWrapper}
    (hlength : symbols.length ≤ maxSize) (h : ∀ s ∈ symbols, s.Sendable lib) :
    fromGraalList lib (toGraalList maxSize symbols) = .ok (symbols.map SymbolWrapper.withAll) := by
  rw [toGraalList_spec hlength]
  cases symbols with
  | nil => rfl
  | cons symbol rest =>
    simp only [fromGraalList, if_neg (List.cons_ne_nil symbol rest)]
    rw [List.take_of_length_le (by simp), fromElements_spec lib h]

/-- Every symbol comes back from its native form with `ALL` for its wildcards, alone and in a
list that fits, and it comes back as it was exactly when these are `ALL` already. -/
theorem symbols_round_trip (lib : StandardLibrary) (maxSize : ℕ) :
    (∀ s : SymbolWrapper, s.Sendable lib → SymbolWrapper.fromGraal lib s.toGraal = .ok s.withAll ∧
      (SymbolWrapper.fromGraal lib s.toGraal = .ok s ↔ s.AllWildcards)) ∧
    ∀ symbols : List SymbolWrapper, symbols.length ≤ maxSize →
      (∀ s ∈ symbols, s.Sendable lib) → fromGraalList lib (toGraalList maxSize symbols) =
        .ok (symbols.map SymbolWrapper.withAll) := by
  refine ⟨fun s hs => ?_, fun symbols hlength hs => fromGraalList_toGraalList lib hlength hs⟩
  rw [SymbolWrapper.fromGraal_toGraal lib hs]
  refine ⟨rfl, ?_⟩
  rw [Except.ok.injEq]
  exact SymbolWrapper.withAll_eq_self_iff

end Lists

/-- Five-minute candles of `X` from a time on, with a source of their own below. -/
def sampleSymbol : SymbolWrapper :=
  .timeSeries (.indexed (.candle (CandleNormalisation.minutes "X\x7b=5m\x7d" 5))
    ⟨7, "OPRA".toList⟩) 1000

theorem symbols_round_trip_sample :
    fromGraalList CandleNormalisation.binary64
        (toGraalList 2147483647 [sampleSymbol, sampleSymbol]) =
      .ok [sampleSymbol.withAll, sampleSymbol.withAll] := by
  have hcandle : sampleSymbol.Sendable CandleNormalisation.binary64 := by
    have htext : NoZero (CandleNormalisation.minutes "X\x7b=5m\x7d" 5).symbol :=
      noZero_of_all (by decide)
    have hname : NoZero "OPRA".toList := noZero_of_all (by decide)
    exact ⟨⟨htext, by decide, by decide +kernel⟩, hname, by decide⟩
  exact (symbols_round_trip CandleNormalisation.binary64 2147483647).2 [sampleSymbol, sampleSymbol]
    (by decide) (by
      intro s hs
      rcases List.mem_cons.mp hs with rfl | hs
      · exact hcandle
      · rw [List.mem_singleton.mp hs]
        exact hcandle)

/-- A default wrapper holds a wildcard without a text and comes back as `ALL`. -/
theorem default_wildcard_comes_back_as_all :
    (default : SymbolWrapper).Sendable CandleNormalisation.binary64 ∧
      SymbolWrapper.fromGraal CandleNormalisation.binary64 (default : SymbolWrapper).toGraal ≠
        .ok default := by
  refine ⟨trivial, ?_⟩
  decide

end SymbolWrappers
