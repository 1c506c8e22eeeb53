import DxFeedGraal.EventSources
import DxFeedGraal.SplitTexts
import DxFeedGraal.SymbolLists
import Mathlib.Data.Finset.Powerset

/-! # Lists on the command line

Event types, properties and sources are given as texts with commas between them. Blanks around
the elements and empty elements make no difference. -/
namespace ListArguments

open CppStrings SplitTexts SymbolLists OrderSources SourceIdentities SourceDecoding EventSources

/-! ## The source -/

def splitAndTrim (symbols : Text) (sep : Char) : List Text :=
  ((symbols.splitOn sep).filter (· ≠ [])).map trimStr

/-- `std::toupper` of the classic locale. -/
def toupper (c : Char) : Char := if 'a' ≤ c ∧ c ≤ 'z' then Char.ofNat (c.toNat - 32) else c

/-- The constants of `EventTypeEnum::ALL`. -/
inductive EventTypeEnum where
  | QUOTE | PROFILE | SUMMARY | GREEKS | CANDLE | UNDERLYING | THEO_PRICE | TRADE | TRADE_ETH
  | MESSAGE | TIME_AND_SALE | ORDER | ANALYTIC_ORDER | OTC_MARKETS_ORDER | SPREAD_ORDER
  | SERIES | OPTION_SALE | TEXT_MESSAGE
  deriving DecidableEq, Repr

namespace EventTypeEnum

def ALL : List EventTypeEnum :=
  [QUOTE, PROFILE, SUMMARY, GREEKS, CANDLE, UNDERLYING, THEO_PRICE, TRADE, TRADE_ETH, MESSAGE,
    TIME_AND_SALE, ORDER, ANALYTIC_ORDER, OTC_MARKETS_ORDER, SPREAD_ORDER, SERIES, OPTION_SALE,
    TEXT_MESSAGE]

def getName : EventTypeEnum → Text
  | QUOTE => "QUOTE".toList
  | PROFILE => "PROFILE".toList
  | SUMMARY => "SUMMARY".toList
  | GREEKS => "GREEKS".toList
  | CANDLE => "CANDLE".toList
  | UNDERLYING => "UNDERLYING".toList
  | THEO_PRICE => "THEO_PRICE".toList
  | TRADE => "TRADE".toList
  | TRADE_ETH => "TRADE_ETH".toList
  | MESSAGE => "MESSAGE".toList
  | TIME_AND_SALE => "TIME_AND_SALE".toList
  | ORDER => "ORDER".toList
  | ANALYTIC_ORDER => "ANALYTIC_ORDER".toList
  | OTC_MARKETS_ORDER => "OTC_MARKETS_ORDER".toList
  | SPREAD_ORDER => "SPREAD_ORDER".toList
  | SERIES => "SERIES".toList
  | OPTION_SALE => "OPTION_SALE".toList
  | TEXT_MESSAGE => "TEXT_MESSAGE".toList

def getClassName : EventTypeEnum → Text
  | QUOTE => "Quote".toList
  | PROFILE => "Profile".toList
  | SUMMARY => "Summary".toList
  | GREEKS => "Greeks".toList
  | CANDLE => "Candle".toList
  | UNDERLYING => "Underlying".toList
  | THEO_PRICE => "TheoPrice".toList
  | TRADE => "Trade".toList
  | TRADE_ETH => "TradeETH".toList
  | MESSAGE => "Message".toList
  | TIME_AND_SALE => "TimeAndSale".toList
  | ORDER => "Order".toList
  | ANALYTIC_ORDER => "AnalyticOrder".toList
  | OTC_MARKETS_ORDER => "OtcMarketsOrder".toList
  | SPREAD_ORDER => "SpreadOrder".toList
  | SERIES => "Series".toList
  | OPTION_SALE => "OptionSale".toList
  | TEXT_MESSAGE => "TextMessage".toList

/-- The first type of a name stays in the map. -/
def ALL_BY_NAME (name : Text) : Option EventTypeEnum := ALL.find? fun t => t.getName = name

def ALL_BY_CLASS_NAME (className : Text) : Option EventTypeEnum :=
  ALL.find? fun t => t.getClassName = className

end EventTypeEnum

/-- The body of the loop of `parseTypes`. -/
def addType (out : Finset EventTypeEnum × List Text) (t : Text) :
    Finset EventTypeEnum × List Text :=
  match EventTypeEnum.ALL_BY_NAME (t.map toupper) with
  | some type => (insert type out.1, out.2)
  | none =>
    match EventTypeEnum.ALL_BY_CLASS_NAME t with
    | some type => (insert type out.1, out.2)
    | none => (out.1, out.2 ++ [t])

/-- The texts that stand for all types. -/
def wildcards : List Text := ["*".toList, "all".toList, "All".toList, "ALL".toList]

def parseTypes (types : Text) : Finset EventTypeEnum × List Text :=
  let trimmedTypes := trimStr types
  if trimmedTypes = [] then (∅, [])
  else if trimmedTypes ∈ wildcards then (EventTypeEnum.ALL.toFinset, [])
  else ((splitAndTrim trimmedTypes ',').filter (· ≠ [])).foldl addType (∅, [])

/-- `std::unordered_map`. A key that is there already keeps its value. -/
abbrev Properties := Text → Option Text

def keyValue : List Text → Option (Text × Text)
  | [key, value] => some (key, value)
  | _ => none

/-- The pairs that are put into the map, in their order. -/
def propertyPairs (properties : Text) : List (Text × Text) :=
  let p := trimStr properties
  if p = [] then []
  else ((splitAndTrim p ',').filter (· ≠ [])).filterMap fun kv => keyValue (splitAndTrim kv '=')

def parseProperties (properties : Text) : Properties :=
  fun key => (propertyPairs properties).lookup key

/-- `OrderSource::valueOf`, which throws for a text that is no name. -/
def sourceOf (users : UserSources) (name : Text) : Cpp (OrderSource × UserSources) :=
  (valueOfName users name).mapError fun message => .invalidArgument message.toList

/-- The sources of the names, each looked up in the registry that the one before has left. -/
def sourcesOf (users : UserSources) : List Text → Cpp (List EventSourceWrapper × UserSources)
  | [] => .ok ([], users)
  | name :: names => do
    let (source, users) ← sourceOf users name
    let (sources, users) ← sourcesOf users names
    return (.orderSource source :: sources, users)

def parseEventSources (users : UserSources) (sources : Text) :
    Cpp (Finset EventSourceWrapper × UserSources) :=
  let s := trimStr sources
  if s = [] then .ok ({.indexedEventSource .DEFAULT}, users)
  else noexcept do
    let (sources, users) ← sourcesOf users ((splitAndTrim s ',').filter (· ≠ []))
    return (sources.toFinset, users)

/-- `EventSourceWrapper::operator==`: the alternatives, then `IndexedEventSource::operator==`. -/
def sourceEquals : EventSourceWrapper → EventSourceWrapper → Bool
  | .indexedEventSource a, .indexedEventSource b => a.id == b.id
  | .orderSource a, .orderSource b => equals a b
  | _, _ => false

/-- `operator==` of two sets: as many sources, and to each of the first an equal one. -/
def sameSources (A B : Finset EventSourceWrapper) : Prop :=
  A.card = B.card ∧ ∀ v ∈ A, ∃ w ∈ B, sourceEquals v w = true

/-! ## Elements -/

/-- What stands between the commas, without the blanks around it. -/
def elements (text : Text) : List Text := fields trimmed ',' text

theorem elements_eq (text : Text) :
    (splitAndTrim (trimStr text) ',').filter (· ≠ []) = elements text :=
  fields_trim rfl text

theorem elements_of_blank {text : Text} (h : trimStr text = []) : elements text = [] := by
  have hnone : elements (trimStr text) = [] := by rw [h]; rfl
  exact (fields_trim rfl text).symm.trans hnone

theorem elements_intercalate {ps : List Text} (h : ∀ p ∈ ps, ',' ∉ p) :
    elements ([','].intercalate ps) = (ps.map trimStr).filter (· ≠ []) :=
  fields_intercalate h

/-! ## Event types -/

section Types

/-- The name in any letter case, or the class name as it is written. -/
def Names (type : EventTypeEnum) (t : Text) : Prop :=
  t.map toupper = type.getName ∨ t = type.getClassName

instance (type : EventTypeEnum) (t : Text) : Decidable (Names type t) :=
  inferInstanceAs (Decidable (_ ∨ _))

def Unknown (t : Text) : Prop := ∀ type ∈ EventTypeEnum.ALL, ¬ Names type t

instance (t : Text) : Decidable (Unknown t) :=
  inferInstanceAs (Decidable (∀ type ∈ EventTypeEnum.ALL, ¬ Names type t))

/-- What either map has for an element. -/
def named (t : Text) : Option EventTypeEnum :=
  (EventTypeEnum.ALL_BY_NAME (t.map toupper)).or (EventTypeEnum.ALL_BY_CLASS_NAME t)

theorem mem_all (type : EventTypeEnum) : type ∈ EventTypeEnum.ALL := by
  cases type <;> decide

theorem names_distinct : (EventTypeEnum.ALL.map EventTypeEnum.getName).Nodup := by decide

theorem class_names_distinct : (EventTypeEnum.ALL.map EventTypeEnum.getClassName).Nodup := by
  decide

/-- In capital letters a class name is the name of its own type or of none. -/
theorem name_of_class_name : ∀ type ∈ EventTypeEnum.ALL, ∀ other ∈ EventTypeEnum.ALL,
    type.getClassName.map toupper = other.getName → type = other := by
  decide +kernel

theorem find_of_distinct {text : EventTypeEnum → Text} (h : (EventTypeEnum.ALL.map text).Nodup)
    {t : Text} {type : EventTypeEnum} :
    (EventTypeEnum.ALL.find? fun e => text e = t) = some type ↔ text type = t := by
  constructor
  · exact fun hfind => by simpa using List.find?_some hfind
  · intro htype
    cases hfind : EventTypeEnum.ALL.find? fun e => text e = t with
    | none => exact absurd htype (by simpa using List.find?_eq_none.mp hfind type (mem_all type))
    | some other =>
      have hother : text other = t := by simpa using List.find?_some hfind
      rw [List.inj_on_of_nodup_map h (mem_all other) (mem_all type) (hother.trans htype.symm)]

/-- It does not matter which map is asked first. -/
theorem named_eq_some_iff {t : Text} {type : EventTypeEnum} :
    named t = some type ↔ Names type t := by
  have hname := @find_of_distinct _ names_distinct (t.map toupper)
  have hclass := @find_of_distinct _ class_names_distinct t
  unfold named Names
  cases hfirst : EventTypeEnum.ALL_BY_NAME (t.map toupper) with
  | none =>
    have hnot : t.map toupper ≠ type.getName := fun heq =>
      nomatch hfirst.symm.trans (hname.mpr heq.symm)
    rw [Option.none_or, or_iff_right hnot, eq_comm (a := t)]
    exact hclass
  | some other =>
    have hother := hname.mp hfirst
    rw [Option.some_or, Option.some_inj]
    constructor
    · rintro rfl
      exact Or.inl hother.symm
    · rintro (heq | rfl)
      · exact Option.some_inj.mp (hfirst.symm.trans (hname.mpr heq.symm))
      · exact (name_of_class_name _ (mem_all _) _ (mem_all _) hother.symm).symm

theorem named_eq_none_iff {t : Text} : named t = none ↔ Unknown t := by
  rw [Option.eq_none_iff_forall_ne_some]
  exact ⟨fun h type _ hnames => h type (named_eq_some_iff.mpr hnames),
    fun h type hnamed => h type (mem_all type) (named_eq_some_iff.mp hnamed)⟩

theorem addType_eq (out : Finset EventTypeEnum × List Text) (t : Text) :
    addType out t = match named t with
      | some type => (insert type out.1, out.2)
      | none => (out.1, out.2 ++ [t]) := by
  unfold addType named
  cases EventTypeEnum.ALL_BY_NAME (t.map toupper) <;> rfl

theorem foldl_addType (ts : List Text) (out : Finset EventTypeEnum × List Text) :
    ts.foldl addType out =
      (out.1 ∪ (ts.filterMap named).toFinset, out.2 ++ ts.filter fun t => Unknown t) := by
  induction ts generalizing out with
  | nil => simp
  | cons t ts ih =>
    rw [List.foldl_cons, ih, addType_eq]
    cases hnamed : named t with
    | none =>
      have hunknown := named_eq_none_iff.mp hnamed
      simp [hnamed, hunknown]
    | some type =>
      have hknown : ¬ Unknown t := fun h => nomatch hnamed.symm.trans (named_eq_none_iff.mpr h)
      simp [hnamed, hknown, Finset.insert_union, Finset.union_insert]

theorem parseTypes_eq {types : Text} (h : trimStr types ∉ wildcards) :
    parseTypes types = (((elements types).filterMap named).toFinset,
      (elements types).filter fun t => Unknown t) := by
  by_cases hblank : trimStr types = []
  · rw [elements_of_blank hblank]
    exact if_pos hblank
  · apply (if_neg hblank).trans ((if_neg h).trans _)
    rw [elements_eq, foldl_addType, Finset.empty_union, List.nil_append]

theorem unknown_nil : Unknown [] := by decide

/-- Elements joined by commas: the types that they name, whichever way each is spelled, and the
elements that name none, in their order. -/
theorem types_come_back (ps : List Text) (h : ∀ p ∈ ps, ',' ∉ p)
    (hwild : trimStr ([','].intercalate ps) ∉ wildcards) :
    (∀ type, type ∈ (parseTypes ([','].intercalate ps)).1 ↔
      ∃ p ∈ ps, Names type (trimStr p)) ∧
    (parseTypes ([','].intercalate ps)).2 =
      (ps.map trimStr).filter fun t => t ≠ [] ∧ Unknown t := by
  rw [parseTypes_eq hwild, elements_intercalate h]
  constructor
  · intro type
    rw [List.mem_toFinset, List.mem_filterMap]
    constructor
    · rintro ⟨t, ht, hnamed⟩
      obtain ⟨p, hp, rfl⟩ := List.mem_map.mp (List.mem_of_mem_filter ht)
      exact ⟨p, hp, named_eq_some_iff.mp hnamed⟩
    · rintro ⟨p, hp, hnames⟩
      have hne : trimStr p ≠ [] := fun hnil => unknown_nil type (mem_all type) (hnil ▸ hnames)
      exact ⟨trimStr p, List.mem_filter.mpr ⟨List.mem_map_of_mem hp, by simpa using hne⟩,
        named_eq_some_iff.mpr hnames⟩
  · rw [List.filter_filter]
    apply List.filter_congr
    intro t _
    by_cases hunknown : Unknown t <;> simp [hunknown]

/-- Three spellings and an element that names no type. -/
theorem types_of_spellings :
    (∀ type, type ∈ (parseTypes "quote, TradeETH ,,timeandsale,Time_And_Sale".toList).1 ↔
      ∃ p ∈ ["quote".toList, " TradeETH ".toList, [], "timeandsale".toList,
        "Time_And_Sale".toList], Names type (trimStr p)) ∧
    (parseTypes "quote, TradeETH ,,timeandsale,Time_And_Sale".toList).2 =
      ["timeandsale".toList] :=
  types_come_back ["quote".toList, " TradeETH ".toList, [], "timeandsale".toList,
    "Time_And_Sale".toList] (by decide) (by decide)

end Types

/-! ## Properties -/

section PropertyLists

/-- A key and a value with equality signs between them, and perhaps around them. -/
def Assigns (piece key value : Text) : Prop :=
  ∃ (a b c : ℕ) (k v : Text), piece = List.replicate a '=' ++
      (k ++ (List.replicate (b + 1) '=' ++ (v ++ List.replicate c '='))) ∧
    (k ≠ [] ∧ '=' ∉ k) ∧ (v ≠ [] ∧ '=' ∉ v) ∧ trimStr k = key ∧ trimStr v = value

/-- A list of properties as the tools take it. -/
def render (pairs : List (Text × Text)) : Text :=
  [','].intercalate (pairs.map fun kv => kv.1 ++ '=' :: kv.2)

/-- Neither a comma nor an equality sign in it, and no blanks around it. -/
def Clean (t : Text) : Prop := Trimmed trimmed t ∧ ',' ∉ t ∧ '=' ∉ t

/-- Texts that survive between commas and equality signs. -/
def Plain (t : Text) : Prop := t ≠ [] ∧ Clean t

theorem keyValue_eq_some_iff {parts : List Text} {key value : Text} :
    keyValue parts = some (key, value) ↔ parts = [key, value] := by
  constructor
  · intro h
    match parts, h with
    | [_, _], h => cases h; rfl
  · rintro rfl
    rfl

theorem assigns_iff {piece key value : Text} :
    keyValue (splitAndTrim piece '=') = some (key, value) ↔ Assigns piece key value := by
  rw [keyValue_eq_some_iff]
  change (words '=' piece).map trimStr = [key, value] ↔ _
  constructor
  · intro h
    generalize hwords : words '=' piece = parts at h
    match parts, h with
    | [k, v], hparts =>
      obtain ⟨a, rest, rfl, hk, hkfree, hhead, hrest⟩ := words_eq_cons_iff.mp hwords
      obtain ⟨b, tail, rfl, hv, hvfree, -, htail⟩ := words_eq_cons_iff.mp hrest
      obtain ⟨c, rfl⟩ := words_eq_nil_iff.mp htail
      cases b with
      | zero =>
        cases v with
        | nil => exact absurd rfl hv
        | cons d v => exact absurd (hhead d rfl ▸ List.mem_cons_self) hvfree
      | succ b =>
        cases hparts
        exact ⟨a, b, c, k, v, rfl, ⟨hk, hkfree⟩, ⟨hv, hvfree⟩, rfl, rfl⟩
  · rintro ⟨a, b, c, k, v, rfl, ⟨hk, hkfree⟩, ⟨hv, hvfree⟩, rfl, rfl⟩
    have htail : words '=' (List.replicate c '=') = [] := words_eq_nil_iff.mpr ⟨c, rfl⟩
    have hend : ∀ d ∈ (List.replicate c '=').head?, d = '=' := fun d hd =>
      List.eq_of_mem_replicate (List.mem_of_mem_head? hd)
    have hrest := words_eq_cons_iff.mpr ⟨b + 1, _, rfl, hv, hvfree, hend, htail⟩
    have hgap : ∀ d ∈ (List.replicate (b + 1) '=' ++ (v ++ List.replicate c '=')).head?,
        d = '=' := fun d hd => (Option.some.inj hd).symm
    rw [words_eq_cons_iff.mpr ⟨a, _, rfl, hk, hkfree, hgap, hrest⟩]
    rfl

theorem propertyPairs_eq (text : Text) : propertyPairs text =
    (elements text).filterMap fun kv => keyValue (splitAndTrim kv '=') := by
  by_cases hblank : trimStr text = []
  · exact (if_pos hblank).trans (elements_of_blank hblank ▸ rfl)
  · exact (if_neg hblank).trans (congrArg _ (elements_eq text))

/-- An entry of the map comes from the first pair of its key. -/
theorem lookup_filterMap_iff {ι κ β : Type*} [BEq κ] [LawfulBEq κ] (f : ι → Option (κ × β))
    (k : κ) (v : β) (l : List ι) :
    (l.filterMap f).lookup k = some v ↔ ∃ before x after, l = before ++ x :: after ∧
      f x = some (k, v) ∧ ∀ y ∈ before, ∀ w, f y ≠ some (k, w) := by
  induction l with
  | nil => simp
  | cons x l ih =>
    by_cases hx : ∃ w, f x = some (k, w)
    · obtain ⟨w, hw⟩ := hx
      rw [List.filterMap_cons_some hw, List.lookup_cons_self, Option.some_inj]
      constructor
      · rintro rfl
        exact ⟨[], x, l, rfl, hw, by simp⟩
      · rintro ⟨before, y, after, hl, hy, hnone⟩
        cases before with
        | nil =>
          cases hl
          cases hw.symm.trans hy
          rfl
        | cons z before =>
          cases hl
          exact absurd hw (hnone x List.mem_cons_self w)
    · have hskip : ((x :: l).filterMap f).lookup k = (l.filterMap f).lookup k := by
        cases hfx : f x with
        | none => rw [List.filterMap_cons_none hfx]
        | some kw =>
          have hne : (k == kw.1) = false := by
            apply beq_eq_false_iff_ne.mpr
            rintro rfl
            exact hx ⟨kw.2, hfx⟩
          rw [List.filterMap_cons_some hfx, List.lookup_cons, hne]
      rw [hskip, ih]
      constructor
      · rintro ⟨before, y, after, rfl, hy, hnone⟩
        refine ⟨x :: before, y, after, rfl, hy, List.forall_mem_cons.mpr ⟨?_, hnone⟩⟩
        exact fun w hw => hx ⟨w, hw⟩
      · rintro ⟨before, y, after, hl, hy, hnone⟩
        cases before with
        | nil =>
          cases hl
          exact absurd ⟨v, hy⟩ hx
        | cons z before =>
          cases hl
          exact ⟨before, y, after, rfl, hy, fun a ha => hnone a (List.mem_cons_of_mem _ ha)⟩

/-- A key is given by the first element that assigns it a value. -/
theorem property_defined_iff (text key value : Text) :
    parseProperties text key = some value ↔
      ∃ before piece after, elements text = before ++ piece :: after ∧
        Assigns piece key value ∧ ∀ other ∈ before, ∀ v, ¬ Assigns other key v := by
  unfold parseProperties
  rw [propertyPairs_eq, lookup_filterMap_iff]
  simp only [← assigns_iff, ne_eq]

theorem trimStr_of_clean {t : Text} (h : Clean t) : trimStr t = t := trim_of_trimmed h.1

theorem trimmed_pair {key value : Text} (hkey : Trimmed trimmed key)
    (hvalue : Trimmed trimmed value) : Trimmed trimmed (key ++ '=' :: value) := by
  constructor
  · intro c hc
    cases key with
    | nil =>
      cases hc
      rfl
    | cons d key => exact hkey.1 c hc
  · intro c hc
    cases value with
    | nil =>
      rw [List.getLast?_concat] at hc
      cases hc
      rfl
    | cons d value =>
      apply hvalue.2 c
      rwa [List.getLast?_append_cons, List.getLast?_cons_cons] at hc

/-- A pair is read from its text unless one of its parts is empty. -/
theorem keyValue_pair {kv : Text × Text} (hkey : Clean kv.1) (hvalue : Clean kv.2) :
    keyValue (splitAndTrim (kv.1 ++ '=' :: kv.2) '=') =
      Option.guard (fun kv => kv.1 ≠ [] ∧ kv.2 ≠ []) kv := by
  obtain ⟨key, value⟩ := kv
  have hwords : splitAndTrim (key ++ '=' :: value) '=' =
      ((if key = [] then [] else [key]) ++ if value = [] then [] else [value]).map trimStr := by
    change (words '=' _).map trimStr = _
    rw [words_append_cons, words_of_free hkey.2.2, words_of_free hvalue.2.2]
  rw [hwords]
  by_cases hk : key = [] <;> by_cases hv : value = []
  · simp [hk, hv, keyValue, Option.guard]
  · simp [hk, hv, keyValue, Option.guard]
  · simp [hk, hv, keyValue, Option.guard]
  · simp [hk, hv, keyValue, Option.guard, trimStr_of_clean hkey, trimStr_of_clean hvalue]

theorem propertyPairs_render {pairs : List (Text × Text)}
    (h : ∀ kv ∈ pairs, Clean kv.1 ∧ Clean kv.2) :
    propertyPairs (render pairs) = pairs.filter fun kv => kv.1 ≠ [] ∧ kv.2 ≠ [] := by
  have hfree : ∀ p ∈ pairs.map fun kv => kv.1 ++ '=' :: kv.2, ',' ∉ p := by
    intro p hp
    obtain ⟨kv, hkv, rfl⟩ := List.mem_map.mp hp
    simp [(h kv hkv).1.2.1, (h kv hkv).2.2.1]
  have helements : elements (render pairs) = pairs.map fun kv => kv.1 ++ '=' :: kv.2 := by
    rw [render, elements_intercalate hfree, List.map_map]
    have htrim : ∀ kv ∈ pairs, (trimStr ∘ fun kv : Text × Text => kv.1 ++ '=' :: kv.2) kv =
        kv.1 ++ '=' :: kv.2 := fun kv hkv =>
      trim_of_trimmed (trimmed_pair (h kv hkv).1.1 (h kv hkv).2.1)
    rw [List.map_congr_left htrim]
    apply List.filter_eq_self.mpr
    intro p hp
    obtain ⟨kv, -, rfl⟩ := List.mem_map.mp hp
    simp
  rw [propertyPairs_eq, helements, List.filterMap_map, ← List.filterMap_eq_filter]
  apply List.filterMap_congr
  intro kv hkv
  exact keyValue_pair (h kv hkv).1 (h kv hkv).2

/-- What is read is clean, if it is an entry of the map. -/
theorem clean_of_defined {text key value : Text} (h : parseProperties text key = some value) :
    Clean key ∧ Clean value := by
  obtain ⟨before, piece, after, helements, hassigns, -⟩ := (property_defined_iff _ _ _).mp h
  have hpiece : piece ∈ elements text := by simp [helements]
  obtain ⟨-, -, hcomma⟩ := mem_fields hpiece
  obtain ⟨a, b, c, k, v, rfl, ⟨-, hk⟩, ⟨-, hv⟩, rfl, rfl⟩ := hassigns
  simp only [List.mem_append, not_or] at hcomma
  exact ⟨⟨trimmed_trim k, fun hmem => hcomma.2.1 (mem_of_mem_trim hmem),
      fun hmem => hk (mem_of_mem_trim hmem)⟩,
    trimmed_trim v, fun hmem => hcomma.2.2.2.1 (mem_of_mem_trim hmem),
      fun hmem => hv (mem_of_mem_trim hmem)⟩

theorem lookup_of_mem {pairs : List (Text × Text)} (h : (pairs.map Prod.fst).Nodup)
    {kv : Text × Text} (hkv : kv ∈ pairs) : pairs.lookup kv.1 = some kv.2 := by
  obtain ⟨front, back, rfl⟩ := List.append_of_mem hkv
  refine List.lookup_eq_some_iff.mpr ⟨front, back, rfl, fun other hother => ?_⟩
  rw [List.map_append, List.map_cons, List.nodup_append] at h
  have hne := h.2.2 other.1 (List.mem_map_of_mem hother) kv.1 List.mem_cons_self
  simpa using hne.symm

theorem mem_of_lookup {pairs : List (Text × Text)} {key value : Text}
    (h : pairs.lookup key = some value) : (key, value) ∈ pairs := by
  obtain ⟨front, back, rfl, -⟩ := List.lookup_eq_some_iff.mp h
  exact List.mem_append_right _ List.mem_cons_self

/-- The pairs of distinct keys come back as the map that they make, exactly when every key and
every value is plain. -/
theorem properties_come_back_iff (pairs : List (Text × Text))
    (h : (pairs.map Prod.fst).Nodup) :
    parseProperties (render pairs) = (fun key => pairs.lookup key) ↔
      ∀ kv ∈ pairs, Plain kv.1 ∧ Plain kv.2 := by
  constructor
  · intro hback
    have hdefined : ∀ kv ∈ pairs, parseProperties (render pairs) kv.1 = some kv.2 :=
      fun kv hkv => (congrFun hback kv.1).trans (lookup_of_mem h hkv)
    have hclean : ∀ kv ∈ pairs, Clean kv.1 ∧ Clean kv.2 := fun kv hkv =>
      clean_of_defined (hdefined kv hkv)
    intro kv hkv
    -- A pair with an empty part leaves no entry of its key behind.
    have hread : (pairs.filter fun kv => kv.1 ≠ [] ∧ kv.2 ≠ []).lookup kv.1 = some kv.2 := by
      rw [← propertyPairs_render hclean]
      exact hdefined kv hkv
    have hparts := (List.mem_filter.mp (mem_of_lookup hread)).2
    simp only [decide_eq_true_eq] at hparts
    exact ⟨⟨hparts.1, (hclean kv hkv).1⟩, hparts.2, (hclean kv hkv).2⟩
  · intro hplain
    have hall : pairs.filter (fun kv => kv.1 ≠ [] ∧ kv.2 ≠ []) = pairs := by
      apply List.filter_eq_self.mpr
      intro kv hkv
      simpa using ⟨(hplain kv hkv).1.1, (hplain kv hkv).2.1⟩
    have hpairs : propertyPairs (render pairs) = pairs :=
      (propertyPairs_render fun kv hkv => ⟨(hplain kv hkv).1.2, (hplain kv hkv).2.2⟩).trans hall
    funext key
    rw [parseProperties, hpairs]

/-- Two properties that come back. -/
theorem address_and_timeout_come_back :
    parseProperties (render [("address".toList, "demo:7300".toList),
        ("timeout".toList, "5 s".toList)]) =
      (fun key => [("address".toList, "demo:7300".toList),
        ("timeout".toList, "5 s".toList)].lookup key) ↔
      ∀ kv ∈ [("address".toList, "demo:7300".toList), ("timeout".toList, "5 s".toList)],
        Plain kv.1 ∧ Plain kv.2 :=
  properties_come_back_iff [("address".toList, "demo:7300".toList),
    ("timeout".toList, "5 s".toList)] (by decide)

end PropertyLists

/-! ## Sources -/

section SourceLists

/-- A known source for each name, in a registry that has only grown. -/
structure Resolved (users users' : UserSources) (names : List Text)
    (sources : List EventSourceWrapper) : Prop where
  registered : Registered users'
  kept : users <+: users'
  named : List.Forall₂ (fun name w => ∃ s, w = .orderSource s ∧ Known users' s ∧ s.name = name)
    names sources

theorem sourcesOf_cases {users : UserSources} (h : Registered users) (names : List Text) :
    (∃ sources users', sourcesOf users names = .ok (sources, users') ∧
      (∀ name ∈ names, Accepted name) ∧ Resolved users users' names sources) ∨
    (∃ message, sourcesOf users names = .error (.invalidArgument message)) ∧
      ∃ name ∈ names, ¬ Accepted name := by
  induction names generalizing users with
  | nil =>
    exact Or.inl ⟨[], users, rfl, by simp, h, List.prefix_refl users, List.Forall₂.nil⟩
  | cons name names ih =>
    cases hv : valueOfName users name with
    | error message =>
      have hnot : ¬ Accepted name := by
        rw [← valueOfName_ok_iff users name, hv]
        exact fun ⟨_, hout⟩ => nomatch hout
      refine Or.inr ⟨⟨message.toList, ?_⟩, name, List.mem_cons_self, hnot⟩
      simp only [sourcesOf, sourceOf, hv]
      rfl
    | ok out =>
      have haccepted := (valueOfName_ok_iff users name).mp ⟨out, hv⟩
      obtain ⟨hknown, hname⟩ := valueOfName_known (wellRegistered h) hv
      have hstep : sourcesOf users (name :: names) = (do
          let (sources, users) ← sourcesOf out.2 names
          return (.orderSource out.1 :: sources, users)) := by
        simp only [sourcesOf, sourceOf, hv]
        rfl
      rcases ih (.byName h hv) with ⟨sources, users', hrest, hall, hres⟩ | ⟨⟨message, hrest⟩, hnot⟩
      · refine Or.inl ⟨.orderSource out.1 :: sources, users', ?_,
          List.forall_mem_cons.mpr ⟨haccepted, hall⟩, hres.registered, ?_, ?_⟩
        · rw [hstep, hrest]
          rfl
        · have hkept := prefix_serve users (.byName name)
          simp only [serve, valueOf, hv] at hkept
          exact hkept.trans hres.kept
        · exact .cons ⟨out.1, rfl, hknown.imp_right (hres.kept.mem ·), hname⟩ hres.named
      · refine Or.inr ⟨⟨message, ?_⟩, ?_⟩
        · rw [hstep, hrest]
          rfl
        · obtain ⟨other, hother, hbad⟩ := hnot
          exact ⟨other, List.mem_cons_of_mem _ hother, hbad⟩

theorem Resolved.order_sources {users users' : UserSources} {names : List Text}
    {sources : List EventSourceWrapper} (h : Resolved users users' names sources) :
    ∀ w ∈ sources, ∃ s, w = .orderSource s ∧ Known users' s := by
  obtain ⟨-, -, hnamed⟩ := h
  induction hnamed with
  | nil => simp
  | cons hw _ ih =>
    obtain ⟨s, hs, hknown, -⟩ := hw
    exact List.forall_mem_cons.mpr ⟨⟨s, hs, hknown⟩, ih⟩

theorem Resolved.names_eq {users users' : UserSources} {names : List Text}
    {sources : List EventSourceWrapper} (h : Resolved users users' names sources) :
    sources.map EventSourceWrapper.name = names := by
  obtain ⟨-, -, hnamed⟩ := h
  induction hnamed with
  | nil => rfl
  | cons hw _ ih =>
    obtain ⟨s, rfl, -, rfl⟩ := hw
    exact congrArg _ ih

/-- A text that is not blank either ends the process or gives the sources of its names. -/
theorem parseEventSources_cases {users : UserSources} (h : Registered users) {text : Text}
    (hblank : trimStr text ≠ []) :
    (∃ sources users', parseEventSources users text = .ok (sources.toFinset, users') ∧
      (∀ name ∈ elements text, Accepted name) ∧
      Resolved users users' (elements text) sources) ∨
    parseEventSources users text = .error .terminated ∧
      ∃ name ∈ elements text, ¬ Accepted name := by
  have hparse : parseEventSources users text = noexcept (do
      let (sources, users) ← sourcesOf users (elements text)
      return (sources.toFinset, users)) := by
    rw [← elements_eq]
    exact if_neg hblank
  rcases sourcesOf_cases h (elements text) with
    ⟨sources, users', hok, hres⟩ | ⟨⟨message, herr⟩, hbad⟩
  · refine Or.inl ⟨sources, users', ?_, hres⟩
    rw [hparse, hok]
    rfl
  · refine Or.inr ⟨?_, hbad⟩
    rw [hparse, herr]
    rfl

theorem predefined_names_distinct : (PREDEFINED_SOURCES.map OrderSource.name).Nodup := by
  decide +kernel

theorem predefined_names_compose :
    ∀ s ∈ PREDEFINED_SOURCES, (composeId s.name).toOption ∈ [none, some s.id] := by
  decide +kernel

/-- Among the sources that a program can hold, a name belongs to one only. -/
theorem known_of_name {users : UserSources} (h : WellRegistered users) {s t : OrderSource}
    (hs : Known users s) (ht : Known users t) (hname : s.name = t.name) : s = t := by
  -- A name that can be registered is not that of a predefined source.
  have hapart : ∀ a ∈ PREDEFINED_SOURCES, ∀ b ∈ users, a.name ≠ b.name := by
    intro a ha b hb heq
    have hcompose := predefined_names_compose a ha
    rw [heq, h.composed b hb] at hcompose
    have hid : b.id = a.id := by simpa [Except.toOption] using hcompose
    exact findById_eq_none (h.not_predefined b hb) a ha hid.symm
  rcases hs with hs | hs
  · rcases ht with ht | ht
    · exact List.inj_on_of_nodup_map predefined_names_distinct hs ht hname
    · exact absurd hname (hapart s hs t ht)
  · rcases ht with ht | ht
    · exact absurd hname.symm (hapart t ht s hs)
    · apply List.inj_on_of_nodup_map h.distinct hs ht
      have hid := h.composed s hs
      rw [hname, h.composed t ht] at hid
      exact (Except.ok.inj hid).symm

/-- Order sources that a registry knows are told apart by `operator==` as by their fields. -/
theorem sourceEquals_iff {users : UserSources} (h : WellRegistered users)
    {v w : EventSourceWrapper} (hv : ∃ s, v = .orderSource s ∧ Known users s)
    (hw : ∃ s, w = .orderSource s ∧ Known users s) : sourceEquals v w = true ↔ v = w := by
  obtain ⟨s, rfl, hs⟩ := hv
  obtain ⟨t, rfl, ht⟩ := hw
  obtain ⟨hid, hsame⟩ := (lookupLaws_of_wellRegistered h).equal_iff s t hs ht
  rw [EventSourceWrapper.orderSource.injEq, ← hsame]
  exact hid

/-- Sets of such sources are equal for `operator==` when they are the same set. -/
theorem sameSources_iff {users : UserSources} (h : WellRegistered users)
    {A B : Finset EventSourceWrapper}
    (hknown : ∀ w ∈ A ∪ B, ∃ s, w = .orderSource s ∧ Known users s) :
    sameSources A B ↔ A = B := by
  constructor
  · rintro ⟨hcard, hfound⟩
    apply Finset.eq_of_subset_of_card_le _ hcard.ge
    intro v hv
    obtain ⟨w, hw, heq⟩ := hfound v hv
    have hsame := (sourceEquals_iff h (hknown v (Finset.mem_union_left B hv))
      (hknown w (Finset.mem_union_right A hw))).mp heq
    rwa [hsame]
  · rintro rfl
    refine ⟨rfl, fun v hv => ⟨v, hv, ?_⟩⟩
    have hv' := hknown v (Finset.mem_union_left A hv)
    exact (sourceEquals_iff h hv' hv').mpr rfl

/-- What is known of the sources of a list. -/
theorem sources_known {users users' : UserSources} (h : Registered users) {text : Text}
    (hblank : trimStr text ≠ []) {sources : Finset EventSourceWrapper}
    (hparse : parseEventSources users text = .ok (sources, users')) :
    Registered users' ∧ users <+: users' ∧
      sources.image EventSourceWrapper.name = (elements text).toFinset ∧
      ∀ w ∈ sources, ∃ s, w = .orderSource s ∧ Known users' s := by
  rcases parseEventSources_cases h hblank with ⟨list, after, hok, -, hres⟩ | ⟨herr, -⟩
  · cases hok.symm.trans hparse
    refine ⟨hres.registered, hres.kept, ?_, ?_⟩
    · rw [← hres.names_eq]
      ext name
      simp
    · exact fun w hw => hres.order_sources w (List.mem_toFinset.mp hw)
  · exact nomatch herr.symm.trans hparse

/-- The process ends for an element that is no source, and otherwise there is a result: the
sources of the elements, no two of which are equal. -/
theorem event_sources_of_names {users : UserSources} (h : Registered users) (text : Text)
    (hblank : trimStr text ≠ []) :
    (parseEventSources users text = .error .terminated ↔
      ∃ name ∈ elements text, ¬ Accepted name) ∧
    ((∃ out, parseEventSources users text = .ok out) ↔ ∀ name ∈ elements text, Accepted name) ∧
    ∀ sources users', parseEventSources users text = .ok (sources, users') →
      sources.image EventSourceWrapper.name = (elements text).toFinset ∧
      (∀ w ∈ sources, ∃ s, w = .orderSource s ∧ Known users' s) ∧
      ∀ v ∈ sources, ∀ w ∈ sources, sourceEquals v w = true → v = w := by
  have hresult : ∀ sources users', parseEventSources users text = .ok (sources, users') →
      sources.image EventSourceWrapper.name = (elements text).toFinset ∧
      (∀ w ∈ sources, ∃ s, w = .orderSource s ∧ Known users' s) ∧
      ∀ v ∈ sources, ∀ w ∈ sources, sourceEquals v w = true → v = w := by
    intro sources users' hsources
    obtain ⟨hlater, -, hnames, hknown⟩ := sources_known h hblank hsources
    refine ⟨hnames, hknown, fun v hv w hw => ?_⟩
    exact (sourceEquals_iff (wellRegistered hlater) (hknown v hv) (hknown w hw)).mp
  rcases parseEventSources_cases h hblank with ⟨list, after, hok, hall, -⟩ | ⟨herr, hbad⟩
  · refine ⟨?_, iff_of_true ⟨_, hok⟩ hall, hresult⟩
    rw [hok]
    exact iff_of_false (fun heq => nomatch heq) fun ⟨name, hname, hbad⟩ => hbad (hall name hname)
  · refine ⟨iff_of_true herr hbad, iff_of_false ?_ ?_, hresult⟩
    · rintro ⟨out, hout⟩
      exact nomatch herr.symm.trans hout
    · intro hall
      obtain ⟨name, hname, hnot⟩ := hbad
      exact hnot (hall name hname)

/-- A predefined source, one that is registered, and a name that is too long. -/
theorem sources_of_list :
    (parseEventSources [] "ntv, wxyz ,toolong".toList = .error .terminated ↔
      ∃ name ∈ elements "ntv, wxyz ,toolong".toList, ¬ Accepted name) ∧
    ((∃ out, parseEventSources [] "ntv, wxyz ,toolong".toList = .ok out) ↔
      ∀ name ∈ elements "ntv, wxyz ,toolong".toList, Accepted name) ∧
    ∀ sources users', parseEventSources [] "ntv, wxyz ,toolong".toList = .ok (sources, users') →
      sources.image EventSourceWrapper.name = (elements "ntv, wxyz ,toolong".toList).toFinset ∧
      (∀ w ∈ sources, ∃ s, w = .orderSource s ∧ Known users' s) ∧
      ∀ v ∈ sources, ∀ w ∈ sources, sourceEquals v w = true → v = w :=
  event_sources_of_names .empty "ntv, wxyz ,toolong".toList (by decide)

/-- What two lists give, the second read with whatever else was registered in between. -/
theorem same_sources_iff {users between : UserSources} (h : Registered users)
    (hbetween : Registered between) {first second : Text} (hfirst : trimStr first ≠ [])
    (hsecond : trimStr second ≠ []) {A B : Finset EventSourceWrapper} {users' users'' : UserSources}
    (hA : parseEventSources users first = .ok (A, users')) (hkept : users' <+: between)
    (hB : parseEventSources between second = .ok (B, users'')) :
    (sameSources A B ↔ (elements first).toFinset = (elements second).toFinset) ∧
      (A = B ↔ (elements first).toFinset = (elements second).toFinset) := by
  obtain ⟨-, -, hnamesA, hknownA⟩ := sources_known h hfirst hA
  obtain ⟨hlater, hgrown, hnamesB, hknownB⟩ := sources_known hbetween hsecond hB
  have hknown : ∀ w ∈ A ∪ B, ∃ s, w = .orderSource s ∧ Known users'' s := by
    intro w hw
    rcases Finset.mem_union.mp hw with hw | hw
    · obtain ⟨s, hs, hsk⟩ := hknownA w hw
      exact ⟨s, hs, hsk.imp_right ((hkept.trans hgrown).mem ·)⟩
    · exact hknownB w hw
  have hinj : Set.InjOn EventSourceWrapper.name ((A ∪ B : Finset EventSourceWrapper) : Set _) := by
    intro v hv w hw hname
    obtain ⟨s, rfl, hs⟩ := hknown v hv
    obtain ⟨t, rfl, ht⟩ := hknown w hw
    exact congrArg _ (known_of_name (wellRegistered hlater) hs ht hname)
  have hmem : ∀ C ⊆ A ∪ B, C ∈ ((A ∪ B).powerset : Set (Finset EventSourceWrapper)) :=
    fun C hC => Finset.mem_coe.mpr (Finset.mem_powerset.mpr hC)
  have hsame : A = B ↔ (elements first).toFinset = (elements second).toFinset := by
    rw [← hnamesA, ← hnamesB]
    exact ⟨fun heq => heq ▸ rfl, fun himage => Finset.image_injOn_powerset_of_injOn hinj
      (hmem A Finset.subset_union_left) (hmem B Finset.subset_union_right) himage⟩
  exact ⟨(sameSources_iff (wellRegistered hlater) hknown).trans hsame, hsame⟩

/-- The same names in another order, with an element that the second list repeats. -/
theorem same_sources_of_names :
    ∃ A B users' users'', parseEventSources [] "ntv, wxyz".toList = .ok (A, users') ∧
      parseEventSources users' "wxyz,ntv,,wxyz".toList = .ok (B, users'') ∧
      (sameSources A B ↔ (elements "ntv, wxyz".toList).toFinset =
        (elements "wxyz,ntv,,wxyz".toList).toFinset) ∧
      (A = B ↔ (elements "ntv, wxyz".toList).toFinset =
        (elements "wxyz,ntv,,wxyz".toList).toFinset) :=
  ⟨_, _, _, _, rfl, rfl, same_sources_iff .empty
    (.byName .empty (rfl : valueOfName [] "wxyz".toList = _)) (by decide) (by decide) rfl
    (List.prefix_refl _) rfl⟩

end SourceLists

end ListArguments
