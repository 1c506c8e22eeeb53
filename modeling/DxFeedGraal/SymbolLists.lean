import DxFeedGraal.SymbolWrappers
import Mathlib.Data.Finset.Image

/-! # Lists of symbols on the command line

A text is trimmed and parsed by the native library. One function makes a set of the elements,
one keeps their order; either turns a list that holds the wildcard into the wildcard alone. -/
namespace SymbolLists

open CppStrings CppNumbers NativeStrings SymbolWrappers

/-! ## The source -/

def trimmed (c : Char) : Bool := c ∈ [' ', '\t', Char.ofNat 11, '\r', '\n']

def trimStr (s : Text) : Text := ((s.dropWhile trimmed).reverse.dropWhile trimmed).reverse

/-- `dxfg_Tools_parseSymbols`. The library returns a list of strings or throws. -/
abbrev NativeParser := Text → Option (List CString)

namespace IsolatedTools

variable (native : NativeParser) (symbolList : Text)

def parseSymbols : Option (Finset Text) :=
  (native (chars symbolList)).map fun elements => (elements.map toString).toFinset

def parseSymbolsAndSaveOrder : Option (List Text) :=
  (native (chars symbolList)).map fun elements => elements.map toString

end IsolatedTools

def parseSymbols (native : NativeParser) (symbols : Text) : Option (Finset SymbolWrapper) :=
  let trimmedSymbols := trimStr symbols
  if trimmedSymbols = [] then some ∅
  else (IsolatedTools.parseSymbols native trimmedSymbols).map fun parsed =>
    if "*".toList ∈ parsed ∨ "all".toList ∈ parsed then {.wildcard .ALL}
    else parsed.image .string

def parseSymbolsAndSaveOrder (native : NativeParser) (symbols : Text) :
    Option (List SymbolWrapper) :=
  let trimmedSymbols := trimStr symbols
  if trimmedSymbols = [] then some []
  else (IsolatedTools.parseSymbolsAndSaveOrder native trimmedSymbols).map fun parsed =>
    if parsed.any fun symbol => symbol == "*".toList || iEquals symbol "all".toList then
      [.wildcard .ALL]
    else parsed.map .string

/-! ## Agreement -/

/-- The elements that both functions look at. -/
def elements (native : NativeParser) (symbols : Text) : List Text :=
  let trimmedSymbols := trimStr symbols
  if trimmedSymbols = [] then []
  else (IsolatedTools.parseSymbolsAndSaveOrder native trimmedSymbols).getD []

structure Agree (native : NativeParser) (symbols : Text) : Prop where
  accepted : (parseSymbols native symbols).isSome =
    (parseSymbolsAndSaveOrder native symbols).isSome
  same_symbols : ∀ set list, parseSymbols native symbols = some set →
    parseSymbolsAndSaveOrder native symbols = some list → list.toFinset = set
  in_order : ∀ list, parseSymbolsAndSaveOrder native symbols = some list →
    list = [.wildcard .ALL] ∨ list = (elements native symbols).map .string

/-- Only the ordered function takes the text for the wildcard. -/
def OtherCase (symbol : Text) : Prop :=
  iEquals symbol "all".toList = true ∧ symbol ≠ "all".toList

instance (symbol : Text) : Decidable (OtherCase symbol) := inferInstanceAs (Decidable (_ ∧ _))

/-- What makes the set function take a list for the wildcard. -/
def HasWildcard (parsed : List Text) : Prop := "*".toList ∈ parsed ∨ "all".toList ∈ parsed

instance (parsed : List Text) : Decidable (HasWildcard parsed) :=
  inferInstanceAs (Decidable (_ ∨ _))

/-- The set that is made of a list, and the list itself. -/
def symbolSet (parsed : List Text) : Finset SymbolWrapper :=
  if HasWildcard parsed then {.wildcard .ALL} else parsed.toFinset.image .string

def symbolList (parsed : List Text) : List SymbolWrapper :=
  if HasWildcard parsed ∨ ∃ symbol ∈ parsed, OtherCase symbol then [.wildcard .ALL]
  else parsed.map .string

theorem iEquals_self (s : Text) : iEquals s s = true := beq_self_eq_true _

theorem takes_wildcard_iff {parsed : List Text} :
    (parsed.any fun symbol => symbol == "*".toList || iEquals symbol "all".toList) = true ↔
      HasWildcard parsed ∨ ∃ symbol ∈ parsed, OtherCase symbol := by
  rw [List.any_eq_true]
  constructor
  · rintro ⟨symbol, hmem, htake⟩
    rcases Bool.or_eq_true_iff.mp htake with hstar | hall
    · exact Or.inl (Or.inl (beq_iff_eq.mp hstar ▸ hmem))
    · by_cases hsame : symbol = "all".toList
      · exact Or.inl (Or.inr (hsame ▸ hmem))
      · exact Or.inr ⟨symbol, hmem, hall, hsame⟩
  · rintro ((hstar | hall) | ⟨symbol, hmem, hcase, -⟩)
    · exact ⟨_, hstar, by rw [beq_self_eq_true, Bool.true_or]⟩
    · exact ⟨_, hall, by rw [iEquals_self, Bool.or_true]⟩
    · exact ⟨symbol, hmem, by rw [hcase, Bool.or_true]⟩

variable {native : NativeParser} {symbols : Text}

/-- Both functions read the elements of one list, or both fail. -/
theorem parse_cases (native : NativeParser) (symbols : Text) :
    (parseSymbols native symbols = none ∧ parseSymbolsAndSaveOrder native symbols = none ∧
      elements native symbols = []) ∨
    (parseSymbols native symbols = some (symbolSet (elements native symbols)) ∧
      parseSymbolsAndSaveOrder native symbols = some (symbolList (elements native symbols))) := by
  unfold parseSymbols parseSymbolsAndSaveOrder elements
  dsimp only
  split
  next => exact Or.inr ⟨rfl, rfl⟩
  next =>
    unfold IsolatedTools.parseSymbols IsolatedTools.parseSymbolsAndSaveOrder
    cases native (chars (trimStr symbols)) with
    | none => exact Or.inl ⟨rfl, rfl, rfl⟩
    | some list =>
      refine Or.inr ⟨?_, ?_⟩
      · have hwild := or_congr (List.mem_toFinset (l := list.map toString) (a := "*".toList))
          (List.mem_toFinset (l := list.map toString) (a := "all".toList))
        exact congrArg some (if_congr hwild rfl rfl)
      · simp only [Option.map_some, Option.getD_some, symbolList, takes_wildcard_iff]

theorem toFinset_symbolList_iff (parsed : List Text) :
    (symbolList parsed).toFinset = symbolSet parsed ↔
      ((∃ symbol ∈ parsed, OtherCase symbol) → HasWildcard parsed) := by
  unfold symbolList symbolSet
  by_cases hwild : HasWildcard parsed
  · rw [if_pos hwild, if_pos (Or.inl hwild)]
    exact iff_of_true rfl fun _ => hwild
  · rw [if_neg hwild]
    by_cases hother : ∃ symbol ∈ parsed, OtherCase symbol
    · rw [if_pos (Or.inr hother)]
      refine iff_of_false (fun heq => ?_) fun h => hwild (h hother)
      have hmem : SymbolWrapper.wildcard .ALL ∈ parsed.toFinset.image SymbolWrapper.string := by
        rw [← heq]
        exact List.mem_toFinset.mpr List.mem_cons_self
      simp at hmem
    · rw [if_neg (not_or.mpr ⟨hwild, hother⟩)]
      refine iff_of_true ?_ fun h => absurd h hother
      ext symbol
      simp

/-- The two functions agree on a text exactly when the wildcard is among its elements in one of
the two plain spellings or not at all. -/
theorem lists_agree_iff (native : NativeParser) (symbols : Text) :
    Agree native symbols ↔
      ((∃ symbol ∈ elements native symbols, OtherCase symbol) →
        HasWildcard (elements native symbols)) := by
  rcases parse_cases native symbols with ⟨hset, hlist, hnone⟩ | ⟨hset, hlist⟩
  · rw [hnone]
    refine iff_of_true ⟨by simp only [hset, hlist, Option.isSome_none], ?_, ?_⟩ ?_
    · intro set list h
      rw [hset] at h
      cases h
    · intro list h
      rw [hlist] at h
      cases h
    · rintro ⟨symbol, hmem, -⟩
      exact (List.not_mem_nil hmem).elim
  · rw [← toFinset_symbolList_iff]
    constructor
    · intro h
      exact h.same_symbols _ _ hset hlist
    · intro h
      refine ⟨by simp only [hset, hlist, Option.isSome_some], ?_, ?_⟩
      · intro set list hset' hlist'
        rw [hset] at hset'
        rw [hlist] at hlist'
        cases hset'
        cases hlist'
        exact h
      · intro list hlist'
        rw [hlist] at hlist'
        cases hlist'
        unfold symbolList
        split
        · exact Or.inl rfl
        · exact Or.inr rfl

/-- The word in capitals stays a plain symbol in the set and becomes the wildcard in the list. -/
theorem capitals_confused :
    let native : NativeParser := fun symbolList => some [some symbolList]
    parseSymbols native "ALL".toList = some {.string "ALL".toList} ∧
      parseSymbolsAndSaveOrder native "ALL".toList = some [.wildcard .ALL] ∧
      ¬ Agree native "ALL".toList := by
  refine ⟨by decide, by decide, fun h => ?_⟩
  have hsame := h.same_symbols {.string "ALL".toList} [.wildcard .ALL] (by decide) (by decide)
  exact absurd hsame (by decide)

end SymbolLists
