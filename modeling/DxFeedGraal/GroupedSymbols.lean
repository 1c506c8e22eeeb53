import DxFeedGraal.SymbolAttributes

/-! # Any symbol as a stack of braces

A text may end in several lists in braces. The operations see the last one only; when all
its attributes are removed the one before it comes to light. -/
namespace GroupedSymbols

open CppStrings MarketEventSymbols DelimitedTexts KeyedLists SymbolAttributes

/-- The text of one pair of braces. -/
structure Group where
  attributes : List Attribute
  rest : Option Text
  isListed : Listed attributes rest

def textOf (bare : Text) : List Group → Text
  | [] => bare
  | g :: gs => inBraces (textOf bare gs) (texts g.attributes g.rest)

/-- Groups stand in the order in which they come to light, the last of the text first. -/
structure GroupedSymbol where
  bare : Text
  groups : List Group
  bare_length : getLengthWithoutAttributesInternal bare = bare.length

def GroupedSymbol.text (s : GroupedSymbol) : Text := textOf s.bare s.groups

theorem length_textOf_cons (bare : Text) (g : Group) (gs : List Group) :
    getLengthWithoutAttributesInternal (textOf bare (g :: gs)) = (textOf bare gs).length :=
  g.isListed.length_without (textOf bare gs)

/-- The number of groups is determined by the text. -/
theorem depth_unique {bare bare' : Text}
    (hbare : getLengthWithoutAttributesInternal bare = bare.length)
    (hbare' : getLengthWithoutAttributesInternal bare' = bare'.length) {gs gs' : List Group}
    (h : textOf bare gs = textOf bare' gs') : gs.length = gs'.length := by
  induction gs generalizing gs' with
  | nil =>
    cases gs' with
    | nil => rfl
    | cons g' gs' =>
      have hlen := length_textOf_cons bare' g' gs'
      rw [← h] at hlen
      have hlt := length_inBraces (textOf bare' gs') (texts g'.attributes g'.rest)
      have heq : bare.length = (inBraces (textOf bare' gs') (texts g'.attributes g'.rest)).length :=
        congrArg List.length h
      change getLengthWithoutAttributesInternal bare = _ at hlen
      omega
  | cons g gs ih =>
    have hlen := length_textOf_cons bare g gs
    cases gs' with
    | nil =>
      rw [h] at hlen
      have hlt := length_inBraces (textOf bare gs) (texts g.attributes g.rest)
      have heq : (inBraces (textOf bare gs) (texts g.attributes g.rest)).length = bare'.length :=
        congrArg List.length h
      change getLengthWithoutAttributesInternal bare' = _ at hlen
      omega
    | cons g' gs' =>
      rw [h, length_textOf_cons] at hlen
      have hbelow : textOf bare gs = textOf bare' gs' := List.append_inj_left h hlen.symm
      simpa using ih hbelow

/-- Any text in front of the closing brace is cut into attributes and a rest. -/
theorem exists_cut (n : ℕ) : ∀ b : Text, b.length < n →
    ∃ attributes rest, listed (texts attributes rest) = b ++ [attributesClose] ∧
      (∀ t ∈ rest, attributeValue ∉ t) ∧ texts attributes rest ≠ [] := by
  induction n with
  | zero =>
    intro b hb
    omega
  | succ n ih =>
    intro b hb
    by_cases hvalue : attributeValue ∈ b
    · obtain ⟨key, w, rfl, hkey⟩ := List.eq_append_cons_of_mem hvalue
      by_cases hsep : attributesSeparator ∈ w
      · obtain ⟨value, b', rfl, hfree⟩ := List.eq_append_cons_of_mem hsep
        have hshort : b'.length < n := by
          simp at hb
          omega
        obtain ⟨attributes, rest, hlisted, hrest, hne⟩ := ih b' hshort
        refine ⟨⟨key, value, hkey, hfree⟩ :: attributes, rest, ?_, hrest, by simp⟩
        rw [texts_cons, listed, joined_cons, closer_of_ne _ _ hne]
        change _ ++ attributesSeparator :: listed (texts attributes rest) = _
        rw [hlisted]
        simp [Attribute.text, keyAndValue]
      · refine ⟨[⟨key, w, hkey, hsep⟩], none, ?_, by simp, by simp [texts]⟩
        simp [texts, Attribute.text, keyAndValue]
    · refine ⟨[], some b, ?_, ?_, by simp [texts]⟩
      · simp [texts]
      · intro t ht
        rwa [← Option.some.inj ht]

/-- A symbol whose attributes begin before its end, ends in braces with something in them. -/
theorem exists_braces {symbol : Text}
    (h : getLengthWithoutAttributesInternal symbol ≠ symbol.length) :
    ∃ before b, symbol = before ++ attributesOpen :: (b ++ [attributesClose]) ∧ b ≠ [] ∧
      attributesOpen ∉ b := by
  have hhas : hasAttributesInternal symbol = true := by
    by_contra hnot
    exact h (if_neg hnot)
  rw [hasAttributesInternal] at hhas
  split at hhas
  next hclosed =>
    split at hhas
    next p hlast =>
      obtain ⟨before, b, htake, hopen, rfl⟩ := findLastOf_eq_some hlast
      have hsub : symbol.length - 2 + 1 = symbol.length - 1 := by omega
      rw [hsub] at htake
      have hlen := congrArg List.length htake
      rw [List.length_take, List.length_append, List.length_cons] at hlen
      have hb : before.length < symbol.length - 2 := of_decide_eq_true hhas
      obtain ⟨c, hc⟩ : ∃ c, symbol.drop (symbol.length - 1) = [c] := by
        apply List.length_eq_one_iff.mp
        rw [List.length_drop]
        omega
      have hsplit : symbol = (before ++ attributesOpen :: b) ++ [c] := by
        rw [← htake, ← hc, List.take_append_drop]
      have hat : charAt symbol (symbol.length - 1) = c := by
        apply charAt_split hsplit
        simp
        omega
      obtain rfl : c = attributesClose := hat.symm.trans hclosed.2
      refine ⟨before, b, ?_, ?_, hopen⟩
      · rw [hsplit]
        simp
      · rintro rfl
        simp at hlen
        omega
    next => cases hhas
  next => cases hhas

theorem exists_grouped (n : ℕ) : ∀ symbol : Text, symbol.length < n →
    ∃ s : GroupedSymbol, s.text = symbol := by
  induction n with
  | zero =>
    intro symbol h
    omega
  | succ n ih =>
    intro symbol h
    by_cases hbare : getLengthWithoutAttributesInternal symbol = symbol.length
    · exact ⟨⟨symbol, [], hbare⟩, rfl⟩
    · obtain ⟨before, b, rfl, hne, hopen⟩ := exists_braces hbare
      obtain ⟨attributes, rest, hlisted, hrest, htexts⟩ :=
        exists_cut (b.length + 1) b (Nat.lt_succ_self _)
      have hshort : before.length < n := by
        simp at h
        omega
      obtain ⟨s, hs⟩ := ih before hshort
      have hfree : attributesOpen ∉ listed (texts attributes rest) := by
        have hclose : attributesOpen ≠ attributesClose := by decide
        rw [hlisted]
        simp [hopen, hclose]
      have hempty : texts attributes rest ≠ [[]] := by
        intro h0
        rw [h0] at hlisted
        have hlen := congrArg List.length hlisted
        simp at hlen
        exact hne hlen
      refine ⟨⟨s.bare, ⟨attributes, rest, ⟨hrest, hfree, htexts, hempty⟩⟩ :: s.groups,
        s.bare_length⟩, ?_⟩
      change inBraces (textOf s.bare s.groups) (texts attributes rest) = _
      rw [show textOf s.bare s.groups = before from hs, inBraces, hlisted]

/-- Every text is a bare symbol followed by groups. -/
theorem every_text_grouped (symbol : Text) : ∃ s : GroupedSymbol, s.text = symbol :=
  exists_grouped (symbol.length + 1) symbol (Nat.lt_succ_self _)

end GroupedSymbols
