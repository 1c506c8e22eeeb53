import DxFeedGraal.GroupedSymbols

/-! # Normalising passes over a symbol

A pass reads the text of one attribute and leaves it, removes it or prints it anew. A pass
touches its own attribute only, until it empties the last braces and the ones before them
come to light. -/
namespace NormalisingPasses

open CppStrings MarketEventSymbols DelimitedTexts KeyedLists SymbolAttributes GroupedSymbols

/-- What is printed for a text, and nothing for a default value. -/
structure Pass where
  key : Text
  reprint : Text → Cpp (Option Text)
  key_free : attributeValue ∉ key
  key_open : attributesOpen ∉ key
  clean : ∀ v t, reprint v = .ok (some t) → attributesSeparator ∉ t ∧ attributesOpen ∉ t

namespace Pass

variable (p : Pass)

/-- An invalid argument leaves the text as it is. -/
def outcome (v : Text) : Cpp (Option Text) :=
  match p.reprint v with
  | .ok r => .ok r
  | .error (.invalidArgument _) => .ok (some v)
  | .error e => .error e

def apply (symbol : Text) : Cpp Text := do
  match ← getAttributeStringByKey symbol p.key with
  | none => return symbol
  | some v =>
    match p.outcome v with
    | .ok none => removeAttributeStringByKey symbol p.key
    | .ok (some t) => if v = t then return symbol else changeAttributeStringByKey symbol p.key t
    | .error e => .error e

theorem outcome_eq_none {v : Text} : p.outcome v = .ok none ↔ p.reprint v = .ok none := by
  rw [outcome]
  cases p.reprint v with
  | ok r => simp
  | error e => cases e <;> simp

theorem outcome_of_ok {v : Text} {r : Option Text} (h : p.reprint v = .ok r) :
    p.outcome v = .ok r := by
  rw [outcome, h]

theorem outcome_clean {v t : Text} (h : p.outcome v = .ok (some t)) (hne : v ≠ t) :
    attributesSeparator ∉ t ∧ attributesOpen ∉ t := by
  apply p.clean v t
  rw [outcome] at h
  cases hr : p.reprint v with
  | ok r => simpa [hr] using h
  | error e =>
    cases e with
    | invalidArgument m => simp [hr, hne] at h
    | outOfRange => simp [hr] at h
    | terminated => simp [hr] at h
    | unfinished => simp [hr] at h

/-- The pass on the attributes alone. -/
def step (attributes : List Attribute) : Cpp (List Attribute) :=
  match valueAt p.key attributes with
  | none => .ok attributes
  | some v =>
    match h : p.outcome v with
    | .ok none => .ok (without Attribute.key p.key attributes)
    | .ok (some t) =>
      if hne : v = t then .ok attributes
      else .ok (write Attribute.key ⟨p.key, t, p.key_free, (p.outcome_clean h hne).1⟩ attributes)
    | .error e => .error e

variable {p} {attributes : List Attribute} {v : Text}

theorem step_absent (h : valueAt p.key attributes = none) : p.step attributes = .ok attributes := by
  simp [step, h]

theorem step_default (h : valueAt p.key attributes = some v) (ho : p.outcome v = .ok none) :
    p.step attributes = .ok (without Attribute.key p.key attributes) := by
  simp only [step, h]
  split
  next => rfl
  next hc => simp [ho] at hc
  next hc => simp [ho] at hc

theorem step_same (h : valueAt p.key attributes = some v) (ho : p.outcome v = .ok (some v)) :
    p.step attributes = .ok attributes := by
  simp only [step, h]
  split
  next hc => simp [ho] at hc
  next t hc =>
    rw [ho] at hc
    cases hc
    simp
  next hc => simp [ho] at hc

theorem step_new {t : Text} (h : valueAt p.key attributes = some v)
    (ho : p.outcome v = .ok (some t)) (hne : v ≠ t) :
    ∃ a : Attribute, a.key = p.key ∧ a.value = t ∧
      p.step attributes = .ok (write Attribute.key a attributes) := by
  refine ⟨⟨p.key, t, p.key_free, (p.outcome_clean ho hne).1⟩, rfl, rfl, ?_⟩
  simp only [step, h]
  split
  next hc => simp [ho] at hc
  next u hc =>
    rw [ho] at hc
    cases hc
    rw [dif_neg hne]
  next hc => simp [ho] at hc

theorem step_error {e : Failure} (h : valueAt p.key attributes = some v)
    (ho : p.outcome v = .error e) :
    p.step attributes = .error e := by
  simp only [step, h]
  split
  next hc => simp [ho] at hc
  next hc => simp [ho] at hc
  next f hc =>
    rw [ho] at hc
    cases hc
    rfl

end Pass

/-- What the braces hold may be empty. -/
structure Sound (attributes : List Attribute) (rest : Option Text) : Prop where
  rest_free : ∀ t ∈ rest, attributeValue ∉ t
  open_free : ∀ t ∈ texts attributes rest, attributesOpen ∉ t

section OnePass

variable {p : Pass} {attributes : List Attribute} {rest : Option Text}

theorem Sound.isListed (h : Sound attributes rest) (hne : texts attributes rest ≠ [])
    (hempty : texts attributes rest ≠ [[]]) : Listed attributes rest where
  rest_free := h.rest_free
  open_free := by
    intro hmem
    rcases mem_joined _ _ hmem with hsep | hclose | ⟨t, ht, hc⟩
    · exact absurd hsep (by decide)
    · exact absurd hclose (by decide)
    · exact h.open_free t ht hc
  ne_nil := hne
  ne_empty := hempty

theorem sound_of_listed (h : Listed attributes rest) : Sound attributes rest where
  rest_free := h.rest_free
  open_free := fun _ ht hc => h.open_free (mem_joined_of_mem _ _ ht hc)

theorem Sound.without (h : Sound attributes rest) (key : Text) :
    Sound (KeyedLists.without Attribute.key key attributes) rest where
  rest_free := h.rest_free
  open_free := by
    intro t ht
    apply h.open_free t
    rcases List.mem_append.mp ht with hmem | hmem
    · obtain ⟨a, ha, rfl⟩ := List.mem_map.mp hmem
      exact List.mem_append_left _ (List.mem_map_of_mem (mem_without.mp ha).1)
    · exact List.mem_append_right _ hmem

theorem Sound.write (h : Sound attributes rest) {new : Attribute} (hkey : attributesOpen ∉ new.key)
    (hvalue : attributesOpen ∉ new.value) :
    Sound (KeyedLists.write Attribute.key new attributes) rest where
  rest_free := h.rest_free
  open_free := by
    intro t ht
    rcases List.mem_append.mp ht with hmem | hmem
    · obtain ⟨a, ha, rfl⟩ := List.mem_map.mp hmem
      rcases mem_write ha with rfl | hold
      · have hne : attributesOpen ≠ attributeValue := by decide
        simp [Attribute.text, keyAndValue, hkey, hvalue, hne]
      · exact h.open_free _ (List.mem_append_left _ (List.mem_map_of_mem (mem_without.mp hold).1))
    · exact h.open_free t (List.mem_append_right _ hmem)

/-- Braces with nothing in them belong to the base of a symbol. -/
theorem length_empty_braces (before : Text) :
    getLengthWithoutAttributesInternal (inBraces before [[]]) = (inBraces before [[]]).length := by
  have hhas : ¬ hasAttributesInternal (inBraces before [[]]) = true := by
    have hsplit : inBraces before [[]] = before ++ [attributesOpen, attributesClose] := rfl
    have hlen : (inBraces before [[]]).length = before.length + 2 := by simp [hsplit]
    have hlast : findLastOf attributesOpen (inBraces before [[]])
        ((inBraces before [[]]).length - 2) = some before.length := by
      apply findLastOf_of_take (w := []) _ List.not_mem_nil
      rw [hlen, hsplit, List.append_cons]
      exact List.take_left' (by simp)
    rw [hasAttributesInternal]
    split
    next =>
      rw [hlast, hlen]
      simp
    next => simp
  rw [getLengthWithoutAttributesInternal, if_neg hhas]

theorem empty_texts (h : texts attributes rest = [[]]) : attributes = [] := by
  cases attributes with
  | nil => rfl
  | cons a as => simp [texts, Attribute.text, keyAndValue] at h

theorem getAttribute_inBraces (h : Sound attributes rest) (hne : texts attributes rest ≠ [])
    (before key : Text) :
    getAttributeStringByKey (inBraces before (texts attributes rest)) key
      = .ok (valueAt key attributes) := by
  by_cases hempty : texts attributes rest = [[]]
  · rw [hempty, getAttributeStringByKey_bare (length_empty_braces before), empty_texts hempty]
    rfl
  · exact (h.isListed hne hempty).getAttributeStringByKey before key

/-- On a symbol the pass does what it does on the attributes of its last braces. -/
theorem apply_inBraces (h : Sound attributes rest) (hne : texts attributes rest ≠ [])
    (before : Text) :
    p.apply (inBraces before (texts attributes rest))
      = (p.step attributes).map fun as => braced before (texts as rest) := by
  have hget := getAttribute_inBraces h hne before p.key
  rw [Pass.apply, hget, ok_bind]
  cases hv : valueAt p.key attributes with
  | none =>
    rw [Pass.step_absent hv, Except.map, braced_of_ne before hne]
    rfl
  | some v =>
    have hattributes : attributes ≠ [] := by
      rintro rfl
      simp at hv
    have hlisted := h.isListed hne (fun hempty => hattributes (empty_texts hempty))
    cases ho : p.outcome v with
    | error e =>
      rw [Pass.step_error hv ho]
      simp [ho, Except.map]
    | ok r =>
      cases r with
      | none =>
        rw [Pass.step_default hv ho]
        simp [ho, Except.map, hlisted.removeAttributeStringByKey before]
      | some t =>
        by_cases hsame : v = t
        · subst hsame
          rw [Pass.step_same hv ho, Except.map, braced_of_ne before hne]
          simp [ho]
          rfl
        · obtain ⟨a, hkey, hvalue, hstep⟩ := Pass.step_new hv ho hsame
          have hchange := hlisted.changeAttributeStringByKey before hattributes a
          have hwritten : texts (KeyedLists.write Attribute.key a attributes) rest ≠ [] := by
            simp [texts, write_ne_nil]
          rw [hkey, hvalue] at hchange
          rw [hstep, Except.map, braced_of_ne before hwritten]
          simp [ho, hsame, hchange]

/-- What a step that is defined has done. -/
theorem step_cases {as : List Attribute} (hs : p.step attributes = .ok as) :
    (valueAt p.key attributes = none ∧ as = attributes) ∨
      ∃ v, valueAt p.key attributes = some v ∧
        ((p.outcome v = .ok none ∧ as = KeyedLists.without Attribute.key p.key attributes) ∨
          (p.outcome v = .ok (some v) ∧ as = attributes) ∨
          ∃ a : Attribute, a.key = p.key ∧ v ≠ a.value ∧ p.outcome v = .ok (some a.value) ∧
            as = KeyedLists.write Attribute.key a attributes) := by
  cases hv : valueAt p.key attributes with
  | none =>
    rw [Pass.step_absent hv] at hs
    exact Or.inl ⟨rfl, (Except.ok.inj hs).symm⟩
  | some v =>
    refine Or.inr ⟨v, rfl, ?_⟩
    cases ho : p.outcome v with
    | error e =>
      rw [Pass.step_error hv ho] at hs
      cases hs
    | ok r =>
      cases r with
      | none =>
        rw [Pass.step_default hv ho] at hs
        exact Or.inl ⟨rfl, (Except.ok.inj hs).symm⟩
      | some t =>
        by_cases hsame : v = t
        · subst hsame
          rw [Pass.step_same hv ho] at hs
          exact Or.inr (Or.inl ⟨rfl, (Except.ok.inj hs).symm⟩)
        · obtain ⟨a, hkey, rfl, hstep⟩ := Pass.step_new hv ho hsame
          rw [hstep] at hs
          exact Or.inr (Or.inr ⟨a, hkey, hsame, rfl, (Except.ok.inj hs).symm⟩)

theorem Sound.step (h : Sound attributes rest) {as : List Attribute}
    (hs : p.step attributes = .ok as) : Sound as rest := by
  rcases step_cases hs with ⟨-, rfl⟩ | ⟨v, -, ⟨-, rfl⟩ | ⟨-, rfl⟩ | ⟨a, hkey, hne, ho, rfl⟩⟩
  · exact h
  · exact h.without p.key
  · exact h
  · apply h.write
    · rw [hkey]
      exact p.key_open
    · exact (p.outcome_clean ho hne).2

/-- A step that is defined gives its own attribute the outcome and keeps the others. -/
theorem valueAt_step {as : List Attribute} (hs : p.step attributes = .ok as) :
    (valueAt p.key attributes = none → valueAt p.key as = none) ∧
      (∀ v, valueAt p.key attributes = some v → p.outcome v = .ok (valueAt p.key as)) ∧
      ∀ key, key ≠ p.key → valueAt key as = valueAt key attributes := by
  rcases step_cases hs with ⟨hv, rfl⟩ | ⟨v, hv, ⟨ho, rfl⟩ | ⟨ho, rfl⟩ | ⟨a, hkey, -, ho, rfl⟩⟩
  · exact ⟨fun _ => hv, by simp [hv], fun _ _ => rfl⟩
  · refine ⟨by simp [hv], ?_, fun key hother => valueAt_without hother attributes⟩
    intro w hw
    obtain rfl : v = w := Option.some.inj (hv.symm.trans hw)
    rw [valueAt_without_self, ho]
  · refine ⟨by simp [hv], ?_, fun _ _ => rfl⟩
    intro w hw
    obtain rfl : v = w := Option.some.inj (hv.symm.trans hw)
    rw [hv, ho]
  · refine ⟨by simp [hv], ?_, ?_⟩
    · intro w hw
      obtain rfl : v = w := Option.some.inj (hv.symm.trans hw)
      rw [valueAt_write, if_pos hkey, ho]
    · intro key hother
      rw [valueAt_write, if_neg (fun heq => hother (heq.symm.trans hkey))]

theorem step_defined (h : ∀ v, valueAt p.key attributes = some v → ∃ r, p.outcome v = .ok r) :
    ∃ as, p.step attributes = .ok as := by
  cases hv : valueAt p.key attributes with
  | none => exact ⟨_, Pass.step_absent hv⟩
  | some v =>
    obtain ⟨r, ho⟩ := h v hv
    cases r with
    | none => exact ⟨_, Pass.step_default hv ho⟩
    | some t =>
      by_cases hsame : v = t
      · subst hsame
        exact ⟨_, Pass.step_same hv ho⟩
      · obtain ⟨a, -, -, hstep⟩ := Pass.step_new hv ho hsame
        exact ⟨_, hstep⟩

end OnePass

section Runs

def runPasses : List Pass → Text → Cpp Text
  | [], symbol => .ok symbol
  | p :: ps, symbol => p.apply symbol >>= runPasses ps

def runSteps : List Pass → List Attribute → Cpp (List Attribute)
  | [], attributes => .ok attributes
  | p :: ps, attributes => p.step attributes >>= runSteps ps

variable {rest : Option Text}

theorem runSteps_nil (ps : List Pass) : runSteps ps [] = .ok [] := by
  induction ps with
  | nil => rfl
  | cons p ps ih => rw [runSteps, Pass.step_absent (valueAt_nil p.key), ok_bind, ih]

theorem runPasses_bare {symbol : Text}
    (h : getLengthWithoutAttributesInternal symbol = symbol.length) (ps : List Pass) :
    runPasses ps symbol = .ok symbol := by
  induction ps with
  | nil => rfl
  | cons p ps ih =>
    have happly : p.apply symbol = .ok symbol := by
      rw [Pass.apply, getAttributeStringByKey_bare h]
      rfl
    rw [runPasses, happly, ok_bind, ih]

theorem Sound.runSteps {ps : List Pass} {attributes as : List Attribute} (h : Sound attributes rest)
    (hs : runSteps ps attributes = .ok as) : Sound as rest := by
  induction ps generalizing attributes with
  | nil =>
    cases hs
    exact h
  | cons p ps ih =>
    obtain ⟨as₁, hs₁, hs₂⟩ := bind_eq_ok.mp hs
    exact ih (h.step hs₁) hs₂

/-- While the braces are not emptied the passes work on their attributes. -/
theorem runPasses_kept (before : Text) (ps : List Pass) {attributes : List Attribute}
    (h : Sound attributes rest) (hne : texts attributes rest ≠ [])
    (hkept : ∀ as, runSteps ps attributes = .ok as → texts as rest ≠ []) :
    runPasses ps (inBraces before (texts attributes rest))
      = (runSteps ps attributes).map fun as => inBraces before (texts as rest) := by
  induction ps generalizing attributes with
  | nil => rfl
  | cons p ps ih =>
    rw [runPasses, apply_inBraces h hne, runSteps]
    rw [runSteps] at hkept
    cases hs : p.step attributes with
    | error e => rfl
    | ok as =>
      have hne' : texts as rest ≠ [] := by
        intro hempty
        have has : as = [] := (by simpa [texts] using hempty : as = [] ∧ rest = none).1
        rw [hs, ok_bind, has, runSteps_nil] at hkept
        exact hkept [] rfl (has ▸ hempty)
      rw [hs, ok_bind] at hkept
      simp only [Except.map, ok_bind, braced_of_ne before hne']
      exact ih (h.step hs) hne' hkept

/-- The outcome of the passes on every attribute, each pass having its own key. -/
theorem valueAt_runSteps {ps : List Pass} (hkeys : (ps.map Pass.key).Nodup)
    {attributes as : List Attribute} (hs : runSteps ps attributes = .ok as) :
    (∀ key, valueAt key attributes = none → valueAt key as = none) ∧
      (∀ p ∈ ps, ∀ v, valueAt p.key attributes = some v → p.outcome v = .ok (valueAt p.key as)) ∧
      ∀ key, key ∉ ps.map Pass.key → valueAt key as = valueAt key attributes := by
  induction ps generalizing attributes with
  | nil =>
    cases hs
    exact ⟨fun _ h => h, by simp, fun _ _ => rfl⟩
  | cons q ps ih =>
    obtain ⟨as₁, hs₁, hs₂⟩ := bind_eq_ok.mp hs
    rw [List.map_cons, List.nodup_cons] at hkeys
    obtain ⟨habsent, hown, hother⟩ := valueAt_step hs₁
    obtain ⟨ihabsent, ihown, ihother⟩ := ih hkeys.2 hs₂
    refine ⟨?_, ?_, ?_⟩
    · intro key hkey
      apply ihabsent
      by_cases heq : key = q.key
      · subst heq
        exact habsent hkey
      · rw [hother key heq, hkey]
    · intro p hp v hv
      rcases List.mem_cons.mp hp with rfl | hmem
      · rw [ihother _ hkeys.1]
        exact hown v hv
      · have hne : p.key ≠ q.key := by
          intro heq
          exact hkeys.1 (heq ▸ List.mem_map_of_mem hmem)
        exact ihown p hmem v (by rw [hother _ hne, hv])
    · intro key hkey
      rw [List.map_cons, List.mem_cons, not_or] at hkey
      rw [ihother key hkey.2, hother key hkey.1]

theorem runSteps_defined {ps : List Pass} (hkeys : (ps.map Pass.key).Nodup)
    {attributes : List Attribute}
    (h : ∀ p ∈ ps, ∀ v, valueAt p.key attributes = some v → ∃ r, p.outcome v = .ok r) :
    ∃ as, runSteps ps attributes = .ok as := by
  induction ps generalizing attributes with
  | nil => exact ⟨attributes, rfl⟩
  | cons q ps ih =>
    rw [List.map_cons, List.nodup_cons] at hkeys
    obtain ⟨as₁, hs₁⟩ := step_defined (h q List.mem_cons_self)
    obtain ⟨-, -, hother⟩ := valueAt_step hs₁
    have hrest : ∀ p ∈ ps, ∀ v, valueAt p.key as₁ = some v → ∃ r, p.outcome v = .ok r := by
      intro p hp v hv
      have hne : p.key ≠ q.key := by
        intro heq
        exact hkeys.1 (heq ▸ List.mem_map_of_mem hp)
      exact h p (List.mem_cons_of_mem q hp) v (by rw [← hother _ hne, hv])
    obtain ⟨as, hs⟩ := ih hkeys.2 hrest
    exact ⟨as, by rw [runSteps, hs₁, ok_bind, hs]⟩

end Runs

section Surface

def Pass.isDefault (p : Pass) (v : Text) : Bool :=
  match p.reprint v with
  | .ok none => true
  | _ => false

/-- Every attribute is of a kind that the passes read, and its kind has a default value. -/
def vanishes (ps : List Pass) (attributes : List Attribute) : Bool :=
  attributes.all fun a => ps.any fun p =>
    decide (p.key = a.key) && (valueAt a.key attributes).any p.isDefault

/-- The passes after the last one that reads an attribute of the list. -/
def later (attributes : List Attribute) : List Pass → List Pass
  | [] => []
  | p :: ps =>
    if ps.any fun q => (valueAt q.key attributes).isSome then later attributes ps
    else if (valueAt p.key attributes).isSome then ps
    else p :: ps

/-- The braces that the passes do not empty, and the passes still to come when they come
to light. -/
def surface : List Pass → List Group → List Pass × List Group
  | ps, [] => (ps, [])
  | ps, g :: gs =>
    if g.rest = none ∧ vanishes ps g.attributes = true then surface (later g.attributes ps) gs
    else (ps, g :: gs)

theorem Pass.isDefault_iff {p : Pass} {v : Text} :
    p.isDefault v = true ↔ p.reprint v = .ok none := by
  rw [Pass.isDefault]
  split
  next h => simp [h]
  next h => simpa using h

theorem vanishes_iff {ps : List Pass} {attributes : List Attribute} :
    vanishes ps attributes = true ↔
      ∀ key v, valueAt key attributes = some v →
        ∃ p ∈ ps, p.key = key ∧ p.reprint v = .ok none := by
  simp only [vanishes, List.all_eq_true, List.any_eq_true, Bool.and_eq_true, decide_eq_true_eq]
  constructor
  · intro h key v hv
    obtain ⟨a, ha, rfl⟩ : ∃ a ∈ attributes, a.key = key := by
      by_contra hnot
      have hnone : valueAt key attributes = none :=
        valueAt_eq_none.mpr fun a ha heq => hnot ⟨a, ha, heq⟩
      rw [hnone] at hv
      cases hv
    obtain ⟨p, hp, hkey, hdefault⟩ := h a ha
    rw [hv, Option.any_some] at hdefault
    exact ⟨p, hp, hkey, Pass.isDefault_iff.mp hdefault⟩
  · intro h a ha
    cases hv : valueAt a.key attributes with
    | none => exact absurd rfl (valueAt_eq_none.mp hv a ha)
    | some v =>
      obtain ⟨p, hp, hkey, hreprint⟩ := h a.key v hv
      exact ⟨p, hp, hkey, Pass.isDefault_iff.mpr hreprint⟩

theorem later_sublist (attributes : List Attribute) (ps : List Pass) :
    (later attributes ps).Sublist ps := by
  induction ps with
  | nil => exact List.Sublist.slnil
  | cons p ps ih =>
    rw [later]
    split
    · exact ih.cons p
    · split
      · exact List.sublist_cons_self p ps
      · exact List.Sublist.refl _

theorem later_congr {as bs : List Attribute} {ps : List Pass}
    (h : ∀ p ∈ ps, valueAt p.key as = valueAt p.key bs) : later as ps = later bs ps := by
  induction ps with
  | nil => rfl
  | cons p ps ih =>
    have htail : ∀ q ∈ ps, valueAt q.key as = valueAt q.key bs :=
      fun q hq => h q (List.mem_cons_of_mem p hq)
    have hany : (ps.any fun q => (valueAt q.key as).isSome)
        = ps.any fun q => (valueAt q.key bs).isSome := by
      rw [Bool.eq_iff_iff]
      simp only [List.any_eq_true]
      constructor
      · rintro ⟨q, hq, hsome⟩
        exact ⟨q, hq, htail q hq ▸ hsome⟩
      · rintro ⟨q, hq, hsome⟩
        exact ⟨q, hq, (htail q hq).symm ▸ hsome⟩
    rw [later, later, hany, h p List.mem_cons_self, ih htail]

theorem later_cons_of_used {attributes : List Attribute} {p : Pass} {ps : List Pass}
    (h : ∃ q ∈ ps, (valueAt q.key attributes).isSome = true) :
    later attributes (p :: ps) = later attributes ps := by
  rw [later, if_pos (List.any_eq_true.mpr h)]

/-- Every value is a default of the pass that reads it. -/
def AllDefault (ps : List Pass) (attributes : List Attribute) : Prop :=
  ∀ key v, valueAt key attributes = some v → ∃ p ∈ ps, p.key = key ∧ p.reprint v = .ok none

/-- What the first pass does not read is left to the others. -/
theorem AllDefault.tail {p : Pass} {ps : List Pass} {attributes kept : List Attribute}
    (h : AllDefault (p :: ps) attributes)
    (hkept : ∀ key v, valueAt key kept = some v → key ≠ p.key ∧ valueAt key attributes = some v) :
    AllDefault ps kept := by
  intro key v hv
  obtain ⟨hne, hv⟩ := hkept key v hv
  obtain ⟨q, hq, rfl, hreprint⟩ := h key v hv
  rcases List.mem_cons.mp hq with rfl | hmem
  · exact absurd rfl hne
  · exact ⟨q, hmem, rfl, hreprint⟩

theorem AllDefault.exists_used {ps : List Pass} {attributes : List Attribute}
    (h : AllDefault ps attributes) (hne : attributes ≠ []) :
    ∃ q ∈ ps, (valueAt q.key attributes).isSome = true := by
  obtain ⟨key, v, hkey⟩ := exists_valueAt hne
  obtain ⟨q, hq, rfl, -⟩ := h key v hkey
  exact ⟨q, hq, by rw [hkey]; rfl⟩

theorem AllDefault.of_absent {p : Pass} {ps : List Pass} {attributes : List Attribute}
    (h : AllDefault (p :: ps) attributes) (hval : valueAt p.key attributes = none) :
    AllDefault ps attributes := by
  apply h.tail
  rintro key v hkey
  refine ⟨fun heq => ?_, hkey⟩
  rw [heq, hval] at hkey
  cases hkey

theorem AllDefault.without {p : Pass} {ps : List Pass} {attributes : List Attribute}
    (h : AllDefault (p :: ps) attributes) :
    AllDefault ps (without Attribute.key p.key attributes) := by
  apply h.tail
  intro key v hkey
  have hne : key ≠ p.key := by
    rintro rfl
    rw [valueAt_without_self] at hkey
    cases hkey
  rw [valueAt_without hne] at hkey
  exact ⟨hne, hkey⟩

/-- The pass that empties the braces is the last one used. -/
theorem later_of_emptied {p : Pass} {ps : List Pass} {attributes : List Attribute} {v : Text}
    (hval : valueAt p.key attributes = some v) (hother : ∀ q ∈ ps, q.key ≠ p.key)
    (hempty : without Attribute.key p.key attributes = []) :
    later attributes (p :: ps) = ps := by
  have hunused : ¬ ps.any (fun q => (valueAt q.key attributes).isSome) = true := by
    rw [List.any_eq_true]
    rintro ⟨q, hq, hsome⟩
    rw [← valueAt_without (hother q hq) attributes, hempty] at hsome
    cases hsome
  rw [later, if_neg hunused, if_pos (by rw [hval]; rfl)]

/-- The passes that empty the last braces are spent, and the others go on below. -/
theorem runPasses_vanishing (before : Text) {ps : List Pass} (hkeys : (ps.map Pass.key).Nodup)
    {attributes : List Attribute} (h : Sound attributes none) (hne : attributes ≠ [])
    (hv : AllDefault ps attributes) :
    runPasses ps (inBraces before (texts attributes none))
      = runPasses (later attributes ps) before := by
  induction ps generalizing attributes with
  | nil =>
    obtain ⟨p, hp, -⟩ := hv.exists_used hne
    cases hp
  | cons p ps ih =>
    have htexts : texts attributes none ≠ [] := by simpa [texts] using hne
    rw [List.map_cons, List.nodup_cons] at hkeys
    have hother : ∀ q ∈ ps, q.key ≠ p.key := by
      intro q hq heq
      exact hkeys.1 (heq ▸ List.mem_map_of_mem hq)
    rw [runPasses, apply_inBraces h htexts]
    cases hval : valueAt p.key attributes with
    | none =>
      have htail := hv.of_absent hval
      rw [Pass.step_absent hval, later_cons_of_used (htail.exists_used hne)]
      simp only [Except.map, ok_bind, braced_of_ne before htexts]
      exact ih hkeys.2 h hne htail
    | some v =>
      have hreprint : p.reprint v = .ok none := by
        obtain ⟨q, hq, hkey, hreprint⟩ := hv p.key v hval
        rcases List.mem_cons.mp hq with rfl | hmem
        · exact hreprint
        · exact absurd hkey (hother q hmem)
      rw [Pass.step_default hval (p.outcome_eq_none.mpr hreprint)]
      by_cases hempty : without Attribute.key p.key attributes = []
      · rw [later_of_emptied hval hother hempty, hempty]
        rfl
      · have hkept : ∀ q ∈ ps, valueAt q.key (without Attribute.key p.key attributes)
            = valueAt q.key attributes := fun q hq => valueAt_without (hother q hq) attributes
        obtain ⟨q, hq, hused⟩ := hv.without.exists_used hempty
        rw [hkept q hq] at hused
        have htexts' : texts (without Attribute.key p.key attributes) none ≠ [] := by
          simpa [texts] using hempty
        rw [later_cons_of_used ⟨q, hq, hused⟩, ← later_congr hkept]
        simp only [Except.map, ok_bind, braced_of_ne before htexts']
        exact ih hkeys.2 (h.without p.key) hempty hv.without

/-- Braces that do not vanish keep something in them. -/
theorem texts_ne_nil_of_not_vanishing {ps : List Pass} (hkeys : (ps.map Pass.key).Nodup)
    {attributes as : List Attribute} {rest : Option Text}
    (h : ¬ (rest = none ∧ vanishes ps attributes = true)) (hs : runSteps ps attributes = .ok as) :
    texts as rest ≠ [] := by
  intro hempty
  obtain ⟨rfl, rfl⟩ : as = [] ∧ rest = none := by simpa [texts] using hempty
  refine h ⟨rfl, vanishes_iff.mpr ?_⟩
  intro key v hv
  obtain ⟨-, hown, hother⟩ := valueAt_runSteps hkeys hs
  by_cases hkey : key ∈ ps.map Pass.key
  · obtain ⟨p, hp, rfl⟩ := List.mem_map.mp hkey
    exact ⟨p, hp, rfl, p.outcome_eq_none.mp (hown p hp v hv)⟩
  · have hkept := hother key hkey
    rw [hv, valueAt_nil] at hkept
    cases hkept

/-- Braces that vanish leave what is below them to the later passes. -/
theorem runPasses_vanishing_top (bare : Text) {ps : List Pass} (hkeys : (ps.map Pass.key).Nodup)
    {top : Group} (h : top.rest = none ∧ vanishes ps top.attributes = true) (gs : List Group) :
    runPasses ps (textOf bare (top :: gs))
      = runPasses (later top.attributes ps) (textOf bare gs) := by
  obtain ⟨hrest, hdefault⟩ := h
  have hattributes : top.attributes ≠ [] := by
    intro hnil
    exact top.isListed.ne_nil (by simp [texts, hnil, hrest])
  have hsound := sound_of_listed top.isListed
  rw [hrest] at hsound
  rw [textOf, hrest]
  exact runPasses_vanishing _ hkeys hsound hattributes (vanishes_iff.mp hdefault)

/-- The passes work on the braces that come to light and on nothing below them. -/
theorem runPasses_surface (bare : Text) {ps : List Pass} (hkeys : (ps.map Pass.key).Nodup)
    {gs below : List Group} {qs : List Pass} {g : Group} (h : surface ps gs = (qs, g :: below)) :
    runPasses ps (textOf bare gs)
        = (runSteps qs g.attributes).map (fun as =>
          inBraces (textOf bare below) (texts as g.rest)) ∧
      (∀ as, runSteps qs g.attributes = .ok as → texts as g.rest ≠ []) ∧
      qs.Sublist ps ∧ below.length < gs.length := by
  induction gs generalizing ps with
  | nil => simp [surface] at h
  | cons top gs ih =>
    rw [surface] at h
    split at h
    next hvanish =>
      have hsub := later_sublist top.attributes ps
      obtain ⟨hrun, hne, hqs, hlen⟩ := ih (hkeys.sublist (hsub.map Pass.key)) h
      refine ⟨?_, hne, hqs.trans hsub, Nat.lt_succ_of_lt hlen⟩
      exact (runPasses_vanishing_top bare hkeys hvanish gs).trans hrun
    next hkept =>
      cases h
      have hne : ∀ as, runSteps qs g.attributes = .ok as → texts as g.rest ≠ [] :=
        fun as hs => texts_ne_nil_of_not_vanishing hkeys hkept hs
      refine ⟨?_, hne, List.Sublist.refl _, Nat.lt_succ_self _⟩
      exact runPasses_kept _ qs (sound_of_listed g.isListed) g.isListed.ne_nil hne

theorem runPasses_surface_nil {bare : Text}
    (hbare : getLengthWithoutAttributesInternal bare = bare.length) {ps : List Pass}
    (hkeys : (ps.map Pass.key).Nodup) {gs : List Group} {qs : List Pass}
    (h : surface ps gs = (qs, [])) : runPasses ps (textOf bare gs) = .ok bare := by
  induction gs generalizing ps with
  | nil => exact runPasses_bare hbare ps
  | cons top gs ih =>
    rw [surface] at h
    split at h
    next hvanish =>
      have hsub := later_sublist top.attributes ps
      rw [runPasses_vanishing_top bare hkeys hvanish]
      exact ih (hkeys.sublist (hsub.map Pass.key)) h
    next => cases h

end Surface

section Completion

def Pass.Accepts (p : Pass) (v : Text) : Prop := ∃ r, p.reprint v = .ok r

/-- The passes run through, and what they leave is accepted when it is read. -/
def Completes (ps : List Pass) (symbol result : Text) : Prop :=
  runPasses ps symbol = .ok result ∧
    ∀ p ∈ ps, ∀ v, getAttributeStringByKey result p.key = .ok (some v) → p.Accepts v

/-- Whether the pass of the key is still to come when the last braces come to light. -/
def Pending (ps : List Pass) (s : GroupedSymbol) (key : Text) : Prop :=
  key ∈ (surface ps s.groups).1.map Pass.key

/-- The text is accepted, and so is what the pass prints for it when it is still to come. -/
def Pass.Acceptable (p : Pass) (pending : Prop) (v : Text) : Prop :=
  (pending → p.reprint v = .ok none ∨ ∃ t, p.reprint v = .ok (some t) ∧ p.Accepts t) ∧
    (¬ pending → p.Accepts v)

/-- What the pass prints is printed alike again, and a text that the pass does not read any
more is printed as it stands. -/
def Pass.Settled (p : Pass) (pending : Prop) (v : Text) : Prop :=
  (pending → ∀ t, p.reprint v = .ok (some t) → p.reprint t = .ok (some t)) ∧
    (¬ pending → p.reprint v = .ok (some v))

/-- What holds of every attribute in the braces that come to light. -/
def OnSurface (ps : List Pass) (P : Pass → Prop → Text → Prop) (s : GroupedSymbol) : Prop :=
  ∀ g ∈ (surface ps s.groups).2.head?, ∀ p ∈ ps, ∀ v, valueAt p.key g.attributes = some v →
    P p (Pending ps s p.key) v

theorem reprint_of_outcome {p : Pass} {v w : Text} (ho : p.outcome v = .ok (some w))
    (h : p.Accepts w) :
    p.reprint v = .ok (some w) := by
  rw [Pass.outcome] at ho
  cases hr : p.reprint v with
  | ok r => simpa [hr] using ho
  | error e =>
    obtain ⟨r, hw⟩ := h
    cases e with
    | invalidArgument m =>
      simp only [hr, Except.ok.injEq, Option.some.injEq] at ho
      rw [← ho, hr] at hw
      cases hw
    | outOfRange => simp [hr] at ho
    | terminated => simp [hr] at ho
    | unfinished => simp [hr] at ho

theorem runPasses_fixed {ps : List Pass} {symbol : Text}
    (h : ∀ p ∈ ps, p.apply symbol = .ok symbol) :
    runPasses ps symbol = .ok symbol := by
  induction ps with
  | nil => rfl
  | cons p ps ih =>
    rw [runPasses, h p List.mem_cons_self, ok_bind]
    exact ih fun q hq => h q (List.mem_cons_of_mem p hq)

theorem apply_fixed {p : Pass} {attributes : List Attribute} {rest : Option Text}
    (hsound : Sound attributes rest) (hne : texts attributes rest ≠ []) (before : Text)
    (h : ∀ v, valueAt p.key attributes = some v → p.reprint v = .ok (some v)) :
    p.apply (inBraces before (texts attributes rest))
      = .ok (inBraces before (texts attributes rest)) := by
  have hstep : p.step attributes = .ok attributes := by
    cases hv : valueAt p.key attributes with
    | none => exact Pass.step_absent hv
    | some v => exact Pass.step_same hv (p.outcome_of_ok (h v hv))
  rw [apply_inBraces hsound hne, hstep, Except.map, braced_of_ne before hne]

variable {ps : List Pass} (hkeys : (ps.map Pass.key).Nodup)
include hkeys

theorem mem_of_pending {qs : List Pass} (hsub : qs.Sublist ps) {p : Pass} (hp : p ∈ ps)
    (h : p.key ∈ qs.map Pass.key) : p ∈ qs := by
  obtain ⟨q, hq, hkey⟩ := List.mem_map.mp h
  rwa [List.inj_on_of_nodup_map hkeys (hsub.subset hq) hp hkey] at hq

/-- Where the braces come to light, the run and the values it leaves there. -/
theorem runSteps_surface (s : GroupedSymbol) {qs : List Pass} {g : Group} {below : List Group}
    (h : surface ps s.groups = (qs, g :: below)) {as : List Attribute}
    (hs : runSteps qs g.attributes = .ok as) :
    runPasses ps s.text = .ok (inBraces (textOf s.bare below) (texts as g.rest)) ∧
      Sound as g.rest ∧ texts as g.rest ≠ [] ∧
      (∀ p ∈ ps, valueAt p.key g.attributes = none → valueAt p.key as = none) ∧
      (∀ p ∈ ps, ∀ v, valueAt p.key g.attributes = some v →
        (Pending ps s p.key → p.outcome v = .ok (valueAt p.key as)) ∧
          (¬ Pending ps s p.key → valueAt p.key as = some v)) := by
  obtain ⟨hrun, hne, hsub, -⟩ := runPasses_surface s.bare hkeys h
  obtain ⟨habsent, hown, hother⟩ := valueAt_runSteps (hkeys.sublist (hsub.map Pass.key)) hs
  rw [hs] at hrun
  refine ⟨hrun, (sound_of_listed g.isListed).runSteps hs, hne as hs, ?_, ?_⟩
  · intro p _ hnone
    exact habsent p.key hnone
  · intro p hp v hv
    rw [Pending, h]
    constructor
    · intro hpending
      exact hown p (mem_of_pending hkeys hsub hp hpending) v hv
    · intro hnot
      rw [hother p.key hnot, hv]

/-- Passes that run through have run on the attributes that come to light. -/
theorem runSteps_of_runPasses {bare result : Text} {gs : List Group} {qs : List Pass} {g : Group}
    {below : List Group} (h : surface ps gs = (qs, g :: below))
    (hrun : runPasses ps (textOf bare gs) = .ok result) :
    ∃ as, runSteps qs g.attributes = .ok as ∧
      inBraces (textOf bare below) (texts as g.rest) = result := by
  obtain ⟨hmap, -⟩ := runPasses_surface bare hkeys h
  rw [hrun] at hmap
  cases hs : runSteps qs g.attributes with
  | error e =>
    rw [hs] at hmap
    cases hmap
  | ok as =>
    rw [hs] at hmap
    exact ⟨as, rfl, (Except.ok.inj hmap).symm⟩

section TopBraces

variable (s : GroupedSymbol) {qs : List Pass} {g : Group} {below : List Group}
  (hsurface : surface ps s.groups = (qs, g :: below))
include hsurface

/-- What the passes printed into the braces was read there. -/
theorem acceptable_of_completes {result : Text} (h : Completes ps s.text result) {p : Pass}
    (hp : p ∈ ps) {v : Text} (hv : valueAt p.key g.attributes = some v) :
    p.Acceptable (Pending ps s p.key) v := by
  obtain ⟨hrun, hread⟩ := h
  obtain ⟨as, hs, rfl⟩ := runSteps_of_runPasses hkeys hsurface hrun
  obtain ⟨-, hsound, hne, -, hvalues⟩ := runSteps_surface hkeys s hsurface hs
  have hget := getAttribute_inBraces hsound hne (textOf s.bare below) p.key
  obtain ⟨hown, hkept⟩ := hvalues p hp v hv
  constructor
  · intro hstill
    cases hw : valueAt p.key as with
    | none => exact Or.inl (p.outcome_eq_none.mp (hw ▸ hown hstill))
    | some w =>
      have haccepts := hread p hp w (by rw [hget, hw])
      exact Or.inr ⟨w, reprint_of_outcome (hw ▸ hown hstill) haccepts, haccepts⟩
  · intro hdone
    exact hread p hp v (by rw [hget, hkept hdone])

theorem runSteps_of_acceptable (h : ∀ p ∈ ps, ∀ v, valueAt p.key g.attributes = some v →
    p.Acceptable (Pending ps s p.key) v) : ∃ as, runSteps qs g.attributes = .ok as := by
  have hsub := (runPasses_surface s.bare hkeys hsurface).2.2.1
  apply runSteps_defined (hkeys.sublist (hsub.map Pass.key))
  intro q hq v hv
  have hstill : Pending ps s q.key := by
    rw [Pending, hsurface]
    exact List.mem_map_of_mem hq
  rcases (h q (hsub.subset hq) v hv).1 hstill with hdefault | ⟨t, ht, -⟩
  · exact ⟨none, q.outcome_of_ok hdefault⟩
  · exact ⟨some t, q.outcome_of_ok ht⟩

theorem completes_of_acceptable (h : ∀ p ∈ ps, ∀ v, valueAt p.key g.attributes = some v →
    p.Acceptable (Pending ps s p.key) v) : ∃ result, Completes ps s.text result := by
  obtain ⟨as, hs⟩ := runSteps_of_acceptable hkeys s hsurface h
  obtain ⟨hrun, hsound, hne, habsent, hvalues⟩ := runSteps_surface hkeys s hsurface hs
  refine ⟨_, hrun, ?_⟩
  intro p hp w hw
  rw [getAttribute_inBraces hsound hne, Except.ok.injEq] at hw
  cases hv : valueAt p.key g.attributes with
  | none =>
    rw [habsent p hp hv] at hw
    cases hw
  | some v =>
    obtain ⟨hown, hkept⟩ := hvalues p hp v hv
    by_cases hstill : Pending ps s p.key
    · have ho := hown hstill
      rcases (h p hp v hv).1 hstill with hdefault | ⟨t, ht, haccepts⟩
      · rw [p.outcome_of_ok hdefault, hw] at ho
        cases ho
      · rw [p.outcome_of_ok ht, hw] at ho
        cases ho
        exact haccepts
    · rw [hkept hstill] at hw
      cases hw
      exact (h p hp w hv).2 hstill

end TopBraces

/-- When the passes run through and what they leave is accepted. -/
theorem completes_iff (s : GroupedSymbol) :
    (∃ result, Completes ps s.text result) ↔ OnSurface ps Pass.Acceptable s := by
  obtain ⟨qs, gs, hsurface⟩ : ∃ qs gs, surface ps s.groups = (qs, gs) := ⟨_, _, rfl⟩
  cases gs with
  | nil =>
    have hrun := runPasses_surface_nil s.bare_length hkeys hsurface
    have hread : ∀ key, getAttributeStringByKey s.bare key = .ok none :=
      getAttributeStringByKey_bare s.bare_length
    constructor
    · intro _ g hg
      rw [hsurface] at hg
      cases hg
    · intro _
      refine ⟨s.bare, hrun, ?_⟩
      intro p _ v hv
      rw [hread] at hv
      cases hv
  | cons g below =>
    constructor
    · rintro ⟨result, hcompletes⟩ g' hg' p hp v hv
      rw [hsurface] at hg'
      cases hg'
      exact acceptable_of_completes hkeys s hsurface hcompletes hp hv
    · intro h
      apply completes_of_acceptable hkeys s hsurface
      exact h g (by rw [hsurface]; rfl)

/-- Running the passes again on what they left: nothing changes exactly when every text
that is left is printed as it stands. -/
theorem runPasses_again {bare : Text}
    (hbare : getLengthWithoutAttributesInternal bare = bare.length)
    {gs : List Group} {attributes : List Attribute} {rest : Option Text}
    (hsound : Sound attributes rest) (hne : texts attributes rest ≠ [])
    (haccepts : ∀ p ∈ ps, ∀ v, valueAt p.key attributes = some v → p.Accepts v)
    (h : runPasses ps (inBraces (textOf bare gs) (texts attributes rest))
      = .ok (inBraces (textOf bare gs) (texts attributes rest))) :
    ∀ p ∈ ps, ∀ v, valueAt p.key attributes = some v → p.reprint v = .ok (some v) := by
  intro p hp v hv
  have hattributes : attributes ≠ [] := by
    rintro rfl
    cases hv
  let g : Group :=
    ⟨attributes, rest, hsound.isListed hne fun hempty => hattributes (empty_texts hempty)⟩
  have htext : inBraces (textOf bare gs) (texts attributes rest) = textOf bare (g :: gs) := rfl
  rw [htext] at h
  obtain ⟨qs, bs, hsurface⟩ : ∃ qs bs, surface ps (g :: gs) = (qs, bs) := ⟨_, _, rfl⟩
  cases bs with
  | nil =>
    rw [runPasses_surface_nil hbare hkeys hsurface] at h
    have hbelow : textOf bare (g :: gs) = textOf bare [] := (Except.ok.inj h).symm
    cases depth_unique hbare hbare hbelow
  | cons g' below =>
    obtain ⟨as, hs, hsame⟩ := runSteps_of_runPasses hkeys hsurface h
    have heq : textOf bare (g :: gs) = inBraces (textOf bare below) (texts as g'.rest) := hsame.symm
    have hsound' := (sound_of_listed g'.isListed).runSteps hs
    have hne' := (runPasses_surface bare hkeys hsurface).2.1 as hs
    have hempty : texts as g'.rest ≠ [[]] := by
      intro hempty
      have hlen := length_textOf_cons bare g gs
      rw [heq, hempty, length_empty_braces, ← hempty, ← heq] at hlen
      exact length_ne_inBraces _ _ hlen.symm
    let g'' : Group := ⟨as, g'.rest, hsound'.isListed hne' hempty⟩
    have hdepth : (g :: gs).length = (g'' :: below).length := depth_unique hbare hbare heq
    rw [surface] at hsurface
    split at hsurface
    next =>
      have hshort :=
        runPasses_surface bare (hkeys.sublist ((later_sublist _ ps).map Pass.key)) hsurface
      simp only [List.length_cons] at hdepth
      omega
    next =>
      cases hsurface
      have hvalue : valueAt p.key as = some v := by
        have hread := getAttribute_inBraces hsound' hne' (textOf bare gs) p.key
        have hread' := getAttribute_inBraces hsound hne (textOf bare gs) p.key
        rw [← heq] at hread
        rw [← hv]
        exact Except.ok.inj (hread.symm.trans hread')
      have hown := (valueAt_runSteps hkeys hs).2.1 p hp v hv
      exact reprint_of_outcome (hvalue ▸ hown) (haccepts p hp v hv)

section TopBraces

variable (s : GroupedSymbol) {qs : List Pass} {g : Group} {below : List Group}
  (hsurface : surface ps s.groups = (qs, g :: below)) {as : List Attribute}
  (hs : runSteps qs g.attributes = .ok as)
  (haccepts : ∀ p ∈ ps, ∀ v, valueAt p.key as = some v → p.Accepts v)
include hsurface hs haccepts

theorem settled_of_stable
    (hagain : runPasses ps (inBraces (textOf s.bare below) (texts as g.rest)) =
      .ok (inBraces (textOf s.bare below) (texts as g.rest)))
    {p : Pass} (hp : p ∈ ps) {v : Text} (hv : valueAt p.key g.attributes = some v) :
    p.Settled (Pending ps s p.key) v := by
  obtain ⟨-, hsound, hne, -, hvalues⟩ := runSteps_surface hkeys s hsurface hs
  have hprinted := runPasses_again hkeys s.bare_length hsound hne haccepts hagain
  obtain ⟨hown, hkept⟩ := hvalues p hp v hv
  constructor
  · intro hstill t ht
    have ho := hown hstill
    rw [p.outcome_of_ok ht] at ho
    exact hprinted p hp t (Except.ok.inj ho).symm
  · intro hdone
    exact hprinted p hp v (hkept hdone)

theorem stable_of_settled (h : ∀ p ∈ ps, ∀ v, valueAt p.key g.attributes = some v →
    p.Settled (Pending ps s p.key) v) :
    runPasses ps (inBraces (textOf s.bare below) (texts as g.rest)) =
      .ok (inBraces (textOf s.bare below) (texts as g.rest)) := by
  obtain ⟨-, hsound, hne, habsent, hvalues⟩ := runSteps_surface hkeys s hsurface hs
  apply runPasses_fixed
  intro p hp
  apply apply_fixed hsound hne
  intro w hw
  cases hv : valueAt p.key g.attributes with
  | none =>
    rw [habsent p hp hv] at hw
    cases hw
  | some v =>
    obtain ⟨hown, hkept⟩ := hvalues p hp v hv
    obtain ⟨hagain, hprinted⟩ := h p hp v hv
    by_cases hstill : Pending ps s p.key
    · exact hagain hstill w (reprint_of_outcome (hw ▸ hown hstill) (haccepts p hp w hw))
    · rw [hkept hstill] at hw
      cases hw
      exact hprinted hstill

end TopBraces

/-- When the passes change nothing in what they left. -/
theorem stable_iff (s : GroupedSymbol) {result : Text} (h : Completes ps s.text result) :
    runPasses ps result = .ok result ↔ OnSurface ps Pass.Settled s := by
  obtain ⟨hrun, hread⟩ := h
  obtain ⟨qs, gs, hsurface⟩ : ∃ qs gs, surface ps s.groups = (qs, gs) := ⟨_, _, rfl⟩
  cases gs with
  | nil =>
    have hbare := runPasses_surface_nil s.bare_length hkeys hsurface
    change runPasses ps s.text = _ at hbare
    rw [hrun] at hbare
    cases hbare
    constructor
    · intro _ g hg
      rw [hsurface] at hg
      cases hg
    · intro _
      exact runPasses_bare s.bare_length ps
  | cons g below =>
    obtain ⟨as, hs, rfl⟩ := runSteps_of_runPasses hkeys hsurface hrun
    obtain ⟨-, hsound, hne, -⟩ := runSteps_surface hkeys s hsurface hs
    have haccepts : ∀ p ∈ ps, ∀ v, valueAt p.key as = some v → p.Accepts v := by
      intro p hp v hv
      apply hread p hp v
      rw [getAttribute_inBraces hsound hne, hv]
    constructor
    · intro hagain g' hg' p hp v hv
      rw [hsurface] at hg'
      cases hg'
      exact settled_of_stable hkeys s hsurface hs haccepts hagain hp hv
    · intro hsettled
      apply stable_of_settled hkeys s hsurface hs haccepts
      exact hsettled g (by rw [hsurface]; rfl)

end Completion

end NormalisingPasses
