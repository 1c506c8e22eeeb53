import DxFeedGraal.SymbolWrappers
import Mathlib.Data.Prod.Lex
import Mathlib.Order.Defs.Unbundled

/-! # Equality, order and hash of symbols

Indexed symbols compare by their texts, time series by the symbols they wrap, and a time series
hashes the address of the symbol it wraps. -/
namespace SymbolComparisons

open CppStrings SymbolWrappers

/-- The form of a subscription time comes from the native library. -/
structure TimeFormat where
  format : Int64 → Text

namespace SymbolWrapper

variable (f : TimeFormat)

/-- With tracing off. -/
def toStringUnderlying : SymbolWrapper → Text
  | .wildcard symbol => symbol.symbol
  | .string data => data
  | .indexed eventSymbol source =>
    toStringUnderlying eventSymbol ++ "\x7bsource=".toList ++ source.name ++ "\x7d".toList
  | .timeSeries eventSymbol fromTime =>
    toStringUnderlying eventSymbol ++ "\x7bfromTime=".toList ++ f.format fromTime ++ "\x7d".toList
  | .candle symbol => symbol.symbol

/-- The index of the alternative in the variant. -/
def index : SymbolWrapper → ℕ
  | .wildcard _ => 0
  | .string _ => 1
  | .indexed _ _ => 2
  | .timeSeries _ _ => 3
  | .candle _ => 4

/-- `operator==`. -/
def equals : SymbolWrapper → SymbolWrapper → Bool
  | .wildcard a, .wildcard b => a.symbol = b.symbol
  | .string a, .string b => a = b
  | .indexed a s, .indexed b t =>
    toStringUnderlying f (.indexed a s) = toStringUnderlying f (.indexed b t)
  | .timeSeries a _, .timeSeries b _ => equals a b
  | .candle a, .candle b => a.symbol = b.symbol
  | _, _ => false

/-- `operator<`: the alternatives compare by their indices first. -/
def less : SymbolWrapper → SymbolWrapper → Bool
  | .wildcard a, .wildcard b => a.symbol < b.symbol
  | .string a, .string b => a < b
  | .indexed a s, .indexed b t =>
    toStringUnderlying f (.indexed a s) < toStringUnderlying f (.indexed b t)
  | .timeSeries a _, .timeSeries b _ => less a b
  | .candle a, .candle b => a.symbol < b.symbol
  | a, b => index a < index b

end SymbolWrapper

open SymbolWrapper

abbrev Address := UInt64

/-- An object: its value, and the address of the symbol it wraps if it wraps one. -/
structure Placed where
  value : SymbolWrapper
  address : Address

/-- The hash functions of the standard library, as functions of the value held. -/
structure Hashing where
  string : Text → UInt64
  pointer : Address → UInt64
  variant : ℕ → UInt64 → UInt64

def hash (f : TimeFormat) (h : Hashing) (o : Placed) : UInt64 :=
  h.variant (index o.value) <|
    match o.value with
    | .wildcard symbol => h.string symbol.symbol
    | .string data => h.string data
    | .indexed _ _ => h.string (toStringUnderlying f o.value)
    | .timeSeries _ _ => h.pointer o.address
    | .candle symbol => h.string symbol.symbol

/-! ## The key behind equality and order -/

variable (f : TimeFormat)

/-- The alternatives down to the first that is no time series, and the text there. -/
def key : SymbolWrapper → List ℕ ×ₗ Text
  | .timeSeries eventSymbol _ =>
    toLex (3 :: (ofLex (key eventSymbol)).1, (ofLex (key eventSymbol)).2)
  | s => toLex ([index s], toStringUnderlying f s)

theorem equals_iff (a b : SymbolWrapper) : equals f a b = true ↔ key f a = key f b := by
  induction a generalizing b with
  | timeSeries a t ih =>
    cases b with
    | timeSeries b u =>
      rw [equals, ih]
      simp only [key, toLex_inj, Prod.mk.injEq, List.cons.injEq, true_and]
      rw [← Prod.ext_iff, EmbeddingLike.apply_eq_iff_eq]
    | _ => simp [equals, key, index]
  | _ => cases b <;> simp [equals, key, index, toStringUnderlying]

theorem path_eq (a : SymbolWrapper) : ∃ rest, (ofLex (key f a)).1 = index a :: rest := by
  cases a <;> exact ⟨_, rfl⟩

theorem less_iff_of_index_ne {a b : SymbolWrapper} (h : index a ≠ index b) :
    less f a b = true ↔ key f a < key f b := by
  have hless : less f a b = decide (index a < index b) := by
    cases a <;> cases b <;> first | rfl | exact absurd rfl h
  obtain ⟨path, hpath⟩ := path_eq f a
  obtain ⟨other, hother⟩ := path_eq f b
  rw [hless, Prod.Lex.lt_iff, hpath, hother, List.cons_lt_cons_iff]
  simp [h]

theorem less_iff (a b : SymbolWrapper) : less f a b = true ↔ key f a < key f b := by
  induction a generalizing b with
  | timeSeries a t ih =>
    cases b with
    | timeSeries b u =>
      rw [less, ih]
      simp only [key, Prod.Lex.lt_iff, ofLex_toLex, List.cons.injEq, true_and,
        List.cons_lt_cons_iff, lt_irrefl, false_or]
    | _ => exact less_iff_of_index_ne f (by simp [index])
  | wildcard symbol =>
    cases b with
    | wildcard other => simp [less, key, index, toStringUnderlying, Prod.Lex.lt_iff]
    | _ => exact less_iff_of_index_ne f (by simp [index])
  | string data =>
    cases b with
    | string other => simp [less, key, index, toStringUnderlying, Prod.Lex.lt_iff]
    | _ => exact less_iff_of_index_ne f (by simp [index])
  | indexed a s =>
    cases b with
    | indexed b t => simp [less, key, index, Prod.Lex.lt_iff]
    | _ => exact less_iff_of_index_ne f (by simp [index])
  | candle symbol =>
    cases b with
    | candle other => simp [less, key, index, toStringUnderlying, Prod.Lex.lt_iff]
    | _ => exact less_iff_of_index_ne f (by simp [index])

theorem equals_equivalence : Equivalence fun a b => equals f a b = true := by
  simp only [equals_iff]
  exact ⟨fun _ => rfl, fun h => h.symm, fun h k => h.trans k⟩

/-- Two symbols of which neither is less are equal. -/
theorem incomparable_iff (a b : SymbolWrapper) :
    less f a b = false ∧ less f b a = false ↔ equals f a b = true := by
  rw [Bool.eq_false_iff, Bool.eq_false_iff, ne_eq, ne_eq, less_iff, less_iff, equals_iff, not_lt,
    not_lt]
  exact ⟨fun h => le_antisymm h.2 h.1, fun h => ⟨h.ge, h.le⟩⟩

theorem less_strictWeakOrder :
    IsStrictWeakOrder SymbolWrapper fun a b => less f a b = true where
  irrefl a := by
    rw [less_iff]
    exact lt_irrefl _
  trans a b c hab hbc := by
    rw [less_iff] at hab hbc ⊢
    exact lt_trans hab hbc
  incomp_trans a b c hab hbc := by
    simp only [Bool.not_eq_true, incomparable_iff, equals_iff] at hab hbc ⊢
    exact hab.trans hbc

/-! ## Equal symbols and equal hashes -/

/-- `operator==` of sources. -/
def sourceEquals (a b : IndexedEventSource) : Bool := a.id = b.id

/-- What a hash set and the documentation ask of two objects. -/
structure Agree (h : Hashing) (a b : Placed) : Prop where
  equal_hash : equals f a.value b.value = true → hash f h a = hash f h b
  timeSeries : ∀ s t s' t', a.value = .timeSeries s t → b.value = .timeSeries s' t' →
    (equals f a.value b.value = true ↔ equals f s s' = true)
  indexed : ∀ s source s' source', a.value = .indexed s source → b.value = .indexed s' source' →
    (equals f a.value b.value = true ↔ equals f s s' = true ∧ sourceEquals source source' = true)

/-- The name of one source holds what separates the text of a symbol from a name, and the text
of the other symbol goes on accordingly. -/
def Overlap (s : SymbolWrapper) (source : IndexedEventSource) (s' : SymbolWrapper)
    (source' : IndexedEventSource) : Prop :=
  ∃ middle, source.name = middle ++ "\x7bsource=".toList ++ source'.name ∧
    toStringUnderlying f s' = toStringUnderlying f s ++ "\x7bsource=".toList ++ middle

/-- The parts of two indexed symbols have the same texts, or texts that run into each other. -/
def SameText (s : SymbolWrapper) (source : IndexedEventSource) (s' : SymbolWrapper)
    (source' : IndexedEventSource) : Prop :=
  toStringUnderlying f s = toStringUnderlying f s' ∧ source.name = source'.name ∨
    Overlap f s source s' source' ∨ Overlap f s' source' s source

/-- Objects that neither the addresses nor the texts confuse: two time series of one symbol are
one object, and two indexed symbols have the same texts exactly when they wrap the same
alternative and text and have the same source. -/
structure Distinguished (a b : Placed) : Prop where
  addresses : ∀ s t s' t', a.value = .timeSeries s t → b.value = .timeSeries s' t' →
    key f s = key f s' → a.address = b.address
  texts : ∀ s source s' source', a.value = .indexed s source → b.value = .indexed s' source' →
    (SameText f s source s' source' ↔ key f s = key f s' ∧ source.id = source'.id)

/-- A separator whose first character does not come back in it overlaps itself nowhere. -/
theorem append_separator {u x y rest : Text} {c : Char} (hfirst : c ∉ rest)
    (h : u ++ (c :: rest ++ x) = c :: rest ++ y) :
    u = [] ∧ x = y ∨ ∃ middle, u = c :: rest ++ middle ∧ y = middle ++ (c :: rest) ++ x := by
  rcases List.append_eq_append_iff.mp h with ⟨tail, hsep, htail⟩ | ⟨middle, hu, hy⟩
  · cases u with
    | nil =>
      rw [List.nil_append] at hsep
      subst hsep
      exact Or.inl ⟨rfl, List.append_cancel_left htail⟩
    | cons d u =>
      obtain ⟨rfl, hrest⟩ := List.cons_eq_cons.mp hsep
      cases tail with
      | nil =>
        right
        refine ⟨[], ?_, htail.symm⟩
        rw [List.append_nil] at hsep ⊢
        exact hsep.symm
      | cons e tail =>
        -- The rest of the separator would begin like the separator itself.
        obtain ⟨rfl, -⟩ := List.cons_eq_cons.mp htail
        exact absurd (hrest ▸ List.mem_append_right u List.mem_cons_self) hfirst
  · right
    exact ⟨middle, hu, by rw [hy, List.append_assoc]⟩

/-- Two texts made of a symbol and a name are equal only where the parts are, or run into each
other. -/
theorem equals_indexed_iff (s : SymbolWrapper) (source : IndexedEventSource) (s' : SymbolWrapper)
    (source' : IndexedEventSource) :
    equals f (.indexed s source) (.indexed s' source') = true ↔ SameText f s source s' source' := by
  have hfirst : '\x7b' ∉ "source=".toList := by decide
  rw [equals, decide_eq_true_eq, toStringUnderlying, toStringUnderlying,
    List.append_left_inj, List.append_assoc, List.append_assoc]
  constructor
  · intro h
    rcases List.append_eq_append_iff.mp h with ⟨u, hs', hsep⟩ | ⟨u, hs, hsep⟩
    · rcases append_separator hfirst hsep.symm with ⟨rfl, hname⟩ | ⟨middle, rfl, hname⟩
      · left
        exact ⟨by rw [hs', List.append_nil], hname.symm⟩
      · right
        left
        exact ⟨middle, hname, by rw [hs', List.append_assoc]; rfl⟩
    · rcases append_separator hfirst hsep.symm with ⟨rfl, hname⟩ | ⟨middle, rfl, hname⟩
      · left
        exact ⟨by rw [hs, List.append_nil], hname⟩
      · right
        right
        exact ⟨middle, hname, by rw [hs, List.append_assoc]; rfl⟩
  · rintro (⟨hs, hname⟩ | ⟨middle, hname, hs⟩ | ⟨middle, hname, hs⟩)
    · rw [hs, hname]
    · rw [hs, hname]
      simp only [List.append_assoc]
    · rw [hs, hname]
      simp only [List.append_assoc]

/-- Equal objects that are no time series hash the same text under the same index. -/
theorem hash_eq_of_equals {h : Hashing} {a b : Placed} (heq : equals f a.value b.value = true)
    (haddress : ∀ s t s' t', a.value = .timeSeries s t → b.value = .timeSeries s' t' →
      a.address = b.address) : hash f h a = hash f h b := by
  obtain ⟨a, p⟩ := a
  obtain ⟨b, q⟩ := b
  cases a with
  | timeSeries s t =>
    cases b with
    | timeSeries s' t' =>
      have hpq : p = q := haddress s t s' t' rfl rfl
      rw [hpq]
      rfl
    | _ => simp [equals] at heq
  | _ => cases b <;> simp_all [equals, hash, index]

/-- The hash functions may be any; here they give the address of a wrapped symbol away. -/
def revealing (p : Address) : Hashing where
  string _ := 0
  pointer q := if q = p then 1 else 0
  variant _ h := h

theorem agree_iff (a b : Placed) : (∀ h, Agree f h a b) ↔ Distinguished f a b := by
  constructor
  · intro hagree
    constructor
    · intro s t s' t' ha hb hkey
      have heq : equals f a.value b.value = true := by
        rw [ha, hb]
        exact (equals_iff f s s').mpr hkey
      have hhash := (hagree (revealing a.address)).equal_hash heq
      by_contra hne
      simp [hash, ha, hb, revealing, Ne.symm hne] at hhash
    · intro s source s' source' ha hb
      have hindexed := (hagree (revealing 0)).indexed s source s' source' ha hb
      rw [ha, hb, equals_indexed_iff, equals_iff, sourceEquals, decide_eq_true_eq] at hindexed
      exact hindexed
  · intro hd h
    constructor
    · intro heq
      apply hash_eq_of_equals f heq
      intro s t s' t' ha hb
      rw [ha, hb] at heq
      exact hd.addresses s t s' t' ha hb ((equals_iff f s s').mp heq)
    · intro s t s' t' ha hb
      rw [ha, hb, equals]
    · intro s source s' source' ha hb
      rw [ha, hb, equals_indexed_iff, equals_iff, sourceEquals, decide_eq_true_eq]
      exact hd.texts s source s' source' ha hb

/-- Equality is an equivalence and the order a strict weak one with the same ties, whatever the
symbols; hashes and the documented meaning of equality agree with them exactly where addresses
and texts confuse nothing. -/
theorem comparisons_agree_iff (f : TimeFormat) :
    (Equivalence fun a b => equals f a b = true) ∧
      IsStrictWeakOrder SymbolWrapper (fun a b => less f a b = true) ∧
      (∀ a b, less f a b = false ∧ less f b a = false ↔ equals f a b = true) ∧
      ∀ a b : Placed, (∀ h, Agree f h a b) ↔ Distinguished f a b :=
  ⟨equals_equivalence f, less_strictWeakOrder f, incomparable_iff f, agree_iff f⟩

/-- Two time series of one symbol with different hashes, two sources of one number that differ,
and two that are told apart by their numbers alone and compare equal. -/
theorem comparisons_confused :
    (∃ h : Hashing, ¬ Agree ⟨fun _ => []⟩ h ⟨.timeSeries (.string ['A']) 0, 1⟩
        ⟨.timeSeries (.string ['A']) 0, 2⟩) ∧
      (∃ h : Hashing, ¬ Agree ⟨fun _ => []⟩ h ⟨.indexed (.string ['A']) ⟨1, ['x']⟩, 1⟩
        ⟨.indexed (.string ['A']) ⟨1, ['y']⟩, 2⟩) ∧
      ∃ h : Hashing, ¬ Agree ⟨fun _ => []⟩ h ⟨.indexed (.string ['A']) ⟨1, ['x']⟩, 1⟩
        ⟨.indexed (.string ['A']) ⟨2, ['x']⟩, 2⟩ := by
  refine ⟨⟨revealing 1, fun hagree => ?_⟩, ⟨revealing 1, fun hagree => ?_⟩,
    ⟨revealing 1, fun hagree => ?_⟩⟩
  · have hhash := hagree.equal_hash (by decide)
    revert hhash
    decide
  · have hindexed := hagree.indexed _ _ _ _ rfl rfl
    revert hindexed
    decide
  · have hindexed := hagree.indexed _ _ _ _ rfl rfl
    revert hindexed
    decide

end SymbolComparisons
