import DxFeedGraal.SourceIdentities
import Mathlib.Data.Nat.Digits.Lemmas

/-! # Indices without a source

The getter of the source must not throw, yet it decodes any number that no source has. Which
indices it can serve depends on the index alone, whatever was registered before. -/
namespace SourceDecoding

open FixedWidthIntegers BitOperations TimeSequenceEvents OrderSources OrderIndices
open SourceIdentities

/-- The number that the getter looks up. -/
def lookedUp (index : Int64) : Int32 :=
  let sourceId : Int32 := staticCast (sar index SPECIAL_SOURCE_ID_SHIFT)
  if isSpecialSourceId sourceId then sourceId else staticCast (sar index NONSPECIAL_SOURCE_ID_SHIFT)

/-- The characters of a number, highest byte first, without the zero bytes in front. -/
def spelled (n : ℕ) : List Char := (Nat.digits 256 n).reverse.map Char.ofNat

/-- A special number above bit 48, or above bit 32 a special one, zero or a name. -/
def HoldsSource (index : Int64) : Prop :=
  (1 ≤ index.toInt / 2 ^ 48 ∧ index.toInt / 2 ^ 48 ≤ 9) ∨ index.toInt / 2 ^ 32 ≤ 9 ∨
    ∀ c ∈ spelled (index.toInt / 2 ^ 32).toNat, Alphanumeric c = true

instance (index : Int64) : Decidable (HoldsSource index) := inferInstanceAs (Decidable (_ ∨ _))

theorem getSource_eq (users : UserSources) (e : OrderBaseData) :
    getSource users e = (valueOfId users (lookedUp e.index)).toOption := rfl

/-! ## Numbers that spell a name -/

theorem packed_eq_ofDigits (cs : List Char) :
    packed 0 cs = (Nat.ofDigits 256 (cs.reverse.map Char.toNat) : ℕ) := by
  induction cs using List.reverseRecOn with
  | nil => rfl
  | append_singleton cs c ih =>
    have hlast : packed 0 (cs ++ [c]) = packed 0 cs * 256 + c.toNat := by
      rw [packed, List.foldl_append]
      rfl
    rw [hlast, ih, List.reverse_append, List.reverse_singleton, List.singleton_append,
      List.map_cons, Nat.ofDigits_cons]
    push_cast
    ring

theorem digits_of_chars {cs : List Char} (h : ∀ c ∈ cs, Alphanumeric c = true) :
    Nat.digits 256 (Nat.ofDigits 256 (cs.reverse.map Char.toNat)) =
      cs.reverse.map Char.toNat := by
  have hbyte : ∀ d ∈ cs.reverse.map Char.toNat, 48 ≤ d ∧ d < 128 := by
    intro d hd
    obtain ⟨c, hc, rfl⟩ := List.mem_map.mp hd
    exact alphanumeric_bounds (h c (List.mem_reverse.mp hc))
  apply Nat.digits_ofDigits 256 (by norm_num)
  · intro d hd
    have := (hbyte d hd).2
    omega
  · intro hne
    have := (hbyte _ (List.getLast_mem hne)).1
    omega

/-- A name is what its number spells. -/
theorem spelled_packed {cs : List Char} (h : ∀ c ∈ cs, Alphanumeric c = true) :
    spelled (packed 0 cs).toNat = cs := by
  rw [packed_eq_ofDigits, Int.toNat_natCast, spelled, digits_of_chars h, ← List.map_reverse,
    List.reverse_reverse, List.map_map]
  have hchar : Char.ofNat ∘ Char.toNat = id := by
    funext c
    exact Char.ofNat_toNat c
  rw [hchar, List.map_id]

theorem packed_spelled (n : ℕ) : packed 0 (spelled n) = n := by
  have hbytes : ((Nat.digits 256 n).map Char.ofNat).map Char.toNat = Nat.digits 256 n := by
    rw [List.map_map, List.map_congr_left (g := id), List.map_id]
    intro d hd
    exact toNat_byte (Nat.digits_lt_base (by norm_num) hd)
  rw [packed_eq_ofDigits, spelled, ← List.map_reverse, List.reverse_reverse, hbytes,
    Nat.ofDigits_digits]

/-- The decoder accepts exactly the numbers that spell alphanumeric characters only. -/
theorem decodeName_total_iff {id : Int32} (hid : 0 < id.toInt) :
    (∃ name, decodeName id = .ok name) ↔
      ∀ c ∈ spelled id.toInt.toNat, Alphanumeric c = true := by
  have hb := int32_bounds id
  constructor
  · rintro ⟨name, hname⟩
    have hcompose := (decodeName_ok_iff id name).mp hname
    obtain ⟨-, -, hcs⟩ := (composeId_total_iff name).mp ⟨id, hcompose⟩
    rw [(composeId_ok hcompose).1, spelled_packed hcs]
    exact hcs
  · intro hcs
    have hpacked := packed_spelled id.toInt.toNat
    rw [Int.toNat_of_nonneg hid.le] at hpacked
    have hlength : (spelled id.toInt.toNat).length ≤ 4 := by
      rw [spelled, List.length_map, List.length_reverse,
        Nat.digits_length_le_iff (by norm_num)]
      omega
    have hname : IsName (spelled id.toInt.toNat) := by
      refine ⟨?_, hlength, hcs⟩
      by_contra hempty
      have hnil : spelled id.toInt.toNat = [] := List.length_eq_zero_iff.mp (by omega)
      rw [hnil] at hpacked
      rw [← hpacked] at hid
      exact absurd hid (by decide)
    obtain ⟨id', hid'⟩ := (composeId_total_iff _).mpr hname
    have hsame := (composeId_ok hid').1
    rw [hpacked, Int32.toInt_inj] at hsame
    rw [hsame] at hid'
    exact ⟨_, (decodeName_ok_iff id _).mpr hid'⟩

/-! ## Lookups that return -/

theorem unnamed_source_id {s : OrderSource} (h : s ∈ PREDEFINED_SOURCES) :
    s ∈ namedSources ∨ 0 ≤ s.id.toInt ∧ s.id.toInt ≤ 9 := by
  have hspecial : ∀ t ∈ specialSources, 0 ≤ t.id.toInt ∧ t.id.toInt ≤ 9 := by decide
  rcases List.mem_append.mp h with h | h
  · exact Or.inr (hspecial s h)
  · rcases List.mem_cons.mp h with rfl | h
    · exact Or.inr (by decide)
    · exact Or.inl h

/-- The numbers from zero to nine all have a predefined source. -/
theorem exists_predefined {id : Int32} (h₀ : 0 ≤ id.toInt) (h₉ : id.toInt ≤ 9) :
    ∃ s, findById PREDEFINED_SOURCES id = some s := by
  have hall : ∀ n : Fin 10, (findById PREDEFINED_SOURCES (Int32.ofNat n)).isSome = true := by
    decide
  have hn : Int32.ofNat id.toInt.toNat = id := by
    apply Int32.toInt_inj.mp
    rw [Int32.toInt_ofNat_of_lt (by omega)]
    omega
  have := hall ⟨id.toInt.toNat, by omega⟩
  rw [hn] at this
  exact Option.isSome_iff_exists.mp this

/-- What was registered before plays no part: every registered number spells a name. -/
theorem valueOfId_defined_iff {users : UserSources} (hu : WellRegistered users) (id : Int32) :
    (∃ out, valueOfId users id = .ok out) ↔
      (∃ s, findById PREDEFINED_SOURCES id = some s) ∨ ∃ name, decodeName id = .ok name := by
  constructor
  · rintro ⟨out, hout⟩
    rcases valueOfId_cases hout with ⟨hfound, -⟩ | ⟨-, hfound, -⟩ | ⟨-, name, hname, -⟩
    · exact Or.inl ⟨_, hfound⟩
    · obtain ⟨hmem, rfl⟩ := findById_eq_some hfound
      exact Or.inr ⟨_, (decodeName_ok_iff _ _).mpr (hu.composed _ hmem)⟩
    · exact Or.inr ⟨name, hname⟩
  · intro h
    unfold valueOfId
    cases hpre : findById PREDEFINED_SOURCES id with
    | some s => exact ⟨_, rfl⟩
    | none =>
      cases huser : findById users id with
      | some s => exact ⟨_, rfl⟩
      | none =>
        rcases h with ⟨s, hs⟩ | ⟨name, hname⟩
        · rw [hpre] at hs
          cases hs
        · rw [hname]
          exact ⟨_, rfl⟩

theorem valueOfId_total_iff {users : UserSources} (hu : WellRegistered users) {id : Int32}
    (hid : 0 ≤ id.toInt) :
    (∃ out, valueOfId users id = .ok out) ↔
      id.toInt ≤ 9 ∨ ∀ c ∈ spelled id.toInt.toNat, Alphanumeric c = true := by
  rw [valueOfId_defined_iff hu]
  constructor
  · rintro (⟨s, hs⟩ | ⟨name, hname⟩)
    · obtain ⟨hmem, rfl⟩ := findById_eq_some hs
      rcases unnamed_source_id hmem with hnamed | ⟨-, hsmall⟩
      · have hname := (decodeName_ok_iff _ _).mpr (named_sources_compose s hnamed)
        have hpos := named_source_id hnamed
        exact Or.inr ((decodeName_total_iff (by omega)).mp ⟨_, hname⟩)
      · exact Or.inl hsmall
    · have hpos := (composeId_ok ((decodeName_ok_iff id name).mp hname)).2
      exact Or.inr ((decodeName_total_iff (by omega)).mp ⟨name, hname⟩)
  · intro h
    by_cases hsmall : id.toInt ≤ 9
    · exact Or.inl (exists_predefined hid hsmall)
    · exact Or.inr ((decodeName_total_iff (by omega)).mpr (h.resolve_left hsmall))

theorem valueOfId_id {users : UserSources} {id : Int32} {out : OrderSource × UserSources}
    (h : valueOfId users id = .ok out) : out.1.id = id := by
  rcases valueOfId_cases h with ⟨hfound, -⟩ | ⟨-, hfound, -⟩ | ⟨-, name, -, rfl⟩
  · exact (findById_eq_some hfound).2
  · exact (findById_eq_some hfound).2
  · unfold register
    split
    next s hs => exact (findById_eq_some hs).2
    next => rfl

theorem wellRegistered {users : UserSources} (h : Registered users) : WellRegistered users := by
  obtain ⟨calls, rfl⟩ := (registered_iff users).mp h
  apply wellRegistered_calls
  refine ⟨fun s hs => ?_, fun s hs => ?_, List.nodup_nil⟩
  · cases hs
  · cases hs

/-! ## The getter -/

theorem toInt_upper_half {index : Int64} (h : 0 ≤ index.toInt) :
    (staticCast (sar index NONSPECIAL_SOURCE_ID_SHIFT) : Int32).toInt =
      index.toInt / 2 ^ 32 := by
  have hb := int64_bounds index
  have hsar : value (sar index NONSPECIAL_SOURCE_ID_SHIFT) = index.toInt / 2 ^ 32 :=
    value_sar rfl (by decide)
  rw [staticCast, hsar, toInt_wrap_int32 (by omega) (by omega)]

theorem toInt_upper_quarter (index : Int64) :
    (staticCast (sar index SPECIAL_SOURCE_ID_SHIFT) : Int32).toInt = index.toInt / 2 ^ 48 := by
  have hb := int64_bounds index
  have hsar : value (sar index SPECIAL_SOURCE_ID_SHIFT) = index.toInt / 2 ^ 48 :=
    value_sar rfl (by decide)
  rw [staticCast, hsar, toInt_wrap_int32 (by omega) (by omega)]

/-- Whether a source is found, and under which number, does not depend on the registry. -/
theorem getSource_number {users : UserSources} (hu : WellRegistered users) (e : OrderBaseData) :
    (getSource users e).map (fun out => out.1.id) =
      (getSource [] e).map fun out => out.1.id := by
  have hempty : WellRegistered [] := wellRegistered .empty
  have hsame := (valueOfId_defined_iff hu (lookedUp e.index)).trans
    (valueOfId_defined_iff hempty (lookedUp e.index)).symm
  rw [getSource_eq, getSource_eq]
  cases hv : valueOfId users (lookedUp e.index) with
  | ok out =>
    obtain ⟨out', hv'⟩ := hsame.mp ⟨out, hv⟩
    rw [hv']
    exact congrArg some ((valueOfId_id hv).trans (valueOfId_id hv').symm)
  | error message =>
    cases hv' : valueOfId [] (lookedUp e.index) with
    | ok out =>
      obtain ⟨out', hok⟩ := hsame.mpr ⟨out, hv'⟩
      cases hv.symm.trans hok
    | error message => rfl

/-- The getter returns exactly for the indices that hold a source. -/
theorem getSource_total_iff {users : UserSources} (hu : Registered users) {e : OrderBaseData}
    (h : 0 ≤ e.index) : (∃ out, getSource users e = some out) ↔ HoldsSource e.index := by
  rw [Int64.le_iff_toInt_le, Int64.toInt_zero] at h
  have hdefined : (∃ out, getSource users e = some out) ↔
      ∃ out, valueOfId users (lookedUp e.index) = .ok out := by
    rw [getSource_eq]
    cases valueOfId users (lookedUp e.index) <;> simp [Except.toOption]
  rw [hdefined]
  by_cases hspecial :
      isSpecialSourceId (staticCast (sar e.index SPECIAL_SOURCE_ID_SHIFT)) = true
  · have hbounds := special_id_bounds.mp hspecial
    have hid : (lookedUp e.index).toInt = e.index.toInt / 2 ^ 48 := by
      rw [lookedUp, if_pos hspecial, toInt_upper_quarter]
    rw [toInt_upper_quarter] at hbounds
    rw [valueOfId_total_iff (wellRegistered hu) (by omega), hid]
    exact iff_of_true (Or.inl hbounds.2) (Or.inl hbounds)
  · have hid : (lookedUp e.index).toInt = e.index.toInt / 2 ^ 32 := by
      rw [lookedUp, if_neg hspecial, toInt_upper_half h]
    rw [special_id_bounds, toInt_upper_quarter] at hspecial
    rw [valueOfId_total_iff (wellRegistered hu) (by omega), hid, HoldsSource,
      or_iff_right hspecial]

theorem getSource_total_of_name :
    (∃ out, getSource [] { index := 0x4142000000000007 } = some out) ↔
      HoldsSource 0x4142000000000007 :=
  getSource_total_iff .empty (by decide)

/-- The setter takes an index that ends the process when the source is read. -/
theorem getSource_ends_process :
    (setIndex {} 0x0000000B00000000).result = .ok () ∧
      ¬ ∃ out, getSource [] (setIndex {} 0x0000000B00000000).object = some out := by
  refine ⟨rfl, ?_⟩
  rintro ⟨out, hout⟩
  have hnone : getSource [] { index := 0x0000000B00000000 } = none := by decide
  exact absurd (hnone.symm.trans hout) (by simp)

end SourceDecoding
