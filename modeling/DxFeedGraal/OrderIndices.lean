import DxFeedGraal.OrderSources
import DxFeedGraal.TimeSequenceEvents

/-! # The source in the index of an order

Special sources stand above bit 48 of the index, all others above bit 32. The getter
tells the two layouts apart by the number it finds above bit 48. -/
namespace OrderIndices

open FixedWidthIntegers BitOperations TimeSequenceEvents OrderSources

def SPECIAL_SOURCE_ID_SHIFT : UInt32 := 48
def NONSPECIAL_SOURCE_ID_SHIFT : UInt32 := 32

/-- The function is `noexcept`: an identifier without a source ends the process. -/
def getSource (users : UserSources) (e : OrderBaseData) : Option (OrderSource × UserSources) :=
  let sourceId : Int32 := staticCast (sar e.index SPECIAL_SOURCE_ID_SHIFT)
  let sourceId := if isSpecialSourceId sourceId then sourceId
    else staticCast (sar e.index NONSPECIAL_SOURCE_ID_SHIFT)
  (valueOfId users sourceId).toOption

/-- Both operators are conjunctions in the source; the outer one was meant to join. -/
def setSource (e : OrderBaseData) (source : OrderSource) : OrderBaseData :=
  let shift := if isSpecialSourceId source.id then SPECIAL_SOURCE_ID_SHIFT
    else NONSPECIAL_SOURCE_ID_SHIFT
  let mask : Int64 :=
    if isSpecialSourceId (staticCast (sar e.index SPECIAL_SOURCE_ID_SHIFT))
    then ~~~(sal (-1 : Int64) SPECIAL_SOURCE_ID_SHIFT)
    else ~~~(sal (-1 : Int64) NONSPECIAL_SOURCE_ID_SHIFT)
  { e with index := andOp (sal (staticCast source.id : Int64) shift) (andOp e.index mask) }

def getIndex (e : OrderBaseData) : Int64 := e.index

def setIndex (e : OrderBaseData) (index : Int64) : Outcome OrderBaseData Unit :=
  if index < 0 then ⟨.error ("Negative index: " ++ toString index.toInt), e⟩
  else ⟨.ok (), { e with index := index }⟩

/-- The width of the part of the index that is the source's own. -/
def lowWidth (source : OrderSource) : ℕ := if isSpecialSourceId source.id then 48 else 32

/-- What packing a source over a stored index promises. -/
structure SourceLaw (users : UserSources) (e : OrderBaseData) (s : OrderSource) : Prop where
  read_back : (getSource users (setSource e s)).map Prod.fst = some s
  low_kept : (setSource e s).index.toInt % 2 ^ lowWidth s = e.index.toInt % 2 ^ lowWidth s
  nonnegative : 0 ≤ (setSource e s).index
  last_wins : ∀ s₀, IsOrderSource s₀ →
    (setSource (setSource e s₀) s).index = (setSource e s).index

theorem setSource_default (e : OrderBaseData) : (setSource e DEFAULT).index = 0 :=
  andOp_zero_left (by decide)

theorem setSource_of_index_zero {e : OrderBaseData} (h : e.index = 0) (s : OrderSource) :
    (setSource e s).index = 0 := by
  have hmasked : ∀ mask : Int64, andOp e.index mask = 0 := by
    intro mask
    rw [h]
    exact andOp_zero_left rfl
  apply value_injective
  simp only [setSource, hmasked]
  exact value_andOp_disjoint (k := 0) (Nat.zero_le _) (Int.emod_one _) (by decide) (by decide)

theorem getSource_of_index_zero {e : OrderBaseData} (h : e.index = 0) (users : UserSources) :
    getSource users e = some (DEFAULT, users) := by
  rw [getSource, h]
  rfl

theorem value_sal_id {id : Int32} {shift : UInt32} (h : 0 ≤ id.toInt)
    (k : id.toInt * 2 ^ shift.toNat < 2 ^ 63) :
    value (sal (staticCast id : Int64) shift) = id.toInt * 2 ^ shift.toNat := by
  have hb := int32_bounds id
  have hid : value (staticCast id : Int64) = id.toInt := by
    rw [value_int64, staticCast, value_int32, toInt_wrap_int64] <;> omega
  have hshift : value shift = shift.toNat := rfl
  have hpos : 0 ≤ id.toInt * 2 ^ shift.toNat := mul_nonneg h (by positivity)
  have hsal := value_sal (v := (staticCast id : Int64)) (n := shift) rfl (by omega)
  rw [hid, hshift, Int.natAbs_natCast] at hsal
  apply hsal
  · change -2 ^ 64 ≤ id.toInt * 2 ^ shift.toNat * 2
    omega
  · change id.toInt * 2 ^ shift.toNat * 2 < 2 ^ 64
    omega

theorem special_id_bounds {id : Int32} :
    isSpecialSourceId id = true ↔ 1 ≤ id.toInt ∧ id.toInt ≤ 9 := by
  rw [isSpecialSourceId, Bool.and_eq_true, decide_eq_true_eq, decide_eq_true_eq,
    Int32.le_iff_toInt_le, Int32.le_iff_toInt_le]
  rfl

/-- An identifier and a stored part that stand in disjoint bits leave nothing behind: no
special source is ever stored, nor any source over an index in the generic layout. -/
theorem setSource_forgets {e : OrderBaseData} {s : OrderSource} (hs : 0 ≤ s.id)
    (h : isSpecialSourceId s.id = true ∨
      isSpecialSourceId (staticCast (sar e.index SPECIAL_SOURCE_ID_SHIFT)) = false) :
    (setSource e s).index = 0 := by
  have hb := int32_bounds s.id
  rw [Int32.le_iff_toInt_le, Int32.toInt_zero] at hs
  have hspecial : value (~~~(sal (-1 : Int64) SPECIAL_SOURCE_ID_SHIFT)) = 2 ^ 48 - 1 := by decide
  have hgeneric : value (~~~(sal (-1 : Int64) NONSPECIAL_SOURCE_ID_SHIFT)) = 2 ^ 32 - 1 := by
    decide
  have hlow48 := value_andOp_low (a := e.index) (k := 48) rfl (by decide) hspecial (by decide)
  have hlow32 := value_andOp_low (a := e.index) (k := 32) rfl (by decide) hgeneric (by decide)
  apply value_injective
  change value (setSource e s).index = 0
  by_cases hspec : isSpecialSourceId s.id = true
  · obtain ⟨h₁, h₂⟩ := special_id_bounds.mp hspec
    have hid := @value_sal_id s.id SPECIAL_SOURCE_ID_SHIFT hs
      (by rw [show SPECIAL_SOURCE_ID_SHIFT.toNat = 48 from rfl]; omega)
    rw [show SPECIAL_SOURCE_ID_SHIFT.toNat = 48 from rfl] at hid
    simp only [setSource, hspec, if_true]
    apply value_andOp_disjoint (k := 48) (by decide) (by rw [hid]; omega) <;> split <;> omega
  · have hstored := h.resolve_left hspec
    have hid := @value_sal_id s.id NONSPECIAL_SOURCE_ID_SHIFT hs
      (by rw [show NONSPECIAL_SOURCE_ID_SHIFT.toNat = 32 from rfl]; omega)
    rw [show NONSPECIAL_SOURCE_ID_SHIFT.toNat = 32 from rfl] at hid
    simp only [setSource, hspec, hstored, Bool.false_eq_true, if_false]
    apply value_andOp_disjoint (k := 32) (by decide) (by rw [hid]; omega) <;> omega

/-- The packing law holds exactly when the default source is set over an index whose low
half is zero. -/
theorem source_law_iff (users : UserSources) (e : OrderBaseData) (s : OrderSource)
    (hs : IsOrderSource s) :
    SourceLaw users e s ↔ s.id = 0 ∧ e.index.toInt % 2 ^ 32 = 0 := by
  constructor
  · intro law
    have hzero : (setSource e s).index = 0 := by
      rw [← law.last_wins DEFAULT (Or.inl (by decide))]
      exact setSource_of_index_zero (setSource_default e) s
    have hs' : s = DEFAULT := by
      have hread := law.read_back
      rw [getSource_of_index_zero hzero] at hread
      exact (Option.some.inj hread).symm
    have hlow := law.low_kept
    rw [hzero, hs'] at hlow
    exact ⟨by rw [hs']; rfl, hlow.symm⟩
  · rintro ⟨hid, hlow⟩
    obtain rfl := eq_default_of_id hs hid
    have hzero := setSource_default e
    constructor
    · rw [getSource_of_index_zero hzero]
      rfl
    · rw [hzero]
      exact hlow.symm
    · rw [hzero]
      exact Int64.le_refl 0
    · intro s₀ _
      rw [setSource_default, hzero]

/-- Nothing is packed over the index zero. -/
theorem source_law_fresh_index : ¬ SourceLaw [] {} NTV := by
  intro law
  have hread := law.read_back
  have hzero : (setSource {} NTV).index = 0 := setSource_forgets (by decide) (.inr (by decide))
  rw [getSource_of_index_zero hzero] at hread
  exact absurd (congrArg OrderSource.id (Option.some.inj hread)) (by decide)

/-- The default source replaces `NTV` over an index whose low half is zero. -/
theorem source_law_default :
    (getSource [] { index := 5133398 * 2 ^ 32 }).map Prod.fst = some NTV ∧
      (SourceLaw [] { index := 5133398 * 2 ^ 32 } DEFAULT ↔
        DEFAULT.id = 0 ∧
          ({ index := 5133398 * 2 ^ 32 } : OrderBaseData).index.toInt % 2 ^ 32 = 0) :=
  ⟨by decide, source_law_iff [] { index := 5133398 * 2 ^ 32 } DEFAULT (Or.inl (by decide))⟩

end OrderIndices
