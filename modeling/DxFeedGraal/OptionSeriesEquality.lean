import DxFeedGraal.CppNumbers
import DxFeedGraal.OptionSeriesOrders

/-! # Equality and hash of option series

Equality takes numbers that nearly agree for equal, order and hash do not. The three fit
together on series whose numbers are finite and, where all else agrees, equal or not near. -/
namespace OptionChains

open CppStrings DoubleValues OrderedSet

variable {π : Type*}

/-! ## The source -/

/-- `std::hash`. Zeros of both signs compare equal and have one hash. -/
structure Hashing where
  int32 : Int32 → UInt64
  double : Double → UInt64
  string : Text → UInt64
  double_congr : ∀ a b, a.eq b = true → double a = double b

/-- `hashMixImpl<64>::fn`. -/
def hashMix (x : UInt64) : UInt64 :=
  let m := ((0xe9846af : UInt64) <<< 32) + 0x9b1a615d
  let x := x ^^^ (x >>> 32)
  let x := x * m
  let x := x ^^^ (x >>> 32)
  let x := x * m
  x ^^^ (x >>> 28)

def hashCombine (seed : UInt64) (hash : UInt64) : UInt64 := hashMix (seed + 0x9e3779b9 + hash)

namespace OptionSeries

/-- `operator==`. -/
def equals (a b : OptionSeries π) : Bool :=
  a.expiration == b.expiration && a.lastTrade == b.lastTrade &&
    CppNumbers.equals a.multiplier b.multiplier && CppNumbers.equals a.spc b.spc &&
    a.additionalUnderlyings == b.additionalUnderlyings && a.expirationStyle == b.expirationStyle &&
    a.mmy == b.mmy && a.optionType == b.optionType && a.cfi == b.cfi &&
    a.settlementStyle == b.settlementStyle

def hashCode (h : Hashing) (s : OptionSeries π) : UInt64 :=
  let result := s.expiration.toInt64.toUInt64
  let result := hashCombine result (h.int32 s.lastTrade)
  let result := hashCombine result (h.double s.multiplier)
  let result := hashCombine result (h.double s.spc)
  let result := hashCombine result (h.string s.additionalUnderlyings)
  let result := hashCombine result (h.string s.mmy)
  let result := hashCombine result (h.string s.optionType)
  let result := hashCombine result (h.string s.expirationStyle)
  let result := hashCombine result (h.string s.settlementStyle)
  hashCombine result (h.string s.cfi)

/-! ## When they fit together -/

/-- Order, equality and hash as sets and hash tables need them. -/
structure Consistent (h : Hashing) (S : Set (OptionSeries π)) : Prop where
  less_irrefl : ∀ a ∈ S, a.less a = false
  less_trans : ∀ a ∈ S, ∀ b ∈ S, ∀ c ∈ S, a.less b = true → b.less c = true → a.less c = true
  equivalent_trans : ∀ a ∈ S, ∀ b ∈ S, ∀ c ∈ S,
    Equivalent less a b → Equivalent less b c → Equivalent less a c
  equivalent_iff_equals : ∀ a ∈ S, ∀ b ∈ S, Equivalent less a b ↔ a.equals b = true
  equals_refl : ∀ a ∈ S, a.equals a = true
  equals_symm : ∀ a ∈ S, ∀ b ∈ S, a.equals b = true → b.equals a = true
  equals_trans : ∀ a ∈ S, ∀ b ∈ S, ∀ c ∈ S,
    a.equals b = true → b.equals c = true → a.equals c = true
  hashCode_eq : ∀ a ∈ S, ∀ b ∈ S, a.equals b = true → a.hashCode h = b.hashCode h

/-- All but the two numbers. -/
def exactFields (s : OptionSeries π) := (s.expiration, s.lastTrade, texts s)

def IsFinite (d : Double) : Prop := d.isNaN = false ∧ d.isInf = false

structure Distinguishable (S : Set (OptionSeries π)) : Prop where
  multiplier : ∀ a ∈ S, IsFinite a.multiplier
  spc : ∀ a ∈ S, IsFinite a.spc
  near : ∀ a ∈ S, ∀ b ∈ S, exactFields a = exactFields b →
    CppNumbers.equals a.multiplier b.multiplier = true → CppNumbers.equals a.spc b.spc = true →
      a.multiplier.eq b.multiplier = true ∧ a.spc.eq b.spc = true

theorem isFinite_iff {d : Double} : IsFinite d ↔ CppNumbers.equals d d = true := by
  cases d with
  | finite q => exact iff_of_true ⟨rfl, rfl⟩ (CppNumbers.equals_self q)
  | negZero => exact iff_of_true ⟨rfl, rfl⟩ (CppNumbers.equals_of_finiteValue rfl rfl)
  | _ => simp [IsFinite, Double.isNaN, Double.isInf, CppNumbers.equals, CppNumbers.finiteValue]

theorem finiteValue_of_eq {a b : Double} (h : a.eq b = true) :
    CppNumbers.finiteValue a = CppNumbers.finiteValue b := by
  obtain ⟨⟨ha, hb⟩, hposition⟩ := eq_eq_true.mp h
  cases a <;> cases b <;> simp_all [Double.isNaN, Double.position, CppNumbers.finiteValue]
  all_goals cases hposition

/-- Equal finite numbers are near. -/
theorem equals_of_eq {a b : Double} (ha : IsFinite a) (h : a.eq b = true) :
    CppNumbers.equals a b = true := by
  have hb : CppNumbers.equals b a = CppNumbers.equals a a :=
    CppNumbers.equals_congr (finiteValue_of_eq h).symm a
  exact CppNumbers.equals_comm (hb.trans (isFinite_iff.mp ha))

theorem eq_refl {d : Double} (h : d.isNaN = false) : d.eq d = true := eq_eq_true.mpr ⟨⟨h, h⟩, rfl⟩

theorem equals_iff {a b : OptionSeries π} : a.equals b = true ↔
    exactFields a = exactFields b ∧ CppNumbers.equals a.multiplier b.multiplier = true ∧
      CppNumbers.equals a.spc b.spc = true := by
  simp only [equals, exactFields, texts, Bool.and_eq_true, beq_iff_eq, Prod.mk.injEq, toLex_inj]
  tauto

/-- Where numbers are numbers, only series of equal fields are left undecided. -/
theorem equivalent_iff_eq {a b : OptionSeries π} (ham : IsFinite a.multiplier)
    (hbm : IsFinite b.multiplier) (has : IsFinite a.spc) (hbs : IsFinite b.spc) :
    Equivalent less a b ↔ exactFields a = exactFields b ∧ a.multiplier.eq b.multiplier = true ∧
      a.spc.eq b.spc = true := by
  rw [equivalent_iff, ham.1, hbm.1, has.1, hbs.1]
  simp only [exactFields, Prod.mk.injEq, Bool.false_eq_true, false_or]
  tauto

theorem hashCode_congr (h : Hashing) {a b : OptionSeries π}
    (hfields : exactFields a = exactFields b)
    (hmultiplier : a.multiplier.eq b.multiplier = true) (hspc : a.spc.eq b.spc = true) :
    a.hashCode h = b.hashCode h := by
  simp only [exactFields, texts, Prod.mk.injEq, toLex_inj] at hfields
  obtain ⟨hexpiration, hlastTrade, hunderlyings, hmmy, htype, hstyle, hsettlement, hcfi⟩ :=
    hfields
  unfold hashCode
  rw [hexpiration, hlastTrade, h.double_congr _ _ hmultiplier, h.double_congr _ _ hspc,
    hunderlyings, hmmy, htype, hstyle, hsettlement, hcfi]

/-- Order, equality and hash fit together on a set of series exactly when their numbers are
finite and series that agree otherwise have equal numbers or numbers that are not near. -/
theorem consistent_iff (h : Hashing) (S : Set (OptionSeries π)) :
    Consistent h S ↔ Distinguishable S := by
  constructor
  · intro hS
    have hfinite : ∀ a ∈ S, IsFinite a.multiplier ∧ IsFinite a.spc := by
      intro a ha
      obtain ⟨-, hmultiplier, hspc⟩ := equals_iff.mp (hS.equals_refl a ha)
      exact ⟨isFinite_iff.mpr hmultiplier, isFinite_iff.mpr hspc⟩
    refine ⟨fun a ha => (hfinite a ha).1, fun a ha => (hfinite a ha).2, ?_⟩
    intro a ha b hb hfields hmultiplier hspc
    have hequals := equals_iff.mpr ⟨hfields, hmultiplier, hspc⟩
    have hequivalent := (hS.equivalent_iff_equals a ha b hb).mpr hequals
    obtain ⟨ham, has⟩ := hfinite a ha
    obtain ⟨hbm, hbs⟩ := hfinite b hb
    exact ((equivalent_iff_eq ham hbm has hbs).mp hequivalent).2
  · intro hS
    have hequivalent : ∀ a ∈ S, ∀ b ∈ S, Equivalent less a b ↔ exactFields a = exactFields b ∧
        a.multiplier.eq b.multiplier = true ∧ a.spc.eq b.spc = true := fun a ha b hb =>
      equivalent_iff_eq (hS.multiplier a ha) (hS.multiplier b hb) (hS.spc a ha) (hS.spc b hb)
    have hequals : ∀ a ∈ S, ∀ b ∈ S, Equivalent less a b ↔ a.equals b = true := by
      intro a ha b hb
      rw [hequivalent a ha b hb, equals_iff]
      constructor
      · rintro ⟨hfields, hmultiplier, hspc⟩
        exact ⟨hfields, equals_of_eq (hS.multiplier a ha) hmultiplier,
          equals_of_eq (hS.spc a ha) hspc⟩
      · rintro ⟨hfields, hmultiplier, hspc⟩
        exact ⟨hfields, hS.near a ha b hb hfields hmultiplier hspc⟩
    have htrans : ∀ a ∈ S, ∀ b ∈ S, ∀ c ∈ S, Equivalent less a b → Equivalent less b c →
        Equivalent less a c := by
      intro a ha b hb c hc hab hbc
      obtain ⟨hfields, hmultiplier, hspc⟩ := (hequivalent a ha b hb).mp hab
      obtain ⟨hfields', hmultiplier', hspc'⟩ := (hequivalent b hb c hc).mp hbc
      exact (hequivalent a ha c hc).mpr ⟨hfields.trans hfields',
        eq_trans hmultiplier hmultiplier', eq_trans hspc hspc'⟩
    exact {
      less_irrefl := fun a _ => by simpa using layer_less.irrefl a
      less_trans := fun _ _ _ _ _ _ => layer_less.less_trans
      equivalent_trans := htrans
      equivalent_iff_equals := hequals
      equals_refl := fun a ha => (hequals a ha a ha).mp ((hequivalent a ha a ha).mpr
        ⟨rfl, eq_refl (hS.multiplier a ha).1, eq_refl (hS.spc a ha).1⟩)
      equals_symm := fun a ha b hb hab =>
        (hequals b hb a ha).mp ((hequals a ha b hb).mpr hab).symm
      equals_trans := fun a ha b hb c hc hab hbc => (hequals a ha c hc).mp
        (htrans a ha b hb c hc ((hequals a ha b hb).mpr hab) ((hequals b hb c hc).mpr hbc))
      hashCode_eq := fun a ha b hb hab => by
        obtain ⟨hfields, hmultiplier, hspc⟩ :=
          (hequivalent a ha b hb).mp ((hequals a ha b hb).mpr hab)
        exact hashCode_congr h hfields hmultiplier hspc }

/-- Hashes of numbers by their numerators. -/
instance : Inhabited Hashing where
  default := {
    int32 := fun value => value.toInt64.toUInt64
    double := fun value => ((CppNumbers.finiteValue value).map fun q => UInt64.ofInt q.num).getD 0
    string := fun value => value.foldl (fun hash c => 31 * hash + UInt64.ofNat c.toNat) 0
    double_congr := fun a b h => by rw [finiteValue_of_eq h] }

theorem consistent_two_multipliers :
    Consistent default ({{ multiplier := .finite 1 }, { multiplier := .finite 2 }} :
      Set (OptionSeries Unit)) := by
  apply (consistent_iff _ _).mpr
  refine ⟨?_, ?_, ?_⟩
  · rintro a (rfl | rfl) <;> exact ⟨rfl, rfl⟩
  · rintro a (rfl | rfl) <;> exact ⟨rfl, rfl⟩
  · rintro a (rfl | rfl) b (rfl | rfl) - hmultiplier hspc
    · exact ⟨rfl, rfl⟩
    · exact absurd hmultiplier (by decide +kernel)
    · exact absurd hmultiplier (by decide +kernel)
    · exact ⟨rfl, rfl⟩

/-- A number and the next double below one are near, so that series of these multipliers are
equal and one is less than the other; a series whose multiplier is no number is not equal to
itself. -/
theorem near_multipliers :
    let one : OptionSeries Unit := { multiplier := .finite 1 }
    let below : OptionSeries Unit := { multiplier := .finite (1 - 1 / 2 ^ 53) }
    let unknown : OptionSeries Unit := { multiplier := .nan }
    below.equals one = true ∧ below.less one = true ∧ unknown.equals unknown = false ∧
      ∀ h : Hashing, ¬ Consistent h (Set.univ : Set (OptionSeries Unit)) := by
  refine ⟨by decide +kernel, by decide +kernel, by decide +kernel, ?_⟩
  intro h hall
  have hrefl := hall.equals_refl { multiplier := .nan } (Set.mem_univ _)
  exact absurd hrefl (by decide +kernel)

end OptionSeries

end OptionChains
