import DxFeedGraal.BitOperations
import Mathlib.Data.List.Basic

/-! # Order sources

A source is identified by a 32-bit number: a small special one, or its alphanumeric name
packed one character a byte. Sources that are not predefined are registered on demand. -/
namespace OrderSources

open FixedWidthIntegers BitOperations

def PUB_ORDER : UInt32 := 0x0001
def PUB_ANALYTIC_ORDER : UInt32 := 0x0002
def PUB_OTC_MARKETS_ORDER : UInt32 := 0x0004
def PUB_SPREAD_ORDER : UInt32 := 0x0008
def FULL_ORDER_BOOK : UInt32 := 0x0010
def PUB_NUAM_ORDER : UInt32 := 0x0020

/-- Names are byte strings, a `Char` for each byte. Sources compare by `id` alone. -/
structure OrderSource where
  id : Int32
  name : List Char
  pubFlags : UInt32 := 0
  builtin : Bool := false
  deriving DecidableEq, Repr

def wrongLength : String := "Source name must contain from 1 to 4 characters"
def notAlphanumeric : String := "Source name must contain only alphanumeric characters"

/-- What `checkChar` lets through. -/
def Alphanumeric (c : Char) : Bool :=
  ('A' ≤ c && c ≤ 'Z') || ('a' ≤ c && c ≤ 'z') || ('0' ≤ c && c ≤ '9')

def checkChar (c : Char) : Except String Unit :=
  if Alphanumeric c then .ok () else .error notAlphanumeric

/-- The loop of `composeId`, from the characters packed so far. -/
def composeChars (sourceId : Int32) : List Char → Except String Int32
  | [] => .ok sourceId
  | c :: cs => do
    checkChar c
    composeChars (orOp (sal sourceId (8 : Int32)) c.toNat.toUInt8) cs

def composeId (name : List Char) : Except String Int32 :=
  if name.length = 0 ∨ name.length > 4 then .error wrongLength else composeChars 0 name

/-- The loop of `decodeName` over the remaining shifts. -/
def decodeChars (id : Int32) : List Int32 → Except String (List Char)
  | [] => .ok []
  | i :: is =>
    if sar id i = 0 then decodeChars id is
    else do
      let c := Char.ofNat (andOp (sar id i) (0xff : Int32)).toInt.toNat
      checkChar c
      let rest ← decodeChars id is
      .ok (c :: rest)

def decodeName (id : Int32) : Except String (List Char) :=
  if id = 0 then .error wrongLength else decodeChars id [24, 16, 8, 0]

/-! ## Predefined sources -/

def COMPOSITE_BID : OrderSource := ⟨1, "COMPOSITE_BID".toList, 0, true⟩
def COMPOSITE_ASK : OrderSource := ⟨2, "COMPOSITE_ASK".toList, 0, true⟩
def REGIONAL_BID : OrderSource := ⟨3, "REGIONAL_BID".toList, 0, true⟩
def REGIONAL_ASK : OrderSource := ⟨4, "REGIONAL_ASK".toList, 0, true⟩
def AGGREGATE_BID : OrderSource := ⟨5, "AGGREGATE_BID".toList, 0, true⟩
def AGGREGATE_ASK : OrderSource := ⟨6, "AGGREGATE_ASK".toList, 0, true⟩
def COMPOSITE : OrderSource := ⟨7, "COMPOSITE".toList, 0, true⟩
def REGIONAL : OrderSource := ⟨8, "REGIONAL".toList, 0, true⟩
def AGGREGATE : OrderSource := ⟨9, "AGGREGATE".toList, 0, true⟩
def DEFAULT : OrderSource :=
  ⟨0, "DEFAULT".toList,
    PUB_ORDER ||| PUB_ANALYTIC_ORDER ||| PUB_OTC_MARKETS_ORDER ||| PUB_SPREAD_ORDER |||
      FULL_ORDER_BOOK ||| PUB_NUAM_ORDER, true⟩

/-- The name of every predefined source below packs, so the default never shows. -/
def named (name : String) (pubFlags : UInt32) : OrderSource :=
  ⟨(composeId name.toList).toOption.getD 0, name.toList, pubFlags, true⟩

def NTV : OrderSource := named "NTV" (PUB_ORDER ||| FULL_ORDER_BOOK)
def ntv : OrderSource := named "ntv" PUB_ORDER
def NFX : OrderSource := named "NFX" PUB_ORDER
def ESPD : OrderSource := named "ESPD" PUB_ORDER
def XNFI : OrderSource := named "XNFI" PUB_ORDER
def ICE : OrderSource := named "ICE" PUB_ORDER
def ISE : OrderSource := named "ISE" (PUB_ORDER ||| PUB_SPREAD_ORDER)
def DEA : OrderSource := named "DEA" PUB_ORDER
def DEX : OrderSource := named "DEX" PUB_ORDER
def dex : OrderSource := named "dex" PUB_ORDER
def BYX : OrderSource := named "BYX" PUB_ORDER
def BZX : OrderSource := named "BZX" PUB_ORDER
def bzx : OrderSource := named "bzx" PUB_ORDER
def BATE : OrderSource := named "BATE" PUB_ORDER
def CHIX : OrderSource := named "CHIX" PUB_ORDER
def CEUX : OrderSource := named "CEUX" PUB_ORDER
def BXTR : OrderSource := named "BXTR" PUB_ORDER
def IST : OrderSource := named "IST" PUB_ORDER
def BI20 : OrderSource := named "BI20" PUB_ORDER
def ABE : OrderSource := named "ABE" PUB_ORDER
def FAIR : OrderSource := named "FAIR" PUB_ORDER
def GLBX : OrderSource := named "GLBX" (PUB_ORDER ||| PUB_ANALYTIC_ORDER)
def glbx : OrderSource := named "glbx" PUB_ORDER
def ERIS : OrderSource := named "ERIS" PUB_ORDER
def XEUR : OrderSource := named "XEUR" PUB_ORDER
def xeur : OrderSource := named "xeur" PUB_ORDER
def CFE : OrderSource := named "CFE" PUB_ORDER
def C2OX : OrderSource := named "C2OX" PUB_ORDER
def SMFE : OrderSource := named "SMFE" PUB_ORDER
def smfe : OrderSource := named "smfe" PUB_ORDER
def iex : OrderSource := named "iex" PUB_ORDER
def MEMX : OrderSource := named "MEMX" PUB_ORDER
def memx : OrderSource := named "memx" PUB_ORDER
def OCEA : OrderSource := named "OCEA" PUB_ORDER
def ocea : OrderSource := named "ocea" PUB_ORDER
def pink : OrderSource := named "pink" (PUB_ORDER ||| PUB_OTC_MARKETS_ORDER)
def ARCA : OrderSource := named "ARCA" PUB_ORDER
def arca : OrderSource := named "arca" PUB_ORDER
def CEDX : OrderSource := named "CEDX" PUB_ORDER
def cedx : OrderSource := named "cedx" PUB_ORDER
def IGC : OrderSource := named "IGC" PUB_ORDER
def igc : OrderSource := named "igc" PUB_ORDER
def EDX : OrderSource := named "EDX" PUB_ORDER
def edx : OrderSource := named "edx" PUB_ORDER
def NUAM : OrderSource := named "NUAM" (PUB_ORDER ||| FULL_ORDER_BOOK ||| PUB_NUAM_ORDER)
def nuam : OrderSource := named "nuam" (PUB_ORDER ||| PUB_NUAM_ORDER)

def specialSources : List OrderSource :=
  [COMPOSITE_BID, COMPOSITE_ASK, REGIONAL_BID, REGIONAL_ASK, AGGREGATE_BID, AGGREGATE_ASK,
    COMPOSITE, REGIONAL, AGGREGATE]

def namedSources : List OrderSource :=
  [NTV, ntv, NFX, ESPD, XNFI, ICE, ISE, DEA, DEX, dex, BYX, BZX, bzx, BATE, CHIX, CEUX, BXTR,
    IST, BI20, ABE, FAIR, GLBX, glbx, ERIS, XEUR, xeur, CFE, C2OX, SMFE, smfe, iex, MEMX, memx,
    OCEA, ocea, pink, ARCA, arca, CEDX, cedx, IGC, igc, EDX, edx, NUAM, nuam]

/-- The map holds each source under its identifier and under its name. -/
def PREDEFINED_SOURCES : List OrderSource := specialSources ++ DEFAULT :: namedSources

def isSpecialSourceId (sourceId : Int32) : Bool :=
  COMPOSITE_BID.id ≤ sourceId && sourceId ≤ AGGREGATE.id

/-! ## Lookup and registration -/

/-- `USER_SOURCES_`: every entry stands under its own identifier. -/
abbrev UserSources := List OrderSource

def findById (sources : List OrderSource) (sourceId : Int32) : Option OrderSource :=
  sources.find? fun s => s.id = sourceId

def findByName (sources : List OrderSource) (name : List Char) : Option OrderSource :=
  sources.find? fun s => s.name = name

/-- What both overloads do once the identifier and the name are known. -/
def register (users : UserSources) (sourceId : Int32) (name : List Char) :
    OrderSource × UserSources :=
  match findById users sourceId with
  | some s => (s, users)
  | none => (⟨sourceId, name, 0, false⟩, users ++ [⟨sourceId, name, 0, false⟩])

def valueOfId (users : UserSources) (sourceId : Int32) :
    Except String (OrderSource × UserSources) :=
  match findById PREDEFINED_SOURCES sourceId with
  | some s => .ok (s, users)
  | none =>
    match findById users sourceId with
    | some s => .ok (s, users)
    | none => (decodeName sourceId).map (register users sourceId)

def valueOfName (users : UserSources) (name : List Char) :
    Except String (OrderSource × UserSources) :=
  match findByName PREDEFINED_SOURCES name with
  | some s => .ok (s, users)
  | none => (composeId name).map fun sourceId => register users sourceId name

/-- The registries that calls of either `valueOf` lead to. -/
inductive Registered : UserSources → Prop
  | empty : Registered []
  | byId {users : UserSources} {sourceId : Int32} {out : OrderSource × UserSources}
      (h : Registered users) (hv : valueOfId users sourceId = .ok out) : Registered out.2
  | byName {users : UserSources} {name : List Char} {out : OrderSource × UserSources}
      (h : Registered users) (hv : valueOfName users name = .ok out) : Registered out.2

/-- Every source object a program can come by. -/
def IsOrderSource (s : OrderSource) : Prop :=
  s ∈ PREDEFINED_SOURCES ∨ ∃ users, Registered users ∧ s ∈ users

/-! ## Identifiers of names -/

theorem alphanumeric_bounds {c : Char} (h : Alphanumeric c = true) :
    48 ≤ c.toNat ∧ c.toNat < 128 := by
  simp only [Alphanumeric, Bool.or_eq_true, Bool.and_eq_true, decide_eq_true_eq, Char.le_def,
    UInt32.le_iff_toNat_le] at h
  change ((65 ≤ c.toNat ∧ c.toNat ≤ 90) ∨ (97 ≤ c.toNat ∧ c.toNat ≤ 122)) ∨
    (48 ≤ c.toNat ∧ c.toNat ≤ 57) at h
  omega

/-- One byte appended below the bytes packed so far. -/
theorem toInt_append_char {sourceId : Int32} {c : Char} (hc : c.toNat < 128)
    (h : 0 ≤ sourceId.toInt) (k : sourceId.toInt < 2 ^ 23) :
    (orOp (sal sourceId (8 : Int32)) c.toNat.toUInt8).toInt =
      sourceId.toInt * 256 + c.toNat := by
  have hsal : (sal sourceId (8 : Int32)).toInt = sourceId.toInt * 2 ^ 8 := by
    apply value_sal (v := sourceId) (n := (8 : Int32)) rfl (by decide)
    · change -2 ^ 32 ≤ sourceId.toInt * 2 ^ 8 * 2
      omega
    · change sourceId.toInt * 2 ^ 8 * 2 < 2 ^ 32
      omega
  have hchar : value c.toNat.toUInt8 = c.toNat := by
    rw [value_uint8, Nat.toUInt8_eq, UInt8.toNat_ofNat', Nat.mod_eq_of_lt (by omega)]
  have hor := value_orOp_disjoint (a := sal sourceId (8 : Int32)) (m := c.toNat.toUInt8) (k := 8)
    rfl (by decide) (by rw [value_int32, hsal]; omega) (by omega) (by omega) (by decide)
  rw [value_int32, value_int32, hsal, hchar] at hor
  rw [hor]
  omega

theorem named_sources_compose : ∀ s ∈ namedSources, composeId s.name = .ok s.id := by decide

/-- The base-256 number that a name spells, after the bytes already there. -/
def packed (z : ℤ) (cs : List Char) : ℤ := cs.foldl (fun z c => z * 256 + c.toNat) z

theorem le_packed {z : ℤ} (hz : 0 ≤ z) (cs : List Char) : z ≤ packed z cs := by
  induction cs generalizing z with
  | nil => exact le_refl z
  | cons c cs ih =>
    have hnext : z ≤ z * 256 + c.toNat := by omega
    exact hnext.trans (ih (by omega))

theorem composeChars_ok {sourceId id : Int32} {cs : List Char}
    (h : composeChars sourceId cs = .ok id) (hpos : 0 ≤ sourceId.toInt)
    (hroom : (sourceId.toInt + 1) * 256 ^ cs.length ≤ 2 ^ 31) :
    id.toInt = packed sourceId.toInt cs := by
  induction cs generalizing sourceId with
  | nil =>
    cases h
    rfl
  | cons c cs ih =>
    rw [List.length_cons, pow_succ] at hroom
    have hone : (1 : ℤ) ≤ 256 ^ cs.length := one_le_pow₀ (by norm_num)
    have hsmall : sourceId.toInt < 2 ^ 23 := by nlinarith
    by_cases hc : Alphanumeric c = true
    · have hb := alphanumeric_bounds hc
      have hstep := toInt_append_char hb.2 hpos hsmall
      simp only [composeChars, checkChar, hc, if_true] at h
      rw [ih h (by rw [hstep]; omega) (by rw [hstep]; nlinarith), hstep]
      rfl
    · simp only [composeChars, checkChar, hc] at h
      cases h

theorem composeId_ok {name : List Char} {id : Int32} (h : composeId name = .ok id) :
    id.toInt = packed 0 name ∧ 48 ≤ id.toInt := by
  unfold composeId at h
  split at h
  next => cases h
  next hlen =>
    cases name with
    | nil => simp at hlen
    | cons c cs =>
      by_cases hc : Alphanumeric c = true
      · have hb := alphanumeric_bounds hc
        have hfirst := @toInt_append_char 0 c hb.2 (by decide) (by decide)
        simp only [Int32.toInt_zero, zero_mul, zero_add] at hfirst
        simp only [composeChars, checkChar, hc, if_true] at h
        have hthree : cs.length ≤ 3 := by simp only [List.length_cons] at hlen; omega
        have hpow : (256 : ℤ) ^ cs.length ≤ 256 ^ 3 := pow_le_pow_right₀ (by norm_num) hthree
        have hid := composeChars_ok h (by rw [hfirst]; omega) (by rw [hfirst]; nlinarith)
        rw [hfirst] at hid
        refine ⟨by rw [hid, packed, packed, List.foldl_cons, zero_mul, zero_add], ?_⟩
        have := le_packed (z := c.toNat) (by omega) cs
        omega
      · simp only [composeChars, checkChar, hc] at h
        cases h

/-- Zero belongs to the default source alone. -/
theorem user_source_id {users : UserSources} (h : Registered users) :
    ∀ s ∈ users, s.id ≠ 0 := by
  have hregister : ∀ {users : UserSources} {id : Int32} {name : List Char}, id ≠ 0 →
      (∀ s ∈ users, s.id ≠ 0) → ∀ s ∈ (register users id name).2, s.id ≠ 0 := by
    intro users id name hid ih s hs
    unfold register at hs
    split at hs
    next => exact ih s hs
    next =>
      rcases List.mem_append.mp hs with hs | hs
      · exact ih s hs
      · rw [List.mem_singleton.mp hs]
        exact hid
  induction h with
  | empty =>
    intro s hs
    cases hs
  | @byId users sourceId out _ hv ih =>
    unfold valueOfId at hv
    split at hv
    next => cases hv; exact ih
    next =>
      split at hv
      next => cases hv; exact ih
      next =>
        by_cases hzero : sourceId = 0
        · rw [decodeName, if_pos hzero] at hv
          cases hv
        · cases hdecode : decodeName sourceId with
          | error e => rw [hdecode] at hv; cases hv
          | ok name => rw [hdecode] at hv; cases hv; exact hregister hzero ih
  | @byName users name out _ hv ih =>
    unfold valueOfName at hv
    split at hv
    next => cases hv; exact ih
    next =>
      cases hcompose : composeId name with
      | error e => rw [hcompose] at hv; cases hv
      | ok id =>
        rw [hcompose] at hv
        cases hv
        refine hregister (fun hzero => ?_) ih
        have := (composeId_ok hcompose).2
        rw [hzero] at this
        exact absurd this (by decide)

theorem named_source_id {s : OrderSource} (h : s ∈ namedSources) : 48 ≤ s.id.toInt :=
  (composeId_ok (named_sources_compose s h)).2

theorem eq_default_of_id {s : OrderSource} (h : IsOrderSource s) (hid : s.id = 0) :
    s = DEFAULT := by
  have hspecial : ∀ t ∈ specialSources, t.id ≠ 0 := by decide
  rcases h with h | ⟨users, hu, h⟩
  · rcases List.mem_append.mp h with h | h
    · exact absurd hid (hspecial s h)
    · rcases List.mem_cons.mp h with h | h
      · exact h
      · have := named_source_id h
        rw [hid] at this
        exact absurd this (by decide)
  · exact absurd hid (user_source_id hu s h)

end OrderSources
