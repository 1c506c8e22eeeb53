import DxFeedGraal.OrderIndices
import Mathlib.Data.List.Induction
import Mathlib.Data.List.Nodup

/-! # Identities of order sources

Packing a name and unpacking its number undo each other, and the registry, filled by
either lookup in any order, keeps one source for each name and for each number. -/
namespace SourceIdentities

open FixedWidthIntegers BitOperations OrderSources OrderIndices

/-- The names that have a number of their own. -/
def IsName (name : List Char) : Prop :=
  1 ≤ name.length ∧ name.length ≤ 4 ∧ ∀ c ∈ name, Alphanumeric c = true

/-- `IndexedEventSource::operator==`. -/
def equals (s t : OrderSource) : Bool := s.id == t.id

/-- A source over the part of an index that stands below it in the generic layout. -/
def packIndex (sourceId : Int32) (low : UInt32) : Int64 :=
  orOp (sal (staticCast sourceId : Int64) NONSPECIAL_SOURCE_ID_SHIFT) low

inductive Call where
  | byId (sourceId : Int32)
  | byName (name : List Char)
  deriving DecidableEq, Repr

def valueOf (users : UserSources) : Call → Except String (OrderSource × UserSources)
  | .byId sourceId => valueOfId users sourceId
  | .byName name => valueOfName users name

/-- A call that throws leaves the registry as it was. -/
def serve (users : UserSources) (call : Call) : UserSources :=
  match valueOf users call with
  | .ok out => out.2
  | .error _ => users

theorem registered_serve {users : UserSources} (h : Registered users) (call : Call) :
    Registered (serve users call) := by
  unfold serve
  cases hv : valueOf users call with
  | error e => exact h
  | ok out =>
    cases call with
    | byId sourceId => exact .byId h hv
    | byName name => exact .byName h hv

/-- The registries that arise are those that some sequence of calls leaves. -/
theorem registered_iff (users : UserSources) :
    Registered users ↔ ∃ calls : List Call, calls.foldl serve [] = users := by
  constructor
  · intro h
    induction h with
    | empty => exact ⟨[], rfl⟩
    | @byId users sourceId out _ hv ih =>
      obtain ⟨calls, rfl⟩ := ih
      exact ⟨calls ++ [.byId sourceId], by simp only [List.foldl_append, List.foldl_cons,
        List.foldl_nil, serve, valueOf, hv]⟩
    | @byName users name out _ hv ih =>
      obtain ⟨calls, rfl⟩ := ih
      exact ⟨calls ++ [.byName name], by simp only [List.foldl_append, List.foldl_cons,
        List.foldl_nil, serve, valueOf, hv]⟩
  · rintro ⟨calls, rfl⟩
    induction calls using List.reverseRecOn with
    | nil => exact .empty
    | append_singleton calls call ih =>
      rw [List.foldl_append]
      exact registered_serve ih call

/-! ## Packing and unpacking -/

/-- The shifts that are left when as many characters are still to come. -/
def shifts : ℕ → List Int32
  | 0 => []
  | k + 1 => Int32.ofNat (8 * k) :: shifts k

theorem value_shift {k : ℕ} (hk : k < 4) : value (Int32.ofNat (8 * k)) = 8 * k := by
  rcases k with _ | _ | _ | _ | k
  · rfl
  · rfl
  · rfl
  · rfl
  · omega

theorem toInt_sar_shift (id : Int32) {k : ℕ} (hk : k < 4) :
    (sar id (Int32.ofNat (8 * k))).toInt = id.toInt / 256 ^ k := by
  have hshift := value_shift hk
  have hsar := @value_sar Int32 Int32 _ _ id (Int32.ofNat (8 * k)) rfl (by omega)
  have habs : (value (Int32.ofNat (8 * k))).natAbs = 8 * k := by omega
  rw [habs, pow_mul] at hsar
  exact hsar

theorem toInt_low_byte (v : Int32) : (andOp v (0xff : Int32)).toInt = v.toInt % 256 :=
  value_andOp_low (a := v) (m := (0xff : Int32)) (k := 8) rfl (by decide) rfl (by decide)

/-- The character that a byte stands for, none of which is alphanumeric above 127. -/
theorem decodeChars_cons (id : Int32) {k : ℕ} (hk : k < 4) :
    decodeChars id (shifts (k + 1)) =
      if id.toInt / 256 ^ k = 0 then decodeChars id (shifts k)
      else if Alphanumeric (Char.ofNat (id.toInt / 256 ^ k % 256).toNat) = true
        then (decodeChars id (shifts k)).map (Char.ofNat (id.toInt / 256 ^ k % 256).toNat :: ·)
        else .error notAlphanumeric := by
  have hzero : sar id (Int32.ofNat (8 * k)) = 0 ↔ id.toInt / 256 ^ k = 0 := by
    rw [← toInt_sar_shift id hk, ← Int32.toInt_inj, Int32.toInt_zero]
  rw [shifts, decodeChars, toInt_low_byte, toInt_sar_shift id hk]
  by_cases h : id.toInt / 256 ^ k = 0
  · rw [if_pos (hzero.mpr h), if_pos h]
  · rw [if_neg (mt hzero.mp h), if_neg h]
    by_cases hc : Alphanumeric (Char.ofNat (id.toInt / 256 ^ k % 256).toNat) = true
    · simp only [checkChar, hc, if_true]
      cases decodeChars id (shifts k) <;> rfl
    · simp only [checkChar, hc]
      rfl

theorem packed_cons (z : ℤ) (c : Char) (cs : List Char) :
    packed z (c :: cs) = packed (z * 256 + c.toNat) cs := rfl

theorem packed_div {z : ℤ} {cs : List Char} (h : ∀ c ∈ cs, Alphanumeric c = true) :
    packed z cs / 256 ^ cs.length = z := by
  induction cs generalizing z with
  | nil => simp [packed]
  | cons c cs ih =>
    have hc := alphanumeric_bounds (h c List.mem_cons_self)
    rw [packed_cons, List.length_cons, pow_succ, ← Int.ediv_ediv_of_nonneg (by positivity),
      ih fun d hd => h d (List.mem_cons_of_mem c hd)]
    omega

theorem packed_lt {cs : List Char} (h : ∀ c ∈ cs, Alphanumeric c = true) :
    packed 0 cs < 256 ^ cs.length := by
  have hpos : (0 : ℤ) < 256 ^ cs.length := by positivity
  have hdiv := packed_div (z := 0) h
  have hmod := Int.emod_lt_of_pos (packed 0 cs) hpos
  have hsplit := Int.mul_ediv_add_emod (packed 0 cs) (256 ^ cs.length)
  rw [hdiv, mul_zero, zero_add] at hsplit
  omega

theorem toNat_byte {n : ℕ} (h : n < 256) : (Char.ofNat n).toNat = n := by
  have hvalid : n.isValidChar := Or.inl (by omega)
  rw [Char.ofNat, dif_pos hvalid]
  rfl

/-- Reading the bytes of a packed text gives its characters back. -/
theorem decodeChars_packed {id : Int32} {p : ℤ} {cs : List Char} (hp : 0 ≤ p)
    (hcs : ∀ c ∈ cs, Alphanumeric c = true) (hlen : cs.length ≤ 4)
    (hid : id.toInt = packed p cs) : decodeChars id (shifts cs.length) = .ok cs := by
  induction cs generalizing p with
  | nil => rfl
  | cons c cs ih =>
    have hc := hcs c List.mem_cons_self
    have hb := alphanumeric_bounds hc
    have htail : ∀ d ∈ cs, Alphanumeric d = true := fun d hd => hcs d (List.mem_cons_of_mem c hd)
    have hdiv : id.toInt / 256 ^ cs.length = p * 256 + c.toNat := by
      rw [hid, packed_cons, packed_div htail]
    have hbyte : (id.toInt / 256 ^ cs.length % 256).toNat = c.toNat := by omega
    rw [List.length_cons] at hlen ⊢
    rw [decodeChars_cons id (by omega), if_neg (by omega), hbyte, Char.ofNat_toNat, if_pos hc,
      ih (p := p * 256 + c.toNat) (by omega) htail (by omega) hid]
    rfl

theorem decodeChars_skip {id : Int32} {m : ℕ} (h : 0 ≤ id.toInt) (hid : id.toInt < 256 ^ m)
    (j : ℕ) (hj : m + j ≤ 4) : decodeChars id (shifts (m + j)) = decodeChars id (shifts m) := by
  induction j with
  | zero => rfl
  | succ j ih =>
    have hle : (256 : ℤ) ^ m ≤ 256 ^ (m + j) := pow_le_pow_right₀ (by norm_num) (by omega)
    rw [← Nat.add_assoc, decodeChars_cons id (by omega),
      if_pos (Int.ediv_eq_zero_of_lt h (by omega)), ih (by omega)]

/-- Whatever is read spells the number from where the reading began. -/
theorem decodeChars_ok {id : Int32} {m : ℕ} {cs : List Char} (hm : m ≤ 4)
    (hok : decodeChars id (shifts m) = .ok cs) :
    cs.length ≤ m ∧ (∀ c ∈ cs, Alphanumeric c = true) ∧
      id.toInt = packed (id.toInt / 256 ^ m) cs := by
  induction m generalizing cs with
  | zero =>
    cases hok
    exact ⟨le_refl 0, fun c hc => absurd hc List.not_mem_nil, by simp [packed]⟩
  | succ m ih =>
    have hnext : id.toInt / 256 ^ (m + 1) = id.toInt / 256 ^ m / 256 := by
      rw [pow_succ, Int.ediv_ediv_of_nonneg (by positivity)]
    rw [decodeChars_cons id (by omega)] at hok
    split at hok
    next hzero =>
      obtain ⟨hlen, hcs, hid⟩ := ih (by omega) hok
      refine ⟨by omega, hcs, ?_⟩
      rw [hnext, hzero]
      rw [hzero] at hid
      exact hid
    next hzero =>
      split at hok
      next hc =>
        cases hrest : decodeChars id (shifts m) with
        | error e => rw [hrest] at hok; cases hok
        | ok rest =>
          rw [hrest] at hok
          cases hok
          obtain ⟨hlen, hcs, hid⟩ := ih (by omega) hrest
          refine ⟨by simpa using hlen, List.forall_mem_cons.mpr ⟨hc, hcs⟩, ?_⟩
          have hchar : ((Char.ofNat (id.toInt / 256 ^ m % 256).toNat).toNat : ℤ) =
              id.toInt / 256 ^ m % 256 := by
            rw [toNat_byte (by omega)]
            omega
          rw [packed_cons, hchar, hnext]
          have hsplit : id.toInt / 256 ^ m / 256 * 256 + id.toInt / 256 ^ m % 256 =
              id.toInt / 256 ^ m := by omega
          rw [hsplit]
          exact hid
      next => cases hok

/-- The sign bit makes a byte that no name has. -/
theorem decodeName_nonneg {id : Int32} {name : List Char} (h : decodeName id = .ok name) :
    0 ≤ id.toInt := by
  by_contra hneg
  have hb := int32_bounds id
  unfold decodeName at h
  split at h
  next => cases h
  next =>
    change decodeChars id (shifts 4) = .ok name at h
    rw [decodeChars_cons id (by omega)] at h
    have hbyte : 128 ≤ id.toInt / 256 ^ 3 % 256 := by omega
    rw [if_neg (by omega), if_neg] at h
    · cases h
    · intro hc
      have hc := (alphanumeric_bounds hc).2
      rw [toNat_byte (by omega)] at hc
      omega

theorem composeChars_total {sourceId : Int32} {cs : List Char}
    (h : ∀ c ∈ cs, Alphanumeric c = true) : ∃ id, composeChars sourceId cs = .ok id := by
  induction cs generalizing sourceId with
  | nil => exact ⟨sourceId, rfl⟩
  | cons c cs ih =>
    obtain ⟨id, hid⟩ := @ih (orOp (sal sourceId (8 : Int32)) c.toNat.toUInt8)
      fun d hd => h d (List.mem_cons_of_mem c hd)
    refine ⟨id, ?_⟩
    simp only [composeChars, checkChar, h c List.mem_cons_self, if_true]
    exact hid

theorem composeChars_alphanumeric {sourceId id : Int32} {cs : List Char}
    (h : composeChars sourceId cs = .ok id) : ∀ c ∈ cs, Alphanumeric c = true := by
  induction cs generalizing sourceId with
  | nil => exact fun c hc => absurd hc List.not_mem_nil
  | cons c cs ih =>
    by_cases hc : Alphanumeric c = true
    · simp only [composeChars, checkChar, hc, if_true] at h
      exact List.forall_mem_cons.mpr ⟨hc, ih h⟩
    · simp only [composeChars, checkChar, hc] at h
      cases h

/-- Exactly the names have a number. -/
theorem composeId_total_iff (name : List Char) :
    (∃ id, composeId name = .ok id) ↔ IsName name := by
  unfold composeId IsName
  split
  next hlen =>
    constructor
    · rintro ⟨id, h⟩
      cases h
    · intro h
      omega
  next hlen =>
    constructor
    · rintro ⟨id, h⟩
      exact ⟨by omega, by omega, composeChars_alphanumeric h⟩
    · intro h
      exact composeChars_total h.2.2

/-- Unpacking and packing undo each other. -/
theorem decodeName_ok_iff (id : Int32) (name : List Char) :
    decodeName id = .ok name ↔ composeId name = .ok id := by
  constructor
  · intro h
    have hnonneg := decodeName_nonneg h
    unfold decodeName at h
    split at h
    next => cases h
    next hzero =>
      change decodeChars id (shifts 4) = .ok name at h
      have hb := int32_bounds id
      obtain ⟨hlen, hcs, hid⟩ := decodeChars_ok (by omega) h
      have htop : id.toInt / 256 ^ 4 = 0 := by omega
      rw [htop] at hid
      have hname : IsName name := by
        refine ⟨?_, hlen, hcs⟩
        by_contra hempty
        rw [List.length_eq_zero_iff.mp (by omega : name.length = 0)] at hid
        exact hzero (Int32.toInt_inj.mp hid)
      obtain ⟨id', hid'⟩ := (composeId_total_iff name).mpr hname
      have := (composeId_ok hid').1
      rw [hid', Int32.toInt_inj.mp (this.trans hid.symm)]
  · intro h
    obtain ⟨hpacked, hlow⟩ := composeId_ok h
    obtain ⟨-, hlen, hcs⟩ := (composeId_total_iff name).mp ⟨id, h⟩
    have hzero : id ≠ 0 := by
      rintro rfl
      exact absurd hlow (by decide)
    rw [decodeName, if_neg hzero]
    change decodeChars id (shifts 4) = .ok name
    have hskip := decodeChars_skip (m := name.length) (by omega : 0 ≤ id.toInt)
      (by rw [hpacked]; exact packed_lt hcs) (4 - name.length) (by omega)
    rw [show name.length + (4 - name.length) = 4 by omega] at hskip
    rw [hskip]
    exact decodeChars_packed (le_refl 0) hcs hlen hpacked

/-! ## The registry -/

/-- Every source that a call registered carries the number of its name, which no predefined
source has, and no two carry one number. -/
structure WellRegistered (users : UserSources) : Prop where
  composed : ∀ s ∈ users, composeId s.name = .ok s.id
  not_predefined : ∀ s ∈ users, findById PREDEFINED_SOURCES s.id = none
  distinct : (users.map OrderSource.id).Nodup

theorem findById_eq_some {sources : List OrderSource} {id : Int32} {s : OrderSource}
    (h : findById sources id = some s) : s ∈ sources ∧ s.id = id :=
  ⟨List.mem_of_find?_eq_some h, by simpa using List.find?_some h⟩

theorem findById_eq_none {sources : List OrderSource} {id : Int32}
    (h : findById sources id = none) : ∀ s ∈ sources, s.id ≠ id := by
  intro s hs
  simpa using List.find?_eq_none.mp h s hs

/-- A source is found under its number wherever numbers do not repeat. -/
theorem findById_of_mem {sources : List OrderSource} (h : (sources.map OrderSource.id).Nodup)
    {s : OrderSource} (hs : s ∈ sources) : findById sources s.id = some s := by
  cases hfind : findById sources s.id with
  | none => exact absurd rfl (findById_eq_none hfind s hs)
  | some t =>
    obtain ⟨ht, hid⟩ := findById_eq_some hfind
    rw [List.inj_on_of_nodup_map h ht hs hid]

theorem predefined_distinct : (PREDEFINED_SOURCES.map OrderSource.id).Nodup := by
  decide +kernel

/-- The number of a name belongs to a predefined source only together with the name. -/
theorem predefined_name {name : List Char} {id : Int32} (h : composeId name = .ok id)
    (hname : findByName PREDEFINED_SOURCES name = none) :
    findById PREDEFINED_SOURCES id = none := by
  have hlow := (composeId_ok h).2
  have hsmall : ∀ s ∈ DEFAULT :: specialSources, s.id.toInt < 48 := by decide
  cases hfind : findById PREDEFINED_SOURCES id with
  | none => rfl
  | some s =>
    obtain ⟨hs, hid⟩ := findById_eq_some hfind
    have hnames : s.name ≠ name := by
      intro heq
      exact absurd heq (by simpa using List.find?_eq_none.mp hname s hs)
    have hcases : s ∈ DEFAULT :: specialSources ∨ s ∈ namedSources := by
      simp only [PREDEFINED_SOURCES, List.mem_append, List.mem_cons] at hs ⊢
      tauto
    rcases hcases with hs | hs
    · have := hsmall s hs
      rw [hid] at this
      omega
    · have hcompose := named_sources_compose s hs
      rw [hid, ← decodeName_ok_iff, (decodeName_ok_iff id name).mpr h] at hcompose
      cases hcompose
      exact absurd rfl hnames

theorem wellRegistered_register {users : UserSources} (h : WellRegistered users) {id : Int32}
    {name : List Char} (hcompose : composeId name = .ok id)
    (hfind : findById PREDEFINED_SOURCES id = none) :
    WellRegistered (register users id name).2 := by
  unfold register
  split
  next => exact h
  next hnew =>
    have hfresh := findById_eq_none hnew
    constructor
    · intro s hs
      rcases List.mem_append.mp hs with hs | hs
      · exact h.composed s hs
      · rw [List.mem_singleton.mp hs]
        exact hcompose
    · intro s hs
      rcases List.mem_append.mp hs with hs | hs
      · exact h.not_predefined s hs
      · rw [List.mem_singleton.mp hs]
        exact hfind
    · rw [List.map_append, List.nodup_append]
      refine ⟨h.distinct, List.nodup_singleton id, fun a ha b hb => ?_⟩
      obtain ⟨s, hs, rfl⟩ := List.mem_map.mp ha
      rw [List.mem_singleton.mp hb]
      exact hfresh s hs

/-- What a lookup by number amounts to. -/
theorem valueOfId_cases {users : UserSources} {id : Int32} {out : OrderSource × UserSources}
    (h : valueOfId users id = .ok out) :
    (findById PREDEFINED_SOURCES id = some out.1 ∧ out.2 = users) ∨
      (findById PREDEFINED_SOURCES id = none ∧ findById users id = some out.1 ∧
        out.2 = users) ∨
      findById PREDEFINED_SOURCES id = none ∧
        ∃ name, decodeName id = .ok name ∧ register users id name = out := by
  unfold valueOfId at h
  split at h
  next s hs => cases h; exact Or.inl ⟨hs, rfl⟩
  next hnone =>
    right
    split at h
    next s hs => cases h; exact Or.inl ⟨hnone, hs, rfl⟩
    next =>
      cases hdecode : decodeName id with
      | error e => rw [hdecode] at h; cases h
      | ok name =>
        rw [hdecode] at h
        cases h
        exact Or.inr ⟨hnone, name, rfl, rfl⟩

theorem valueOfName_cases {users : UserSources} {name : List Char}
    {out : OrderSource × UserSources} (h : valueOfName users name = .ok out) :
    (findByName PREDEFINED_SOURCES name = some out.1 ∧ out.2 = users) ∨
      findByName PREDEFINED_SOURCES name = none ∧
        ∃ id, composeId name = .ok id ∧ register users id name = out := by
  unfold valueOfName at h
  split at h
  next s hs => cases h; exact Or.inl ⟨hs, rfl⟩
  next hnone =>
    cases hcompose : composeId name with
    | error e => rw [hcompose] at h; cases h
    | ok id =>
      rw [hcompose] at h
      cases h
      exact Or.inr ⟨hnone, id, rfl, rfl⟩

theorem wellRegistered_serve {users : UserSources} (h : WellRegistered users) (call : Call) :
    WellRegistered (serve users call) := by
  unfold serve
  cases hv : valueOf users call with
  | error e => exact h
  | ok out =>
    cases call with
    | byId sourceId =>
      rcases valueOfId_cases hv with ⟨-, hout⟩ | ⟨-, -, hout⟩ | ⟨hnone, name, hname, hout⟩
      · exact hout ▸ h
      · exact hout ▸ h
      · exact hout ▸ wellRegistered_register h ((decodeName_ok_iff sourceId name).mp hname) hnone
    | byName name =>
      rcases valueOfName_cases hv with ⟨-, hout⟩ | ⟨hnone, id, hid, hout⟩
      · exact hout ▸ h
      · exact hout ▸ wellRegistered_register h hid (predefined_name hid hnone)

theorem wellRegistered_calls {users : UserSources} (h : WellRegistered users)
    (calls : List Call) : WellRegistered (calls.foldl serve users) := by
  induction calls generalizing users with
  | nil => exact h
  | cons call calls ih => exact ih (wellRegistered_serve h call)

/-- The sources a program can hold in a state of the registry. -/
def Known (users : UserSources) (s : OrderSource) : Prop := s ∈ PREDEFINED_SOURCES ∨ s ∈ users

theorem register_spec (users : UserSources) (id : Int32) (name : List Char) :
    users <+: (register users id name).2 ∧ (register users id name).1 ∈ (register users id name).2 ∧
      (register users id name).1.id = id := by
  unfold register
  split
  next s hs =>
    obtain ⟨hmem, hid⟩ := findById_eq_some hs
    exact ⟨List.prefix_refl users, hmem, hid⟩
  next => exact ⟨List.prefix_append users _, by simp, rfl⟩

theorem prefix_serve (users : UserSources) (call : Call) : users <+: serve users call := by
  unfold serve
  cases hv : valueOf users call with
  | error e => exact List.prefix_refl users
  | ok out =>
    cases call with
    | byId sourceId =>
      rcases valueOfId_cases hv with ⟨-, hout⟩ | ⟨-, -, hout⟩ | ⟨-, name, -, hout⟩
      · exact hout ▸ List.prefix_refl users
      · exact hout ▸ List.prefix_refl users
      · exact hout ▸ (register_spec users sourceId name).1
    | byName name =>
      rcases valueOfName_cases hv with ⟨-, hout⟩ | ⟨-, id, -, hout⟩
      · exact hout ▸ List.prefix_refl users
      · exact hout ▸ (register_spec users id name).1

theorem prefix_calls (users : UserSources) (calls : List Call) :
    users <+: calls.foldl serve users := by
  induction calls generalizing users with
  | nil => exact List.prefix_refl users
  | cons call calls ih => exact (prefix_serve users call).trans (ih (serve users call))

/-- A known source is what its number gives, then and later. -/
theorem valueOfId_of_known {users : UserSources} (h : WellRegistered users) {s : OrderSource}
    (hs : Known users s) : valueOfId users s.id = .ok (s, users) := by
  rcases hs with hs | hs
  · rw [valueOfId, findById_of_mem predefined_distinct hs]
  · rw [valueOfId, h.not_predefined s hs]
    simp only [findById_of_mem h.distinct hs]

theorem valueOfId_known {users : UserSources} {id : Int32} {out : OrderSource × UserSources}
    (h : valueOfId users id = .ok out) : Known out.2 out.1 ∧ out.1.id = id := by
  rcases valueOfId_cases h with ⟨hfind, -⟩ | ⟨-, hfind, hout⟩ | ⟨-, name, -, hout⟩
  · obtain ⟨hmem, hid⟩ := findById_eq_some hfind
    exact ⟨Or.inl hmem, hid⟩
  · obtain ⟨hmem, hid⟩ := findById_eq_some hfind
    exact ⟨Or.inr (hout ▸ hmem), hid⟩
  · obtain ⟨-, hmem, hid⟩ := register_spec users id name
    rw [hout] at hmem hid
    exact ⟨Or.inr hmem, hid⟩

theorem valueOfName_known {users : UserSources} (h : WellRegistered users) {name : List Char}
    {out : OrderSource × UserSources} (hv : valueOfName users name = .ok out) :
    Known out.2 out.1 ∧ out.1.name = name := by
  rcases valueOfName_cases hv with ⟨hfind, -⟩ | ⟨hnone, id, hid, hout⟩
  · exact ⟨Or.inl (List.mem_of_find?_eq_some hfind), by simpa using List.find?_some hfind⟩
  · obtain ⟨-, hmem, hnumber⟩ := register_spec users id name
    have hwell := wellRegistered_register h hid (predefined_name hid hnone)
    have hcompose := hwell.composed _ hmem
    rw [hnumber, ← decodeName_ok_iff, (decodeName_ok_iff id name).mpr hid] at hcompose
    rw [hout] at hmem hcompose
    exact ⟨Or.inr hmem, (Except.ok.inj hcompose).symm⟩

/-- The names that `valueOf` takes. -/
def Accepted (name : List Char) : Prop :=
  (∃ s ∈ PREDEFINED_SOURCES, s.name = name) ∨ IsName name

theorem valueOfName_ok_iff (users : UserSources) (name : List Char) :
    (∃ out, valueOfName users name = .ok out) ↔ Accepted name := by
  unfold valueOfName
  cases hfind : findByName PREDEFINED_SOURCES name with
  | some s =>
    have hs : s.name = name := by simpa using List.find?_some hfind
    exact iff_of_true ⟨_, rfl⟩ (Or.inl ⟨s, List.mem_of_find?_eq_some hfind, hs⟩)
  | none =>
    have hnone : ¬ ∃ s ∈ PREDEFINED_SOURCES, s.name = name := by
      simpa using List.find?_eq_none.mp hfind
    rw [Accepted, or_iff_right hnone, ← composeId_total_iff]
    cases composeId name with
    | ok id => exact iff_of_true ⟨_, rfl⟩ ⟨id, rfl⟩
    | error e => exact iff_of_false (fun ⟨_, h⟩ => nomatch h) fun ⟨_, h⟩ => nomatch h

/-- The numbers that `valueOf` takes: those of known sources and of names. -/
theorem valueOfId_ok_iff (users : UserSources) (id : Int32) :
    (∃ out, valueOfId users id = .ok out) ↔
      (∃ s, Known users s ∧ s.id = id) ∨ ∃ name, composeId name = .ok id := by
  constructor
  · rintro ⟨out, hout⟩
    rcases valueOfId_cases hout with ⟨hfind, -⟩ | ⟨-, hfind, -⟩ | ⟨-, name, hname, -⟩
    · obtain ⟨hmem, hid⟩ := findById_eq_some hfind
      exact .inl ⟨out.1, .inl hmem, hid⟩
    · obtain ⟨hmem, hid⟩ := findById_eq_some hfind
      exact .inl ⟨out.1, .inr hmem, hid⟩
    · exact .inr ⟨name, (decodeName_ok_iff id name).mp hname⟩
  · intro h
    unfold valueOfId
    split
    next => exact ⟨_, rfl⟩
    next hpredefined =>
      split
      next => exact ⟨_, rfl⟩
      next husers =>
        rcases h with ⟨s, hs | hs, hid⟩ | ⟨name, hname⟩
        · exact absurd hid (findById_eq_none hpredefined s hs)
        · exact absurd hid (findById_eq_none husers s hs)
        · rw [(decodeName_ok_iff id name).mpr hname]
          exact ⟨_, rfl⟩

/-- What the lookups promise in a state of the registry, and from it on. -/
structure LookupLaws (users : UserSources) : Prop where
  name_taken : ∀ name, (∃ out, valueOfName users name = .ok out) ↔ Accepted name
  id_taken : ∀ id, (∃ out, valueOfId users id = .ok out) ↔
    (∃ s, Known users s ∧ s.id = id) ∨ ∃ name, composeId name = .ok id
  name_kept : ∀ name out, valueOfName users name = .ok out → out.1.name = name
  id_kept : ∀ id out, valueOfId users id = .ok out → out.1.id = id
  found_again : ∀ name out, valueOfName users name = .ok out →
    ∀ calls : List Call, ∃ again,
      valueOfId (calls.foldl serve out.2) out.1.id = .ok again ∧ again.1 = out.1
  equal_iff : ∀ s t, Known users s → Known users t →
    (equals s t = true ↔ s.id = t.id) ∧ (s.id = t.id ↔ s = t)

theorem wellRegistered_valueOfName {users : UserSources} (h : WellRegistered users)
    {name : List Char} {out : OrderSource × UserSources}
    (hv : valueOfName users name = .ok out) : WellRegistered out.2 := by
  have hserve := wellRegistered_serve h (.byName name)
  rwa [serve, valueOf, hv] at hserve

theorem lookupLaws_of_wellRegistered {users : UserSources} (h : WellRegistered users) :
    LookupLaws users := by
  refine ⟨valueOfName_ok_iff users, valueOfId_ok_iff users, ?_, ?_, ?_, ?_⟩
  · intro name out hv
    exact (valueOfName_known h hv).2
  · intro id out hv
    exact (valueOfId_known hv).2
  · intro name out hv calls
    have hlater := wellRegistered_calls (wellRegistered_valueOfName h hv) calls
    have hknown : Known (calls.foldl serve out.2) out.1 :=
      (valueOfName_known h hv).1.imp_right ((prefix_calls out.2 calls).mem ·)
    exact ⟨_, valueOfId_of_known hlater hknown, rfl⟩
  · intro s t hs ht
    refine ⟨beq_iff_eq, fun hid => ?_, fun heq => heq ▸ rfl⟩
    have hfound := valueOfId_of_known h hs
    rw [hid, valueOfId_of_known h ht] at hfound
    cases hfound
    rfl

/-! ## Names and the special numbers -/

theorem value_packIndex {id : Int32} (h : 0 ≤ id.toInt) (low : UInt32) :
    (packIndex id low).toInt = id.toInt * 2 ^ 32 + low.toNat := by
  have hb := int32_bounds id
  have hlow := low.toNat_lt
  have hid := @value_sal_id id NONSPECIAL_SOURCE_ID_SHIFT h
    (by rw [show NONSPECIAL_SOURCE_ID_SHIFT.toNat = 32 from rfl]; omega)
  rw [show NONSPECIAL_SOURCE_ID_SHIFT.toNat = 32 from rfl] at hid
  have hor := value_orOp_disjoint (a := sal (staticCast id : Int64) NONSPECIAL_SOURCE_ID_SHIFT)
    (m := low) (k := 32) rfl (by decide) (by rw [hid]; omega) (by simp) (by simp; omega)
    (by decide)
  rw [hid] at hor
  exact hor

/-- A name of one or two characters leaves nothing above bit 48, a longer one its first. -/
theorem packed_name_bounds {name : List Char} {id : Int32} (h : composeId name = .ok id) :
    id.toInt < 2 ^ 16 ∨ 48 * 2 ^ 16 ≤ id.toInt := by
  obtain ⟨hid, -⟩ := composeId_ok h
  obtain ⟨-, -, hcs⟩ := (composeId_total_iff name).mp ⟨id, h⟩
  rw [hid]
  rcases name with _ | ⟨a, _ | ⟨b, _ | ⟨c, rest⟩⟩⟩
  · left
    decide
  · left
    have := packed_lt hcs
    simp only [List.length_cons, List.length_nil] at this
    omega
  · left
    have := packed_lt hcs
    simp only [List.length_cons, List.length_nil] at this
    omega
  · right
    have ha := alphanumeric_bounds (hcs a List.mem_cons_self)
    rw [packed_cons, packed_cons, packed_cons]
    have := le_packed (z := ((0 * 256 + a.toNat) * 256 + b.toNat) * 256 + c.toNat)
      (by omega) rest
    omega

/-- No number of a name is special, neither as it is nor as it shows above bit 48. -/
theorem name_not_special {name : List Char} {id : Int32} (h : composeId name = .ok id) :
    isSpecialSourceId id = false ∧ ∀ low, isSpecialSourceId
      (staticCast (sar (packIndex id low) SPECIAL_SOURCE_ID_SHIFT)) = false := by
  have hlow := (composeId_ok h).2
  have hb := int32_bounds id
  refine ⟨by rw [Bool.eq_false_iff, ne_eq, special_id_bounds]; omega, fun low => ?_⟩
  have hl := low.toNat_lt
  have hsar : value (sar (packIndex id low) SPECIAL_SOURCE_ID_SHIFT) = id.toInt / 2 ^ 16 := by
    rw [value_sar rfl (by decide), value_int64, value_packIndex (by omega)]
    rw [show (value SPECIAL_SOURCE_ID_SHIFT).natAbs = 48 from rfl]
    omega
  have hread : (staticCast (sar (packIndex id low) SPECIAL_SOURCE_ID_SHIFT) : Int32).toInt =
      id.toInt / 2 ^ 16 := by
    rw [staticCast, hsar, toInt_wrap_int32 (by omega) (by omega)]
  rw [Bool.eq_false_iff, ne_eq, special_id_bounds, hread]
  rcases packed_name_bounds h with hshort | hlong <;> omega

/-- Names and numbers correspond, after any calls of the lookups in any order. -/
theorem source_identity :
    (∀ name, IsName name → ∃ id, composeId name = .ok id ∧ decodeName id = .ok name) ∧
      (∀ id name, decodeName id = .ok name → IsName name ∧ composeId name = .ok id) ∧
      (∀ name id, composeId name = .ok id → isSpecialSourceId id = false ∧
        ∀ low, isSpecialSourceId
          (staticCast (sar (packIndex id low) SPECIAL_SOURCE_ID_SHIFT)) = false) ∧
      ∀ calls : List Call, LookupLaws (calls.foldl serve []) := by
  refine ⟨fun name hname => ?_, fun id name hdecode => ?_, fun name id => name_not_special,
    fun calls => ?_⟩
  · obtain ⟨id, hid⟩ := (composeId_total_iff name).mpr hname
    exact ⟨id, hid, (decodeName_ok_iff id name).mpr hid⟩
  · have hid := (decodeName_ok_iff id name).mp hdecode
    exact ⟨(composeId_total_iff name).mp ⟨id, hid⟩, hid⟩
  · have hempty : WellRegistered [] := by
      refine ⟨fun s hs => ?_, fun s hs => ?_, List.nodup_nil⟩
      · cases hs
      · cases hs
    exact lookupLaws_of_wellRegistered (wellRegistered_calls hempty calls)

end SourceIdentities
