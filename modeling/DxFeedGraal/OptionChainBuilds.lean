import DxFeedGraal.KeyedRuns
import DxFeedGraal.OptionGroupings

/-! # Building option chains

Every accepted profile goes to the chains of its product and of its underlying. The chains are
machines under their symbols; a build runs each of them over the profiles listed for it. -/
namespace OptionChains

open CppStrings DoubleValues NativeStrings PartialRuns KeyedRuns

variable {π : Type*}

/-! ## One turn of the loop -/

/-- The symbols to whose chains a profile goes; one symbol may stand twice. -/
def InstrumentProfile.symbols (p : InstrumentProfile) : List Text :=
  if p.Accepted then [orEmpty p.product, orEmpty p.underlying].filter (· ≠ []) else []

theorem InstrumentProfile.mem_symbols {p : InstrumentProfile} {symbol : Text} :
    symbol ∈ p.symbols ↔ p.Listed symbol := by
  unfold InstrumentProfile.symbols InstrumentProfile.Listed
  split
  next h =>
    rw [List.mem_filter, decide_eq_true_eq, List.mem_cons, List.mem_singleton]
    constructor
    · rintro ⟨hsymbol, hne⟩
      exact ⟨h, hne, hsymbol.imp Eq.symm Eq.symm⟩
    · rintro ⟨-, hne, hsymbol⟩
      exact ⟨hsymbol.imp Eq.symm Eq.symm, hne⟩
  next h =>
    constructor
    · intro hmem
      cases hmem
    · intro hlisted
      exact absurd hlisted.1 h

theorem OptionChain.add_symbol {profile : π → InstrumentProfile} {c c' : OptionChain π} {ip : π}
    (h : c.add profile ip = some c') : c'.symbol = c.symbol := by
  unfold OptionChain.add OptionChain.addOption at h
  split at h
  next =>
    split at h
    · cases h
      rfl
    · cases h
      rfl
  next => cases h

variable (profile : π → InstrumentProfile)

def chainMachine : Machine Text (OptionChain π) π where
  key := OptionChain.symbol
  fresh symbol := { symbol := symbol }
  step := OptionChain.add profile
  key_fresh _ := rfl
  key_step _ _ _ h := OptionChain.add_symbol h

/-- The builder has read the profile. -/
structure Holds (p : InstrumentProfile) (b : OptionChainsBuilder π) : Prop where
  product : b.product = orEmpty p.product
  underlying : b.underlying = orEmpty p.underlying
  series : b.series = p.series
  cfi : b.cfi = orEmpty p.cfi
  strike : b.strike = p.strike

/-- The options of the builder's own series stay empty. -/
def Clean (b : OptionChainsBuilder π) : Prop :=
  b.series.calls = [] ∧ b.series.puts = [] ∧ b.series.strikes = []

variable {profile}

theorem Holds.clean {p : InstrumentProfile} {b : OptionChainsBuilder π} (h : Holds p b) :
    Clean b := by
  unfold Clean
  rw [h.series]
  exact ⟨rfl, rfl, rfl⟩

theorem Clean.setAll {b : OptionChainsBuilder π} (h : Clean b) (p : InstrumentProfile) :
    Holds p (b.setAll p) := by
  obtain ⟨product, underlying, series, cfi, strike, chains⟩ := b
  obtain ⟨hcalls, hputs, hstrikes⟩ := h
  refine ⟨rfl, rfl, ?_, rfl, rfl⟩
  cases series
  cases hcalls
  cases hputs
  cases hstrikes
  rfl

theorem isPrefixOf_orEmpty (side : Char) (cfi : Text) :
    ['O', side].isPrefixOf (orEmpty cfi) = ['O', side].isPrefixOf cfi := by
  unfold orEmpty
  split
  next h =>
    rcases h with rfl | rfl
    · rfl
    · rfl
  next => rfl

theorem addToChain_eq {p : InstrumentProfile} {b : OptionChainsBuilder π} {ip : π}
    (hp : profile ip = p) (h : Holds p b) (symbol : Text) :
    b.addToChain symbol p.isCall ip =
      ((chainMachine profile).stepAt b.chains (symbol, ip)).map fun chains =>
        { b with chains := chains } := by
  unfold OptionChainsBuilder.addToChain
  rw [h.series, h.strike, ← hp]
  exact (Option.map_map _ _ _).symm

/-- What a profile brings to the chains. -/
def deliveries (profile : π → InstrumentProfile) (ip : π) : List (Text × π) :=
  (profile ip).symbols.map fun symbol => (symbol, ip)

theorem addWhereSet_eq {p : InstrumentProfile} {b : OptionChainsBuilder π} {ip : π}
    (hp : profile ip = p) (h : Holds p b) (symbol : Text) :
    (if symbol ≠ [] then b.addToChain symbol p.isCall ip else some b) =
      (run (chainMachine profile).stepAt b.chains
        (([symbol].filter (· ≠ [])).map fun symbol => (symbol, ip))).map fun chains =>
          { b with chains := chains } := by
  by_cases hsymbol : symbol = []
  · simp [hsymbol]
  · rw [if_pos hsymbol, addToChain_eq hp h, List.filter_cons_of_pos (by simpa using hsymbol)]
    change _ = (((chainMachine profile).stepAt b.chains (symbol, ip)).bind some).map _
    rw [Option.bind_fun_some]

/-- An option that is not refused goes to the chain of the product and then to the other one. -/
theorem addOption_of_valid {b : OptionChainsBuilder π} {isCall : Bool}
    (hside : "OC".toList.isPrefixOf b.cfi = isCall)
    (hcode : isCall = true ∨ "OP".toList.isPrefixOf b.cfi = true)
    (hexpiration : b.series.expiration ≠ 0) (hnan : b.strike.isNaN = false)
    (hinf : b.strike.isInf = false) (option : π) : b.addOption option =
      (if b.product ≠ [] then b.addToChain b.product isCall option else some b).bind fun b =>
        if b.underlying ≠ [] then b.addToChain b.underlying isCall option else some b := by
  subst hside
  have hknown : ¬ (!"OC".toList.isPrefixOf b.cfi && !"OP".toList.isPrefixOf b.cfi) = true := by
    rcases hcode with hcall | hput
    · rw [hcall]
      exact Bool.false_ne_true
    · rw [hput, Bool.not_true, Bool.and_false]
      exact Bool.false_ne_true
  have hstrike : ¬ (b.strike.isNaN || b.strike.isInf) = true := by
    rw [hnan, hinf]
    exact Bool.false_ne_true
  unfold OptionChainsBuilder.addOption
  simp only []
  rw [if_neg hknown, if_neg hexpiration, if_neg hstrike]
  split
  · rfl
  · rfl

theorem Holds.isCall {p : InstrumentProfile} {b : OptionChainsBuilder π} (h : Holds p b) :
    "OC".toList.isPrefixOf b.cfi = p.isCall := by
  rw [h.cfi]
  exact isPrefixOf_orEmpty 'C' p.cfi

theorem Holds.isPut {p : InstrumentProfile} {b : OptionChainsBuilder π} (h : Holds p b) :
    "OP".toList.isPrefixOf b.cfi = "OP".toList.isPrefixOf p.cfi := by
  rw [h.cfi]
  exact isPrefixOf_orEmpty 'P' p.cfi

theorem addOption_accepted {p : InstrumentProfile} {b : OptionChainsBuilder π} {ip : π}
    (hp : profile ip = p) (h : Holds p b) (haccepted : p.Accepted) :
    b.addOption ip = (run (chainMachine profile).stepAt b.chains (deliveries profile ip)).map
      fun chains => { b with chains := chains } := by
  have hdeliveries : deliveries profile ip =
      ([b.product].filter (· ≠ [])).map (fun symbol => (symbol, ip)) ++
        ([b.underlying].filter (· ≠ [])).map fun symbol => (symbol, ip) := by
    rw [deliveries, hp, InstrumentProfile.symbols, h.product, h.underlying, if_pos haccepted,
      ← List.map_append, ← List.filter_append]
    rfl
  obtain ⟨-, hcfi, hexpiration, hnan, hinf⟩ := haccepted
  rw [addOption_of_valid h.isCall (h.isPut ▸ hcfi) (h.series ▸ hexpiration) (h.strike ▸ hnan)
    (h.strike ▸ hinf), addWhereSet_eq hp h, hdeliveries, run_append, Option.map_bind,
    Option.bind_map]
  congr 1
  funext chains
  have hnext : Holds p { b with chains := chains } :=
    ⟨h.product, h.underlying, h.series, h.cfi, h.strike⟩
  exact addWhereSet_eq hp hnext _

theorem addOption_refused {p : InstrumentProfile} {b : OptionChainsBuilder π} (h : Holds p b)
    (htype : p.type = "OPTION".toList) (hrefused : ¬ p.Accepted) (option : π) :
    b.addOption option = some b := by
  unfold OptionChainsBuilder.addOption
  simp only [h.isCall, h.isPut, h.strike]
  split
  next => rfl
  next hcode =>
    split
    next => rfl
    next hexpiration =>
      rw [if_pos]
      by_contra hstrike
      have hnumber : p.strike.isNaN = false ∧ p.strike.isInf = false := by simpa using hstrike
      have hcfi : p.isCall = true ∨ "OP".toList.isPrefixOf p.cfi = true := by
        cases hcall : p.isCall with
        | true => exact Or.inl rfl
        | false =>
          rw [hcall, Bool.not_false, Bool.true_and, Bool.not_eq_true', Bool.not_eq_false] at hcode
          exact Or.inr hcode
      rw [h.series] at hexpiration
      exact hrefused ⟨htype, hcfi, hexpiration, hnumber.1, hnumber.2⟩

/-- A turn of the loop hands the profile to its chains and does nothing else to them. -/
theorem addProfile_chains {b : OptionChainsBuilder π} (hclean : Clean b) (ip : π) :
    (b.addProfile profile ip).map OptionChainsBuilder.chains =
        run (chainMachine profile).stepAt b.chains (deliveries profile ip) ∧
      ∀ b', b.addProfile profile ip = some b' → Clean b' := by
  have hnothing : ¬ (profile ip).Accepted → deliveries profile ip = [] := by
    intro hrefused
    rw [deliveries, InstrumentProfile.symbols, if_neg hrefused]
    rfl
  unfold OptionChainsBuilder.addProfile
  split
  next htype =>
    rw [hnothing fun haccepted => htype haccepted.1]
    refine ⟨rfl, ?_⟩
    rintro b' ⟨⟩
    exact hclean
  next htype =>
    have hholds := hclean.setAll (profile ip)
    by_cases haccepted : (profile ip).Accepted
    · rw [addOption_accepted rfl hholds haccepted, Option.map_map]
      refine ⟨Option.map_id', fun b' hb' => ?_⟩
      obtain ⟨chains, -, rfl⟩ := Option.map_eq_some_iff.mp hb'
      exact hholds.clean
    · rw [addOption_refused hholds (not_not.mp htype) haccepted, hnothing haccepted]
      refine ⟨rfl, ?_⟩
      rintro b' ⟨⟩
      exact hholds.clean

/-! ## The whole loop -/

/-- A build runs the chains over everything that the profiles bring. -/
theorem build_chains (instruments : List π) :
    (build profile instruments).map OptionChainsBuilder.chains =
      run (chainMachine profile).stepAt [] (instruments.flatMap (deliveries profile)) := by
  have hruns : ∀ (ips : List π) (b : OptionChainsBuilder π), Clean b →
      (run (fun b ip => b.addProfile profile ip) b ips).map OptionChainsBuilder.chains =
        run (chainMachine profile).stepAt b.chains (ips.flatMap (deliveries profile)) := by
    intro ips
    induction ips with
    | nil => exact fun b _ => rfl
    | cons ip ips ih =>
      intro b hclean
      obtain ⟨hchains, hkept⟩ := @addProfile_chains _ profile b hclean ip
      rw [List.flatMap_cons, run_append, ← hchains]
      change Option.map _ (Option.bind (b.addProfile profile ip) _) = _
      cases hadd : b.addProfile profile ip with
      | none => rfl
      | some b' => exact ih b' (hkept b' hadd)
  exact hruns instruments {} ⟨rfl, rfl, rfl⟩

/-- The profiles of the list that belong to the chain of the symbol. -/
def listed (profile : π → InstrumentProfile) (symbol : Text) (ips : List π) : List π :=
  ips.filter fun ip => (profile ip).Listed symbol

/-- What the chain of the symbol is run over. -/
def delivered (profile : π → InstrumentProfile) (symbol : Text) (ips : List π) : List π :=
  Machine.inputs symbol (ips.flatMap (deliveries profile))

theorem mem_deliveries {symbol : Text} {ip jp : π} :
    (symbol, jp) ∈ deliveries profile ip ↔ jp = ip ∧ (profile ip).Listed symbol := by
  unfold deliveries
  rw [List.mem_map]
  constructor
  · rintro ⟨symbol', hsymbol, heq⟩
    cases heq
    exact ⟨rfl, InstrumentProfile.mem_symbols.mp hsymbol⟩
  · rintro ⟨rfl, hlisted⟩
    exact ⟨symbol, InstrumentProfile.mem_symbols.mpr hlisted, rfl⟩

theorem mem_delivered {symbol : Text} {ips : List π} {ip : π} :
    ip ∈ delivered profile symbol ips ↔ ip ∈ listed profile symbol ips := by
  unfold delivered listed
  rw [Machine.mem_inputs, List.mem_flatMap, List.mem_filter, decide_eq_true_eq]
  constructor
  · rintro ⟨jp, hjp, hmem⟩
    obtain ⟨rfl, hlisted⟩ := mem_deliveries.mp hmem
    exact ⟨hjp, hlisted⟩
  · rintro ⟨hip, hlisted⟩
    exact ⟨ip, hip, mem_deliveries.mpr ⟨rfl, hlisted⟩⟩

/-- Copies of a profile count as one for the first profile in a place. -/
theorem head_slot_copies {a : Attributes} {isCall : Bool} {strike : Double} {copies : List π}
    {ip : π} (hcopies : ∀ jp ∈ copies, jp = ip) (hip : ip ∈ copies) :
    (OptionChain.slot profile a isCall strike copies).head? =
      (OptionChain.slot profile a isCall strike [ip]).head? := by
  obtain ⟨jp, copies, rfl⟩ := List.exists_cons_of_ne_nil (List.ne_nil_of_mem hip)
  obtain rfl : jp = ip := hcopies jp List.mem_cons_self
  by_cases hslot : (profile jp).attributes = a ∧ (profile jp).isCall = isCall ∧
      (profile jp).strike.eq strike = true
  · unfold OptionChain.slot
    rw [List.filter_cons_of_pos (by simpa using hslot),
      List.filter_cons_of_pos (by simpa using hslot)]
    rfl
  · have hnil : ∀ l : List π, (∀ kp ∈ l, kp = jp) →
        OptionChain.slot profile a isCall strike l = [] := by
      intro l hl
      apply List.filter_eq_nil_iff.mpr
      intro kp hkp
      rw [hl kp hkp]
      simpa using hslot
    rw [hnil _ hcopies, hnil [jp] fun kp hkp => List.mem_singleton.mp hkp]

theorem head_slot_delivered (symbol : Text) (a : Attributes) (isCall : Bool) (strike : Double)
    (ips : List π) :
    (OptionChain.slot profile a isCall strike (delivered profile symbol ips)).head? =
      (OptionChain.slot profile a isCall strike (listed profile symbol ips)).head? := by
  induction ips with
  | nil => rfl
  | cons ip ips ih =>
    have hcopies : ∀ jp ∈ Machine.inputs symbol (deliveries profile ip), jp = ip := fun jp hjp =>
      (mem_deliveries.mp (Machine.mem_inputs.mp hjp)).1
    have hsplit : delivered profile symbol (ip :: ips) =
        Machine.inputs symbol (deliveries profile ip) ++ delivered profile symbol ips := by
      unfold delivered
      rw [List.flatMap_cons, Machine.inputs_append]
    have happend : ∀ l k : List π, OptionChain.slot profile a isCall strike (l ++ k) =
        OptionChain.slot profile a isCall strike l ++ OptionChain.slot profile a isCall strike k :=
      fun l k => List.filter_append l k
    by_cases hlisted : (profile ip).Listed symbol
    · have hip : ip ∈ Machine.inputs symbol (deliveries profile ip) :=
        Machine.mem_inputs.mpr (mem_deliveries.mpr ⟨rfl, hlisted⟩)
      have hlist : listed profile symbol (ip :: ips) = [ip] ++ listed profile symbol ips :=
        List.filter_cons_of_pos (by simpa using hlisted)
      rw [hsplit, hlist, happend, happend, List.head?_append, List.head?_append, ih,
        head_slot_copies hcopies hip]
    · have hnone : Machine.inputs symbol (deliveries profile ip) = [] := by
        apply List.eq_nil_iff_forall_not_mem.mpr
        intro jp hjp
        exact hlisted (mem_deliveries.mp (Machine.mem_inputs.mp hjp)).2
      have hlist : listed profile symbol (ip :: ips) = listed profile symbol ips :=
        List.filter_cons_of_neg (by simpa using hlisted)
      rw [hsplit, hlist, hnone, List.nil_append, ih]

theorem comes_delivered (symbol : Text) (ips : List π) :
    OptionChain.Comes profile (listed profile symbol ips) (delivered profile symbol ips) where
  accepted ip hip := (of_decide_eq_true (List.mem_filter.mp hip).2 : (profile ip).Listed symbol).1
  mem _ := mem_delivered
  first a isCall strike := head_slot_delivered symbol a isCall strike ips

/-! ## What a build should give -/

def chainAt (symbol : Text) (chains : List (OptionChain π)) : Option (OptionChain π) :=
  KeyedLists.lookup OptionChain.symbol symbol chains

/-- A chain for each symbol that an accepted profile has, with the profiles of the symbol. -/
structure ReferenceGrouping (profile : π → InstrumentProfile) (ips : List π)
    (chains : List (OptionChain π)) : Prop where
  chain_iff : ∀ symbol, (∃ c, chainAt symbol chains = some c) ↔
    ∃ ip ∈ ips, (profile ip).Listed symbol
  grouped : ∀ symbol c, chainAt symbol chains = some c →
    OptionChain.Grouped profile (listed profile symbol ips) c

/-- In each chain the profiles are told apart and no two of them stand in one place. -/
def Separated (profile : π → InstrumentProfile) (ips : List π) : Prop :=
  ∀ symbol, OptionChain.ToldApart profile (listed profile symbol ips) ∧
    OptionChain.Unrepeated profile (listed profile symbol ips)

theorem listed_ne_nil {symbol : Text} {ips : List π} :
    listed profile symbol ips ≠ [] ↔ ∃ ip ∈ ips, (profile ip).Listed symbol := by
  unfold listed
  simp [List.filter_eq_nil_iff]

section Run

variable {ips : List π} {chains : List (OptionChain π)}
  (h : run (chainMachine profile).stepAt [] (ips.flatMap (deliveries profile)) = some chains)

include h

theorem run_delivered (symbol : Text) :
    run (OptionChain.add profile) { symbol := symbol } (delivered profile symbol ips) =
      some ((chainAt symbol chains).getD { symbol := symbol }) :=
  Machine.run_stateAt symbol h

theorem chainAt_iff (symbol : Text) :
    (∃ c, chainAt symbol chains = some c) ↔ ∃ ip ∈ ips, (profile ip).Listed symbol := by
  have hlookup : (∃ c, chainAt symbol chains = some c) ↔
      (∃ c, chainAt symbol ([] : List (OptionChain π)) = some c) ∨
        delivered profile symbol ips ≠ [] := Machine.run_lookup symbol h
  have hfresh : ¬ ∃ c, chainAt symbol ([] : List (OptionChain π)) = some c := by
    rintro ⟨c, hc⟩
    cases hc
  rw [hlookup, or_iff_right hfresh, ← listed_ne_nil, ne_eq, ne_eq,
    List.eq_nil_iff_forall_not_mem, List.eq_nil_iff_forall_not_mem]
  exact not_congr (forall_congr' fun ip => not_congr mem_delivered)

theorem referenceGrouping_iff :
    ReferenceGrouping profile ips chains ↔ Separated profile ips := by
  constructor
  · intro hreference symbol
    by_cases hlisted : listed profile symbol ips = []
    · rw [hlisted]
      exact ⟨fun ip hip => (List.not_mem_nil hip).elim, fun a isCall strike => rfl⟩
    · obtain ⟨c, hc⟩ := (chainAt_iff h symbol).mpr (listed_ne_nil.mp hlisted)
      have hrun := run_delivered h symbol
      rw [hc, Option.getD_some] at hrun
      exact (OptionChain.grouped_iff (comes_delivered symbol ips) symbol).mp
        ⟨c, hrun, hreference.grouped symbol c hc⟩
  · intro hseparated
    refine ⟨chainAt_iff h, fun symbol c hc => ?_⟩
    obtain ⟨c', hrun', hgrouped⟩ :=
      (OptionChain.grouped_iff (comes_delivered symbol ips) symbol).mpr (hseparated symbol)
    have hrun := run_delivered h symbol
    rw [hc, Option.getD_some] at hrun
    obtain rfl : c' = c := Option.some.inj (hrun'.symm.trans hrun)
    exact hgrouped

end Run

/-- A build groups the profiles as it should exactly when its order of series can tell them
apart and no series gets two profiles for one strike of one side. -/
theorem build_groups_iff (profile : π → InstrumentProfile) (ips : List π) :
    (∃ b, build profile ips = some b ∧ ReferenceGrouping profile ips b.chains) ↔
      Separated profile ips := by
  have hbuild := @build_chains _ profile ips
  constructor
  · rintro ⟨b, hb, hreference⟩
    rw [hb] at hbuild
    exact (referenceGrouping_iff hbuild.symm).mp hreference
  · intro hseparated
    have hrun : ∀ symbol, ∃ c, run (chainMachine profile).step
        ((chainMachine profile).stateAt symbol []) (delivered profile symbol ips) = some c := by
      intro symbol
      obtain ⟨c, hrun, -⟩ :=
        (OptionChain.grouped_iff (comes_delivered symbol ips) symbol).mpr (hseparated symbol)
      exact ⟨c, hrun⟩
    obtain ⟨chains, hchains⟩ := Machine.run_defined hrun
    rw [hchains] at hbuild
    obtain ⟨b, hb, rfl⟩ := Option.map_eq_some_iff.mp hbuild
    exact ⟨b, hb, (referenceGrouping_iff hchains).mpr hseparated⟩

/-- A call that differs from others of its kind in the multiplier only. -/
def sampleCall (multiplier : Double) : InstrumentProfile where
  type := "OPTION".toList
  underlying := "IBM".toList
  expiration := 20000
  multiplier := multiplier
  cfi := "OCASPS".toList
  strike := .finite 80

/-- Of two calls with one strike the first stays, and a multiplier that is no number brings a
call into the series of another multiplier. -/
theorem later_option_dropped_and_series_merged :
    (∃ b, build (fun _ : Bool => sampleCall (.finite 100)) [false, true] = some b ∧
      ¬ ReferenceGrouping (fun _ => sampleCall (.finite 100)) [false, true] b.chains) ∧
    ∃ b, build sampleCall [.finite 100, .nan] = some b ∧
      ¬ ReferenceGrouping sampleCall [.finite 100, .nan] b.chains := by
  constructor
  · have hdefined : (build (fun _ : Bool => sampleCall (.finite 100)) [false, true]).isSome :=
      by decide
    obtain ⟨b, hb⟩ := Option.isSome_iff_exists.mp hdefined
    have hbuild := @build_chains _ (fun _ : Bool => sampleCall (.finite 100)) [false, true]
    rw [hb] at hbuild
    refine ⟨b, hb, fun hreference => ?_⟩
    have hsame := ((referenceGrouping_iff hbuild.symm).mp hreference "IBM".toList).2
      (sampleCall (.finite 100)).attributes true (.finite 80)
    revert hsame
    decide
  · have hdefined : (build sampleCall [.finite 100, .nan]).isSome := by decide
    obtain ⟨b, hb⟩ := Option.isSome_iff_exists.mp hdefined
    have hbuild := @build_chains _ sampleCall [.finite 100, .nan]
    rw [hb] at hbuild
    refine ⟨b, hb, fun hreference => ?_⟩
    have htold := ((referenceGrouping_iff hbuild.symm).mp hreference "IBM".toList).1
    have hequal := htold (.finite 100) (by decide) .nan (by decide) ⟨rfl, rfl, Or.inl (by decide)⟩
    revert hequal
    decide

end OptionChains
