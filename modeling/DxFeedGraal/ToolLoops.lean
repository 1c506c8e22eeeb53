import DxFeedGraal.ToolParsers

/-! # The option loops of all tools

A loop is sound if it ends, moves its index up in every round and reads no word behind the last
one. It is, but for a branch that leaves the index where it is. -/
namespace ToolLoops

open CppStrings ToolArguments ToolParsers

variable {P A : Type} {args tail : List Text} {s : State P} {w v : Text}

/-- The parser reads no word behind the last one, before its loop and in it. -/
structure LoopSound (p : Parser P A) (args : List Text) : Prop where
  opening : ∃ parsed, p.positionals args = .ok parsed
  loop : ∀ parsed, p.positionals args = .ok parsed → parsed.isHelp = false →
    parsed.isError = false → IndexLoops.Sound State.index args.length (p.step args)
      (.start parsed.result parsed.nextIndex)

/-! ## Rounds -/

/-- Either the word takes the next one as its value or it takes nothing. -/
theorem taken_or_not (s : State P) (w : Text) (tail : List Text) (values : List ValueArg) :
    (∃ x ∈ values, s.isParsed x = false ∧ x.names.named w = true ∧ ∃ v rest, tail = v :: rest) ∨
      ∀ x ∈ values, s.isParsed x = false → x.names.named w = true → tail = [] := by
  by_cases htail : tail = []
  · exact Or.inr fun _ _ _ _ => htail
  · by_cases htaken : ∃ x ∈ values, s.isParsed x = false ∧ x.names.named w = true
    · obtain ⟨x, hx, hfree, hnamed⟩ := htaken
      exact Or.inl ⟨x, hx, hfree, hnamed, List.exists_cons_of_ne_nil htail⟩
    · exact Or.inr fun x hx hfree hnamed => absurd ⟨x, hx, hfree, hnamed⟩ htaken

theorem take_index {x : ValueArg} (h : x ≠ .interval) : (s.take x v).index = s.index + 2 :=
  if_pos (x.read_isSome h v)

theorem take_isParsed (s : State P) (x : ValueArg) (v : Text) : (s.take x v).isParsed x = true := by
  simp [State.take]

theorem take_isParsed_of_ne {x y : ValueArg} (h : y ≠ x) (s : State P) (v : Text) :
    (s.take x v).isParsed y = s.isParsed y := by
  simp [State.take, h]

theorem exists_word (h : s.index < args.length) : ∃ w tail, args.drop s.index = w :: tail := by
  apply List.exists_cons_of_ne_nil
  exact fun hnil => Nat.not_le.mpr h (List.drop_eq_nil_iff.mp hnil)

/-- Texts as values always move the index up. -/
theorem optionStep_increases {values : List ValueArg} (flags : List FlagArg)
    (hvalues : .interval ∉ values) (s : State P) (h : s.index < args.length) :
    ∃ t, optionStep values flags args s = .ok t ∧ s.index < t.index := by
  obtain ⟨w, tail, hw⟩ := exists_word h
  rcases taken_or_not s w tail values with ⟨x, hx, hfree, hnamed, v, rest, rfl⟩ | hnone
  · refine ⟨s.take x v, optionStep_value hw hx hfree hnamed, ?_⟩
    have hindex : (s.take x v).index = s.index + 2 := take_index fun heq => hvalues (heq ▸ hx)
    omega
  · obtain ⟨t, hstep, hindex, _⟩ : ∃ t, optionStep values flags args s = .ok t ∧
        t.index = s.index + 1 ∧ t.isParsed = s.isParsed := optionStep_other hw hnone
    exact ⟨t, hstep, by omega⟩

theorem qds_increases (s : State Text) (h : s.index < args.length) :
    ∃ t, QdsTool.step args s = .ok t ∧ s.index < t.index := by
  obtain ⟨w, tail, hw⟩ := exists_word h
  rcases taken_or_not s w tail [.properties] with ⟨x, hx, hfree, hnamed, v, rest, rfl⟩ | hnone
  · obtain rfl := List.mem_singleton.mp hx
    refine ⟨s.take .properties v, ?_, ?_⟩
    · rw [QdsTool.step, takeValue_of_value hw hx hfree hnamed]
      rfl
    · have hindex : (s.take .properties v).index = s.index + 2 := take_index nofun
      omega
  · refine ⟨{ s with positional := s.positional ++ ' ' :: w, index := s.index + 1 }, ?_, ?_⟩
    · rw [QdsTool.step, takeValue_none hw hnone, ok_bind, word_of_drop hw]
      rfl
    · exact Nat.lt_succ_self _

/-! ## The positional arguments -/

section Opening

variable {errorString : Text}

theorem required_total (POSITION : ℕ) (errorString : Text) (args : List Text) :
    ∃ parsed, required POSITION errorString args = .ok parsed := by
  cases hword : args[POSITION]? with
  | none => exact ⟨_, required_missing errorString hword⟩
  | some w => exact ⟨_, required_of_word errorString hword⟩

theorem opening_total [Inhabited P] {others : Text → Cpp (ParseResult P)}
    (h : ∀ a, ∃ parsed, others a = .ok parsed) (args : List Text) :
    ∃ parsed, opening (required 0 errorString) args others = .ok parsed := by
  cases args with
  | nil => exact ⟨_, opening_nil⟩
  | cons a rest =>
    rw [opening_cons]
    split
    · exact ⟨_, rfl⟩
    · exact h a

theorem requiredPositionals_total (args : List Text) :
    ∃ parsed, requiredPositionals args = .ok parsed := by
  refine opening_total (fun a => ?_) args
  obtain ⟨types, htypes⟩ := required_total 1 _ args
  obtain ⟨symbols, hsymbols⟩ := required_total 2 _ args
  rw [TypesArgRequired.parse, RequiredMixin.parse, htypes, ok_bind, SymbolsArgRequired.parse,
    hsymbols, ok_bind]
  split
  · exact ⟨_, rfl⟩
  · split
    · exact ⟨_, rfl⟩
    · exact ⟨_, rfl⟩

theorem perfTest2_total (args : List Text) :
    ∃ parsed, PerfTest2Tool.positionals args = .ok parsed := by
  refine opening_total (fun a => ?_) args
  obtain ⟨symbols, hsymbols⟩ := required_total 1 _ args
  rw [SymbolsArgRequired.parse, hsymbols, ok_bind]
  split
  · exact ⟨_, rfl⟩
  · exact ⟨_, rfl⟩

theorem isDashed_total (args : List Text) : ∃ dashed, DumpTool.isDashed args = .ok dashed := by
  by_cases hmore : args.length > 1
  · rw [DumpTool.isDashed, if_pos hmore, word, List.getElem?_eq_getElem hmore]
    exact ⟨_, rfl⟩
  · exact ⟨false, if_neg hmore⟩

theorem dump_total (args : List Text) : ∃ parsed, DumpTool.positionals args = .ok parsed := by
  refine opening_total (fun a => ?_) args
  obtain ⟨dashed, hdashed⟩ := isDashed_total args
  rw [hdashed, ok_bind, TypesArg.parse, positional_parse, SymbolsArg.parse, positional_parse]
  split
  · exact ⟨_, rfl⟩
  · exact ⟨_, rfl⟩

end Opening

/-- The first word asks for help. -/
def AsksHelp (args : List Text) : Prop :=
  ∃ w ∈ args.head?, FlagArg.help.names.named w = true

/-! ## The event generator -/

/-- A word that no branch takes is looked at for ever. -/
theorem eventGen_hangs {s : State Text} (hs : args.drop s.index = w :: tail)
    (hnone : s.isParsed .properties = false → ValueArg.properties.names.named w = true →
      tail = []) :
    ¬ ∃ t, IndexLoops.Ends State.index args.length (EventGenTool.step args) s t := by
  have hvalue : takeValue args s [.properties] = .ok none := by
    apply takeValue_none hs
    intro x hx hfree hnamed
    obtain rfl := List.mem_singleton.mp hx
    exact hnone hfree hnamed
  have hstep : EventGenTool.step args s = .ok s := by
    rw [EventGenTool.step, hvalue]
    rfl
  have hinside : s.index < args.length := by
    have hlength := length_of_drop hs
    omega
  rintro ⟨t, hends⟩
  exact IndexLoops.not_ends_of_stay ⟨hinside, hstep⟩ hends

theorem eventGen_takes {s : State Text} {rest : List Text} (hs : args.drop s.index = w :: v :: rest)
    (hfree : s.isParsed .properties = false) (hnamed : ValueArg.properties.names.named w = true) :
    IndexLoops.Round State.index args.length (EventGenTool.step args) s (s.take .properties v) where
  inside := by
    have hlength := length_of_drop hs
    omega
  body_eq := by
    rw [EventGenTool.step, takeValue_of_value hs List.mem_cons_self hfree hnamed]
    rfl

/-- The only words behind the address that the loop gets past. -/
theorem eventGen_sound_iff (a : Text) (rest : List Text) :
    IndexLoops.Sound State.index (a :: rest).length (EventGenTool.step (a :: rest))
        (.start a 1) ↔
      rest = [] ∨ ∃ w v, rest = [w, v] ∧ ValueArg.properties.names.named w = true := by
  have hstart : (a :: rest).drop (State.start a 1).index = rest := rfl
  cases rest with
  | nil => exact iff_of_true (IndexLoops.sound_outside le_rfl) (Or.inl rfl)
  | cons w tail =>
    by_cases htaken : ValueArg.properties.names.named w = true ∧ tail ≠ []
    · obtain ⟨hnamed, htail⟩ := htaken
      obtain ⟨v, rest, rfl⟩ := List.exists_cons_of_ne_nil htail
      have hround := eventGen_takes hstart rfl hnamed
      rw [IndexLoops.sound_iff hround]
      cases rest with
      | nil =>
        have hindex : ((State.start a 1).take .properties v).index = 3 := take_index nofun
        refine iff_of_true ⟨?_, IndexLoops.sound_outside hindex.ge⟩ (Or.inr ⟨w, v, rfl, hnamed⟩)
        exact hindex.symm ▸ (by decide : 1 < 3)
      | cons w' tail' =>
        refine iff_of_false (fun h => ?_) (by simp)
        -- the properties were taken, and no branch is left for the word behind them
        have hwords : (a :: w :: v :: w' :: tail').drop
            ((State.start a 1).take .properties v).index = w' :: tail' := rfl
        refine eventGen_hangs hwords (fun hfree => ?_) h.2.ends
        rw [take_isParsed] at hfree
        cases hfree
    · refine iff_of_false (fun hsound => eventGen_hangs hstart (fun _ hnamed => ?_) hsound.ends) ?_
      · by_contra htail
        exact htaken ⟨hnamed, htail⟩
      · rintro (hnil | ⟨w', v, hrest, hnamed⟩)
        · cases hnil
        · obtain ⟨rfl, rfl⟩ := List.cons.inj hrest
          exact htaken ⟨hnamed, List.cons_ne_nil _ _⟩

/-! ## The latency test -/

def isProperties (w : Text) : Bool := ValueArg.properties.names.named w

def isInterval (w : Text) : Bool := ValueArg.interval.names.named w

/-- Whether a run over the words comes to an interval that cannot be read; the flags tell
whether the properties and the interval have been taken. -/
def stalls : Bool → Bool → List Text → Bool
  | properties, interval, w :: v :: rest =>
    if !properties && isProperties w then stalls true interval rest
    else if !interval && isInterval w then
      if (readUnsigned v).isSome then stalls properties true rest else true
    else stalls properties interval (v :: rest)
  | _, _, _ => false

section Stalls

variable {properties interval : Bool} {rest : List Text}

theorem stalls_properties (hfree : properties = false) (h : isProperties w = true) :
    stalls properties interval (w :: v :: rest) = stalls true interval rest := by
  simp [stalls, hfree, h]

theorem stalls_interval (hother : isProperties w = false) (hfree : interval = false)
    (h : isInterval w = true) :
    stalls properties interval (w :: v :: rest) =
      if (readUnsigned v).isSome then stalls properties true rest else true := by
  simp [stalls, hother, hfree, h]

theorem stalls_other (hproperties : properties = false → isProperties w = false)
    (hinterval : interval = false → isInterval w = false) :
    stalls properties interval (w :: tail) = stalls properties interval tail := by
  cases tail with
  | nil => rfl
  | cons v rest =>
    cases properties <;> cases interval <;> simp_all [stalls]

end Stalls

theorem isProperties_of_interval (h : isInterval w = true) : isProperties w = false := by
  by_contra hnot
  have hsame : OptionArg.value .interval = .value .properties :=
    named_unique h (Bool.eq_true_of_not_eq_false hnot)
  cases hsame

theorem latencyTest_sound_iff (s : State P) :
    IndexLoops.Sound State.index args.length
        (optionStep [.properties, .interval] [.forceStream] args) s ↔
      stalls (s.isParsed .properties) (s.isParsed .interval) (args.drop s.index) = false := by
  induction hleft : args.length - s.index using Nat.strongRecOn generalizing s with
  | ind left ih =>
    cases hwords : args.drop s.index with
    | nil => exact iff_of_true (IndexLoops.sound_outside (List.drop_eq_nil_iff.mp hwords)) rfl
    | cons w tail =>
      have hinside : s.index < args.length := by
        have hlength := length_of_drop hwords
        omega
      rcases taken_or_not s w tail [.properties, .interval] with
        ⟨x, hx, hfree, hnamed, v, rest, rfl⟩ | hnone
      · have hround : IndexLoops.Round State.index args.length
            (optionStep [.properties, .interval] [.forceStream] args) s (s.take x v) :=
          ⟨hinside, optionStep_value hwords hx hfree hnamed⟩
        have hdrop : args.drop (s.index + 2) = rest := drop_next (drop_next hwords)
        rw [IndexLoops.sound_iff hround]
        rcases List.mem_cons.mp hx with rfl | hx
        · have hindex : (s.take .properties v).index = s.index + 2 := take_index nofun
          rw [stalls_properties hfree hnamed, ih _ (by omega) _ rfl, hindex, hdrop, take_isParsed,
            take_isParsed_of_ne (x := .properties) (y := .interval) nofun]
          exact and_iff_right (by omega)
        · obtain rfl := List.mem_singleton.mp hx
          rw [stalls_interval (isProperties_of_interval hnamed) hfree hnamed]
          by_cases hread : (readUnsigned v).isSome = true
          · have hindex : (s.take .interval v).index = s.index + 2 := if_pos hread
            rw [if_pos hread, ih _ (by omega) _ rfl, hindex, hdrop, take_isParsed,
              take_isParsed_of_ne (x := .interval) (y := .properties) nofun]
            exact and_iff_right (by omega)
          · have hindex : (s.take .interval v).index = s.index := if_neg hread
            rw [if_neg hread, hindex]
            exact iff_of_false (fun h => Nat.lt_irrefl _ h.1) nofun
      · obtain ⟨t, hstep, hindex, hparsed⟩ : ∃ t,
            optionStep [.properties, .interval] [.forceStream] args s = .ok t ∧
              t.index = s.index + 1 ∧ t.isParsed = s.isParsed := optionStep_other hwords hnone
        rw [IndexLoops.sound_iff ⟨hinside, hstep⟩, ih _ (by omega) t rfl, hindex, hparsed,
          drop_next hwords]
        cases tail with
        | nil => exact and_iff_right (by omega)
        | cons v rest =>
          have hother : ∀ x ∈ [ValueArg.properties, .interval], s.isParsed x = false →
              x.names.named w = false := fun x hx hfree => by
            by_contra hnot
            have hnil := hnone x hx hfree (Bool.eq_true_of_not_eq_false hnot)
            cases hnil
          rw [stalls_other (hother .properties (by simp)) (hother .interval (by simp))]
          exact and_iff_right (by omega)

/-- The word behind the first `--interval`. -/
def valueBehind (words : List Text) : Option Text := (words.dropWhile fun w => !isInterval w)[1]?

/-- The first interval that the loop comes to: properties in front of it are passed over with
their value, which may look like an interval. -/
def intervalValue (words : List Text) : Option Text :=
  if (words.takeWhile fun w => !isProperties w).any isInterval then valueBehind words
  else valueBehind ((words.dropWhile fun w => !isProperties w).drop 2)

/-- Only the first interval can stall the loop. -/
theorem stalls_behind_interval : ∀ (properties : Bool) (words : List Text),
    stalls properties true words = false
  | _, [] => rfl
  | _, [_] => rfl
  | properties, w :: v :: rest => by
    by_cases h : properties = false ∧ isProperties w = true
    · rw [stalls_properties h.1 h.2]
      exact stalls_behind_interval true rest
    · have hother : properties = false → isProperties w = false := by
        intro hfree
        by_contra hnot
        exact h ⟨hfree, Bool.eq_true_of_not_eq_false hnot⟩
      have hskip : stalls properties true (w :: v :: rest) = stalls properties true (v :: rest) :=
        stalls_other hother nofun
      exact hskip.trans (stalls_behind_interval properties (v :: rest))

/-- A word that the loop cannot read as a number. -/
def Unreadable (word : Option Text) : Prop := ∃ v ∈ word, readUnsigned v = none

theorem stalls_at_interval {properties : Bool} {rest : List Text}
    (hother : isProperties w = false) (h : isInterval w = true) :
    stalls properties false (w :: rest) = true ↔ Unreadable rest.head? := by
  cases rest with
  | nil => simp [stalls, Unreadable]
  | cons v rest =>
    rw [stalls_interval hother rfl h]
    cases hread : readUnsigned v with
    | some number => simp [stalls_behind_interval, Unreadable, hread]
    | none => simp [Unreadable, hread]

theorem stalls_behind_properties (words : List Text) :
    stalls true false words = true ↔ Unreadable (valueBehind words) := by
  induction words with
  | nil => simp [stalls, valueBehind, Unreadable]
  | cons w rest ih =>
    cases hinterval : isInterval w with
    | true =>
      have hbehind : valueBehind (w :: rest) = rest.head? := by
        simp [valueBehind, hinterval, List.head?_eq_getElem?]
      rw [stalls_at_interval (isProperties_of_interval hinterval) hinterval, hbehind]
    | false =>
      have hbehind : valueBehind (w :: rest) = valueBehind rest := by
        simp [valueBehind, hinterval]
      have hskip : stalls true false (w :: rest) = stalls true false rest :=
        stalls_other nofun fun _ => hinterval
      rw [hskip, hbehind]
      exact ih

theorem stalls_iff (words : List Text) :
    stalls false false words = true ↔ Unreadable (intervalValue words) := by
  induction words with
  | nil => simp [stalls, intervalValue, valueBehind, Unreadable]
  | cons w rest ih =>
    cases hproperties : isProperties w with
    | true =>
      have hvalue : intervalValue (w :: rest) = valueBehind (rest.drop 1) := by
        simp [intervalValue, hproperties]
      rw [hvalue]
      cases rest with
      | nil => simp [stalls, valueBehind, Unreadable]
      | cons v rest =>
        rw [stalls_properties rfl hproperties]
        exact stalls_behind_properties rest
    | false =>
      cases hinterval : isInterval w with
      | true =>
        have hvalue : intervalValue (w :: rest) = rest.head? := by
          simp [intervalValue, valueBehind, hproperties, hinterval, List.head?_eq_getElem?]
        rw [stalls_at_interval hproperties hinterval, hvalue]
      | false =>
        have hvalue : intervalValue (w :: rest) = intervalValue rest := by
          simp [intervalValue, valueBehind, hproperties, hinterval]
        rw [stalls_other (fun _ => hproperties) fun _ => hinterval, hvalue]
        exact ih

/-! ## All tools -/

inductive Tool where
  | connect | dump | latencyTest | perfTest | perfTest2 | eventGen | qds
  deriving DecidableEq, Repr

def Tool.LoopSound : Tool → List Text → Prop
  | connect => ToolLoops.LoopSound ConnectTool.parser
  | dump => ToolLoops.LoopSound DumpTool.parser
  | latencyTest => ToolLoops.LoopSound LatencyTest.parser
  | perfTest => ToolLoops.LoopSound PerfTestTool.parser
  | perfTest2 => ToolLoops.LoopSound PerfTest2Tool.parser
  | eventGen => ToolLoops.LoopSound EventGenTool.parser
  | qds => ToolLoops.LoopSound QdsTool.parser

/-- The arguments whose loop is sound. -/
def Tool.Passes : Tool → List Text → Prop
  | latencyTest, args => AsksHelp args ∨ ¬ Unreadable (intervalValue (args.drop 3))
  | eventGen, args =>
    AsksHelp args ∨ args.length ≤ 1 ∨
      ∃ a w v, args = [a, w, v] ∧ ValueArg.properties.names.named w = true
  | _, _ => True

/-- Tools whose rounds all move the index up. -/
theorem loopSound_of_rounds {p : Parser P A} (htotal : ∃ parsed, p.positionals args = .ok parsed)
    (hstep : ∀ s : State P, s.index < args.length →
      ∃ t, p.step args s = .ok t ∧ s.index < t.index) :
    LoopSound p args where
  opening := htotal
  loop := fun _ _ _ _ => IndexLoops.sound_of_rounds hstep _

section Begun

variable {p : Parser P A}

theorem loopSound_of_help [Inhabited P] (h : p.positionals args = .ok .help) :
    LoopSound p args where
  opening := ⟨_, h⟩
  loop := by
    intro parsed hparsed hhelp _
    obtain rfl := Except.ok.inj (h.symm.trans hparsed)
    cases hhelp

theorem loopSound_of_error [Inhabited P] {errorString : Text}
    (h : p.positionals args = .ok (.error errorString)) : LoopSound p args where
  opening := ⟨_, h⟩
  loop := by
    intro parsed hparsed _ herror
    obtain rfl := Except.ok.inj (h.symm.trans hparsed)
    cases herror

theorem loopSound_begun {positional : P} {index : ℕ}
    (h : p.positionals args = .ok (.ok positional index)) :
    LoopSound p args ↔
      IndexLoops.Sound State.index args.length (p.step args) (.start positional index) := by
  constructor
  · exact fun hsound => hsound.loop _ h rfl rfl
  · intro hsound
    refine ⟨⟨_, h⟩, fun parsed hparsed _ _ => ?_⟩
    obtain rfl := Except.ok.inj (h.symm.trans hparsed)
    exact hsound

end Begun

theorem asksHelp_cons (a : Text) (rest : List Text) :
    AsksHelp (a :: rest) ↔ FlagArg.help.names.named a = true := by
  simp [AsksHelp]

theorem latencyTest_positionals_eq {a : Text} {rest : List Text}
    (h : FlagArg.help.names.named a = false) : ∃ types symbols index,
      LatencyTest.positionals (a :: rest) = .ok (.ok ⟨a, types, symbols⟩ index) ∧
        (a :: rest).drop index = (a :: rest).drop 3 := by
  have hopening : LatencyTest.positionals (a :: rest) = .ok (.ok ⟨a, rest[0]?, rest[1]?⟩
      (nextIndex (nextIndex 1 (.ok rest[0]? LAST_INDEX)) (.ok rest[1]? LAST_INDEX))) := by
    apply opening_cons.trans
    rw [h, TypesArg.parse, positional_parse, ok_bind, SymbolsArg.parse, positional_parse]
    rfl
  refine ⟨_, _, _, hopening, ?_⟩
  cases rest with
  | nil => rfl
  | cons t rest =>
    cases rest with
    | nil => rfl
    | cons y rest => rfl

theorem latencyTest_iff (args : List Text) :
    LoopSound LatencyTest.parser args ↔ Tool.latencyTest.Passes args := by
  cases args with
  | nil => exact iff_of_true (loopSound_of_error rfl) (Or.inr nofun)
  | cons a rest =>
    cases hhelp : FlagArg.help.names.named a with
    | true =>
      have hopening : LatencyTest.positionals (a :: rest) = .ok .help := by
        apply opening_cons.trans
        exact if_pos hhelp
      exact iff_of_true (loopSound_of_help hopening) (Or.inl ((asksHelp_cons a rest).mpr hhelp))
    | false =>
      obtain ⟨types, symbols, index, hopening, hdrop⟩ := latencyTest_positionals_eq hhelp
      have hnot : ¬ AsksHelp (a :: rest) := by
        rw [asksHelp_cons, hhelp]
        exact Bool.false_ne_true
      rw [loopSound_begun hopening, Tool.Passes, or_iff_right hnot, ← stalls_iff, ← hdrop,
        Bool.not_eq_true]
      exact latencyTest_sound_iff _

theorem eventGen_iff (args : List Text) :
    LoopSound EventGenTool.parser args ↔ Tool.eventGen.Passes args := by
  cases args with
  | nil => exact iff_of_true (loopSound_of_error rfl) (Or.inr (Or.inl (Nat.zero_le 1)))
  | cons a rest =>
    cases hhelp : FlagArg.help.names.named a with
    | true =>
      have hopening : EventGenTool.positionals (a :: rest) = .ok .help := by
        apply opening_cons.trans
        exact if_pos hhelp
      exact iff_of_true (loopSound_of_help hopening) (Or.inl ((asksHelp_cons a rest).mpr hhelp))
    | false =>
      have hopening : EventGenTool.positionals (a :: rest) = .ok (.ok a 1) := by
        apply opening_cons.trans
        rw [hhelp]
        rfl
      have hnot : ¬ AsksHelp (a :: rest) := by
        rw [asksHelp_cons, hhelp]
        exact Bool.false_ne_true
      rw [loopSound_begun hopening, Tool.Passes, or_iff_right hnot]
      apply (eventGen_sound_iff a rest).trans
      simp

theorem loopSound_iff (tool : Tool) (args : List Text) :
    tool.LoopSound args ↔ tool.Passes args := by
  cases tool with
  | connect =>
    apply iff_of_true (loopSound_of_rounds (requiredPositionals_total args) _) trivial
    exact fun s => optionStep_increases _ (by decide) s
  | dump =>
    apply iff_of_true (loopSound_of_rounds (dump_total args) _) trivial
    exact fun s => optionStep_increases _ (by decide) s
  | perfTest =>
    apply iff_of_true (loopSound_of_rounds (requiredPositionals_total args) _) trivial
    exact fun s => optionStep_increases _ (by decide) s
  | perfTest2 =>
    apply iff_of_true (loopSound_of_rounds (perfTest2_total args) _) trivial
    exact fun s => optionStep_increases _ (by decide) s
  | qds =>
    have htotal : ∃ parsed, QdsTool.positionals args = .ok parsed :=
      opening_total (fun a => ⟨.ok a 1, rfl⟩) args
    exact iff_of_true (loopSound_of_rounds htotal qds_increases) trivial
  | latencyTest => exact latencyTest_iff args
  | eventGen => exact eventGen_iff args

/-- `EventGen :7400 extra` and `LatencyTest demo.dxfeed.com:7300 Quote AAPL --interval soon` -/
theorem loops_that_stay :
    ¬ Tool.eventGen.LoopSound [":7400".toList, "extra".toList] ∧
      ¬ Tool.latencyTest.LoopSound
        ["demo.dxfeed.com:7300".toList, "Quote".toList, "AAPL".toList, "--interval".toList,
          "soon".toList] := by
  constructor
  · intro hsound
    rcases (eventGen_iff _).mp hsound with ⟨w, hw, hhelp⟩ | hlength | ⟨a, w, v, heq, _⟩
    · obtain rfl := Option.some.inj hw
      exact absurd hhelp (by decide)
    · exact absurd hlength (by decide)
    · exact absurd (congrArg List.length heq) (by simp)
  · intro hsound
    rcases (latencyTest_iff _).mp hsound with ⟨w, hw, hhelp⟩ | hreadable
    · obtain rfl := Option.some.inj hw
      exact absurd hhelp (by decide)
    · exact hreadable ⟨"soon".toList, by decide, by decide⟩

end ToolLoops
