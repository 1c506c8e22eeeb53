import DxFeedGraal.IndexLoops
import DxFeedGraal.ToolArguments
import Mathlib.Logic.Function.Basic

/-! # Argument parsers of the command line tools

Each `Args::parse` takes the positional arguments by their places and then loops over the other
words. Its option loop has no increment of its own. -/
namespace ToolParsers

open CppStrings ToolArguments

/-! ## The option loop -/

/-- The locals in the loop: `isParsed` and `value` are those of each option, a flag has only its
own. -/
structure State (P : Type) where
  positional : P
  index : ℕ
  isParsed : ValueArg → Bool
  value : (x : ValueArg) → Option x.Value
  flag : FlagArg → Bool

variable {P A : Type}

def State.start (positional : P) (index : ℕ) : State P :=
  ⟨positional, index, fun _ => false, fun _ => none, fun _ => false⟩

/-- The chain over the options with a value, with no result where no branch is taken. -/
def takeValue (args : List Text) (s : State P) : List ValueArg → Cpp (Option (State P))
  | [] => return none
  | x :: xs =>
    if s.isParsed x then takeValue args s xs
    else do
      if ← x.canParse args s.index then
        let parseResult ← x.parse args s.index
        return some { s with
          value := Function.update s.value x parseResult.result
          isParsed := Function.update s.isParsed x true
          index := parseResult.nextIndex }
      takeValue args s xs

def takeFlag (args : List Text) (s : State P) : List FlagArg → Cpp (Option (State P))
  | [] => return none
  | f :: fs =>
    if s.flag f then takeFlag args s fs
    else do
      if (← f.parse args s.index).result then
        return some { s with flag := Function.update s.flag f true, index := s.index + 1 }
      takeFlag args s fs

/-- The body of most tools: a word that is no option is skipped. -/
def optionStep (values : List ValueArg) (flags : List FlagArg) (args : List Text) (s : State P) :
    Cpp (State P) := do
  match ← takeValue args s values with
  | some taken => return taken
  | none =>
    match ← takeFlag args s flags with
    | some taken => return taken
    | none => return { s with index := s.index + 1 }

/-- The parts of an `Args::parse`; the index of the positional results is where the loop begins. -/
structure Parser (P A : Type) where
  positionals : List Text → Cpp (ParseResult P)
  step : List Text → State P → Cpp (State P)
  args : State P → A

def Parser.parse [Inhabited A] (p : Parser P A) (fuel : ℕ) (args : List Text) :
    Cpp (ParseResult A) := do
  let parsed ← p.positionals args
  if parsed.isHelp then return .help
  if parsed.isError then return .error parsed.errorString
  let s ← IndexLoops.loop .unfinished State.index args.length (p.step args) fuel
    (.start parsed.result parsed.nextIndex)
  return .ok (p.args s) LAST_INDEX

/-! ## The tools -/

structure Positionals (T : Type) where
  address : Text
  types : T
  symbols : T
  deriving Inhabited

/-- Help and the first argument, which every tool requires. -/
def opening [Inhabited P] (first : List Text → Cpp (ParseResult Text)) (args : List Text)
    (others : Text → Cpp (ParseResult P)) : Cpp (ParseResult P) := do
  if (← FlagArg.help.parse args 0).result then return .help
  let parsedFirst ← first args
  if parsedFirst.isError then return .error parsedFirst.errorString
  others parsedFirst.result

def requiredPositionals (args : List Text) : Cpp (ParseResult (Positionals Text)) :=
  opening AddressArgRequired.parse args fun address => do
    let parsedTypes ← TypesArgRequired.parse args
    if parsedTypes.isError then return .error parsedTypes.errorString
    let parsedSymbols ← SymbolsArgRequired.parse 2 args
    if parsedSymbols.isError then return .error parsedSymbols.errorString
    return .ok ⟨address, parsedTypes.result, parsedSymbols.result⟩ 3

namespace ConnectTool

structure Args where
  address : Text
  types : Text
  symbols : Text
  fromTime : Option Text
  source : Option Text
  properties : Option Text
  tape : Option Text
  isQuite : Bool
  forceStream : Bool
  deriving Inhabited

def parser : Parser (Positionals Text) Args where
  positionals := requiredPositionals
  step := optionStep [.fromTime, .source, .properties, .tape] [.quite, .forceStream]
  args s :=
    { address := s.positional.address
      types := s.positional.types
      symbols := s.positional.symbols
      fromTime := s.value .fromTime
      source := s.value .source
      properties := s.value .properties
      tape := s.value .tape
      isQuite := s.flag .quite
      forceStream := s.flag .forceStream }

end ConnectTool

/-- An optional argument moves the index if it is there. -/
def nextIndex (index : ℕ) (parsed : ParseResult (Option Text)) : ℕ :=
  if parsed.result.isSome then index + 1 else index

namespace DumpTool

structure Args where
  address : Text
  types : Option Text
  symbols : Option Text
  properties : Option Text
  tape : Option Text
  isQuite : Bool
  deriving Inhabited

/-- `args.size() > index && args[index].starts_with('-')` -/
def isDashed (args : List Text) : Cpp Bool :=
  if args.length > 1 then do
    return (← word args 1).head? == some '-'
  else return false

/-- A second word with a dash is no type, but a third one may be taken for the symbols. -/
def positionals (args : List Text) : Cpp (ParseResult (Positionals (Option Text))) :=
  opening AddressArgRequired.parse args fun address => do
    if ← isDashed args then
      return .ok ⟨address, none, none⟩ 1
    let parsedTypes ← TypesArg.parse args
    let parsedSymbols ← SymbolsArg.parse args
    return .ok ⟨address, parsedTypes.result, parsedSymbols.result⟩
      (nextIndex (nextIndex 1 parsedTypes) parsedSymbols)

def parser : Parser (Positionals (Option Text)) Args where
  positionals := positionals
  step := optionStep [.properties, .tape] [.quite]
  args s :=
    { address := s.positional.address
      types := s.positional.types
      symbols := s.positional.symbols
      properties := s.value .properties
      tape := s.value .tape
      isQuite := s.flag .quite }

end DumpTool

namespace LatencyTest

structure Args where
  address : Text
  types : Option Text
  symbols : Option Text
  properties : Option Text
  forceStream : Bool
  interval : ℕ

instance : Inhabited Args := ⟨[], none, none, none, false, 2⟩

def positionals (args : List Text) : Cpp (ParseResult (Positionals (Option Text))) :=
  opening AddressArgRequired.parse args fun address => do
    let parsedTypes ← TypesArg.parse args
    let parsedSymbols ← SymbolsArg.parse args
    return .ok ⟨address, parsedTypes.result, parsedSymbols.result⟩
      (nextIndex (nextIndex 1 parsedTypes) parsedSymbols)

def parser : Parser (Positionals (Option Text)) Args where
  positionals := positionals
  step := optionStep [.properties, .interval] [.forceStream]
  args s :=
    { address := s.positional.address
      types := s.positional.types
      symbols := s.positional.symbols
      properties := s.value .properties
      forceStream := s.flag .forceStream
      interval := Option.getD (α := ℕ) (s.value .interval) 2 }

end LatencyTest

namespace PerfTestTool

structure Args where
  address : Text
  types : Text
  symbols : Text
  properties : Option Text
  forceStream : Bool
  showCpuUsageByCore : Bool
  detachListener : Bool
  deriving Inhabited

def parser : Parser (Positionals Text) Args where
  positionals := requiredPositionals
  step := optionStep [.properties] [.forceStream, .cpuUsageByCore, .detachListener]
  args s :=
    { address := s.positional.address
      types := s.positional.types
      symbols := s.positional.symbols
      properties := s.value .properties
      forceStream := s.flag .forceStream
      showCpuUsageByCore := s.flag .cpuUsageByCore
      detachListener := s.flag .detachListener }

end PerfTestTool

namespace PerfTest2Tool

structure Args where
  address : Text
  symbols : Text
  properties : Option Text
  forceStream : Bool
  showCpuUsageByCore : Bool
  detachListener : Bool
  deriving Inhabited

/-- The address and the symbols. -/
def positionals (args : List Text) : Cpp (ParseResult (Text × Text)) :=
  opening AddressArgRequired.parse args fun address => do
    let parsedSymbols ← SymbolsArgRequired.parse 1 args
    if parsedSymbols.isError then return .error parsedSymbols.errorString
    return .ok (address, parsedSymbols.result) 2

def parser : Parser (Text × Text) Args where
  positionals := positionals
  step := optionStep [.properties] [.forceStream, .cpuUsageByCore, .detachListener]
  args s :=
    { address := s.positional.1
      symbols := s.positional.2
      properties := s.value .properties
      forceStream := s.flag .forceStream
      showCpuUsageByCore := s.flag .cpuUsageByCore
      detachListener := s.flag .detachListener }

end PerfTest2Tool

namespace EventGenTool

structure Args where
  address : Text
  properties : Option Text
  deriving Inhabited

def positionals (args : List Text) : Cpp (ParseResult Text) :=
  opening AddressArgRequired.parse args fun address => return .ok address 1

/-- There is no branch for any other word. -/
def step (args : List Text) (s : State Text) : Cpp (State Text) := do
  match ← takeValue args s [.properties] with
  | some taken => return taken
  | none => return s

def parser : Parser Text Args where
  positionals := positionals
  step := step
  args s := { address := s.positional, properties := s.value .properties }

end EventGenTool

namespace QdsTool

structure Args where
  qdsArgs : Text
  properties : Option Text
  deriving Inhabited

def positionals (args : List Text) : Cpp (ParseResult Text) :=
  opening QdsArgs.parse args fun qdsArgs => return .ok qdsArgs 1

/-- Other words are joined to the first one. -/
def step (args : List Text) (s : State Text) : Cpp (State Text) := do
  match ← takeValue args s [.properties] with
  | some taken => return taken
  | none =>
    let other ← word args s.index
    return { s with positional := s.positional ++ ' ' :: other, index := s.index + 1 }

def parser : Parser Text Args where
  positionals := positionals
  step := step
  args s := { qdsArgs := s.positional, properties := s.value .properties }

end QdsTool

/-! ## The positional arguments -/

section Opening

variable [Inhabited P] {errorString a : Text} {args : List Text}
  {others : Text → Cpp (ParseResult P)}

theorem opening_nil : opening (required 0 errorString) [] others = .ok (.error errorString) := rfl

theorem opening_cons : opening (required 0 errorString) (a :: args) others =
    if FlagArg.help.names.named a then .ok .help else others a := by
  obtain ⟨next, hparse⟩ := flag_parse_result .help (rfl : (a :: args).drop 0 = a :: args)
  have hfirst : required 0 errorString (a :: args) = .ok (.ok a LAST_INDEX) :=
    required_of_word errorString rfl
  simp only [opening, hparse, hfirst, ok_bind, ParseResult.ok, if_false, Bool.false_eq_true]
  rfl

theorem opening_plain (h : a.head? ≠ some '-') :
    opening (required 0 errorString) (a :: args) others = others a := by
  rw [opening_cons, if_neg]
  exact fun hnamed => h (head_of_named (o := .flag .help) hnamed)

end Opening

/-! ## What is returned -/

section Returned

variable [Inhabited A] {p : Parser P A} {args : List Text} {positional : P} {index : ℕ}

/-- Where the loop begins, if there are positional results. -/
theorem parse_eq (h : p.positionals args = .ok (.ok positional index)) (fuel : ℕ) :
    p.parse fuel args = do
      let s ← IndexLoops.loop .unfinished State.index args.length (p.step args) fuel
        (.start positional index)
      return .ok (p.args s) LAST_INDEX := by
  rw [Parser.parse, h]
  rfl

theorem parse_of_ends (h : p.positionals args = .ok (.ok positional index)) {s : State P}
    (hends : IndexLoops.Ends State.index args.length (p.step args) (.start positional index) s) :
    ∃ fuel, p.parse fuel args = .ok (.ok (p.args s) LAST_INDEX) := by
  obtain ⟨fuel, hloop⟩ : ∃ fuel, IndexLoops.loop Failure.unfinished State.index args.length
      (p.step args) fuel (.start positional index) = .ok s := IndexLoops.loop_of_ends hends
  refine ⟨fuel, ?_⟩
  rw [parse_eq h, hloop]
  rfl

theorem ends_of_parse (h : p.positionals args = .ok (.ok positional index)) {fuel : ℕ}
    {parsed : ParseResult A} (hparse : p.parse fuel args = .ok parsed) :
    ∃ s, IndexLoops.Ends State.index args.length (p.step args) (.start positional index) s ∧
      parsed = .ok (p.args s) LAST_INDEX := by
  rw [parse_eq h] at hparse
  obtain ⟨s, hloop, hreturn⟩ := bind_eq_ok.mp hparse
  exact ⟨s, IndexLoops.ends_of_loop hloop, (Except.ok.inj hreturn).symm⟩

end Returned

/-! ## What a step does -/

def State.IsFree (s : State P) : OptionArg → Prop
  | .value x => s.isParsed x = false
  | .flag f => s.flag f = false

def State.take (s : State P) (x : ValueArg) (v : Text) : State P :=
  { s with
    value := Function.update s.value x (x.read v)
    isParsed := Function.update s.isParsed x true
    index := if (x.read v).isSome then s.index + 2 else s.index }

def State.raise (s : State P) (f : FlagArg) : State P :=
  { s with flag := Function.update s.flag f true, index := s.index + 1 }

def State.skip (s : State P) : State P := { s with index := s.index + 1 }

section Steps

variable {args tail : List Text} {s : State P} {w v : Text} {values : List ValueArg}
  {flags : List FlagArg}

/-- The option that the word names is taken, wherever its test stands in the chain. -/
theorem takeValue_of_value {x : ValueArg} (h : args.drop s.index = w :: v :: tail)
    (hx : x ∈ values) (hfree : s.isParsed x = false) (hnamed : x.names.named w = true) :
    takeValue args s values = .ok (some (s.take x v)) := by
  induction values with
  | nil => cases hx
  | cons y ys ih =>
    by_cases hy : y = x
    · subst hy
      simp only [takeValue, hfree, ValueArg.canParse, canParse_of_value y.names h, ok_bind, hnamed,
        y.parse_of_value h hnamed, if_true, if_false, Bool.false_eq_true]
      rfl
    · have hrest := ih ((List.mem_cons.mp hx).resolve_left (Ne.symm hy))
      have hother : y.names.named w = false := by
        by_contra hnot
        have hsame : OptionArg.value y = .value x :=
          named_unique (Bool.eq_true_of_not_eq_false hnot) hnamed
        exact hy (OptionArg.value.inj hsame)
      simp only [takeValue, ValueArg.canParse, canParse_of_value y.names h, ok_bind, hother, hrest,
        if_false, Bool.false_eq_true, ite_self]

/-- No branch is taken if the word names no option that is still free, or is the last word. -/
theorem takeValue_none (h : args.drop s.index = w :: tail)
    (hnone : ∀ x ∈ values, s.isParsed x = false → x.names.named w = true → tail = []) :
    takeValue args s values = .ok none := by
  induction values with
  | nil => rfl
  | cons y ys ih =>
    have hrest := ih fun x hx => hnone x (List.mem_cons_of_mem y hx)
    cases hy : s.isParsed y with
    | true => simp only [takeValue, hy, if_true, hrest]
    | false =>
      have hcan : y.canParse args s.index = .ok false := by
        cases tail with
        | nil => exact canParse_last y.names h
        | cons v tail =>
          have hnot : y.names.named w = false := by
            by_contra hnamed
            have hempty := hnone y List.mem_cons_self hy (Bool.eq_true_of_not_eq_false hnamed)
            cases hempty
          exact (canParse_of_value y.names h).trans (congrArg _ hnot)
      simp only [takeValue, hy, hcan, ok_bind, hrest, if_false, Bool.false_eq_true]

theorem takeFlag_of_flag {f : FlagArg} (h : args.drop s.index = w :: tail) (hf : f ∈ flags)
    (hfree : s.flag f = false) (hnamed : f.names.named w = true) :
    takeFlag args s flags = .ok (some (s.raise f)) := by
  induction flags with
  | nil => cases hf
  | cons g gs ih =>
    obtain ⟨next, hparse⟩ := flag_parse_result g h
    by_cases hg : g = f
    · subst hg
      simp only [takeFlag, hfree, hparse, ok_bind, ParseResult.ok, hnamed, if_true, if_false,
        Bool.false_eq_true]
      rfl
    · have hrest := ih ((List.mem_cons.mp hf).resolve_left (Ne.symm hg))
      have hother : g.names.named w = false := by
        by_contra hnot
        have hsame : OptionArg.flag g = .flag f :=
          named_unique (Bool.eq_true_of_not_eq_false hnot) hnamed
        exact hg (OptionArg.flag.inj hsame)
      simp only [takeFlag, hparse, ok_bind, ParseResult.ok, hother, hrest, if_false,
        Bool.false_eq_true, ite_self]

theorem takeFlag_none (h : args.drop s.index = w :: tail)
    (hnone : ∀ f ∈ flags, s.flag f = false → f.names.named w = false) :
    takeFlag args s flags = .ok none := by
  induction flags with
  | nil => rfl
  | cons g gs ih =>
    have hrest := ih fun f hf => hnone f (List.mem_cons_of_mem g hf)
    obtain ⟨next, hparse⟩ := flag_parse_result g h
    cases hg : s.flag g with
    | true => simp only [takeFlag, hg, if_true, hrest]
    | false =>
      have hnot := hnone g List.mem_cons_self hg
      simp only [takeFlag, hg, hparse, ok_bind, ParseResult.ok, hnot, hrest, if_false,
        Bool.false_eq_true]

theorem optionStep_value {x : ValueArg} (h : args.drop s.index = w :: v :: tail)
    (hx : x ∈ values) (hfree : s.isParsed x = false) (hnamed : x.names.named w = true) :
    optionStep values flags args s = .ok (s.take x v) := by
  rw [optionStep, takeValue_of_value h hx hfree hnamed]
  rfl

theorem optionStep_flag {f : FlagArg} (h : args.drop s.index = w :: tail) (hf : f ∈ flags)
    (hfree : s.flag f = false) (hnamed : f.names.named w = true) :
    optionStep values flags args s = .ok (s.raise f) := by
  have hvalue : takeValue args s values = .ok none := by
    apply takeValue_none h
    intro x _ _ hx
    have hsame : OptionArg.value x = .flag f := named_unique hx hnamed
    cases hsame
  rw [optionStep, hvalue, ok_bind, takeFlag_of_flag h hf hfree hnamed]
  rfl

/-- Where no value is taken the body goes on to the next word. -/
theorem optionStep_other (h : args.drop s.index = w :: tail)
    (hnone : ∀ x ∈ values, s.isParsed x = false → x.names.named w = true → tail = []) :
    ∃ t, optionStep values flags args s = .ok t ∧ t.index = s.index + 1 ∧
      t.isParsed = s.isParsed := by
  have hvalue := takeValue_none h hnone
  by_cases hflag : ∃ f ∈ flags, s.flag f = false ∧ f.names.named w = true
  · obtain ⟨f, hf, hfree, hnamed⟩ := hflag
    refine ⟨s.raise f, ?_, rfl, rfl⟩
    rw [optionStep, hvalue, ok_bind, takeFlag_of_flag h hf hfree hnamed]
    rfl
  · have hnot : ∀ f ∈ flags, s.flag f = false → f.names.named w = false := by
      intro f hf hfree
      by_contra hnamed
      exact hflag ⟨f, hf, hfree, Bool.eq_true_of_not_eq_false hnamed⟩
    refine ⟨s.skip, ?_, rfl, rfl⟩
    rw [optionStep, hvalue, ok_bind, takeFlag_none h hnot]
    rfl

/-! ### Positional results stay -/

theorem takeValue_positional {t : State P} (h : takeValue args s values = .ok (some t)) :
    t.positional = s.positional := by
  induction values with
  | nil => cases h
  | cons x xs ih =>
    rw [takeValue] at h
    split at h
    · exact ih h
    · obtain ⟨can, _, h⟩ := bind_eq_ok.mp h
      split at h
      · obtain ⟨parseResult, _, h⟩ := bind_eq_ok.mp h
        obtain rfl := Option.some.inj (Except.ok.inj h)
        rfl
      · exact ih h

theorem takeFlag_positional {t : State P} (h : takeFlag args s flags = .ok (some t)) :
    t.positional = s.positional := by
  induction flags with
  | nil => cases h
  | cons f fs ih =>
    rw [takeFlag] at h
    split at h
    · exact ih h
    · obtain ⟨parsed, _, h⟩ := bind_eq_ok.mp h
      split at h
      · obtain rfl := Option.some.inj (Except.ok.inj h)
        rfl
      · exact ih h

theorem optionStep_positional {t : State P} (h : optionStep values flags args s = .ok t) :
    t.positional = s.positional := by
  obtain ⟨taken, hvalue, h⟩ := bind_eq_ok.mp h
  cases taken with
  | some taken =>
    obtain rfl := Except.ok.inj h
    exact takeValue_positional hvalue
  | none =>
    obtain ⟨raised, hflag, h⟩ := bind_eq_ok.mp h
    cases raised with
    | some raised =>
      obtain rfl := Except.ok.inj h
      exact takeFlag_positional hflag
    | none =>
      obtain rfl := Except.ok.inj h
      rfl

theorem reaches_positional {t : State P}
    (h : IndexLoops.Reaches State.index args.length (optionStep values flags args) s t) :
    t.positional = s.positional := by
  induction h with
  | refl => rfl
  | tail _ hround ih => exact (optionStep_positional hround.body_eq).trans ih

end Steps

end ToolParsers
