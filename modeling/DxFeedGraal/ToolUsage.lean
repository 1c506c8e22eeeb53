import DxFeedGraal.ToolParsers

/-! # Documented command lines

The lines that the usage of a tool describes: its positional arguments, then any options in any
order, each at most once. A line stands for the arguments that its parser should return. -/
namespace ToolUsage

open CppStrings Numerals ToolArguments ToolParsers

/-! ## Lines -/

/-- The tools that subscribe to events. -/
inductive SubscribingTool where
  | connect | dump | latencyTest | perfTest | perfTest2
  deriving DecidableEq, Repr

inductive Positional where
  | address | types | symbols
  deriving DecidableEq, Repr

namespace SubscribingTool

/-- The positional arguments in each form of `USAGE`. -/
def USAGE : SubscribingTool → List (List Positional)
  | connect => [[.address, .types, .symbols]]
  | dump => [[.address], [.address, .types], [.address, .types, .symbols]]
  | latencyTest => [[.address, .types, .symbols]]
  | perfTest => [[.address, .types, .symbols]]
  | perfTest2 => [[.address, .symbols]]

/-- The options in `ARGS`. -/
def ARGS : SubscribingTool → List OptionArg
  | connect =>
    [.value .fromTime, .value .source, .value .properties, .value .tape, .flag .quite,
      .flag .forceStream, .flag .help]
  | dump => [.value .properties, .value .tape, .flag .quite, .flag .help]
  | latencyTest => [.value .properties, .flag .forceStream, .value .interval, .flag .help]
  | perfTest =>
    [.value .properties, .flag .forceStream, .flag .cpuUsageByCore, .flag .detachListener,
      .flag .help]
  | perfTest2 =>
    [.flag .forceStream, .flag .detachListener, .flag .cpuUsageByCore, .value .properties,
      .flag .help]

end SubscribingTool

/-- An option on a line, by its short or its long name. -/
inductive Given where
  | value (x : ValueArg) (long : Bool) (text : Text)
  | flag (f : FlagArg) (long : Bool)

structure IsDecimal (text : Text) : Prop where
  ne : text ≠ []
  digits : ∀ c ∈ text, isDigit 10 c = true
  small : ofDigits 10 text < 2 ^ 64 - 1

namespace Given

def option : Given → OptionArg
  | value x _ _ => .value x
  | flag f _ => .flag f

def words : Given → List Text
  | value x long text => [x.names.form long, text]
  | flag f long => [f.names.form long]

/-- Only the value of an interval has a format. -/
def WellFormed : Given → Prop
  | value x long text => x.names.HasForm long ∧ (x = .interval → IsDecimal text)
  | flag f long => f.names.HasForm long

end Given

structure Line (tool : SubscribingTool) where
  form : List Positional
  form_mem : form ∈ tool.USAGE
  texts : Positional → Text
  plain : ∀ p ∈ form, (texts p).head? ≠ some '-'
  given : List Given
  distinct : (given.map Given.option).Nodup
  known : ∀ g ∈ given, g.option ∈ tool.ARGS ∧ g.option ≠ .flag .help
  wellFormed : ∀ g ∈ given, g.WellFormed

def Line.words {tool : SubscribingTool} (line : Line tool) : List Text :=
  line.form.map line.texts ++ line.given.flatMap Given.words

/-! ## Their arguments -/

/-- What the text behind an option means. -/
def meaning : (x : ValueArg) → Text → x.Value
  | .properties, text => text
  | .fromTime, text => text
  | .source, text => text
  | .tape, text => text
  | .interval, text => ofDigits 10 text

def Given.valueOf (x : ValueArg) : Given → Option x.Value
  | value y _ text => if y = x then some (meaning x text) else none
  | flag _ _ => none

def valueOf (given : List Given) (x : ValueArg) : Option x.Value :=
  given.findSome? (Given.valueOf x)

def isGiven (given : List Given) (f : FlagArg) : Bool :=
  given.any fun g => g.option == .flag f

namespace SubscribingTool

def Args : SubscribingTool → Type
  | connect => ConnectTool.Args
  | dump => DumpTool.Args
  | latencyTest => LatencyTest.Args
  | perfTest => PerfTestTool.Args
  | perfTest2 => PerfTest2Tool.Args

def parse : (tool : SubscribingTool) → ℕ → List Text → Cpp (ParseResult tool.Args)
  | connect => ConnectTool.parser.parse
  | dump => DumpTool.parser.parse
  | latencyTest => LatencyTest.parser.parse
  | perfTest => PerfTestTool.parser.parse
  | perfTest2 => PerfTest2Tool.parser.parse

end SubscribingTool

namespace Line

variable {tool : SubscribingTool}

/-- A positional argument, if the form has it. -/
def positional (line : Line tool) (p : Positional) : Option Text :=
  if p ∈ line.form then some (line.texts p) else none

def arguments : {tool : SubscribingTool} → Line tool → tool.Args
  | .connect, line =>
    { address := line.texts .address
      types := line.texts .types
      symbols := line.texts .symbols
      fromTime := valueOf line.given .fromTime
      source := valueOf line.given .source
      properties := valueOf line.given .properties
      tape := valueOf line.given .tape
      isQuite := isGiven line.given .quite
      forceStream := isGiven line.given .forceStream : ConnectTool.Args }
  | .dump, line =>
    { address := line.texts .address
      types := line.positional .types
      symbols := line.positional .symbols
      properties := valueOf line.given .properties
      tape := valueOf line.given .tape
      isQuite := isGiven line.given .quite : DumpTool.Args }
  | .latencyTest, line =>
    { address := line.texts .address
      types := line.positional .types
      symbols := line.positional .symbols
      properties := valueOf line.given .properties
      forceStream := isGiven line.given .forceStream
      interval := Option.getD (α := ℕ) (valueOf line.given .interval) 2 : LatencyTest.Args }
  | .perfTest, line =>
    { address := line.texts .address
      types := line.texts .types
      symbols := line.texts .symbols
      properties := valueOf line.given .properties
      forceStream := isGiven line.given .forceStream
      showCpuUsageByCore := isGiven line.given .cpuUsageByCore
      detachListener := isGiven line.given .detachListener : PerfTestTool.Args }
  | .perfTest2, line =>
    { address := line.texts .address
      symbols := line.texts .symbols
      properties := valueOf line.given .properties
      forceStream := isGiven line.given .forceStream
      showCpuUsageByCore := isGiven line.given .cpuUsageByCore
      detachListener := isGiven line.given .detachListener : PerfTest2Tool.Args }

/-- The parser returns the arguments that the line stands for. -/
def IsUnderstood (line : Line tool) : Prop :=
  ∃ fuel parsed, tool.parse fuel line.words = .ok parsed ∧ parsed.isError = false ∧
    parsed.isHelp = false ∧ parsed.result = line.arguments

end Line

/-! ## The loop over the given options -/

section Loop

variable {P : Type}

def give (s : State P) : Given → State P
  | .value x _ text => s.take x text
  | .flag f _ => s.raise f

theorem named_form (o : OptionArg) {long : Bool} (h : o.names.HasForm long) :
    o.names.named (o.names.form long) = true :=
  (o.named_iff _).mpr ⟨long, h, rfl⟩

theorem read_meaning {x : ValueArg} {text : Text} (h : x = .interval → IsDecimal text) :
    x.read text = some (meaning x text) := by
  cases x with
  | properties => rfl
  | fromTime => rfl
  | source => rfl
  | tape => rfl
  | interval =>
    have hdecimal := h rfl
    exact readUnsigned_digits hdecimal.ne hdecimal.digits hdecimal.small

/-- A given option takes its own words and nothing else. -/
theorem give_index {g : Given} (h : g.WellFormed) (s : State P) :
    (give s g).index = s.index + g.words.length := by
  cases g with
  | value x long text =>
    have hread := read_meaning h.2
    simp only [give, State.take, hread, Option.isSome_some, if_true, Given.words]
    rfl
  | flag f long => rfl

theorem give_free {g : Given} {o : OptionArg} (h : g.option ≠ o) {s : State P}
    (hfree : s.IsFree o) : (give s g).IsFree o := by
  cases g with
  | value x long text =>
    cases o with
    | value y =>
      have hne : y ≠ x := fun heq => h (congrArg OptionArg.value heq.symm)
      exact (Function.update_of_ne hne _ _).trans hfree
    | flag f => exact hfree
  | flag f long =>
    cases o with
    | value y => exact hfree
    | flag f' =>
      have hne : f' ≠ f := fun heq => h (congrArg OptionArg.flag heq.symm)
      exact (Function.update_of_ne hne _ _).trans hfree

/-- The options that a tool's loop tests. -/
def tested (values : List ValueArg) (flags : List FlagArg) : List OptionArg :=
  values.map .value ++ flags.map .flag

variable {args rest : List Text} {values : List ValueArg} {flags : List FlagArg} {s : State P}

theorem step_given {g : Given} (h : args.drop s.index = g.words ++ rest) (hg : g.WellFormed)
    (htested : g.option ∈ tested values flags) (hfree : s.IsFree g.option) :
    optionStep values flags args s = .ok (give s g) := by
  cases g with
  | value x long text =>
    have hmem : x ∈ values := by simpa [tested, Given.option] using htested
    exact optionStep_value h hmem hfree (named_form (.value x) hg.1)
  | flag f long =>
    have hmem : f ∈ flags := by simpa [tested, Given.option] using htested
    exact optionStep_flag h hmem hfree (named_form (.flag f) hg)

theorem drop_words {words : List Text} (h : args.drop s.index = words ++ rest) :
    args.drop (s.index + words.length) = rest := by
  rw [← List.drop_drop, h, List.drop_left]

/-- The loop ends behind the options, each of which was taken once. -/
theorem ends_given {given : List Given} (h : args.drop s.index = given.flatMap Given.words)
    (hgiven : ∀ g ∈ given, g.WellFormed) (htested : ∀ g ∈ given, g.option ∈ tested values flags)
    (hfree : ∀ g ∈ given, s.IsFree g.option) (hdistinct : (given.map Given.option).Nodup) :
    IndexLoops.Ends State.index args.length (optionStep values flags args) s
      (given.foldl give s) := by
  induction given generalizing s with
  | nil => exact IndexLoops.ends_of_outside (List.drop_eq_nil_iff.mp h)
  | cons g given ih =>
    rw [List.flatMap_cons] at h
    have hg := hgiven g List.mem_cons_self
    have hstep := step_given h hg (htested g List.mem_cons_self) (hfree g List.mem_cons_self)
    have hinside : s.index < args.length := by
      have hne : args.drop s.index ≠ [] := by
        rw [h]
        cases g <;> exact List.cons_ne_nil _ _
      exact Nat.lt_of_not_le fun hle => hne (List.drop_eq_nil_iff.mpr hle)
    have hdistinct' := List.nodup_cons.mp hdistinct
    apply IndexLoops.Ends.step ⟨hinside, hstep⟩
    apply ih
    · rw [give_index hg]
      exact drop_words h
    · exact fun g' hg' => hgiven g' (List.mem_cons_of_mem g hg')
    · exact fun g' hg' => htested g' (List.mem_cons_of_mem g hg')
    · intro g' hg'
      apply give_free _ (hfree g' (List.mem_cons_of_mem g hg'))
      intro heq
      exact hdistinct'.1 (heq ▸ List.mem_map_of_mem hg')
    · exact hdistinct'.2

theorem positional_given (given : List Given) (s : State P) :
    (given.foldl give s).positional = s.positional := by
  induction given generalizing s with
  | nil => rfl
  | cons g given ih =>
    rw [List.foldl_cons, ih]
    cases g <;> rfl

theorem valueOf_eq_none {given : List Given} {x : ValueArg}
    (h : OptionArg.value x ∉ given.map Given.option) : valueOf given x = none := by
  apply List.findSome?_eq_none_iff.mpr
  intro g hg
  cases g with
  | value y long text =>
    have hne : y ≠ x := by
      rintro rfl
      exact h (List.mem_map_of_mem hg)
    exact if_neg hne
  | flag f long => rfl

theorem valueOf_cons (g : Given) (given : List Given) (x : ValueArg) :
    valueOf (g :: given) x = (g.valueOf x).or (valueOf given x) := by
  rw [valueOf, List.findSome?_cons]
  cases g.valueOf x <;> rfl

theorem value_given {given : List Given} (hgiven : ∀ g ∈ given, g.WellFormed)
    (hdistinct : (given.map Given.option).Nodup) (s : State P) (x : ValueArg) :
    (given.foldl give s).value x = (valueOf given x).or (s.value x) := by
  induction given generalizing s with
  | nil => rfl
  | cons g given ih =>
    have hdistinct' := List.nodup_cons.mp hdistinct
    have hrest := ih (fun g' hg' => hgiven g' (List.mem_cons_of_mem g hg')) hdistinct'.2 (give s g)
    rw [List.foldl_cons, hrest, valueOf_cons]
    cases g with
    | value y long text =>
      by_cases hy : y = x
      · subst hy
        have hread := read_meaning (hgiven _ List.mem_cons_self).2
        have hnone : valueOf given y = none := valueOf_eq_none hdistinct'.1
        simp [hnone, give, State.take, Given.valueOf, hread]
      · have hx : x ≠ y := Ne.symm hy
        simp [give, State.take, Given.valueOf, hy, Function.update_of_ne hx]
    | flag f long => rfl

theorem flag_given (given : List Given) (s : State P) (f : FlagArg) :
    (given.foldl give s).flag f = (isGiven given f || s.flag f) := by
  induction given generalizing s with
  | nil => rfl
  | cons g given ih =>
    rw [List.foldl_cons, ih, isGiven, isGiven, List.any_cons]
    cases g with
    | value y long text => rfl
    | flag f' long =>
      by_cases hf : f' = f
      · subst hf
        simp [give, State.raise, Given.option]
      · have hne : f ≠ f' := Ne.symm hf
        have hother : ((Given.flag f' long).option == .flag f) = false := by
          simpa [Given.option] using hf
        rw [hother, Bool.false_or]
        exact congrArg _ (Function.update_of_ne hne _ _)

end Loop

/-! ## The positional arguments of a line -/

section Positionals

variable {a t y : Text} {rest : List Text}

theorem requiredPositionals_plain (ha : a.head? ≠ some '-') :
    requiredPositionals (a :: t :: y :: rest) = .ok (.ok ⟨a, t, y⟩ 3) := by
  apply (opening_plain ha).trans
  have htypes : TypesArgRequired.parse (a :: t :: y :: rest) = .ok (.ok t LAST_INDEX) := by
    rw [TypesArgRequired.parse, RequiredMixin.parse]
    exact required_of_word _ rfl
  have hsymbols : SymbolsArgRequired.parse 2 (a :: t :: y :: rest) = .ok (.ok y LAST_INDEX) :=
    required_of_word _ rfl
  rw [htypes, ok_bind, hsymbols]
  rfl

theorem perfTest2_positionals (ha : a.head? ≠ some '-') :
    PerfTest2Tool.positionals (a :: y :: rest) = .ok (.ok (a, y) 2) := by
  apply (opening_plain ha).trans
  have hsymbols : SymbolsArgRequired.parse 1 (a :: y :: rest) = .ok (.ok y LAST_INDEX) :=
    required_of_word _ rfl
  rw [hsymbols]
  rfl

theorem latencyTest_positionals (ha : a.head? ≠ some '-') :
    LatencyTest.positionals (a :: t :: y :: rest) = .ok (.ok ⟨a, some t, some y⟩ 3) := by
  apply (opening_plain ha).trans
  rw [TypesArg.parse, positional_parse, ok_bind, SymbolsArg.parse, positional_parse]
  rfl

theorem dump_positionals_dashed (ha : a.head? ≠ some '-')
    (hrest : ∀ w ∈ rest.head?, w.head? = some '-') :
    DumpTool.positionals (a :: rest) = .ok (.ok ⟨a, none, none⟩ 1) := by
  apply (opening_plain ha).trans
  cases rest with
  | nil => rfl
  | cons w rest =>
    have hdashed : DumpTool.isDashed (a :: w :: rest) = .ok true :=
      congrArg Except.ok (beq_iff_eq.mpr (hrest w rfl))
    rw [hdashed]
    rfl

/-- Whatever stands behind the types is taken for the symbols. -/
theorem dump_positionals_types (ha : a.head? ≠ some '-') (ht : t.head? ≠ some '-') :
    DumpTool.positionals (a :: t :: rest) =
      .ok (.ok ⟨a, some t, rest.head?⟩ (if rest = [] then 2 else 3)) := by
  apply (opening_plain ha).trans
  have hdashed : DumpTool.isDashed (a :: t :: rest) = .ok false :=
    congrArg Except.ok (beq_eq_false_iff_ne.mpr ht)
  rw [hdashed, ok_bind, TypesArg.parse, positional_parse, SymbolsArg.parse, positional_parse]
  cases rest with
  | nil => rfl
  | cons w rest => rfl

end Positionals

/-! ## Agreement with the usage -/

namespace Line

variable {tool : SubscribingTool} {P : Type}

/-- The locals behind the loop. -/
def final (line : Line tool) (positional : P) (index : ℕ) : State P :=
  line.given.foldl give (.start positional index)

theorem final_positional (line : Line tool) (positional : P) (index : ℕ) :
    (line.final positional index).positional = positional :=
  positional_given line.given _

theorem final_value (line : Line tool) (positional : P) (index : ℕ) (x : ValueArg) :
    (line.final positional index).value x = valueOf line.given x :=
  (value_given line.wellFormed line.distinct _ x).trans (Option.or_none)

theorem final_flag (line : Line tool) (positional : P) (index : ℕ) (f : FlagArg) :
    (line.final positional index).flag f = isGiven line.given f :=
  (flag_given line.given _ f).trans (Bool.or_false _)

theorem ends (line : Line tool) {values : List ValueArg} {flags : List FlagArg} {index : ℕ}
    (htested : ∀ o ∈ tool.ARGS, o ≠ .flag .help → o ∈ tested values flags)
    (hindex : line.words.drop index = line.given.flatMap Given.words) (positional : P) :
    IndexLoops.Ends State.index line.words.length (optionStep values flags line.words)
      (.start positional index) (line.final positional index) := by
  apply ends_given hindex line.wellFormed
  · intro g hg
    obtain ⟨hknown, hhelp⟩ := line.known g hg
    exact htested _ hknown hhelp
  · intro g _
    cases g.option <;> rfl
  · exact line.distinct

theorem words_three (line : Line tool) (h : line.form = [.address, .types, .symbols]) :
    line.words = line.texts .address :: line.texts .types :: line.texts .symbols ::
      line.given.flatMap Given.words := by
  rw [words, h]
  rfl

theorem words_two {line : Line tool} {p : Positional} (h : line.form = [.address, p]) :
    line.words = line.texts .address :: line.texts p :: line.given.flatMap Given.words := by
  rw [words, h]
  rfl

theorem plain_of_form {line : Line tool} {form : List Positional} (h : line.form = form)
    {p : Positional} (hp : p ∈ form) : (line.texts p).head? ≠ some '-' :=
  line.plain p (h ▸ hp)

/-- A parser whose loop tests all options returns what the line gives. -/
theorem returns {A : Type} [Inhabited A] (line : Line tool) {p : Parser P A}
    {values : List ValueArg} {flags : List FlagArg} {positional : P} {index : ℕ}
    (hstep : p.step = optionStep values flags)
    (htested : ∀ o ∈ tool.ARGS, o ≠ .flag .help → o ∈ tested values flags)
    (hpos : p.positionals line.words = .ok (.ok positional index))
    (hdrop : line.words.drop index = line.given.flatMap Given.words) :
    ∃ fuel, p.parse fuel line.words =
      .ok (.ok (p.args (line.final positional index)) LAST_INDEX) := by
  apply parse_of_ends hpos
  rw [hstep]
  exact line.ends htested hdrop positional

theorem requiredPositionals_eq {line : Line tool}
    (h : line.form = [.address, .types, .symbols]) : requiredPositionals line.words =
      .ok (.ok ⟨line.texts .address, line.texts .types, line.texts .symbols⟩ 3) :=
  line.words_three h ▸ requiredPositionals_plain (plain_of_form h (by decide))

theorem connect_understood (line : Line .connect) : line.IsUnderstood := by
  have hform : line.form = [.address, .types, .symbols] := List.mem_singleton.mp line.form_mem
  have hpos : ConnectTool.parser.positionals line.words = _ := requiredPositionals_eq hform
  obtain ⟨fuel, hparse⟩ :=
    line.returns rfl (by decide) hpos (congrArg (List.drop 3) (line.words_three hform))
  refine ⟨fuel, _, hparse, rfl, rfl, ?_⟩
  simp only [ParseResult.ok, ConnectTool.parser, final_positional, final_value, final_flag]
  rfl

theorem perfTest_understood (line : Line .perfTest) : line.IsUnderstood := by
  have hform : line.form = [.address, .types, .symbols] := List.mem_singleton.mp line.form_mem
  have hpos : PerfTestTool.parser.positionals line.words = _ := requiredPositionals_eq hform
  obtain ⟨fuel, hparse⟩ :=
    line.returns rfl (by decide) hpos (congrArg (List.drop 3) (line.words_three hform))
  refine ⟨fuel, _, hparse, rfl, rfl, ?_⟩
  simp only [ParseResult.ok, PerfTestTool.parser, final_positional, final_value, final_flag]
  rfl

theorem perfTest2_understood (line : Line .perfTest2) : line.IsUnderstood := by
  have hform : line.form = [.address, .symbols] := List.mem_singleton.mp line.form_mem
  have hwords := words_two hform
  have hpos : PerfTest2Tool.parser.positionals line.words =
      .ok (.ok (line.texts .address, line.texts .symbols) 2) :=
    hwords ▸ perfTest2_positionals (plain_of_form hform (by decide))
  obtain ⟨fuel, hparse⟩ :=
    line.returns rfl (by decide) hpos (congrArg (List.drop 2) hwords)
  refine ⟨fuel, _, hparse, rfl, rfl, ?_⟩
  simp only [ParseResult.ok, PerfTest2Tool.parser, final_positional, final_value, final_flag]
  rfl

theorem positional_of_form {line : Line tool} {form : List Positional} (h : line.form = form)
    (p : Positional) : line.positional p = if p ∈ form then some (line.texts p) else none := by
  rw [positional, h]

theorem latencyTest_understood (line : Line .latencyTest) : line.IsUnderstood := by
  have hform : line.form = [.address, .types, .symbols] := List.mem_singleton.mp line.form_mem
  have hwords := line.words_three hform
  have hpos : LatencyTest.parser.positionals line.words =
      .ok (.ok ⟨line.texts .address, some (line.texts .types), some (line.texts .symbols)⟩ 3) :=
    hwords ▸ latencyTest_positionals (plain_of_form hform (by decide))
  obtain ⟨fuel, hparse⟩ :=
    line.returns rfl (by decide) hpos (congrArg (List.drop 3) hwords)
  refine ⟨fuel, _, hparse, rfl, rfl, ?_⟩
  simp only [ParseResult.ok, LatencyTest.parser, final_positional, final_value, final_flag,
    arguments, positional_of_form hform]
  rfl

/-- The arguments of a dump, once the positional ones are found. -/
theorem dump_understood {line : Line .dump} {index : ℕ}
    (hpos : DumpTool.parser.positionals line.words =
      .ok (.ok ⟨line.texts .address, line.positional .types, line.positional .symbols⟩ index))
    (hdrop : line.words.drop index = line.given.flatMap Given.words) : line.IsUnderstood := by
  obtain ⟨fuel, hparse⟩ := line.returns rfl (by decide) hpos hdrop
  refine ⟨fuel, _, hparse, rfl, rfl, ?_⟩
  simp only [ParseResult.ok, DumpTool.parser, final_positional, final_value, final_flag]
  rfl

theorem head_words {given : List Given} (h : ∀ g ∈ given, g.WellFormed) :
    ∀ w ∈ (given.flatMap Given.words).head?, w.head? = some '-' := by
  cases given with
  | nil => nofun
  | cons g given =>
    intro w hw
    have hg := h g List.mem_cons_self
    cases g with
    | value x long text =>
      obtain rfl : x.names.form long = w := Option.some.inj hw
      exact head_of_named (o := .value x) (named_form (.value x) hg.1)
    | flag f long =>
      obtain rfl : f.names.form long = w := Option.some.inj hw
      exact head_of_named (o := .flag f) (named_form (.flag f) hg)

theorem dump_address (line : Line .dump) (hform : line.form = [.address]) : line.IsUnderstood := by
  have hwords : line.words = line.texts .address :: line.given.flatMap Given.words := by
    rw [words, hform]
    rfl
  refine dump_understood ?_ (congrArg (List.drop 1) hwords)
  rw [positional_of_form hform, positional_of_form hform, hwords]
  exact dump_positionals_dashed (plain_of_form hform (by decide)) (head_words line.wellFormed)

theorem dump_symbols (line : Line .dump) (hform : line.form = [.address, .types, .symbols]) :
    line.IsUnderstood := by
  have hwords := line.words_three hform
  refine dump_understood ?_ (congrArg (List.drop 3) hwords)
  rw [positional_of_form hform, positional_of_form hform, hwords]
  exact dump_positionals_types (plain_of_form hform (by decide)) (plain_of_form hform (by decide))

/-- Without symbols an option loses its name to them. -/
theorem dump_types_iff (line : Line .dump) (hform : line.form = [.address, .types]) :
    line.IsUnderstood ↔ line.given = [] := by
  have hwords := words_two hform
  have haddress : (line.texts .address).head? ≠ some '-' := plain_of_form hform (by decide)
  have htypes : (line.texts .types).head? ≠ some '-' := plain_of_form hform (by decide)
  have hsymbols : line.positional .symbols = none := positional_of_form hform .symbols
  have hpos : DumpTool.parser.positionals line.words = _ :=
    hwords ▸ dump_positionals_types haddress htypes
  constructor
  · rintro ⟨fuel, parsed, hparse, _, _, hresult⟩
    obtain ⟨s, hends, rfl⟩ := ends_of_parse hpos hparse
    have hstays : s.positional = _ := reaches_positional hends.1
    have htaken : s.positional.symbols = none := by
      have hfield := congrArg DumpTool.Args.symbols hresult
      exact hfield.trans hsymbols
    rw [hstays] at htaken
    cases hgiven : line.given with
    | nil => rfl
    | cons g given =>
      rw [hgiven] at htaken
      cases g <;> cases htaken
  · intro hnone
    refine dump_understood ?_ (congrArg (List.drop 2) hwords)
    rw [hpos, hnone, hsymbols, positional_of_form hform]
    rfl

/-- The usage holds but for a dump with types, without symbols and with an option. -/
theorem understood_iff (line : Line tool) :
    line.IsUnderstood ↔
      ¬(tool = .dump ∧ line.form = [.address, .types] ∧ line.given ≠ []) := by
  cases tool with
  | connect => exact iff_of_true line.connect_understood nofun
  | latencyTest => exact iff_of_true line.latencyTest_understood nofun
  | perfTest => exact iff_of_true line.perfTest_understood nofun
  | perfTest2 => exact iff_of_true line.perfTest2_understood nofun
  | dump =>
    rcases List.mem_cons.mp line.form_mem with hform | hform
    · have hother : line.form ≠ [.address, .types] := by
        rw [hform]
        decide
      exact iff_of_true (line.dump_address hform) fun h => hother h.2.1
    · rcases List.mem_cons.mp hform with hform | hform
      · rw [line.dump_types_iff hform]
        simp [hform]
      · have hform := List.mem_singleton.mp hform
        have hother : line.form ≠ [.address, .types] := by
          rw [hform]
          decide
        exact iff_of_true (line.dump_symbols hform) fun h => hother h.2.1

end Line

/-- `dump tape.csv Quote -q` -/
def quietDump : Line .dump where
  form := [.address, .types]
  form_mem := List.mem_cons_of_mem _ List.mem_cons_self
  texts
    | .address => "tape.csv".toList
    | .types => "Quote".toList
    | .symbols => []
  plain := by decide
  given := [.flag .quite false]
  distinct := List.nodup_singleton _
  known := by decide
  wellFormed := by
    intro g hg
    obtain rfl := List.mem_singleton.mp hg
    exact fun _ => by decide

theorem option_taken_for_symbols :
    quietDump.words = ["tape.csv".toList, "Quote".toList, "-q".toList] ∧
      DumpTool.parser.parse 0 quietDump.words = .ok (.ok
        { address := "tape.csv".toList
          types := some "Quote".toList
          symbols := some "-q".toList
          properties := none
          tape := none
          isQuite := false } LAST_INDEX) ∧
      ¬ quietDump.IsUnderstood := by
  refine ⟨by decide, rfl, fun h => ?_⟩
  have hnone := (quietDump.dump_types_iff rfl).mp h
  cases hnone

end ToolUsage
