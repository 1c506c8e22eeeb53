import DxFeedGraal.CppNumbers

/-! # Arguments of the command line tools

A positional argument has a fixed place among the words. A named one is a word behind one or
two dashes, and its value is the next word. -/
namespace ToolArguments

open CppStrings CppNumbers Numerals

/-! ## Results -/

structure ParseResult (R : Type) where
  result : R
  errorString : Text
  isError : Bool
  isHelp : Bool
  nextIndex : ℕ
  deriving DecidableEq

def LAST_INDEX : ℕ := 2 ^ 64 - 1

namespace ParseResult

variable {R : Type}

def ok (result : R) (nextIndex : ℕ) : ParseResult R := ⟨result, [], false, false, nextIndex⟩

def error [Inhabited R] (errorString : Text) : ParseResult R :=
  ⟨default, errorString, true, false, LAST_INDEX⟩

def help [Inhabited R] : ParseResult R := ⟨default, [], false, true, LAST_INDEX⟩

end ParseResult

/-- `args[i]`. Behind the last word there is nothing to read. -/
def word (args : List Text) (i : ℕ) : Cpp Text :=
  match args[i]? with
  | some w => .ok w
  | none => .error .outOfRange

/-! ## Positional arguments -/

def PositionalArg.parse (POSITION : ℕ) (args : List Text) : Cpp (ParseResult (Option Text)) :=
  if args.length > POSITION then do
    return .ok (some (← word args POSITION)) LAST_INDEX
  else return .ok none LAST_INDEX

def required (POSITION : ℕ) (errorString : Text) (args : List Text) : Cpp (ParseResult Text) :=
  if args.length > POSITION then do
    return .ok (← word args POSITION) LAST_INDEX
  else return .error errorString

def RequiredMixin.parse (NAME : Text) (POSITION : ℕ) : List Text → Cpp (ParseResult Text) :=
  required POSITION
    ('"' :: NAME ++ "\" argument parsing error. Insufficient parameters.".toList)

def AddressArgRequired.parse : List Text → Cpp (ParseResult Text) :=
  RequiredMixin.parse "address".toList 0

def QdsArgs.parse : List Text → Cpp (ParseResult Text) := RequiredMixin.parse "qds-args".toList 0

def TypesArgRequired.parse : List Text → Cpp (ParseResult Text) :=
  RequiredMixin.parse "types".toList 1

/-- Its message is not that of the other required arguments. -/
def SymbolsArgRequired.parse (POSITION : ℕ) : List Text → Cpp (ParseResult Text) :=
  required POSITION "Symbols parsing error. Insufficient parameters.".toList

def TypesArg.parse : List Text → Cpp (ParseResult (Option Text)) := PositionalArg.parse 1

def SymbolsArg.parse : List Text → Cpp (ParseResult (Option Text)) := PositionalArg.parse 2

/-! ## Named arguments -/

structure Names where
  SHORT_NAME : Text
  LONG_NAME : Text

def Names.named (names : Names) (w : Text) : Bool :=
  (!names.SHORT_NAME.isEmpty && w == '-' :: names.SHORT_NAME) ||
    (!names.LONG_NAME.isEmpty && w == '-' :: '-' :: names.LONG_NAME)

namespace NamedArg

variable (names : Names) (args : List Text) (index : ℕ)

def canParse : Cpp Bool :=
  if args.length > index + 1 then do
    return names.named (← word args index)
  else return false

def parse : Cpp (ParseResult (Option Text)) :=
  if args.length ≤ index + 1 then return .ok none index
  else do
    if names.named (← word args index) then
      return .ok (some (← word args (index + 1))) (index + 2)
    return .ok none index

end NamedArg

/-- `std::stoull`. A minus sign negates the unsigned number. -/
def stoull (s : Text) : Cpp ℕ :=
  let signed := s.dropWhile isSpace
  let negative := signed.head? == some '-'
  let unsigned := if negative || signed.head? == some '+' then signed.tail else signed
  let digits := unsigned.takeWhile (isDigit 10)
  if digits = [] then .error (.invalidArgument "stoull".toList)
  else if 2 ^ 64 ≤ ofDigits 10 digits then .error .outOfRange
  else .ok (if negative then sizeSub 0 (ofDigits 10 digits) else ofDigits 10 digits)

def NamedUnsignedIntArg.parse (names : Names) (args : List Text) (index : ℕ) :
    Cpp (ParseResult (Option ℕ)) :=
  if args.length ≤ index + 1 then return .ok none index
  else do
    if names.named (← word args index) then
      match stoull (← word args (index + 1)) with
      | .ok res =>
        if res ≥ 2 ^ 64 - 1 then return .ok none index
        return .ok (some res) (index + 2)
      | .error _ => return .ok none index
    return .ok none index

/-- The named arguments with a value. -/
inductive ValueArg where
  | properties | fromTime | source | tape | interval
  deriving DecidableEq, Repr

inductive FlagArg where
  | quite | forceStream | cpuUsageByCore | detachListener | help
  deriving DecidableEq, Repr

def ValueArg.names : ValueArg → Names
  | .properties => ⟨"p".toList, "properties".toList⟩
  | .fromTime => ⟨"f".toList, "from-time".toList⟩
  | .source => ⟨"s".toList, "source".toList⟩
  | .tape => ⟨"t".toList, "tape".toList⟩
  | .interval => ⟨[], "interval".toList⟩

def FlagArg.names : FlagArg → Names
  | .quite => ⟨"q".toList, "quite".toList⟩
  | .forceStream => ⟨[], "force-stream".toList⟩
  | .cpuUsageByCore => ⟨[], "cpu-usage-by-core".toList⟩
  | .detachListener => ⟨[], "detach-listener".toList⟩
  | .help => ⟨"h".toList, "help".toList⟩

def ValueArg.Value : ValueArg → Type
  | .interval => ℕ
  | _ => Text

def ValueArg.canParse (x : ValueArg) : List Text → ℕ → Cpp Bool := NamedArg.canParse x.names

def ValueArg.parse : (x : ValueArg) → List Text → ℕ → Cpp (ParseResult (Option x.Value))
  | .properties => NamedArg.parse ValueArg.properties.names
  | .fromTime => NamedArg.parse ValueArg.fromTime.names
  | .source => NamedArg.parse ValueArg.source.names
  | .tape => NamedArg.parse ValueArg.tape.names
  | .interval => NamedUnsignedIntArg.parse ValueArg.interval.names

def FlagArg.parse (f : FlagArg) (args : List Text) (index : ℕ) : Cpp (ParseResult Bool) :=
  if args.length > index then do
    let result := f.names.named (← word args index)
    return .ok result (if result then index + 1 else index)
  else return .ok false index

/-! ## What the parsers read -/

section Words

variable {args tail : List Text} {index : ℕ} {w v : Text}

theorem word_of_drop (h : args.drop index = w :: tail) : word args index = .ok w := by
  have hget : args[index]? = some w := by
    rw [← List.head?_drop, h]
    rfl
  simp [word, hget]

theorem drop_next (h : args.drop index = w :: tail) : args.drop (index + 1) = tail := by
  rw [← List.drop_drop, h]
  rfl

theorem length_of_drop (h : args.drop index = w :: tail) :
    args.length = index + 1 + tail.length := by
  have hlength := congrArg List.length h
  simp only [List.length_drop, List.length_cons] at hlength
  omega

theorem canParse_of_value (names : Names) (h : args.drop index = w :: v :: tail) :
    NamedArg.canParse names args index = .ok (names.named w) := by
  have hlength := length_of_drop h
  rw [List.length_cons] at hlength
  have hmore : args.length > index + 1 := by omega
  rw [NamedArg.canParse, if_pos hmore, word_of_drop h]
  rfl

theorem canParse_last (names : Names) (h : args.drop index = [w]) :
    NamedArg.canParse names args index = .ok false := by
  have hlength := length_of_drop h
  have hlast : ¬ args.length > index + 1 := by
    rw [List.length_nil] at hlength
    omega
  exact if_neg hlast

theorem flag_parse_result (f : FlagArg) (h : args.drop index = w :: tail) :
    ∃ next, f.parse args index = .ok (.ok (f.names.named w) next) := by
  have hmore : args.length > index := by
    have hlength := length_of_drop h
    omega
  rw [FlagArg.parse, if_pos hmore, word_of_drop h]
  exact ⟨_, rfl⟩

theorem positional_parse (POSITION : ℕ) (args : List Text) :
    PositionalArg.parse POSITION args = .ok (.ok args[POSITION]? LAST_INDEX) := by
  by_cases hmore : args.length > POSITION
  · have hget := List.getElem?_eq_getElem hmore
    rw [PositionalArg.parse, if_pos hmore, word, hget]
    rfl
  · rw [PositionalArg.parse, if_neg hmore, List.getElem?_eq_none (Nat.not_lt.mp hmore)]
    rfl

theorem required_of_word {POSITION : ℕ} (errorString : Text) (h : args[POSITION]? = some w) :
    required POSITION errorString args = .ok (.ok w LAST_INDEX) := by
  have hmore : args.length > POSITION := (List.getElem?_eq_some_iff.mp h).1
  rw [required, if_pos hmore, word, h]
  rfl

theorem required_missing {POSITION : ℕ} (errorString : Text) (h : args[POSITION]? = none) :
    required POSITION errorString args = .ok (.error errorString) :=
  if_neg (Nat.not_lt.mpr (List.getElem?_eq_none_iff.mp h))

end Words

/-- The number that an argument takes from a word. -/
def readUnsigned (s : Text) : Option ℕ :=
  match stoull s with
  | .ok res => if res ≥ 2 ^ 64 - 1 then none else some res
  | .error _ => none

def ValueArg.read : (x : ValueArg) → Text → Option x.Value
  | .properties, v => some v
  | .fromTime, v => some v
  | .source, v => some v
  | .tape, v => some v
  | .interval, v => readUnsigned v

section Values

variable {args tail : List Text} {index : ℕ} {w v : Text} {names : Names}

theorem text_parse_of_value (h : args.drop index = w :: v :: tail)
    (hnamed : names.named w = true) :
    NamedArg.parse names args index = .ok (.ok (some v) (index + 2)) := by
  have hlength := length_of_drop h
  rw [List.length_cons] at hlength
  have hmore : ¬ args.length ≤ index + 1 := by omega
  simp only [NamedArg.parse, if_neg hmore, word_of_drop h, ok_bind, hnamed, if_true,
    word_of_drop (drop_next h)]
  rfl

theorem number_parse_of_value (h : args.drop index = w :: v :: tail)
    (hnamed : names.named w = true) :
    NamedUnsignedIntArg.parse names args index =
      .ok (.ok (readUnsigned v) (if (readUnsigned v).isSome then index + 2 else index)) := by
  have hlength := length_of_drop h
  rw [List.length_cons] at hlength
  have hmore : ¬ args.length ≤ index + 1 := by omega
  simp only [NamedUnsignedIntArg.parse, if_neg hmore, word_of_drop h, ok_bind, hnamed, if_true,
    word_of_drop (drop_next h)]
  split
  next res hres =>
    by_cases hbig : res ≥ 2 ^ 64 - 1
    · have hread : readUnsigned v = none := by simp only [readUnsigned, hres, if_pos hbig]
      rw [if_pos hbig, hread]
      rfl
    · have hread : readUnsigned v = some res := by simp only [readUnsigned, hres, if_neg hbig]
      rw [if_neg hbig, hread]
      rfl
  next e he =>
    have hread : readUnsigned v = none := by simp only [readUnsigned, he]
    rw [hread]
    rfl

/-- A value that cannot be read leaves the index where it is. -/
theorem ValueArg.parse_of_value (x : ValueArg) (h : args.drop index = w :: v :: tail)
    (hnamed : x.names.named w = true) :
    x.parse args index =
      .ok (.ok (x.read v) (if (x.read v).isSome then index + 2 else index)) := by
  cases x with
  | interval => exact number_parse_of_value h hnamed
  | properties => exact text_parse_of_value h hnamed
  | fromTime => exact text_parse_of_value h hnamed
  | source => exact text_parse_of_value h hnamed
  | tape => exact text_parse_of_value h hnamed

end Values

/-- Only numbers can be unreadable. -/
theorem ValueArg.read_isSome {x : ValueArg} (h : x ≠ .interval) (v : Text) :
    (x.read v).isSome = true := by
  cases x with
  | interval => exact absurd rfl h
  | properties => rfl
  | fromTime => rfl
  | source => rfl
  | tape => rfl

/-! ## Names -/

inductive OptionArg where
  | value (x : ValueArg)
  | flag (f : FlagArg)
  deriving DecidableEq, Repr

def OptionArg.names : OptionArg → Names
  | .value x => x.names
  | .flag f => f.names

/-- The short or the long form of a name. -/
def Names.form (names : Names) (long : Bool) : Text :=
  if long then '-' :: '-' :: names.LONG_NAME else '-' :: names.SHORT_NAME

/-- An option has its long form, and the short one if there is a short name. -/
def Names.HasForm (names : Names) (long : Bool) : Prop := long = false → names.SHORT_NAME ≠ []

theorem OptionArg.long_ne (o : OptionArg) : o.names.LONG_NAME ≠ [] := by
  cases o with
  | value x => cases x <;> decide
  | flag f => cases f <;> decide

theorem OptionArg.named_iff (o : OptionArg) (w : Text) :
    o.names.named w = true ↔ ∃ long, o.names.HasForm long ∧ w = o.names.form long := by
  have hlong := o.long_ne
  simp [Names.named, Names.HasForm, Names.form, hlong]

/-- The option that a word names. -/
def optionOf (w : Text) : Option OptionArg :=
  [.value .properties, .value .fromTime, .value .source, .value .tape, .value .interval,
    .flag .quite, .flag .forceStream, .flag .cpuUsageByCore, .flag .detachListener,
    .flag .help].find? fun o => o.names.named w

theorem optionOf_form (o : OptionArg) {long : Bool} (h : o.names.HasForm long) :
    optionOf (o.names.form long) = some o := by
  cases long with
  | true =>
    cases o with
    | value x => cases x <;> decide
    | flag f => cases f <;> decide
  | false =>
    have hshort := h rfl
    cases o with
    | value x => cases x <;> first | decide | exact absurd rfl hshort
    | flag f => cases f <;> first | decide | exact absurd rfl hshort

theorem named_unique {o o' : OptionArg} {w : Text} (h : o.names.named w = true)
    (h' : o'.names.named w = true) : o = o' := by
  obtain ⟨long, hform, rfl⟩ := (o.named_iff w).mp h
  obtain ⟨long', hform', heq⟩ := (o'.named_iff _).mp h'
  have howner := optionOf_form o hform
  rw [heq, optionOf_form o' hform'] at howner
  exact (Option.some.inj howner).symm

theorem head_of_named {o : OptionArg} {w : Text} (h : o.names.named w = true) :
    w.head? = some '-' := by
  obtain ⟨long, _, rfl⟩ := (o.named_iff w).mp h
  cases long <;> rfl

/-! ## Decimal numbers -/

theorem stoull_digits {s : Text} (hne : s ≠ []) (hdigits : ∀ c ∈ s, isDigit 10 c = true)
    (hlt : ofDigits 10 s < 2 ^ 64) : stoull s = .ok (ofDigits 10 s) := by
  have htake : (s ++ []).takeWhile (isDigit 10) = s := (takeWhile_digits hdigits (by simp)).1
  rw [List.append_nil] at htake
  obtain ⟨c, cs, rfl⟩ := List.exists_cons_of_ne_nil hne
  have hc := hdigits c List.mem_cons_self
  have hspace : isSpace c = false := forall_digit (P := fun c => isSpace c = false) (by decide) hc
  have hminus : (c == '-') = false := forall_digit (P := fun c => (c == '-') = false) (by decide) hc
  have hplus : (c == '+') = false := forall_digit (P := fun c => (c == '+') = false) (by decide) hc
  have hfits : ¬ 2 ^ 64 ≤ ofDigits 10 (c :: cs) := Nat.not_le.mpr hlt
  simp only [stoull, List.dropWhile_cons, hspace, List.head?_cons, Option.some_beq_some, hminus,
    hplus, Bool.or_false, if_false, Bool.false_eq_true, htake, reduceCtorEq, if_neg hfits]

theorem readUnsigned_digits {s : Text} (hne : s ≠ []) (hdigits : ∀ c ∈ s, isDigit 10 c = true)
    (hlt : ofDigits 10 s < 2 ^ 64 - 1) : readUnsigned s = some (ofDigits 10 s) := by
  have hsmall : ofDigits 10 s < 2 ^ 64 := by omega
  rw [readUnsigned, stoull_digits hne hdigits hsmall]
  exact if_neg (Nat.not_le.mpr hlt)

end ToolArguments
