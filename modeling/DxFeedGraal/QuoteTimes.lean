import DxFeedGraal.EventClasses
import DxFeedGraal.TimeSequenceEvents
import Mathlib.Data.Bool.AllAny

/-! # The time of a quote

A quote keeps two times whole and, in one signed word of 32 bits, the milliseconds of the later
one above a sequence of 22 bits. The milliseconds reach the sign bit. -/
namespace QuoteTimes

open FixedWidthIntegers BitOperations TimeUtil TimeSequenceEvents EventClasses

/-- `std::max`. -/
def laterOf (a b : Int64) : Int64 := if a < b then b else a

def getBidTime (q : Quote) : Int64 := q.data.bidTime
def getAskTime (q : Quote) : Int64 := q.data.askTime

def getSequence (q : Quote) : Int32 := andOp q.data.timeMillisSequence MAX_SEQUENCE

def recomputeTimeMillisPart (q : Quote) : Quote :=
  { q with data := { q.data with
      timeMillisSequence := orOp
        (sal (getMillisFromTime (laterOf q.data.askTime q.data.bidTime)) MILLISECONDS_SHIFT)
        (getSequence q) } }

def setBidTime (q : Quote) (bidTime : Int64) : Quote :=
  recomputeTimeMillisPart { q with data := { q.data with bidTime := bidTime } }

def setAskTime (q : Quote) (askTime : Int64) : Quote :=
  recomputeTimeMillisPart { q with data := { q.data with askTime := askTime } }

/-- The assertion in front of the guard checks the same and is off in a release build. -/
def setSequence (q : Quote) (sequence : Int32) : Outcome Quote Unit :=
  if SequenceRejected sequence then ⟨.error (invalidSequenceValue sequence), q⟩
  else ⟨.ok (), { q with data := { q.data with
    timeMillisSequence := orOp (andOp q.data.timeMillisSequence (~~~MAX_SEQUENCE)) sequence } }⟩

def getTime (q : Quote) : Int64 :=
  floorDiv (laterOf q.data.bidTime q.data.askTime) 1000 * 1000 +
    staticCast (shr q.data.timeMillisSequence MILLISECONDS_SHIFT)

inductive Operation where
  | setBidTime (time : Int64)
  | setAskTime (time : Int64)
  | setSequence (sequence : Int32)
  deriving DecidableEq, Repr

/-- A call, which may throw, and the quote behind it. -/
def step (q : Quote) : Operation → Quote
  | .setBidTime time => setBidTime q time
  | .setAskTime time => setAskTime q time
  | .setSequence sequence => (setSequence q sequence).object

def run (q : Quote) (ops : List Operation) : Quote := ops.foldl step q

namespace Operation

def bidTime : Operation → Option Int64
  | setBidTime time => some time
  | _ => none

def askTime : Operation → Option Int64
  | setAskTime time => some time
  | _ => none

/-- The sequence that a call sets: none where it throws. -/
def sequence : Operation → Option Int32
  | setSequence s => if 0 ≤ s.toInt ∧ s.toInt ≤ MAX_SEQUENCE.toNat then some s else none
  | _ => none

/-- A time within the range of 32-bit seconds. -/
def TimeFits (op : Operation) : Prop :=
  ∀ time, op.bidTime = some time ∨ op.askTime = some time → SecondsFit time

end Operation

/-- What the calls set last, or zero. -/
def lastOf {α : Type*} [Zero α] (field : Operation → Option α) (ops : List Operation) : α :=
  (ops.filterMap field).getLast?.getD 0

/-- The word holds the milliseconds of the later time, and both times fit. -/
structure Consistent (q : Quote) : Prop where
  millis : q.data.timeMillisSequence.toInt % 2 ^ 32 / 2 ^ 22 =
    max q.data.bidTime.toInt q.data.askTime.toInt % 1000
  bid_fits : SecondsFit q.data.bidTime
  ask_fits : SecondsFit q.data.askTime

/-! ## The word of 32 bits -/

theorem toInt_laterOf (a b : Int64) : (laterOf a b).toInt = max a.toInt b.toInt := by
  unfold laterOf
  split
  next h =>
    rw [Int64.lt_iff_toInt_lt] at h
    omega
  next h =>
    rw [Int64.lt_iff_toInt_lt] at h
    omega

theorem toInt_getSequence (q : Quote) :
    (getSequence q).toInt = q.data.timeMillisSequence.toInt % 2 ^ 22 :=
  value_andOp_low (a := q.data.timeMillisSequence) (k := 22) rfl (by decide) (by decide)
    (by decide)

/-- The logical shift reads the sign bit as one of the milliseconds. -/
theorem toInt_shr_millis (w : Int32) :
    (shr w MILLISECONDS_SHIFT).toInt = w.toInt % 2 ^ 32 / 2 ^ 22 := by
  have hb := int32_bounds w
  have hword : ((Integral.toBits w).toNat : ℤ) = w.toInt % 2 ^ 32 := by
    rw [← pattern_eq 32 w.toInt, pattern, ← Int32.toInt_toBitVec, BitVec.ofInt_toInt]
    rfl
  by_cases hzero : w.toInt = 0
  · have : w = 0 := Int32.toInt_inj.mp hzero
    rw [this]
    rfl
  · have hshift : shr w MILLISECONDS_SHIFT =
        wrap (((Integral.toBits w).toNat : ℤ) / 2 ^ 22) := by
      change logicalRightShift w 22 = _
      rw [logicalRightShift, if_neg (by simp [hzero]), if_neg (by decide)]
    rw [hshift, hword, toInt_wrap_int32 (by omega) (by omega)]

/-- Milliseconds of 512 and more make the word negative. -/
theorem toInt_millisWord {millis sequence : Int32} (h : 0 ≤ millis.toInt)
    (k : millis.toInt < 2 ^ 10) (hs : 0 ≤ sequence.toInt) (ks : sequence.toInt < 2 ^ 22) :
    (orOp (sal millis MILLISECONDS_SHIFT) sequence).toInt % 2 ^ 32 =
      millis.toInt * 2 ^ 22 + sequence.toInt := by
  have hsal : value (sal millis MILLISECONDS_SHIFT) =
      (millis.toInt * 2 ^ 22).bmod (2 ^ 32) := by
    change value (leftShift millis 22) = _
    rw [leftShift_eq, value_wrap_signed rfl]
    rfl
  have hcongr : (millis.toInt * 2 ^ 22).bmod (2 ^ 32) % 2 ^ 32 = millis.toInt * 2 ^ 22 := by
    rw [Int.bmod_def]
    push_cast
    split <;> omega
  have hor := value_orOp_disjoint (a := sal millis MILLISECONDS_SHIFT) (m := sequence) (k := 22)
    rfl (by decide) (by rw [hsal]; omega) hs ks (by decide)
  rw [hsal] at hor
  change (orOp (sal millis MILLISECONDS_SHIFT) sequence).toInt = _ at hor
  rw [hor, value_int32]
  omega

/-- The mask is as wide as the word, so all milliseconds stay. -/
theorem toInt_sequenceWord (w : Int32) {sequence : Int32} (hs : 0 ≤ sequence.toInt)
    (ks : sequence.toInt < 2 ^ 22) :
    (orOp (andOp w (~~~MAX_SEQUENCE)) sequence).toInt =
      w.toInt / 2 ^ 22 * 2 ^ 22 + sequence.toInt := by
  have hb := int32_bounds w
  have hmask : pattern 32 (value (~~~MAX_SEQUENCE)) = (2 ^ 10 - 1) * 2 ^ 22 := by decide
  have hand : value (andOp w (~~~MAX_SEQUENCE)) = w.toInt / 2 ^ 22 * 2 ^ 22 := by
    have hpat : ((pattern 32 w.toInt / 2 ^ 22 % 2 ^ 10 * 2 ^ 22 : ℕ) : ℤ) =
        w.toInt % 2 ^ 32 / 2 ^ 22 * 2 ^ 22 := by
      push_cast
      rw [pattern_eq]
      omega
    rw [andOp_eq, commonBits_of_le (by decide)]
    change value (wrap ((pattern 32 w.toInt &&& pattern 32 (value (~~~MAX_SEQUENCE)) : ℕ) : ℤ) :
      Int32) = _
    rw [hmask, and_shifted, and_low_mask, hpat, value_wrap_signed rfl]
    change (w.toInt % 2 ^ 32 / 2 ^ 22 * 2 ^ 22).bmod (2 ^ 32) = _
    rw [Int.bmod_def]
    push_cast
    split <;> omega
  have hor := value_orOp_disjoint (a := andOp w (~~~MAX_SEQUENCE)) (m := sequence) (k := 22)
    rfl (by decide) (by rw [hand]; omega) hs ks (by decide)
  rw [hand] at hor
  exact hor

/-! ## Calls -/

theorem sequence_bounds (q : Quote) :
    0 ≤ (getSequence q).toInt ∧ (getSequence q).toInt < 2 ^ 22 := by
  rw [toInt_getSequence]
  omega

/-- What the recomputation leaves, whatever the word was. -/
theorem recompute_spec (q : Quote) :
    (recomputeTimeMillisPart q).data.timeMillisSequence.toInt % 2 ^ 32 =
      max q.data.bidTime.toInt q.data.askTime.toInt % 1000 * 2 ^ 22 + (getSequence q).toInt := by
  have hmillis : (getMillisFromTime (laterOf q.data.askTime q.data.bidTime)).toInt =
      max q.data.bidTime.toInt q.data.askTime.toInt % 1000 := by
    rw [toInt_getMillisFromTime, toInt_laterOf, max_comm]
  obtain ⟨hlow, hhigh⟩ := sequence_bounds q
  rw [← hmillis]
  apply toInt_millisWord <;> omega

theorem getSequence_recompute (q : Quote) :
    getSequence (recomputeTimeMillisPart q) = getSequence q := by
  have hword := recompute_spec q
  obtain ⟨hlow, hhigh⟩ := sequence_bounds q
  rw [← Int32.toInt_inj, toInt_getSequence]
  omega

theorem recompute_consistent {q : Quote} (hb : SecondsFit q.data.bidTime)
    (ha : SecondsFit q.data.askTime) : Consistent (recomputeTimeMillisPart q) := by
  have hword := recompute_spec q
  obtain ⟨hlow, hhigh⟩ := sequence_bounds q
  refine ⟨?_, hb, ha⟩
  change _ = max q.data.bidTime.toInt q.data.askTime.toInt % 1000
  omega

theorem accepted_iff {sequence : Int32} :
    ¬ SequenceRejected sequence ↔
      0 ≤ sequence.toInt ∧ sequence.toInt ≤ MAX_SEQUENCE.toNat := by
  rw [sequence_accepted_iff]
  have hmax : (MAX_SEQUENCE.toNat : ℤ) = 2 ^ 22 - 1 := by decide
  omega

theorem setSequence_rejected {sequence : Int32}
    (h : ¬ (0 ≤ sequence.toInt ∧ sequence.toInt ≤ MAX_SEQUENCE.toNat)) (q : Quote) :
    setSequence q sequence = ⟨.error (invalidSequenceValue sequence), q⟩ :=
  if_pos (not_not.mp (mt accepted_iff.mp h))

theorem setSequence_accepted {sequence : Int32}
    (h : 0 ≤ sequence.toInt ∧ sequence.toInt ≤ MAX_SEQUENCE.toNat) (q : Quote) :
    getSequence (setSequence q sequence).object = sequence ∧
      (setSequence q sequence).object.data.timeMillisSequence.toInt / 2 ^ 22 =
        q.data.timeMillisSequence.toInt / 2 ^ 22 := by
  obtain ⟨hlow, hhigh⟩ := (sequence_accepted_iff sequence).mp (accepted_iff.mpr h)
  have hword : (setSequence q sequence).object.data.timeMillisSequence.toInt =
      q.data.timeMillisSequence.toInt / 2 ^ 22 * 2 ^ 22 + sequence.toInt := by
    rw [setSequence, if_neg (accepted_iff.mpr h)]
    exact toInt_sequenceWord q.data.timeMillisSequence hlow hhigh
  constructor
  · rw [← Int32.toInt_inj, toInt_getSequence, hword]
    omega
  · rw [hword]
    omega

theorem setSequence_times (q : Quote) (sequence : Int32) :
    (setSequence q sequence).object.data.bidTime = q.data.bidTime ∧
      (setSequence q sequence).object.data.askTime = q.data.askTime := by
  unfold setSequence
  split <;> exact ⟨rfl, rfl⟩

theorem step_consistent {q : Quote} {op : Operation} (h : Consistent q) (hop : op.TimeFits) :
    Consistent (step q op) := by
  cases op with
  | setBidTime time => exact recompute_consistent (hop time (Or.inl rfl)) h.ask_fits
  | setAskTime time => exact recompute_consistent h.bid_fits (hop time (Or.inr rfl))
  | setSequence sequence =>
    obtain ⟨hbid, hask⟩ := setSequence_times q sequence
    refine ⟨?_, hbid ▸ h.bid_fits, hask ▸ h.ask_fits⟩
    rw [step, hbid, hask, ← h.millis]
    by_cases hs : 0 ≤ sequence.toInt ∧ sequence.toInt ≤ MAX_SEQUENCE.toNat
    · have hword := (setSequence_accepted hs q).2
      have hb := int32_bounds q.data.timeMillisSequence
      have hb' := int32_bounds (setSequence q sequence).object.data.timeMillisSequence
      omega
    · rw [setSequence_rejected hs]

theorem step_bidTime (q : Quote) (op : Operation) :
    getBidTime (step q op) = op.bidTime.getD (getBidTime q) := by
  cases op with
  | setBidTime time => rfl
  | setAskTime time => rfl
  | setSequence sequence => exact (setSequence_times q sequence).1

theorem step_askTime (q : Quote) (op : Operation) :
    getAskTime (step q op) = op.askTime.getD (getAskTime q) := by
  cases op with
  | setBidTime time => rfl
  | setAskTime time => rfl
  | setSequence sequence => exact (setSequence_times q sequence).2

theorem step_sequence (q : Quote) (op : Operation) :
    getSequence (step q op) = op.sequence.getD (getSequence q) := by
  cases op with
  | setBidTime time => exact getSequence_recompute _
  | setAskTime time => exact getSequence_recompute _
  | setSequence sequence =>
    by_cases hs : 0 ≤ sequence.toInt ∧ sequence.toInt ≤ MAX_SEQUENCE.toNat
    · rw [step, (setSequence_accepted hs q).1, Operation.sequence, if_pos hs]
      rfl
    · rw [step, setSequence_rejected hs, Operation.sequence, if_neg hs]
      rfl

/-! ## Runs -/

theorem run_consistent {q : Quote} {ops : List Operation} (h : Consistent q)
    (hops : ∀ op ∈ ops, op.TimeFits) : Consistent (run q ops) := by
  induction ops generalizing q with
  | nil => exact h
  | cons op ops ih =>
    exact ih (step_consistent h (hops op List.mem_cons_self))
      fun o ho => hops o (List.mem_cons_of_mem op ho)

/-- A getter that every call either sets or leaves reads what was set last. -/
theorem run_reads_last {α : Type*} {get : Quote → α} {field : Operation → Option α}
    (hstep : ∀ q op, get (step q op) = (field op).getD (get q)) (q : Quote)
    (ops : List Operation) :
    get (run q ops) = ((ops.filterMap field).getLast?).getD (get q) := by
  induction ops using List.reverseRecOn with
  | nil => rfl
  | append_singleton ops op ih =>
    rw [run, List.foldl_append, List.filterMap_append]
    change get (step (run q ops) op) = _
    rw [hstep, ih]
    cases hop : field op with
    | none => simp [hop]
    | some a => simp [hop]

/-- The parts put together again, without overflow. -/
theorem getTime_of_consistent {q : Quote} (h : Consistent q) :
    (getTime q).toInt = max q.data.bidTime.toInt q.data.askTime.toInt := by
  obtain ⟨hbid₁, hbid₂⟩ := h.bid_fits
  obtain ⟨hask₁, hask₂⟩ := h.ask_fits
  have hmillis : (staticCast (shr q.data.timeMillisSequence MILLISECONDS_SHIFT) : Int64).toInt =
      max q.data.bidTime.toInt q.data.askTime.toInt % 1000 := by
    rw [staticCast, value_int32, toInt_shr_millis, h.millis, toInt_wrap_int64] <;> omega
  have hseconds : (floorDiv (laterOf q.data.bidTime q.data.askTime) 1000).toInt =
      max q.data.bidTime.toInt q.data.askTime.toInt / 1000 := by
    rw [toInt_floorDiv _ (by decide), toInt_laterOf]
    rfl
  have hwhole : (floorDiv (laterOf q.data.bidTime q.data.askTime) 1000 * 1000).toInt =
      max q.data.bidTime.toInt q.data.askTime.toInt / 1000 * 1000 := by
    rw [Int64.toInt_mul, hseconds]
    change (max q.data.bidTime.toInt q.data.askTime.toInt / 1000 * 1000).bmod (2 ^ 64) = _
    rw [bmod_int64] <;> omega
  rw [getTime, Int64.toInt_add, hwhole, hmillis, bmod_int64] <;> omega

theorem consistent_new (symbol : Option CppStrings.Text) :
    Consistent { eventSymbol := symbol } := by
  have hzero : SecondsFit 0 := by decide
  have hmillis : (0 : Int32).toInt % 2 ^ 32 / 2 ^ 22 =
      max (0 : Int64).toInt (0 : Int64).toInt % 1000 := by decide
  exact ⟨hmillis, hzero, hzero⟩

/-- After any calls on a new quote the time is the later of the two times that were set last,
the sequence is the last one accepted, and a rejected one changes nothing. -/
theorem quote_time_invariant (symbol : Option CppStrings.Text) (ops : List Operation)
    (hops : ∀ op ∈ ops, op.TimeFits) :
    let q := run { eventSymbol := symbol } ops
    (getTime q).toInt = max (getBidTime q).toInt (getAskTime q).toInt ∧
      getBidTime q = lastOf Operation.bidTime ops ∧
      getAskTime q = lastOf Operation.askTime ops ∧
      getSequence q = lastOf Operation.sequence ops ∧
      ∀ sequence : Int32, ¬ (0 ≤ sequence.toInt ∧ sequence.toInt ≤ MAX_SEQUENCE.toNat) →
        setSequence q sequence = ⟨.error (invalidSequenceValue sequence), q⟩ := by
  intro q
  refine ⟨getTime_of_consistent (run_consistent (consistent_new symbol) hops), ?_, ?_, ?_, ?_⟩
  · exact run_reads_last step_bidTime _ ops
  · exact run_reads_last step_askTime _ ops
  · have hnew : getSequence { eventSymbol := symbol } = 0 := andOp_zero_left rfl
    rw [run_reads_last step_sequence, hnew]
    rfl
  · exact fun sequence hs => setSequence_rejected hs q

/-- Both times before the epoch, and the milliseconds of the later one in the sign bit. -/
def callsBeforeEpoch : List Operation :=
  [.setSequence 7, .setBidTime (-1), .setAskTime (-400)]

theorem quote_time_before_epoch :
    let q := run { eventSymbol := none } callsBeforeEpoch
    (getTime q).toInt = max (getBidTime q).toInt (getAskTime q).toInt ∧
      getBidTime q = lastOf Operation.bidTime callsBeforeEpoch ∧
      getAskTime q = lastOf Operation.askTime callsBeforeEpoch ∧
      getSequence q = lastOf Operation.sequence callsBeforeEpoch ∧
      ∀ sequence : Int32, ¬ (0 ≤ sequence.toInt ∧ sequence.toInt ≤ MAX_SEQUENCE.toNat) →
        setSequence q sequence = ⟨.error (invalidSequenceValue sequence), q⟩ := by
  refine quote_time_invariant none callsBeforeEpoch fun op hop time htime => ?_
  have hfit : ∀ t ∈ [(-1 : Int64), -400], SecondsFit t := List.all_iff_forall_prop.mp (by decide)
  apply hfit
  simp only [callsBeforeEpoch, List.mem_cons, List.not_mem_nil, or_false] at hop ⊢
  rcases hop with rfl | rfl | rfl
  · rcases htime with h | h <;> cases h
  · rcases htime with h | h <;> cases h
    exact Or.inl rfl
  · rcases htime with h | h <;> cases h
    exact Or.inr rfl

end QuoteTimes
