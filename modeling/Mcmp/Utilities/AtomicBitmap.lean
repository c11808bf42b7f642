import Mcmp.Foundation.ByteBits
import Mcmp.Foundation.Interleaving
import Mcmp.Status

/-!
# Claiming and releasing bits of a shared bitmap

`mcmpAtomicBitmapTryEnableBit` and `mcmpAtomicBitmapTryDisableBit` of atomicbitmap.c, called by any
number of threads on one bitmap. Each call is a load of the byte that holds the bit, a test of it,
and a compare-exchange of the whole byte; eight bits share a byte, so a call can fail because of a
change to a bit that is not its own. A step of the system is one atomic access together with the
computation of the thread up to the next one. The events of a run record the bytes that the accesses
saw and what the calls return.

The bit of an index is at any moment what the last successful call on that index left
(`bit_eq_lastLeft`), because a call changes no other bit and changes nothing unless it succeeds
(`step_frame`). A claim succeeds only on a clear bit, which makes the claims of one bit exclusive
(`mcmpAtomicBitmapTryEnableBit_exclusive`).

A release is meant to be the mirror image of a claim, but its test for a bit that is clear already,
`(byteval | (1 << bitidx)) == 0`, is never true (`releaseTest_false`), so a release of a clear bit
is told that it succeeded. Releases are exclusive exactly in the runs in which every release loads a
byte with its bit set (`mcmpAtomicBitmapTryDisableBit_exclusive_iff`).
-/

set_option autoImplicit false
set_option relaxedAutoImplicit false

namespace Mcmp.Utilities.AtomicBitmap

open Foundation.ByteBits Foundation.Interleaving

/-! ### The calls, one atomic access at a time -/

/-- A call: a claim or a release of the bit of an index. -/
inductive BitOp
  | tryEnableBit (idx : ℕ)
  | tryDisableBit (idx : ℕ)
  deriving DecidableEq, Repr

/-- The index that a call is about. -/
def BitOp.idx : BitOp → ℕ
  | tryEnableBit idx => idx
  | tryDisableBit idx => idx

/-- Where a call is: before its load, or before its compare-exchange, with the byte it loaded. -/
inductive Stage
  | load
  | compareExchange (byteval : BitVec 8)
  deriving DecidableEq, Repr

/-- A thread outside any call, or inside one. -/
inductive BitThread
  | idle
  | running (op : BitOp) (stage : Stage)
  deriving DecidableEq, Repr

/-- The events: a call starts; its load reads a byte, after which it may return at once; its
compare-exchange finds a byte in the bitmap and leaves one there, and the call returns. -/
inductive BitEvent
  | called (op : BitOp)
  | loaded (op : BitOp) (byteval : BitVec 8) (returned : Option Mcmpst)
  | exchanged (op : BitOp) (before after : BitVec 8) (returned : Mcmpst)
  deriving DecidableEq, Repr

/-- The index that an event is about. -/
def BitEvent.idx : BitEvent → ℕ
  | called op => op.idx
  | loaded op _ _ => op.idx
  | exchanged op _ _ _ => op.idx

/-- The event says that a call of this kind returned success. -/
def BitEvent.succeeds (op : BitOp) : BitEvent → Bool
  | exchanged other _ _ returned => other = op ∧ returned = .success
  | _ => false

/-- The next step of a call that returns `MCMPST_ALROP` when its test of the loaded byte holds and
otherwise exchanges the byte for its next value. The compare-exchange is a strong one: when the byte
is the loaded one it is replaced and the call returns success, otherwise nothing changes and the
call returns `MCMPST_INVOP`. -/
def tryBit (op : BitOp) (test : BitVec 8 → Bool) (nextval : BitVec 8 → BitVec 8)
    (bitmap : ByteMemory) : Stage → BitEvent × ByteMemory × BitThread
  | .load =>
    let byteval := bitmap (op.idx / 8)
    if test byteval then (.loaded op byteval (some .alrop), bitmap, .idle)
    else (.loaded op byteval none, bitmap, .running op (.compareExchange byteval))
  | .compareExchange byteval =>
    let current := bitmap (op.idx / 8)
    if current = byteval then
      (.exchanged op current (nextval byteval) .success,
        Function.update bitmap (op.idx / 8) (nextval byteval), .idle)
    else (.exchanged op current current .invop, bitmap, .idle)

/-- The next step of a claim. -/
def mcmpAtomicBitmapTryEnableBit (idx : ℕ) :
    ByteMemory → Stage → BitEvent × ByteMemory × BitThread :=
  tryBit (.tryEnableBit idx) (fun byteval ↦ byteval &&& bitMask (idx % 8) ≠ 0)
    fun byteval ↦ byteval ||| bitMask (idx % 8)

/-- The test of a release for a bit that is clear already. The byte is promoted to `int`. -/
def releaseTest (byteval : BitVec 8) (bitidx : ℕ) : Bool :=
  byteval.setWidth 32 ||| 1#32 <<< bitidx = 0

/-- The next step of a release. -/
def mcmpAtomicBitmapTryDisableBit (idx : ℕ) :
    ByteMemory → Stage → BitEvent × ByteMemory × BitThread :=
  tryBit (.tryDisableBit idx) (fun byteval ↦ releaseTest byteval (idx % 8))
    fun byteval ↦ byteval &&& (~~~(1#32 <<< (idx % 8))).setWidth 8

/-- The next step of a call. -/
def callStep (bitmap : ByteMemory) : BitOp → Stage → BitEvent × ByteMemory × BitThread
  | .tryEnableBit idx, stage => mcmpAtomicBitmapTryEnableBit idx bitmap stage
  | .tryDisableBit idx, stage => mcmpAtomicBitmapTryDisableBit idx bitmap stage

/-- What a thread can be told to do: start a call when it is idle, or go on with the one it is
in. -/
inductive BitCommand
  | call (op : BitOp)
  | advance
  deriving DecidableEq, Repr

/-- The callers of the two functions. -/
def bitMachine : Machine BitCommand ByteMemory BitThread BitEvent
  | .call op, bitmap, .idle => some (.called op, bitmap, .running op .load)
  | .advance, bitmap, .running op stage => some (callStep bitmap op stage)
  | _, _, _ => none

/-- The system before any call. -/
def initially (ι : Type*) (bitmap : ByteMemory) : Config ι ByteMemory BitThread :=
  ⟨bitmap, fun _ ↦ .idle⟩

/-- The runs of any number of callers from a bitmap. -/
abbrev BitRun {ι : Type*} [DecidableEq ι] (bitmap : ByteMemory) :=
  Run bitMachine.program anyStep (initially ι bitmap)

/-- The readers of atomicbitmap.c: one load of the byte of an index and a test of its bit. -/
def mcmpAtomicBitmapIsEnabledBit (bitmap : ByteMemory) (idx : ℕ) : Bool :=
  bitmap (idx / 8) &&& bitMask (idx % 8) ≠ 0

def mcmpAtomicBitmapIsDisabledBit (bitmap : ByteMemory) (idx : ℕ) : Bool :=
  bitmap (idx / 8) &&& bitMask (idx % 8) = 0

/-! ### What one step does -/

/-- The test of a claim, and of the readers, reads the bit of the index. -/
theorem and_bitMask_ne_zero_iff (bitmap : ByteMemory) (idx : ℕ) :
    bitmap (idx / 8) &&& bitMask (idx % 8) ≠ 0 ↔ bit bitmap idx = true :=
  and_bitMask_ne_zero (Nat.mod_lt _ (by omega)) _

@[simp] theorem mcmpAtomicBitmapIsEnabledBit_eq (bitmap : ByteMemory) (idx : ℕ) :
    mcmpAtomicBitmapIsEnabledBit bitmap idx = bit bitmap idx := by
  rw [Bool.eq_iff_iff, ← and_bitMask_ne_zero_iff]
  simp [mcmpAtomicBitmapIsEnabledBit]

@[simp] theorem mcmpAtomicBitmapIsDisabledBit_eq (bitmap : ByteMemory) (idx : ℕ) :
    mcmpAtomicBitmapIsDisabledBit bitmap idx = !bit bitmap idx := by
  rw [← mcmpAtomicBitmapIsEnabledBit_eq]
  simp [mcmpAtomicBitmapIsEnabledBit, mcmpAtomicBitmapIsDisabledBit]

/-- The test of a release never fires: the promoted byte is combined with a bit that is set. -/
theorem releaseTest_false {bitidx : ℕ} (hbitidx : bitidx < 8) (byteval : BitVec 8) :
    releaseTest byteval bitidx = false := by
  simp only [releaseTest, decide_eq_false_iff_not]
  intro hzero
  have hbit := congrArg (fun x ↦ BitVec.getLsbD x bitidx) hzero
  have hwide : bitidx < 32 := by omega
  simp [hwide] at hbit

/-- The mask of a release is the complement of the mask of a claim. -/
theorem setWidth_not_shiftLeft (k : ℕ) : (~~~(1#32 <<< k)).setWidth 8 = ~~~bitMask k := by
  apply BitVec.eq_of_getLsbD_eq
  intro i hi
  have hwide : i < 32 := by omega
  rw [bitMask, BitVec.getLsbD_setWidth, BitVec.getLsbD_not, BitVec.getLsbD_not,
    BitVec.getLsbD_setWidth]
  simp only [hi, hwide, decide_true, Bool.true_and]

/-- The value that a successful call leaves in its bit. -/
def BitOp.value : BitOp → Bool
  | tryEnableBit _ => true
  | tryDisableBit _ => false

/-- The byte that a successful call stores in the bitmap has the value of the call in its bit and
the other bits of the bitmap are as they were. -/
theorem bit_update_nextval (bitmap : ByteMemory) (idx j : ℕ) :
    bit (Function.update bitmap (idx / 8) (bitmap (idx / 8) ||| bitMask (idx % 8))) j =
        (if j = idx then true else bit bitmap j) ∧
      bit (Function.update bitmap (idx / 8)
          (bitmap (idx / 8) &&& (~~~(1#32 <<< (idx % 8))).setWidth 8)) j =
        (if j = idx then false else bit bitmap j) := by
  rw [setWidth_not_shiftLeft, bit_update_or, bit_update_and_not]
  by_cases h : j = idx
  · simp [h]
  · simp [h]

/-- What one step of a call can do, whatever its test and its next value are. -/
theorem tryBit_cases {op : BitOp} {test : BitVec 8 → Bool} {nextval : BitVec 8 → BitVec 8}
    {bitmap bitmap' : ByteMemory} {stage : Stage} {event : BitEvent} {thread' : BitThread}
    (hstep : tryBit op test nextval bitmap stage = (event, bitmap', thread')) :
    (stage = .load ∧ test (bitmap (op.idx / 8)) = true ∧
      event = .loaded op (bitmap (op.idx / 8)) (some .alrop) ∧ bitmap' = bitmap ∧
      thread' = .idle) ∨
    (stage = .load ∧ test (bitmap (op.idx / 8)) = false ∧
      event = .loaded op (bitmap (op.idx / 8)) none ∧ bitmap' = bitmap ∧
      thread' = .running op (.compareExchange (bitmap (op.idx / 8)))) ∨
    (∃ byteval, stage = .compareExchange byteval ∧
      event = .exchanged op (bitmap (op.idx / 8)) (bitmap (op.idx / 8)) .invop ∧
      bitmap' = bitmap ∧ thread' = .idle) ∨
    (stage = .compareExchange (bitmap (op.idx / 8)) ∧
      event = .exchanged op (bitmap (op.idx / 8)) (nextval (bitmap (op.idx / 8))) .success ∧
      bitmap' = Function.update bitmap (op.idx / 8) (nextval (bitmap (op.idx / 8))) ∧
      thread' = .idle) := by
  cases stage with
  | load =>
    cases htest : test (bitmap (op.idx / 8)) with
    | true =>
      simp only [tryBit, htest, if_true, Prod.mk.injEq] at hstep
      obtain ⟨rfl, rfl, rfl⟩ := hstep
      exact Or.inl ⟨rfl, rfl, rfl, rfl, rfl⟩
    | false =>
      simp only [tryBit, htest, Bool.false_eq_true, if_false, Prod.mk.injEq] at hstep
      obtain ⟨rfl, rfl, rfl⟩ := hstep
      exact Or.inr (Or.inl ⟨rfl, rfl, rfl, rfl, rfl⟩)
  | compareExchange byteval =>
    by_cases hsame : bitmap (op.idx / 8) = byteval
    · simp only [tryBit, hsame, if_true, Prod.mk.injEq] at hstep
      obtain ⟨rfl, rfl, rfl⟩ := hstep
      subst hsame
      exact Or.inr (Or.inr (Or.inr ⟨rfl, rfl, rfl, rfl⟩))
    · simp only [tryBit, hsame, if_false, Prod.mk.injEq] at hstep
      obtain ⟨rfl, rfl, rfl⟩ := hstep
      exact Or.inr (Or.inr (Or.inl ⟨byteval, rfl, rfl, rfl, rfl⟩))

/-- What one step of the system can do. A call starts. A load returns at once, which only a claim of
a set bit does, or keeps the byte. A compare-exchange changes nothing, or it finds the loaded byte
and leaves the value of the call in its bit and every other bit as it was. -/
theorem step_cases {bitmap bitmap' : ByteMemory} {thread thread' : BitThread} {event : BitEvent}
    (hstep : bitMachine.program bitmap thread event bitmap' thread') :
    (∃ op, thread = .idle ∧ event = .called op ∧ bitmap' = bitmap ∧
      thread' = .running op .load) ∨
    (∃ idx, thread = .running (.tryEnableBit idx) .load ∧ bit bitmap idx = true ∧
      event = .loaded (.tryEnableBit idx) (bitmap (idx / 8)) (some .alrop) ∧ bitmap' = bitmap ∧
      thread' = .idle) ∨
    (∃ op, thread = .running op .load ∧ (op = .tryEnableBit op.idx → bit bitmap op.idx = false) ∧
      event = .loaded op (bitmap (op.idx / 8)) none ∧ bitmap' = bitmap ∧
      thread' = .running op (.compareExchange (bitmap (op.idx / 8)))) ∨
    (∃ op byteval, thread = .running op (.compareExchange byteval) ∧
      event = .exchanged op (bitmap (op.idx / 8)) (bitmap (op.idx / 8)) .invop ∧
      bitmap' = bitmap ∧ thread' = .idle) ∨
    ∃ op, thread = .running op (.compareExchange (bitmap (op.idx / 8))) ∧
      event = .exchanged op (bitmap (op.idx / 8)) (bitmap' (op.idx / 8)) .success ∧
      (∀ j, bit bitmap' j = if j = op.idx then op.value else bit bitmap j) ∧ thread' = .idle := by
  obtain ⟨command, hcommand⟩ := hstep
  cases command with
  | call op =>
    cases thread with
    | running _ _ => simp [bitMachine] at hcommand
    | idle =>
      simp only [bitMachine, Option.some.injEq, Prod.mk.injEq] at hcommand
      obtain ⟨rfl, rfl, rfl⟩ := hcommand
      exact Or.inl ⟨op, rfl, rfl, rfl, rfl⟩
  | advance =>
    cases thread with
    | idle => simp [bitMachine] at hcommand
    | running op stage =>
      simp only [bitMachine, Option.some.injEq] at hcommand
      cases op with
      | tryEnableBit idx =>
        rw [callStep, mcmpAtomicBitmapTryEnableBit] at hcommand
        rcases tryBit_cases hcommand with
          ⟨rfl, htest, rfl, rfl, rfl⟩ | ⟨rfl, htest, rfl, rfl, rfl⟩ |
          ⟨byteval, rfl, rfl, rfl, rfl⟩ | ⟨rfl, rfl, rfl, rfl⟩
        · have hset := (and_bitMask_ne_zero_iff bitmap' idx).mp (of_decide_eq_true htest)
          exact Or.inr (Or.inl ⟨idx, rfl, hset, rfl, rfl, rfl⟩)
        · have hclear := mt (and_bitMask_ne_zero_iff bitmap' idx).mpr (of_decide_eq_false htest)
          exact Or.inr (Or.inr (Or.inl ⟨_, rfl, fun _ ↦ Bool.eq_false_iff.mpr hclear, rfl, rfl,
            rfl⟩))
        · exact Or.inr (Or.inr (Or.inr (Or.inl ⟨_, byteval, rfl, rfl, rfl, rfl⟩)))
        · exact Or.inr (Or.inr (Or.inr (Or.inr ⟨_, rfl, by rw [Function.update_self],
            fun j ↦ (bit_update_nextval bitmap idx j).1, rfl⟩)))
      | tryDisableBit idx =>
        rw [callStep, mcmpAtomicBitmapTryDisableBit] at hcommand
        rcases tryBit_cases hcommand with
          ⟨rfl, htest, rfl, rfl, rfl⟩ | ⟨rfl, htest, rfl, rfl, rfl⟩ |
          ⟨byteval, rfl, rfl, rfl, rfl⟩ | ⟨rfl, rfl, rfl, rfl⟩
        · rw [releaseTest_false (Nat.mod_lt _ (by omega))] at htest
          exact absurd htest Bool.false_ne_true
        · exact Or.inr (Or.inr (Or.inl ⟨_, rfl, by simp, rfl, rfl, rfl⟩))
        · exact Or.inr (Or.inr (Or.inr (Or.inl ⟨_, byteval, rfl, rfl, rfl, rfl⟩)))
        · exact Or.inr (Or.inr (Or.inr (Or.inr ⟨_, rfl, by rw [Function.update_self],
            fun j ↦ (bit_update_nextval bitmap idx j).2, rfl⟩)))

/-- A step changes no bit but the one of its index, and nothing at all unless a call succeeds in
it. -/
theorem step_frame {bitmap bitmap' : ByteMemory} {thread thread' : BitThread} {event : BitEvent}
    (hstep : bitMachine.program bitmap thread event bitmap' thread') :
    (∀ j, j ≠ event.idx → bit bitmap' j = bit bitmap j) ∧
      ((∀ op, event.succeeds op = false) → bitmap' = bitmap) := by
  rcases step_cases hstep with ⟨op, -, rfl, rfl, -⟩ | ⟨idx, -, -, rfl, rfl, -⟩ |
    ⟨op, -, -, rfl, rfl, -⟩ | ⟨op, byteval, -, rfl, rfl, -⟩ | ⟨op, -, rfl, hbit, -⟩
  · exact ⟨fun _ _ ↦ rfl, fun _ ↦ rfl⟩
  · exact ⟨fun _ _ ↦ rfl, fun _ ↦ rfl⟩
  · exact ⟨fun _ _ ↦ rfl, fun _ ↦ rfl⟩
  · exact ⟨fun _ _ ↦ rfl, fun _ ↦ rfl⟩
  · refine ⟨fun j hj ↦ ?_, fun hnone ↦ ?_⟩
    · rw [hbit]
      exact if_neg hj
    · have hop := hnone op
      simp [BitEvent.succeeds] at hop

/-- What the event of a step tells: a claim that goes on after its load has loaded a clear bit, a
release always goes on, a success was remembered by the thread and leaves the value of the call, and
a thread that remembers a byte has just loaded it. -/
structure Tells (thread : BitThread) (event : BitEvent) (thread' : BitThread) : Prop where
  claimed : ∀ idx byteval, event = .loaded (.tryEnableBit idx) byteval none →
    byteval.getLsbD (idx % 8) = false
  released : ∀ idx byteval returned, event = .loaded (.tryDisableBit idx) byteval returned →
    returned = none
  succeeded : ∀ op before after, event = .exchanged op before after .success →
    thread = .running op (.compareExchange before) ∧ after.getLsbD (op.idx % 8) = op.value
  remembered : ∀ op byteval, thread' = .running op (.compareExchange byteval) →
    event = .loaded op byteval none

theorem step_tells {bitmap bitmap' : ByteMemory} {thread thread' : BitThread} {event : BitEvent}
    (hstep : bitMachine.program bitmap thread event bitmap' thread') :
    Tells thread event thread' := by
  rcases step_cases hstep with ⟨op, -, rfl, -, rfl⟩ | ⟨idx, -, -, rfl, -, rfl⟩ |
    ⟨op, -, hclear, rfl, -, rfl⟩ | ⟨op, byteval, -, rfl, -, rfl⟩ | ⟨op, rfl, rfl, hbit, rfl⟩
  · exact ⟨by simp, by simp, by simp, by simp⟩
  · exact ⟨by simp, by simp, by simp, by simp⟩
  · refine ⟨fun idx byteval hevent ↦ ?_, fun idx byteval returned hevent ↦ ?_, by simp, by simp⟩
    · simp only [BitEvent.loaded.injEq] at hevent
      obtain ⟨rfl, rfl, -⟩ := hevent
      exact hclear rfl
    · simp only [BitEvent.loaded.injEq] at hevent
      exact hevent.2.2.symm
  · exact ⟨by simp, by simp, by simp, by simp⟩
  · refine ⟨by simp, by simp, fun other before after hevent ↦ ?_, by simp⟩
    simp only [BitEvent.exchanged.injEq, and_true] at hevent
    obtain ⟨rfl, rfl, rfl⟩ := hevent
    have hvalue := hbit op.idx
    rw [if_pos rfl] at hvalue
    exact ⟨rfl, hvalue⟩

/-! ### What the last successful call left -/

section History

variable {ι : Type*}

/-- The value that the successful calls on an index leave in its bit: the value of the last of them,
or the initial value when there is none. -/
def lastLeft (idx : ℕ) (initial : Bool) (history : List (ι × BitEvent)) : Bool :=
  history.foldl (fun value entry ↦
    if entry.2.succeeds (.tryEnableBit idx) then true
    else if entry.2.succeeds (.tryDisableBit idx) then false
    else value) initial

/-- An event after which no call on an index has succeeded leaves its bit alone. -/
theorem lastLeft_concat_of_ne (idx : ℕ) (initial : Bool) (history : List (ι × BitEvent))
    {thread : ι} {event : BitEvent} (hevent : ∀ op, op.idx = idx → event.succeeds op = false) :
    lastLeft idx initial (history ++ [(thread, event)]) = lastLeft idx initial history := by
  simp [lastLeft, hevent (.tryEnableBit idx) rfl, hevent (.tryDisableBit idx) rfl]

/-- A successful call leaves its value. -/
theorem lastLeft_concat_of_succeeds (op : BitOp) (initial : Bool) (history : List (ι × BitEvent))
    (thread : ι) {event : BitEvent} (hevent : event.succeeds op = true) :
    lastLeft op.idx initial (history ++ [(thread, event)]) = op.value := by
  cases event with
  | called other => simp [BitEvent.succeeds] at hevent
  | loaded other byteval returned => simp [BitEvent.succeeds] at hevent
  | exchanged other before after returned =>
    simp only [BitEvent.succeeds, decide_eq_true_eq] at hevent
    obtain ⟨rfl, rfl⟩ := hevent
    cases other <;> simp [lastLeft, BitEvent.succeeds, BitOp.idx, BitOp.value]

/-- The call that takes back what a call does. -/
def BitOp.opposite : BitOp → BitOp
  | tryEnableBit idx => tryDisableBit idx
  | tryDisableBit idx => tryEnableBit idx

/-- The value that a call left stays until the opposite call succeeds. -/
theorem lastLeft_eq_value (op : BitOp) {history : List (ι × BitEvent)}
    (hhistory : ∀ entry ∈ history, entry.2.succeeds op.opposite = false) :
    lastLeft op.idx op.value history = op.value := by
  induction history with
  | nil => rfl
  | cons entry history ih =>
    have hentry := hhistory entry (by simp)
    have htail := ih fun later hlater ↦ hhistory later (by simp [hlater])
    cases op with
    | tryEnableBit idx =>
      simp only [BitOp.opposite] at hentry
      simpa [lastLeft, BitOp.idx, BitOp.value, hentry] using htail
    | tryDisableBit idx =>
      simp only [BitOp.opposite] at hentry
      cases hagain : entry.2.succeeds (.tryDisableBit idx) <;>
        simpa [lastLeft, BitOp.idx, BitOp.value, hentry, hagain] using htail

/-- Two successful calls of one kind with no success of the opposite one between them: the second
finds the value that it leaves. -/
theorem lastLeft_between (op : BitOp) (initial : Bool) (earlier between : List (ι × BitEvent))
    {thread : ι} {event : BitEvent} (hevent : event.succeeds op = true)
    (hbetween : ∀ entry ∈ between, entry.2.succeeds op.opposite = false) :
    lastLeft op.idx initial (earlier ++ (thread, event) :: between) = op.value := by
  have hfirst := lastLeft_concat_of_succeeds op initial earlier thread hevent
  have hsplit : earlier ++ (thread, event) :: between = (earlier ++ [(thread, event)]) ++ between :=
    by simp
  rw [hsplit, lastLeft, List.foldl_append]
  rw [lastLeft] at hfirst
  rw [hfirst]
  exact lastLeft_eq_value op hbetween

variable [DecidableEq ι] {bitmap : ByteMemory} {history : List (ι × BitEvent)}
  {config : Config ι ByteMemory BitThread}

/-- Along every run the bit of an index is what the last successful call on it left. -/
theorem bit_eq_lastLeft (hrun : BitRun bitmap history config) (idx : ℕ) :
    bit config.shared idx = lastLeft idx (bit bitmap idx) history := by
  induction hrun with
  | start => rfl
  | @step history config thread event shared own _ _ hstep ih =>
    rw [Config.advance_shared]
    rcases step_cases hstep with ⟨op, -, rfl, rfl, -⟩ | ⟨idx', -, -, rfl, rfl, -⟩ |
      ⟨op, -, -, rfl, rfl, -⟩ | ⟨op, byteval, -, rfl, rfl, -⟩ | ⟨op, -, rfl, hbit, -⟩
    · rw [lastLeft_concat_of_ne _ _ _ fun _ _ ↦ rfl, ih]
    · rw [lastLeft_concat_of_ne _ _ _ fun _ _ ↦ rfl, ih]
    · rw [lastLeft_concat_of_ne _ _ _ fun _ _ ↦ rfl, ih]
    · rw [lastLeft_concat_of_ne _ _ _ fun _ _ ↦ by simp [BitEvent.succeeds], ih]
    · rw [hbit]
      split_ifs with hidx
      · subst hidx
        rw [lastLeft_concat_of_succeeds op]
        simp [BitEvent.succeeds]
      · rw [lastLeft_concat_of_ne, ih]
        rintro other rfl
        simp only [BitEvent.succeeds, decide_eq_false_iff_not, not_and]
        rintro rfl
        exact absurd rfl hidx

/-- The load that a call in progress remembers, and the test that it passed, are in the history. So
are the loads of the calls that have succeeded, and a successful call has left its value. -/
structure Recorded (history : List (ι × BitEvent)) (config : Config ι ByteMemory BitThread) :
    Prop where
  remembered : ∀ thread op byteval, config.threads thread = .running op (.compareExchange byteval) →
    (thread, .loaded op byteval none) ∈ history
  claimed : ∀ thread idx byteval, (thread, .loaded (.tryEnableBit idx) byteval none) ∈ history →
    byteval.getLsbD (idx % 8) = false
  released : ∀ thread idx byteval returned,
    (thread, .loaded (.tryDisableBit idx) byteval returned) ∈ history → returned = none
  succeeded : ∀ thread op before after, (thread, .exchanged op before after .success) ∈ history →
    (thread, .loaded op before none) ∈ history ∧ after.getLsbD (op.idx % 8) = op.value

theorem recorded (hrun : BitRun bitmap history config) : Recorded history config := by
  refine Run.invariant Recorded ⟨by simp [initially], by simp, by simp, by simp⟩ ?_ hrun
  intro history config thread event shared own _ ih _ hstep
  have htells := step_tells hstep
  have hlast : ∀ {other : ι} {kind : BitEvent}, (other, kind) ∈ history ++ [(thread, event)] →
      (other, kind) ∈ history ∨ other = thread ∧ event = kind := by
    intro other kind hmem
    rcases List.mem_append.mp hmem with hmem | hmem
    · exact Or.inl hmem
    · obtain ⟨rfl, rfl⟩ := Prod.mk.inj (List.mem_singleton.mp hmem)
      exact Or.inr ⟨rfl, rfl⟩
  refine ⟨fun other op byteval hother ↦ ?_, fun other idx byteval hmem ↦ ?_,
    fun other idx byteval returned hmem ↦ ?_, fun other op before after hmem ↦ ?_⟩
  · by_cases hthread : other = thread
    · subst hthread
      rw [Config.advance_threads_self] at hother
      rw [htells.remembered op byteval hother]
      simp
    · rw [Config.advance_threads_of_ne _ hthread] at hother
      exact List.mem_append_left _ (ih.remembered other op byteval hother)
  · rcases hlast hmem with hmem | ⟨-, hevent⟩
    · exact ih.claimed other idx byteval hmem
    · exact htells.claimed idx byteval hevent
  · rcases hlast hmem with hmem | ⟨-, hevent⟩
    · exact ih.released other idx byteval returned hmem
    · exact htells.released idx byteval returned hevent
  · rcases hlast hmem with hmem | ⟨rfl, hevent⟩
    · exact ⟨List.mem_append_left _ (ih.succeeded other op before after hmem).1,
        (ih.succeeded other op before after hmem).2⟩
    · obtain ⟨hremembered, hvalue⟩ := htells.succeeded op before after hevent
      exact ⟨List.mem_append_left _ (ih.remembered other op before hremembered), hvalue⟩

/-- At every success the bit of the call is what the byte that the call had loaded says. -/
theorem bit_before_success {earlier later : List (ι × BitEvent)} {thread : ι} {op : BitOp}
    {before after : BitVec 8}
    (hrun : BitRun bitmap (earlier ++ (thread, .exchanged op before after .success) :: later)
      config) :
    lastLeft op.idx (bit bitmap op.idx) earlier = before.getLsbD (op.idx % 8) := by
  obtain ⟨middle, shared, own, hmiddle, -, hstep⟩ := hrun.cut
  rw [← bit_eq_lastLeft hmiddle]
  rcases step_cases hstep with ⟨_, -, h, -⟩ | ⟨_, -, -, h, -⟩ | ⟨_, -, -, h, -⟩ |
    ⟨_, _, -, h, -⟩ | ⟨other, -, h, -⟩
  · simp at h
  · simp at h
  · simp at h
  · simp at h
  · simp only [BitEvent.exchanged.injEq] at h
    obtain ⟨rfl, rfl, -⟩ := h
    rfl

/-- When every success of a call finds the opposite of the value it leaves, then between two
successes of the call the opposite call has succeeded. -/
theorem exists_opposite_between (hrun : BitRun bitmap history config) (op : BitOp)
    (hfinds : ∀ thread before after, (thread, .exchanged op before after .success) ∈ history →
      before.getLsbD (op.idx % 8) = !op.value)
    {earlier between later : List (ι × BitEvent)} {first second : ι} {event : BitEvent}
    {before after : BitVec 8} (hevent : event.succeeds op = true)
    (hhistory : history = earlier ++ (first, event) :: between ++
      (second, .exchanged op before after .success) :: later) :
    ∃ entry ∈ between, entry.2.succeeds op.opposite = true := by
  by_contra hnone
  have hbetween : ∀ entry ∈ between, entry.2.succeeds op.opposite = false := by
    intro entry hentry
    by_contra hentry'
    exact hnone ⟨entry, hentry, Bool.not_eq_false _ ▸ hentry'⟩
  subst hhistory
  have hat := bit_before_success hrun
  rw [lastLeft_between op _ _ _ hevent hbetween, hfinds second before after (by simp)] at hat
  exact Bool.eq_not.mp hat rfl

/-! ### Exclusive claims -/

/-- A claim succeeds only on a clear bit. -/
theorem claim_finds_clear (hrun : BitRun bitmap history config) (idx : ℕ) (thread : ι)
    (before after : BitVec 8)
    (hmem : (thread, .exchanged (.tryEnableBit idx) before after .success) ∈ history) :
    before.getLsbD (idx % 8) = false :=
  (recorded hrun).claimed thread idx before
    ((recorded hrun).succeeded thread (.tryEnableBit idx) before after hmem).1

/-- An event in which a call has succeeded is a compare-exchange of this call. -/
theorem exists_exchanged_of_succeeds {op : BitOp} {event : BitEvent}
    (hevent : event.succeeds op = true) :
    ∃ before after, event = .exchanged op before after .success := by
  cases event with
  | called other => simp [BitEvent.succeeds] at hevent
  | loaded other byteval returned => simp [BitEvent.succeeds] at hevent
  | exchanged other before after returned =>
    simp only [BitEvent.succeeds, decide_eq_true_eq] at hevent
    obtain ⟨rfl, rfl⟩ := hevent
    exact ⟨before, after, rfl⟩

/-- Along every run of any number of callers, the bit of every index is what the last successful
call on it left; a step changes no bit but the one of its index and nothing unless a call succeeds
in it; between two successful claims of a bit a release of it has succeeded; and as long as no
release of a bit has succeeded at most one claim of it has. -/
theorem mcmpAtomicBitmapTryEnableBit_exclusive {ι : Type*} [DecidableEq ι] (bitmap : ByteMemory)
    (history : List (ι × BitEvent)) (config : Config ι ByteMemory BitThread)
    (hrun : BitRun bitmap history config) :
    (∀ idx, bit config.shared idx = lastLeft idx (bit bitmap idx) history) ∧
    (∀ thread event shared own,
      bitMachine.program config.shared (config.threads thread) event shared own →
        (∀ j, j ≠ event.idx → bit shared j = bit config.shared j) ∧
          ((∀ op, event.succeeds op = false) → shared = config.shared)) ∧
    (∀ idx earlier between later first second before after before' after',
      history = earlier ++ (first, .exchanged (.tryEnableBit idx) before after .success) ::
          between ++ (second, .exchanged (.tryEnableBit idx) before' after' .success) :: later →
        ∃ entry ∈ between, entry.2.succeeds (.tryDisableBit idx) = true) ∧
    ∀ idx, (∀ entry ∈ history, entry.2.succeeds (.tryDisableBit idx) = false) →
      history.countP (fun entry ↦ entry.2.succeeds (.tryEnableBit idx)) ≤ 1 := by
  have hbetween : ∀ idx earlier between later first second event before after,
      event.succeeds (.tryEnableBit idx) = true →
      history = earlier ++ (first, event) :: between ++
        (second, .exchanged (.tryEnableBit idx) before after .success) :: later →
      ∃ entry ∈ between, entry.2.succeeds (.tryDisableBit idx) = true := by
    intro idx earlier between later first second event before after hevent hhistory
    exact exists_opposite_between hrun (.tryEnableBit idx) (claim_finds_clear hrun idx) hevent
      hhistory
  refine ⟨bit_eq_lastLeft hrun, fun thread event shared own hstep ↦ step_frame hstep, ?_, ?_⟩
  · intro idx earlier between later first second before after before' after' hhistory
    exact hbetween idx _ _ _ _ _ _ _ _ (by simp [BitEvent.succeeds]) hhistory
  · intro idx hnone
    by_contra htwo
    obtain ⟨earlier, ⟨first, event⟩, between, ⟨second, event'⟩, later, hhistory, hfirst, hsecond⟩ :=
      exists_split_of_two_le_countP (not_le.mp htwo)
    obtain ⟨before, after, rfl⟩ := exists_exchanged_of_succeeds hsecond
    obtain ⟨entry, hentry, hrelease⟩ := hbetween idx _ _ _ _ _ _ _ _ hfirst hhistory
    rw [hnone entry (by simp [hhistory, hentry])] at hrelease
    exact Bool.noConfusion hrelease

/-- Two threads claim bit 3 of an empty bitmap, both having found it clear: one of them succeeds and
the other one is told `MCMPST_INVOP`. -/
theorem mcmpAtomicBitmapTryEnableBit_exclusive_two_claimants :
    ∃ (history : List (Fin 2 × BitEvent)) (config : Config (Fin 2) ByteMemory BitThread),
      BitRun (fun _ ↦ 0#8) history config ∧
      (1, .exchanged (.tryEnableBit 3) 8#8 8#8 .invop) ∈ history ∧
      bit config.shared 3 = true ∧
      history.countP (fun entry ↦ entry.2.succeeds (.tryEnableBit 3)) ≤ 1 := by
  obtain ⟨config, hrun, hbit⟩ := exists_run_of_play bitMachine anyStep
    (initially (Fin 2) fun _ ↦ 0#8)
    [(0, .call (.tryEnableBit 3)), (1, .call (.tryEnableBit 3)), (0, .advance),
      (1, .advance), (0, .advance), (1, .advance)]
    (fun config ↦ bit config.shared 3)
    [(0, .called (.tryEnableBit 3)), (1, .called (.tryEnableBit 3)),
      (0, .loaded (.tryEnableBit 3) 0#8 none), (1, .loaded (.tryEnableBit 3) 0#8 none),
      (0, .exchanged (.tryEnableBit 3) 0#8 8#8 .success),
      (1, .exchanged (.tryEnableBit 3) 8#8 8#8 .invop)]
    true (by decide)
  exact ⟨_, config, hrun, by decide, hbit,
    (mcmpAtomicBitmapTryEnableBit_exclusive _ _ _ hrun).2.2.2 3 (by decide)⟩

/-! ### Exclusive releases -/

/-- What is expected of releases in a history. A release that loads a byte with its bit clear
returns `MCMPST_ALROP`; a release that succeeds has turned its bit from set to clear with its own
compare-exchange; and between two successful releases of a bit a claim of it has succeeded. -/
def ReleasesExclusive (history : List (ι × BitEvent)) : Prop :=
  (∀ thread idx byteval returned,
    (thread, .loaded (.tryDisableBit idx) byteval returned) ∈ history →
      byteval.getLsbD (idx % 8) = false → returned = some .alrop) ∧
  (∀ thread idx before after,
    (thread, .exchanged (.tryDisableBit idx) before after .success) ∈ history →
      before.getLsbD (idx % 8) = true ∧ after.getLsbD (idx % 8) = false) ∧
  ∀ idx earlier between later first second before after before' after',
    history = earlier ++ (first, .exchanged (.tryDisableBit idx) before after .success) ::
        between ++ (second, .exchanged (.tryDisableBit idx) before' after' .success) :: later →
      ∃ entry ∈ between, entry.2.succeeds (.tryEnableBit idx) = true

/-- Every release in a history loads a byte in which its bit is set. -/
def ReleasesLoadSet (history : List (ι × BitEvent)) : Prop :=
  ∀ thread idx byteval returned,
    (thread, .loaded (.tryDisableBit idx) byteval returned) ∈ history →
      byteval.getLsbD (idx % 8) = true

/-- Releases are exclusive in exactly those runs in which every release loads a byte with its bit
set: the test for a clear bit never fires. -/
theorem mcmpAtomicBitmapTryDisableBit_exclusive_iff {ι : Type*} [DecidableEq ι]
    (bitmap : ByteMemory) (history : List (ι × BitEvent)) (config : Config ι ByteMemory BitThread)
    (hrun : BitRun bitmap history config) :
    ReleasesExclusive history ↔ ReleasesLoadSet history := by
  have hrecorded := recorded hrun
  constructor
  · rintro ⟨halrop, -, -⟩ thread idx byteval returned hmem
    by_contra hclear
    have hreturned := halrop thread idx byteval returned hmem (Bool.eq_false_iff.mpr hclear)
    rw [hrecorded.released thread idx byteval returned hmem] at hreturned
    simp at hreturned
  · intro hset
    have hfinds : ∀ idx thread before after,
        (thread, .exchanged (.tryDisableBit idx) before after .success) ∈ history →
        before.getLsbD (idx % 8) = true := by
      intro idx thread before after hmem
      exact hset thread idx before none (hrecorded.succeeded thread _ before after hmem).1
    refine ⟨?_, ?_, ?_⟩
    · intro thread idx byteval returned hmem hclear
      rw [hset thread idx byteval returned hmem] at hclear
      exact Bool.noConfusion hclear
    · intro thread idx before after hmem
      exact ⟨hfinds idx thread before after hmem,
        (hrecorded.succeeded thread _ before after hmem).2⟩
    · intro idx earlier between later first second before after before' after' hhistory
      exact exists_opposite_between hrun (.tryDisableBit idx) (hfinds idx)
        (by simp [BitEvent.succeeds]) hhistory

/-- A thread claims bit 3 of an empty bitmap and releases it again: the release loads the set bit,
and the run is one in which releases are exclusive. -/
theorem mcmpAtomicBitmapTryDisableBit_exclusive_iff_one_owner :
    ∃ (history : List (Fin 2 × BitEvent)) (config : Config (Fin 2) ByteMemory BitThread),
      BitRun (fun _ ↦ 0#8) history config ∧
      (0, .exchanged (.tryDisableBit 3) 8#8 0#8 .success) ∈ history ∧
      ReleasesExclusive history := by
  obtain ⟨config, hrun, -⟩ := exists_run_of_play bitMachine anyStep
    (initially (Fin 2) fun _ ↦ 0#8)
    [(0, .call (.tryEnableBit 3)), (0, .advance), (0, .advance),
      (0, .call (.tryDisableBit 3)), (0, .advance), (0, .advance)]
    (fun config ↦ bit config.shared 3)
    [(0, .called (.tryEnableBit 3)), (0, .loaded (.tryEnableBit 3) 0#8 none),
      (0, .exchanged (.tryEnableBit 3) 0#8 8#8 .success), (0, .called (.tryDisableBit 3)),
      (0, .loaded (.tryDisableBit 3) 8#8 none),
      (0, .exchanged (.tryDisableBit 3) 8#8 0#8 .success)]
    false (by decide)
  refine ⟨_, config, hrun, by decide,
    (mcmpAtomicBitmapTryDisableBit_exclusive_iff _ _ _ hrun).mpr ?_⟩
  intro thread idx byteval returned hmem
  simp only [List.mem_cons, Prod.mk.injEq, reduceCtorEq, BitEvent.loaded.injEq,
    BitOp.tryDisableBit.injEq, and_false, false_and, List.not_mem_nil, or_false, false_or] at hmem
  obtain ⟨-, rfl, rfl, -⟩ := hmem
  decide

/-- Two threads release bit 0 of a bitmap in which it is set, one after the other: both are told
that they succeeded, although the second one loaded a byte in which the bit was clear. -/
theorem not_releasesExclusive_two_releasers :
    ∃ (history : List (Fin 2 × BitEvent)) (config : Config (Fin 2) ByteMemory BitThread),
      BitRun (fun _ ↦ 1#8) history config ∧
      history = [(0, .called (.tryDisableBit 0)), (0, .loaded (.tryDisableBit 0) 1#8 none),
        (0, .exchanged (.tryDisableBit 0) 1#8 0#8 .success), (1, .called (.tryDisableBit 0)),
        (1, .loaded (.tryDisableBit 0) 0#8 none),
        (1, .exchanged (.tryDisableBit 0) 0#8 0#8 .success)] ∧
      ¬ ReleasesExclusive history := by
  obtain ⟨config, hrun, -⟩ := exists_run_of_play bitMachine anyStep
    (initially (Fin 2) fun _ ↦ 1#8)
    [(0, .call (.tryDisableBit 0)), (0, .advance), (0, .advance),
      (1, .call (.tryDisableBit 0)), (1, .advance), (1, .advance)]
    (fun config ↦ bit config.shared 0)
    [(0, .called (.tryDisableBit 0)), (0, .loaded (.tryDisableBit 0) 1#8 none),
      (0, .exchanged (.tryDisableBit 0) 1#8 0#8 .success), (1, .called (.tryDisableBit 0)),
      (1, .loaded (.tryDisableBit 0) 0#8 none),
      (1, .exchanged (.tryDisableBit 0) 0#8 0#8 .success)]
    false (by decide)
  refine ⟨_, config, hrun, rfl, fun hexclusive ↦ ?_⟩
  have hreturned := hexclusive.1 1 0 0#8 none (by decide) (by decide)
  simp at hreturned

end History

/-! ### A call without interference -/

/-- What the call of an event returns with it. -/
def BitEvent.status : BitEvent → Option Mcmpst
  | called _ => none
  | loaded _ _ returned => returned
  | exchanged _ _ _ returned => some returned

/-- Runs a call, its load and its compare-exchange, while no other thread moves. -/
def callAlone (bitmap : ByteMemory) (op : BitOp) : Option Mcmpst × ByteMemory :=
  let result := runAlone bitMachine .advance 2 bitmap (.running op .load)
  (result.1.findSome? BitEvent.status, result.2.1)

/-- The steps of a claim: the load of a set bit ends it, and that of a clear bit goes on to the
compare-exchange, which sets the bit when the byte is the loaded one and otherwise ends it. -/
theorem callStep_tryEnableBit_of_set {bitmap : ByteMemory} {idx : ℕ}
    (hset : bit bitmap idx = true) :
    callStep bitmap (.tryEnableBit idx) .load =
      (.loaded (.tryEnableBit idx) (bitmap (idx / 8)) (some .alrop), bitmap, .idle) := by
  have htest : bitmap (idx / 8) &&& bitMask (idx % 8) ≠ 0 := (and_bitMask_ne_zero_iff ..).mpr hset
  exact if_pos (decide_eq_true htest)

theorem callStep_tryEnableBit_of_clear {bitmap : ByteMemory} {idx : ℕ}
    (hclear : bit bitmap idx = false) :
    callStep bitmap (.tryEnableBit idx) .load =
      (.loaded (.tryEnableBit idx) (bitmap (idx / 8)) none, bitmap,
        .running (.tryEnableBit idx) (.compareExchange (bitmap (idx / 8)))) := by
  have htest : bitmap (idx / 8) &&& bitMask (idx % 8) = 0 := by
    rw [← not_ne_iff, and_bitMask_ne_zero_iff, Bool.not_eq_true]
    exact hclear
  simp [callStep, mcmpAtomicBitmapTryEnableBit, tryBit, BitOp.idx, htest]

theorem callStep_tryEnableBit_of_eq (bitmap : ByteMemory) (idx : ℕ) :
    ∃ after, callStep bitmap (.tryEnableBit idx) (.compareExchange (bitmap (idx / 8))) =
      (.exchanged (.tryEnableBit idx) (bitmap (idx / 8)) after .success, setBit bitmap idx,
        .idle) := by
  refine ⟨bitmap (idx / 8) ||| bitMask (idx % 8), ?_⟩
  simp [callStep, mcmpAtomicBitmapTryEnableBit, tryBit, BitOp.idx, setBit]

theorem callStep_tryEnableBit_of_ne {bitmap : ByteMemory} {idx : ℕ} {byteval : BitVec 8}
    (hne : bitmap (idx / 8) ≠ byteval) :
    callStep bitmap (.tryEnableBit idx) (.compareExchange byteval) =
      (.exchanged (.tryEnableBit idx) (bitmap (idx / 8)) (bitmap (idx / 8)) .invop, bitmap,
        .idle) := by
  simp [callStep, mcmpAtomicBitmapTryEnableBit, tryBit, BitOp.idx, hne]

/-- A claim of a clear bit succeeds when no other thread moves. -/
theorem callAlone_tryEnableBit {bitmap : ByteMemory} {idx : ℕ} (hclear : bit bitmap idx = false) :
    callAlone bitmap (.tryEnableBit idx) = (some .success, setBit bitmap idx) := by
  have htest : bitmap (idx / 8) &&& bitMask (idx % 8) = 0 := by
    rw [← not_ne_iff, and_bitMask_ne_zero_iff, Bool.not_eq_true]
    exact hclear
  simp [callAlone, runAlone, bitMachine, callStep, mcmpAtomicBitmapTryEnableBit, tryBit, BitOp.idx,
    htest, List.findSome?_cons, BitEvent.status, setBit]

/-- A release of a bit succeeds when no other thread moves. -/
theorem callAlone_tryDisableBit (bitmap : ByteMemory) (idx : ℕ) :
    callAlone bitmap (.tryDisableBit idx) = (some .success, clearBit bitmap idx) := by
  have htest : releaseTest (bitmap (idx / 8)) (idx % 8) = false :=
    releaseTest_false (Nat.mod_lt _ (by omega)) _
  simp [callAlone, runAlone, bitMachine, callStep, mcmpAtomicBitmapTryDisableBit, tryBit, BitOp.idx,
    htest, List.findSome?_cons, BitEvent.status, clearBit, bitMask]

end Mcmp.Utilities.AtomicBitmap
