import Mcmp.Routines.MonitorLock
import Mcmp.Routines.WorkerCreate
import Mcmp.Utilities.Bitmap
import Mcmp.Utilities.EnvFlags

/-!
# The heartbeat

`mcmchHeartbeatCreateInstance` and `mcmchHeartbeatProcessIfAvaible` of heartbeat.c. The handler of
the heartbeat's monitor marks the slots of the clients that did not answer and sets the flag
`AVAILABLE`. A thread that processes the heartbeat takes its lock, drops the clients of the slots
that are marked, and clears the marks and the flag.

The code of the handler is not in the tree. It is any program that reads and writes the flags and
the bitmap of the heartbeat alone (`PlataformHandler`), as `mcmchHeartbeatRuntineHandler` does in
the same file. The client that is dropped is a null pointer in the source, which does not look it up
yet, so of the two calls that drop it only the slot is kept.

Creation clears the flags and the bitmap, and leaves the lock as the block has it. When the block
has a zero there the lock is free. Otherwise nobody ever takes it, and every call is refused
(`results_eq_iff`).
-/

set_option autoImplicit false
set_option relaxedAutoImplicit false

namespace Mcmp.Server.Heartbeat

open Foundation.ByteBits Foundation.Interleaving Foundation.WordMemory
open Utilities Utilities.BitmapScan Utilities.EnvFlags Routines.MonitorLock Routines.WorkerCreate
open Utilities.Bitmap (mcmpBitmapCleanOrder mcmpBitmapEnableBit mcmpBitmapDisableBit bitOf)

variable {Act Own : Type}

/-! ### The heartbeat and its threads -/

/-- What a block from `malloc` holds where creation does not write, or only writes a part: the lock
and the bytes from the bitmap on. -/
structure HeartbeatBlock where
  lock : ℕ
  bitmap : ByteMemory

/-- `McmchHeartBeatHeader` and the bitmap behind it. Of the broadcast only the length of its bitmap
is read. -/
structure McmchHeartbeat where
  bitmapLength : ℕ
  lock : ℕ
  flags : BitVec 8
  bitmap : ByteMemory

/-- The number of the flag `MCH_HBT_AVAILABLE`. -/
def available : ℕ := 1

/-- The result of `mcmchMonitorCreate` is not looked at, and the monitor is not used by
`mcmchHeartbeatProcessIfAvaible`. -/
def mcmchHeartbeatCreateInstance (malloc : ℕ → Option HeartbeatBlock) (bitmapLength : ℕ) :
    Option McmchHeartbeat :=
  (malloc ((32 + bitmapLength) % 2 ^ 64)).map fun block ↦
    ⟨bitmapLength, block.lock, 0, mcmpBitmapCleanOrder block.bitmap 0 bitmapLength⟩

/-- Two heartbeats with the same flags and the same bytes in the bitmap. The bytes behind it and the
lock may differ. -/
structure SameMarks (heartbeat heartbeat' : McmchHeartbeat) : Prop where
  length : heartbeat.bitmapLength = heartbeat'.bitmapLength
  flags : heartbeat.flags = heartbeat'.flags
  bitmap : ∀ i < heartbeat.bitmapLength, heartbeat.bitmap i = heartbeat'.bitmap i

/-- `__mcmch__heartbeat_plataform_heartbeat_heandler`: the steps that it makes on the heartbeat and
on what it keeps itself. It leaves the lock as it is, and what it does depends on the flags and on
the bytes of the bitmap. -/
structure PlataformHandler (Act Own : Type) where
  start : Own
  step : Act → McmchHeartbeat → Own → Option (McmchHeartbeat × Own)
  keeps : ∀ {act heartbeat own next}, step act heartbeat own = some next →
    next.1.bitmapLength = heartbeat.bitmapLength ∧ next.1.lock = heartbeat.lock
  reads : ∀ act {heartbeat heartbeat'} own, SameMarks heartbeat heartbeat' →
    Option.Rel (fun next next' ↦ SameMarks next.1 next'.1 ∧ next.2 = next'.2)
      (step act heartbeat own) (step act heartbeat' own)

/-- The parties: the handler, and the threads that process the heartbeat. -/
inductive HeartbeatParty
  | handler
  | caller (thread : ℕ)
  deriving DecidableEq, Repr

/-- Where a thread is in `mcmchHeartbeatProcessIfAvaible`: before a try to take the lock, the test
of the flag, a load of the scan, the call that drops the client of a slot, the store that clears the
flag, or the release of the lock at the end or after a test that failed. -/
inductive HeartbeatStage
  | idle
  | acquiring (tries : ℕ)
  | testing
  | refusing
  | scanning (state : ScanState)
  | dropping (slot : ℕ)
  | clearing
  | releasing
  deriving DecidableEq, Repr

/-- A party; a thread that processes the heartbeat has its `mcmchmonitor`. -/
inductive HeartbeatThread (Own : Type)
  | handler (own : Own)
  | caller (mcmchmonitor : ℕ) (stage : HeartbeatStage)
  deriving DecidableEq, Repr

/-- The events: a call starts, it drops the client of a slot, or it returns. At its end the function
has no `return`, and the status is `none`. The other accesses are internal. -/
inductive HeartbeatEvent
  | called
  | dropped (slot : ℕ)
  | returned (status : Option Mcmpst)
  | internal
  deriving DecidableEq, Repr

/-- What a party can be told to do. -/
inductive HeartbeatCommand (Act : Type)
  | handle (act : Act)
  | processIfAvaible
  | advance
  deriving DecidableEq, Repr

/-- The loop over the marked slots when its scan has come to a result. -/
def dropAt : ScanResult → HeartbeatStage
  | .more state => .scanning state
  | .found slot => .dropping slot
  | .missed => .clearing

/-- The loop over the marked slots from one on. -/
def dropFrom (heartbeat : McmchHeartbeat) (offset : ℕ) : HeartbeatStage :=
  dropAt (startScan offset heartbeat.bitmapLength)

/-- A try of `mcmchMonitorLockTryAcquire(lock, 16)`. -/
def tryAcquire (main monitor tries : ℕ) (heartbeat : McmchHeartbeat) :
    HeartbeatEvent × McmchHeartbeat × HeartbeatStage :=
  match mcmchMonitorLockTryAcquire main monitor heartbeat.lock 16 tries with
  | (_, lock, .running _ tries) => (.internal, { heartbeat with lock := lock }, .acquiring tries)
  | (event, lock, .idle) =>
    if event = .returned (.tryAcquire 16) .success then
      (.internal, { heartbeat with lock := lock }, .testing)
    else (.returned (some .noavle), { heartbeat with lock := lock }, .idle)

/-- The next step of `mcmchHeartbeatProcessIfAvaible`. -/
def processStep (main monitor : ℕ) (heartbeat : McmchHeartbeat) :
    HeartbeatStage → Option (HeartbeatEvent × McmchHeartbeat × HeartbeatStage)
  | .idle => none
  | .acquiring tries => some (tryAcquire main monitor tries heartbeat)
  | .testing =>
    some (.internal, heartbeat,
      if hasFlag (heartbeat.flags.setWidth 32) available then dropFrom heartbeat 0 else .refusing)
  | .refusing =>
    some (.returned (some .notImplemented),
      { heartbeat with lock := (mcmchMonitorLockRelease main monitor heartbeat.lock).2 }, .idle)
  | .scanning state =>
    some (.internal, heartbeat,
      dropAt (scanStep occupied 32 heartbeat.bitmapLength heartbeat.bitmap state))
  | .dropping slot =>
    some (.dropped slot,
      { heartbeat with bitmap := mcmpBitmapDisableBit heartbeat.bitmap 0 slot },
      dropFrom heartbeat (slot + 1))
  | .clearing =>
    some (.internal,
      { heartbeat with
        flags := (clearFlag (heartbeat.flags.setWidth 32) available).setWidth 8 }, .releasing)
  | .releasing =>
    some (.returned none,
      { heartbeat with lock := (mcmchMonitorLockRelease main monitor heartbeat.lock).2 }, .idle)

/-- The handler and the threads that process a heartbeat. -/
def heartbeatMachine (handler : PlataformHandler Act Own) (main : ℕ) :
    Machine (HeartbeatCommand Act) McmchHeartbeat (HeartbeatThread Own) HeartbeatEvent
  | .handle act, heartbeat, .handler own =>
    (handler.step act heartbeat own).map fun (heartbeat, own) ↦
      (.internal, heartbeat, .handler own)
  | .processIfAvaible, heartbeat, .caller monitor .idle =>
    some (.called, heartbeat, .caller monitor (.acquiring 0))
  | .advance, heartbeat, .caller monitor stage =>
    (processStep main monitor heartbeat stage).map fun (event, heartbeat, stage) ↦
      (event, heartbeat, .caller monitor stage)
  | _, _, _ => none

/-- A heartbeat with its parties, before any of them has made a step. -/
def startedHeartbeat (handler : PlataformHandler Act Own) (mcmchmonitor : ℕ → ℕ)
    (heartbeat : McmchHeartbeat) :
    Config HeartbeatParty McmchHeartbeat (HeartbeatThread Own) :=
  ⟨heartbeat, fun
    | .handler => .handler handler.start
    | .caller thread => .caller (mcmchmonitor thread) .idle⟩

/-- What a call gives: the clients that it drops, and its status. -/
inductive HeartbeatResult
  | dropped (slot : ℕ)
  | returned (status : Option Mcmpst)
  deriving DecidableEq, Repr

def result : HeartbeatEvent → Option HeartbeatResult
  | .dropped slot => some (.dropped slot)
  | .returned status => some (.returned status)
  | _ => none

/-- The results of the calls that a schedule makes, or `none` when it cannot be carried out. -/
def results (handler : PlataformHandler Act Own) (main : ℕ) (mcmchmonitor : ℕ → ℕ)
    (heartbeat : McmchHeartbeat) (schedule : List (HeartbeatParty × HeartbeatCommand Act)) :
    Option (List (HeartbeatParty × HeartbeatResult)) :=
  (play (heartbeatMachine handler main) anyStep schedule []
    (startedHeartbeat handler mcmchmonitor heartbeat)).map fun final ↦ observed result final.1

/-- The heartbeats that are made of two blocks are the same for their users: the lock is free in
both, and every schedule gives the same results in both. -/
def HeartbeatIndependent (handler : PlataformHandler Act Own) (main : ℕ) (mcmchmonitor : ℕ → ℕ)
    (bitmapLength : ℕ) (first second : HeartbeatBlock) : Prop :=
  ∃ heartbeat heartbeat',
    mcmchHeartbeatCreateInstance (fun _ ↦ some first) bitmapLength = some heartbeat ∧
    mcmchHeartbeatCreateInstance (fun _ ↦ some second) bitmapLength = some heartbeat' ∧
    heartbeat.lock = 0 ∧ heartbeat'.lock = 0 ∧
    ∀ schedule, results handler main mcmchmonitor heartbeat schedule =
      results handler main mcmchmonitor heartbeat' schedule

/-! ### The steps of a call -/

section Steps

variable {main monitor tries : ℕ} {heartbeat heartbeat' : McmchHeartbeat}

theorem tryAcquire_of_free (hlock : heartbeat.lock = 0) :
    tryAcquire main monitor tries heartbeat =
      (.internal, { heartbeat with lock := handle main monitor }, .testing) := by
  simp [tryAcquire, mcmchMonitorLockTryAcquire, mcmchMonitorLockAcquire, hlock]

theorem tryAcquire_of_held (hlock : heartbeat.lock ≠ 0) :
    tryAcquire main monitor tries heartbeat =
      if tries < 16 then (.internal, heartbeat, .acquiring (tries + 1))
      else (.returned (some .noavle), heartbeat, .idle) := by
  by_cases hmore : tries < 16
  · simp [tryAcquire, mcmchMonitorLockTryAcquire, mcmchMonitorLockAcquire, hlock, hmore]
  · simp [tryAcquire, mcmchMonitorLockTryAcquire, mcmchMonitorLockAcquire, hlock, hmore]

/-! ### Two heartbeats whose bitmaps agree -/

/-- The relation of two heartbeats, for a relation of their lock words: the flags are the same, and
so are the bytes of the bitmap. The bytes behind it may differ. -/
structure HeartbeatAgrees (bitmapLength : ℕ) (lockRel : ℕ → ℕ → Prop)
    (heartbeat heartbeat' : McmchHeartbeat) : Prop where
  length_eq : heartbeat.bitmapLength = bitmapLength
  length_eq' : heartbeat'.bitmapLength = bitmapLength
  lock : lockRel heartbeat.lock heartbeat'.lock
  flags : heartbeat.flags = heartbeat'.flags
  bitmap : ∀ i < bitmapLength, heartbeat.bitmap i = heartbeat'.bitmap i

/-- Two threads at one stage, of those that are possible. -/
inductive CallerAgrees (stages : HeartbeatStage → Prop) :
    HeartbeatThread Own → HeartbeatThread Own → Prop
  | handler {own : Own} : CallerAgrees stages (.handler own) (.handler own)
  | caller {monitor : ℕ} {stage : HeartbeatStage} : stages stage →
      CallerAgrees stages (.caller monitor stage) (.caller monitor stage)

/-- A thread reads bytes of the bitmap only. -/
def Reads (bitmapLength : ℕ) : HeartbeatStage → Prop
  | .scanning state => state.Within bitmapLength
  | _ => True

/-- A thread has not got past the lock. -/
def Outside : HeartbeatStage → Prop
  | .idle | .acquiring _ => True
  | _ => False

variable {bitmapLength : ℕ} {lockRel : ℕ → ℕ → Prop} {stages : HeartbeatStage → Prop}

/-- A change of one byte that depends on it alone. -/
theorem update_agrees {bitmap bitmap' : ByteMemory}
    (hsame : ∀ i < bitmapLength, bitmap i = bitmap' i) (j : ℕ) (change : BitVec 8 → BitVec 8) :
    ∀ i < bitmapLength, Function.update bitmap j (change (bitmap j)) i =
      Function.update bitmap' j (change (bitmap' j)) i := by
  intro i hi
  by_cases heq : i = j
  · subst heq
    rw [Function.update_self, Function.update_self, hsame i hi]
  · rw [Function.update_of_ne heq, Function.update_of_ne heq, hsame i hi]

theorem HeartbeatAgrees.sameMarks (h : HeartbeatAgrees bitmapLength lockRel heartbeat heartbeat') :
    SameMarks heartbeat heartbeat' where
  length := h.length_eq.trans h.length_eq'.symm
  flags := h.flags
  bitmap := fun i hi ↦ h.bitmap i (hi.trans_eq h.length_eq)

/-- The handler makes the same steps on two heartbeats that agree. -/
theorem handler_agrees (handler : PlataformHandler Act Own) (act : Act) (own : Own)
    (h : HeartbeatAgrees bitmapLength lockRel heartbeat heartbeat') :
    Option.Rel (fun next next' ↦ HeartbeatAgrees bitmapLength lockRel next.1 next'.1 ∧
        next.2 = next'.2)
      (handler.step act heartbeat own) (handler.step act heartbeat' own) := by
  have hreads := handler.reads act own h.sameMarks
  have hkeeps := @handler.keeps act heartbeat own
  have hkeeps' := @handler.keeps act heartbeat' own
  generalize handler.step act heartbeat own = made at hreads hkeeps ⊢
  generalize handler.step act heartbeat' own = made' at hreads hkeeps' ⊢
  cases hreads with
  | none => exact .none
  | some hboth =>
    obtain ⟨hmarks, hown⟩ := hboth
    obtain ⟨hlength, hlock⟩ := hkeeps rfl
    obtain ⟨hlength', hlock'⟩ := hkeeps' rfl
    refine .some ⟨⟨hlength.trans h.length_eq, hlength'.trans h.length_eq', ?_, hmarks.flags,
      fun i hi ↦ hmarks.bitmap i ?_⟩, hown⟩
    · rw [hlock, hlock']
      exact h.lock
    · rwa [hlength, h.length_eq]

theorem HeartbeatAgrees.disableBit (h : HeartbeatAgrees bitmapLength lockRel heartbeat heartbeat')
    (slot : ℕ) :
    HeartbeatAgrees bitmapLength lockRel
      { heartbeat with bitmap := mcmpBitmapDisableBit heartbeat.bitmap 0 slot }
      { heartbeat' with bitmap := mcmpBitmapDisableBit heartbeat'.bitmap 0 slot } :=
  { h with
    bitmap := update_agrees h.bitmap _ fun byte ↦ (byte.setWidth 32 &&& ~~~bitOf slot).setWidth 8 }

theorem reads_dropAt {result : ScanResult}
    (hresult : ∀ state, result = .more state → state.Within bitmapLength) :
    Reads bitmapLength (dropAt result) := by
  cases result with
  | more state => exact hresult state rfl
  | found slot => trivial
  | missed => trivial

theorem reads_dropFrom (hlength : heartbeat.bitmapLength = bitmapLength) (offset : ℕ) :
    Reads bitmapLength (dropFrom heartbeat offset) := by
  rw [dropFrom, hlength]
  exact reads_dropAt fun _ ↦ ScanState.within_of_startScan

/-- The steps of two calls look alike when the lock words are the same. -/
theorem processStep_agrees {stage : HeartbeatStage} (hstage : Reads bitmapLength stage)
    (h : HeartbeatAgrees bitmapLength Eq heartbeat heartbeat') :
    Option.Rel (Alike result (HeartbeatAgrees bitmapLength Eq)
        fun stage stage' ↦ stage = stage' ∧ Reads bitmapLength stage)
      (processStep main monitor heartbeat stage) (processStep main monitor heartbeat' stage) := by
  cases stage with
  | idle => exact .none
  | acquiring tries =>
    refine .some ?_
    by_cases hfree : heartbeat.lock = 0
    · rw [tryAcquire_of_free hfree, tryAcquire_of_free (h.lock ▸ hfree)]
      exact ⟨rfl, { h with lock := rfl }, rfl, trivial⟩
    · rw [tryAcquire_of_held hfree, tryAcquire_of_held (h.lock ▸ hfree)]
      split
      case isTrue => exact ⟨rfl, h, rfl, trivial⟩
      case isFalse => exact ⟨rfl, h, rfl, trivial⟩
  | testing =>
    refine .some ⟨rfl, h, ?_⟩
    simp only [h.flags]
    split
    case isTrue =>
      refine ⟨?_, reads_dropFrom h.length_eq 0⟩
      rw [dropFrom, dropFrom, h.length_eq, h.length_eq']
    case isFalse => exact ⟨rfl, trivial⟩
  | refusing => exact .some ⟨rfl, { h with lock := by rw [h.lock] }, rfl, trivial⟩
  | scanning state =>
    refine .some ⟨rfl, h, ?_⟩
    have hscan : scanStep occupied 32 bitmapLength heartbeat.bitmap state =
        scanStep occupied 32 bitmapLength heartbeat'.bitmap state := hstage.scanStep_eq h.bitmap
    simp only [h.length_eq, h.length_eq', hscan]
    exact ⟨trivial, reads_dropAt fun _ ↦ ScanState.within_of_scanStep⟩
  | dropping slot =>
    refine .some ⟨rfl, h.disableBit slot, ?_, reads_dropFrom h.length_eq _⟩
    rw [dropFrom, dropFrom, h.length_eq, h.length_eq']
  | clearing => exact .some ⟨rfl, { h with flags := by rw [h.flags] }, rfl, trivial⟩
  | releasing => exact .some ⟨rfl, { h with lock := by rw [h.lock] }, rfl, trivial⟩

/-- No call gets past a lock that nobody has taken and that is not free. -/
theorem processStep_outside {stage : HeartbeatStage} (hstage : Outside stage)
    (h : HeartbeatAgrees bitmapLength (fun lock lock' ↦ lock ≠ 0 ∧ lock' ≠ 0) heartbeat
      heartbeat') :
    Option.Rel (Alike result
        (HeartbeatAgrees bitmapLength fun lock lock' ↦ lock ≠ 0 ∧ lock' ≠ 0)
        fun stage stage' ↦ stage = stage' ∧ Outside stage)
      (processStep main monitor heartbeat stage) (processStep main monitor heartbeat' stage) := by
  cases stage with
  | idle => exact .none
  | acquiring tries =>
    refine .some ?_
    rw [tryAcquire_of_held h.lock.1, tryAcquire_of_held h.lock.2]
    split
    case isTrue => exact ⟨rfl, h, rfl, trivial⟩
    case isFalse => exact ⟨rfl, h, rfl, trivial⟩
  | _ => exact hstage.elim

/-- The steps of two parties look alike when those of two calls do. -/
theorem heartbeatMachine_agrees (handler : PlataformHandler Act Own)
    (hstart : stages (.acquiring 0))
    (hprocess : ∀ monitor heartbeat heartbeat' stage, stages stage →
      HeartbeatAgrees bitmapLength lockRel heartbeat heartbeat' →
      Option.Rel (Alike result (HeartbeatAgrees bitmapLength lockRel)
          fun stage stage' ↦ stage = stage' ∧ stages stage)
        (processStep main monitor heartbeat stage) (processStep main monitor heartbeat' stage))
    (command : HeartbeatCommand Act)
    (h : HeartbeatAgrees bitmapLength lockRel heartbeat heartbeat')
    {thread thread' : HeartbeatThread Own} (hthread : CallerAgrees stages thread thread') :
    Option.Rel (Alike result (HeartbeatAgrees bitmapLength lockRel) (CallerAgrees stages))
      (heartbeatMachine handler main command heartbeat thread)
      (heartbeatMachine handler main command heartbeat' thread') := by
  cases hthread with
  | @handler own =>
    cases command with
    | handle act =>
      have hsteps := handler_agrees handler act own h
      simp only [heartbeatMachine]
      generalize handler.step act heartbeat own = made at hsteps ⊢
      generalize handler.step act heartbeat' own = made' at hsteps ⊢
      cases hsteps with
      | none => exact .none
      | @some next next' hnext =>
        obtain ⟨hshared, hown⟩ := hnext
        obtain ⟨after, own⟩ := next
        obtain rfl : own = next'.2 := hown
        exact .some ⟨rfl, hshared, .handler⟩
    | _ => exact .none
  | @caller monitor stage hstage =>
    cases command with
    | processIfAvaible =>
      cases stage with
      | idle => exact .some ⟨rfl, h, .caller hstart⟩
      | _ => exact .none
    | advance =>
      apply Alike.map _ _ (hprocess monitor _ _ stage hstage h)
      rintro stage _ ⟨rfl, hstage⟩
      exact .caller hstage
    | _ => exact .none

end Steps

/-! ### The blocks that make no difference -/

/-- The heartbeat of a block. -/
def freshHeartbeat (bitmapLength : ℕ) (block : HeartbeatBlock) : McmchHeartbeat :=
  ⟨bitmapLength, block.lock, 0, mcmpBitmapCleanOrder block.bitmap 0 bitmapLength⟩

section Blocks

variable (handler : PlataformHandler Act Own) (main : ℕ) (mcmchmonitor : ℕ → ℕ)
variable {bitmapLength : ℕ} {first second : HeartbeatBlock}

theorem heartbeatAgrees_freshHeartbeat {lockRel : ℕ → ℕ → Prop}
    (hlock : lockRel first.lock second.lock) :
    HeartbeatAgrees bitmapLength lockRel (freshHeartbeat bitmapLength first)
      (freshHeartbeat bitmapLength second) where
  length_eq := rfl
  length_eq' := rfl
  lock := hlock
  flags := rfl
  bitmap := by
    intro i hi
    have hinside : i < 0 + bitmapLength := by omega
    show overwrite first.bitmap 0 bitmapLength (fun _ ↦ 0#8) i =
      overwrite second.bitmap 0 bitmapLength (fun _ ↦ 0#8) i
    rw [overwrite_inside (Nat.zero_le i) hinside, overwrite_inside (Nat.zero_le i) hinside]

/-- A thread calls `mcmchHeartbeatProcessIfAvaible` and makes three steps: enough for a call that
takes the lock at once, too few for one that gives up. -/
def processOnce : List (HeartbeatParty × HeartbeatCommand Act) :=
  [(.caller 0, .processIfAvaible), (.caller 0, .advance), (.caller 0, .advance),
    (.caller 0, .advance)]

/-- The four steps, when the three of the call are known. -/
theorem results_processOnce {heartbeat heartbeat₁ heartbeat₂ heartbeat₃ : McmchHeartbeat}
    {event₁ event₂ event₃ : HeartbeatEvent} {stage₁ stage₂ stage₃ : HeartbeatStage}
    (hfirst : processStep main (mcmchmonitor 0) heartbeat (.acquiring 0) =
      some (event₁, heartbeat₁, stage₁))
    (hsecond : processStep main (mcmchmonitor 0) heartbeat₁ stage₁ =
      some (event₂, heartbeat₂, stage₂))
    (hthird : processStep main (mcmchmonitor 0) heartbeat₂ stage₂ =
      some (event₃, heartbeat₃, stage₃)) :
    results handler main mcmchmonitor heartbeat processOnce = some (observed result
      [(.caller 0, .called), (.caller 0, event₁), (.caller 0, event₂), (.caller 0, event₃)]) := by
  have hcall : heartbeatMachine handler main .processIfAvaible heartbeat
      (.caller (mcmchmonitor 0) .idle) =
        some (.called, heartbeat, .caller (mcmchmonitor 0) (.acquiring 0)) := rfl
  have hadvance {config : Config HeartbeatParty McmchHeartbeat (HeartbeatThread Own)}
      {after : McmchHeartbeat} {event : HeartbeatEvent} {stage stage' : HeartbeatStage}
      (hthread : config.threads (.caller 0) = .caller (mcmchmonitor 0) stage)
      (hstep : processStep main (mcmchmonitor 0) config.shared stage =
        some (event, after, stage')) :
      heartbeatMachine handler main .advance config.shared (config.threads (.caller 0)) =
        some (event, after, .caller (mcmchmonitor 0) stage') := by
    rw [hthread]
    exact congrArg (Option.map _) hstep
  rw [results, processOnce, play_cons hcall,
    play_cons (hadvance (Config.advance_threads_self _ _ _ _) hfirst),
    play_cons (hadvance (Config.advance_threads_self _ _ _ _) hsecond),
    play_cons (hadvance (Config.advance_threads_self _ _ _ _) hthird)]
  rfl

theorem results_processOnce_of_free {heartbeat : McmchHeartbeat} (hlock : heartbeat.lock = 0)
    (hflags : heartbeat.flags = 0) :
    results handler main mcmchmonitor heartbeat processOnce =
      some [(.caller 0, .returned (some .notImplemented))] := by
  have hclear : hasFlag (heartbeat.flags.setWidth 32) available = false := by
    rw [hflags]
    decide
  have hfirst : processStep main (mcmchmonitor 0) heartbeat (.acquiring 0) =
      some (.internal, { heartbeat with lock := handle main (mcmchmonitor 0) }, .testing) :=
    congrArg some (tryAcquire_of_free hlock)
  have hsecond : processStep main (mcmchmonitor 0)
      { heartbeat with lock := handle main (mcmchmonitor 0) } .testing =
        some (.internal, { heartbeat with lock := handle main (mcmchmonitor 0) }, .refusing) := by
    simp only [processStep, hclear, Bool.false_eq_true, if_false]
  exact results_processOnce handler main mcmchmonitor hfirst hsecond rfl

theorem results_processOnce_of_held {heartbeat : McmchHeartbeat} (hlock : heartbeat.lock ≠ 0) :
    results handler main mcmchmonitor heartbeat processOnce = some [] := by
  have htry (tries : ℕ) (hmore : tries < 16) :
      processStep main (mcmchmonitor 0) heartbeat (.acquiring tries) =
        some (.internal, heartbeat, .acquiring (tries + 1)) := by
    rw [processStep, tryAcquire_of_held hlock, if_pos hmore]
  exact results_processOnce handler main mcmchmonitor (htry 0 (by decide)) (htry 1 (by decide))
    (htry 2 (by decide))

/-- Two blocks give the same results exactly when the lock is free in both or in none of them. -/
theorem results_eq_iff :
    (∀ schedule, results handler main mcmchmonitor (freshHeartbeat bitmapLength first) schedule =
        results handler main mcmchmonitor (freshHeartbeat bitmapLength second) schedule) ↔
      (first.lock = 0 ↔ second.lock = 0) := by
  constructor
  · intro hsame
    have hsame := hsame processOnce
    by_cases hfirst : first.lock = 0 <;> by_cases hsecond : second.lock = 0
    · exact iff_of_true hfirst hsecond
    · rw [results_processOnce_of_free _ _ _ hfirst rfl, results_processOnce_of_held _ _ _ hsecond]
        at hsame
      simp at hsame
    · rw [results_processOnce_of_held _ _ _ hfirst, results_processOnce_of_free _ _ _ hsecond rfl]
        at hsame
      simp at hsame
    · exact iff_of_false hfirst hsecond
  · intro hsame schedule
    by_cases hfirst : first.lock = 0
    · have hlock : first.lock = second.lock := hfirst.trans (hsame.mp hfirst).symm
      apply play_observed result (HeartbeatAgrees bitmapLength Eq)
        (CallerAgrees (Reads bitmapLength)) _ schedule rfl (heartbeatAgrees_freshHeartbeat hlock)
      · intro party
        cases party with
        | handler => exact .handler
        | caller thread => exact .caller trivial
      · intro command _ _ _ _ hshared hthread
        exact heartbeatMachine_agrees handler trivial (fun _ _ _ _ ↦ processStep_agrees) command
          hshared hthread
    · have hlock : first.lock ≠ 0 ∧ second.lock ≠ 0 := ⟨hfirst, mt hsame.mpr hfirst⟩
      apply play_observed result
        (HeartbeatAgrees bitmapLength fun lock lock' ↦ lock ≠ 0 ∧ lock' ≠ 0)
        (CallerAgrees Outside) _ schedule rfl (heartbeatAgrees_freshHeartbeat hlock)
      · intro party
        cases party with
        | handler => exact .handler
        | caller thread => exact .caller trivial
      · intro command _ _ _ _ hshared hthread
        exact heartbeatMachine_agrees handler trivial (fun _ _ _ _ ↦ processStep_outside) command
          hshared hthread

theorem heartbeatIndependent_iff :
    HeartbeatIndependent handler main mcmchmonitor bitmapLength first second ↔
      first.lock = 0 ∧ second.lock = 0 := by
  constructor
  · rintro ⟨_, _, hfirst, hsecond, hfree, hfree', -⟩
    cases hfirst
    cases hsecond
    exact ⟨hfree, hfree'⟩
  · rintro ⟨hfirst, hsecond⟩
    exact ⟨freshHeartbeat bitmapLength first, freshHeartbeat bitmapLength second, rfl, rfl, hfirst,
      hsecond, (results_eq_iff handler main mcmchmonitor).mpr (iff_of_true hfirst hsecond)⟩

end Blocks

/-- The steps of `mcmchHeartbeatRuntineHandler`. -/
inductive RuntineStep
  | mark (slot : ℕ)
  | setAvailable
  deriving DecidableEq, Repr

/-- A handler that marks slots and sets the flag, as `mcmchHeartbeatRuntineHandler` does. -/
def runtineHandler : PlataformHandler RuntineStep Unit where
  start := ()
  step := fun act heartbeat own ↦
    match act with
    | .mark slot =>
      some ({ heartbeat with bitmap := mcmpBitmapEnableBit heartbeat.bitmap 0 slot }, own)
    | .setAvailable =>
      some ({ heartbeat with
        flags := (setFlag (heartbeat.flags.setWidth 32) available).setWidth 8 }, own)
  keeps := by
    rintro (slot | _) heartbeat own next hstep
    · cases hstep
      exact ⟨rfl, rfl⟩
    · cases hstep
      exact ⟨rfl, rfl⟩
  reads := by
    rintro (slot | _) heartbeat heartbeat' own h
    · exact .some ⟨⟨h.length, h.flags, update_agrees h.bitmap _ fun byte ↦
        (byte.setWidth 32 ||| bitOf slot).setWidth 8⟩, rfl⟩
    · exact .some ⟨⟨h.length, by rw [h.flags], h.bitmap⟩, rfl⟩

/-- The handler marks the first slot and sets the flag, and a thread processes the heartbeat. -/
def markAndProcess : List (HeartbeatParty × HeartbeatCommand RuntineStep) :=
  [(.handler, .handle (.mark 0)), (.handler, .handle .setAvailable),
    (.caller 0, .processIfAvaible)] ++ List.replicate 7 (.caller 0, .advance)

end Mcmp.Server.Heartbeat
