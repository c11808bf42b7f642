import Mathlib.Data.Finset.Insert
import Mathlib.Data.Set.Card
import Mathlib.Order.Interval.Finset.Nat
import Mcmp.Foundation.Interleaving
import Mcmp.Foundation.WordMemory
import Mcmp.Status
import Mcmp.Utilities.Bitmap
import Mcmp.Utilities.BitmapScan

/-!
# The monitor registry

`mcmchMonitorCreate`, `mcmchMonitorStart` and `mcmchMonitorDestroy` of monitor.c. The registry is a
static array of records and a bitmap that says which of them are taken. The number of records is a
macro that a build can set, so it is a parameter here, and it need not be a multiple of eight: the
bits behind the last record are never set, because a creation refuses a slot from the number of
records on before it sets a bit.

The handle of a monitor is the address of its record. A creation adds a slot to the address of the
array, and a destruction subtracts the address of the array from the handle, so a destruction gives
back the slot that the creation took.

A start creates the thread of a monitor, and `pthread_create` stores its id in the record. A
destruction sends the thread of that id a signal and joins it. Both are undefined when no thread
that can be joined has the id, and a creation leaves in the record what was there before. So a
monitor that was not started since its creation cannot be destroyed
(`not_mcmchMonitorDestroy_neverStarted`), though the heartbeat does that with its own. In the runs
in which only monitors that have a thread are destroyed, the threads of different monitors are
different, and `monitorRegistry` says what each call does in every state that is reached. That a
join returns is an assumption of its own, `hjoins`: it waits until the handler of the user has
returned.

Pools are refused by the creation, and the function that would create one is empty.
-/

set_option autoImplicit false
set_option relaxedAutoImplicit false

namespace Mcmp.Routines.MonitorRegistry

open Foundation.ByteBits Foundation.Interleaving Foundation.WordMemory Utilities

/-! ### The registry -/

/-- The two static arrays: `staticMonitors` records of 40 bytes, and the bytes of the bitmap. They
are distinct objects of the program, so they end inside the address space and do not overlap. -/
structure MonitorStatics where
  staticMonitors : ℕ
  monitors : ℕ
  slots : ℕ
  monitors_fit : monitors + 40 * staticMonitors < 2 ^ 64
  slots_fit : slots + (staticMonitors + 7) / 8 < 2 ^ 64
  disjoint : monitors + 40 * staticMonitors ≤ slots ∨ slots + (staticMonitors + 7) / 8 ≤ monitors

variable (statics : MonitorStatics)

/-- `MCMCHMONITOR_STATIC_SLOTS`, the bytes of the bitmap. -/
def MonitorStatics.staticSlots : ℕ := (statics.staticMonitors + 7) / 8

/-- `monitors + slot`, the handle of a record. -/
def MonitorStatics.entry (slot : ℕ) : ℕ := statics.monitors + 40 * slot

/-- The offset of `pool` in a record. -/
def poolOffset : ℕ := 0

/-- The offset of `pipeline`. -/
def pipelineOffset : ℕ := 8

/-- The offset of `ctx`. -/
def ctxOffset : ℕ := 16

/-- The offset of `running`, an `int` with four bytes of padding behind it. -/
def runningOffset : ℕ := 24

/-- The offset of `beat`. -/
def beatOffset : ℕ := 32

/-- The stores of a creation to the record of a monitor. -/
def storeRecord (memory : ByteMemory) (monitor : ℕ) (handler ctx : BitVec 64) : ByteMemory :=
  let memory := storeWord memory (monitor + poolOffset) 0
  let memory := storeWord memory (monitor + ctxOffset) ctx
  let memory := storeWord memory (monitor + beatOffset) handler
  storeInt memory (monitor + runningOffset) 0

/-- Returns a status, the handle that is stored through the first parameter on success, and the
memory. The slot is compared with the number of records as a `size_t`. -/
def mcmchMonitorCreateStatic (handler ctx : BitVec 64) (memory : ByteMemory) :
    Mcmpst × Option ℕ × ByteMemory :=
  let slot := (BitmapScan.mcmpBitmapNextAvaibleBit (bytesFrom memory statics.slots) 0
    statics.staticSlots).result
  if statics.staticMonitors ≤ (slot % 2 ^ 64).toNat ∨ slot = -1 then (.overflow, none, memory)
  else
    let monitor := statics.entry slot.toNat
    let memory := storeRecord memory monitor handler ctx
    (.success, some monitor, Bitmap.mcmpBitmapEnableBit memory statics.slots slot)

def mcmchMonitorCreate (pool : ℕ) (handler ctx : BitVec 64) (memory : ByteMemory) :
    Mcmpst × Option ℕ × ByteMemory :=
  if pool = 0 then mcmchMonitorCreateStatic statics handler ctx memory
  else (.notImplemented, none, memory)

/-- The memory of the process, and the ids of its threads that can be joined. -/
structure RegistryState where
  memory : ByteMemory
  joinable : Finset (BitVec 64)

/-- What `pthread_create` does: it creates a thread and stores its id, or it fails and leaves
anything in the place of the id. -/
inductive ThreadCreation
  | thread (pipeline : BitVec 64)
  | failed (left : BitVec 64)
  deriving DecidableEq, Repr

/-- Starts the thread of a monitor. What `pthread_create` returns is dropped. -/
def mcmchMonitorStart (monitor : ℕ) (creation : ThreadCreation) (state : RegistryState) :
    RegistryState :=
  let memory := storeInt state.memory (monitor + runningOffset) 1
  match creation with
  | .thread pipeline =>
    ⟨storeWord memory (monitor + pipelineOffset) pipeline, insert pipeline state.joinable⟩
  | .failed left => ⟨storeWord memory (monitor + pipelineOffset) left, state.joinable⟩

/-- Why a destruction does not come to its end: no thread that can be joined has the id in the
record, and then `pthread_kill` and `pthread_join` are undefined, or the join does not return. -/
inductive JoinFault
  | noThread
  | neverReturns
  deriving DecidableEq, Repr

/-- Stops the thread of a monitor, and gives its slot back when it is not of a pool. `joins` says
of which threads `pthread_join` returns; after that no thread has the id. -/
def mcmchMonitorDestroy (joins : BitVec 64 → Bool) (monitor : ℕ) (state : RegistryState) :
    Except JoinFault (Mcmpst × RegistryState) :=
  let memory := storeInt state.memory (monitor + runningOffset) 0
  let pipeline := wordAt memory (monitor + pipelineOffset)
  if pipeline ∉ state.joinable then .error .noThread
  else if joins pipeline = false then .error .neverReturns
  else
    .ok (.success,
      { memory :=
          if wordAt memory (monitor + poolOffset) = 0 then
            Bitmap.mcmpBitmapDisableBit memory statics.slots
              (((monitor : ℤ) - statics.monitors) / 40)
          else memory
        joinable := state.joinable.erase pipeline })

/-! ### Its users -/

/-- A call of the program. -/
inductive MonitorCommand
  | create (handler ctx : BitVec 64)
  | start (monitor : ℕ) (creation : ThreadCreation)
  | destroy (monitor : ℕ)
  deriving DecidableEq, Repr

/-- What a call does. A start returns nothing, but it has created a thread or not. -/
inductive MonitorEvent
  | created (monitor : ℕ)
  | refused (status : Mcmpst)
  | started (monitor : ℕ)
  | startFailed (monitor : ℕ)
  | destroyed (monitor : ℕ)
  deriving DecidableEq, Repr

/-- A thread that calls the three functions, with no pool. A thread that is created gets an id that
no thread has that can be joined. -/
def monitorMachine (joins : BitVec 64 → Bool) :
    Machine MonitorCommand RegistryState Unit MonitorEvent
  | .create handler ctx, state, _ =>
    match mcmchMonitorCreate statics 0 handler ctx state.memory with
    | (_, some monitor, memory) => some (.created monitor, { state with memory := memory }, ())
    | (status, none, memory) => some (.refused status, { state with memory := memory }, ())
  | .start monitor (.thread pipeline), state, _ =>
    if pipeline ∈ state.joinable then none
    else some (.started monitor, mcmchMonitorStart monitor (.thread pipeline) state, ())
  | .start monitor (.failed left), state, _ =>
    some (.startFailed monitor, mcmchMonitorStart monitor (.failed left) state, ())
  | .destroy monitor, state, _ =>
    match mcmchMonitorDestroy statics joins monitor state with
    | .ok (_, state) => some (.destroyed monitor, state, ())
    | .error _ => none

/-- The event is the creation of a handle. -/
def Created (monitor : ℕ) (_ : Unit) (event : MonitorEvent) : Prop := event = .created monitor

/-- The event is the destruction of a handle. -/
def Destroyed (monitor : ℕ) (_ : Unit) (event : MonitorEvent) : Prop := event = .destroyed monitor

/-- A start has created the thread of a handle. -/
def Started (monitor : ℕ) (_ : Unit) (event : MonitorEvent) : Prop := event = .started monitor

/-- The event leaves the record of a handle without the id of a thread. -/
def Threadless (monitor : ℕ) (_ : Unit) (event : MonitorEvent) : Prop :=
  event = .created monitor ∨ event = .startFailed monitor

instance (monitor : ℕ) (thread : Unit) (event : MonitorEvent) :
    Decidable (Created monitor thread event) :=
  inferInstanceAs (Decidable (event = _))

instance (monitor : ℕ) (thread : Unit) (event : MonitorEvent) :
    Decidable (Destroyed monitor thread event) :=
  inferInstanceAs (Decidable (event = _))

instance (monitor : ℕ) (thread : Unit) (event : MonitorEvent) :
    Decidable (Started monitor thread event) :=
  inferInstanceAs (Decidable (event = _))

instance (monitor : ℕ) (thread : Unit) (event : MonitorEvent) :
    Decidable (Threadless monitor thread event) :=
  inferInstanceAs (Decidable (_ ∨ _))

/-- A monitor is live: it was created and has not been destroyed since. -/
def Live (history : List (Unit × MonitorEvent)) (monitor : ℕ) : Prop :=
  Since history (Created monitor) (Destroyed monitor)

instance (history : List (Unit × MonitorEvent)) (monitor : ℕ) : Decidable (Live history monitor) :=
  inferInstanceAs (Decidable (Since history (Created monitor) (Destroyed monitor)))

/-- A monitor has a thread: it is live, and a start has created a thread since its creation, after
which no start has failed. -/
def HasThread (history : List (Unit × MonitorEvent)) (monitor : ℕ) : Prop :=
  Live history monitor ∧ Since history (Started monitor) (Threadless monitor)

instance (history : List (Unit × MonitorEvent)) (monitor : ℕ) :
    Decidable (HasThread history monitor) :=
  inferInstanceAs (Decidable (_ ∧ Since history (Started monitor) (Threadless monitor)))

/-- Only live monitors are started and destroyed. -/
def UsesLive : Guard Unit RegistryState Unit MonitorEvent := fun history _ _ event ↦
  match event with
  | .started monitor => Live history monitor
  | .startFailed monitor => Live history monitor
  | .destroyed monitor => Live history monitor
  | _ => True

/-- Only live monitors are started, and only monitors that have a thread are destroyed. -/
def UsesStarted : Guard Unit RegistryState Unit MonitorEvent := fun history _ _ event ↦
  match event with
  | .started monitor => Live history monitor
  | .startFailed monitor => Live history monitor
  | .destroyed monitor => HasThread history monitor
  | _ => True

instance (history : List (Unit × MonitorEvent)) (config : Config Unit RegistryState Unit)
    (thread : Unit) (event : MonitorEvent) : Decidable (UsesLive history config thread event) := by
  unfold UsesLive
  split <;> infer_instance

instance (history : List (Unit × MonitorEvent)) (config : Config Unit RegistryState Unit)
    (thread : Unit) (event : MonitorEvent) :
    Decidable (UsesStarted history config thread event) := by
  unfold UsesStarted
  split <;> infer_instance

/-- The runs of the users of a registry under a guard. -/
abbrev MonitorRun (joins : BitVec 64 → Bool) (guard : Guard Unit RegistryState Unit MonitorEvent)
    (state : RegistryState) :=
  Run (monitorMachine statics joins).program guard ⟨state, fun _ ↦ ()⟩

/-- The bit of a record. -/
def taken (memory : ByteMemory) (slot : ℕ) : Bool := bit memory (8 * statics.slots + slot)

/-- From one memory to the next the record of a slot is initialised, its bit is set, and nothing
else changes. -/
structure Initialises (slot : ℕ) (handler ctx : BitVec 64) (memory memory' : ByteMemory) :
    Prop where
  pool : wordAt memory' (statics.entry slot + poolOffset) = 0
  pipeline : wordAt memory' (statics.entry slot + pipelineOffset) =
    wordAt memory (statics.entry slot + pipelineOffset)
  ctx : wordAt memory' (statics.entry slot + ctxOffset) = ctx
  running : intAt memory' (statics.entry slot + runningOffset) = 0
  beat : wordAt memory' (statics.entry slot + beatOffset) = handler
  taken : ∀ other < 8 * statics.staticSlots,
    taken statics memory' other = (taken statics memory other || decide (other = slot))
  frame : ∀ i, (i < statics.entry slot ∨ statics.entry slot + 40 ≤ i) →
    (i < statics.slots ∨ statics.slots + statics.staticSlots ≤ i) → memory' i = memory i

/-- From one state to the next the bit of a slot is cleared, its monitor no longer runs, and its
thread is joined, and nothing else changes. -/
structure Frees (slot : ℕ) (state state' : RegistryState) : Prop where
  running : intAt state'.memory (statics.entry slot + runningOffset) = 0
  taken : ∀ other < 8 * statics.staticSlots, taken statics state'.memory other =
    (taken statics state.memory other && !decide (other = slot))
  frame : ∀ i, (i < statics.entry slot + runningOffset ∨
    statics.entry slot + runningOffset + 4 ≤ i) →
    (i < statics.slots ∨ statics.slots + statics.staticSlots ≤ i) →
      state'.memory i = state.memory i
  joinable : state'.joinable =
    state.joinable.erase (wordAt state.memory (statics.entry slot + pipelineOffset))

/-- What holds of the registry after a history: the bits that are set are those of the live
monitors, which are records; a creation is refused exactly when all records are live, and then
changes nothing, and otherwise it initialises a record that is not live; the threads of the monitors
that have one can be joined and are different; a destruction of such a monitor frees its record. -/
structure RegistryContract (joins : BitVec 64 → Bool) (history : List (Unit × MonitorEvent))
    (state : RegistryState) : Prop where
  taken_iff : ∀ slot < 8 * statics.staticSlots, taken statics state.memory slot = true ↔
    slot < statics.staticMonitors ∧ Live history (statics.entry slot)
  entry : ∀ monitor, Live history monitor →
    ∃ slot < statics.staticMonitors, monitor = statics.entry slot
  overflow_iff : ∀ handler ctx,
    mcmchMonitorCreate statics 0 handler ctx state.memory = (.overflow, none, state.memory) ↔
      {monitor | Live history monitor}.ncard = statics.staticMonitors
  created : ∀ handler ctx, {monitor | Live history monitor}.ncard ≠ statics.staticMonitors →
    ∃ slot < statics.staticMonitors, ∃ memory', ¬ Live history (statics.entry slot) ∧
      mcmchMonitorCreate statics 0 handler ctx state.memory =
        (.success, some (statics.entry slot), memory') ∧
      Initialises statics slot handler ctx state.memory memory'
  joinable : ∀ monitor, HasThread history monitor →
    wordAt state.memory (monitor + pipelineOffset) ∈ state.joinable
  apart : ∀ monitor other, HasThread history monitor → HasThread history other →
    wordAt state.memory (monitor + pipelineOffset) =
      wordAt state.memory (other + pipelineOffset) → monitor = other
  destroyed : ∀ slot, HasThread history (statics.entry slot) → ∃ state',
    mcmchMonitorDestroy statics joins (statics.entry slot) state = .ok (.success, state') ∧
      Frees statics slot state state'

/-! ### What the calls do to the memory -/

section Calls

variable {statics : MonitorStatics} {memory : ByteMemory} {monitor slot i : ℕ}
  {handler ctx : BitVec 64} {joins : BitVec 64 → Bool} {state state' : RegistryState}

/-- The array ends before its size overflows, so the bitmap is short enough for a scan. -/
theorem MonitorStatics.scans (statics : MonitorStatics) : 8 * statics.staticSlots < 2 ^ 63 := by
  have hfit := statics.monitors_fit
  unfold MonitorStatics.staticSlots
  omega

/-- No byte is one of a record and one of the bitmap. -/
theorem MonitorStatics.apart (hslot : slot < statics.staticMonitors)
    (hin : statics.entry slot ≤ i ∧ i < statics.entry slot + 40) :
    i < statics.slots ∨ statics.slots + statics.staticSlots ≤ i := by
  have hdisjoint := statics.disjoint
  unfold MonitorStatics.entry at hin
  unfold MonitorStatics.staticSlots
  omega

theorem storeRecord_outside (hout : i < monitor ∨ monitor + 40 ≤ i) :
    storeRecord memory monitor handler ctx i = memory i := by
  unfold storeRecord poolOffset ctxOffset beatOffset runningOffset
  rw [storeInt_outside (by omega), storeWord_outside (by omega), storeWord_outside (by omega),
    storeWord_outside (by omega)]

/-- A word of a record that the store of `running` does not touch. -/
theorem wordAt_storeInt_running {offset : ℕ} (hout : offset + 8 ≤ runningOffset ∨
    runningOffset + 4 ≤ offset) (value : BitVec 32) :
    wordAt (storeInt memory (monitor + runningOffset) value) (monitor + offset) =
      wordAt memory (monitor + offset) :=
  wordAt_overwrite (by omega)

/-- A word of a record that the store of another word does not touch. -/
theorem wordAt_storeWord_field {offset field : ℕ} (hout : offset + 8 ≤ field ∨ field + 8 ≤ offset)
    (word : BitVec 64) :
    wordAt (storeWord memory (monitor + field) word) (monitor + offset) =
      wordAt memory (monitor + offset) :=
  wordAt_storeWord_of_disjoint (by omega)

theorem wordAt_storeRecord_pool :
    wordAt (storeRecord memory monitor handler ctx) (monitor + poolOffset) = 0 := by
  rw [storeRecord, wordAt_storeInt_running (by decide), wordAt_storeWord_field (by decide),
    wordAt_storeWord_field (by decide), wordAt_storeWord]

theorem wordAt_storeRecord_pipeline :
    wordAt (storeRecord memory monitor handler ctx) (monitor + pipelineOffset) =
      wordAt memory (monitor + pipelineOffset) := by
  rw [storeRecord, wordAt_storeInt_running (by decide), wordAt_storeWord_field (by decide),
    wordAt_storeWord_field (by decide), wordAt_storeWord_field (by decide)]

theorem wordAt_storeRecord_ctx :
    wordAt (storeRecord memory monitor handler ctx) (monitor + ctxOffset) = ctx := by
  rw [storeRecord, wordAt_storeInt_running (by decide), wordAt_storeWord_field (by decide),
    wordAt_storeWord]

theorem wordAt_storeRecord_beat :
    wordAt (storeRecord memory monitor handler ctx) (monitor + beatOffset) = handler := by
  rw [storeRecord, wordAt_storeInt_running (by decide), wordAt_storeWord]

theorem intAt_storeRecord_running :
    intAt (storeRecord memory monitor handler ctx) (monitor + runningOffset) = 0 :=
  intAt_storeInt _ _ _

/-- Changing a bit of the bitmap leaves every other byte as it is. -/
theorem setBit_outside (hslot : slot < 8 * statics.staticSlots)
    (hout : i < statics.slots ∨ statics.slots + statics.staticSlots ≤ i) :
    setBit memory (8 * statics.slots + slot) i = memory i :=
  Function.update_of_ne (by omega) _ _

theorem clearBit_outside (hslot : slot < 8 * statics.staticSlots)
    (hout : i < statics.slots ∨ statics.slots + statics.staticSlots ≤ i) :
    clearBit memory (8 * statics.slots + slot) i = memory i :=
  Function.update_of_ne (by omega) _ _

/-- The bits depend on the bytes of the bitmap only. -/
theorem taken_congr {memory' : ByteMemory} (hslot : slot < 8 * statics.staticSlots)
    (hsame : ∀ i, statics.slots ≤ i → i < statics.slots + statics.staticSlots →
      memory' i = memory i) :
    taken statics memory' slot = taken statics memory slot := by
  rw [taken, taken, bit, bit, hsame _ (by omega) (by omega)]

/-- The bits do not depend on the bytes of a record. -/
theorem taken_of_record {memory' : ByteMemory} {other : ℕ} (hslot : slot < statics.staticMonitors)
    (hother : other < 8 * statics.staticSlots)
    (hsame : ∀ i, (i < statics.entry slot ∨ statics.entry slot + 40 ≤ i) → memory' i = memory i) :
    taken statics memory' other = taken statics memory other := by
  refine taken_congr hother fun i hlow hhigh ↦ hsame i ?_
  by_contra hin
  have hapart := statics.apart hslot (i := i) (by omega)
  omega

theorem slot_lt_bits (hslot : slot < statics.staticMonitors) : slot < 8 * statics.staticSlots := by
  unfold MonitorStatics.staticSlots
  omega

/-- The stores of a creation, with the bit of its slot. -/
theorem initialises_storeRecord (hslot : slot < statics.staticMonitors) (memory : ByteMemory)
    (handler ctx : BitVec 64) :
    Initialises statics slot handler ctx memory (setBit
      (storeRecord memory (statics.entry slot) handler ctx) (8 * statics.slots + slot)) := by
  have hrecord : ∀ i, statics.entry slot ≤ i → i < statics.entry slot + 40 →
      setBit (storeRecord memory (statics.entry slot) handler ctx) (8 * statics.slots + slot) i =
        storeRecord memory (statics.entry slot) handler ctx i := fun i hlow hhigh ↦
    setBit_outside (slot_lt_bits hslot) (statics.apart hslot ⟨hlow, hhigh⟩)
  have hword : ∀ offset, offset + 8 ≤ 40 →
      wordAt (setBit (storeRecord memory (statics.entry slot) handler ctx)
          (8 * statics.slots + slot)) (statics.entry slot + offset) =
        wordAt (storeRecord memory (statics.entry slot) handler ctx)
          (statics.entry slot + offset) := fun offset hoffset ↦
    wordAt_congr fun i hlow hhigh ↦ hrecord i (by omega) (by omega)
  refine ⟨?_, ?_, ?_, ?_, ?_, ?_, ?_⟩
  · rw [hword _ (by decide), wordAt_storeRecord_pool]
  · rw [hword _ (by decide), wordAt_storeRecord_pipeline]
  · rw [hword _ (by decide), wordAt_storeRecord_ctx]
  · rw [intAt_congr fun i hlow hhigh ↦ hrecord i (by omega)
      (hhigh.trans_le (by unfold runningOffset; omega)), intAt_storeRecord_running]
  · rw [hword _ (by decide), wordAt_storeRecord_beat]
  · intro other hother
    have hkept : taken statics (storeRecord memory (statics.entry slot) handler ctx) other =
        taken statics memory other :=
      taken_of_record hslot hother fun i hout ↦ storeRecord_outside hout
    rw [← hkept, taken, bit_setBit, taken]
    simp
  · intro i hrecord hslots
    rw [setBit_outside (slot_lt_bits hslot) hslots, storeRecord_outside hrecord]

/-- A creation finds every record taken, or initialises the lowest one that is not. -/
theorem mcmchMonitorCreate_cases (statics : MonitorStatics) (handler ctx : BitVec 64)
    (memory : ByteMemory) :
    mcmchMonitorCreate statics 0 handler ctx memory = (.overflow, none, memory) ∧
        (∀ slot < statics.staticMonitors, taken statics memory slot = true) ∨
      ∃ slot < statics.staticMonitors, ∃ memory', taken statics memory slot = false ∧
        mcmchMonitorCreate statics 0 handler ctx memory =
          (.success, some (statics.entry slot), memory') ∧
        Initialises statics slot handler ctx memory memory' := by
  have hscan := BitmapScan.nextBit_avaible_cases (bytesFrom memory statics.slots)
    (show 8 ≤ 32 by decide) statics.scans
  have hshort := statics.scans
  have hcount := statics.monitors_fit
  simp only [bit_bytesFrom] at hscan
  rw [mcmchMonitorCreate, if_pos rfl, mcmchMonitorCreateStatic,
    BitmapScan.mcmpBitmapNextAvaibleBit]
  rcases hscan with ⟨hresult, hall⟩ | ⟨slot, hslot, hresult, hclear, hbelow⟩
  · refine Or.inl ⟨?_, fun slot hslot ↦ hall slot (slot_lt_bits hslot)⟩
    simp only [hresult, or_true, if_true]
  · have hunsigned : ((slot : ℤ) % 2 ^ 64).toNat = slot := by omega
    have hfound : ¬ ((slot : ℤ) = -1) := by omega
    by_cases hlast : statics.staticMonitors ≤ slot
    · -- The lowest clear bit is one behind the last record.
      refine Or.inl ⟨?_, fun other hother ↦ hbelow other (hother.trans_le hlast)⟩
      simp only [hresult, hunsigned, hlast, true_or, if_true]
    · have hslot' : slot < statics.staticMonitors := Nat.lt_of_not_le hlast
      have hfits : statics.slots + slot / 8 < 2 ^ 64 := by
        have hslots := statics.slots_fit
        omega
      refine Or.inr ⟨slot, hslot', _, hclear, ?_,
        initialises_storeRecord hslot' memory handler ctx⟩
      simp only [hresult, hunsigned, hlast, hfound, or_self, if_false, Int.toNat_natCast,
        Bitmap.mcmpBitmapEnableBit_natCast hfits]

/-- A destruction of a monitor that is not of a pool maps its handle back to its slot, when there is
a thread to join and the join returns. -/
theorem mcmchMonitorDestroy_cases (joins : BitVec 64 → Bool) (hslot : slot < statics.staticMonitors)
    (hpool : wordAt state.memory (statics.entry slot + poolOffset) = 0) :
    wordAt state.memory (statics.entry slot + pipelineOffset) ∉ state.joinable ∧
        mcmchMonitorDestroy statics joins (statics.entry slot) state = .error .noThread ∨
      joins (wordAt state.memory (statics.entry slot + pipelineOffset)) = false ∧
        mcmchMonitorDestroy statics joins (statics.entry slot) state = .error .neverReturns ∨
      ∃ state', mcmchMonitorDestroy statics joins (statics.entry slot) state =
        .ok (.success, state') ∧ Frees statics slot state state' := by
  have hfits : statics.slots + slot / 8 < 2 ^ 64 := by
    have hslots := statics.slots_fit
    omega
  have hback : ((statics.entry slot : ℤ) - statics.monitors) / 40 = slot := by
    unfold MonitorStatics.entry
    omega
  have hpipeline := @wordAt_storeInt_running state.memory (statics.entry slot) pipelineOffset
    (by decide) 0
  have hpool' := @wordAt_storeInt_running state.memory (statics.entry slot) poolOffset
    (by decide) 0
  unfold mcmchMonitorDestroy
  simp only [hpipeline, hpool', hpool, if_true, hback, Bitmap.mcmpBitmapDisableBit_natCast hfits]
  by_cases hthread : wordAt state.memory (statics.entry slot + pipelineOffset) ∈ state.joinable
  swap
  · exact Or.inl ⟨hthread, if_pos hthread⟩
  cases hjoin : joins (wordAt state.memory (statics.entry slot + pipelineOffset)) with
  | false =>
    refine Or.inr (Or.inl ⟨rfl, ?_⟩)
    rw [if_neg (not_not.mpr hthread), if_pos rfl]
  | true =>
    refine Or.inr (Or.inr ⟨_, by rw [if_neg (not_not.mpr hthread), if_neg (by decide)],
      ?_, fun other hother ↦ ?_, fun i hrecord hslots ↦ ?_, rfl⟩)
    · refine Eq.trans (intAt_congr fun i hlow hhigh ↦ ?_) (intAt_storeInt state.memory _ 0)
      refine clearBit_outside (slot_lt_bits hslot) (statics.apart hslot ?_)
      unfold runningOffset at hlow hhigh
      omega
    · have hkept : taken statics (storeInt state.memory (statics.entry slot + runningOffset) 0)
          other = taken statics state.memory other := taken_of_record hslot hother fun i hout ↦ by
        unfold runningOffset
        exact storeInt_outside (by omega)
      rw [← hkept, taken, bit_clearBit, taken]
      simp
    · exact (clearBit_outside (slot_lt_bits hslot) hslots).trans (storeInt_outside hrecord)

/-- A start changes bytes of the record only, and not its pool. -/
theorem mcmchMonitorStart_outside (creation : ThreadCreation)
    (hout : i < monitor + 8 ∨ monitor + 40 ≤ i) :
    (mcmchMonitorStart monitor creation state).memory i = state.memory i := by
  cases creation with
  | thread pipeline =>
    simp only [mcmchMonitorStart, pipelineOffset, runningOffset]
    rw [storeWord_outside (by omega), storeInt_outside (by omega)]
  | failed left =>
    simp only [mcmchMonitorStart, pipelineOffset, runningOffset]
    rw [storeWord_outside (by omega), storeInt_outside (by omega)]

/-- A step of the program. -/
theorem monitorStep_cases {thread thread' : Unit} {event : MonitorEvent}
    (hstep : (monitorMachine statics joins).program state thread event state' thread') :
    (event = .refused .overflow ∧ state' = state) ∨
    (∃ slot < statics.staticMonitors, ∃ handler ctx, event = .created (statics.entry slot) ∧
      taken statics state.memory slot = false ∧
      Initialises statics slot handler ctx state.memory state'.memory ∧
      state'.joinable = state.joinable) ∨
    (∃ monitor pipeline, event = .started monitor ∧ pipeline ∉ state.joinable ∧
      state' = mcmchMonitorStart monitor (.thread pipeline) state) ∨
    (∃ monitor left, event = .startFailed monitor ∧
      state' = mcmchMonitorStart monitor (.failed left) state) ∨
    ∃ monitor status, event = .destroyed monitor ∧
      mcmchMonitorDestroy statics joins monitor state = .ok (status, state') := by
  obtain ⟨command, hcommand⟩ := hstep
  cases command with
  | create handler ctx =>
    rcases mcmchMonitorCreate_cases statics handler ctx state.memory with ⟨hcreate, -⟩ |
      ⟨slot, hslot, memory'', hclear, hcreate, hinit⟩
    · simp only [monitorMachine, hcreate, Option.some.injEq, Prod.mk.injEq] at hcommand
      obtain ⟨rfl, rfl, -⟩ := hcommand
      exact Or.inl ⟨rfl, rfl⟩
    · simp only [monitorMachine, hcreate, Option.some.injEq, Prod.mk.injEq] at hcommand
      obtain ⟨rfl, rfl, -⟩ := hcommand
      exact Or.inr (Or.inl ⟨slot, hslot, handler, ctx, rfl, hclear, hinit, rfl⟩)
  | start monitor creation =>
    cases creation with
    | thread pipeline =>
      simp only [monitorMachine] at hcommand
      split_ifs at hcommand with hfresh
      simp only [Option.some.injEq, Prod.mk.injEq] at hcommand
      obtain ⟨rfl, rfl, -⟩ := hcommand
      exact Or.inr (Or.inr (Or.inl ⟨monitor, pipeline, rfl, hfresh, rfl⟩))
    | failed left =>
      simp only [monitorMachine, Option.some.injEq, Prod.mk.injEq] at hcommand
      obtain ⟨rfl, rfl, -⟩ := hcommand
      exact Or.inr (Or.inr (Or.inr (Or.inl ⟨monitor, left, rfl, rfl⟩)))
  | destroy monitor =>
    simp only [monitorMachine] at hcommand
    split at hcommand
    · next status state'' hdestroy =>
      simp only [Option.some.injEq, Prod.mk.injEq] at hcommand
      obtain ⟨rfl, rfl, -⟩ := hcommand
      exact Or.inr (Or.inr (Or.inr (Or.inr ⟨monitor, status, rfl, hdestroy⟩)))
    · simp at hcommand

end Calls

/-! ### The bits and the live monitors -/

/-- The invariant of the runs: the bits that are set are those of the live monitors, which are
records that belong to no pool. -/
structure Exact (history : List (Unit × MonitorEvent)) (memory : ByteMemory) : Prop where
  taken_iff : ∀ slot < 8 * statics.staticSlots, taken statics memory slot = true ↔
    slot < statics.staticMonitors ∧ Live history (statics.entry slot)
  entry : ∀ monitor, Live history monitor →
    ∃ slot < statics.staticMonitors, monitor = statics.entry slot
  pool : ∀ monitor, Live history monitor → wordAt memory (monitor + poolOffset) = 0

/-- The invariant of the threads: those of the monitors that have one can be joined and are
different. -/
structure Threaded (history : List (Unit × MonitorEvent)) (state : RegistryState) : Prop where
  joinable : ∀ monitor, HasThread history monitor →
    wordAt state.memory (monitor + pipelineOffset) ∈ state.joinable
  apart : ∀ monitor other, HasThread history monitor → HasThread history other →
    wordAt state.memory (monitor + pipelineOffset) =
      wordAt state.memory (other + pipelineOffset) → monitor = other

section Runs

variable {statics : MonitorStatics} {memory memory' : ByteMemory} {state state' : RegistryState}
  {joins : BitVec 64 → Bool} {history : List (Unit × MonitorEvent)}
  {config : Config Unit RegistryState Unit} {thread thread' : Unit} {event : MonitorEvent}
  {monitor slot other : ℕ} {status : Mcmpst}

theorem MonitorStatics.entry_inj : statics.entry slot = statics.entry other ↔ slot = other := by
  unfold MonitorStatics.entry
  omega

/-- The records of two slots do not overlap. -/
theorem MonitorStatics.entries_apart (hne : slot ≠ other) :
    statics.entry slot + 40 ≤ statics.entry other ∨
      statics.entry other + 40 ≤ statics.entry slot := by
  unfold MonitorStatics.entry
  omega

@[simp] theorem live_created : Live (history ++ [(thread, .created other)]) monitor ↔
    other = monitor ∨ Live history monitor := by
  simp [Live, since_concat, Created, Destroyed]

@[simp] theorem live_refused : Live (history ++ [(thread, .refused status)]) monitor ↔
    Live history monitor := by
  simp [Live, since_concat, Created, Destroyed]

@[simp] theorem live_started : Live (history ++ [(thread, .started other)]) monitor ↔
    Live history monitor := by
  simp [Live, since_concat, Created, Destroyed]

@[simp] theorem live_startFailed : Live (history ++ [(thread, .startFailed other)]) monitor ↔
    Live history monitor := by
  simp [Live, since_concat, Created, Destroyed]

@[simp] theorem live_destroyed : Live (history ++ [(thread, .destroyed other)]) monitor ↔
    Live history monitor ∧ other ≠ monitor := by
  simp [Live, since_concat, Created, Destroyed]

theorem hasThread_created : HasThread (history ++ [(thread, .created other)]) monitor ↔
    HasThread history monitor ∧ other ≠ monitor := by
  simp only [HasThread, live_created, since_concat, Started, Threadless, reduceCtorEq,
    MonitorEvent.created.injEq, or_false, false_or]
  tauto

theorem hasThread_refused : HasThread (history ++ [(thread, .refused status)]) monitor ↔
    HasThread history monitor := by
  simp [HasThread, since_concat, Started, Threadless]

theorem hasThread_started : HasThread (history ++ [(thread, .started other)]) monitor →
    HasThread history monitor ∨ other = monitor := by
  simp only [HasThread, live_started, since_concat, Started, Threadless, reduceCtorEq,
    MonitorEvent.started.injEq, or_false, not_false_eq_true, and_true]
  tauto

theorem hasThread_startFailed : HasThread (history ++ [(thread, .startFailed other)]) monitor ↔
    HasThread history monitor ∧ other ≠ monitor := by
  simp [HasThread, since_concat, Started, Threadless, and_assoc]

theorem hasThread_destroyed : HasThread (history ++ [(thread, .destroyed other)]) monitor ↔
    HasThread history monitor ∧ other ≠ monitor := by
  simp only [HasThread, live_destroyed, since_concat, Started, Threadless, reduceCtorEq, or_false,
    false_or, not_false_eq_true, and_true]
  tauto

/-- A word of a record is as before when the changes are those of the bytes from `low` up to `high`
of a record, and it is of another record or not among them, and of the bitmap. -/
theorem word_kept {low high offset : ℕ} (hother : other < statics.staticMonitors)
    (hoffset : offset + 8 ≤ 40) (hhigh : high ≤ 40)
    (hframe : ∀ i, (i < statics.entry slot + low ∨ statics.entry slot + high ≤ i) →
      (i < statics.slots ∨ statics.slots + statics.staticSlots ≤ i) → memory' i = memory i)
    (hpast : slot = other → offset + 8 ≤ low ∨ high ≤ offset) :
    wordAt memory' (statics.entry other + offset) =
      wordAt memory (statics.entry other + offset) := by
  refine wordAt_congr fun i hbelow habove ↦ ?_
  refine hframe i ?_ (statics.apart hother (by omega))
  by_cases hsame : slot = other
  · have hbeside := hpast hsame
    subst hsame
    omega
  · have hapart := statics.entries_apart hsame
    omega

/-- A record whose bit is clear is not live. -/
theorem Exact.not_live (h : Exact statics history memory) (hslot : slot < statics.staticMonitors)
    (hclear : taken statics memory slot = false) : ¬ Live history (statics.entry slot) := by
  intro hlive
  have hset := (h.taken_iff slot (slot_lt_bits hslot)).mpr ⟨hslot, hlive⟩
  rw [hclear] at hset
  exact Bool.false_ne_true hset

/-- A creation keeps bits and live monitors in agreement. -/
theorem Exact.create {handler ctx : BitVec 64} (h : Exact statics history memory)
    (hslot : slot < statics.staticMonitors) (hclear : taken statics memory slot = false)
    (hinit : Initialises statics slot handler ctx memory memory') :
    Exact statics (history ++ [(thread, .created (statics.entry slot))]) memory' := by
  refine ⟨fun other hother ↦ ?_, fun monitor hlive ↦ ?_, fun monitor hlive ↦ ?_⟩
  · rw [hinit.taken other hother, Bool.or_eq_true, h.taken_iff other hother, decide_eq_true_eq,
      live_created, MonitorStatics.entry_inj]
    constructor
    · rintro (⟨hother', hlive⟩ | rfl)
      · exact ⟨hother', Or.inr hlive⟩
      · exact ⟨hslot, Or.inl rfl⟩
    · rintro ⟨hother', rfl | hlive⟩
      · exact Or.inr rfl
      · exact Or.inl ⟨hother', hlive⟩
  · rcases live_created.mp hlive with rfl | hlive
    · exact ⟨slot, hslot, rfl⟩
    · exact h.entry monitor hlive
  · rcases live_created.mp hlive with rfl | hlive
    · exact hinit.pool
    · obtain ⟨other, hother, rfl⟩ := h.entry monitor hlive
      rw [@word_kept _ memory memory' slot other 0 40 _ hother (by decide) le_rfl hinit.frame
        fun hsame ↦ absurd (hsame ▸ hlive) (h.not_live hslot hclear), h.pool _ hlive]

/-- A start keeps them in agreement. -/
theorem Exact.start (h : Exact statics history state.memory) (hlive : Live history monitor)
    (creation : ThreadCreation)
    (hsame : ∀ other, Live (history ++ [(thread, event)]) other ↔ Live history other) :
    Exact statics (history ++ [(thread, event)])
      (mcmchMonitorStart monitor creation state).memory := by
  obtain ⟨slot, hslot, rfl⟩ := h.entry monitor hlive
  refine ⟨fun other hother ↦ ?_, fun monitor hlive ↦ h.entry monitor ((hsame _).mp hlive),
    fun monitor hlive ↦ ?_⟩
  · rw [hsame, ← h.taken_iff other hother, taken_of_record hslot hother]
    exact fun i hout ↦ mcmchMonitorStart_outside creation (by omega)
  · have hlive' := (hsame _).mp hlive
    obtain ⟨other, hother, rfl⟩ := h.entry monitor hlive'
    have hkept := @word_kept _ state.memory (mcmchMonitorStart _ creation state).memory slot other
      8 40 poolOffset hother (by decide) le_rfl
      (fun i hout _ ↦ mcmchMonitorStart_outside creation hout) fun _ ↦ Or.inl le_rfl
    rw [hkept, h.pool _ hlive']

/-- A destruction keeps them in agreement. -/
theorem Exact.destroy (h : Exact statics history state.memory)
    (hfrees : Frees statics slot state state') :
    Exact statics (history ++ [(thread, .destroyed (statics.entry slot))]) state'.memory := by
  refine ⟨fun other hother ↦ ?_,
    fun monitor hlive ↦ h.entry monitor (live_destroyed.mp hlive).1, fun monitor hlive ↦ ?_⟩
  · rw [hfrees.taken other hother, Bool.and_eq_true, h.taken_iff other hother, live_destroyed,
      Ne, MonitorStatics.entry_inj, Bool.not_eq_true', decide_eq_false_iff_not, and_assoc,
      @eq_comm _ slot]
  · have hlive' := (live_destroyed.mp hlive).1
    obtain ⟨other, hother, rfl⟩ := h.entry monitor hlive'
    rw [@word_kept _ state.memory _ slot other runningOffset (runningOffset + 4) _ hother
      (by decide) (by decide) hfrees.frame fun _ ↦ by decide, h.pool _ hlive']

/-- What a destruction that comes to its end has done to a live monitor. -/
theorem Exact.frees (h : Exact statics history state.memory) (hlive : Live history monitor)
    (hdestroy : mcmchMonitorDestroy statics joins monitor state = .ok (status, state')) :
    ∃ slot < statics.staticMonitors, monitor = statics.entry slot ∧
      Frees statics slot state state' := by
  obtain ⟨slot, hslot, rfl⟩ := h.entry monitor hlive
  refine ⟨slot, hslot, rfl, ?_⟩
  rcases mcmchMonitorDestroy_cases joins hslot (h.pool _ hlive) with ⟨-, hcase⟩ | ⟨-, hcase⟩ |
    ⟨state'', hcase, hfrees⟩
  · simp [hcase] at hdestroy
  · simp [hcase] at hdestroy
  · rw [hcase] at hdestroy
    obtain ⟨-, rfl⟩ := Prod.mk.inj (Except.ok.inj hdestroy)
    exact hfrees

/-- A step keeps bits and live monitors in agreement. -/
theorem Exact.step (h : Exact statics history state.memory)
    (hguard : UsesLive history config thread event)
    (hstep : (monitorMachine statics joins).program state thread event state' thread') :
    Exact statics (history ++ [(thread, event)]) state'.memory := by
  rcases monitorStep_cases hstep with ⟨rfl, rfl⟩ |
    ⟨slot, hslot, handler, ctx, rfl, hclear, hinit, -⟩ | ⟨monitor, pipeline, rfl, -, rfl⟩ |
    ⟨monitor, left, rfl, rfl⟩ | ⟨monitor, status, rfl, hdestroy⟩
  · exact ⟨fun slot hslot ↦ by rw [live_refused, h.taken_iff slot hslot],
      fun monitor hlive ↦ h.entry monitor (live_refused.mp hlive),
      fun monitor hlive ↦ h.pool monitor (live_refused.mp hlive)⟩
  · exact h.create hslot hclear hinit
  · exact h.start hguard _ fun _ ↦ live_started
  · exact h.start hguard _ fun _ ↦ live_startFailed
  · obtain ⟨slot, hslot, rfl, hfrees⟩ := h.frees hguard hdestroy
    exact h.destroy hfrees

/-- The threads stay as they are in a step after which no more monitors have one, and which changes
neither their ids nor the threads that can be joined. -/
theorem Threaded.of_kept (h : Threaded history state)
    (hfewer : ∀ monitor, HasThread (history ++ [(thread, event)]) monitor →
      HasThread history monitor ∧ wordAt state'.memory (monitor + pipelineOffset) =
        wordAt state.memory (monitor + pipelineOffset) ∧
        wordAt state.memory (monitor + pipelineOffset) ∈ state'.joinable) :
    Threaded (history ++ [(thread, event)]) state' where
  joinable monitor hthread := by
    obtain ⟨-, hsame, hjoinable⟩ := hfewer monitor hthread
    rw [hsame]
    exact hjoinable
  apart monitor other hthread hother hsame := by
    obtain ⟨hthread', hkept, -⟩ := hfewer monitor hthread
    obtain ⟨hother', hkept', -⟩ := hfewer other hother
    exact h.apart monitor other hthread' hother' (hkept.symm.trans (hsame.trans hkept'))

/-- A start of another monitor leaves the id of a thread as it is. -/
theorem Exact.start_pipeline (h : Exact statics history state.memory) (hlive : Live history monitor)
    (hother : Live history other) (hne : monitor ≠ other) (creation : ThreadCreation) :
    wordAt (mcmchMonitorStart monitor creation state).memory (other + pipelineOffset) =
      wordAt state.memory (other + pipelineOffset) := by
  obtain ⟨slot, hslot, rfl⟩ := h.entry monitor hlive
  obtain ⟨other, hrecord, rfl⟩ := h.entry other hother
  exact @word_kept _ state.memory (mcmchMonitorStart _ creation state).memory slot other 8 40
    pipelineOffset hrecord (by decide) le_rfl
    (fun i hout _ ↦ mcmchMonitorStart_outside creation hout)
    fun hsame ↦ absurd (congrArg statics.entry hsame) hne

/-- A start that creates a thread gives the monitor one of its own. -/
theorem Threaded.start {pipeline : BitVec 64} (h : Threaded history state)
    (hexact : Exact statics history state.memory) (hlive : Live history monitor)
    (hfresh : pipeline ∉ state.joinable) :
    Threaded (history ++ [(thread, .started monitor)])
      (mcmchMonitorStart monitor (.thread pipeline) state) := by
  have hown : wordAt (mcmchMonitorStart monitor (.thread pipeline) state).memory
      (monitor + pipelineOffset) = pipeline := wordAt_storeWord _ _ _
  have hkept : ∀ other, HasThread (history ++ [(thread, .started monitor)]) other →
      other ≠ monitor → HasThread history other ∧
        wordAt (mcmchMonitorStart monitor (.thread pipeline) state).memory
          (other + pipelineOffset) = wordAt state.memory (other + pipelineOffset) := by
    intro other hthread hne
    have hthread' := (hasThread_started hthread).resolve_right (Ne.symm hne)
    exact ⟨hthread', hexact.start_pipeline hlive hthread'.1 (Ne.symm hne) _⟩
  -- the id of a thread that was there before is not the fresh one
  have hold : ∀ other, HasThread history other →
      wordAt state.memory (other + pipelineOffset) ≠ pipeline := by
    rintro other hthread rfl
    exact hfresh (h.joinable other hthread)
  constructor
  · intro other hthread
    by_cases hne : other = monitor
    · rw [hne, hown]
      exact Finset.mem_insert_self _ _
    · obtain ⟨hthread', hsame⟩ := hkept other hthread hne
      rw [hsame]
      exact Finset.mem_insert_of_mem (h.joinable other hthread')
  · intro first second hfirst hsecond hsame
    by_cases hne : first = monitor
    · by_cases hne' : second = monitor
      · rw [hne, hne']
      · obtain ⟨hthread', hkept'⟩ := hkept second hsecond hne'
        rw [hne, hown, hkept'] at hsame
        exact absurd hsame.symm (hold second hthread')
    · obtain ⟨hthread', hkept'⟩ := hkept first hfirst hne
      by_cases hne' : second = monitor
      · rw [hne', hown, hkept'] at hsame
        exact absurd hsame (hold first hthread')
      · obtain ⟨hthread'', hkept''⟩ := hkept second hsecond hne'
        rw [hkept', hkept''] at hsame
        exact h.apart first second hthread' hthread'' hsame

/-- A step in which only monitors that have a thread are destroyed keeps their threads apart. -/
theorem Threaded.step (h : Threaded history state) (hexact : Exact statics history state.memory)
    (hguard : UsesStarted history config thread event)
    (hstep : (monitorMachine statics joins).program state thread event state' thread') :
    Threaded (history ++ [(thread, event)]) state' := by
  rcases monitorStep_cases hstep with ⟨rfl, rfl⟩ |
    ⟨slot, hslot, handler, ctx, rfl, hclear, hinit, hjoinable⟩ |
    ⟨first, pipeline, rfl, hfresh, rfl⟩ | ⟨first, left, rfl, rfl⟩ | ⟨first, status, rfl, hdestroy⟩
  · exact h.of_kept fun monitor hthread ↦
      ⟨hasThread_refused.mp hthread, rfl, h.joinable monitor (hasThread_refused.mp hthread)⟩
  · refine h.of_kept fun monitor hthread ↦ ?_
    obtain ⟨hthread', hne⟩ := hasThread_created.mp hthread
    obtain ⟨other, hother, rfl⟩ := hexact.entry monitor hthread'.1
    refine ⟨hthread', ?_, hjoinable ▸ h.joinable _ hthread'⟩
    exact @word_kept _ state.memory state'.memory slot other 0 40 _ hother (by decide) le_rfl
      hinit.frame fun hsame ↦ absurd (congrArg statics.entry hsame) hne
  · exact h.start hexact hguard hfresh
  · refine h.of_kept fun monitor hthread ↦ ?_
    obtain ⟨hthread', hne⟩ := hasThread_startFailed.mp hthread
    exact ⟨hthread', hexact.start_pipeline hguard hthread'.1 hne _, h.joinable monitor hthread'⟩
  · obtain ⟨slot, hslot, rfl, hfrees⟩ := hexact.frees hguard.1 hdestroy
    refine h.of_kept fun monitor hthread ↦ ?_
    obtain ⟨hthread', hne⟩ := hasThread_destroyed.mp hthread
    obtain ⟨other, hother, rfl⟩ := hexact.entry monitor hthread'.1
    refine ⟨hthread', ?_, ?_⟩
    · exact @word_kept _ state.memory state'.memory slot other runningOffset (runningOffset + 4) _
        hother (by decide) (by decide) hfrees.frame fun _ ↦ by decide
    · rw [hfrees.joinable]
      refine Finset.mem_erase.mpr ⟨fun hsame ↦ ?_, h.joinable _ hthread'⟩
      exact hne (h.apart _ _ hthread' hguard hsame).symm

theorem usesLive_of_usesStarted (hguard : UsesStarted history config thread event) :
    UsesLive history config thread event := by
  cases event with
  | destroyed monitor => exact hguard.1
  | _ => exact hguard

/-- From the zeroed bitmap on, bits and live monitors agree, and the threads of the monitors that
have one are apart. -/
theorem exact_of_run
    (hzeroed : ∀ slot < 8 * statics.staticSlots, taken statics state.memory slot = false)
    (hrun : MonitorRun statics joins UsesStarted state history config) :
    Exact statics history config.shared.memory ∧ Threaded history config.shared := by
  refine Run.invariant (fun history config ↦ Exact statics history config.shared.memory ∧
    Threaded history config.shared) ?_ ?_ hrun
  · have hnone : ∀ monitor, ¬ Live [] monitor := fun monitor ↦ not_since_nil _ _
    refine ⟨⟨fun slot hslot ↦ ?_, fun monitor hlive ↦ absurd hlive (hnone monitor),
      fun monitor hlive ↦ absurd hlive (hnone monitor)⟩,
      fun monitor hthread ↦ absurd hthread.1 (hnone monitor),
      fun monitor _ hthread ↦ absurd hthread.1 (hnone monitor)⟩
    simp only [hzeroed slot hslot, Bool.false_eq_true, false_iff, not_and]
    exact fun _ ↦ hnone _
  · rintro history config thread event state' thread' - ⟨hexact, hthreaded⟩ hguard hstep
    exact ⟨hexact.step (usesLive_of_usesStarted hguard) hstep, hthreaded.step hexact hguard hstep⟩

/-- All records are live when there are as many live monitors as records. -/
theorem Exact.all_live_iff (h : Exact statics history memory) :
    {monitor | Live history monitor}.ncard = statics.staticMonitors ↔
      ∀ slot < statics.staticMonitors, Live history (statics.entry slot) := by
  have hinj : Function.Injective statics.entry := fun _ _ ↦ MonitorStatics.entry_inj.mp
  have hrecords : (statics.entry '' Set.Iio statics.staticMonitors).ncard =
      statics.staticMonitors := by
    rw [Set.ncard_image_of_injective _ hinj, Set.ncard_eq_toFinset_card']
    simp
  have hfinite : (statics.entry '' Set.Iio statics.staticMonitors).Finite :=
    (Set.finite_Iio _).image _
  have hsubset : {monitor | Live history monitor} ⊆
      statics.entry '' Set.Iio statics.staticMonitors := by
    intro monitor hlive
    obtain ⟨slot, hslot, rfl⟩ := h.entry monitor hlive
    exact ⟨slot, hslot, rfl⟩
  constructor
  · intro hcount slot hslot
    have hsame := Set.eq_of_subset_of_ncard_le hsubset (hrecords.trans hcount.symm).le hfinite
    have hmem : statics.entry slot ∈ {monitor | Live history monitor} :=
      hsame ▸ ⟨slot, hslot, rfl⟩
    exact hmem
  · intro hall
    have hsame : {monitor | Live history monitor} =
        statics.entry '' Set.Iio statics.staticMonitors := by
      refine hsubset.antisymm ?_
      rintro _ ⟨slot, hslot, rfl⟩
      exact hall slot hslot
    rw [hsame, hrecords]

end Runs

/-- A registry of three records at address 4096, with its bitmap behind it. -/
def threeMonitors : MonitorStatics := ⟨3, 4096, 8192, by decide, by decide, by decide⟩

end Mcmp.Routines.MonitorRegistry
