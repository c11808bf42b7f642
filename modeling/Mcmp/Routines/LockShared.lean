import Mcmp.Routines.Lock
import Mcmp.Utilities.BitmapScanSteps

/-!
# Threads that create locks

`mcmchLockCreate` of lock.c with the static registry, called by any number of threads, with one step
for each atomic load of its scan and each atomic access of its claim. No lock is destroyed.

Neither half of a try is safe on its own. The scan is not a snapshot: the free entry that it finds
may be taken before the claim. The compare-exchange of the claim is on the whole byte, so it also
fails when a neighbouring entry is taken. But a bit of the registry is only ever set, and each of
these failures is then the doing of a creation that has succeeded since the scan of the try loaded
the byte. A thread that has failed a number of tries is charged that many successes (`Charged`), and
there are no more than 64 of these: the bound of 100 tries is never reached. A scan that finds
nothing has seen every bit set, each at its own moment, and so all of them are set at its end.
-/

set_option autoImplicit false
set_option relaxedAutoImplicit false

namespace Mcmp.Routines.Lock

open Foundation.ByteBits Foundation.Interleaving Utilities

/-! ### The call, one atomic access at a time -/

/-- Where a call is: before a load of its scan or before an access of its claim, after a number of
failed tries. -/
inductive CreateStage
  | scan (tries : ℕ) (state : BitmapScan.ScanState)
  | enable (tries slot : ℕ) (stage : AtomicBitmap.Stage)
  deriving DecidableEq, Repr

/-- A thread outside any call, or inside one. -/
inductive CreateThread
  | idle
  | running (stage : CreateStage)
  deriving DecidableEq, Repr

/-- Which of its two `return` statements a refused call has reached: the one in the loop, after a
scan that found nothing, or the one behind the loop. -/
inductive RefusedBy
  | scan
  | tries
  deriving DecidableEq, Repr

/-- The events: a call starts, makes an access and goes on, or makes its last access and returns. -/
inductive CreateEvent
  | called
  | accessed
  | created (lock : ℕ)
  | refused (status : Mcmpst) (cause : RefusedBy)
  deriving DecidableEq, Repr

/-- A call whose scan has come to a result. -/
def scanned (tries : ℕ) : BitmapScan.ScanResult → CreateEvent × CreateThread
  | .more state => (.accessed, .running (.scan tries state))
  | .found slot => (.accessed, .running (.enable tries slot .load))
  | .missed => (.refused .overflow .scan, .idle)

/-- The head of the loop. -/
def tryFrom (tries : ℕ) : CreateEvent × CreateThread :=
  if tries < 100 then scanned tries (BitmapScan.startScan 0 slotsStaticSize)
  else (.refused .overflow .tries, .idle)

variable (statics : Statics)

/-- The next step of a call. -/
def createStep (memory : ByteMemory) : CreateStage → CreateEvent × ByteMemory × CreateThread
  | .scan tries state =>
    let (event, thread) := scanned tries (BitmapScan.scanStep BitmapScan.avaible 64 slotsStaticSize
      (bytesFrom memory statics.slots) state)
    (event, memory, thread)
  | .enable tries slot stage =>
    match AtomicBitmap.callStep memory (.tryEnableBit (8 * statics.slots + slot)) stage with
    | (_, memory, .running _ stage) => (.accessed, memory, .running (.enable tries slot stage))
    | (event, memory, .idle) =>
      if event.status = some .success then (.created (statics.entry slot), memory, .idle)
      else
        let (event, thread) := tryFrom (tries + 1)
        (event, memory, thread)

/-- What a thread can be told to do: start a call when it is idle, or go on with the one it is
in. -/
inductive CreateCommand
  | create
  | advance
  deriving DecidableEq, Repr

/-- The threads that create locks. A call makes no access before its first scan. -/
def createMachine : Machine CreateCommand ByteMemory CreateThread CreateEvent
  | .create, memory, .idle => some (.called, memory, (tryFrom 0).2)
  | .advance, memory, .running stage => some (createStep statics memory stage)
  | _, _, _ => none

/-- The runs of any number of threads from a memory. -/
abbrev CreateRun {ι : Type*} [DecidableEq ι] (memory : ByteMemory) :=
  Run (createMachine statics).program anyStep
    (⟨memory, fun _ ↦ .idle⟩ : Config ι ByteMemory CreateThread)

/-- The handle that an event returns. -/
def CreateEvent.lock : CreateEvent → Option ℕ
  | .created lock => some lock
  | _ => none

/-- The handles that were returned, in order. -/
def createdLocks {ι : Type*} (history : List (ι × CreateEvent)) : List ℕ :=
  history.filterMap fun entry ↦ entry.2.lock

/-! ### The charge of a thread -/

variable {statics} {memory memory' : ByteMemory} {n : ℕ}

/-- What a thread knows after `n` creations have succeeded: those that made its tries fail are among
them, and the bits that its scan has passed are set. In a claim, one more creation has succeeded
when the access is going to fail. -/
def Charged (statics : Statics) (n : ℕ) (memory : ByteMemory) : CreateThread → Prop
  | .idle => True
  | .running (.scan tries state) =>
    tries ≤ n ∧ state.Within slotsStaticSize ∧ ∀ slot < state.position, taken statics memory slot
  | .running (.enable tries slot .load) =>
    slot < registriesStaticSize ∧ tries ≤ n ∧ (taken statics memory slot = true → tries < n)
  | .running (.enable tries slot (.compareExchange byteval)) =>
    slot < registriesStaticSize ∧ byteval.getLsbD ((8 * statics.slots + slot) % 8) = false ∧
      tries ≤ n ∧ (memory ((8 * statics.slots + slot) / 8) ≠ byteval → tries < n)

/-- A creation by another thread is one more success, and takes no bit back. -/
theorem Charged.of_created {thread : CreateThread} (h : Charged statics n memory thread)
    (htaken : ∀ slot, taken statics memory slot = true → taken statics memory' slot = true) :
    Charged statics (n + 1) memory' thread := by
  cases thread with
  | idle => trivial
  | running stage =>
    cases stage with
    | scan tries state =>
      obtain ⟨htries, hwithin, hpassed⟩ := h
      exact ⟨htries.trans (Nat.le_succ n), hwithin, fun slot hslot ↦ htaken _ (hpassed slot hslot)⟩
    | enable tries slot stage =>
      cases stage with
      | load =>
        obtain ⟨hslot, htries, -⟩ := h
        exact ⟨hslot, htries.trans (Nat.le_succ n), fun _ ↦ Nat.lt_succ_of_le htries⟩
      | compareExchange byteval =>
        obtain ⟨hslot, hclear, htries, -⟩ := h
        exact ⟨hslot, hclear, htries.trans (Nat.le_succ n), fun _ ↦ Nat.lt_succ_of_le htries⟩

theorem charged_tryFrom {tries : ℕ} (htries : tries ≤ n) (hn : n ≤ registriesStaticSize) :
    (tryFrom tries).1 = .accessed ∧ Charged statics n memory (tryFrom tries).2 := by
  have hsize : registriesStaticSize = 64 := rfl
  have hmore : tryFrom tries = (.accessed, .running (.scan tries (.first 0))) := if_pos (by omega)
  rw [hmore]
  exact ⟨rfl, htries, Nat.zero_lt_succ 7, fun slot hslot ↦ absurd hslot (Nat.not_lt_zero slot)⟩

/-- What a step of a charged thread can do, after at most 64 creations. It changes nothing, the
thread stays charged, and a refused call has come to the end of its scan with every entry taken; or
it takes a free entry and returns it. -/
structure Waits (statics : Statics) (n : ℕ) (memory : ByteMemory) (event : CreateEvent)
    (memory' : ByteMemory) (thread' : CreateThread) : Prop where
  memory_eq : memory' = memory
  charged : Charged statics n memory thread'
  lock_eq : event.lock = none
  refused : ∀ status cause, event = .refused status cause → status = .overflow ∧ cause = .scan ∧
    ∀ slot < registriesStaticSize, taken statics memory slot = true

structure Takes (statics : Statics) (memory : ByteMemory) (event : CreateEvent)
    (memory' : ByteMemory) (thread' : CreateThread) (slot : ℕ) : Prop where
  slot_lt : slot < registriesStaticSize
  free : taken statics memory slot = false
  event_eq : event = .created (statics.entry slot)
  memory_eq : memory' = setBit memory (8 * statics.slots + slot)
  thread_eq : thread' = .idle

/-- A load of a scan. -/
theorem waits_scanned {tries : ℕ} {state : BitmapScan.ScanState}
    (h : Charged statics n memory (.running (.scan tries state))) :
    Waits statics n memory
      (scanned tries (BitmapScan.scanStep BitmapScan.avaible 64 slotsStaticSize
        (bytesFrom memory statics.slots) state)).1 memory
      (scanned tries (BitmapScan.scanStep BitmapScan.avaible 64 slotsStaticSize
        (bytesFrom memory statics.slots) state)).2 := by
  obtain ⟨htries, hwithin, hpassed⟩ := h
  rcases BitmapScan.scanStep_cases BitmapScan.avaible (show 8 ≤ 64 by decide) slotsStaticSize
    (bytesFrom memory statics.slots) state with ⟨slot, hfound, -, hfree, -⟩ | ⟨i, hscan, hread⟩
  · have hslot := hwithin.found_lt (show 8 ≤ 64 by decide) hfound
    rw [bit_bytesFrom] at hfree
    have hfree' : taken statics memory slot = false := hfree
    rw [hfound]
    exact ⟨rfl, ⟨hslot, htries, by simp [hfree']⟩, rfl, by simp [scanned]⟩
  · have hset (slot : ℕ) (hslot : slot < 8 * i) : taken statics memory slot = true := by
      rcases Nat.lt_or_ge slot state.position with hlt | hle
      · exact hpassed slot hlt
      · have hbit := hread slot hle hslot
        rwa [bit_bytesFrom] at hbit
    rw [hscan]
    by_cases hend : i < slotsStaticSize
    · have hmore : BitmapScan.scanAt slotsStaticSize i = .more (.chunk i) := if_pos hend
      rw [hmore]
      exact ⟨rfl, ⟨htries, hend, hset⟩, rfl, by simp [scanned]⟩
    · have hmissed : BitmapScan.scanAt slotsStaticSize i = .missed := if_neg hend
      rw [hmissed]
      refine ⟨rfl, trivial, rfl, ?_⟩
      intro status cause hevent
      simp only [scanned, CreateEvent.refused.injEq] at hevent
      obtain ⟨rfl, rfl⟩ := hevent
      have hbytes : 8 * slotsStaticSize = registriesStaticSize := rfl
      exact ⟨rfl, rfl, fun slot hslot ↦ hset slot (by omega)⟩

/-- A failed try. -/
theorem waits_tryFrom {tries : ℕ} (htries : tries < n) (hn : n ≤ registriesStaticSize) :
    Waits statics n memory (tryFrom (tries + 1)).1 memory (tryFrom (tries + 1)).2 := by
  obtain ⟨hevent, hcharged⟩ := @charged_tryFrom statics memory n _ htries hn
  exact ⟨rfl, hcharged, by rw [hevent]; rfl, by simp [hevent]⟩

theorem createStep_cases {stage : CreateStage} (h : Charged statics n memory (.running stage))
    (hn : n ≤ registriesStaticSize) {event : CreateEvent} {thread' : CreateThread}
    (hstep : createStep statics memory stage = (event, memory', thread')) :
    Waits statics n memory event memory' thread' ∨
      ∃ slot, Takes statics memory event memory' thread' slot := by
  cases stage with
  | scan tries state =>
    simp only [createStep, Prod.mk.injEq] at hstep
    obtain ⟨rfl, rfl, rfl⟩ := hstep
    exact Or.inl (waits_scanned h)
  | enable tries slot stage =>
    cases stage with
    | load =>
      obtain ⟨hslot, htries, hcharge⟩ := h
      cases hbit : taken statics memory slot with
      | true =>
        rw [createStep, AtomicBitmap.callStep_tryEnableBit_of_set hbit] at hstep
        simp only [AtomicBitmap.BitEvent.status, Option.some.injEq, reduceCtorEq, if_false,
          Prod.mk.injEq] at hstep
        obtain ⟨rfl, rfl, rfl⟩ := hstep
        exact Or.inl (waits_tryFrom (hcharge hbit) hn)
      | false =>
        rw [createStep, AtomicBitmap.callStep_tryEnableBit_of_clear hbit] at hstep
        simp only [Prod.mk.injEq] at hstep
        obtain ⟨rfl, rfl, rfl⟩ := hstep
        exact Or.inl ⟨rfl, ⟨hslot, hbit, htries, fun hne ↦ absurd rfl hne⟩, rfl, by simp⟩
    | compareExchange byteval =>
      obtain ⟨hslot, hclear, htries, hcharge⟩ := h
      by_cases hsame : memory ((8 * statics.slots + slot) / 8) = byteval
      · -- the bit is still clear, because the whole byte is the loaded one
        subst hsame
        obtain ⟨after, hcall⟩ :=
          AtomicBitmap.callStep_tryEnableBit_of_eq memory (8 * statics.slots + slot)
        rw [createStep, hcall] at hstep
        simp only [AtomicBitmap.BitEvent.status, if_true, Prod.mk.injEq] at hstep
        obtain ⟨rfl, rfl, rfl⟩ := hstep
        exact Or.inr ⟨slot, hslot, hclear, rfl, rfl, rfl⟩
      · rw [createStep, AtomicBitmap.callStep_tryEnableBit_of_ne hsame] at hstep
        simp only [AtomicBitmap.BitEvent.status, Option.some.injEq, reduceCtorEq, if_false,
          Prod.mk.injEq] at hstep
        obtain ⟨rfl, rfl, rfl⟩ := hstep
        exact Or.inl (waits_tryFrom (hcharge hsame) hn)

/-- A step of a thread that is charged. -/
theorem createMachine_cases {thread thread' : CreateThread} {event : CreateEvent}
    (h : Charged statics n memory thread) (hn : n ≤ registriesStaticSize)
    (hstep : (createMachine statics).program memory thread event memory' thread') :
    Waits statics n memory event memory' thread' ∨
      ∃ slot, Takes statics memory event memory' thread' slot := by
  obtain ⟨command, hcommand⟩ := hstep
  cases command with
  | create =>
    cases thread with
    | running _ => simp [createMachine] at hcommand
    | idle =>
      simp only [createMachine, Option.some.injEq, Prod.mk.injEq] at hcommand
      obtain ⟨rfl, rfl, rfl⟩ := hcommand
      exact Or.inl ⟨rfl, (charged_tryFrom (Nat.zero_le n) hn).2, rfl, by simp⟩
  | advance =>
    cases thread with
    | idle => simp [createMachine] at hcommand
    | running stage =>
      simp only [createMachine, Option.some.injEq] at hcommand
      exact createStep_cases h hn hcommand

/-! ### Whole runs -/

section Runs

variable {ι : Type*} {history : List (ι × CreateEvent)} {config : Config ι ByteMemory CreateThread}

/-- The entries that are taken are those that were and those that have been created since, and the
created ones are free entries of the beginning, each once. Every thread is charged. -/
structure Accounted (statics : Statics) (memory : ByteMemory) (history : List (ι × CreateEvent))
    (config : Config ι ByteMemory CreateThread) : Prop where
  taken_iff : ∀ slot < registriesStaticSize, taken statics config.shared slot = true ↔
    taken statics memory slot = true ∨ statics.entry slot ∈ createdLocks history
  nodup : (createdLocks history).Nodup
  fresh : ∀ lock ∈ createdLocks history,
    ∃ slot < registriesStaticSize, lock = statics.entry slot ∧ taken statics memory slot = false
  charged : ∀ thread,
    Charged statics (createdLocks history).length config.shared (config.threads thread)

/-- There are not more creations than entries. -/
theorem Accounted.length_le (h : Accounted statics memory history config) :
    (createdLocks history).length ≤ registriesStaticSize := by
  have hsubset : createdLocks history ⊆ (List.range registriesStaticSize).map statics.entry := by
    intro lock hlock
    obtain ⟨slot, hslot, rfl, -⟩ := h.fresh lock hlock
    exact List.mem_map_of_mem (List.mem_range.mpr hslot)
  have hlength := (h.nodup.subperm hsubset).length_le
  rwa [List.length_map, List.length_range] at hlength

theorem createdLocks_concat (history : List (ι × CreateEvent)) (thread : ι) (event : CreateEvent) :
    createdLocks (history ++ [(thread, event)]) = createdLocks history ++ event.lock.toList := by
  rw [createdLocks, List.filterMap_append]
  cases hlock : event.lock <;> simp [createdLocks, hlock]

variable [DecidableEq ι]

theorem Accounted.step (h : Accounted statics memory history config) {thread : ι}
    {event : CreateEvent} {shared : ByteMemory} {own : CreateThread}
    (hstep : (createMachine statics).program config.shared (config.threads thread) event shared
      own) :
    Accounted statics memory (history ++ [(thread, event)])
      (config.advance thread shared own) := by
  rcases createMachine_cases (h.charged thread) h.length_le hstep with hwaits | ⟨slot, htakes⟩
  · obtain ⟨rfl, hcharged, hlock, -⟩ := hwaits
    have hlocks : createdLocks (history ++ [(thread, event)]) = createdLocks history := by
      rw [createdLocks_concat, hlock, Option.toList_none, List.append_nil]
    refine ⟨?_, ?_, ?_, fun other ↦ ?_⟩
    · rw [hlocks]
      exact h.taken_iff
    · rw [hlocks]
      exact h.nodup
    · rw [hlocks]
      exact h.fresh
    · rw [hlocks]
      by_cases hother : other = thread
      · subst hother
        rwa [Config.advance_threads_self]
      · rw [Config.advance_threads_of_ne _ hother]
        exact h.charged other
  · obtain ⟨hslot, hfree, rfl, rfl, rfl⟩ := htakes
    have hlocks : createdLocks (history ++ [(thread, .created (statics.entry slot))]) =
        createdLocks history ++ [statics.entry slot] := createdLocks_concat ..
    have hbits (other : ℕ) : taken statics (setBit config.shared (8 * statics.slots + slot)) other =
        (taken statics config.shared other || decide (other = slot)) := by
      rw [taken, bit_setBit, taken]
      simp
    have hbefore := mt (h.taken_iff slot hslot).mpr (Bool.eq_false_iff.mp hfree)
    rw [not_or, Bool.not_eq_true] at hbefore
    refine ⟨fun other hother ↦ ?_, ?_, fun lock hlock ↦ ?_, fun other ↦ ?_⟩
    · rw [Config.advance_shared, hbits, hlocks, Bool.or_eq_true, h.taken_iff other hother,
        decide_eq_true_eq, List.mem_append, List.mem_singleton, Statics.entry_inj, or_assoc]
    · rw [hlocks, ← List.concat_eq_append]
      exact h.nodup.concat hbefore.2
    · rw [hlocks, List.mem_append, List.mem_singleton] at hlock
      rcases hlock with hlock | rfl
      · exact h.fresh lock hlock
      · exact ⟨slot, hslot, rfl, hbefore.1⟩
    · rw [hlocks, List.length_append]
      by_cases hother : other = thread
      · subst hother
        rw [Config.advance_threads_self]
        trivial
      · rw [Config.advance_threads_of_ne _ hother]
        apply (h.charged other).of_created
        intro later hlater
        rw [Config.advance_shared, hbits, hlater, Bool.true_or]

theorem accounted_of_run (hrun : CreateRun statics memory history config) :
    Accounted statics memory history config := by
  apply Run.invariant (Accounted statics memory) _ _ hrun
  · exact ⟨by simp [createdLocks], List.nodup_nil, by simp [createdLocks], fun _ ↦ trivial⟩
  · intro history config thread event shared own _ h _ hstep
    exact h.step hstep

/-- Concurrent lock creation. However the threads are interleaved, no two creations return one
entry, and none returns an entry that was taken at the beginning. A call is refused only by a scan
that found nothing, never by the bound on the tries, and when it returns every entry is taken. -/
theorem mcmchLockCreate_concurrent (hrun : CreateRun statics memory history config) :
    (createdLocks history).Nodup ∧
      (∀ lock ∈ createdLocks history, ∃ slot < registriesStaticSize,
        lock = statics.entry slot ∧ taken statics memory slot = false) ∧
      ∀ before thread status cause after config',
        history = before ++ (thread, CreateEvent.refused status cause) :: after →
        CreateRun statics memory (before ++ [(thread, CreateEvent.refused status cause)]) config' →
          status = .overflow ∧ cause = .scan ∧
            ∀ slot < registriesStaticSize, taken statics config'.shared slot = true := by
  have h := accounted_of_run hrun
  refine ⟨h.nodup, h.fresh, ?_⟩
  intro before thread status cause after config' _ hreturned
  obtain ⟨middle, shared, own, hbefore, -, hstep, rfl⟩ := hreturned.last
  have hwhen := accounted_of_run hbefore
  rcases createMachine_cases (hwhen.charged thread) hwhen.length_le hstep with hwaits | htakes
  · obtain ⟨hstatus, hcause, hall⟩ := hwaits.refused status cause rfl
    refine ⟨hstatus, hcause, fun slot hslot ↦ ?_⟩
    rw [Config.advance_shared, hwaits.memory_eq]
    exact hall slot hslot
  · obtain ⟨slot, htakes⟩ := htakes
    cases htakes.event_eq

end Runs

/-- A memory in which the last two entries of the low registry are free. -/
def lastTwoFree : ByteMemory := fun address ↦
  if 8192 ≤ address ∧ address < 8199 then 0xFF#8 else if address = 8199 then 0x3F#8 else 0#8

/-- Three threads find the same entry free. The first one takes it, the second one fails, tries
again and takes the other one, and the third one fails and then finds nothing. -/
theorem mcmchLockCreate_concurrent_three :
    ∃ (history : List (Fin 3 × CreateEvent)) (config : Config (Fin 3) ByteMemory CreateThread),
      CreateRun lowStatics lastTwoFree history config ∧
        createdLocks history = [lowStatics.entry 62, lowStatics.entry 63] ∧
        (createdLocks history).Nodup ∧
        ∀ slot < registriesStaticSize, taken lowStatics config.shared slot = true := by
  obtain ⟨history, config, hrun, hview⟩ := exists_run_of_play_view (createMachine lowStatics)
    anyStep (⟨lastTwoFree, fun _ ↦ .idle⟩ : Config (Fin 3) ByteMemory CreateThread)
    [[(0, .create), (1, .create), (2, .create)], List.replicate 5 (0, .advance),
      List.replicate 5 (1, .advance), List.replicate 5 (2, .advance), [(0, .advance)],
      List.replicate 7 (1, .advance), List.replicate 5 (2, .advance)].flatten
    (fun history _ ↦ (createdLocks history, history.getLast?))
    ([lowStatics.entry 62, lowStatics.entry 63], some (2, .refused .overflow .scan))
    (by decide +kernel)
  obtain ⟨hlocks, hlast⟩ := Prod.mk.inj hview
  obtain ⟨before, rfl⟩ := List.getLast?_eq_some_iff.mp hlast
  obtain ⟨hnodup, -, hrefused⟩ := mcmchLockCreate_concurrent hrun
  obtain ⟨-, -, hall⟩ := hrefused before 2 .overflow .scan [] config rfl hrun
  exact ⟨_, config, hrun, hlocks, hnodup, hall⟩

end Mcmp.Routines.Lock
