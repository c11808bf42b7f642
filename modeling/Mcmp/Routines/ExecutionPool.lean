import Mcmp.Foundation.Fairness
import Mcmp.Foundation.Signals
import Mcmp.Utilities.Bitmap

/-!
# The threads of an execution pool

The two pool.c: a pool is a block with an identifier for each of its threads and a bitmap with a bit
for each. `mcmchExecutionPoolLink` makes the threads, `mcmchExecutionPoolStart` sets the bits and
`mcmchExecutionPoolDestroy` clears them, and each of the two sends a signal to the thread of a bit
behind it. A thread (`__mcmch__priv_pool_routine_entry`) waits for the signal until it finds its bit
set, calls the handler of the routine, and waits for the signal until it finds its bit clear. A
destruction joins each thread before it goes on to the next one, and frees the block at last.

One thread, the owner, makes, starts and destroys the pool. The handlers may wait for the signal
themselves (`mcmchPoolWaitSignal`). A step is one access to the bitmap, one call of the kernel, or
the beginning or the end of a call of the handler. The bits are the single bits of bitmap.c in the
byte memory of the block. Two assumptions are made throughout: `pthread_create` succeeds, whose
result the code does not look at, and the size of the bitmap, which is computed in 32 bits, does not
wrap (`Pool.isSize`).

A thread reads the bit of the index that it finds in its own address, narrowed to `uint16_t`
(`slotOf`), so the threads of a pool with more than 65536 of them share the first 65536 bits. That
index is never beyond the own one, and that is what the invariants need.
-/

set_option autoImplicit false
set_option relaxedAutoImplicit false

namespace Mcmp.Routines.ExecutionPool

open Foundation.ByteBits Foundation.Fairness Foundation.Interleaving Foundation.Signals
  Foundation.WordMemory Utilities.Bitmap

/-! ### The pool -/

/-- A pool in its block: the address of its bitmap and the number of its threads. The size of the
bitmap is computed in 32 bits, and the bitmap ends where the block does. -/
structure Pool where
  bitmap : ℕ
  length : ℕ
  isSize : length + 7 < 2 ^ 32
  fits : bitmap + (length + 7) / 8 ≤ 2 ^ 64

/-- The bytes of the block, how many threads there are, the threads as targets of the signal, and
whether the signal has terminated the process. -/
structure PoolState where
  memory : ByteMemory
  linked : ℕ
  signal : ℕ → Target
  terminated : Bool

/-- The owner of a pool, and the threads of it. -/
inductive PoolParty
  | owner
  | thread (i : ℕ)
  deriving DecidableEq, Repr

/-- Where a thread is: at its entry, before it blocks the signal, before the condition of its first
loop and in the wait of it, before and in the call of the handler, before the condition of its
second loop and in the wait of that, and at its end. -/
inductive ThreadStage
  | entry
  | blocking
  | awaiting
  | waiting
  | calling
  | handling
  | leaving
  | parked
  | ended
  deriving DecidableEq, Repr

/-- Where the owner is: before it makes a thread, outside of the calls, before it sets a bit and
before it sends a signal in a start, before it clears a bit, sends a signal and joins a thread in a
destruction, before it frees the block, and behind all that. -/
inductive OwnerStage
  | linking (i : ℕ)
  | ready
  | enabling (i : ℕ)
  | starting (i : ℕ)
  | disabling (i : ℕ)
  | signalling (i : ℕ)
  | joining (i : ℕ)
  | freeing
  | done
  deriving DecidableEq, Repr

/-- A thread of the pool with its index, or the owner. -/
inductive Actor
  | owner (stage : OwnerStage)
  | thread (i : ℕ) (stage : ThreadStage)
  deriving DecidableEq, Repr

/-- The events of the owner, and those of a thread: it has checked its index or gives up, blocks the
signal, reads its bit in one of the two conditions, wakes, calls the handler and returns from it,
and the handler waits for the signal. -/
inductive PoolEvent
  | linked (i : ℕ)
  | startBegun
  | enabled (i : ℕ)
  | started (i : ℕ)
  | destroyBegun
  | disabled (i : ℕ)
  | signalled (i : ℕ)
  | joined (i : ℕ)
  | freed
  | entered
  | refused
  | blocked
  | awaited (enabled : Bool)
  | woken
  | called
  | waited
  | returned
  | left (enabled : Bool)
  deriving DecidableEq, Repr

/-- What can be told to happen: a party goes on, a wait fails, the handler waits for the signal or
returns, the owner starts or destroys the pool. -/
inductive PoolCommand
  | advance
  | fail
  | wait
  | returns
  | start
  | destroy
  deriving DecidableEq, Repr

/-- `(uint16_t)(act - identifiers)`. -/
def slotOf (i : ℕ) : ℕ := i % 2 ^ 16

namespace PoolState

/-- The pool with another state of one target. -/
def setSignal (state : PoolState) (i : ℕ) (target : Target) : PoolState :=
  { state with signal := Function.update state.signal i target }

/-- `pthread_kill(act->pipeline, SIGUSR1)`. -/
def kill (state : PoolState) (i : ℕ) : PoolState :=
  match (state.signal i).kill with
  | some target => state.setSignal i target
  | none => { state with terminated := true }

end PoolState

namespace Pool

/-- The owner makes the threads from an index on. -/
def linkingFrom (pool : Pool) (i : ℕ) : OwnerStage :=
  if i < pool.length then .linking i else .ready

/-- The owner starts the threads from an index on. -/
def enablingFrom (pool : Pool) (i : ℕ) : OwnerStage :=
  if i < pool.length then .enabling i else .ready

/-- The owner ends the threads from an index on. -/
def disablingFrom (pool : Pool) (i : ℕ) : OwnerStage :=
  if i < pool.length then .disabling i else .freeing

end Pool

/-- The next step of a thread. -/
def poolRoutineEntry (pool : Pool) (state : PoolState) (i : ℕ) :
    PoolCommand → ThreadStage → Option (PoolEvent × Target × ThreadStage)
  | .advance, .entry =>
    if state.linked ≤ i then none
    else if pool.length ≤ slotOf i then some (.refused, (state.signal i).finish, .ended)
    else some (.entered, state.signal i, .blocking)
  | .advance, .blocking => some (.blocked, (state.signal i).block, .awaiting)
  | .advance, .awaiting =>
    if mcmpBitmapIsDisabledBit state.memory pool.bitmap (slotOf i) then
      some (.awaited false, state.signal i, .waiting)
    else some (.awaited true, state.signal i, .calling)
  | .advance, .waiting => (state.signal i).sigwait.map fun target ↦ (.woken, target, .awaiting)
  | .fail, .waiting => some (.woken, state.signal i, .awaiting)
  | .advance, .calling => some (.called, state.signal i, .handling)
  | .wait, .handling => (state.signal i).sigwait.map fun target ↦ (.waited, target, .handling)
  | .returns, .handling => some (.returned, state.signal i, .leaving)
  | .advance, .leaving =>
    if mcmpBitmapIsEnabledBit state.memory pool.bitmap (slotOf i) then
      some (.left true, state.signal i, .parked)
    else some (.left false, (state.signal i).finish, .ended)
  | .advance, .parked => (state.signal i).sigwait.map fun target ↦ (.woken, target, .leaving)
  | .fail, .parked => some (.woken, state.signal i, .leaving)
  | _, _ => none

/-- The next step of the owner in `mcmchExecutionPoolLink`, `mcmchExecutionPoolStart` and
`mcmchExecutionPoolDestroy`. -/
def executionPoolOwner (pool : Pool) (state : PoolState) :
    PoolCommand → OwnerStage → Option (PoolEvent × PoolState × OwnerStage)
  | .advance, .linking i => some (.linked i,
      { state with linked := i + 1 }, pool.linkingFrom (i + 1))
  | .start, .ready => some (.startBegun, state, pool.enablingFrom 0)
  | .advance, .enabling i => some (.enabled i,
      { state with memory := mcmpBitmapEnableBit state.memory pool.bitmap i }, .starting i)
  | .advance, .starting i => some (.started i, state.kill i, pool.enablingFrom (i + 1))
  | .destroy, .ready => some (.destroyBegun, state, pool.disablingFrom 0)
  | .advance, .disabling i => some (.disabled i,
      { state with memory := mcmpBitmapDisableBit state.memory pool.bitmap i }, .signalling i)
  | .advance, .signalling i => some (.signalled i, state.kill i, .joining i)
  | .advance, .joining i =>
    if (state.signal i).ended then some (.joined i, state, pool.disablingFrom (i + 1)) else none
  | .advance, .freeing => some (.freed, state, .done)
  | _, _ => none

/-- The owner and the threads of a pool. Nobody moves when the process is terminated. -/
def poolMachine (pool : Pool) : Machine PoolCommand PoolState Actor PoolEvent :=
  fun command state actor ↦
    if state.terminated then none
    else
      match actor with
      | .owner stage =>
        (executionPoolOwner pool state command stage).map fun (event, state, stage) ↦
          (event, state, .owner stage)
      | .thread i stage =>
        (poolRoutineEntry pool state i command stage).map fun (event, target, stage) ↦
          (event, state.setSignal i target, .thread i stage)

/-- A pool that has just been created in a block with any content, by a thread that blocks the
signal or does not. -/
def mcmchExecutionPoolCreate (pool : Pool) (memory : ByteMemory) (inherited : Bool) :
    Config PoolParty PoolState Actor :=
  ⟨⟨mcmpBitmapCleanOrder memory pool.bitmap ((pool.length + 7) % 2 ^ 32 / 8), 0,
    fun _ ↦ ⟨inherited, false, false⟩, false⟩, fun
      | .owner => .owner (pool.linkingFrom 0)
      | .thread i => .thread i .entry⟩

/-- A history of a pool. -/
abbrev PoolHistory := List (PoolParty × PoolEvent)

/-- A pool between two steps. -/
abbrev PoolConfig := Config PoolParty PoolState Actor

/-- The runs of a pool from its creation. -/
abbrev PoolRun (pool : Pool) (memory : ByteMemory) (inherited : Bool) :=
  Run (poolMachine pool).program anyStep (mcmchExecutionPoolCreate pool memory inherited)

/-! ### What one step does -/

section Steps

variable {pool : Pool} {memory : ByteMemory} {inherited : Bool} {history : PoolHistory}
  {config : PoolConfig} {i j : ℕ}

/-- A thread is at a stage. -/
def ThreadAt (config : PoolConfig) (i : ℕ) (stage : ThreadStage) : Prop :=
  config.threads (.thread i) = .thread i stage

/-- The owner is at a stage. -/
def OwnerAt (config : PoolConfig) (stage : OwnerStage) : Prop :=
  config.threads .owner = .owner stage

/-- The bit of an index in the bitmap of the pool. -/
def Pool.enabled (pool : Pool) (memory : ByteMemory) (k : ℕ) : Bool :=
  mcmpBitmapIsEnabledBit memory pool.bitmap k

/-- The steps of a thread: its event, and what the signal and the thread are after it. -/
inductive ThreadStep (pool : Pool) (state : PoolState) (i : ℕ) :
    ThreadStage → PoolEvent → Target → ThreadStage → Prop
  | entered : i < state.linked → slotOf i < pool.length →
      ThreadStep pool state i .entry .entered (state.signal i) .blocking
  | refused : i < state.linked → pool.length ≤ slotOf i →
      ThreadStep pool state i .entry .refused (state.signal i).finish .ended
  | blocked : ThreadStep pool state i .blocking .blocked (state.signal i).block .awaiting
  | awaits : pool.enabled state.memory (slotOf i) = false →
      ThreadStep pool state i .awaiting (.awaited false) (state.signal i) .waiting
  | passes : pool.enabled state.memory (slotOf i) = true →
      ThreadStep pool state i .awaiting (.awaited true) (state.signal i) .calling
  | woken : (state.signal i).pending = true →
      ThreadStep pool state i .waiting .woken { state.signal i with pending := false } .awaiting
  | failed : ThreadStep pool state i .waiting .woken (state.signal i) .awaiting
  | called : ThreadStep pool state i .calling .called (state.signal i) .handling
  | waited : (state.signal i).pending = true →
      ThreadStep pool state i .handling .waited { state.signal i with pending := false } .handling
  | returned : ThreadStep pool state i .handling .returned (state.signal i) .leaving
  | parks : pool.enabled state.memory (slotOf i) = true →
      ThreadStep pool state i .leaving (.left true) (state.signal i) .parked
  | leaves : pool.enabled state.memory (slotOf i) = false →
      ThreadStep pool state i .leaving (.left false) (state.signal i).finish .ended
  | rewoken : (state.signal i).pending = true →
      ThreadStep pool state i .parked .woken { state.signal i with pending := false } .leaving
  | refailed : ThreadStep pool state i .parked .woken (state.signal i) .leaving

/-- The steps of the owner: its event, and what the pool and the owner are after it. -/
inductive OwnerStep (pool : Pool) (state : PoolState) :
    OwnerStage → PoolEvent → PoolState → OwnerStage → Prop
  | linked (i : ℕ) : OwnerStep pool state (.linking i) (.linked i)
      { state with linked := i + 1 } (pool.linkingFrom (i + 1))
  | startBegun : OwnerStep pool state .ready .startBegun state (pool.enablingFrom 0)
  | enabled (i : ℕ) : OwnerStep pool state (.enabling i) (.enabled i)
      { state with memory := mcmpBitmapEnableBit state.memory pool.bitmap i } (.starting i)
  | started (i : ℕ) : OwnerStep pool state (.starting i) (.started i) (state.kill i)
      (pool.enablingFrom (i + 1))
  | destroyBegun : OwnerStep pool state .ready .destroyBegun state (pool.disablingFrom 0)
  | disabled (i : ℕ) : OwnerStep pool state (.disabling i) (.disabled i)
      { state with memory := mcmpBitmapDisableBit state.memory pool.bitmap i } (.signalling i)
  | signalled (i : ℕ) : OwnerStep pool state (.signalling i) (.signalled i) (state.kill i)
      (.joining i)
  | joined (i : ℕ) : (state.signal i).ended = true →
      OwnerStep pool state (.joining i) (.joined i) state (pool.disablingFrom (i + 1))
  | freed : OwnerStep pool state .freeing .freed state .done

theorem mcmpBitmapIsDisabledBit_eq_not (memory : ByteMemory) (bitmap : ℕ) (idx : ℤ) :
    mcmpBitmapIsDisabledBit memory bitmap idx = !mcmpBitmapIsEnabledBit memory bitmap idx := by
  simp [mcmpBitmapIsDisabledBit, mcmpBitmapIsEnabledBit]

/-- A wait that returns found the signal pending. -/
theorem sigwait_step {stage' : ThreadStage} {target target' : Target} {event event' : PoolEvent}
    {next : ThreadStage}
    (hstep : (target.sigwait.map fun target ↦ (event, target, next)) =
      some (event', target', stage')) :
    target.pending = true ∧ event' = event ∧ target' = { target with pending := false } ∧
      stage' = next := by
  obtain ⟨taken, hwait, hresult⟩ := Option.map_eq_some_iff.mp hstep
  obtain ⟨hpending, rfl⟩ := Target.sigwait_eq_some.mp hwait
  simp only [Prod.mk.injEq] at hresult
  exact ⟨hpending, hresult.1.symm, hresult.2.1.symm, hresult.2.2.symm⟩

/-- `ThreadStep` lists every step of a thread. -/
theorem threadStep_of_eq_some {state : PoolState} {stage stage' : ThreadStage}
    {command : PoolCommand} {event : PoolEvent} {target : Target}
    (hstep : poolRoutineEntry pool state i command stage = some (event, target, stage')) :
    ThreadStep pool state i stage event target stage' := by
  cases stage with
  | entry =>
    cases command <;> simp only [poolRoutineEntry, reduceCtorEq] at hstep
    split_ifs at hstep with hlinked hslot
    · simp only [Option.some.injEq, Prod.mk.injEq] at hstep
      obtain ⟨rfl, rfl, rfl⟩ := hstep
      exact .refused (by omega) hslot
    · simp only [Option.some.injEq, Prod.mk.injEq] at hstep
      obtain ⟨rfl, rfl, rfl⟩ := hstep
      exact .entered (by omega) (by omega)
  | blocking =>
    cases command <;> simp only [poolRoutineEntry, reduceCtorEq, Option.some.injEq,
      Prod.mk.injEq] at hstep
    obtain ⟨rfl, rfl, rfl⟩ := hstep
    exact .blocked
  | awaiting =>
    cases command <;> simp only [poolRoutineEntry, reduceCtorEq,
      mcmpBitmapIsDisabledBit_eq_not] at hstep
    cases hbit : pool.enabled state.memory (slotOf i) with
    | true =>
      rw [Pool.enabled] at hbit
      simp only [hbit, Bool.not_true, Bool.false_eq_true, if_false, Option.some.injEq,
        Prod.mk.injEq] at hstep
      obtain ⟨rfl, rfl, rfl⟩ := hstep
      exact .passes hbit
    | false =>
      rw [Pool.enabled] at hbit
      simp only [hbit, Bool.not_false, if_true, Option.some.injEq, Prod.mk.injEq] at hstep
      obtain ⟨rfl, rfl, rfl⟩ := hstep
      exact .awaits hbit
  | waiting =>
    cases command with
    | advance =>
      obtain ⟨hpending, rfl, rfl, rfl⟩ := sigwait_step hstep
      exact .woken hpending
    | fail =>
      simp only [poolRoutineEntry, Option.some.injEq, Prod.mk.injEq] at hstep
      obtain ⟨rfl, rfl, rfl⟩ := hstep
      exact .failed
    | _ => cases hstep
  | calling =>
    cases command <;> simp only [poolRoutineEntry, reduceCtorEq, Option.some.injEq,
      Prod.mk.injEq] at hstep
    obtain ⟨rfl, rfl, rfl⟩ := hstep
    exact .called
  | handling =>
    cases command with
    | wait =>
      obtain ⟨hpending, rfl, rfl, rfl⟩ := sigwait_step hstep
      exact .waited hpending
    | returns =>
      simp only [poolRoutineEntry, Option.some.injEq, Prod.mk.injEq] at hstep
      obtain ⟨rfl, rfl, rfl⟩ := hstep
      exact .returned
    | _ => cases hstep
  | leaving =>
    cases command <;> simp only [poolRoutineEntry, reduceCtorEq] at hstep
    split_ifs at hstep with hbit
    · simp only [Option.some.injEq, Prod.mk.injEq] at hstep
      obtain ⟨rfl, rfl, rfl⟩ := hstep
      exact .parks hbit
    · simp only [Option.some.injEq, Prod.mk.injEq] at hstep
      obtain ⟨rfl, rfl, rfl⟩ := hstep
      exact .leaves (by simpa [Pool.enabled] using hbit)
  | parked =>
    cases command with
    | advance =>
      obtain ⟨hpending, rfl, rfl, rfl⟩ := sigwait_step hstep
      exact .rewoken hpending
    | fail =>
      simp only [poolRoutineEntry, Option.some.injEq, Prod.mk.injEq] at hstep
      obtain ⟨rfl, rfl, rfl⟩ := hstep
      exact .refailed
    | _ => cases hstep
  | ended => cases command <;> cases hstep

/-- `OwnerStep` lists every step of the owner. -/
theorem ownerStep_of_eq_some {state state' : PoolState} {stage stage' : OwnerStage}
    {command : PoolCommand} {event : PoolEvent}
    (hstep : executionPoolOwner pool state command stage = some (event, state', stage')) :
    OwnerStep pool state stage event state' stage' := by
  cases stage with
  | ready =>
    cases command <;> simp only [executionPoolOwner, reduceCtorEq, Option.some.injEq,
      Prod.mk.injEq] at hstep
    · obtain ⟨rfl, rfl, rfl⟩ := hstep
      exact .startBegun
    · obtain ⟨rfl, rfl, rfl⟩ := hstep
      exact .destroyBegun
  | joining i =>
    cases command <;> simp only [executionPoolOwner, reduceCtorEq] at hstep
    split_ifs at hstep with hended
    simp only [Option.some.injEq, Prod.mk.injEq] at hstep
    obtain ⟨rfl, rfl, rfl⟩ := hstep
    exact .joined i hended
  | done => cases command <;> cases hstep
  | linking i | enabling i | starting i | disabling i | signalling i | freeing =>
    cases command <;> simp only [executionPoolOwner, reduceCtorEq, Option.some.injEq,
      Prod.mk.injEq] at hstep
    obtain ⟨rfl, rfl, rfl⟩ := hstep
    constructor

/-- Every party is the actor of its name. -/
structure Housed (config : PoolConfig) : Prop where
  owner : ∃ stage, OwnerAt config stage
  thread : ∀ i, ∃ stage, ThreadAt config i stage

@[simp] theorem ownerAt_advance_owner {state : PoolState} {stage stage' : OwnerStage} :
    OwnerAt (config.advance .owner state (.owner stage)) stage' ↔ stage = stage' := by
  rw [OwnerAt, Config.advance_threads_self, Actor.owner.injEq]

@[simp] theorem ownerAt_advance_thread {state : PoolState} {actor : Actor} {stage : OwnerStage} :
    OwnerAt (config.advance (.thread i) state actor) stage ↔ OwnerAt config stage := by
  rw [OwnerAt, Config.advance_threads_of_ne _ (by simp), OwnerAt]

@[simp] theorem threadAt_advance_owner {state : PoolState} {actor : Actor} {stage : ThreadStage} :
    ThreadAt (config.advance .owner state actor) i stage ↔ ThreadAt config i stage := by
  rw [ThreadAt, Config.advance_threads_of_ne _ (by simp), ThreadAt]

@[simp] theorem threadAt_advance_self {state : PoolState} {stage stage' : ThreadStage} :
    ThreadAt (config.advance (.thread i) state (.thread i stage)) i stage' ↔ stage = stage' := by
  rw [ThreadAt, Config.advance_threads_self, Actor.thread.injEq]
  simp

theorem threadAt_advance_of_ne {state : PoolState} {actor : Actor} {stage : ThreadStage}
    (hne : j ≠ i) :
    ThreadAt (config.advance (.thread i) state actor) j stage ↔ ThreadAt config j stage := by
  rw [ThreadAt, Config.advance_threads_of_ne _ (by simpa using hne), ThreadAt]

/-- A thread is at one stage at a time. -/
theorem ThreadAt.iff {stage stage' : ThreadStage} (hat : ThreadAt config i stage) :
    ThreadAt config i stage' ↔ stage = stage' := by
  rw [ThreadAt] at hat ⊢
  simp [hat]

theorem OwnerAt.iff {stage stage' : OwnerStage} (hat : OwnerAt config stage) :
    OwnerAt config stage' ↔ stage = stage' := by
  rw [OwnerAt] at hat ⊢
  simp [hat]

/-- The step of a party is a step of the owner or of a thread. -/
theorem poolStep_of_program (hhoused : Housed config) {party : PoolParty} {event : PoolEvent}
    {state : PoolState} {actor : Actor}
    (hstep : (poolMachine pool).program config.shared (config.threads party) event state actor) :
    config.shared.terminated = false ∧
      ((∃ stage stage', party = .owner ∧ OwnerAt config stage ∧ actor = .owner stage' ∧
          OwnerStep pool config.shared stage event state stage') ∨
        ∃ i stage target stage', party = .thread i ∧ ThreadAt config i stage ∧
          state = config.shared.setSignal i target ∧ actor = .thread i stage' ∧
          ThreadStep pool config.shared i stage event target stage') := by
  obtain ⟨command, hcommand⟩ := hstep
  unfold poolMachine at hcommand
  cases hterminated : config.shared.terminated with
  | true => simp [hterminated] at hcommand
  | false =>
    refine ⟨rfl, ?_⟩
    simp only [hterminated, Bool.false_eq_true, if_false] at hcommand
    cases party with
    | owner =>
      obtain ⟨stage, hat⟩ := hhoused.owner
      have hactor := hat
      rw [OwnerAt] at hactor
      simp only [hactor] at hcommand
      obtain ⟨next, hnext, hresult⟩ := Option.map_eq_some_iff.mp hcommand
      simp only [Prod.mk.injEq] at hresult
      obtain ⟨rfl, rfl, rfl⟩ := hresult
      exact Or.inl ⟨stage, _, rfl, hat, rfl, ownerStep_of_eq_some hnext⟩
    | thread i =>
      obtain ⟨stage, hat⟩ := hhoused.thread i
      have hactor := hat
      rw [ThreadAt] at hactor
      simp only [hactor] at hcommand
      obtain ⟨next, hnext, hresult⟩ := Option.map_eq_some_iff.mp hcommand
      simp only [Prod.mk.injEq] at hresult
      obtain ⟨rfl, rfl, rfl⟩ := hresult
      exact Or.inr ⟨i, stage, _, _, rfl, hat, rfl, rfl, threadStep_of_eq_some hnext⟩

theorem housed_of_run (hrun : PoolRun pool memory inherited history config) : Housed config := by
  refine hrun.invariant (fun _ config ↦ Housed config) ?_ ?_
  · exact ⟨⟨pool.linkingFrom 0, rfl⟩, fun _ ↦ ⟨.entry, rfl⟩⟩
  intro history config party event state actor _ hhoused _ hprogram
  obtain ⟨-, ⟨_, stage', rfl, -, rfl, -⟩ | ⟨i, _, _, stage', rfl, -, -, rfl, -⟩⟩ :=
    poolStep_of_program hhoused hprogram
  · exact ⟨⟨stage', by simp⟩, fun j ↦ by simpa using hhoused.thread j⟩
  · refine ⟨by simpa using hhoused.owner, fun j ↦ ?_⟩
    by_cases hj : j = i
    · subst hj
      exact ⟨stage', by simp⟩
    · simpa only [threadAt_advance_of_ne hj] using hhoused.thread j

/-- The induction rule of the runs of a pool, with the steps of the owner and those of the
threads. -/
theorem pool_invariant (property : PoolHistory → PoolConfig → Prop)
    (hstart : property [] (mcmchExecutionPoolCreate pool memory inherited))
    (howner : ∀ {history : PoolHistory} {config : PoolConfig} {stage stage' : OwnerStage}
      {event : PoolEvent} {state : PoolState}, PoolRun pool memory inherited history config →
      config.shared.terminated = false → property history config → OwnerAt config stage →
      OwnerStep pool config.shared stage event state stage' →
      property (history ++ [(.owner, event)]) (config.advance .owner state (.owner stage')))
    (hthread : ∀ {history : PoolHistory} {config : PoolConfig} {i : ℕ} {stage stage' : ThreadStage}
      {event : PoolEvent} {target : Target}, PoolRun pool memory inherited history config →
      config.shared.terminated = false → property history config → ThreadAt config i stage →
      ThreadStep pool config.shared i stage event target stage' →
      property (history ++ [(.thread i, event)])
        (config.advance (.thread i) (config.shared.setSignal i target) (.thread i stage')))
    (hrun : PoolRun pool memory inherited history config) : property history config := by
  have hboth := hrun.invariant
    (fun history config ↦ PoolRun pool memory inherited history config ∧ property history config)
    ⟨.start, hstart⟩ ?_
  · exact hboth.2
  intro history config party event state actor hpast ⟨_, hproperty⟩ hguard hprogram
  refine ⟨hpast.step hguard hprogram, ?_⟩
  obtain ⟨hgoes, ⟨stage, stage', rfl, hat, rfl, hstep⟩ |
    ⟨i, stage, target, stage', rfl, hat, rfl, rfl, hstep⟩⟩ :=
    poolStep_of_program (housed_of_run hpast) hprogram
  · exact howner hpast hgoes hproperty hat hstep
  · exact hthread hpast hgoes hproperty hat hstep

end Steps

end Mcmp.Routines.ExecutionPool
