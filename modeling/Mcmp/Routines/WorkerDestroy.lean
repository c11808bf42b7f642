import Mcmp.Routines.MonitorThread
import Mcmp.Routines.Worker

/-!
# The destruction of a worker executor

`mcmchWorkerDestroy` of worker.c while the threads of the executor are running. An executor of
`length` sub-monitors has `length + 1` threads, which are numbered in the order in which they are
destroyed: thread 0 is the master, and thread `m + 1` is the one of sub-monitor `m`. Each is the
thread of a monitor as in `Mcmp.Routines.MonitorThread`; between a call of its handler and the
return from it, the master makes the steps of a beat and a sub-monitor those of a task
(`Mcmp.Routines.Worker`), which read and write the block of the executor. The destruction stops the
monitors one after the other, each time joining the thread, and then frees the block.

The block is used after it was freed, or a signal is sent to a thread that was joined, only where a
user lets the executor beat after the master was joined (`mcmchWorkerDestroy_safe_iff`): the master
is the only thread that sends signals to the other ones, and it is joined first. What a signal to a
joined thread does is not defined; here it does nothing, so nothing is said of the runs that go on
behind one.
-/

set_option autoImplicit false
set_option relaxedAutoImplicit false

namespace Mcmp.Routines.WorkerDestroy

open Foundation.Interleaving
open MonitorThread (MonitorState HandlerStage OwnerStage MonitorEvent MonitorCommand MonitorStep
  mcmchMonitorPing mcmchMonitorHandler mcmchMonitorDestroy)
open Worker (Executor MasterStage MonitorStage WorkerEvent WorkerCommand WorkerThread masterStep
  monitorStep workerMachine)

/-! ### The threads and their owner -/

/-- Where a thread is in the handler of its monitor: `__priv__mcmch_worker_monitor_beat` for the
master, and `__priv__mcmch_worker_monitor_sub` for sub-monitor `m`. The stage `waiting` stands for
having returned. -/
inductive Beat
  | master (stage : MasterStage)
  | sub (m : ℕ) (stage : MonitorStage)
  deriving DecidableEq, Repr

/-- The thread that it is the handler of. -/
def Beat.thread : Beat → ℕ
  | master _ => 0
  | sub m _ => m + 1

/-- The handler has returned. -/
def Beat.returned : Beat → Bool
  | master stage => stage = .waiting
  | sub _ stage => stage = .waiting

/-- The handler is called. -/
def Beat.begin : Beat → Beat
  | master _ => master .exchangeFailstry
  | sub m _ => sub m (.enable 0 .load)

/-- The thread that the next step sends a signal to. -/
def Beat.target : Beat → Option ℕ
  | master (.ping m) => some (m + 1)
  | _ => none

/-- The next step of a call of the handler. -/
def beatStep (executor : Executor) (command : WorkerCommand) :
    Beat → Option (WorkerEvent × Executor × Beat)
  | .master stage =>
    if stage = .waiting then none
    else (masterStep executor command stage).map fun (event, executor, stage) ↦
      (event, executor, .master stage)
  | .sub m stage =>
    if stage = .waiting ∨ command ≠ .advance then none
    else (monitorStep executor m stage).map fun (event, executor, stage) ↦
      (event, executor, .sub m stage)

/-- The executor, the monitors of its threads, whether a signal has terminated the process, and
whether the block was freed. -/
structure ExecutorState where
  executor : Executor
  monitors : ℕ → MonitorState
  terminated : Bool
  freed : Bool

/-- The threads of the executor, the one that destroys it, and those that let it beat. -/
inductive Party
  | monitor (k : ℕ)
  | owner
  | user (i : ℕ)
  deriving DecidableEq, Repr

/-- Where `mcmchWorkerDestroy` is: at a stage of the destruction of the monitor of a thread, before
it frees the block, or behind that. -/
inductive DestroyStage
  | destroying (k : ℕ) (stage : OwnerStage)
  | freeing
  | done
  deriving DecidableEq, Repr

inductive Actor
  | monitor (stage : HandlerStage) (beat : Beat)
  | owner (stage : DestroyStage)
  | user
  deriving DecidableEq, Repr

/-- The events: a thread makes a step of its loop, or one of a call of its handler; a signal is sent
to a thread by the master or by a user; a user puts an index into the queue; the destruction makes a
step with the monitor of a thread, and frees the block. -/
inductive DestroyEvent
  | looped (event : MonitorEvent)
  | worked (event : WorkerEvent)
  | pinged (k : ℕ)
  | queued (event : WorkerEvent)
  | destroying (k : ℕ) (event : MonitorEvent)
  | freed
  deriving DecidableEq, Repr

/-- What can be told to happen: a step of a monitor's loop or of a destruction, a step of a call of
the handler, a push, and a call of `mcmchWorkerBeat`. -/
inductive DestroyCommand
  | monitor (command : MonitorCommand)
  | beat (command : WorkerCommand)
  | push (idx : ℕ)
  | workerBeat
  deriving DecidableEq, Repr

/-- The thread is in a call of its handler. -/
def isBeating : HandlerStage → Bool
  | .beating _ _ => true
  | _ => false

namespace ExecutorState

/-- The monitor of a thread has changed. -/
def withMonitor (state : ExecutorState) (k : ℕ) (monitor : MonitorState) : ExecutorState :=
  { state with
    monitors := Function.update state.monitors k monitor
    terminated := state.terminated || monitor.terminated }

/-- The block of the executor has changed. -/
def withExecutor (state : ExecutorState) (executor : Executor) : ExecutorState :=
  { state with executor := executor }

/-- `mcmchMonitorPing` on the monitor of a thread. -/
def ping (state : ExecutorState) (k : ℕ) : ExecutorState :=
  state.withMonitor k (mcmchMonitorPing (state.monitors k))

end ExecutorState

/-- The next step of a thread. -/
def threadStep (state : ExecutorState) (stage : HandlerStage) (beat : Beat) :
    DestroyCommand → Option (DestroyEvent × ExecutorState × Actor)
  | .monitor command =>
    if isBeating stage = true ∧ beat.returned = false then none
    else (mcmchMonitorHandler (state.monitors beat.thread) command stage).map
      fun (event, monitor, next) ↦
        (.looped event, state.withMonitor beat.thread monitor,
          .monitor next (if isBeating next then beat.begin else beat))
  | .beat command =>
    if isBeating stage then
      (beatStep state.executor command beat).map fun (event, executor, next) ↦
        match beat.target with
        | none => (.worked event, state.withExecutor executor, .monitor stage next)
        | some target =>
          (.pinged target, (state.withExecutor executor).ping target, .monitor stage next)
    else none
  | _ => none

/-- Where the destruction goes on when it has joined a thread. -/
def afterJoin (length k : ℕ) : DestroyStage :=
  if k < length then .destroying (k + 1) .idle else .freeing

/-- The next step of `mcmchWorkerDestroy`. -/
def mcmchWorkerDestroy (state : ExecutorState) (command : MonitorCommand) :
    DestroyStage → Option (DestroyEvent × ExecutorState × DestroyStage)
  | .destroying k stage =>
    (mcmchMonitorDestroy (state.monitors k) command stage).map fun (event, monitor, next) ↦
      (.destroying k event, state.withMonitor k monitor,
        if next = .done then afterJoin state.executor.length k else .destroying k next)
  | .freeing => if command = .advance then some (.freed, { state with freed := true }, .done)
    else none
  | .done => none

/-- `mcmchWorkerBeat`. -/
def mcmchWorkerBeat (state : ExecutorState) : ExecutorState := state.ping 0

/-- The threads of an executor, its users and its owner. Nobody moves when the process is
terminated. -/
def destroyMachine : Machine DestroyCommand ExecutorState Actor DestroyEvent :=
  fun command state actor ↦
    if state.terminated then none
    else
      match actor, command with
      | .monitor stage beat, command => threadStep state stage beat command
      | .owner stage, .monitor command =>
        (mcmchWorkerDestroy state command stage).map fun (event, state, stage) ↦
          (event, state, .owner stage)
      | .user, .push idx =>
        (workerMachine (.push idx) state.executor .client).map fun (event, executor, _) ↦
          (.queued event, state.withExecutor executor, .user)
      | .user, .workerBeat => some (.pinged 0, mcmchWorkerBeat state, .user)
      | _, _ => none

/-- A thread outside its handler. -/
def outside : ℕ → Beat
  | 0 => .master .waiting
  | m + 1 => .sub m .waiting

/-- An executor whose threads have just been made, each by a thread that blocks the signal, or does
not. -/
def started (executor : Executor) (inherited : ℕ → Bool) : Config Party ExecutorState Actor :=
  ⟨⟨executor, fun k ↦ ⟨true, ⟨inherited k, false, executor.length < k⟩, false⟩, false, false⟩, fun
    | .monitor k => .monitor (if executor.length < k then .ended else .blocking) (outside k)
    | .owner => .owner (.destroying 0 .idle)
    | .user _ => .user⟩

/-- A history of an executor. -/
abbrev DestroyHistory := List (Party × DestroyEvent)

/-- An executor between two steps. -/
abbrev DestroyConfig := Config Party ExecutorState Actor

/-- The runs of an executor from its start. -/
abbrev DestroyRun (executor : Executor) (inherited : ℕ → Bool) :=
  Run destroyMachine.program anyStep (started executor inherited)

/-! ### What one step does -/

section Moves

variable {history : DestroyHistory} {config : DestroyConfig}

/-- A thread is at a stage, and at one of its handler. -/
def ThreadAt (config : DestroyConfig) (k : ℕ) (stage : HandlerStage) (beat : Beat) : Prop :=
  config.threads (.monitor k) = .monitor stage beat

/-- A thread has ended. -/
def Ended (config : DestroyConfig) (k : ℕ) : Prop := ∃ beat, ThreadAt config k .ended beat

/-- The destruction is at a stage. -/
def OwnerAt (config : DestroyConfig) (stage : DestroyStage) : Prop :=
  config.threads .owner = .owner stage

/-- Every party is the actor of its name. -/
structure Housed (config : DestroyConfig) : Prop where
  monitor : ∀ k, ∃ stage beat, ThreadAt config k stage beat ∧ beat.thread = k
  owner : ∃ stage, OwnerAt config stage
  user : ∀ i, config.threads (.user i) = .user

/-- A step of a party: its event, and the executor and the party after it. -/
inductive DestroyMove (config : DestroyConfig) :
    Party → DestroyEvent → ExecutorState → Actor → Prop
  | looped {k : ℕ} {stage next : HandlerStage} {beat : Beat} {command : MonitorCommand}
      {event : MonitorEvent} {monitor : MonitorState} : ThreadAt config k stage beat →
      (isBeating stage = true → beat.returned = true) →
      mcmchMonitorHandler (config.shared.monitors k) command stage = some (event, monitor, next) →
      DestroyMove config (.monitor k) (.looped event) (config.shared.withMonitor k monitor)
        (.monitor next (if isBeating next then beat.begin else beat))
  | worked {k : ℕ} {stage : HandlerStage} {beat next : Beat} {command : WorkerCommand}
      {event : WorkerEvent} {executor : Executor} : ThreadAt config k stage beat →
      isBeating stage = true →
      beatStep config.shared.executor command beat = some (event, executor, next) →
      beat.target = none →
      DestroyMove config (.monitor k) (.worked event) (config.shared.withExecutor executor)
        (.monitor stage next)
  | pinged {k target : ℕ} {stage : HandlerStage} {beat next : Beat} {command : WorkerCommand}
      {event : WorkerEvent} {executor : Executor} : ThreadAt config k stage beat →
      isBeating stage = true →
      beatStep config.shared.executor command beat = some (event, executor, next) →
      beat.target = some target →
      DestroyMove config (.monitor k) (.pinged target)
        ((config.shared.withExecutor executor).ping target) (.monitor stage next)
  | destroying {k : ℕ} {stage next : OwnerStage} {command : MonitorCommand} {event : MonitorEvent}
      {monitor : MonitorState} : OwnerAt config (.destroying k stage) →
      mcmchMonitorDestroy (config.shared.monitors k) command stage = some (event, monitor, next) →
      DestroyMove config .owner (.destroying k event) (config.shared.withMonitor k monitor)
        (.owner (if next = .done then afterJoin config.shared.executor.length k
          else .destroying k next))
  | freed : OwnerAt config .freeing →
      DestroyMove config .owner .freed { config.shared with freed := true } (.owner .done)
  | queued (i idx : ℕ) {event : WorkerEvent} {executor : Executor} {thread : WorkerThread} :
      workerMachine (.push idx) config.shared.executor .client = some (event, executor, thread) →
      DestroyMove config (.user i) (.queued event) (config.shared.withExecutor executor) .user
  | beaten (i : ℕ) :
      DestroyMove config (.user i) (.pinged 0) (mcmchWorkerBeat config.shared) .user

/-- The steps of a thread. -/
theorem destroyMove_of_threadStep {k : ℕ} {stage : HandlerStage} {beat : Beat}
    {command : DestroyCommand} {event : DestroyEvent} {state : ExecutorState} {actor : Actor}
    (hat : ThreadAt config k stage beat) (hthread : beat.thread = k)
    (hstep : threadStep config.shared stage beat command = some (event, state, actor)) :
    DestroyMove config (.monitor k) event state actor := by
  subst hthread
  cases command with
  | monitor command =>
    simp only [threadStep] at hstep
    split at hstep
    · cases hstep
    · rename_i hbusy
      obtain ⟨⟨event', monitor, next⟩, hnext, hresult⟩ := Option.map_eq_some_iff.mp hstep
      cases hresult
      exact .looped hat (fun h ↦ by simpa using fun hnot ↦ hbusy ⟨h, hnot⟩) hnext
  | beat command =>
    simp only [threadStep] at hstep
    split at hstep
    · rename_i hbeating
      obtain ⟨⟨event', executor, next⟩, hnext, hresult⟩ := Option.map_eq_some_iff.mp hstep
      cases htarget : beat.target with
      | none =>
        simp only [htarget] at hresult
        cases hresult
        exact .worked hat hbeating hnext htarget
      | some target =>
        simp only [htarget] at hresult
        cases hresult
        exact .pinged hat hbeating hnext htarget
    · cases hstep
  | push | workerBeat => cases hstep

/-- The steps of the destruction. -/
theorem destroyMove_of_workerDestroy {stage next : DestroyStage} {command : MonitorCommand}
    {event : DestroyEvent} {state : ExecutorState} (hat : OwnerAt config stage)
    (hstep : mcmchWorkerDestroy config.shared command stage = some (event, state, next)) :
    DestroyMove config .owner event state (.owner next) := by
  cases stage with
  | destroying k stage =>
    obtain ⟨⟨event', monitor, next'⟩, hnext, hresult⟩ := Option.map_eq_some_iff.mp hstep
    cases hresult
    exact .destroying hat hnext
  | freeing =>
    simp only [mcmchWorkerDestroy] at hstep
    split at hstep
    · cases hstep
      exact .freed hat
    · cases hstep
  | done => cases hstep

/-- `DestroyMove` lists every step, and nobody moves when the process is terminated. -/
theorem destroyMove_of_program (hhoused : Housed config) {party : Party} {event : DestroyEvent}
    {state : ExecutorState} {actor : Actor}
    (hprogram : destroyMachine.program config.shared (config.threads party) event state actor) :
    config.shared.terminated = false ∧ DestroyMove config party event state actor := by
  obtain ⟨command, hcommand⟩ := hprogram
  unfold destroyMachine at hcommand
  cases hterminated : config.shared.terminated with
  | true => simp [hterminated] at hcommand
  | false =>
    refine ⟨rfl, ?_⟩
    simp only [hterminated, Bool.false_eq_true, if_false] at hcommand
    cases party with
    | monitor k =>
      obtain ⟨stage, beat, hat, hthread⟩ := hhoused.monitor k
      have hactor : config.threads (.monitor k) = .monitor stage beat := hat
      rw [hactor] at hcommand
      exact destroyMove_of_threadStep hat hthread hcommand
    | owner =>
      obtain ⟨stage, hat⟩ := hhoused.owner
      have hactor : config.threads .owner = .owner stage := hat
      rw [hactor] at hcommand
      cases command with
      | monitor command =>
        obtain ⟨⟨event', state', next⟩, hnext, hresult⟩ := Option.map_eq_some_iff.mp hcommand
        cases hresult
        exact destroyMove_of_workerDestroy hat hnext
      | _ => cases hcommand
    | user i =>
      rw [hhoused.user i] at hcommand
      cases command with
      | push idx =>
        obtain ⟨⟨event', executor, thread⟩, hnext, hresult⟩ := Option.map_eq_some_iff.mp hcommand
        cases hresult
        exact .queued i idx hnext
      | workerBeat =>
        cases hcommand
        exact .beaten i
      | _ => cases hcommand

/-! ### Where the parties are after a step -/

@[simp] theorem withMonitor_monitors_self (state : ExecutorState) (k : ℕ) (monitor : MonitorState) :
    (state.withMonitor k monitor).monitors k = monitor :=
  Function.update_self _ _ _

theorem withMonitor_monitors_of_ne (state : ExecutorState) {k other : ℕ} (hne : other ≠ k)
    (monitor : MonitorState) :
    (state.withMonitor k monitor).monitors other = state.monitors other :=
  Function.update_of_ne hne _ _

/-- A signal does not end its thread. -/
@[simp] theorem ping_ended (state : ExecutorState) (k other : ℕ) :
    ((state.ping k).monitors other).signal.ended = (state.monitors other).signal.ended := by
  by_cases hsame : other = k
  · subst hsame
    rw [ExecutorState.ping, withMonitor_monitors_self]
    exact (MonitorThread.ping_keeps _).2.2
  · rw [ExecutorState.ping, withMonitor_monitors_of_ne _ hsame]

@[simp] theorem withExecutor_monitors (state : ExecutorState) (executor : Executor) :
    (state.withExecutor executor).monitors = state.monitors :=
  rfl

variable {state : ExecutorState} {actor : Actor} {party : Party} {event : DestroyEvent}
  {k other : ℕ} {stage stage' : HandlerStage} {beat beat' : Beat} {owner owner' : DestroyStage}

@[simp] theorem threadAt_advance_self :
    ThreadAt (config.advance (.monitor k) state actor) k stage beat ↔
      actor = .monitor stage beat := by
  rw [ThreadAt, Config.advance_threads_self]

theorem threadAt_advance_of_ne (hne : party ≠ .monitor k) :
    ThreadAt (config.advance party state actor) k stage beat ↔ ThreadAt config k stage beat := by
  rw [ThreadAt, Config.advance_threads_of_ne _ hne.symm, ThreadAt]

@[simp] theorem ownerAt_advance_self :
    OwnerAt (config.advance .owner state actor) owner ↔ actor = .owner owner := by
  rw [OwnerAt, Config.advance_threads_self]

@[simp] theorem ownerAt_advance_monitor :
    OwnerAt (config.advance (.monitor k) state actor) owner ↔ OwnerAt config owner := by
  rw [OwnerAt, Config.advance_threads_of_ne _ (by simp), OwnerAt]

@[simp] theorem ownerAt_advance_user {i : ℕ} :
    OwnerAt (config.advance (.user i) state actor) owner ↔ OwnerAt config owner := by
  rw [OwnerAt, Config.advance_threads_of_ne _ (by simp), OwnerAt]

theorem ended_advance_of_ne (hne : party ≠ .monitor k) :
    Ended (config.advance party state actor) k ↔ Ended config k :=
  exists_congr fun _ ↦ threadAt_advance_of_ne hne

theorem ended_advance_self {next : HandlerStage} :
    Ended (config.advance (.monitor k) state (.monitor next beat)) k ↔ next = .ended := by
  simp [Ended]

/-- A thread is at one stage at a time. -/
theorem ThreadAt.eq (hat : ThreadAt config k stage beat) (hat' : ThreadAt config k stage' beat') :
    stage = stage' ∧ beat = beat' :=
  Actor.monitor.inj (hat.symm.trans hat')

theorem ThreadAt.ended_iff (hat : ThreadAt config k stage beat) :
    Ended config k ↔ stage = .ended :=
  ⟨fun ⟨_, h⟩ ↦ (hat.eq h).1, fun h ↦ ⟨beat, h ▸ hat⟩⟩

theorem OwnerAt.eq (hat : OwnerAt config owner) (hat' : OwnerAt config owner') : owner = owner' :=
  Actor.owner.inj (hat.symm.trans hat')

theorem not_ended_of_isBeating (hat : ThreadAt config k stage beat)
    (hbeating : isBeating stage = true) : ¬ Ended config k := by
  rw [hat.ended_iff]
  rintro rfl
  cases hbeating

/-! ### The steps of the parts -/

/-- A monitor whose thread is at a stage, by itself. -/
def alone (monitor : MonitorState) (stage : HandlerStage) : MonitorThread.MonitorConfig :=
  ⟨monitor, fun
    | .handler => .handler stage
    | .owner => .owner .idle
    | .user _ => .user⟩

theorem looped_step {monitor monitor' : MonitorState} {command : MonitorCommand}
    {event : MonitorEvent} {next : HandlerStage}
    (hstep : mcmchMonitorHandler monitor command stage = some (event, monitor', next)) :
    MonitorStep (alone monitor stage) .handler event monitor' (.handler next) :=
  @MonitorThread.handlerStep_of_eq_some (alone monitor stage) _ _ _ _ _ rfl hstep

/-- A thread that makes a step has not ended, and is an ended target exactly behind its last one. -/
theorem looped_ended {monitor monitor' : MonitorState} {command : MonitorCommand}
    {event : MonitorEvent} {next : HandlerStage} (hended : monitor.signal.ended = false)
    (hstep : mcmchMonitorHandler monitor command stage = some (event, monitor', next)) :
    monitor'.signal.ended = true ↔ next = .ended := by
  have hsolo : (alone monitor stage).shared.signal.ended = false := hended
  cases looped_step hstep with
  | left | stopped | crashed =>
    simp [MonitorThread.MonitorState.finish, Foundation.Signals.Target.finish]
  | beaten errno _ hst => simp [hsolo, MonitorThread.afterBeat_ne_ended hst]
  | _ => simp [hsolo, Foundation.Signals.Target.block]

theorem looped_not_ended {monitor monitor' : MonitorState} {command : MonitorCommand}
    {event : MonitorEvent} {next : HandlerStage}
    (hstep : mcmchMonitorHandler monitor command stage = some (event, monitor', next)) :
    stage ≠ .ended := by
  rintro rfl
  cases command <;> cases hstep

/-- The steps of the destruction of one monitor. -/
theorem destroying_cases {monitor monitor' : MonitorState} {command : MonitorCommand}
    {event : MonitorEvent} {stage next : OwnerStage}
    (hstep : mcmchMonitorDestroy monitor command stage = some (event, monitor', next)) :
    (stage = .idle ∧ event = .stopped ∧ next = .signalling ∧
        monitor' = { monitor with running := false }) ∨
      (stage = .signalling ∧ event = .signalled ∧ next = .joining ∧
        monitor' = mcmchMonitorPing monitor) ∨
      (stage = .joining ∧ event = .destroyed ∧ next = .done ∧ monitor' = monitor ∧
        monitor.signal.ended = true) := by
  have hat : MonitorThread.OwnerAt (⟨monitor, fun _ ↦ .owner stage⟩ : MonitorThread.MonitorConfig)
      stage := rfl
  cases MonitorThread.ownerStep_of_eq_some hat hstep with
  | destroying h => exact Or.inl ⟨hat.eq h, rfl, rfl, rfl⟩
  | signalled h => exact Or.inr (Or.inl ⟨hat.eq h, rfl, rfl, rfl⟩)
  | destroyed h hended => exact Or.inr (Or.inr ⟨hat.eq h, rfl, rfl, rfl, hended⟩)

/-- The destruction of a monitor does not end its thread. -/
theorem destroying_ended {monitor monitor' : MonitorState} {command : MonitorCommand}
    {event : MonitorEvent} {stage next : OwnerStage}
    (hstep : mcmchMonitorDestroy monitor command stage = some (event, monitor', next)) :
    monitor'.signal.ended = monitor.signal.ended := by
  rcases destroying_cases hstep with ⟨-, -, -, rfl⟩ | ⟨-, -, -, rfl⟩ | ⟨-, -, -, rfl, -⟩
  · rfl
  · exact (MonitorThread.ping_keeps monitor).2.2
  · rfl

/-- A step of the handler of a thread is a step of its thread, and leaves the number of sub-monitors
as it is. -/
theorem beatStep_keeps {executor executor' : Executor} {command : WorkerCommand}
    {event : WorkerEvent} {next : Beat}
    (hstep : beatStep executor command beat = some (event, executor', next)) :
    next.thread = beat.thread ∧ executor'.length = executor.length ∧
      executor'.bitmapLength = executor.bitmapLength := by
  cases beat with
  | master stage =>
    simp only [beatStep] at hstep
    split at hstep
    · cases hstep
    · obtain ⟨⟨event', executor'', stage'⟩, hnext, hresult⟩ := Option.map_eq_some_iff.mp hstep
      cases hresult
      have hat : Worker.MasterAt ⟨executor, fun _ ↦ .master stage⟩ stage := rfl
      refine ⟨rfl, ?_⟩
      cases Worker.workerStep_of_masterStep hat hnext <;> exact ⟨rfl, rfl⟩
  | sub m stage =>
    simp only [beatStep] at hstep
    split at hstep
    · cases hstep
    · obtain ⟨⟨event', executor'', stage'⟩, hnext, hresult⟩ := Option.map_eq_some_iff.mp hstep
      cases hresult
      have hat : Worker.MonitorAt ⟨executor, fun _ ↦ .monitor m stage⟩ m stage := rfl
      refine ⟨rfl, ?_⟩
      cases Worker.workerStep_of_monitorStep hat hnext <;> exact ⟨rfl, rfl⟩

theorem begin_thread (beat : Beat) : beat.begin.thread = beat.thread := by
  cases beat <;> rfl

/-- Only the master sends signals. -/
theorem thread_of_target {target : ℕ} (htarget : beat.target = some target) : beat.thread = 0 := by
  cases beat with
  | master stage => rfl
  | sub m stage => cases htarget

/-- A push changes the queue only. -/
theorem queued_keeps {executor executor' : Executor} {idx : ℕ} {event : WorkerEvent}
    {thread : WorkerThread}
    (hstep : workerMachine (.push idx) executor .client = some (event, executor', thread)) :
    executor'.length = executor.length ∧ executor'.bitmapLength = executor.bitmapLength := by
  simp only [workerMachine] at hstep
  split at hstep <;> cases hstep <;> exact ⟨rfl, rfl⟩

end Moves

/-! ### The record of the executor -/

section Record

variable {executor : Executor} {inherited : ℕ → Bool} {history : DestroyHistory}
  {config : DestroyConfig} {party : Party} {event : DestroyEvent} {state : ExecutorState}
  {actor : Actor}

/-- How often the destruction has joined a thread. -/
def joins (k : ℕ) (history : DestroyHistory) : ℕ :=
  history.count (.owner, .destroying k .destroyed)

/-- The destruction has joined a thread. -/
def Joined (history : DestroyHistory) (k : ℕ) : Prop :=
  (.owner, .destroying k .destroyed) ∈ history

/-- The destruction has freed the block. -/
def Freed (history : DestroyHistory) : Prop := (.owner, .freed) ∈ history

/-- The number of the first thread that the destruction has not joined, when there is a last one. -/
@[simp] def joinedBy (last : ℕ) : DestroyStage → ℕ
  | .destroying k _ => k
  | .freeing => last + 1
  | .done => last + 1

/-- What the record says of the history and of the stages of the threads and their owner. -/
structure Recorded (last : ℕ) (history : DestroyHistory) (config : DestroyConfig) : Prop where
  housed : Housed config
  length : config.shared.executor.length = last
  ended : ∀ k, (config.shared.monitors k).signal.ended = true ↔ Ended config k
  absent : ∀ k, last < k → Ended config k
  bound : ∀ k stage, OwnerAt config (.destroying k stage) → k ≤ last
  joined : ∀ stage, OwnerAt config stage → ∀ k,
    joins k history = if k < joinedBy last stage then 1 else 0
  gone : ∀ stage, OwnerAt config stage → ∀ k, k < joinedBy last stage → Ended config k
  freed : Freed history ↔ OwnerAt config .done

theorem joins_concat (k : ℕ) :
    joins k (history ++ [(party, event)]) =
      joins k history + if party = .owner ∧ event = .destroying k .destroyed then 1 else 0 := by
  rw [joins, List.count_append, List.count_singleton, joins]
  congr 1
  simp only [beq_iff_eq, Prod.mk.injEq]

theorem freed_concat :
    Freed (history ++ [(party, event)]) ↔ Freed history ∨ party = .owner ∧ event = .freed := by
  simp [Freed, eq_comm]

theorem joined_iff (k : ℕ) : Joined history k ↔ joins k history ≠ 0 := by
  rw [Joined, joins, ne_eq, List.count_eq_zero, not_not]

theorem housed_step (hhoused : Housed config) (hmove : DestroyMove config party event state actor) :
    Housed (config.advance party state actor) := by
  obtain ⟨hmonitor, ⟨owner, howner⟩, huser⟩ := hhoused
  have hothers {k : ℕ} (hne : party ≠ .monitor k) : ∃ stage beat,
      ThreadAt (config.advance party state actor) k stage beat ∧ beat.thread = k := by
    obtain ⟨stage, beat, hat, hthread⟩ := hmonitor k
    exact ⟨stage, beat, (threadAt_advance_of_ne hne).mpr hat, hthread⟩
  have husers : ∀ i, party ≠ .user i → (config.advance party state actor).threads (.user i) =
      .user := fun i hi ↦ by rw [Config.advance_threads_of_ne _ hi.symm, huser i]
  have hself {k : ℕ} {stage stage' : HandlerStage} {beat next : Beat}
      (hat : ThreadAt config k stage beat) (hnext : next.thread = beat.thread)
      (hparty : party = .monitor k) (hactor : actor = .monitor stage' next) (other : ℕ) :
      ∃ stage beat, ThreadAt (config.advance party state actor) other stage beat ∧
        beat.thread = other := by
    by_cases hsame : other = k
    · subst hsame hparty hactor
      obtain ⟨_, beat', hat', hthread⟩ := hmonitor other
      exact ⟨stage', next, threadAt_advance_self.mpr rfl, by rw [hnext, (hat.eq hat').2, hthread]⟩
    · exact hothers (by simpa [hparty, eq_comm] using hsame)
  cases hmove with
  | looped hat =>
    refine ⟨hself hat ?_ rfl rfl, ⟨owner, by simpa using howner⟩, fun i ↦ husers i (by simp)⟩
    split_ifs
    · exact begin_thread _
    · rfl
  | worked hat _ hstep | pinged hat _ hstep =>
    exact ⟨hself hat (beatStep_keeps hstep).1 rfl rfl, ⟨owner, by simpa using howner⟩,
      fun i ↦ husers i (by simp)⟩
  | destroying | freed =>
    exact ⟨fun k ↦ hothers (by simp), ⟨_, ownerAt_advance_self.mpr rfl⟩, fun i ↦ husers i (by simp)⟩
  | queued j | beaten j =>
    refine ⟨fun k ↦ hothers (by simp), ⟨owner, by simpa using howner⟩, fun i ↦ ?_⟩
    by_cases hi : i = j
    · subst hi
      exact Config.advance_threads_self _ _ _ _
    · exact husers i (by simpa [eq_comm] using hi)

theorem length_step (hmove : DestroyMove config party event state actor) :
    state.executor.length = config.shared.executor.length := by
  cases hmove with
  | worked _ _ hstep | pinged _ _ hstep => exact (beatStep_keeps hstep).2.1
  | queued _ _ hstep => exact (queued_keeps hstep).1
  | _ => rfl

/-- A thread that has ended makes no step. -/
theorem ended_mono {k : ℕ} (hmove : DestroyMove config party event state actor)
    (hended : Ended config k) : Ended (config.advance party state actor) k := by
  by_cases hparty : party = .monitor k
  · exfalso
    subst hparty
    cases hmove with
    | looped hat _ hstep => exact looped_not_ended hstep (hat.ended_iff.mp hended)
    | worked hat hbeating | pinged hat hbeating => exact not_ended_of_isBeating hat hbeating hended
  · exact (ended_advance_of_ne hparty).mpr hended

theorem ended_step (hrecorded : Recorded executor.length history config)
    (hmove : DestroyMove config party event state actor) (k : ℕ) :
    (state.monitors k).signal.ended = true ↔ Ended (config.advance party state actor) k := by
  have hpast := hrecorded.ended k
  have hothers {state' : ExecutorState} (hne : party ≠ .monitor k)
      (hsame : (state'.monitors k).signal.ended = (config.shared.monitors k).signal.ended) :
      (state'.monitors k).signal.ended = true ↔ Ended (config.advance party state actor) k := by
    rw [hsame, hpast, ended_advance_of_ne hne]
  cases hmove with
  | @looped j stage next beat command event monitor hat _ hstep =>
    by_cases hsame : k = j
    · subst hsame
      have hnot : ¬ Ended config k := fun h ↦ looped_not_ended hstep (hat.ended_iff.mp h)
      rw [withMonitor_monitors_self, ended_advance_self]
      exact looped_ended (by simpa using mt hpast.mp hnot) hstep
    · exact hothers (by simpa [eq_comm] using hsame)
        (by rw [withMonitor_monitors_of_ne _ hsame])
  | @worked j _ _ _ _ _ _ hat hbeating | @pinged j _ _ _ _ _ _ _ hat hbeating =>
    by_cases hsame : k = j
    · subst hsame
      have hnot := not_ended_of_isBeating hat hbeating
      rw [hat.ended_iff] at hnot
      simp [ended_advance_self, hnot, hpast, hat.ended_iff]
    · exact hothers (by simpa [eq_comm] using hsame) (by simp)
  | @destroying j _ _ _ _ _ _ hstep =>
    refine hothers (by simp) ?_
    by_cases hsame : k = j
    · subst hsame
      rw [withMonitor_monitors_self]
      exact destroying_ended hstep
    · rw [withMonitor_monitors_of_ne _ hsame]
  | freed | queued => exact hothers (by simp) rfl
  | beaten => exact hothers (by simp) (by simp [mcmchWorkerBeat])

theorem joinedBy_afterJoin {last k : ℕ} (hbound : k ≤ last) :
    joinedBy last (afterJoin last k) = k + 1 := by
  unfold afterJoin
  split_ifs with hmore
  · rfl
  · simp only [joinedBy]
    omega

/-- The stage of the destruction behind a step, and what it has joined. -/
theorem joined_step (hrecorded : Recorded executor.length history config)
    (hmove : DestroyMove config party event state actor) (stage : DestroyStage)
    (hat : OwnerAt (config.advance party state actor) stage) :
    ∀ k, joins k (history ++ [(party, event)]) =
        (if k < joinedBy executor.length stage then 1 else 0) ∧
      (k < joinedBy executor.length stage → Ended (config.advance party state actor) k) := by
  intro k
  have hkept : ∀ stage, OwnerAt config stage → k < joinedBy executor.length stage →
      Ended (config.advance party state actor) k :=
    fun stage hstage hk ↦ ended_mono hmove (hrecorded.gone stage hstage k hk)
  rw [joins_concat]
  cases hmove with
  | @destroying j stage' next command event' monitor howner hstep =>
    have hpast := hrecorded.joined _ howner k
    have hbound := hrecorded.bound j stage' howner
    have hmine := hkept _ howner
    rw [ownerAt_advance_self, Actor.owner.injEq] at hat
    subst hat
    rcases destroying_cases hstep with ⟨-, rfl, rfl, -⟩ | ⟨-, rfl, rfl, -⟩ |
      ⟨-, rfl, rfl, -, hended⟩
    · rw [if_neg (by simp), Nat.add_zero]
      exact ⟨hpast, hmine⟩
    · rw [if_neg (by simp), Nat.add_zero]
      exact ⟨hpast, hmine⟩
    · rw [if_pos rfl, hrecorded.length, joinedBy_afterJoin hbound]
      simp only [joinedBy] at hpast hmine
      refine ⟨?_, fun hk ↦ ?_⟩
      · rw [hpast]
        rcases lt_trichotomy k j with hless | rfl | hmore
        · simp [hless, hless.ne', hless.trans (Nat.lt_succ_self j)]
        · simp
        · simp [hmore.ne, Nat.not_lt_of_lt hmore, Nat.not_lt_of_le hmore]
      · rcases Nat.lt_succ_iff_lt_or_eq.mp hk with hless | rfl
        · exact hmine hless
        · exact (ended_advance_of_ne (by simp)).mpr ((hrecorded.ended k).mp hended)
  | freed howner =>
    rw [ownerAt_advance_self, Actor.owner.injEq] at hat
    subst hat
    rw [if_neg (by simp), Nat.add_zero]
    exact ⟨hrecorded.joined _ howner k, hkept .freeing howner⟩
  | _ =>
    have howner : OwnerAt config stage := by simpa using hat
    exact ⟨by simpa using hrecorded.joined _ howner k, hkept _ howner⟩

theorem bound_step (hrecorded : Recorded executor.length history config)
    (hmove : DestroyMove config party event state actor) (k : ℕ) (stage : OwnerStage)
    (hat : OwnerAt (config.advance party state actor) (.destroying k stage)) :
    k ≤ executor.length := by
  cases hmove with
  | @destroying j stage' next command event' monitor howner hstep =>
    have hbound := hrecorded.bound j stage' howner
    rw [ownerAt_advance_self, Actor.owner.injEq, hrecorded.length, afterJoin] at hat
    split_ifs at hat with hdone hmore
    · cases hat
      omega
    · cases hat
      exact hbound
  | freed => simp at hat
  | _ => exact hrecorded.bound k stage (by simpa using hat)

theorem freed_step (hrecorded : Recorded executor.length history config)
    (hmove : DestroyMove config party event state actor) :
    Freed (history ++ [(party, event)]) ↔ OwnerAt (config.advance party state actor) .done := by
  rw [freed_concat, hrecorded.freed]
  cases hmove with
  | @destroying j stage' next command event' monitor howner hstep =>
    have hnot : ¬ OwnerAt config .done := fun h ↦ by cases howner.eq h
    have hgoes : (if next = .done then afterJoin config.shared.executor.length j
        else .destroying j next) ≠ .done := by
      unfold afterJoin
      split_ifs <;> simp
    simp [hnot, hgoes]
  | freed => simp
  | _ => simp

theorem recorded_started : Recorded executor.length [] (started executor inherited) where
  housed := ⟨fun k ↦ ⟨_, _, rfl, by cases k <;> rfl⟩, ⟨_, rfl⟩, fun _ ↦ rfl⟩
  length := rfl
  ended k := by
    by_cases hk : executor.length < k <;> simp [started, Ended, ThreadAt, hk]
  absent k hk := ⟨outside k, by simp [started, ThreadAt, hk]⟩
  bound k stage hat := by
    cases hat
    exact Nat.zero_le _
  joined stage hat k := by
    cases hat
    simp [joins, joinedBy]
  gone stage hat k hk := by
    cases hat
    simp [joinedBy] at hk
  freed := by simp [Freed, started, OwnerAt]

theorem recorded_of_run (hrun : DestroyRun executor inherited history config) :
    Recorded executor.length history config := by
  refine hrun.invariant _ recorded_started ?_
  intro history config party event state actor _ hrecorded _ hprogram
  have hmove := (destroyMove_of_program hrecorded.housed hprogram).2
  exact ⟨housed_step hrecorded.housed hmove, (length_step hmove).trans hrecorded.length,
    ended_step hrecorded hmove, fun k hk ↦ ended_mono hmove (hrecorded.absent k hk),
    bound_step hrecorded hmove, fun stage hat k ↦ (joined_step hrecorded hmove stage hat k).1,
    fun stage hat k ↦ (joined_step hrecorded hmove stage hat k).2, freed_step hrecorded hmove⟩

end Record

/-! ### What the destruction keeps -/

/-- The step reads or writes the block of the executor. -/
def DestroyEvent.touches : DestroyEvent → Bool
  | .looped _ => false
  | .queued _ => false
  | _ => true

/-- The thread that the step sends a signal to. -/
def DestroyEvent.signals : DestroyEvent → Option ℕ
  | .pinged k => some k
  | .destroying k .signalled => some k
  | _ => none

/-- Nothing touches the block after it was freed, and no signal is sent to a thread after it was
joined. -/
def Safe (history : DestroyHistory) : Prop :=
  ∀ before entry after, history = before ++ entry :: after →
    (entry.2.touches = true → ¬ Freed before) ∧
      ∀ k, entry.2.signals = some k → ¬ Joined before k

/-- No user lets the executor beat after the master was joined. -/
def BeatsInTime (history : DestroyHistory) : Prop :=
  ∀ before entry after, history = before ++ entry :: after →
    (∃ i, entry = (.user i, .pinged 0)) → ¬ Joined before 0

section Safety

variable {executor : Executor} {inherited : ℕ → Bool} {history : DestroyHistory}
  {config : DestroyConfig} {party : Party} {event : DestroyEvent} {state : ExecutorState}
  {actor : Actor}

/-- The destruction has not freed the block while a thread has not ended. -/
theorem not_freed_of_not_ended (hrecorded : Recorded executor.length history config) {k : ℕ}
    (hnot : ¬ Ended config k) : ¬ Freed history := by
  intro hfreed
  have hdone := hrecorded.freed.mp hfreed
  rcases Nat.lt_or_ge executor.length k with hk | hk
  · exact hnot (hrecorded.absent k hk)
  · exact hnot (hrecorded.gone _ hdone k (Nat.lt_succ_of_le hk))

/-- What has been joined has ended, and so has every thread before it. -/
theorem ended_of_joined (hrecorded : Recorded executor.length history config) {k : ℕ}
    (hjoined : Joined history k) {j : ℕ} (hj : j ≤ k) : Ended config j := by
  obtain ⟨stage, hat⟩ := hrecorded.housed.owner
  have hcount := hrecorded.joined stage hat k
  by_cases hk : k < joinedBy executor.length stage
  · exact hrecorded.gone stage hat j (hj.trans_lt hk)
  · rw [if_neg hk] at hcount
    exact absurd hcount ((joined_iff k).mp hjoined)

/-- A step of any party is safe, when it is not a late beat. -/
theorem safe_step (hrecorded : Recorded executor.length history config)
    (hmove : DestroyMove config party event state actor)
    (hintime : (∃ i, (party, event) = (.user i, .pinged 0)) → ¬ Joined history 0) :
    (event.touches = true → ¬ Freed history) ∧
      ∀ k, event.signals = some k → ¬ Joined history k := by
  cases hmove with
  | looped | queued => exact ⟨fun h ↦ (Bool.noConfusion h), fun _ h ↦ nomatch h⟩
  | worked hat hbeating =>
    have hnot := not_ended_of_isBeating hat hbeating
    exact ⟨fun _ ↦ not_freed_of_not_ended hrecorded hnot, fun _ h ↦ nomatch h⟩
  | @pinged j target stage beat next command event executor hat hbeating hstep htarget =>
    have hnot := not_ended_of_isBeating hat hbeating
    refine ⟨fun _ ↦ not_freed_of_not_ended hrecorded hnot, fun k hk hjoined ↦ ?_⟩
    -- Only the master sends signals, and it is the first thread that is joined.
    obtain ⟨_, beat', hat', hthread⟩ := hrecorded.housed.monitor j
    have hmaster : j = 0 := by rw [← hthread, ← (hat.eq hat').2, thread_of_target htarget]
    exact hnot (ended_of_joined hrecorded hjoined (by omega))
  | @destroying j stage next command event monitor howner hstep =>
    refine ⟨fun _ hfreed ↦ ?_, fun k hk hjoined ↦ ?_⟩
    · cases howner.eq (hrecorded.freed.mp hfreed)
    have hsame : k = j := by
      rcases destroying_cases hstep with ⟨-, rfl, -⟩ | ⟨-, rfl, -⟩ | ⟨-, rfl, -⟩
      · cases hk
      · exact (Option.some.inj hk).symm
      · cases hk
    have hcount := hrecorded.joined _ howner k
    rw [hsame, joinedBy, if_neg (Nat.lt_irrefl j)] at hcount
    exact (joined_iff j).mp (hsame ▸ hjoined) hcount
  | freed howner =>
    refine ⟨fun _ hfreed ↦ ?_, fun _ h ↦ nomatch h⟩
    cases howner.eq (hrecorded.freed.mp hfreed)
  | beaten i =>
    have hnot := hintime ⟨i, rfl⟩
    refine ⟨fun _ hfreed ↦ ?_, fun k hk ↦ ?_⟩
    · have hcount := hrecorded.joined _ (hrecorded.freed.mp hfreed) 0
      rw [joinedBy, if_pos (Nat.succ_pos _)] at hcount
      exact hnot ((joined_iff 0).mpr (by omega))
    · cases hk
      exact hnot

/-- The block is not touched after `mcmchWorkerDestroy` has freed it, and no thread gets a signal
after it was joined, exactly when no user lets the executor beat after the master was joined; and
when the block is freed in such a run, every thread has ended and was joined once. -/
theorem mcmchWorkerDestroy_safe_iff (hrun : DestroyRun executor inherited history config) :
    (Safe history ↔ BeatsInTime history) ∧
      (Safe history → Freed history →
        ∀ k ≤ executor.length, Ended config k ∧ joins k history = 1) := by
  have hrecorded := recorded_of_run hrun
  refine ⟨⟨fun hsafe before entry after hhistory hbeat ↦ ?_, fun hintime ↦ ?_⟩,
    fun _ hfreed k hk ↦ ?_⟩
  · obtain ⟨i, rfl⟩ := hbeat
    exact (hsafe before _ after hhistory).2 0 rfl
  · refine hrun.invariant (fun history _ ↦ BeatsInTime history → Safe history) ?_ ?_ hintime
    · intro _ before entry after hhistory
      simp at hhistory
    · intro history config party event state actor hpast hsafe _ hprogram hintime
      have hrecorded := recorded_of_run hpast
      have hmove := (destroyMove_of_program hrecorded.housed hprogram).2
      obtain ⟨hbefore, hlast⟩ := (forall_split_concat (fun before (entry : Party × DestroyEvent) ↦
        (∃ i, entry = (.user i, .pinged 0)) → ¬ Joined before 0) history (party, event)).mp hintime
      exact (forall_split_concat (fun before (entry : Party × DestroyEvent) ↦
        (entry.2.touches = true → ¬ Freed before) ∧
          ∀ k, entry.2.signals = some k → ¬ Joined before k) history (party, event)).mpr
        ⟨hsafe hbefore, safe_step hrecorded hmove hlast⟩
  · have hdone := hrecorded.freed.mp hfreed
    have hless : k < joinedBy executor.length .done := Nat.lt_succ_of_le hk
    exact ⟨hrecorded.gone _ hdone k hless, by rw [hrecorded.joined _ hdone k, if_pos hless]⟩

/-- An executor of one sub-monitor. -/
def oneWorker : Executor := (Worker.initially 1 fun _ ↦ 0).shared

/-- A beat that hands an index to the sub-monitor, and a destruction that begins during it. The
sub-monitor finds `running` clear before it looks for its task. -/
def oneDestruction : List (Party × DestroyCommand) :=
  [(.monitor 0, .monitor .advance), (.monitor 0, .monitor .advance),
    (.monitor 1, .monitor .advance), (.monitor 1, .monitor .advance), (.user 0, .push 0),
    (.user 0, .workerBeat), (.monitor 0, .monitor .advance), (.monitor 0, .monitor .advance),
    (.monitor 0, .monitor .advance), (.monitor 0, .beat .advance), (.monitor 0, .beat .advance),
    (.monitor 0, .beat .advance), (.monitor 0, .beat (.take 0)), (.owner, .monitor .destroy),
    (.owner, .monitor .advance), (.monitor 0, .beat .advance), (.monitor 0, .beat .advance),
    (.monitor 0, .beat .advance), (.monitor 0, .monitor (.returns 0)),
    (.monitor 0, .monitor .advance), (.owner, .monitor .advance), (.owner, .monitor .destroy),
    (.monitor 1, .monitor .advance), (.monitor 1, .monitor .advance), (.owner, .monitor .advance),
    (.owner, .monitor .advance), (.owner, .monitor .advance)]

/-- The index that the beat has taken is not handled by anyone. -/
theorem mcmchWorkerDestroy_safe_iff_one :
    ∃ (history : DestroyHistory) (config : DestroyConfig),
      DestroyRun oneWorker (fun _ ↦ true) history config ∧
        (.monitor 0, .worked (.taken 0 0)) ∈ history ∧
        (.monitor 1, .worked (.handled 0)) ∉ history ∧ Freed history ∧
        ((Safe history ↔ BeatsInTime history) ∧
          (Safe history → Freed history →
            ∀ k ≤ oneWorker.length, Ended config k ∧ joins k history = 1)) := by
  obtain ⟨history, config, hrun, hview⟩ := exists_run_of_play_view destroyMachine anyStep
    (started oneWorker fun _ ↦ true) oneDestruction
    (fun history _ ↦ (decide ((.monitor 0, .worked (.taken 0 0)) ∈ history),
      decide ((.monitor 1, .worked (.handled 0)) ∈ history), decide ((.owner, .freed) ∈ history)))
    (true, false, true) (by decide +kernel)
  simp only [Prod.mk.injEq, decide_eq_true_eq, decide_eq_false_iff_not] at hview
  exact ⟨history, config, hrun, hview.1, hview.2.1, hview.2.2, mcmchWorkerDestroy_safe_iff hrun⟩

end Safety

end Mcmp.Routines.WorkerDestroy
