import Mcmp.Foundation.Interleaving
import Mcmp.Utilities.AtomicBitmap
import Mcmp.Utilities.BitmapScanSteps

/-!
# The worker executor

worker.c, and the loop of a monitor thread of monitor.c. An executor has a master thread and any
number of sub-monitors. A beat makes the master look for sub-monitors whose bit is clear; it hands
each one that has finished an index from the queue and sends it a signal, and it sends one that has
not finished its signal again. A sub-monitor that is woken claims its bit, calls the handler with
its task, says that it has finished and releases the bit. A release that fails ten times is left to
the clean-up pass of the master, which the flag `failstry` asks for.

A step is one access to the shared memory, or one signal, together with the computation of the
thread up to the next one. A signal to a thread is one pending flag, so signals coalesce. The queue
is what its calls make of it: an index that is in it is not pushed again, and a take removes one.
Takes may return the indices in any order, and may fail at any time.

`workerStep_of_program` lists what a step can do.
-/

set_option autoImplicit false
set_option relaxedAutoImplicit false

namespace Mcmp.Routines.Worker

open Foundation.ByteBits Foundation.Interleaving Utilities Utilities.BitmapScan

/-! ### The executor and its threads -/

/-- The users of an executor, which push indices and ask for beats, and its threads. -/
inductive Party
  | client
  | master
  | monitor (m : ℕ)
  deriving DecidableEq, Repr

/-- `McmchWorkerExecutorHeader`, the bitmap, the records `McmchWorkerMonitor`, the queue, and the
pending signals. -/
structure Executor where
  bitmapLength : ℕ
  length : ℕ
  failstry : ℤ
  bitmap : ByteMemory
  taskdata : ℕ → ℕ
  finished : ℕ → ℤ
  queue : ℕ → Bool
  masterPending : Bool
  pending : ℕ → Bool

/-- Where the master is: before which access, in `__priv__mcmch_monitor_handler` (`waiting`),
`__priv__mcmch_worker_monitor_run_cleanup_monitors` (`scanOccupied` to `storeFailstry`) and
`__priv__mcmch_worker_monitor_beat`. -/
inductive MasterStage
  | waiting
  | exchangeFailstry
  | scanOccupied (state : ScanState)
  | cleanFinished (m : ℕ)
  | clean (m tries : ℕ) (stage : AtomicBitmap.Stage)
  | storeFailstry
  | scanAvaible (state : ScanState)
  | readFinished (m : ℕ)
  | take (m : ℕ)
  | storeFinished (m : ℕ)
  | ping (m : ℕ)
  deriving DecidableEq, Repr

/-- Where a sub-monitor is, in `__priv__mcmch_monitor_handler` (`waiting`) and
`__priv__mcmch_worker_monitor_sub` with its two secure functions. -/
inductive MonitorStage
  | waiting
  | enable (tries : ℕ) (stage : AtomicBitmap.Stage)
  | readTask
  | storeFinished
  | disable (tries : ℕ) (stage : AtomicBitmap.Stage)
  | setFailstry
  deriving DecidableEq, Repr

/-- A thread of an executor. -/
inductive WorkerThread
  | client
  | master (stage : MasterStage)
  | monitor (m : ℕ) (stage : MonitorStage)
  deriving DecidableEq, Repr

/-- The events: the calls of the users; an index is taken from the queue into the record of a
sub-monitor, or the take fails; the master stores `finished = 0`; a sub-monitor calls the handler,
and stores `finished = 1`. The other accesses are internal. -/
inductive WorkerEvent
  | pushed (idx : ℕ) (status : Mcmpst)
  | beat
  | taken (m idx : ℕ)
  | takeFailed
  | assigned (m : ℕ)
  | handled (idx : ℕ)
  | finished
  | internal
  deriving DecidableEq, Repr

/-- What a party can be told to do. The threads of the executor go on by themselves; the two
outcomes of a take are choices. -/
inductive WorkerCommand
  | push (idx : ℕ)
  | beat
  | advance
  | take (idx : ℕ)
  | takeFails
  deriving DecidableEq, Repr

/-! ### The loops of tries -/

/-- A step of a loop that tries a call on a bit at most ten times. -/
def tryLoop {Next : Type*} (again : ℕ → AtomicBitmap.Stage → Next) (success failure : Next)
    (op : AtomicBitmap.BitOp) (tries : ℕ) (stage : AtomicBitmap.Stage) (bitmap : ByteMemory) :
    ByteMemory × Next :=
  match AtomicBitmap.callStep bitmap op stage with
  | (_, bitmap, .running _ stage) => (bitmap, again tries stage)
  | (event, bitmap, .idle) =>
    if event.status = some .success then (bitmap, success)
    else if tries + 1 < 10 then (bitmap, again (tries + 1) .load) else (bitmap, failure)

/-! ### The master -/

/-- The loop of `__priv__mcmch_worker_monitor_beat` when its scan has come to a result. -/
def assignAt (executor : Executor) : ScanResult → MasterStage
  | .more state => .scanAvaible state
  | .found bitidx => if bitidx < executor.length then .readFinished bitidx else .waiting
  | .missed => .waiting

/-- The loop of `__priv__mcmch_worker_monitor_beat` from an index on. -/
def assignFrom (executor : Executor) (offset : ℕ) : MasterStage :=
  assignAt executor (startScan offset executor.bitmapLength)

/-- The loop of `__priv__mcmch_worker_monitor_run_cleanup_monitors` when its scan has come to a
result. -/
def cleanAt (executor : Executor) : ScanResult → MasterStage
  | .more state => .scanOccupied state
  | .found bitidx =>
    if bitidx < executor.length then .cleanFinished bitidx else assignFrom executor 0
  | .missed => assignFrom executor 0

/-- The loop of `__priv__mcmch_worker_monitor_run_cleanup_monitors` from an index on. -/
def cleanFrom (executor : Executor) (offset : ℕ) : MasterStage :=
  cleanAt executor (startScan offset executor.bitmapLength)

/-- The next step of the master. -/
def masterStep (executor : Executor) :
    WorkerCommand → MasterStage → Option (WorkerEvent × Executor × MasterStage)
  | .advance, .waiting =>
    if executor.masterPending then
      some (.internal, { executor with masterPending := false }, .exchangeFailstry)
    else none
  | .advance, .exchangeFailstry =>
    some (.internal, { executor with failstry := 0 },
      if executor.failstry ≠ 0 then cleanFrom executor 0 else assignFrom executor 0)
  | .advance, .scanOccupied state =>
    some (.internal, executor,
      cleanAt executor (scanStep occupied 32 executor.bitmapLength executor.bitmap state))
  | .advance, .cleanFinished m =>
    some (.internal, executor,
      if executor.finished m = 0 then cleanFrom executor (m + 1) else .clean m 0 .load)
  | .advance, .clean m tries stage =>
    let (bitmap, next) := tryLoop (.clean m) (cleanFrom executor (m + 1)) .storeFailstry
      (.tryDisableBit m) tries stage executor.bitmap
    some (.internal, { executor with bitmap := bitmap }, next)
  | .advance, .storeFailstry =>
    some (.internal, { executor with failstry := 1 }, assignFrom executor 0)
  | .advance, .scanAvaible state =>
    some (.internal, executor,
      assignAt executor (scanStep avaible 64 executor.bitmapLength executor.bitmap state))
  | .advance, .readFinished m =>
    some (.internal, executor, if executor.finished m = 0 then .ping m else .take m)
  | .take idx, .take m =>
    if executor.queue idx then
      some (.taken m idx, { executor with
        queue := Function.update executor.queue idx false
        taskdata := Function.update executor.taskdata m idx }, .storeFinished m)
    else none
  | .takeFails, .take _ => some (.takeFailed, executor, .waiting)
  | .advance, .storeFinished m =>
    some (.assigned m, { executor with finished := Function.update executor.finished m 0 }, .ping m)
  | .advance, .ping m =>
    some (.internal, { executor with pending := Function.update executor.pending m true },
      assignFrom executor (m + 1))
  | _, _ => none

/-! ### The sub-monitors -/

/-- The next step of a sub-monitor. -/
def monitorStep (executor : Executor) (m : ℕ) :
    MonitorStage → Option (WorkerEvent × Executor × MonitorStage)
  | .waiting =>
    if executor.pending m then
      some (.internal, { executor with pending := Function.update executor.pending m false },
        .enable 0 .load)
    else none
  | .enable tries stage =>
    let (bitmap, next) := tryLoop .enable .readTask .waiting (.tryEnableBit m) tries stage
      executor.bitmap
    some (.internal, { executor with bitmap := bitmap }, next)
  | .readTask => some (.handled (executor.taskdata m), executor, .storeFinished)
  | .storeFinished =>
    some (.finished, { executor with finished := Function.update executor.finished m 1 },
      .disable 0 .load)
  | .disable tries stage =>
    let (bitmap, next) := tryLoop .disable .waiting .setFailstry (.tryDisableBit m) tries stage
      executor.bitmap
    some (.internal, { executor with bitmap := bitmap }, next)
  | .setFailstry =>
    some (.internal,
      { executor with failstry := if executor.failstry = 0 then 1 else executor.failstry },
      .waiting)

/-- The threads of an executor and its users. -/
def workerMachine : Machine WorkerCommand Executor WorkerThread WorkerEvent
  | .push idx, executor, .client =>
    if executor.queue idx then some (.pushed idx .alrop, executor, .client)
    else some (.pushed idx .success,
      { executor with queue := Function.update executor.queue idx true }, .client)
  | .beat, executor, .client => some (.beat, { executor with masterPending := true }, .client)
  | command, executor, .master stage =>
    (masterStep executor command stage).map fun (event, executor, stage) ↦
      (event, executor, .master stage)
  | .advance, executor, .monitor m stage =>
    (monitorStep executor m stage).map fun (event, executor, stage) ↦
      (event, executor, .monitor m stage)
  | _, _, _ => none

/-- The start: all bits clear, `failstry` zero, every sub-monitor finished, nothing in the queue and
no signal pending. What the records hold as tasks is arbitrary. -/
def initially (length : ℕ) (taskdata : ℕ → ℕ) : Config Party Executor WorkerThread :=
  ⟨⟨(length + 7) / 8, length, 0, fun _ ↦ 0, taskdata, fun _ ↦ 1, fun _ ↦ false, false,
    fun _ ↦ false⟩,
    fun
      | .client => .client
      | .master => .master .waiting
      | .monitor m => .monitor m .waiting⟩

/-- The runs of an executor with a number of sub-monitors. -/
abbrev WorkerRun (guard : Guard Party Executor WorkerThread WorkerEvent) (length : ℕ)
    (taskdata : ℕ → ℕ) :=
  Run workerMachine.program guard (initially length taskdata)

/-! ### What one step does -/

/-- A step of a loop of tries changes nothing and goes on or gives up, or succeeds and leaves the
value of the call in its bit. -/
theorem tryLoop_cases {Next : Type*} (again : ℕ → AtomicBitmap.Stage → Next)
    (success failure : Next) (op : AtomicBitmap.BitOp) (tries : ℕ) (stage : AtomicBitmap.Stage)
    (bitmap : ByteMemory) :
    (∃ tries' stage', tryLoop again success failure op tries stage bitmap =
        (bitmap, again tries' stage')) ∨
      tryLoop again success failure op tries stage bitmap = (bitmap, failure) ∨
      ∃ bitmap', tryLoop again success failure op tries stage bitmap = (bitmap', success) ∧
        ∀ j, bit bitmap' j = if j = op.idx then op.value else bit bitmap j := by
  unfold tryLoop
  generalize hcall : AtomicBitmap.callStep bitmap op stage = result
  obtain ⟨event, bitmap', thread⟩ := result
  have hstep : AtomicBitmap.bitMachine.program bitmap (.running op stage) event bitmap' thread :=
    ⟨.advance, congrArg some hcall⟩
  rcases AtomicBitmap.step_cases hstep with ⟨_, hthread, -⟩ | ⟨_, hthread, -, rfl, rfl, rfl⟩ |
    ⟨_, hthread, -, rfl, rfl, rfl⟩ | ⟨_, _, hthread, rfl, rfl, rfl⟩ | ⟨_, hthread, rfl, hbit, rfl⟩
  · cases hthread
  · -- a claim of a set bit
    by_cases hmore : tries + 1 < 10
    · exact Or.inl ⟨tries + 1, .load, by simp [AtomicBitmap.BitEvent.status, hmore]⟩
    · exact Or.inr (Or.inl (by simp [AtomicBitmap.BitEvent.status, hmore]))
  · exact Or.inl ⟨tries, _, rfl⟩
  · -- the byte has changed since it was loaded
    by_cases hmore : tries + 1 < 10
    · exact Or.inl ⟨tries + 1, .load, by simp [AtomicBitmap.BitEvent.status, hmore]⟩
    · exact Or.inr (Or.inl (by simp [AtomicBitmap.BitEvent.status, hmore]))
  · cases hthread
    exact Or.inr (Or.inr ⟨bitmap', rfl, hbit⟩)

section Steps

variable (config : Config Party Executor WorkerThread)

/-- The master is at a stage. -/
def MasterAt (stage : MasterStage) : Prop := config.threads .master = .master stage

/-- A sub-monitor is at a stage. -/
def MonitorAt (m : ℕ) (stage : MonitorStage) : Prop :=
  config.threads (.monitor m) = .monitor m stage

/-- Every party is the thread of its name. -/
structure Housed : Prop where
  client : config.threads .client = .client
  master : ∃ stage, MasterAt config stage
  monitor : ∀ m, ∃ stage, MonitorAt config m stage

/-- A step of a party: its event, and the executor and the party after it. -/
inductive WorkerStep : Party → WorkerEvent → Executor → WorkerThread → Prop
  | refused (idx : ℕ) : WorkerStep .client (.pushed idx .alrop) config.shared .client
  | pushed (idx : ℕ) :
      WorkerStep .client (.pushed idx .success)
        { config.shared with queue := Function.update config.shared.queue idx true } .client
  | beat : WorkerStep .client .beat { config.shared with masterPending := true } .client
  | masterWoken : MasterAt config .waiting →
      WorkerStep .master .internal { config.shared with masterPending := false }
        (.master .exchangeFailstry)
  | exchanged : MasterAt config .exchangeFailstry →
      WorkerStep .master .internal { config.shared with failstry := 0 }
        (.master (if config.shared.failstry ≠ 0 then cleanFrom config.shared 0
          else assignFrom config.shared 0))
  | scannedOccupied (state : ScanState) : MasterAt config (.scanOccupied state) →
      WorkerStep .master .internal config.shared
        (.master (cleanAt config.shared
          (scanStep occupied 32 config.shared.bitmapLength config.shared.bitmap state)))
  | cleanSkipped (m : ℕ) : MasterAt config (.cleanFinished m) → config.shared.finished m = 0 →
      WorkerStep .master .internal config.shared (.master (cleanFrom config.shared (m + 1)))
  | cleanStarted (m : ℕ) : MasterAt config (.cleanFinished m) → config.shared.finished m ≠ 0 →
      WorkerStep .master .internal config.shared (.master (.clean m 0 .load))
  | cleaning {m tries : ℕ} {stage : AtomicBitmap.Stage} (tries' : ℕ)
      (stage' : AtomicBitmap.Stage) : MasterAt config (.clean m tries stage) →
      WorkerStep .master .internal config.shared (.master (.clean m tries' stage'))
  | cleanFailed {m tries : ℕ} {stage : AtomicBitmap.Stage} :
      MasterAt config (.clean m tries stage) →
      WorkerStep .master .internal config.shared (.master .storeFailstry)
  | cleaned {m tries : ℕ} {stage : AtomicBitmap.Stage} (bitmap : ByteMemory) :
      MasterAt config (.clean m tries stage) →
      (∀ j, bit bitmap j = if j = m then false else bit config.shared.bitmap j) →
      WorkerStep .master .internal { config.shared with bitmap := bitmap }
        (.master (cleanFrom config.shared (m + 1)))
  | storedFailstry : MasterAt config .storeFailstry →
      WorkerStep .master .internal { config.shared with failstry := 1 }
        (.master (assignFrom config.shared 0))
  | scannedAvaible (state : ScanState) : MasterAt config (.scanAvaible state) →
      WorkerStep .master .internal config.shared
        (.master (assignAt config.shared
          (scanStep avaible 64 config.shared.bitmapLength config.shared.bitmap state)))
  | readUnfinished (m : ℕ) : MasterAt config (.readFinished m) → config.shared.finished m = 0 →
      WorkerStep .master .internal config.shared (.master (.ping m))
  | readFinished (m : ℕ) : MasterAt config (.readFinished m) → config.shared.finished m ≠ 0 →
      WorkerStep .master .internal config.shared (.master (.take m))
  | taken (m idx : ℕ) : MasterAt config (.take m) → config.shared.queue idx = true →
      WorkerStep .master (.taken m idx)
        { config.shared with
          queue := Function.update config.shared.queue idx false
          taskdata := Function.update config.shared.taskdata m idx }
        (.master (.storeFinished m))
  | takeFailed (m : ℕ) : MasterAt config (.take m) →
      WorkerStep .master .takeFailed config.shared (.master .waiting)
  | assigned (m : ℕ) : MasterAt config (.storeFinished m) →
      WorkerStep .master (.assigned m)
        { config.shared with finished := Function.update config.shared.finished m 0 }
        (.master (.ping m))
  | pinged (m : ℕ) : MasterAt config (.ping m) →
      WorkerStep .master .internal
        { config.shared with pending := Function.update config.shared.pending m true }
        (.master (assignFrom config.shared (m + 1)))
  | woken (m : ℕ) : MonitorAt config m .waiting →
      WorkerStep (.monitor m) .internal
        { config.shared with pending := Function.update config.shared.pending m false }
        (.monitor m (.enable 0 .load))
  | enabling {m tries : ℕ} {stage : AtomicBitmap.Stage} (tries' : ℕ)
      (stage' : AtomicBitmap.Stage) : MonitorAt config m (.enable tries stage) →
      WorkerStep (.monitor m) .internal config.shared (.monitor m (.enable tries' stage'))
  | enableFailed {m tries : ℕ} {stage : AtomicBitmap.Stage} :
      MonitorAt config m (.enable tries stage) →
      WorkerStep (.monitor m) .internal config.shared (.monitor m .waiting)
  | enabled {m tries : ℕ} {stage : AtomicBitmap.Stage} (bitmap : ByteMemory) :
      MonitorAt config m (.enable tries stage) →
      (∀ j, bit bitmap j = if j = m then true else bit config.shared.bitmap j) →
      WorkerStep (.monitor m) .internal { config.shared with bitmap := bitmap }
        (.monitor m .readTask)
  | handled (m : ℕ) : MonitorAt config m .readTask →
      WorkerStep (.monitor m) (.handled (config.shared.taskdata m)) config.shared
        (.monitor m .storeFinished)
  | finished (m : ℕ) : MonitorAt config m .storeFinished →
      WorkerStep (.monitor m) .finished
        { config.shared with finished := Function.update config.shared.finished m 1 }
        (.monitor m (.disable 0 .load))
  | disabling {m tries : ℕ} {stage : AtomicBitmap.Stage} (tries' : ℕ)
      (stage' : AtomicBitmap.Stage) : MonitorAt config m (.disable tries stage) →
      WorkerStep (.monitor m) .internal config.shared (.monitor m (.disable tries' stage'))
  | disableFailed {m tries : ℕ} {stage : AtomicBitmap.Stage} :
      MonitorAt config m (.disable tries stage) →
      WorkerStep (.monitor m) .internal config.shared (.monitor m .setFailstry)
  | disabled {m tries : ℕ} {stage : AtomicBitmap.Stage} (bitmap : ByteMemory) :
      MonitorAt config m (.disable tries stage) →
      (∀ j, bit bitmap j = if j = m then false else bit config.shared.bitmap j) →
      WorkerStep (.monitor m) .internal { config.shared with bitmap := bitmap }
        (.monitor m .waiting)
  | setFailstry (m : ℕ) : MonitorAt config m .setFailstry →
      WorkerStep (.monitor m) .internal
        { config.shared with
          failstry := if config.shared.failstry = 0 then 1 else config.shared.failstry }
        (.monitor m .waiting)

variable {config}

/-- The steps of the master are listed. -/
theorem workerStep_of_masterStep {command : WorkerCommand} {stage stage' : MasterStage}
    {event : WorkerEvent} {executor : Executor} (hstage : MasterAt config stage)
    (hstep : masterStep config.shared command stage = some (event, executor, stage')) :
    WorkerStep config .master event executor (.master stage') := by
  cases stage with
  | waiting =>
    cases command with
    | advance =>
      simp only [masterStep] at hstep
      split at hstep
      · cases hstep
        exact .masterWoken hstage
      · cases hstep
    | _ => cases hstep
  | exchangeFailstry =>
    cases command with
    | advance =>
      cases hstep
      exact .exchanged hstage
    | _ => cases hstep
  | scanOccupied state =>
    cases command with
    | advance =>
      cases hstep
      exact .scannedOccupied state hstage
    | _ => cases hstep
  | cleanFinished m =>
    cases command with
    | advance =>
      cases hstep
      by_cases hfinished : config.shared.finished m = 0
      · rw [if_pos hfinished]
        exact .cleanSkipped m hstage hfinished
      · rw [if_neg hfinished]
        exact .cleanStarted m hstage hfinished
    | _ => cases hstep
  | clean m tries stage =>
    cases command with
    | advance =>
      simp only [masterStep] at hstep
      rcases tryLoop_cases (MasterStage.clean m) (cleanFrom config.shared (m + 1)) .storeFailstry
        (.tryDisableBit m) tries stage config.shared.bitmap with ⟨tries', stage', htry⟩ | htry |
        ⟨bitmap, htry, hbit⟩
      · rw [htry] at hstep
        cases hstep
        exact .cleaning tries' stage' hstage
      · rw [htry] at hstep
        cases hstep
        exact .cleanFailed hstage
      · rw [htry] at hstep
        cases hstep
        exact .cleaned bitmap hstage hbit
    | _ => cases hstep
  | storeFailstry =>
    cases command with
    | advance =>
      cases hstep
      exact .storedFailstry hstage
    | _ => cases hstep
  | scanAvaible state =>
    cases command with
    | advance =>
      cases hstep
      exact .scannedAvaible state hstage
    | _ => cases hstep
  | readFinished m =>
    cases command with
    | advance =>
      cases hstep
      by_cases hfinished : config.shared.finished m = 0
      · rw [if_pos hfinished]
        exact .readUnfinished m hstage hfinished
      · rw [if_neg hfinished]
        exact .readFinished m hstage hfinished
    | _ => cases hstep
  | take m =>
    cases command with
    | take idx =>
      simp only [masterStep] at hstep
      split at hstep
      · rename_i hqueue
        cases hstep
        exact .taken m idx hstage hqueue
      · cases hstep
    | takeFails =>
      cases hstep
      exact .takeFailed m hstage
    | _ => cases hstep
  | storeFinished m =>
    cases command with
    | advance =>
      cases hstep
      exact .assigned m hstage
    | _ => cases hstep
  | ping m =>
    cases command with
    | advance =>
      cases hstep
      exact .pinged m hstage
    | _ => cases hstep

/-- The steps of a sub-monitor are listed. -/
theorem workerStep_of_monitorStep {m : ℕ} {stage stage' : MonitorStage} {event : WorkerEvent}
    {executor : Executor} (hstage : MonitorAt config m stage)
    (hstep : monitorStep config.shared m stage = some (event, executor, stage')) :
    WorkerStep config (.monitor m) event executor (.monitor m stage') := by
  cases stage with
  | waiting =>
    simp only [monitorStep] at hstep
    split at hstep
    · cases hstep
      exact .woken m hstage
    · cases hstep
  | enable tries stage =>
    simp only [monitorStep] at hstep
    rcases tryLoop_cases MonitorStage.enable .readTask .waiting (.tryEnableBit m) tries stage
      config.shared.bitmap with ⟨tries', stage', htry⟩ | htry | ⟨bitmap, htry, hbit⟩
    · rw [htry] at hstep
      cases hstep
      exact .enabling tries' stage' hstage
    · rw [htry] at hstep
      cases hstep
      exact .enableFailed hstage
    · rw [htry] at hstep
      cases hstep
      exact .enabled bitmap hstage hbit
  | readTask =>
    cases hstep
    exact .handled m hstage
  | storeFinished =>
    cases hstep
    exact .finished m hstage
  | disable tries stage =>
    simp only [monitorStep] at hstep
    rcases tryLoop_cases MonitorStage.disable .waiting .setFailstry (.tryDisableBit m) tries stage
      config.shared.bitmap with ⟨tries', stage', htry⟩ | htry | ⟨bitmap, htry, hbit⟩
    · rw [htry] at hstep
      cases hstep
      exact .disabling tries' stage' hstage
    · rw [htry] at hstep
      cases hstep
      exact .disableFailed hstage
    · rw [htry] at hstep
      cases hstep
      exact .disabled bitmap hstage hbit
  | setFailstry =>
    cases hstep
    exact .setFailstry m hstage

/-- What a step of an executor can do. -/
theorem workerStep_of_program (hhoused : Housed config) {party : Party} {event : WorkerEvent}
    {executor : Executor} {thread : WorkerThread}
    (hprogram : workerMachine.program config.shared (config.threads party) event executor thread) :
    WorkerStep config party event executor thread := by
  obtain ⟨command, hstep⟩ := hprogram
  cases party with
  | client =>
    rw [hhoused.client] at hstep
    cases command with
    | push idx =>
      simp only [workerMachine] at hstep
      split at hstep
      · cases hstep
        exact .refused idx
      · cases hstep
        exact .pushed idx
    | beat =>
      cases hstep
      exact .beat
    | _ => cases hstep
  | master =>
    obtain ⟨stage, hstage⟩ := hhoused.master
    rw [hstage] at hstep
    simp only [workerMachine] at hstep
    obtain ⟨⟨event', executor', stage'⟩, hmaster, heq⟩ := Option.map_eq_some_iff.mp hstep
    cases heq
    exact workerStep_of_masterStep hstage hmaster
  | monitor m =>
    obtain ⟨stage, hstage⟩ := hhoused.monitor m
    rw [hstage] at hstep
    cases command with
    | advance =>
      obtain ⟨⟨event', executor', stage'⟩, hmonitor, heq⟩ := Option.map_eq_some_iff.mp hstep
      cases heq
      exact workerStep_of_monitorStep hstage hmonitor
    | _ => cases hstep

/-! ### Where the parties are after a step -/

section After

variable (executor : Executor) (thread : WorkerThread) (m : ℕ)

@[simp] theorem masterAt_advance_client (stage : MasterStage) :
    MasterAt (config.advance .client executor thread) stage ↔ MasterAt config stage := by
  rw [MasterAt, Config.advance_threads_of_ne _ (by simp), MasterAt]

@[simp] theorem masterAt_advance_monitor (stage : MasterStage) :
    MasterAt (config.advance (.monitor m) executor thread) stage ↔ MasterAt config stage := by
  rw [MasterAt, Config.advance_threads_of_ne _ (by simp), MasterAt]

@[simp] theorem masterAt_advance_master (stage stage' : MasterStage) :
    MasterAt (config.advance .master executor (.master stage')) stage ↔ stage' = stage := by
  rw [MasterAt, Config.advance_threads_self, WorkerThread.master.injEq]

@[simp] theorem monitorAt_advance_client (stage : MonitorStage) :
    MonitorAt (config.advance .client executor thread) m stage ↔ MonitorAt config m stage := by
  rw [MonitorAt, Config.advance_threads_of_ne _ (by simp), MonitorAt]

@[simp] theorem monitorAt_advance_master (stage : MonitorStage) :
    MonitorAt (config.advance .master executor thread) m stage ↔ MonitorAt config m stage := by
  rw [MonitorAt, Config.advance_threads_of_ne _ (by simp), MonitorAt]

@[simp] theorem monitorAt_advance_self (stage stage' : MonitorStage) :
    MonitorAt (config.advance (.monitor m) executor (.monitor m stage')) m stage ↔
      stage' = stage := by
  rw [MonitorAt, Config.advance_threads_self, WorkerThread.monitor.injEq, eq_self, true_and]

theorem monitorAt_advance_of_ne {other : ℕ} (hne : other ≠ m) (stage : MonitorStage) :
    MonitorAt (config.advance (.monitor m) executor thread) other stage ↔
      MonitorAt config other stage := by
  rw [MonitorAt, Config.advance_threads_of_ne _ (by simpa using hne), MonitorAt]

end After

/-- A party is at one stage. -/
theorem MasterAt.unique {stage stage' : MasterStage} (hstage : MasterAt config stage)
    (hstage' : MasterAt config stage') : stage = stage' :=
  WorkerThread.master.inj (hstage.symm.trans hstage')

theorem MonitorAt.unique {m : ℕ} {stage stage' : MonitorStage} (hstage : MonitorAt config m stage)
    (hstage' : MonitorAt config m stage') : stage = stage' :=
  (WorkerThread.monitor.inj (hstage.symm.trans hstage')).2

/-- A party stays the thread of its name. -/
theorem WorkerStep.thread_cases {party : Party} {event : WorkerEvent} {executor : Executor}
    {thread : WorkerThread} (hstep : WorkerStep config party event executor thread) :
    (party = .client ∧ thread = .client) ∨ (party = .master ∧ ∃ stage, thread = .master stage) ∨
      ∃ m stage, party = .monitor m ∧ thread = .monitor m stage := by
  cases hstep <;> simp

theorem Housed.advance (hhoused : Housed config) {party : Party} {event : WorkerEvent}
    {executor : Executor} {thread : WorkerThread}
    (hstep : WorkerStep config party event executor thread) :
    Housed (config.advance party executor thread) := by
  rcases hstep.thread_cases with ⟨rfl, rfl⟩ | ⟨rfl, stage, rfl⟩ | ⟨m, stage, rfl, rfl⟩
  · refine ⟨Config.advance_threads_self _ _ _ _, ?_, fun m ↦ ?_⟩
    · simpa using hhoused.master
    · simpa using hhoused.monitor m
  · refine ⟨?_, ⟨stage, by simp⟩, fun m ↦ ?_⟩
    · rw [Config.advance_threads_of_ne _ (by simp)]
      exact hhoused.client
    · simpa using hhoused.monitor m
  · refine ⟨?_, ?_, fun other ↦ ?_⟩
    · rw [Config.advance_threads_of_ne _ (by simp)]
      exact hhoused.client
    · simpa using hhoused.master
    · by_cases hsame : other = m
      · subst hsame
        exact ⟨stage, by simp⟩
      · simpa [monitorAt_advance_of_ne _ _ _ hsame] using hhoused.monitor other

end Steps

/-! ### Runs -/

section Runs

variable {guard : Guard Party Executor WorkerThread WorkerEvent} {length : ℕ} {taskdata : ℕ → ℕ}

theorem housed_initially : Housed (initially length taskdata) :=
  ⟨rfl, ⟨_, rfl⟩, fun _ ↦ ⟨_, rfl⟩⟩

theorem housed_of_run {history : List (Party × WorkerEvent)}
    {config : Config Party Executor WorkerThread}
    (hrun : WorkerRun guard length taskdata history config) : Housed config := by
  apply hrun.invariant (fun _ config ↦ Housed config) housed_initially
  intro _ config _ _ _ _ _ hhoused _ hprogram
  exact hhoused.advance (workerStep_of_program hhoused hprogram)

/-- The induction rule of the runs of an executor. -/
theorem worker_invariant
    (property : List (Party × WorkerEvent) → Config Party Executor WorkerThread → Prop)
    (hstart : property [] (initially length taskdata))
    (hstep : ∀ history config party event executor thread,
      property history config → guard history config party event →
      WorkerStep config party event executor thread →
      property (history ++ [(party, event)]) (config.advance party executor thread))
    {history : List (Party × WorkerEvent)} {config : Config Party Executor WorkerThread}
    (hrun : WorkerRun guard length taskdata history config) : property history config := by
  apply hrun.invariant property hstart
  intro history config party event executor thread hpast hproperty hguard hprogram
  exact hstep _ _ _ _ _ _ hproperty hguard (workerStep_of_program (housed_of_run hpast) hprogram)

/-- The number of sub-monitors does not change. -/
theorem length_of_run {history : List (Party × WorkerEvent)}
    {config : Config Party Executor WorkerThread}
    (hrun : WorkerRun guard length taskdata history config) : config.shared.length = length := by
  refine worker_invariant (fun _ config ↦ config.shared.length = length) rfl ?_ hrun
  intro history config party event executor thread hlength _ hstep
  have hsame : executor.length = config.shared.length := by cases hstep <;> rfl
  exact hsame.trans hlength

end Runs

/-! ### Schedules -/

/-- Lets a thread go on for a number of steps. -/
def goOn (party : Party) (steps : ℕ) : List (Party × WorkerCommand) :=
  List.replicate steps (party, .advance)

/-- A beat in which the master finds the first sub-monitor free, takes an index for it and stops
before it clears the flag. -/
def takeFirst (idx : ℕ) : List (Party × WorkerCommand) :=
  (Party.client, WorkerCommand.beat) :: goOn .master 4 ++ [(Party.master, WorkerCommand.take idx)]

end Mcmp.Routines.Worker
