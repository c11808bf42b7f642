import Mcmp.Routines.MonitorThreadFair
import Mcmp.Routines.WorkerDestroy

/-!
# The destruction of a worker executor in fair executions

In the executions here a thread of the executor goes on whenever it is not waiting for a signal that
has not come, and the destruction goes on until it has to wait for the end of a thread. Then
`mcmchWorkerDestroy` returns, unless a signal terminates the process or a user lets the executor
beat after the master was joined (`mcmchWorkerDestroy_returns`).

A beat of the master and a task of a sub-monitor take a bounded number of steps, whatever the other
threads do to the block in the meantime: the scans of the master only move forward, and each loop of
tries is left after ten of them (`beatRank_step`). A thread whose `running` is clear therefore
reaches its end, since it begins at most the calls that it was about to begin (`threadRank_step`).
-/

set_option autoImplicit false
set_option relaxedAutoImplicit false

namespace Mcmp.Routines.WorkerDestroy

open Foundation.ByteBits Foundation.Fairness Foundation.Interleaving Utilities Utilities.BitmapScan
open MonitorThread (MonitorState HandlerStage OwnerStage MonitorEvent MonitorCommand MonitorStep
  mcmchMonitorPing mcmchMonitorHandler mcmchMonitorDestroy)
open Worker (Executor MasterStage MonitorStage WorkerEvent WorkerCommand WorkerThread masterStep
  monitorStep workerMachine tryLoop assignAt assignFrom cleanAt cleanFrom)

/-! ### How long a call of the handler takes -/

/-- The accesses that a loop of tries is away from its end at most. -/
def tryRank (tries : ℕ) : AtomicBitmap.Stage → ℕ
  | .load => 2 * (10 - tries) + 2
  | .compareExchange _ => 2 * (10 - tries) + 1

/-- The accesses that a beat of the master is away from its end at most, when the indices of bits
and monitors are below a span. -/
def masterRank (span : ℕ) : MasterStage → ℕ
  | .waiting => 0
  | .scanAvaible state => 5 * (span - state.position) + 1
  | .readFinished m => 5 * (span - m)
  | .take m => 5 * (span - m) - 1
  | .storeFinished m => 5 * (span - m) - 2
  | .ping m => 5 * (span - m) - 3
  | .storeFailstry => 5 * span + 2
  | .clean m tries stage => 5 * span + 2 + (30 * (span - m) - 28 + tryRank tries stage)
  | .cleanFinished m => 5 * span + 2 + 30 * (span - m)
  | .scanOccupied state => 5 * span + 2 + (30 * (span - state.position) + 1)
  | .exchangeFailstry => 35 * span + 4

/-- The accesses that the task of a sub-monitor is away from its end at most. -/
def subRank : MonitorStage → ℕ
  | .waiting => 0
  | .setFailstry => 1
  | .disable tries stage => 2 + tryRank tries stage
  | .storeFinished => 25
  | .readTask => 26
  | .enable tries stage => 27 + tryRank tries stage

def beatRank (span : ℕ) : Beat → ℕ
  | .master stage => masterRank span stage
  | .sub _ stage => subRank stage

/-- The indices of bits and monitors of an executor are below it. -/
def span (executor : Executor) : ℕ := executor.length + 8 * executor.bitmapLength

/-- The monitor that the master is busy with is one of the executor. -/
def Inside (length : ℕ) : MasterStage → Prop
  | .cleanFinished m => m < length
  | .clean m _ _ => m < length
  | .readFinished m => m < length
  | .take m => m < length
  | .storeFinished m => m < length
  | .ping m => m < length
  | _ => True

/-- The monitor that a call is busy with is one of the executor. -/
def Beat.Inside (length : ℕ) : Beat → Prop
  | .master stage => WorkerDestroy.Inside length stage
  | .sub _ _ => True

section Ranks

variable {executor executor' : Executor} {command : WorkerCommand} {event : WorkerEvent}

theorem tryRank_le (tries : ℕ) (stage : AtomicBitmap.Stage) : tryRank tries stage ≤ 22 := by
  cases stage <;> simp only [tryRank] <;> omega

theorem tryRank_pos (tries : ℕ) (stage : AtomicBitmap.Stage) : 0 < tryRank tries stage := by
  cases stage <;> simp [tryRank]

/-- A step of a loop of tries gets nearer to its end, or is left. -/
theorem tryLoop_rank {Next : Type*} (again : ℕ → AtomicBitmap.Stage → Next)
    (success failure : Next) (op : AtomicBitmap.BitOp) (tries : ℕ) (stage : AtomicBitmap.Stage)
    (bitmap : ByteMemory) :
    (∃ tries' stage', (tryLoop again success failure op tries stage bitmap).2 =
        again tries' stage' ∧ tryRank tries' stage' < tryRank tries stage) ∨
      (tryLoop again success failure op tries stage bitmap).2 = success ∨
      (tryLoop again success failure op tries stage bitmap).2 = failure := by
  unfold tryLoop
  generalize hcall : AtomicBitmap.callStep bitmap op stage = result
  obtain ⟨event, bitmap', thread⟩ := result
  cases thread with
  | idle =>
    simp only
    split_ifs with hsuccess hmore
    · exact Or.inr (Or.inl rfl)
    · refine Or.inl ⟨tries + 1, .load, rfl, ?_⟩
      cases stage <;> simp only [tryRank] <;> omega
    · exact Or.inr (Or.inr rfl)
  | running op' stage' =>
    refine Or.inl ⟨tries, stage', rfl, ?_⟩
    have hstep : AtomicBitmap.bitMachine.program bitmap (.running op stage) event bitmap'
        (.running op' stage') := ⟨.advance, congrArg some hcall⟩
    rcases AtomicBitmap.step_cases hstep with ⟨_, hthread, -⟩ | ⟨_, _, -, -, -, hthread⟩ |
      ⟨_, hthread, -, -, -, hnext⟩ | ⟨_, _, _, -, -, hthread⟩ | ⟨_, _, -, -, hthread⟩
    · cases hthread
    · cases hthread
    · cases hthread
      cases hnext
      simp [tryRank]
    · cases hthread
    · cases hthread

theorem position_lt_next (len : ℕ) (state : ScanState) :
    state.position < 8 * state.next len := by
  cases state with
  | first offset =>
    simp only [ScanState.position, ScanState.next]
    omega
  | chunk i =>
    have hwidth : 0 < chunkWidth len i := by
      unfold chunkWidth
      split_ifs <;> omega
    simp only [ScanState.position, ScanState.next]
    omega

/-- A load of a scan finds a bit behind its position, moves its position on, or ends it. -/
theorem scanStep_forward (selection : Selection) {register : ℕ} (hregister : 8 ≤ register)
    (len : ℕ) (bitmap : ByteMemory) (state : ScanState) :
    (∃ k, scanStep selection register len bitmap state = .found k ∧ state.position ≤ k) ∨
      (∃ state', scanStep selection register len bitmap state = .more state' ∧
        state.position < state'.position ∧ state'.position < 8 * len) ∨
      scanStep selection register len bitmap state = .missed := by
  rcases scanStep_next selection hregister len bitmap state with
    ⟨k, hfound, hlower, -⟩ | ⟨hscan, -⟩
  · exact Or.inl ⟨k, hfound, hlower⟩
  · rw [hscan, scanAt]
    split_ifs with hmore
    · refine Or.inr (Or.inl ⟨_, rfl, position_lt_next len state, ?_⟩)
      simp only [ScanState.position]
      omega
    · exact Or.inr (Or.inr rfl)

/-- The search for a free sub-monitor from an index on. -/
theorem assignFrom_rank (executor : Executor) (offset : ℕ) :
    masterRank (span executor) (assignFrom executor offset) ≤
        5 * (span executor - offset) + 1 ∧
      Inside executor.length (assignFrom executor offset) := by
  unfold assignFrom startScan
  split_ifs
  · exact ⟨Nat.zero_le _, trivial⟩
  · exact ⟨le_rfl, trivial⟩

theorem assignAt_rank (executor : Executor) (state : ScanState) :
    masterRank (span executor) (assignAt executor
        (scanStep avaible 64 executor.bitmapLength executor.bitmap state)) <
        masterRank (span executor) (.scanAvaible state) ∧
      Inside executor.length (assignAt executor
        (scanStep avaible 64 executor.bitmapLength executor.bitmap state)) := by
  rcases scanStep_forward avaible (by omega : 8 ≤ 64) executor.bitmapLength executor.bitmap state
    with ⟨k, hfound, hlower⟩ | ⟨state', hmore, hlower, hupper⟩ | hmissed
  · rw [hfound, assignAt]
    split_ifs with hlength
    · refine ⟨?_, hlength⟩
      simp only [masterRank]
      omega
    · exact ⟨Nat.succ_pos _, trivial⟩
  · rw [hmore]
    refine ⟨?_, trivial⟩
    simp only [assignAt, masterRank, span]
    omega
  · rw [hmissed]
    exact ⟨Nat.succ_pos _, trivial⟩

/-- The clean-up from an index on. -/
theorem cleanFrom_rank (executor : Executor) (offset : ℕ) :
    masterRank (span executor) (cleanFrom executor offset) ≤
        5 * span executor + 2 + (30 * (span executor - offset) + 1) ∧
      Inside executor.length (cleanFrom executor offset) := by
  have hassign := assignFrom_rank executor 0
  unfold cleanFrom startScan
  split_ifs
  · refine ⟨?_, hassign.2⟩
    have hle := hassign.1
    simp only [cleanAt]
    omega
  · exact ⟨le_rfl, trivial⟩

theorem cleanAt_rank (executor : Executor) (state : ScanState) :
    masterRank (span executor) (cleanAt executor
        (scanStep occupied 32 executor.bitmapLength executor.bitmap state)) <
        masterRank (span executor) (.scanOccupied state) ∧
      Inside executor.length (cleanAt executor
        (scanStep occupied 32 executor.bitmapLength executor.bitmap state)) := by
  have hassign := assignFrom_rank executor 0
  have hlow : masterRank (span executor) (assignFrom executor 0) <
      masterRank (span executor) (.scanOccupied state) := by
    have hle := hassign.1
    simp only [masterRank] at hle ⊢
    omega
  rcases scanStep_forward occupied (by omega : 8 ≤ 32) executor.bitmapLength executor.bitmap state
    with ⟨k, hfound, hlower⟩ | ⟨state', hmore, hlower, hupper⟩ | hmissed
  · rw [hfound, cleanAt]
    split_ifs with hlength
    · refine ⟨?_, hlength⟩
      simp only [masterRank]
      omega
    · exact ⟨hlow, hassign.2⟩
  · rw [hmore]
    refine ⟨?_, trivial⟩
    simp only [cleanAt, masterRank, span]
    omega
  · rw [hmissed]
    exact ⟨hlow, hassign.2⟩

/-- A step of a beat gets nearer to its end. -/
theorem masterRank_step {stage stage' : MasterStage} (hinside : Inside executor.length stage)
    (hbusy : stage ≠ .waiting)
    (hstep : masterStep executor command stage = some (event, executor', stage')) :
    masterRank (span executor) stage' < masterRank (span executor) stage ∧
      Inside executor.length stage' := by
  have hspan {m : ℕ} (hm : m < executor.length) : m < span executor :=
    hm.trans_le (Nat.le_add_right _ _)
  cases stage with
  | waiting => exact absurd rfl hbusy
  | exchangeFailstry =>
    cases command <;> cases hstep
    have hclean := cleanFrom_rank executor 0
    have hassign := assignFrom_rank executor 0
    split_ifs
    · refine ⟨hclean.1.trans_lt ?_, hclean.2⟩
      simp only [masterRank]
      omega
    · refine ⟨hassign.1.trans_lt ?_, hassign.2⟩
      simp only [masterRank]
      omega
  | scanOccupied state =>
    cases command <;> cases hstep
    exact cleanAt_rank executor state
  | cleanFinished m =>
    cases command <;> cases hstep
    have hm := hspan hinside
    split_ifs
    · have hclean := cleanFrom_rank executor (m + 1)
      refine ⟨hclean.1.trans_lt ?_, hclean.2⟩
      simp only [masterRank]
      omega
    · refine ⟨?_, hinside⟩
      simp only [masterRank, tryRank]
      omega
  | clean m tries stage =>
    cases command with
    | advance =>
      have hm := hspan hinside
      have hpos := tryRank_pos tries stage
      simp only [masterStep, Option.some.injEq, Prod.mk.injEq] at hstep
      obtain ⟨-, -, rfl⟩ := hstep
      rcases tryLoop_rank (MasterStage.clean m) (cleanFrom executor (m + 1)) .storeFailstry
        (.tryDisableBit m) tries stage executor.bitmap with ⟨tries', stage', htry, hless⟩ | htry |
        htry
      · rw [htry]
        refine ⟨?_, hinside⟩
        simp only [masterRank]
        omega
      · rw [htry]
        have hclean := cleanFrom_rank executor (m + 1)
        refine ⟨hclean.1.trans_lt ?_, hclean.2⟩
        simp only [masterRank]
        omega
      · rw [htry]
        refine ⟨?_, trivial⟩
        simp only [masterRank]
        omega
    | _ => cases hstep
  | storeFailstry =>
    cases command <;> cases hstep
    have hassign := assignFrom_rank { executor with failstry := 1 } 0
    refine ⟨hassign.1.trans_lt ?_, hassign.2⟩
    simp only [masterRank, span]
    omega
  | scanAvaible state =>
    cases command <;> cases hstep
    exact assignAt_rank executor state
  | readFinished m =>
    cases command <;> cases hstep
    have hm := hspan hinside
    split_ifs
    · refine ⟨?_, hinside⟩
      simp only [masterRank]
      omega
    · refine ⟨?_, hinside⟩
      simp only [masterRank]
      omega
  | take m =>
    have hm := hspan hinside
    cases command with
    | take idx =>
      simp only [masterStep] at hstep
      split_ifs at hstep
      cases hstep
      refine ⟨?_, hinside⟩
      simp only [masterRank]
      omega
    | takeFails =>
      cases hstep
      refine ⟨?_, trivial⟩
      simp only [masterRank]
      omega
    | _ => cases hstep
  | storeFinished m =>
    cases command <;> cases hstep
    have hm := hspan hinside
    refine ⟨?_, hinside⟩
    simp only [masterRank]
    omega
  | ping m =>
    cases command <;> cases hstep
    have hm := hspan hinside
    have hassign := assignFrom_rank executor (m + 1)
    refine ⟨hassign.1.trans_lt ?_, hassign.2⟩
    simp only [masterRank]
    omega

/-- A step of a task gets nearer to its end. -/
theorem subRank_step {m : ℕ} {stage stage' : MonitorStage} (hbusy : stage ≠ .waiting)
    (hstep : monitorStep executor m stage = some (event, executor', stage')) :
    subRank stage' < subRank stage := by
  cases stage with
  | waiting => exact absurd rfl hbusy
  | enable tries stage =>
    simp only [monitorStep, Option.some.injEq, Prod.mk.injEq] at hstep
    obtain ⟨-, -, rfl⟩ := hstep
    rcases tryLoop_rank MonitorStage.enable .readTask .waiting (.tryEnableBit m) tries stage
      executor.bitmap with ⟨tries', stage', htry, hless⟩ | htry | htry <;> rw [htry] <;>
      simp only [subRank] <;> omega
  | disable tries stage =>
    simp only [monitorStep, Option.some.injEq, Prod.mk.injEq] at hstep
    obtain ⟨-, -, rfl⟩ := hstep
    rcases tryLoop_rank MonitorStage.disable .waiting .setFailstry (.tryDisableBit m) tries stage
      executor.bitmap with ⟨tries', stage', htry, hless⟩ | htry | htry <;> rw [htry] <;>
      simp only [subRank] <;> omega
  | readTask | storeFinished | setFailstry =>
    cases hstep
    simp [subRank, tryRank]

/-- A step of a call of the handler gets nearer to its end. -/
theorem beatRank_step {beat next : Beat} (hinside : beat.Inside executor.length)
    (hstep : beatStep executor command beat = some (event, executor', next)) :
    beatRank (span executor) next < beatRank (span executor) beat ∧
      next.Inside executor.length := by
  cases beat with
  | master stage =>
    simp only [beatStep] at hstep
    split_ifs at hstep with hbusy
    obtain ⟨⟨event', executor'', stage'⟩, hnext, hresult⟩ := Option.map_eq_some_iff.mp hstep
    cases hresult
    exact masterRank_step hinside hbusy hnext
  | sub m stage =>
    simp only [beatStep] at hstep
    split_ifs at hstep with hbusy
    obtain ⟨⟨event', executor'', stage'⟩, hnext, hresult⟩ := Option.map_eq_some_iff.mp hstep
    cases hresult
    exact ⟨subRank_step (not_or.mp hbusy).1 hnext, trivial⟩

/-- No call of the handler takes longer than this. -/
def longest (span : ℕ) : ℕ := 35 * span + 49

theorem beatRank_le (span : ℕ) (beat : Beat) : beatRank span beat ≤ longest span := by
  cases beat with
  | master stage =>
    cases stage with
    | clean m tries stage =>
      have hle := tryRank_le tries stage
      simp only [beatRank, masterRank, longest]
      omega
    | _ =>
      simp only [beatRank, masterRank, longest]
      omega
  | sub m stage =>
    cases stage with
    | enable tries stage | disable tries stage =>
      have hle := tryRank_le tries stage
      simp only [beatRank, subRank, longest]
      omega
    | _ =>
      simp only [beatRank, subRank, longest]
      omega

end Ranks

/-! ### What holds on the way -/

/-- The destruction has begun. -/
def Begun (history : DestroyHistory) : Prop := (.owner, .destroying 0 .stopped) ∈ history

/-- What holds of the threads and their owner besides the record. -/
structure Sound (executor : Executor) (history : DestroyHistory) (config : DestroyConfig) :
    Prop where
  recorded : Recorded executor.length history config
  bitmapLength : config.shared.executor.bitmapLength = executor.bitmapLength
  inside : ∀ k stage beat, ThreadAt config k stage beat → beat.Inside executor.length
  begun : Begun history → ¬ OwnerAt config (.destroying 0 .idle)
  undone : ∀ k, ¬ OwnerAt config (.destroying k .done)
  running : ∀ k stage, OwnerAt config (.destroying k stage) → stage ≠ .idle →
    (config.shared.monitors k).running = false
  pending : ∀ k beat, OwnerAt config (.destroying k .joining) → config.shared.terminated = false →
    ThreadAt config k .waiting beat → (config.shared.monitors k).signal.pending = true

section Invariants

variable {executor : Executor} {inherited : ℕ → Bool} {history : DestroyHistory}
  {config : DestroyConfig} {party : Party} {event : DestroyEvent} {state : ExecutorState}
  {actor : Actor}

theorem Sound.span_eq (hsound : Sound executor history config) :
    span config.shared.executor = span executor := by
  rw [span, hsound.recorded.length, hsound.bitmapLength, span]

theorem begun_concat : Begun (history ++ [(party, event)]) ↔
    Begun history ∨ party = .owner ∧ event = .destroying 0 .stopped := by
  simp [Begun, eq_comm]

theorem bitmapLength_step (hmove : DestroyMove config party event state actor) :
    state.executor.bitmapLength = config.shared.executor.bitmapLength := by
  cases hmove with
  | worked _ _ hstep | pinged _ _ hstep => exact (beatStep_keeps hstep).2.2
  | queued _ _ hstep => exact (queued_keeps hstep).2
  | _ => rfl

theorem begin_inside (length : ℕ) (beat : Beat) : beat.begin.Inside length := by
  cases beat <;> trivial

theorem inside_step (hsound : Sound executor history config)
    (hmove : DestroyMove config party event state actor) (k : ℕ) (stage : HandlerStage)
    (beat : Beat) (hat : ThreadAt (config.advance party state actor) k stage beat) :
    beat.Inside executor.length := by
  by_cases hparty : party = .monitor k
  · subst hparty
    cases hmove with
    | looped hbefore =>
      cases threadAt_advance_self.mp hat
      split_ifs
      · exact begin_inside _ _
      · exact hsound.inside k _ _ hbefore
    | worked hbefore _ hstep | pinged hbefore _ hstep =>
      cases threadAt_advance_self.mp hat
      have hinside := hsound.inside k _ _ hbefore
      rw [← hsound.recorded.length] at hinside ⊢
      exact (beatRank_step hinside hstep).2
  · exact hsound.inside k stage beat ((threadAt_advance_of_ne hparty).mp hat)

/-- A step of a thread does not change `running` of its monitor. -/
theorem looped_running {monitor monitor' : MonitorState} {command : MonitorCommand}
    {event : MonitorEvent} {stage next : HandlerStage}
    (hstep : mcmchMonitorHandler monitor command stage = some (event, monitor', next)) :
    monitor'.running = monitor.running := by
  cases looped_step hstep <;> rfl

/-- A thread begins to wait only while `running` is set. -/
theorem looped_waiting {monitor monitor' : MonitorState} {command : MonitorCommand}
    {event : MonitorEvent} {stage : HandlerStage}
    (hstep : mcmchMonitorHandler monitor command stage = some (event, monitor', .waiting)) :
    monitor.running = true := by
  generalize hnext : MonitorThread.Actor.handler .waiting = next
  have hmove := looped_step hstep
  rw [hnext] at hmove
  cases hmove with
  | looped _ hrunning => exact hrunning
  | @beaten st status errno _ hst =>
    rcases MonitorThread.afterBeat_cases hst status errno with h | ⟨-, -, h | h⟩ <;>
      simp [h] at hnext
  | _ => simp at hnext

@[simp] theorem ping_running (state : ExecutorState) (k other : ℕ) :
    ((state.ping k).monitors other).running = (state.monitors other).running := by
  by_cases hsame : other = k
  · subst hsame
    rw [ExecutorState.ping, withMonitor_monitors_self]
    exact (MonitorThread.ping_keeps _).1
  · rw [ExecutorState.ping, withMonitor_monitors_of_ne _ hsame]

/-- A step leaves `running` of a monitor as it is, or it is one of the destruction of the monitor,
behind which `running` is clear. -/
theorem running_step (hsound : Sound executor history config)
    (hmove : DestroyMove config party event state actor) (k : ℕ) (stage : OwnerStage)
    (hat : OwnerAt (config.advance party state actor) (.destroying k stage))
    (hstage : stage ≠ .idle) : (state.monitors k).running = false := by
  cases hmove with
  | @looped j _ _ _ _ _ _ _ _ hstep =>
    have hpast := hsound.running k stage (by simpa using hat) hstage
    by_cases hsame : k = j
    · subst hsame
      rw [withMonitor_monitors_self, looped_running hstep, hpast]
    · rw [withMonitor_monitors_of_ne _ hsame, hpast]
  | @destroying j stage' next _ _ _ howner hstep =>
    rw [ownerAt_advance_self, Actor.owner.injEq, afterJoin] at hat
    split_ifs at hat with hdone hmore
    · cases hat
      exact absurd rfl hstage
    · cases hat
      rw [withMonitor_monitors_self]
      rcases destroying_cases hstep with ⟨-, -, -, rfl⟩ | ⟨rfl, -, -, rfl⟩ | ⟨-, -, rfl, -⟩
      · rfl
      · rw [(MonitorThread.ping_keeps _).1]
        exact hsound.running k _ howner (by simp)
      · exact absurd rfl hdone
  | freed => simp at hat
  | worked | pinged | queued | beaten =>
    simpa [mcmchWorkerBeat] using hsound.running k stage (by simpa using hat) hstage

/-- A signal that does not terminate the process is pending on a thread that waits. -/
theorem pending_ping (hrecorded : Recorded executor.length history config) {k : ℕ} {beat : Beat}
    (hwaiting : ThreadAt config k .waiting beat)
    (hgoes : (mcmchMonitorPing (config.shared.monitors k)).terminated = false) :
    (mcmchMonitorPing (config.shared.monitors k)).signal.pending = true := by
  rcases MonitorThread.ping_cases (config.shared.monitors k) with
    ⟨hended, -⟩ | ⟨-, -, hping⟩ | ⟨-, -, hping⟩
  · have hstage := hwaiting.ended_iff.mp ((hrecorded.ended k).mp hended)
    cases hstage
  · rw [hping]
  · simp [hping] at hgoes

/-- A signal to any thread leaves a signal pending on a thread that waits with one pending. -/
theorem pending_of_ping (hrecorded : Recorded executor.length history config) {k target : ℕ}
    {beat : Beat} (hwaiting : ThreadAt config k .waiting beat)
    (hpast : (config.shared.monitors k).signal.pending = true) {state : ExecutorState}
    (hsame : state.monitors = config.shared.monitors)
    (hgoes : (state.ping target).terminated = false) :
    ((state.ping target).monitors k).signal.pending = true := by
  by_cases htarget : k = target
  · subst htarget
    rw [ExecutorState.ping, withMonitor_monitors_self, hsame]
    refine pending_ping hrecorded hwaiting ?_
    rw [ExecutorState.ping, ExecutorState.withMonitor, Bool.or_eq_false_iff, hsame] at hgoes
    exact hgoes.2
  · rw [ExecutorState.ping, withMonitor_monitors_of_ne _ htarget, hsame, hpast]

theorem pending_step (hsound : Sound executor history config)
    (hbefore : config.shared.terminated = false)
    (hmove : DestroyMove config party event state actor) (k : ℕ) (beat : Beat)
    (howner : OwnerAt (config.advance party state actor) (.destroying k .joining))
    (hgoes : state.terminated = false)
    (hwaiting : ThreadAt (config.advance party state actor) k .waiting beat) :
    (state.monitors k).signal.pending = true := by
  have hpast : OwnerAt config (.destroying k .joining) → ThreadAt config k .waiting beat →
      (config.shared.monitors k).signal.pending = true :=
    fun h ↦ hsound.pending k beat h hbefore
  cases hmove with
  | @looped j stage next _ _ _ _ hat _ hstep =>
    by_cases hsame : k = j
    · -- The thread would have found `running` set.
      subst hsame
      obtain ⟨rfl, -⟩ := Actor.monitor.inj (threadAt_advance_self.mp hwaiting)
      have hclear := hsound.running k .joining (by simpa using howner) (by simp)
      rw [looped_waiting hstep] at hclear
      cases hclear
    · rw [withMonitor_monitors_of_ne _ hsame]
      exact hpast (by simpa using howner)
        ((threadAt_advance_of_ne (by simpa [eq_comm] using hsame)).mp hwaiting)
  | @worked j stage _ _ _ _ _ hat hbeating =>
    by_cases hsame : k = j
    · subst hsame
      obtain ⟨rfl, -⟩ := Actor.monitor.inj (threadAt_advance_self.mp hwaiting)
      cases hbeating
    · exact hpast (by simpa using howner)
        ((threadAt_advance_of_ne (by simpa [eq_comm] using hsame)).mp hwaiting)
  | @pinged j target stage _ _ _ _ _ hat hbeating =>
    by_cases hsame : k = j
    · subst hsame
      obtain ⟨rfl, -⟩ := Actor.monitor.inj (threadAt_advance_self.mp hwaiting)
      cases hbeating
    · have hat' := (threadAt_advance_of_ne (by simpa [eq_comm] using hsame)).mp hwaiting
      exact pending_of_ping hsound.recorded hat' (hpast (by simpa using howner) hat') rfl hgoes
  | @destroying j stage next _ _ _ hat hstep =>
    have hat' := (threadAt_advance_of_ne (by simp)).mp hwaiting
    rw [ownerAt_advance_self, Actor.owner.injEq, afterJoin] at howner
    split_ifs at howner with hdone hmore
    · cases howner
    · cases howner
      rcases destroying_cases hstep with ⟨-, -, h, -⟩ | ⟨-, -, -, rfl⟩ | ⟨-, -, h, -⟩
      · cases h
      · rw [withMonitor_monitors_self]
        rw [ExecutorState.withMonitor, Bool.or_eq_false_iff] at hgoes
        exact pending_ping hsound.recorded hat' hgoes.2
      · cases h
  | freed => simp at howner
  | queued => exact hpast (by simpa using howner) ((threadAt_advance_of_ne (by simp)).mp hwaiting)
  | beaten =>
    have hat' := (threadAt_advance_of_ne (by simp)).mp hwaiting
    exact pending_of_ping hsound.recorded hat' (hpast (by simpa using howner) hat') rfl hgoes

theorem begun_step (hsound : Sound executor history config)
    (hmove : DestroyMove config party event state actor)
    (hbegun : Begun (history ++ [(party, event)])) :
    ¬ OwnerAt (config.advance party state actor) (.destroying 0 .idle) := by
  intro hat
  rw [begun_concat] at hbegun
  cases hmove with
  | @destroying j stage next _ _ _ howner hstep =>
    rw [ownerAt_advance_self, Actor.owner.injEq, afterJoin] at hat
    split_ifs at hat with hdone hmore
    · cases hat
    · cases hat
      rcases destroying_cases hstep with ⟨-, -, h, -⟩ | ⟨-, -, h, -⟩ | ⟨-, -, h, -⟩ <;> cases h
  | freed => simp at hat
  | _ => exact hsound.begun (by simpa using hbegun) (by simpa using hat)

theorem undone_step (hsound : Sound executor history config)
    (hmove : DestroyMove config party event state actor) (k : ℕ) :
    ¬ OwnerAt (config.advance party state actor) (.destroying k .done) := by
  intro hat
  cases hmove with
  | destroying =>
    rw [ownerAt_advance_self, Actor.owner.injEq, afterJoin] at hat
    split_ifs at hat with hdone hmore
    · cases hat
    · cases hat
      exact hdone rfl
  | freed => simp at hat
  | _ => exact hsound.undone k (by simpa using hat)

theorem sound_started : Sound executor [] (started executor inherited) where
  recorded := recorded_started
  bitmapLength := rfl
  inside k stage beat hat := by
    obtain ⟨-, rfl⟩ := Actor.monitor.inj hat
    cases k <;> trivial
  begun h := by simp [Begun] at h
  undone k hat := by cases hat
  running k stage hat hstage := by
    cases hat
    exact absurd rfl hstage
  pending k beat hat := by cases hat

theorem sound_of_run (hrun : DestroyRun executor inherited history config) :
    Sound executor history config := by
  refine hrun.invariant (fun history config ↦ Sound executor history config) sound_started ?_
  intro history config party event state actor hpast hsound _ hprogram
  obtain ⟨hgoes, hmove⟩ := destroyMove_of_program hsound.recorded.housed hprogram
  have hrecorded := recorded_of_run (hpast.step trivial hprogram)
  exact ⟨hrecorded, (bitmapLength_step hmove).trans hsound.bitmapLength, inside_step hsound hmove,
    begun_step hsound hmove, undone_step hsound hmove, running_step hsound hmove,
    fun k beat howner ↦ pending_step hsound hgoes hmove k beat howner⟩

end Invariants

/-! ### Fair executions -/

/-- The executions of an executor from its start. -/
abbrev DestroyExecution (executor : Executor) (inherited : ℕ → Bool) :=
  Execution destroyMachine.program anyStep (started executor inherited)

/-- The parties that are obliged to go on. The destruction is not obliged to begin. -/
def obliged : Party → DestroyConfig → Prop
  | .monitor k, config => config.shared.terminated = false ∧ ¬ Ended config k ∧
      ∀ beat, ThreadAt config k .waiting beat → (config.shared.monitors k).signal.pending = true
  | .owner, config => config.shared.terminated = false ∧
      (OwnerAt config .freeing ∨ ∃ k stage, OwnerAt config (.destroying k stage) ∧
        (stage = .idle → k ≠ 0) ∧
        (stage = .joining → (config.shared.monitors k).signal.ended = true))
  | .user _, _ => False

/-- The destruction has freed the block, or the process is terminated. -/
def Returned (history : DestroyHistory) (config : DestroyConfig) : Prop :=
  Freed history ∨ config.shared.terminated = true

/-- The steps that a thread is at most away from its end when `running` of its monitor is clear. -/
def threadRank (span k : ℕ) (config : DestroyConfig) : ℕ :=
  match config.threads (.monitor k) with
  | .monitor stage beat => MonitorThread.endRank stage * (longest span + 1) +
      if isBeating stage then beatRank span beat else 0
  | _ => 0

section Progress

variable {executor : Executor} {inherited : ℕ → Bool} {history : DestroyHistory}
  {config : DestroyConfig} {party : Party} {event : DestroyEvent} {state : ExecutorState}
  {actor : Actor} {execution : DestroyExecution executor inherited}

/-- The rule of fair executions of an executor, with the steps that `DestroyMove` lists. -/
theorem destroy_leadsTo (hfair : execution.Fair obliged)
    {first second : DestroyHistory → DestroyConfig → Prop} (helper : Party)
    (rank : DestroyConfig → ℕ)
    (hobliged : ∀ {history : DestroyHistory} {config : DestroyConfig},
      Sound executor history config → first history config → ¬ second history config →
      obliged helper config)
    (hkept : ∀ {history : DestroyHistory} {config : DestroyConfig} {party : Party}
      {event : DestroyEvent} {state : ExecutorState} {actor : Actor},
      Sound executor history config → first history config → ¬ second history config →
      DestroyMove config party event state actor →
      second (history ++ [(party, event)]) (config.advance party state actor) ∨
        first (history ++ [(party, event)]) (config.advance party state actor) ∧
          rank (config.advance party state actor) ≤ rank config ∧
          (party = helper → rank (config.advance party state actor) < rank config)) :
    execution.LeadsTo first second := by
  refine hfair.leadsTo helper rank (fun _ _ hrun ↦ hobliged (sound_of_run hrun)) ?_
  intro history config party event state actor hrun hfirst hsecond _ hprogram
  have hsound := sound_of_run hrun
  exact hkept hsound hfirst hsecond
    (destroyMove_of_program hsound.recorded.housed hprogram).2

/-- A thread whose `running` is clear gets nearer to its end with each step of its loop. -/
theorem endRank_looped {monitor monitor' : MonitorState} {command : MonitorCommand}
    {event : MonitorEvent} {stage next : HandlerStage} (hrunning : monitor.running = false)
    (hstep : mcmchMonitorHandler monitor command stage = some (event, monitor', next)) :
    MonitorThread.endRank next < MonitorThread.endRank stage := by
  have hclear : (alone monitor stage).shared.running = false := hrunning
  have hlower := (MonitorThread.endRank_step hclear (looped_step hstep)).2 rfl
  rwa [MonitorThread.stageRank_advance_handler] at hlower

/-- A thread whose `running` is clear gets nearer to its end with each of its steps, and those of
the others leave it where it is. -/
theorem threadRank_step (hsound : Sound executor history config) {k : ℕ}
    (hrunning : (config.shared.monitors k).running = false)
    (hmove : DestroyMove config party event state actor) :
    threadRank (span executor) k (config.advance party state actor) ≤
        threadRank (span executor) k config ∧
      (party = .monitor k → threadRank (span executor) k (config.advance party state actor) <
        threadRank (span executor) k config) := by
  by_cases hparty : party = .monitor k
  · subst hparty
    suffices hlower : threadRank (span executor) k (config.advance (.monitor k) state actor) <
        threadRank (span executor) k config from ⟨hlower.le, fun _ ↦ hlower⟩
    have hworked {stage : HandlerStage} {beat next : Beat} {command : WorkerCommand}
        {event : WorkerEvent} {executor' : Executor} (hat : ThreadAt config k stage beat)
        (hstep : beatStep config.shared.executor command beat = some (event, executor', next)) :
        beatRank (span executor) next < beatRank (span executor) beat := by
      have hinside := hsound.inside k stage beat hat
      rw [← hsound.recorded.length] at hinside
      rw [← hsound.span_eq]
      exact (beatRank_step hinside hstep).1
    cases hmove with
    | @looped _ stage next beat _ _ _ hat _ hstep =>
      have hactor : config.threads (.monitor k) = .monitor stage beat := hat
      have hend := endRank_looped hrunning hstep
      have hrounds := Nat.mul_le_mul_right (longest (span executor) + 1)
        (Nat.succ_le_of_lt hend)
      have hcall : (if isBeating next = true then
          beatRank (span executor) (if isBeating next = true then beat.begin else beat) else 0) ≤
            longest (span executor) := by
        split_ifs
        · exact beatRank_le _ _
        · exact Nat.zero_le _
      rw [Nat.succ_mul] at hrounds
      simp only [threadRank, hactor, Config.advance_threads_self]
      omega
    | @worked _ stage beat next _ _ _ hat hbeating hstep =>
      have hactor : config.threads (.monitor k) = .monitor stage beat := hat
      have hless := hworked hat hstep
      simp only [threadRank, hactor, Config.advance_threads_self, hbeating, if_true]
      omega
    | @pinged _ _ stage beat next _ _ _ hat hbeating hstep =>
      have hactor : config.threads (.monitor k) = .monitor stage beat := hat
      have hless := hworked hat hstep
      simp only [threadRank, hactor, Config.advance_threads_self, hbeating, if_true]
      omega
  · have hsame : threadRank (span executor) k (config.advance party state actor) =
        threadRank (span executor) k config := by
      rw [threadRank, threadRank, Config.advance_threads_of_ne _ (Ne.symm hparty)]
    exact ⟨hsame.le, fun h ↦ absurd h hparty⟩

/-- A step of another party leaves the destruction where it is. -/
theorem ownerAt_of_ne (hmove : DestroyMove config party event state actor)
    (hparty : party ≠ .owner) {stage : DestroyStage} (hat : OwnerAt config stage) :
    OwnerAt (config.advance party state actor) stage := by
  cases hmove with
  | destroying | freed => exact absurd rfl hparty
  | _ => simpa using hat

/-- The destruction goes on from a stage that it need not wait at. -/
theorem owner_leadsTo (hfair : execution.Fair obliged) (stage next : DestroyStage)
    (extra : DestroyConfig → Prop)
    (hobliged : ∀ {history : DestroyHistory} {config : DestroyConfig},
      Sound executor history config → OwnerAt config stage → extra config →
      config.shared.terminated = false → obliged .owner config)
    (hextra : ∀ {config : DestroyConfig} {party : Party} {event : DestroyEvent}
      {state : ExecutorState} {actor : Actor}, DestroyMove config party event state actor →
      extra config → extra (config.advance party state actor))
    (hnext : ∀ {history : DestroyHistory} {config : DestroyConfig} {event : DestroyEvent}
      {state : ExecutorState} {actor : Actor}, Sound executor history config →
      DestroyMove config .owner event state actor → OwnerAt config stage → actor = .owner next) :
    execution.LeadsTo (fun _ config ↦ OwnerAt config stage ∧ extra config)
      fun history config ↦ OwnerAt config next ∨ Returned history config := by
  refine destroy_leadsTo hfair .owner (fun _ ↦ 0) ?_ ?_
  · rintro history config hsound ⟨hat, hmore⟩ hsecond
    have hgoes : config.shared.terminated = false := by
      simpa using (not_or.mp (not_or.mp hsecond).2).2
    exact hobliged hsound hat hmore hgoes
  · rintro history config party event state actor hsound ⟨hat, hmore⟩ _ hmove
    by_cases hparty : party = .owner
    · subst hparty
      exact Or.inl (Or.inl (ownerAt_advance_self.mpr (hnext hsound hmove hat)))
    · exact Or.inr ⟨⟨ownerAt_of_ne hmove hparty hat, hextra hmove hmore⟩, le_rfl,
        fun h ↦ absurd h hparty⟩

/-- The step of the destruction at a stage of the destruction of one monitor. -/
theorem destroying_next {k : ℕ} {stage : OwnerStage}
    (hmove : DestroyMove config .owner event state actor)
    (hat : OwnerAt config (.destroying k stage)) :
    (stage = .idle ∧ actor = .owner (.destroying k .signalling)) ∨
      (stage = .signalling ∧ actor = .owner (.destroying k .joining)) ∨
      (stage = .joining ∧ actor = .owner (afterJoin config.shared.executor.length k) ∧
        (config.shared.monitors k).signal.ended = true) := by
  cases hmove with
  | destroying howner hstep =>
    cases hat.eq howner
    rcases destroying_cases hstep with ⟨rfl, -, rfl, -⟩ | ⟨rfl, -, rfl, -⟩ |
      ⟨rfl, -, rfl, -, hended⟩
    · exact Or.inl ⟨rfl, rfl⟩
    · exact Or.inr (Or.inl ⟨rfl, rfl⟩)
    · exact Or.inr (Or.inr ⟨rfl, rfl, hended⟩)
  | freed howner => cases hat.eq howner

theorem idle_leadsTo (hfair : execution.Fair obliged) {k : ℕ} (hk : k ≠ 0) :
    execution.LeadsTo (fun _ config ↦ OwnerAt config (.destroying k .idle) ∧ True)
      fun history config ↦ OwnerAt config (.destroying k .signalling) ∨
        Returned history config := by
  refine owner_leadsTo hfair _ _ _ ?_ (fun _ h ↦ h) ?_
  · exact fun _ hat _ hgoes ↦ ⟨hgoes, Or.inr ⟨k, _, hat, fun _ ↦ hk, by simp⟩⟩
  · intro history config event state actor _ hmove hat
    rcases destroying_next hmove hat with ⟨-, h⟩ | ⟨h, -⟩ | ⟨h, -⟩
    · exact h
    · cases h
    · cases h

theorem signalling_leadsTo (hfair : execution.Fair obliged) (k : ℕ) :
    execution.LeadsTo (fun _ config ↦ OwnerAt config (.destroying k .signalling) ∧ True)
      fun history config ↦ OwnerAt config (.destroying k .joining) ∨ Returned history config := by
  refine owner_leadsTo hfair _ _ _ ?_ (fun _ h ↦ h) ?_
  · exact fun _ hat _ hgoes ↦ ⟨hgoes, Or.inr ⟨k, _, hat, by simp, by simp⟩⟩
  · intro history config event state actor _ hmove hat
    rcases destroying_next hmove hat with ⟨h, -⟩ | ⟨-, h⟩ | ⟨h, -⟩
    · cases h
    · exact h
    · cases h

/-- A thread that is joined comes to its end. -/
theorem joining_leadsTo (hfair : execution.Fair obliged) (k : ℕ) :
    execution.LeadsTo (fun _ config ↦ OwnerAt config (.destroying k .joining))
      fun history config ↦ OwnerAt config (.destroying k .joining) ∧ Ended config k ∨
        Returned history config := by
  refine destroy_leadsTo hfair (.monitor k) (threadRank (span executor) k) ?_ ?_
  · intro history config hsound hat hsecond
    obtain ⟨hended, hreturned⟩ := not_or.mp hsecond
    have hgoes : config.shared.terminated = false := by simpa using (not_or.mp hreturned).2
    exact ⟨hgoes, fun h ↦ hended ⟨hat, h⟩, fun beat ↦ hsound.pending k beat hat hgoes⟩
  · intro history config party event state actor hsound hat hsecond hmove
    have hrank := threadRank_step hsound (hsound.running k _ hat (by simp)) hmove
    by_cases hparty : party = .owner
    · subst hparty
      rcases destroying_next hmove hat with ⟨h, -⟩ | ⟨h, -⟩ | ⟨-, -, hended⟩
      · cases h
      · cases h
      · exact absurd (Or.inl ⟨hat, (hsound.recorded.ended k).mp hended⟩) hsecond
    · exact Or.inr ⟨ownerAt_of_ne hmove hparty hat, hrank⟩

theorem joined_leadsTo (hfair : execution.Fair obliged) (k : ℕ) :
    execution.LeadsTo (fun _ config ↦ OwnerAt config (.destroying k .joining) ∧ Ended config k)
      fun history config ↦ OwnerAt config (afterJoin executor.length k) ∨
        Returned history config := by
  refine owner_leadsTo hfair _ _ (fun config ↦ Ended config k) ?_ ended_mono ?_
  · exact fun hsound hat hended hgoes ↦ ⟨hgoes, Or.inr ⟨k, _, hat, by simp,
      fun _ ↦ (hsound.recorded.ended k).mpr hended⟩⟩
  · intro history config event state actor hsound hmove hat
    rcases destroying_next hmove hat with ⟨h, -⟩ | ⟨h, -⟩ | ⟨-, h, -⟩
    · cases h
    · cases h
    · rw [h, hsound.recorded.length]

theorem freeing_leadsTo (hfair : execution.Fair obliged) :
    execution.LeadsTo (fun _ config ↦ OwnerAt config .freeing) Returned := by
  refine destroy_leadsTo hfair .owner (fun _ ↦ 0) ?_ ?_
  · intro history config hsound hat hsecond
    exact ⟨by simpa using (not_or.mp hsecond).2, Or.inl hat⟩
  · intro history config party event state actor hsound hat _ hmove
    by_cases hparty : party = .owner
    · subst hparty
      cases hmove with
      | destroying howner => cases hat.eq howner
      | freed => exact Or.inl (Or.inl (freed_concat.mpr (Or.inr ⟨rfl, rfl⟩)))
    · exact Or.inr ⟨ownerAt_of_ne hmove hparty hat, le_rfl, fun h ↦ absurd h hparty⟩

/-- From the end of a thread the destruction goes on to its return, if it does so from the signal to
the next one. -/
theorem joining_returns (hfair : execution.Fair obliged) {k : ℕ}
    (hnext : k < executor.length → execution.LeadsTo
      (fun _ config ↦ OwnerAt config (.destroying (k + 1) .signalling)) Returned) :
    execution.LeadsTo (fun _ config ↦ OwnerAt config (.destroying k .joining)) Returned := by
  refine (joining_leadsTo hfair k).trans_or ((joined_leadsTo hfair k).trans_or ?_)
  unfold afterJoin
  split_ifs with hmore
  · intro n hat
    exact ((idle_leadsTo hfair (Nat.succ_ne_zero k)).trans_or (hnext hmore)) n ⟨hat, trivial⟩
  · exact freeing_leadsTo hfair

theorem signalling_returns (hfair : execution.Fair obliged) (k : ℕ) :
    execution.LeadsTo (fun _ config ↦ OwnerAt config (.destroying k .signalling)) Returned := by
  intro n hat
  exact ((signalling_leadsTo hfair k).trans_or
    (joining_returns hfair fun _ ↦ signalling_returns hfair (k + 1))) n ⟨hat, trivial⟩
termination_by executor.length - k

/-- A destruction that has begun goes on to its return. -/
theorem begun_leadsTo_returned (hfair : execution.Fair obliged) :
    execution.LeadsTo (fun history _ ↦ Begun history) Returned := by
  intro n hbegun
  have hsound := sound_of_run (execution.run n)
  obtain ⟨stage, hat⟩ := hsound.recorded.housed.owner
  cases stage with
  | destroying k stage =>
    cases stage with
    | idle =>
      have hk : k ≠ 0 := by
        rintro rfl
        exact hsound.begun hbegun hat
      exact ((idle_leadsTo hfair hk).trans_or (signalling_returns hfair k)) n ⟨hat, trivial⟩
    | signalling => exact signalling_returns hfair k n hat
    | joining => exact joining_returns hfair (fun _ ↦ signalling_returns hfair (k + 1)) n hat
    | done => exact absurd hat (hsound.undone k)
  | freeing => exact freeing_leadsTo hfair n hat
  | done => exact ⟨n, le_rfl, Or.inl (hsound.recorded.freed.mpr hat)⟩

/-- A signal to the thread does not terminate the process. -/
def Guarded (monitor : MonitorState) : Prop :=
  monitor.terminated = false ∧ (monitor.signal.ended = true ∨ monitor.signal.blocked = true)

theorem guarded_ping {monitor : MonitorState} (hguarded : Guarded monitor) :
    Guarded (mcmchMonitorPing monitor) := by
  rcases MonitorThread.ping_cases monitor with ⟨-, hping⟩ | ⟨-, hblocked, hping⟩ |
    ⟨hended, hblocked, -⟩
  · rwa [hping]
  · rw [hping]
    exact ⟨hguarded.1, Or.inr hblocked⟩
  · rcases hguarded.2 with h | h
    · rw [hended] at h
      cases h
    · rw [hblocked] at h
      cases h

theorem guarded_looped {monitor monitor' : MonitorState} {command : MonitorCommand}
    {event : MonitorEvent} {stage next : HandlerStage} (hguarded : Guarded monitor)
    (hstep : mcmchMonitorHandler monitor command stage = some (event, monitor', next)) :
    Guarded monitor' := by
  have halone : Guarded (alone monitor stage).shared := hguarded
  obtain ⟨hgoes, hended⟩ := halone
  cases looped_step hstep with
  | blocked => exact ⟨hgoes, Or.inr rfl⟩
  | left | stopped | crashed => exact ⟨hgoes, Or.inl rfl⟩
  | _ => exact ⟨hgoes, hended⟩

/-- Where all threads block the signal from their start, no signal terminates the process. -/
theorem guarded_of_run (hinherited : ∀ k ≤ executor.length, inherited k = true)
    (hrun : DestroyRun executor inherited history config) :
    config.shared.terminated = false ∧ ∀ k, Guarded (config.shared.monitors k) := by
  have hwith {state : ExecutorState} {k : ℕ} {monitor : MonitorState}
      (hpast : state.terminated = false ∧ ∀ k, Guarded (state.monitors k))
      (hguarded : Guarded monitor) : (state.withMonitor k monitor).terminated = false ∧
        ∀ other, Guarded ((state.withMonitor k monitor).monitors other) := by
    refine ⟨by simp [ExecutorState.withMonitor, hpast.1, hguarded.1], fun other ↦ ?_⟩
    by_cases hsame : other = k
    · rwa [hsame, withMonitor_monitors_self]
    · rw [withMonitor_monitors_of_ne _ hsame]
      exact hpast.2 other
  refine hrun.invariant (fun _ (config : DestroyConfig) ↦ config.shared.terminated = false ∧
    ∀ k, Guarded (config.shared.monitors k)) ⟨rfl, fun k ↦ ⟨rfl, ?_⟩⟩ ?_
  · rcases Nat.lt_or_ge executor.length k with hk | hk
    · exact Or.inl (decide_eq_true hk)
    · exact Or.inr (hinherited k hk)
  · intro history config party event state actor hpast hguarded _ hprogram
    rw [Config.advance_shared]
    cases (destroyMove_of_program (recorded_of_run hpast).housed hprogram).2 with
    | looped _ _ hstep => exact hwith hguarded (guarded_looped (hguarded.2 _) hstep)
    | pinged => exact hwith hguarded (guarded_ping (hguarded.2 _))
    | beaten => exact hwith hguarded (guarded_ping (hguarded.2 0))
    | destroying _ hstep =>
      refine hwith hguarded ?_
      rcases destroying_cases hstep with ⟨-, -, -, rfl⟩ | ⟨-, -, -, rfl⟩ | ⟨-, -, -, rfl, -⟩
      · exact hguarded.2 _
      · exact guarded_ping (hguarded.2 _)
      · exact hguarded.2 _
    | worked | freed | queued => exact hguarded

/-- In a fair execution a destruction that has begun frees the block, unless a user lets the
executor beat after the master was joined, or the process is terminated, which no signal does where
every thread blocks the signal from its start. -/
theorem mcmchWorkerDestroy_returns (hfair : execution.Fair obliged) :
    execution.LeadsTo (fun history _ ↦ Begun history)
        (fun history config ↦ Returned history config ∨ ¬ BeatsInTime history) ∧
      ((∀ k ≤ executor.length, inherited k = true) →
        execution.LeadsTo (fun history _ ↦ Begun history)
          fun history _ ↦ Freed history ∨ ¬ BeatsInTime history) := by
  refine ⟨fun n hbegun ↦ ?_, fun hinherited n hbegun ↦ ?_⟩
  · obtain ⟨m, hnm, hreturned⟩ := begun_leadsTo_returned hfair n hbegun
    exact ⟨m, hnm, Or.inl hreturned⟩
  obtain ⟨m, hnm, hfreed | hterminated⟩ := begun_leadsTo_returned hfair n hbegun
  · exact ⟨m, hnm, Or.inl hfreed⟩
  · have hgoes := (guarded_of_run hinherited (execution.run m)).1
    rw [hterminated] at hgoes
    cases hgoes

/-- Nobody is obliged to go on once the block is freed. -/
theorem quiet_of_freed (hrun : DestroyRun executor inherited history config)
    (hfreed : Freed history) (party : Party) : ¬ obliged party config := by
  have hrecorded := recorded_of_run hrun
  have hdone := hrecorded.freed.mp hfreed
  cases party with
  | monitor k =>
    intro hobliged
    exact not_freed_of_not_ended hrecorded hobliged.2.1 hfreed
  | owner =>
    rintro ⟨-, hat | ⟨k, stage, hat, -⟩⟩ <;> cases hdone.eq hat
  | user => exact id

/-- A fair execution in which an executor of one sub-monitor is destroyed during a beat. -/
theorem mcmchWorkerDestroy_returns_one :
    ∃ execution : DestroyExecution oneWorker fun _ ↦ true, execution.Fair obliged ∧
      (∀ k ≤ oneWorker.length, (fun _ ↦ true : ℕ → Bool) k = true) ∧
      (execution.LeadsTo (fun history _ ↦ Begun history)
          (fun history config ↦ Returned history config ∨ ¬ BeatsInTime history) ∧
        ((∀ k ≤ oneWorker.length, (fun _ ↦ true : ℕ → Bool) k = true) →
          execution.LeadsTo (fun history _ ↦ Begun history)
            fun history _ ↦ Freed history ∨ ¬ BeatsInTime history)) ∧
      ∃ n, Begun (execution.history n) ∧ Freed (execution.history n) := by
  obtain ⟨history, config, hrun, hview⟩ := exists_run_of_play_view destroyMachine anyStep
    (started oneWorker fun _ ↦ true) oneDestruction
    (fun history _ ↦ (decide ((.owner, .destroying 0 .stopped) ∈ history),
      decide ((.owner, .freed) ∈ history))) (true, true) (by decide +kernel)
  simp only [Prod.mk.injEq, decide_eq_true_eq] at hview
  obtain ⟨execution, hfair, hrests⟩ := @exists_fair_execution _ _ _ _ _ _ _ _ _ _ hrun obliged
    (quiet_of_freed hrun hview.2)
  obtain ⟨hhistory, -⟩ := hrests history.length le_rfl
  refine ⟨execution, hfair, fun _ _ ↦ rfl, mcmchWorkerDestroy_returns hfair, history.length, ?_⟩
  rw [hhistory]
  exact hview

end Progress

end Mcmp.Routines.WorkerDestroy
