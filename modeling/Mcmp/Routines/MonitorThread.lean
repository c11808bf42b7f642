import Mcmp.Foundation.Fairness
import Mcmp.Foundation.Signals
import Mcmp.Status

/-!
# The thread of a monitor

`__priv__mcmch_monitor_handler` of monitor.c, the thread that `mcmchMonitorStart` makes, and what
`mcmchMonitorPing` and `mcmchMonitorDestroy` do to it. The thread blocks `SIGUSR1` and then waits
for it in a loop. A ping sends the signal, any number of users may do so at any time; each time the
thread wakes it calls the handler of the monitor, unless it finds `running` clear. A destruction
clears `running`, sends the signal once more, and joins the thread.

A step is one access to `running`, one call of the kernel, or the beginning or the end of a call of
the handler. A wait may also fail with any status; the source looks for `-1` there, and then calls
the handler a second time, for which it reads `errno` after the first call has returned.

Pings that arrive while the signal is pending are answered by one call
(`monitorHandler_answersPings`). The thread blocks the signal itself, so a ping may be faster than
the thread (`mcmchMonitorPing_terminates_iff`).

The start is taken to have made the thread: the source drops what `pthread_create` returns. Once the
thread has been joined, its id is nobody's or that of another thread, and what a ping does then is
not defined. Here such a ping does nothing; the results that depend on it are about the runs in
which nobody pings behind the destruction (`PingsLive`).
-/

set_option autoImplicit false
set_option relaxedAutoImplicit false

namespace Mcmp.Routines.MonitorThread

open Foundation.Fairness Foundation.Interleaving Foundation.Signals

/-! ### The thread, its users and its owner -/

/-- `running` of the record, the thread as the target of the signal, and whether the signal has
terminated the process. -/
structure MonitorState where
  running : Bool
  signal : Target
  terminated : Bool
  deriving DecidableEq, Repr

/-- The thread of a monitor, the one that destroys it, and those that ping it. -/
inductive MonitorParty
  | handler
  | owner
  | user (i : ℕ)
  deriving DecidableEq, Repr

/-- Where the thread is: before it blocks the signal, before the condition of its loop, in the wait,
before the test of `running` behind a wait with a status, before and in a call of the handler, and
at its end. -/
inductive HandlerStage
  | blocking
  | loop
  | waiting
  | woken (status : ℤ)
  | calling (st : Mcmpst) (status : ℤ)
  | beating (st : Mcmpst) (status : ℤ)
  | ended
  deriving DecidableEq, Repr

/-- Where the one that destroys the monitor is: outside the call, before the signal, in the join,
and behind the call. -/
inductive OwnerStage
  | idle
  | signalling
  | joining
  | done
  deriving DecidableEq, Repr

inductive Actor
  | handler (stage : HandlerStage)
  | owner (stage : OwnerStage)
  | user
  deriving DecidableEq, Repr

/-- The events: the thread blocks the signal, reads `running` in the condition of its loop or behind
a wait, wakes with a status, calls the handler and gets back from it; a user pings; a destruction
clears `running`, sends the signal, and has joined the thread. -/
inductive MonitorEvent
  | blocked
  | looped (running : Bool)
  | woken (status : ℤ)
  | tested (running : Bool)
  | called (st : Mcmpst)
  | beaten (st : Mcmpst)
  | pinged
  | stopped
  | signalled
  | destroyed
  deriving DecidableEq, Repr

/-- What can be told to happen: a party goes on, a wait fails with a status, the handler returns and
leaves a value in `errno`, a user pings, a destruction begins. -/
inductive MonitorCommand
  | advance
  | fail (status : ℤ)
  | returns (errno : ℤ)
  | ping
  | destroy
  deriving DecidableEq, Repr

/-- `EAGAIN`. -/
def eagain : ℤ := 11

/-- `EINTR`. -/
def eintr : ℤ := 4

/-- `pthread_kill(pipeline, SIGUSR1)`. -/
def mcmchMonitorPing (state : MonitorState) : MonitorState :=
  match state.signal.kill with
  | some signal => { state with signal := signal }
  | none => { state with terminated := true }

/-- Where the thread goes on after a call of the handler. -/
def afterBeat (st : Mcmpst) (status errno : ℤ) : HandlerStage :=
  if st = .success then
    if status = -1 then
      if errno = eagain then .calling .ovtimeout status
      else if errno = eintr then .loop
      else .calling .critical status
    else .loop
  else if st = .critical then .ended
  else .loop

/-- The thread returns. -/
def MonitorState.finish (state : MonitorState) : MonitorState :=
  { state with signal := state.signal.finish }

/-- The next step of the thread. -/
def mcmchMonitorHandler (state : MonitorState) :
    MonitorCommand → HandlerStage → Option (MonitorEvent × MonitorState × HandlerStage)
  | .advance, .blocking => some (.blocked, { state with signal := state.signal.block }, .loop)
  | .advance, .loop =>
    if state.running then some (.looped true, state, .waiting)
    else some (.looped false, state.finish, .ended)
  | .advance, .waiting =>
    state.signal.sigwait.map fun signal ↦ (.woken 0, { state with signal := signal }, .woken 0)
  | .fail status, .waiting =>
    if status ≠ 0 then some (.woken status, state, .woken status) else none
  | .advance, .woken status =>
    if ¬state.running then some (.tested false, state.finish, .ended)
    else some (.tested true, state, .calling .success status)
  | .advance, .calling st status => some (.called st, state, .beating st status)
  | .returns errno, .beating st status =>
    let next := afterBeat st status errno
    some (.beaten st, if next = .ended then state.finish else state, next)
  | _, _ => none

/-- The next step of a destruction. -/
def mcmchMonitorDestroy (state : MonitorState) :
    MonitorCommand → OwnerStage → Option (MonitorEvent × MonitorState × OwnerStage)
  | .destroy, .idle => some (.stopped, { state with running := false }, .signalling)
  | .advance, .signalling => some (.signalled, mcmchMonitorPing state, .joining)
  | .advance, .joining => if state.signal.ended then some (.destroyed, state, .done) else none
  | _, _ => none

/-- The thread, its users and its owner. Nobody moves when the process is terminated. -/
def monitorMachine : Machine MonitorCommand MonitorState Actor MonitorEvent :=
  fun command state thread ↦
    if state.terminated then none
    else
      match thread with
      | .handler stage =>
        (mcmchMonitorHandler state command stage).map fun (event, state, stage) ↦
          (event, state, .handler stage)
      | .owner stage =>
        (mcmchMonitorDestroy state command stage).map fun (event, state, stage) ↦
          (event, state, .owner stage)
      | .user => if command = .ping then some (.pinged, mcmchMonitorPing state, .user) else none

/-- A monitor that has just been started by a thread that blocks the signal, or does not. -/
def started (inherited : Bool) : Config MonitorParty MonitorState Actor :=
  ⟨⟨true, ⟨inherited, false, false⟩, false⟩, fun
    | .handler => .handler .blocking
    | .owner => .owner .idle
    | .user _ => .user⟩

/-- A history of a monitor. -/
abbrev MonitorHistory := List (MonitorParty × MonitorEvent)

/-- A monitor between two steps. -/
abbrev MonitorConfig := Config MonitorParty MonitorState Actor

/-- The runs of a monitor from its start. -/
abbrev MonitorRun (inherited : Bool) := Run monitorMachine.program anyStep (started inherited)

/-- Nobody pings a monitor whose thread was joined. -/
def PingsLive : Guard MonitorParty MonitorState Actor MonitorEvent := fun history _ _ event ↦
  event = .pinged → (.owner, .destroyed) ∉ history

instance (history : MonitorHistory) (config : MonitorConfig) (party : MonitorParty)
    (event : MonitorEvent) : Decidable (PingsLive history config party event) :=
  inferInstanceAs (Decidable (_ → _))

/-- The runs in which nobody pings a monitor whose thread was joined. -/
abbrev LiveRun (inherited : Bool) := Run monitorMachine.program PingsLive (started inherited)

/-! ### What one step does -/

section Steps

variable {inherited : Bool} {history : MonitorHistory} {config : MonitorConfig}

/-- The thread is at a stage. -/
def HandlerAt (config : MonitorConfig) (stage : HandlerStage) : Prop :=
  config.threads .handler = .handler stage

/-- The owner is at a stage. -/
def OwnerAt (config : MonitorConfig) (stage : OwnerStage) : Prop :=
  config.threads .owner = .owner stage

/-- Every party is the actor of its name. -/
structure Housed (config : MonitorConfig) : Prop where
  handler : ∃ stage, HandlerAt config stage
  owner : ∃ stage, OwnerAt config stage
  user : ∀ i, config.threads (.user i) = .user

/-- A step of a party: its event, and the monitor and the party after it. -/
inductive MonitorStep (config : MonitorConfig) :
    MonitorParty → MonitorEvent → MonitorState → Actor → Prop
  | blocked : HandlerAt config .blocking → MonitorStep config .handler .blocked
      { config.shared with signal := config.shared.signal.block } (.handler .loop)
  | looped : HandlerAt config .loop → config.shared.running = true →
      MonitorStep config .handler (.looped true) config.shared (.handler .waiting)
  | left : HandlerAt config .loop → config.shared.running = false →
      MonitorStep config .handler (.looped false) config.shared.finish (.handler .ended)
  | woken : HandlerAt config .waiting → config.shared.signal.pending = true →
      MonitorStep config .handler (.woken 0)
        { config.shared with signal := { config.shared.signal with pending := false } }
        (.handler (.woken 0))
  | failed (status : ℤ) : HandlerAt config .waiting → status ≠ 0 →
      MonitorStep config .handler (.woken status) config.shared (.handler (.woken status))
  | stopped {status : ℤ} : HandlerAt config (.woken status) → config.shared.running = false →
      MonitorStep config .handler (.tested false) config.shared.finish (.handler .ended)
  | tested {status : ℤ} : HandlerAt config (.woken status) → config.shared.running = true →
      MonitorStep config .handler (.tested true) config.shared (.handler (.calling .success status))
  | called {st : Mcmpst} {status : ℤ} : HandlerAt config (.calling st status) →
      MonitorStep config .handler (.called st) config.shared (.handler (.beating st status))
  | beaten {st : Mcmpst} {status : ℤ} (errno : ℤ) : HandlerAt config (.beating st status) →
      st ≠ .critical → MonitorStep config .handler (.beaten st) config.shared
        (.handler (afterBeat st status errno))
  | crashed {status : ℤ} : HandlerAt config (.beating .critical status) →
      MonitorStep config .handler (.beaten .critical) config.shared.finish (.handler .ended)
  | pinged (i : ℕ) : MonitorStep config (.user i) .pinged (mcmchMonitorPing config.shared) .user
  | destroying : OwnerAt config .idle → MonitorStep config .owner .stopped
      { config.shared with running := false } (.owner .signalling)
  | signalled : OwnerAt config .signalling → MonitorStep config .owner .signalled
      (mcmchMonitorPing config.shared) (.owner .joining)
  | destroyed : OwnerAt config .joining → config.shared.signal.ended = true →
      MonitorStep config .owner .destroyed config.shared (.owner .done)

/-- A call that does not report a critical error leads to another call or back to the loop. -/
theorem afterBeat_cases {st : Mcmpst} (hst : st ≠ .critical) (status errno : ℤ) :
    afterBeat st status errno = .loop ∨
      (st = .success ∧ status = -1 ∧ (afterBeat st status errno = .calling .ovtimeout status ∨
        afterBeat st status errno = .calling .critical status)) := by
  unfold afterBeat
  split_ifs with hsuccess hstatus hagain hintr
  · exact Or.inr ⟨hsuccess, hstatus, Or.inl rfl⟩
  · exact Or.inl rfl
  · exact Or.inr ⟨hsuccess, hstatus, Or.inr rfl⟩
  · exact Or.inl rfl
  · exact Or.inl rfl

theorem afterBeat_ne_ended {st : Mcmpst} (hst : st ≠ .critical) (status errno : ℤ) :
    afterBeat st status errno ≠ .ended := by
  rcases afterBeat_cases hst status errno with h | ⟨-, -, h | h⟩ <;> rw [h] <;> simp

theorem afterBeat_ne_blocking {st : Mcmpst} (hst : st ≠ .critical) (status errno : ℤ) :
    afterBeat st status errno ≠ .blocking := by
  rcases afterBeat_cases hst status errno with h | ⟨-, -, h | h⟩ <;> rw [h] <;> simp

theorem afterBeat_ne_beating {st st' : Mcmpst} (hst : st ≠ .critical) (status errno status' : ℤ) :
    afterBeat st status errno ≠ .beating st' status' := by
  rcases afterBeat_cases hst status errno with h | ⟨-, -, h | h⟩ <;> rw [h] <;> simp

/-- The steps of the thread. -/
theorem handlerStep_of_eq_some {stage stage' : HandlerStage} {command : MonitorCommand}
    {event : MonitorEvent} {state' : MonitorState} (hat : HandlerAt config stage)
    (hstep : mcmchMonitorHandler config.shared command stage = some (event, state', stage')) :
    MonitorStep config .handler event state' (.handler stage') := by
  cases stage with
  | blocking =>
    cases command <;> simp only [mcmchMonitorHandler, Option.some.injEq, Prod.mk.injEq,
      reduceCtorEq] at hstep
    obtain ⟨rfl, rfl, rfl⟩ := hstep
    exact .blocked hat
  | loop =>
    cases command <;> simp only [mcmchMonitorHandler, reduceCtorEq] at hstep
    cases hrunning : config.shared.running with
    | true =>
      simp only [hrunning, if_true, Option.some.injEq, Prod.mk.injEq] at hstep
      obtain ⟨rfl, rfl, rfl⟩ := hstep
      exact .looped hat hrunning
    | false =>
      simp only [hrunning, Bool.false_eq_true, if_false, Option.some.injEq, Prod.mk.injEq] at hstep
      obtain ⟨rfl, rfl, rfl⟩ := hstep
      exact .left hat hrunning
  | waiting =>
    cases command with
    | advance =>
      obtain ⟨signal, hwait, hresult⟩ := Option.map_eq_some_iff.mp hstep
      obtain ⟨hpending, rfl⟩ := Target.sigwait_eq_some.mp hwait
      simp only [Prod.mk.injEq] at hresult
      obtain ⟨rfl, rfl, rfl⟩ := hresult
      exact .woken hat hpending
    | fail status =>
      simp only [mcmchMonitorHandler] at hstep
      by_cases hstatus : status ≠ 0
      · simp only [if_pos hstatus, Option.some.injEq, Prod.mk.injEq] at hstep
        obtain ⟨rfl, rfl, rfl⟩ := hstep
        exact .failed status hat hstatus
      · rw [if_neg hstatus] at hstep
        cases hstep
    | _ => cases hstep
  | woken status =>
    cases command <;> simp only [mcmchMonitorHandler, reduceCtorEq] at hstep
    cases hrunning : config.shared.running with
    | true =>
      simp only [hrunning, not_true_eq_false, if_false, Option.some.injEq,
        Prod.mk.injEq] at hstep
      obtain ⟨rfl, rfl, rfl⟩ := hstep
      exact .tested hat hrunning
    | false =>
      simp only [hrunning, Bool.false_eq_true, not_false_eq_true, if_true, Option.some.injEq,
        Prod.mk.injEq] at hstep
      obtain ⟨rfl, rfl, rfl⟩ := hstep
      exact .stopped hat hrunning
  | calling st status =>
    cases command <;> simp only [mcmchMonitorHandler, Option.some.injEq, Prod.mk.injEq,
      reduceCtorEq] at hstep
    obtain ⟨rfl, rfl, rfl⟩ := hstep
    exact .called hat
  | beating st status =>
    cases command with
    | returns errno =>
      simp only [mcmchMonitorHandler, Option.some.injEq, Prod.mk.injEq] at hstep
      obtain ⟨rfl, rfl, rfl⟩ := hstep
      by_cases hst : st = .critical
      · subst hst
        exact .crashed hat
      · rw [if_neg (afterBeat_ne_ended hst status errno)]
        exact .beaten errno hat hst
    | _ => cases hstep
  | ended => cases command <;> cases hstep

/-- The steps of a destruction. -/
theorem ownerStep_of_eq_some {stage stage' : OwnerStage} {command : MonitorCommand}
    {event : MonitorEvent} {state' : MonitorState} (hat : OwnerAt config stage)
    (hstep : mcmchMonitorDestroy config.shared command stage = some (event, state', stage')) :
    MonitorStep config .owner event state' (.owner stage') := by
  cases stage with
  | idle =>
    cases command <;> simp only [mcmchMonitorDestroy, Option.some.injEq, Prod.mk.injEq,
      reduceCtorEq] at hstep
    obtain ⟨rfl, rfl, rfl⟩ := hstep
    exact .destroying hat
  | signalling =>
    cases command <;> simp only [mcmchMonitorDestroy, Option.some.injEq, Prod.mk.injEq,
      reduceCtorEq] at hstep
    obtain ⟨rfl, rfl, rfl⟩ := hstep
    exact .signalled hat
  | joining =>
    cases command <;> simp only [mcmchMonitorDestroy, reduceCtorEq] at hstep
    cases hended : config.shared.signal.ended with
    | true =>
      simp only [hended, if_true, Option.some.injEq, Prod.mk.injEq] at hstep
      obtain ⟨rfl, rfl, rfl⟩ := hstep
      exact .destroyed hat hended
    | false => simp [hended] at hstep
  | done => cases command <;> cases hstep

/-- `MonitorStep` lists every step, and nobody moves when the process is terminated. -/
theorem monitorStep_of_program (hhoused : Housed config) {party : MonitorParty}
    {event : MonitorEvent} {state' : MonitorState} {actor : Actor}
    (hstep : monitorMachine.program config.shared (config.threads party) event state' actor) :
    config.shared.terminated = false ∧ MonitorStep config party event state' actor := by
  obtain ⟨command, hcommand⟩ := hstep
  unfold monitorMachine at hcommand
  cases hterminated : config.shared.terminated with
  | true => simp [hterminated] at hcommand
  | false =>
    refine ⟨rfl, ?_⟩
    simp only [hterminated, Bool.false_eq_true, if_false] at hcommand
    cases party with
    | handler =>
      obtain ⟨stage, hat⟩ := hhoused.handler
      rw [HandlerAt] at hat
      simp only [hat] at hcommand
      obtain ⟨next, hnext, hresult⟩ := Option.map_eq_some_iff.mp hcommand
      simp only [Prod.mk.injEq] at hresult
      obtain ⟨rfl, rfl, rfl⟩ := hresult
      exact handlerStep_of_eq_some hat hnext
    | owner =>
      obtain ⟨stage, hat⟩ := hhoused.owner
      rw [OwnerAt] at hat
      simp only [hat] at hcommand
      obtain ⟨next, hnext, hresult⟩ := Option.map_eq_some_iff.mp hcommand
      simp only [Prod.mk.injEq] at hresult
      obtain ⟨rfl, rfl, rfl⟩ := hresult
      exact ownerStep_of_eq_some hat hnext
    | user i =>
      simp only [hhoused.user i] at hcommand
      by_cases hping : command = .ping
      · simp only [hping, if_true, Option.some.injEq, Prod.mk.injEq] at hcommand
        obtain ⟨rfl, rfl, rfl⟩ := hcommand
        exact .pinged i
      · rw [if_neg hping] at hcommand
        cases hcommand

@[simp] theorem handlerAt_advance_handler {state : MonitorState} {actor : Actor}
    {stage : HandlerStage} :
    HandlerAt (config.advance .handler state actor) stage ↔ actor = .handler stage := by
  rw [HandlerAt, Config.advance_threads_self]

@[simp] theorem handlerAt_advance_owner {state : MonitorState} {actor : Actor}
    {stage : HandlerStage} :
    HandlerAt (config.advance .owner state actor) stage ↔ HandlerAt config stage := by
  rw [HandlerAt, Config.advance_threads_of_ne _ (by simp), HandlerAt]

@[simp] theorem handlerAt_advance_user {state : MonitorState} {actor : Actor} {i : ℕ}
    {stage : HandlerStage} :
    HandlerAt (config.advance (.user i) state actor) stage ↔ HandlerAt config stage := by
  rw [HandlerAt, Config.advance_threads_of_ne _ (by simp), HandlerAt]

@[simp] theorem ownerAt_advance_owner {state : MonitorState} {actor : Actor}
    {stage : OwnerStage} :
    OwnerAt (config.advance .owner state actor) stage ↔ actor = .owner stage := by
  rw [OwnerAt, Config.advance_threads_self]

@[simp] theorem ownerAt_advance_handler {state : MonitorState} {actor : Actor}
    {stage : OwnerStage} :
    OwnerAt (config.advance .handler state actor) stage ↔ OwnerAt config stage := by
  rw [OwnerAt, Config.advance_threads_of_ne _ (by simp), OwnerAt]

@[simp] theorem ownerAt_advance_user {state : MonitorState} {actor : Actor} {i : ℕ}
    {stage : OwnerStage} :
    OwnerAt (config.advance (.user i) state actor) stage ↔ OwnerAt config stage := by
  rw [OwnerAt, Config.advance_threads_of_ne _ (by simp), OwnerAt]

/-- The thread is at one stage at a time. -/
theorem HandlerAt.eq {stage stage' : HandlerStage} (hat : HandlerAt config stage)
    (hat' : HandlerAt config stage') : stage = stage' :=
  Actor.handler.inj (hat.symm.trans hat')

theorem HandlerAt.iff {stage stage' : HandlerStage} (hat : HandlerAt config stage) :
    HandlerAt config stage' ↔ stage = stage' :=
  ⟨hat.eq, fun h ↦ h ▸ hat⟩

theorem OwnerAt.eq {stage stage' : OwnerStage} (hat : OwnerAt config stage)
    (hat' : OwnerAt config stage') : stage = stage' :=
  Actor.owner.inj (hat.symm.trans hat')

/-- A signal is lost on a thread that has ended, becomes pending, or terminates the process. -/
theorem ping_cases (state : MonitorState) :
    (state.signal.ended = true ∧ mcmchMonitorPing state = state) ∨
      (state.signal.ended = false ∧ state.signal.blocked = true ∧ mcmchMonitorPing state =
        { state with signal := { state.signal with pending := true } }) ∨
      (state.signal.ended = false ∧ state.signal.blocked = false ∧
        mcmchMonitorPing state = { state with terminated := true }) := by
  rcases state.signal.kill_cases with ⟨hended, hkill⟩ | ⟨hended, hblocked, hkill⟩ |
    ⟨hended, hblocked, hkill⟩
  · exact Or.inl ⟨hended, by rw [mcmchMonitorPing, hkill]⟩
  · exact Or.inr (Or.inl ⟨hended, hblocked, by rw [mcmchMonitorPing, hkill]⟩)
  · exact Or.inr (Or.inr ⟨hended, hblocked, by rw [mcmchMonitorPing, hkill]⟩)

/-- A signal changes neither `running` nor what the thread blocks, and does not end it. -/
theorem ping_keeps (state : MonitorState) :
    (mcmchMonitorPing state).running = state.running ∧
      (mcmchMonitorPing state).signal.blocked = state.signal.blocked ∧
      (mcmchMonitorPing state).signal.ended = state.signal.ended := by
  rcases ping_cases state with ⟨-, hping⟩ | ⟨-, -, hping⟩ | ⟨-, -, hping⟩ <;> simp [hping]

end Steps

/-! ### The record of the monitor -/

section Record

variable {inherited : Bool} {history : MonitorHistory} {config : MonitorConfig}
  {party : MonitorParty} {event : MonitorEvent} {state : MonitorState} {actor : Actor}

/-- A destruction has begun. -/
def Stopped (history : MonitorHistory) : Prop := (.owner, .stopped) ∈ history

/-- The handler was told of a critical error. -/
def Crashed (history : MonitorHistory) : Prop := (.handler, .called .critical) ∈ history

instance (history : MonitorHistory) : Decidable (Stopped history) :=
  inferInstanceAs (Decidable (((.owner, .stopped) : MonitorParty × MonitorEvent) ∈ history))

instance (history : MonitorHistory) : Decidable (Crashed history) :=
  inferInstanceAs
    (Decidable (((.handler, .called .critical) : MonitorParty × MonitorEvent) ∈ history))

/-- What the record says of the history and of the stages of thread and owner. -/
structure Recorded (inherited : Bool) (history : MonitorHistory) (config : MonitorConfig) :
    Prop where
  housed : Housed config
  running : config.shared.running = false ↔ Stopped history
  ended : config.shared.signal.ended = true ↔ HandlerAt config .ended
  blocked : config.shared.signal.blocked = true ↔ inherited = true ∨ ¬ HandlerAt config .blocking
  cause : HandlerAt config .ended → Stopped history ∨ Crashed history
  critical : ∀ status, HandlerAt config (.beating .critical status) → Crashed history
  idle : OwnerAt config .idle ↔ ¬ Stopped history
  joined : (.owner, .destroyed) ∈ history → HandlerAt config .ended

theorem stopped_concat :
    Stopped (history ++ [(party, event)]) ↔
      Stopped history ∨ party = .owner ∧ event = .stopped := by
  simp [Stopped, eq_comm]

theorem crashed_concat :
    Crashed (history ++ [(party, event)]) ↔
      Crashed history ∨ party = .handler ∧ event = .called .critical := by
  simp [Crashed, eq_comm]

theorem housed_step (hhoused : Housed config)
    (hstep : MonitorStep config party event state actor) :
    Housed (config.advance party state actor) := by
  obtain ⟨⟨stage, hhandler⟩, ⟨stage', howner⟩, huser⟩ := hhoused
  have husers : ∀ i, party ≠ .user i → (config.advance party state actor).threads (.user i) =
      .user := fun i hi ↦ by rw [Config.advance_threads_of_ne _ hi.symm, huser i]
  cases hstep with
  | pinged j =>
    refine ⟨⟨stage, by simpa using hhandler⟩, ⟨stage', by simpa using howner⟩, fun i ↦ ?_⟩
    by_cases hi : i = j
    · subst hi
      exact Config.advance_threads_self _ _ _ _
    · exact husers i (by simpa [eq_comm] using hi)
  | destroying | signalled | destroyed =>
    exact ⟨⟨stage, by simpa using hhandler⟩, ⟨_, ownerAt_advance_owner.mpr rfl⟩,
      fun i ↦ husers i (by simp)⟩
  | _ =>
    exact ⟨⟨_, handlerAt_advance_handler.mpr rfl⟩, ⟨stage', by simpa using howner⟩,
      fun i ↦ husers i (by simp)⟩

/-- A destruction clears `running`, and nothing sets it again. -/
theorem running_step (hrecorded : Recorded inherited history config)
    (hstep : MonitorStep config party event state actor) :
    state.running = false ↔ Stopped (history ++ [(party, event)]) := by
  rw [stopped_concat, ← hrecorded.running]
  cases hstep with
  | pinged | signalled => simp [(ping_keeps config.shared).1]
  | destroying => simp
  | _ => simp [MonitorState.finish]

theorem ended_step (hrecorded : Recorded inherited history config)
    (hstep : MonitorStep config party event state actor) :
    state.signal.ended = true ↔ HandlerAt (config.advance party state actor) .ended := by
  have hended := hrecorded.ended
  cases hstep with
  | pinged | signalled => simpa [(ping_keeps config.shared).2.2] using hended
  | destroying | destroyed => simpa using hended
  | left | stopped | crashed => simp [MonitorState.finish, Target.finish]
  | beaten errno hat hst => simp [hended, hat.iff, afterBeat_ne_ended hst]
  | blocked hat | looped hat | woken hat | failed _ hat | tested hat | called hat =>
    simp [Target.block, hended, hat.iff]

/-- The thread blocks the signal from its first step on. -/
theorem blocked_step (hrecorded : Recorded inherited history config)
    (hstep : MonitorStep config party event state actor) :
    state.signal.blocked = true ↔
      inherited = true ∨ ¬ HandlerAt (config.advance party state actor) .blocking := by
  have hblocked := hrecorded.blocked
  cases hstep with
  | pinged | signalled => simpa [(ping_keeps config.shared).2.1] using hblocked
  | destroying | destroyed => simpa using hblocked
  | blocked hat => simp [Target.block]
  | beaten errno hat hst => simp [hblocked, hat.iff, afterBeat_ne_blocking hst]
  | left hat | stopped hat | crashed hat =>
    simp [MonitorState.finish, Target.finish, hblocked, hat.iff]
  | looped hat | woken hat | failed _ hat | tested hat | called hat => simp [hblocked, hat.iff]

theorem cause_step (hrecorded : Recorded inherited history config)
    (hstep : MonitorStep config party event state actor)
    (hat : HandlerAt (config.advance party state actor) .ended) :
    Stopped (history ++ [(party, event)]) ∨ Crashed (history ++ [(party, event)]) := by
  rw [stopped_concat, crashed_concat]
  cases hstep with
  | pinged | signalled | destroying | destroyed =>
    rcases hrecorded.cause (by simpa using hat) with h | h
    · exact Or.inl (Or.inl h)
    · exact Or.inr (Or.inl h)
  | left _ hrunning | stopped _ hrunning =>
    exact Or.inl (Or.inl (hrecorded.running.mp hrunning))
  | crashed hbeating => exact Or.inr (Or.inl (hrecorded.critical _ hbeating))
  | beaten errno _ hst => simp [afterBeat_ne_ended hst] at hat
  | _ => simp at hat

theorem critical_step (hrecorded : Recorded inherited history config)
    (hstep : MonitorStep config party event state actor) (status : ℤ)
    (hat : HandlerAt (config.advance party state actor) (.beating .critical status)) :
    Crashed (history ++ [(party, event)]) := by
  rw [crashed_concat]
  cases hstep with
  | pinged | signalled | destroying | destroyed =>
    exact Or.inl (hrecorded.critical status (by simpa using hat))
  | called => simp_all
  | beaten errno _ hst => simp [afterBeat_ne_beating hst] at hat
  | _ => simp at hat

theorem idle_step (hrecorded : Recorded inherited history config)
    (hstep : MonitorStep config party event state actor) :
    OwnerAt (config.advance party state actor) .idle ↔ ¬ Stopped (history ++ [(party, event)]) := by
  have hidle := hrecorded.idle
  rw [stopped_concat]
  cases hstep with
  | destroying => simp
  | signalled hat | destroyed hat =>
    have hnot : Stopped history := by
      by_contra h
      cases hat.eq (hidle.mpr h)
    simp [hnot]
  | _ => simpa using hidle

/-- A destruction returns when the thread has ended, and the thread stays so. -/
theorem joined_of_step (hrecorded : Recorded inherited history config)
    (hstep : MonitorStep config party event state actor)
    (hdestroyed : (.owner, .destroyed) ∈ history ++ [(party, event)]) :
    HandlerAt (config.advance party state actor) .ended := by
  have hpast : (.owner, .destroyed) ∈ history ∨ party = .owner ∧ event = .destroyed := by
    simpa [eq_comm] using hdestroyed
  cases hstep with
  | destroyed _ hended => simpa using hrecorded.ended.mp hended
  | destroying | signalled | pinged => simpa using hrecorded.joined (by simpa using hpast)
  | left | stopped | crashed => simp
  | blocked hat | looped hat | woken hat | failed _ hat | tested hat | called hat
    | beaten _ hat => cases hat.eq (hrecorded.joined (by simpa using hpast))

theorem recorded_started (inherited : Bool) : Recorded inherited [] (started inherited) where
  housed := ⟨⟨.blocking, rfl⟩, ⟨.idle, rfl⟩, fun _ ↦ rfl⟩
  running := by simp [started, Stopped]
  ended := by simp [started, HandlerAt]
  blocked := by simp [started, HandlerAt]
  cause := by simp [started, HandlerAt]
  critical := by simp [started, HandlerAt]
  idle := by simp [started, OwnerAt, Stopped]
  joined := by simp

theorem recorded_of_run (hrun : MonitorRun inherited history config) :
    Recorded inherited history config := by
  refine hrun.invariant _ (recorded_started inherited) ?_
  intro history config party event state actor _ hrecorded _ hprogram
  have hstep := (monitorStep_of_program hrecorded.housed hprogram).2
  exact ⟨housed_step hrecorded.housed hstep, running_step hrecorded hstep,
    ended_step hrecorded hstep, blocked_step hrecorded hstep, cause_step hrecorded hstep,
    critical_step hrecorded hstep, idle_step hrecorded hstep, joined_of_step hrecorded hstep⟩

/-- The induction rule of the runs of a monitor, with the step and what the record says before
it. -/
theorem monitor_invariant (property : MonitorHistory → MonitorConfig → Prop)
    (hstart : property [] (started inherited))
    (hkept : ∀ {history : MonitorHistory} {config : MonitorConfig} {party : MonitorParty}
      {event : MonitorEvent} {state : MonitorState} {actor : Actor},
      Recorded inherited history config → config.shared.terminated = false →
      property history config → MonitorStep config party event state actor →
      property (history ++ [(party, event)]) (config.advance party state actor))
    (hrun : MonitorRun inherited history config) : property history config := by
  refine hrun.invariant property hstart ?_
  intro history config party event state actor hpast hproperty _ hprogram
  have hrecorded := recorded_of_run hpast
  obtain ⟨hgoes, hstep⟩ := monitorStep_of_program hrecorded.housed hprogram
  exact hkept hrecorded hgoes hproperty hstep

end Record

/-! ### Pings and calls -/

section Pings

variable {inherited : Bool} {history : MonitorHistory} {config : MonitorConfig}
  {party : MonitorParty} {event : MonitorEvent} {state : MonitorState} {actor : Actor}

/-- A user has pinged and no call of the handler has begun after it. -/
def Unanswered (history : MonitorHistory) : Prop :=
  Since history (fun _ event ↦ event = .pinged) fun _ event ↦ event = .called .success

/-- The thread has taken a signal, or has seen that it may call the handler. -/
def Answering (config : MonitorConfig) : Prop :=
  ∃ status, HandlerAt config (.woken status) ∨ HandlerAt config (.calling .success status)

/-- The handler is to be called, or will never be called again. -/
def Held (history : MonitorHistory) (config : MonitorConfig) : Prop :=
  config.shared.terminated = true ∨ config.shared.signal.pending = true ∨ Answering config ∨
    Stopped history ∨ Crashed history

theorem unanswered_concat :
    Unanswered (history ++ [(party, event)]) ↔
      event = .pinged ∨ Unanswered history ∧ event ≠ .called .success :=
  since_concat history party event _ _

theorem stopped_mono (hstopped : Stopped history) : Stopped (history ++ [(party, event)]) :=
  stopped_concat.mpr (Or.inl hstopped)

theorem crashed_mono (hcrashed : Crashed history) : Crashed (history ++ [(party, event)]) :=
  crashed_concat.mpr (Or.inl hcrashed)

/-- Behind a signal the handler is to be called, or never will be. -/
theorem held_ping (hrecorded : Recorded inherited history config)
    (hshared : state = mcmchMonitorPing config.shared) :
    Held (history ++ [(party, event)]) (config.advance party state actor) := by
  rcases ping_cases config.shared with ⟨hended, -⟩ | ⟨-, -, hping⟩ | ⟨-, -, hping⟩
  · rcases hrecorded.cause (hrecorded.ended.mp hended) with hstopped | hcrashed
    · exact Or.inr (Or.inr (Or.inr (Or.inl (stopped_mono hstopped))))
    · exact Or.inr (Or.inr (Or.inr (Or.inr (crashed_mono hcrashed))))
  · exact Or.inr (Or.inl (by simp [hshared, hping]))
  · exact Or.inl (by simp [hshared, hping])

/-- A step that does not begin a call leaves the call to be made. -/
theorem held_step (hrecorded : Recorded inherited history config)
    (hgoes : config.shared.terminated = false) (hheld : Held history config)
    (hstep : MonitorStep config party event state actor) (hevent : event ≠ .called .success) :
    Held (history ++ [(party, event)]) (config.advance party state actor) := by
  rcases hheld with hterminated | hpending | ⟨status, hanswering⟩ | hstopped | hcrashed
  · simp [hgoes] at hterminated
  · cases hstep with
    | woken => exact Or.inr (Or.inr (Or.inl ⟨0, Or.inl (by simp)⟩))
    | pinged | signalled => exact held_ping hrecorded rfl
    | _ => exact Or.inr (Or.inl (by simpa [MonitorState.finish, Target.finish, Target.block]))
  · cases hstep with
    | pinged | signalled => exact held_ping hrecorded rfl
    | destroying => exact Or.inr (Or.inr (Or.inr (Or.inl (stopped_concat.mpr (by simp)))))
    | destroyed => exact Or.inr (Or.inr (Or.inl ⟨status, by simpa using hanswering⟩))
    | tested => exact Or.inr (Or.inr (Or.inl ⟨_, Or.inr (by simp; rfl)⟩))
    | stopped _ hrunning =>
      exact Or.inr (Or.inr (Or.inr (Or.inl (stopped_mono (hrecorded.running.mp hrunning)))))
    | called hat => rcases hanswering with h | h <;> cases hat.eq h; exact absurd rfl hevent
    | blocked hat | looped hat | left hat | woken hat | failed _ hat | crashed hat
      | beaten _ hat => rcases hanswering with h | h <;> cases hat.eq h
  · exact Or.inr (Or.inr (Or.inr (Or.inl (stopped_mono hstopped))))
  · exact Or.inr (Or.inr (Or.inr (Or.inr (crashed_mono hcrashed))))

/-- No ping is lost. -/
theorem held_of_unanswered (hrun : MonitorRun inherited history config)
    (hunanswered : Unanswered history) : Held history config := by
  refine monitor_invariant (fun history config ↦ Unanswered history → Held history config)
    (fun h ↦ absurd h (not_since_nil _ _)) ?_ hrun hunanswered
  intro history config party event state actor hrecorded hgoes hpast hstep hnext
  rcases unanswered_concat.mp hnext with rfl | ⟨hbefore, hevent⟩
  · cases hstep
    exact held_ping hrecorded rfl
  · exact held_step hrecorded hgoes (hpast hbefore) hstep hevent

/-- The calls of the handler without an error that have begun. -/
def calls (history : MonitorHistory) : ℕ :=
  history.countP fun entry ↦ entry.2 = .called .success

/-- The pings of the users, and the waits of the thread that failed. -/
def causes (history : MonitorHistory) : ℕ :=
  history.countP fun entry ↦ match entry.2 with
    | .pinged => true
    | .woken status => status ≠ 0
    | _ => false

/-- The thread has woken and has not yet tested `running`. -/
def hasWoken : HandlerStage → ℕ
  | .woken _ => 1
  | _ => 0

/-- The thread is about to call the handler without an error. -/
def willCall : HandlerStage → ℕ
  | .calling .success _ => 1
  | _ => 0

/-- The calls that the pending signal and the stage of the thread still lead to. -/
def due (state : MonitorState) (stage : HandlerStage) : ℕ :=
  (if state.running then state.signal.pending.toNat + hasWoken stage else 0) + willCall stage

theorem calls_concat :
    calls (history ++ [(party, event)]) =
      calls history + if event = .called .success then 1 else 0 := by
  simp only [calls, List.countP_append, List.countP_singleton, decide_eq_true_eq]

theorem causes_concat :
    causes (history ++ [(party, event)]) = causes history + match event with
      | .pinged => 1
      | .woken status => if status ≠ 0 then 1 else 0
      | _ => 0 := by
  simp only [causes, List.countP_append, List.countP_singleton]
  cases event <;> simp

@[simp] theorem due_finish (state : MonitorState) (stage : HandlerStage) :
    due state.finish stage = due state stage :=
  rfl

/-- A signal is good for one call. -/
theorem due_ping_le (state : MonitorState) (stage : HandlerStage) :
    due (mcmchMonitorPing state) stage ≤ due state stage + 1 := by
  have hbit := state.signal.pending.toNat_le
  rcases ping_cases state with ⟨-, hping⟩ | ⟨-, -, hping⟩ | ⟨-, -, hping⟩
  · rw [hping]
    exact Nat.le_succ _
  · simp only [hping, due]
    split_ifs
    · simp only [Bool.toNat_true]
      omega
    · exact Nat.le_succ _
  · simp only [hping, due]
    exact Nat.le_succ _

/-- What is due behind a call of the handler. -/
theorem due_afterBeat (state : MonitorState) {st : Mcmpst} (hst : st ≠ .critical)
    (status errno : ℤ) :
    due state (afterBeat st status errno) = if state.running then state.signal.pending.toNat else 0
    := by
  rcases afterBeat_cases hst status errno with h | ⟨-, -, h | h⟩ <;>
    simp [h, due, hasWoken, willCall]

/-- A call is due only after a cause. -/
theorem calls_step {stage : HandlerStage} (hrecorded : Recorded inherited history config)
    (hstep : MonitorStep config party event state actor)
    (hpast : ∀ stage, HandlerAt config stage →
      calls history + due config.shared stage ≤ causes history)
    (hat : HandlerAt (config.advance party state actor) stage) :
    calls (history ++ [(party, event)]) + due state stage ≤
      causes (history ++ [(party, event)]) := by
  rw [calls_concat, causes_concat]
  cases hstep with
  | pinged =>
    have hdue := due_ping_le config.shared stage
    have hcount := hpast stage (by simpa using hat)
    simp only [reduceCtorEq, if_false]
    omega
  | destroying =>
    have hcount := hpast stage (by simpa using hat)
    simp only [due, Bool.false_eq_true, if_false, reduceCtorEq] at hcount ⊢
    omega
  | signalled hsignalling =>
    have hcount := hpast stage (by simpa using hat)
    have hstopped : Stopped history := by
      by_contra h
      cases hsignalling.eq (hrecorded.idle.mpr h)
    have hrunning := hrecorded.running.mpr hstopped
    simpa [due, (ping_keeps config.shared).1, hrunning] using hcount
  | destroyed => simpa using hpast stage (by simpa using hat)
  | beaten errno hbeating hst =>
    have hcount := hpast _ hbeating
    obtain rfl := Actor.handler.inj (handlerAt_advance_handler.mp hat)
    rw [due_afterBeat config.shared hst]
    simpa [due, hasWoken, willCall] using hcount
  | @called st _ hcalling =>
    have hcount := hpast _ hcalling
    obtain rfl := Actor.handler.inj (handlerAt_advance_handler.mp hat)
    cases st with
    | success =>
      simp only [due, hasWoken, willCall, if_true] at hcount ⊢
      omega
    | _ => simpa [due, hasWoken, willCall] using hcount
  | failed status hwaiting hstatus =>
    have hcount := hpast _ hwaiting
    obtain rfl := Actor.handler.inj (handlerAt_advance_handler.mp hat)
    simp only [due, hasWoken, willCall, if_pos hstatus] at hcount ⊢
    split_ifs at hcount ⊢ <;> simp_all <;> omega
  | crashed hbeating =>
    have hcount := hpast _ hbeating
    obtain rfl := Actor.handler.inj (handlerAt_advance_handler.mp hat)
    rw [due_finish]
    simpa [due, hasWoken, willCall] using hcount
  | blocked hbefore | looped hbefore _ | left hbefore _ | woken hbefore _ | stopped hbefore _
    | tested hbefore _ =>
    have hcount := hpast _ hbefore
    obtain rfl := Actor.handler.inj (handlerAt_advance_handler.mp hat)
    simp_all [due, hasWoken, willCall, MonitorState.finish, Target.finish, Target.block]

/-- There are never more calls than pings and failed waits. -/
theorem calls_le_causes (hrun : MonitorRun inherited history config) :
    calls history ≤ causes history := by
  have hdue := monitor_invariant
    (fun history config ↦ ∀ stage, HandlerAt config stage →
      calls history + due config.shared stage ≤ causes history)
    (fun stage hat ↦ by
      obtain rfl := Actor.handler.inj hat
      simp [calls, causes, due, started, hasWoken, willCall])
    (fun hrecorded _ hpast hstep stage hat ↦ calls_step hrecorded hstep hpast hat) hrun
  obtain ⟨stage, hat⟩ := (recorded_of_run hrun).housed.handler
  exact (Nat.le_add_right _ _).trans (hdue stage hat)

/-- Every ping is answered by a call of the handler that begins after it, unless the signal is
pending or taken, the monitor is being destroyed, the handler was told of a critical error, or the
process is terminated. There are never more such calls than pings and failed waits. -/
theorem monitorHandler_answersPings (hrun : MonitorRun inherited history config) :
    (Since history (fun _ event ↦ event = .pinged) (fun _ event ↦ event = .called .success) →
      config.shared.terminated = true ∨ config.shared.signal.pending = true ∨ Answering config ∨
        Stopped history ∨ Crashed history) ∧
      calls history ≤ causes history :=
  ⟨held_of_unanswered hrun, calls_le_causes hrun⟩

/-- Two pings before the thread wakes are answered by one call. -/
theorem monitorHandler_answersPings_twice :
    ∃ history config, MonitorRun false history config ∧
      causes history = 2 ∧ HandlerAt config .waiting ∧ config.shared.signal.pending = false ∧
      config.shared.terminated = false ∧ calls history ≤ causes history ∧ calls history = 1 ∧
      ¬ Unanswered history := by
  obtain ⟨history, config, hrun, hview⟩ := exists_run_of_play_view monitorMachine anyStep
    (started false)
    [(.handler, .advance), (.handler, .advance), (.user 0, .ping), (.user 1, .ping),
      (.handler, .advance), (.handler, .advance), (.handler, .advance), (.handler, .returns 0),
      (.handler, .advance)]
    (fun history config ↦ (history, config.threads .handler, config.shared))
    ([(.handler, .blocked), (.handler, .looped true), (.user 0, .pinged), (.user 1, .pinged),
      (.handler, .woken 0), (.handler, .tested true), (.handler, .called .success),
      (.handler, .beaten .success), (.handler, .looped true)], .handler .waiting,
      ⟨true, ⟨true, false, false⟩, false⟩) rfl
  simp only [Prod.mk.injEq] at hview
  obtain ⟨rfl, hat, hshared⟩ := hview
  obtain ⟨hanswered, hcalls⟩ := monitorHandler_answersPings hrun
  refine ⟨_, config, hrun, by decide, hat, by rw [hshared], by rw [hshared], hcalls, by decide,
    fun hunanswered ↦ ?_⟩
  rcases hanswered hunanswered with h | h | ⟨status, h | h⟩ | h | h
  · simp [hshared] at h
  · simp [hshared] at h
  · cases HandlerAt.eq hat h
  · cases HandlerAt.eq hat h
  · exact absurd h (by decide)
  · exact absurd h (by decide)

end Pings

/-! ### The destruction -/

section Destruction

variable {inherited : Bool} {history : MonitorHistory} {config : MonitorConfig}
  {party : MonitorParty} {event : MonitorEvent} {state : MonitorState} {actor : Actor}

/-- The induction rule of the part of a run that follows an event. -/
theorem monitor_invariant_after (property : MonitorHistory → MonitorConfig → Prop)
    {before after : MonitorHistory} {entry : MonitorParty × MonitorEvent}
    (hrun : MonitorRun inherited (before ++ entry :: after) config)
    (hstart : ∀ middle, Recorded inherited (before ++ [entry]) middle → property [] middle)
    (hkept : ∀ {history : MonitorHistory} {config : MonitorConfig} {party : MonitorParty}
      {event : MonitorEvent} {state : MonitorState} {actor : Actor},
      property history config → MonitorStep config party event state actor →
      property (history ++ [(party, event)]) (config.advance party state actor)) :
    property after config := by
  rw [List.append_cons] at hrun
  obtain ⟨middle, hmiddle, hafter⟩ := hrun.split
  have hrecorded := recorded_of_run hmiddle
  refine (hafter.invariant (fun history config ↦ Housed config ∧ property history config)
    ⟨hrecorded.housed, hstart middle hrecorded⟩ ?_).2
  intro history config party event state actor _ ⟨hhoused, hproperty⟩ _ hprogram
  have hstep := (monitorStep_of_program hhoused hprogram).2
  exact ⟨housed_step hhoused hstep, hkept hproperty hstep⟩

/-- What holds behind the moment at which `running` was cleared: at most one call without an error
has begun, and none is to begin any more when one has. -/
structure Stopping (history : MonitorHistory) (config : MonitorConfig) : Prop where
  running : config.shared.running = false
  once : calls history ≤ 1
  last : ∀ status, HandlerAt config (.calling .success status) → calls history = 0

theorem stopping_step (hstopping : Stopping history config)
    (hstep : MonitorStep config party event state actor) :
    Stopping (history ++ [(party, event)]) (config.advance party state actor) := by
  have hrunning := hstopping.running
  refine ⟨?_, ?_, fun status hat ↦ ?_⟩
  · cases hstep with
    | pinged | signalled => simpa using (ping_keeps config.shared).1.trans hrunning
    | destroying => simp
    | _ => simpa [MonitorState.finish] using hrunning
  · rw [calls_concat]
    split_ifs with hcall
    · subst hcall
      cases hstep with
      | called hcalling => simp [hstopping.last _ hcalling]
    · exact hstopping.once
  · rw [calls_concat]
    cases hstep with
    | pinged | signalled | destroying | destroyed =>
      simpa using hstopping.last status (by simpa using hat)
    | tested _ h => simp [hrunning] at h
    | @beaten st status' errno _ hst =>
      rcases afterBeat_cases hst status' errno with h | ⟨-, -, h | h⟩ <;> simp [h] at hat
    | _ => simp at hat

/-- The thread has ended, and has made no step since. -/
structure Joined (history : MonitorHistory) (config : MonitorConfig) : Prop where
  ended : HandlerAt config .ended
  quiet : ∀ entry ∈ history, entry.1 ≠ .handler

theorem joined_step (hjoined : Joined history config)
    (hstep : MonitorStep config party event state actor) :
    Joined (history ++ [(party, event)]) (config.advance party state actor) := by
  have hended := hjoined.ended
  have hparty : party ≠ .handler := by
    rintro rfl
    cases hstep with
    | blocked hat | looped hat | left hat | woken hat | failed _ hat | tested hat | stopped hat
      | called hat | beaten _ hat | crashed hat => cases hat.eq hended
  refine ⟨?_, fun entry hentry ↦ ?_⟩
  · cases party with
    | handler => exact absurd rfl hparty
    | owner => simpa using hended
    | user => simpa using hended
  · rcases List.mem_append.mp hentry with h | h
    · exact hjoined.quiet entry h
    · rw [List.mem_singleton.mp h]
      exact hparty

/-- At most one call without an error begins after a destruction has cleared `running`, and when
the destruction has joined the thread, the thread has ended and makes no step any more. -/
theorem mcmchMonitorDestroy_endsThread {before after : MonitorHistory}
    (hlive : LiveRun inherited (before ++ (.owner, event) :: after) config) :
    (event = .stopped → calls after ≤ 1) ∧
      (event = .destroyed → HandlerAt config .ended ∧ ∀ entry ∈ after, entry.1 ≠ .handler) := by
  have hrun : MonitorRun inherited (before ++ (.owner, event) :: after) config :=
    hlive.mono fun _ _ _ _ _ ↦ trivial
  constructor
  · rintro rfl
    refine (monitor_invariant_after Stopping hrun (fun middle hrecorded ↦ ?_) stopping_step).once
    exact ⟨hrecorded.running.mpr (by simp [Stopped]), by simp [calls], by simp [calls]⟩
  · rintro rfl
    have hjoined : Joined after config := by
      refine monitor_invariant_after Joined hrun (fun middle hrecorded ↦ ?_) joined_step
      exact ⟨hrecorded.joined (by simp), by simp⟩
    exact ⟨hjoined.ended, hjoined.quiet⟩

/-- A destruction that finds the thread before a call of the handler. -/
theorem mcmchMonitorDestroy_endsThread_late :
    ∃ before middle config, LiveRun false
        (before ++ (.owner, .stopped) :: (middle ++ [(.owner, .destroyed)])) config ∧
      (calls (middle ++ [(.owner, .destroyed)]) = 1 ∧
        calls (middle ++ [(.owner, .destroyed)]) ≤ 1) ∧
      HandlerAt config .ended := by
  let before : MonitorHistory := [(.handler, .blocked), (.handler, .looped true),
    (.user 0, .pinged), (.handler, .woken 0), (.handler, .tested true)]
  let middle : MonitorHistory := [(.handler, .called .success), (.user 1, .pinged),
    (.owner, .signalled), (.handler, .beaten .success), (.handler, .looped false)]
  obtain ⟨config, hrun, -⟩ := exists_run_of_play monitorMachine PingsLive (started false)
    [(.handler, .advance), (.handler, .advance), (.user 0, .ping), (.handler, .advance),
      (.handler, .advance), (.owner, .destroy), (.handler, .advance), (.user 1, .ping),
      (.owner, .advance), (.handler, .returns 0), (.handler, .advance), (.owner, .advance)]
    (fun _ ↦ ()) (before ++ (.owner, .stopped) :: (middle ++ [(.owner, .destroyed)])) () rfl
  refine ⟨before, middle, config, hrun,
    ⟨by decide, (mcmchMonitorDestroy_endsThread hrun).1 rfl⟩, ?_⟩
  rw [← List.cons_append, ← List.append_assoc] at hrun
  exact ((mcmchMonitorDestroy_endsThread hrun).2 rfl).1

end Destruction

/-! ### Signals before the thread blocks them -/

section Early

variable {inherited : Bool} {history : MonitorHistory} {config : MonitorConfig}
  {party : MonitorParty} {event : MonitorEvent} {state : MonitorState} {actor : Actor}

/-- A signal was sent before the thread had blocked it. -/
def Early (history : MonitorHistory) : Prop :=
  ∃ before entry after, history = before ++ entry :: after ∧
    (entry.2 = .pinged ∨ entry.2 = .signalled) ∧ (.handler, .blocked) ∉ before

theorem early_concat :
    Early (history ++ [(party, event)]) ↔
      Early history ∨ (event = .pinged ∨ event = .signalled) ∧ (.handler, .blocked) ∉ history := by
  constructor
  · rintro ⟨before, entry, after, hhistory, hsent, hbefore⟩
    rcases split_concat hhistory with ⟨-, rfl, rfl⟩ | ⟨rest, -, rfl⟩
    · exact Or.inr ⟨hsent, hbefore⟩
    · exact Or.inl ⟨before, entry, rest, rfl, hsent, hbefore⟩
  · rintro (⟨before, entry, after, rfl, hsent, hbefore⟩ | ⟨hsent, hbefore⟩)
    · exact ⟨before, entry, after ++ [(party, event)], by simp, hsent, hbefore⟩
    · exact ⟨history, (party, event), [], rfl, hsent, hbefore⟩

/-- The thread blocks the signal once, in its first step. -/
theorem blocking_iff (hrun : MonitorRun inherited history config) :
    HandlerAt config .blocking ↔ (.handler, .blocked) ∉ history := by
  refine monitor_invariant
    (fun history config ↦ HandlerAt config .blocking ↔ (.handler, .blocked) ∉ history)
    (by simp [started, HandlerAt]) ?_ hrun
  intro history config party event state actor _ _ hpast hstep
  cases hstep with
  | pinged | signalled | destroying | destroyed => simpa using hpast
  | beaten errno hat hst => simpa [hat.iff, afterBeat_ne_blocking hst] using hpast
  | blocked hat => simp
  | looped hat | left hat | woken hat | failed _ hat | tested hat | stopped hat | called hat
    | crashed hat => simpa [hat.iff] using hpast

/-- A signal terminates the process when the thread that gets it has neither blocked it nor
inherited that. -/
theorem terminated_ping (hrecorded : Recorded inherited history config)
    (hgoes : config.shared.terminated = false) :
    (mcmchMonitorPing config.shared).terminated = true ↔
      inherited = false ∧ HandlerAt config .blocking := by
  have hblocked := hrecorded.blocked
  have hended := hrecorded.ended
  rcases ping_cases config.shared with ⟨h, hping⟩ | ⟨-, h, hping⟩ | ⟨-, h, hping⟩
  · simp [hping, hgoes, (hended.mp h).iff]
  · rcases hblocked.mp h with hinherited | hstage
    · simp [hping, hgoes, hinherited]
    · simp [hping, hgoes, hstage]
  · have hnot := mt hblocked.mpr (by simp [h])
    obtain ⟨hinherited, hstage⟩ := not_or.mp hnot
    simp [hping, Bool.eq_false_iff.mpr hinherited, not_not.mp hstage]

/-- The process is terminated exactly when a signal is sent to the thread before it has blocked the
signal, unless it was started with the signal blocked. -/
theorem mcmchMonitorPing_terminates_iff (hlive : LiveRun inherited history config) :
    config.shared.terminated = true ↔ inherited = false ∧ Early history := by
  have hrun : MonitorRun inherited history config := hlive.mono fun _ _ _ _ _ ↦ trivial
  refine (hrun.invariant (fun history config ↦ MonitorRun inherited history config ∧
    (config.shared.terminated = true ↔ inherited = false ∧ Early history)) ⟨.start, ?_⟩ ?_).2
  · simp [started, Early]
  intro history config party event state actor hpast ⟨_, hiff⟩ hguard hprogram
  refine ⟨hpast.step hguard hprogram, ?_⟩
  have hrecorded := recorded_of_run hpast
  have hstage := blocking_iff hpast
  obtain ⟨hgoes, hstep⟩ := monitorStep_of_program hrecorded.housed hprogram
  have hnot : ¬(inherited = false ∧ Early history) := fun h ↦ by simp [hiff.mpr h] at hgoes
  rw [early_concat, Config.advance_shared]
  have hping := terminated_ping hrecorded hgoes
  rw [hstage] at hping
  cases hstep with
  | pinged | signalled =>
    rw [hping]
    exact ⟨fun ⟨h, h'⟩ ↦ ⟨h, Or.inr ⟨by simp, h'⟩⟩,
      fun ⟨h, h'⟩ ↦ ⟨h, h'.elim (fun hearly ↦ absurd ⟨h, hearly⟩ hnot) And.right⟩⟩
  | _ => simpa [MonitorState.finish, hgoes] using fun h h' ↦ hnot ⟨h, h'⟩

/-- A ping that is faster than the thread. -/
theorem mcmchMonitorPing_terminates_iff_early :
    ∃ config, LiveRun false [(.user 0, .pinged)] config ∧
      (config.shared.terminated = true ↔ false = false ∧ Early [(.user 0, .pinged)]) ∧
      config.shared.terminated = true := by
  obtain ⟨config, hrun, hview⟩ := exists_run_of_play monitorMachine PingsLive (started false)
    [(.user 0, .ping)] (fun config ↦ config.shared.terminated) [(.user 0, .pinged)] true rfl
  exact ⟨config, hrun, mcmchMonitorPing_terminates_iff hrun, hview⟩

end Early

end Mcmp.Routines.MonitorThread
