import Mcmp.Foundation.Interleaving
import Mcmp.Status

/-!
# The signal routine

`mcmchSignalRoutineHandler` of routine.c, the thread of a routine that is woken by signals. It takes
the lock, waits for a signal until a time that it moves on by half a second whenever it has passed,
and calls the handler of the routine. The handler is called to go on, and then releases the lock
itself; or it is called to shut down, once, and the thread releases the lock and returns.
`mcmchSignalRoutineInterrompt` clears `running`, which the thread reads at three places: in the
condition of its loop, after a wait that failed, and after a wait that succeeded.

At the second and the third place the thread shuts the routine down when it reads zero. At the first
it just returns. So the handler is not told to shut down when `running` is cleared from the reading
behind a successful wait until the condition of the loop is read again, which is while the handler
runs. `shutsDown_iff` says that this is the only way for a shutdown to get lost. The mutex is
released in any case.

A step is one access of the thread. The outcome of a wait and the time are given from outside. What
a handler does is left open, except that it releases the lock, once, when it is called to go on.
-/

set_option autoImplicit false
set_option relaxedAutoImplicit false

namespace Mcmp.Routines.SignalRoutine

open Foundation.Interleaving

/-! ### The routine -/

/-- `McmchTimeSpec`. -/
structure McmchTimeSpec where
  secs : ℤ
  nanos : ℤ
  deriving DecidableEq, Repr

/-- `MCMCHTIME_NULL_TIME_SPEC`. -/
def nullTimeSpec : McmchTimeSpec := ⟨0, 0⟩

/-- Half a second after a time. -/
def halfSecondAfter (now : McmchTimeSpec) : McmchTimeSpec :=
  let nanos := now.nanos + 500000000
  if nanos ≥ 1000000000 then ⟨now.secs + 1, nanos - 1000000000⟩ else ⟨now.secs, nanos⟩

/-- `ETIMEDOUT`. -/
def etimedout : ℤ := 110

/-- The status of a wait, for what `pthread_cond_timedwait` returns. -/
def mcmchSignalLockTimedWait (status : ℤ) : Mcmpst :=
  if status = etimedout then .ovtimeout else if status = 0 then .success else .notImplemented

/-- `running` after an interruption. -/
def mcmchSignalRoutineInterrompt (_running : Bool) : Bool := false

/-- The codes `MCMCHSIGNALROUTINE_*`. -/
inductive HandlerCode
  | goOn
  | shutdown
  | error
  deriving DecidableEq, Repr

/-- Where the thread is: before the condition of the loop, before taking the lock, before the wait,
before the reading of `running` after a wait that failed with a status, before reading the clock,
before that of `running` after a wait that succeeded, before each of the calls of the handler, in
the call to go on, before the release of the lock after the shutdown, and at its end. -/
inductive RoutineStage
  | loop
  | block
  | wait
  | failed (ret : Mcmpst)
  | timer
  | awake
  | callError
  | callShutdown
  | callGoOn
  | handling
  | release
  | returned
  deriving DecidableEq, Repr

/-- The thread: its place and its variable `spec`. -/
structure RoutineThread where
  stage : RoutineStage
  spec : McmchTimeSpec
  deriving DecidableEq, Repr

/-- What the thread does and reads, and the interruption of the routine. -/
inductive RoutineEvent
  | looped (running : Bool)
  | blocked
  | waited (spec : McmchTimeSpec) (ret : Mcmpst)
  | failed (running : Bool)
  | timed (spec : McmchTimeSpec)
  | awoke (running : Bool)
  | called (code : HandlerCode)
  | released
  | interrupted
  deriving DecidableEq, Repr

/-- What can be told to happen next: a step of the thread, with what comes from outside in the wait
and in the reading of the clock, or the interruption of the routine. -/
inductive RoutineCommand
  | advance
  | wake (status : ℤ)
  | clock (now : McmchTimeSpec)
  | interrompt
  deriving DecidableEq, Repr

/-- The next step of the thread. -/
def mcmchSignalRoutineHandler (running : Bool) (spec : McmchTimeSpec) :
    RoutineCommand → RoutineStage → Option (RoutineEvent × RoutineThread)
  | .advance, .loop => some (.looped running, ⟨if running then .block else .returned, spec⟩)
  | .advance, .block => some (.blocked, ⟨.wait, spec⟩)
  | .wake status, .wait =>
    let ret := mcmchSignalLockTimedWait status
    some (.waited spec ret, ⟨if ret ≠ .success then .failed ret else .awake, spec⟩)
  | .advance, .failed ret =>
    some (.failed running,
      ⟨if ¬running ∨ ret ≠ .ovtimeout then
          if ret ≠ .ovtimeout then .callError else .callShutdown
        else .timer, spec⟩)
  | .clock now, .timer => some (.timed (halfSecondAfter now), ⟨.wait, halfSecondAfter now⟩)
  | .advance, .callError => some (.called .error, ⟨.callShutdown, spec⟩)
  | .advance, .callShutdown => some (.called .shutdown, ⟨.release, spec⟩)
  | .advance, .release => some (.released, ⟨.returned, spec⟩)
  | .advance, .awake =>
    some (.awoke running, ⟨if ¬running then .callShutdown else .callGoOn, spec⟩)
  | .advance, .callGoOn => some (.called .goOn, ⟨.handling, spec⟩)
  | .advance, .handling => some (.released, ⟨.loop, spec⟩)
  | _, _ => none

/-- The thread and those who interrupt the routine. -/
def routineMachine : Machine RoutineCommand Bool RoutineThread RoutineEvent
  | .interrompt, running, thread =>
    some (.interrupted, mcmchSignalRoutineInterrompt running, thread)
  | command, running, ⟨stage, spec⟩ =>
    (mcmchSignalRoutineHandler running spec command stage).map fun next ↦
      (next.1, running, next.2)

/-- A history of the one routine. -/
abbrev RoutineHistory := List (Unit × RoutineEvent)

/-- The runs of a routine from the start of its thread. -/
abbrev RoutineRun (running : Bool) :=
  Run routineMachine.program anyStep
    (⟨running, fun _ ↦ ⟨.loop, nullTimeSpec⟩⟩ : Config Unit Bool RoutineThread)

/-! ### What a shutdown has to do -/

/-- The codes that the handler was called with, in order. -/
def handlerCalls (history : RoutineHistory) : List HandlerCode :=
  history.filterMap fun entry ↦
    match entry.2 with
    | .called code => some code
    | _ => none

/-- The handler was told to shut down once, by its last call, and the lock was released as often as
it was taken. -/
structure ShutsDown (history : RoutineHistory) : Prop where
  last_call : ∃ earlier, handlerCalls history = earlier ++ [.shutdown] ∧ .shutdown ∉ earlier
  balanced : history.count ((), .released) = history.count ((), .blocked)

/-- The thread has entered its loop. -/
def Entered (history : RoutineHistory) : Prop := ((), .looped true) ∈ history

/-- A reading of `running` in the condition of the loop. -/
def RoutineEvent.loops : RoutineEvent → Bool
  | .looped _ => true
  | _ => false

/-- After a successful wait `running` was found set, and the condition of the loop has not been read
since: the handler is about to be called to go on, it runs, or it has just returned. -/
def GoingOn (history : RoutineHistory) : Prop :=
  Since history (fun _ event ↦ event = .awoke true) fun _ event ↦ event.loops = true

/-- The routine was interrupted at such a moment. -/
def Missed (history : RoutineHistory) : Prop :=
  ∃ before after, history = before ++ ((), .interrupted) :: after ∧ GoingOn before

instance (history : RoutineHistory) : Decidable (Entered history) :=
  inferInstanceAs (Decidable (((), .looped true) ∈ history))

instance (history : RoutineHistory) : Decidable (GoingOn history) :=
  inferInstanceAs (Decidable (Since history (fun _ event ↦ event = .awoke true)
    fun _ event ↦ event.loops = true))

/-- Whether an interruption was missed is decided at each place of the history. -/
theorem missed_iff_getElem (history : RoutineHistory) :
    (∃ n < history.length, history[n]? = some ((), .interrupted) ∧ GoingOn (history.take n)) ↔
      Missed history := by
  constructor
  · rintro ⟨n, hn, hentry, hgoing⟩
    obtain ⟨hn', hentry'⟩ := List.getElem?_eq_some_iff.mp hentry
    refine ⟨history.take n, history.drop (n + 1), ?_, hgoing⟩
    rw [← hentry', ← List.drop_eq_getElem_cons hn', List.take_append_drop]
  · rintro ⟨before, after, rfl, hgoing⟩
    exact ⟨before.length, by simp, by simp, by simpa using hgoing⟩

instance (history : RoutineHistory) : Decidable (Missed history) :=
  decidable_of_iff _ (missed_iff_getElem history)

/-! ### The deadline of a wait -/

/-- The deadline is a proper time, as `pthread_cond_timedwait` asks for, half a second after the
clock. -/
theorem halfSecondAfter_spec (now : McmchTimeSpec) (hlow : 0 ≤ now.nanos)
    (hhigh : now.nanos < 1000000000) :
    (0 ≤ (halfSecondAfter now).nanos ∧ (halfSecondAfter now).nanos < 1000000000) ∧
      1000000000 * (halfSecondAfter now).secs + (halfSecondAfter now).nanos =
        1000000000 * now.secs + now.nanos + 500000000 := by
  unfold halfSecondAfter
  dsimp only
  split
  · refine ⟨⟨?_, ?_⟩, ?_⟩ <;> dsimp only <;> omega
  · refine ⟨⟨?_, ?_⟩, ?_⟩ <;> dsimp only <;> omega

/-! ### The invariant -/

section Histories

variable {history : RoutineHistory} {event : RoutineEvent}

theorem goingOn_concat :
    GoingOn (history ++ [((), event)]) ↔
      event = .awoke true ∨ GoingOn history ∧ ¬ event.loops = true :=
  since_concat ..

theorem goingOn_keep (hawoke : event ≠ .awoke true) (hlooped : event.loops = false) :
    GoingOn (history ++ [((), event)]) ↔ GoingOn history := by
  rw [goingOn_concat, or_iff_right hawoke, and_iff_left (by simp [hlooped])]

theorem missed_concat :
    Missed (history ++ [((), event)]) ↔
      Missed history ∨ event = .interrupted ∧ GoingOn history := by
  constructor
  · rintro ⟨before, after, hsplit, hgoing⟩
    rcases split_concat hsplit with ⟨-, rfl, hlast⟩ | ⟨rest, -, hpast⟩
    · exact Or.inr ⟨(congrArg Prod.snd hlast).symm, hgoing⟩
    · exact Or.inl ⟨before, rest, hpast, hgoing⟩
  · rintro (⟨before, after, rfl, hgoing⟩ | ⟨rfl, hgoing⟩)
    · exact ⟨before, after ++ [((), event)], by simp, hgoing⟩
    · exact ⟨history, [], rfl, hgoing⟩

theorem missed_keep (hevent : event ≠ .interrupted) :
    Missed (history ++ [((), event)]) ↔ Missed history := by
  rw [missed_concat, or_iff_left fun h ↦ hevent h.1]

theorem handlerCalls_keep (hevent : ∀ code, event ≠ .called code) :
    handlerCalls (history ++ [((), event)]) = handlerCalls history := by
  rw [handlerCalls, List.filterMap_append]
  cases event with
  | called code => exact absurd rfl (hevent code)
  | _ => exact List.append_nil _

theorem shutdown_mem_concat :
    .shutdown ∈ handlerCalls (history ++ [((), event)]) ↔
      .shutdown ∈ handlerCalls history ∨ event = .called .shutdown := by
  rw [handlerCalls, List.filterMap_append, List.mem_append]
  refine or_congr Iff.rfl ?_
  cases event <;> simp [eq_comm]

theorem count_concat (other : RoutineEvent) :
    (history ++ [((), event)]).count ((), other) =
      history.count ((), other) + if event = other then 1 else 0 := by
  simp [List.count_append, List.count_singleton]

theorem Entered.concat (h : Entered history) (event : RoutineEvent) :
    Entered (history ++ [((), event)]) :=
  List.mem_append_left _ h

theorem entered_concat :
    Entered (history ++ [((), event)]) ↔ Entered history ∨ event = .looped true := by
  simp [Entered, eq_comm]

end Histories

/-- The thread has taken the lock and neither it nor the handler has released it yet. -/
def RoutineStage.holds : RoutineStage → Bool
  | .loop => false
  | .block => false
  | .returned => false
  | _ => true

/-- The stages from the reading behind a successful wait to the end of the handler. -/
def RoutineStage.goesOn : RoutineStage → Bool
  | .callGoOn => true
  | .handling => true
  | _ => false

/-- The stages from the taking of the lock to the decision between going on and the shutdown. -/
def RoutineStage.waits : RoutineStage → Bool
  | .wait => true
  | .failed _ => true
  | .timer => true
  | .awake => true
  | .callError => true
  | .callShutdown => true
  | _ => false

/-- The events that lead from one of these stages to another. -/
def RoutineEvent.waits : RoutineEvent → Bool
  | .waited _ _ => true
  | .failed _ => true
  | .timed _ => true
  | .awoke running => !running
  | .called code => code = .error
  | _ => false

/-- The moves of the thread from stage to stage, for a value of `running`. -/
inductive RoutineMove (running : Bool) : RoutineStage → RoutineEvent → RoutineStage → Prop
  | enter (hrunning : running = true) : RoutineMove running .loop (.looped true) .block
  | leave (hrunning : running = false) : RoutineMove running .loop (.looped false) .returned
  | block : RoutineMove running .block .blocked .wait
  | within {stage : RoutineStage} {event : RoutineEvent} {stage' : RoutineStage}
      (hstage : stage.waits = true) (hevent : event.waits = true) (hstage' : stage'.waits = true) :
      RoutineMove running stage event stage'
  | goOn (hrunning : running = true) : RoutineMove running .awake (.awoke true) .callGoOn
  | call : RoutineMove running .callGoOn (.called .goOn) .handling
  | handled : RoutineMove running .handling .released .loop
  | shutdown : RoutineMove running .callShutdown (.called .shutdown) .release
  | release : RoutineMove running .release .released .returned

theorem handler_move {running : Bool} {spec : McmchTimeSpec} {command : RoutineCommand}
    {stage : RoutineStage} {event : RoutineEvent} {thread : RoutineThread}
    (hstep : mcmchSignalRoutineHandler running spec command stage = some (event, thread)) :
    RoutineMove running stage event thread.stage := by
  cases command with
  | interrompt => cases stage <;> cases hstep
  | wake status =>
    cases stage with
    | wait =>
      obtain ⟨rfl, rfl⟩ := Prod.mk.inj (Option.some.inj hstep)
      refine .within rfl rfl ?_
      dsimp only
      split <;> rfl
    | _ => cases hstep
  | clock now =>
    cases stage with
    | timer =>
      obtain ⟨rfl, rfl⟩ := Prod.mk.inj (Option.some.inj hstep)
      exact .within rfl rfl rfl
    | _ => cases hstep
  | advance =>
    cases stage with
    | loop =>
      obtain ⟨rfl, rfl⟩ := Prod.mk.inj (Option.some.inj hstep)
      cases running with
      | true => exact .enter rfl
      | false => exact .leave rfl
    | block =>
      obtain ⟨rfl, rfl⟩ := Prod.mk.inj (Option.some.inj hstep)
      exact .block
    | failed ret =>
      obtain ⟨rfl, rfl⟩ := Prod.mk.inj (Option.some.inj hstep)
      refine .within rfl rfl ?_
      dsimp only
      split
      · split <;> rfl
      · rfl
    | awake =>
      obtain ⟨rfl, rfl⟩ := Prod.mk.inj (Option.some.inj hstep)
      cases running with
      | true => exact .goOn rfl
      | false => exact .within rfl rfl rfl
    | callError =>
      obtain ⟨rfl, rfl⟩ := Prod.mk.inj (Option.some.inj hstep)
      exact .within rfl rfl rfl
    | callShutdown =>
      obtain ⟨rfl, rfl⟩ := Prod.mk.inj (Option.some.inj hstep)
      exact .shutdown
    | callGoOn =>
      obtain ⟨rfl, rfl⟩ := Prod.mk.inj (Option.some.inj hstep)
      exact .call
    | handling =>
      obtain ⟨rfl, rfl⟩ := Prod.mk.inj (Option.some.inj hstep)
      exact .handled
    | release =>
      obtain ⟨rfl, rfl⟩ := Prod.mk.inj (Option.some.inj hstep)
      exact .release
    | _ => cases hstep

/-- A step is an interruption or a move of the thread. -/
theorem routineStep_cases {running running' : Bool} {event : RoutineEvent}
    {thread thread' : RoutineThread}
    (hstep : routineMachine.program running thread event running' thread') :
    (event = .interrupted ∧ running' = false ∧ thread' = thread) ∨
      (running' = running ∧ RoutineMove running thread.stage event thread'.stage) := by
  obtain ⟨command, hcommand⟩ := hstep
  cases command with
  | interrompt =>
    simp only [routineMachine, mcmchSignalRoutineInterrompt, Option.some.injEq,
      Prod.mk.injEq] at hcommand
    obtain ⟨rfl, rfl, rfl⟩ := hcommand
    exact Or.inl ⟨rfl, rfl, rfl⟩
  | _ =>
    obtain ⟨next, hnext, hresult⟩ := Option.map_eq_some_iff.mp hcommand
    simp only [Prod.mk.injEq] at hresult
    obtain ⟨rfl, rfl, rfl⟩ := hresult
    exact Or.inr ⟨rfl, handler_move hnext⟩

/-- The invariant of the runs. A missed interruption is one that has left `running` clear for the
condition of the loop to find, or with which the thread has returned without a shutdown. -/
structure RoutineInvariant (history : RoutineHistory) (running : Bool) (stage : RoutineStage) :
    Prop where
  held : history.count ((), .blocked) = history.count ((), .released) + stage.holds.toNat
  entered : stage ≠ .loop → stage ≠ .returned → Entered history
  goingOn : GoingOn history ↔ stage.goesOn = true ∨ stage = .loop ∧ Entered history
  missed : Missed history ↔ GoingOn history ∧ running = false ∨
    stage = .returned ∧ Entered history ∧ .shutdown ∉ handlerCalls history
  closing : .shutdown ∈ handlerCalls history → stage = .release ∨ stage = .returned
  release : stage = .release → .shutdown ∈ handlerCalls history
  last_call : .shutdown ∈ handlerCalls history →
    ∃ earlier, handlerCalls history = earlier ++ [.shutdown] ∧ .shutdown ∉ earlier

section Runs

variable {history : RoutineHistory} {running : Bool} {stage stage' : RoutineStage}
  {event : RoutineEvent}

theorem routineInvariant_start (running : Bool) : RoutineInvariant [] running .loop := by
  have hgoing : ¬ GoingOn [] := not_since_nil _ _
  have hentered : ¬ Entered [] := List.not_mem_nil
  refine ⟨rfl, fun h ↦ absurd rfl h, by simp [hgoing, hentered, RoutineStage.goesOn], ?_,
    fun h ↦ absurd h List.not_mem_nil, fun h ↦ by simp at h, fun h ↦ absurd h List.not_mem_nil⟩
  simp [hgoing, Missed]

/-- An interruption is missed when the routine is going on. -/
theorem RoutineInvariant.interrupt (h : RoutineInvariant history running stage) :
    RoutineInvariant (history ++ [((), RoutineEvent.interrupted)]) false stage := by
  have hcalls : handlerCalls (history ++ [((), RoutineEvent.interrupted)]) = _ :=
    handlerCalls_keep (by simp)
  have hentered : Entered (history ++ [((), RoutineEvent.interrupted)]) ↔ Entered history := by
    simp [entered_concat]
  have hgoing : GoingOn (history ++ [((), RoutineEvent.interrupted)]) ↔ GoingOn history := by
    simp [goingOn_concat, RoutineEvent.loops]
  refine ⟨by simpa using h.held, fun hloop hreturned ↦ hentered.mpr (h.entered hloop hreturned),
    ?_, ?_, ?_, ?_, ?_⟩
  · rw [hgoing, hentered, h.goingOn]
  · -- With `running` clear from now on, whoever goes on has missed the interruption.
    rw [missed_concat, hgoing, hentered, hcalls, h.missed, and_iff_left rfl, and_iff_right rfl,
      or_right_comm, or_iff_right_of_imp And.left]
  · rw [hcalls]
    exact h.closing
  · rw [hcalls]
    exact h.release
  · rw [hcalls]
    exact h.last_call

/-- Before its closing calls the routine has not told the handler to shut down. -/
theorem RoutineInvariant.open (h : RoutineInvariant history running stage)
    (hrelease : stage ≠ .release) (hreturned : stage ≠ .returned) :
    .shutdown ∉ handlerCalls history := by
  intro hmem
  rcases h.closing hmem with hstage | hstage
  · exact hrelease hstage
  · exact hreturned hstage

/-- A move between stages before the release and the end keeps the invariant when the lock is
accounted for and the routine goes on or not as the new stage says. -/
theorem RoutineInvariant.between (h : RoutineInvariant history running stage)
    (hstage : stage ≠ .release ∧ stage ≠ .returned)
    (hstage' : stage' ≠ .release ∧ stage' ≠ .returned)
    (hevent : event ≠ .interrupted ∧ event ≠ .called .shutdown)
    (hheld : (history ++ [((), event)]).count ((), .blocked) =
      (history ++ [((), event)]).count ((), .released) + stage'.holds.toNat)
    (hentered : stage' ≠ .loop → Entered (history ++ [((), event)]))
    (hgoing : GoingOn (history ++ [((), event)]) ↔
      stage'.goesOn = true ∨ stage' = .loop ∧ Entered (history ++ [((), event)]))
    (hrunning : running = false → (GoingOn (history ++ [((), event)]) ↔ GoingOn history)) :
    RoutineInvariant (history ++ [((), event)]) running stage' := by
  have hopen : .shutdown ∉ handlerCalls (history ++ [((), event)]) := by
    rw [shutdown_mem_concat, not_or]
    exact ⟨h.open hstage.1 hstage.2, hevent.2⟩
  refine ⟨hheld, fun hloop _ ↦ hentered hloop, hgoing, ?_, fun hmem ↦ absurd hmem hopen,
    fun hrelease ↦ absurd hrelease hstage'.1, fun hmem ↦ absurd hmem hopen⟩
  rw [missed_keep hevent.1, h.missed, or_iff_left fun hend ↦ hstage.2 hend.1,
    or_iff_left fun hend ↦ hstage'.2 hend.1]
  exact and_congr_left fun hclear ↦ (hrunning hclear).symm

/-- A move inside the loop that does not read `running` keeps the invariant when the new stage goes
on, or is the loop, as the stage before it goes on. -/
theorem RoutineInvariant.keep (h : RoutineInvariant history running stage)
    (hinside : stage ≠ .loop) (hstage : stage ≠ .release ∧ stage ≠ .returned)
    (hstage' : stage' ≠ .release ∧ stage' ≠ .returned)
    (hevent : event ≠ .interrupted ∧ event ≠ .called .shutdown)
    (hquiet : event ≠ .awoke true ∧ event.loops = false)
    (hheld : (history ++ [((), event)]).count ((), .blocked) =
      (history ++ [((), event)]).count ((), .released) + stage'.holds.toNat)
    (hsame : stage'.goesOn = true ∨ stage' = .loop ↔ stage.goesOn = true) :
    RoutineInvariant (history ++ [((), event)]) running stage' := by
  have hentered := (h.entered hinside hstage.2).concat event
  have hgoing : GoingOn (history ++ [((), event)]) ↔ GoingOn history :=
    goingOn_keep hquiet.1 hquiet.2
  refine h.between hstage hstage' hevent hheld (fun _ ↦ hentered) ?_ fun _ ↦ hgoing
  rw [hgoing, h.goingOn, and_iff_left hentered, hsame, or_iff_left fun hloop ↦ hinside hloop.1]

/-- In the stages between the taking of the lock and the decision the lock is held, the routine is
not going on, and it is not at the loop, the release or the end. -/
theorem waits_spec (hstage : stage.waits = true) :
    stage.holds = true ∧ stage.goesOn = false ∧
      stage ≠ .loop ∧ stage ≠ .release ∧ stage ≠ .returned := by
  cases stage <;> simp_all [RoutineStage.waits, RoutineStage.holds, RoutineStage.goesOn]

theorem event_waits_spec (hevent : event.waits = true) :
    event ≠ .awoke true ∧ event.loops = false ∧
      (event ≠ .interrupted ∧ event ≠ .called .shutdown) ∧
      event ≠ .blocked ∧ event ≠ .released := by
  cases event <;> simp_all [RoutineEvent.waits, RoutineEvent.loops]

/-- The moves of the thread keep the invariant. -/
theorem RoutineInvariant.move (h : RoutineInvariant history running stage)
    (hmove : RoutineMove running stage event stage') :
    RoutineInvariant (history ++ [((), event)]) running stage' := by
  have hheld := h.held
  cases hmove with
  | enter hrunning =>
    refine h.between (by simp) (by simp) (by simp) ?_ (fun _ ↦ entered_concat.mpr (Or.inr rfl)) ?_
      fun hclear ↦ by simp [hrunning] at hclear
    · simpa [count_concat, RoutineStage.holds] using hheld
    · simp [goingOn_concat, RoutineStage.goesOn, RoutineEvent.loops]
  | leave hrunning =>
    -- The condition of the loop finds `running` clear: whoever cleared it was missed, unless the
    -- loop has not been entered at all.
    have hopen := h.open (by simp) (by simp)
    have hcalls : .shutdown ∉ handlerCalls (history ++ [((), RoutineEvent.looped false)]) := by
      simpa [shutdown_mem_concat] using hopen
    refine ⟨by simpa [count_concat, RoutineStage.holds] using hheld,
      fun _ hreturned ↦ absurd rfl hreturned, ?_, ?_, fun hmem ↦ absurd hmem hcalls,
      fun hrelease ↦ by simp at hrelease, fun hmem ↦ absurd hmem hcalls⟩
    · simp [goingOn_concat, RoutineStage.goesOn, RoutineEvent.loops]
    · rw [missed_keep (by simp), h.missed, h.goingOn, entered_concat]
      simp [hcalls, hrunning, goingOn_concat, RoutineStage.goesOn, RoutineEvent.loops]
  | block =>
    refine h.keep (by simp) (by simp) (by simp) (by simp) ⟨by simp, rfl⟩ ?_ (by decide)
    simpa [count_concat, RoutineStage.holds] using hheld
  | within hstage hevent hstage' =>
    obtain ⟨hholds, hquiet, hinside⟩ := waits_spec hstage
    obtain ⟨hholds', hquiet', hinside'⟩ := waits_spec hstage'
    obtain ⟨hawoke, hlooped, hothers⟩ := event_waits_spec hevent
    refine h.keep hinside.1 hinside.2 hinside'.2 hothers.1 ⟨hawoke, hlooped⟩ ?_ ?_
    · rw [count_concat, count_concat, if_neg hothers.2.1, if_neg hothers.2.2, hholds', hheld,
        hholds]
      rfl
    · simp [hquiet, hquiet', hinside'.1]
  | goOn hrunning =>
    have hentered := (h.entered (by simp) (by simp)).concat (.awoke true)
    refine h.between (by simp) (by simp) (by simp) ?_ (fun _ ↦ hentered) ?_
      fun hclear ↦ by simp [hrunning] at hclear
    · simpa [count_concat, RoutineStage.holds] using hheld
    · simp [goingOn_concat, RoutineStage.goesOn, RoutineEvent.loops]
  | call =>
    refine h.keep (by simp) (by simp) (by simp) (by simp) ⟨by simp, rfl⟩ ?_ (by decide)
    simpa [count_concat, RoutineStage.holds] using hheld
  | handled =>
    refine h.keep (by simp) (by simp) (by simp) (by simp) ⟨by simp, rfl⟩ ?_ (by decide)
    simpa [count_concat, RoutineStage.holds] using hheld
  | shutdown =>
    have hopen := h.open (by simp) (by simp)
    have hentered := (h.entered (by simp) (by simp)).concat (.called .shutdown)
    have hgoing : GoingOn (history ++ [((), RoutineEvent.called .shutdown)]) ↔ GoingOn history :=
      goingOn_keep (by simp) rfl
    have hcalls : handlerCalls (history ++ [((), RoutineEvent.called .shutdown)]) =
        handlerCalls history ++ [.shutdown] := by
      simp [handlerCalls]
    refine ⟨by simpa [count_concat, RoutineStage.holds] using hheld, fun _ _ ↦ hentered, ?_, ?_,
      fun _ ↦ Or.inl rfl, fun _ ↦ by simp [hcalls], fun _ ↦ ⟨_, hcalls, hopen⟩⟩
    · rw [hgoing, h.goingOn]
      simp [RoutineStage.goesOn]
    · rw [missed_keep (by simp), h.missed, hgoing]
      simp
  | release =>
    have hclosed := h.release rfl
    have hgoing : GoingOn (history ++ [((), RoutineEvent.released)]) ↔ GoingOn history :=
      goingOn_keep (by simp) rfl
    have hcalls : handlerCalls (history ++ [((), RoutineEvent.released)]) = _ :=
      handlerCalls_keep (by simp)
    refine ⟨by simpa [count_concat, RoutineStage.holds] using hheld,
      fun _ hreturned ↦ absurd rfl hreturned, ?_, ?_, fun _ ↦ Or.inr rfl,
      fun hrelease ↦ by simp at hrelease, ?_⟩
    · rw [hgoing, h.goingOn]
      simp [RoutineStage.goesOn]
    · rw [missed_keep (by simp), h.missed, hgoing, hcalls]
      simp [hclosed]
    · rw [hcalls]
      exact h.last_call

/-- The invariant holds in every run. -/
theorem routineInvariant_of_run {config : Config Unit Bool RoutineThread}
    (hrun : RoutineRun running history config) :
    RoutineInvariant history config.shared (config.threads ()).stage := by
  refine Run.invariant (fun history config ↦
    RoutineInvariant history config.shared (config.threads ()).stage) ?_ ?_ hrun
  · exact routineInvariant_start running
  · rintro history config ⟨⟩ event running' thread' _ hinvariant _ hstep
    rcases routineStep_cases hstep with ⟨rfl, rfl, rfl⟩ | ⟨rfl, hmove⟩
    · exact hinvariant.interrupt
    · exact hinvariant.move hmove

/-- Whenever the thread has returned after entering its loop, the handler was told to shut down
once, by its last call, and the lock was released as often as it was taken, if and only if the
routine was never interrupted between the reading of `running` behind a successful wait and the
condition of the loop. -/
theorem shutsDown_iff {config : Config Unit Bool RoutineThread}
    (hrun : RoutineRun running history config)
    (hreturned : (config.threads ()).stage = .returned) (hentered : Entered history) :
    ShutsDown history ↔ ¬ Missed history := by
  have hinvariant := routineInvariant_of_run hrun
  rw [hreturned] at hinvariant
  have hmissed : Missed history ↔ .shutdown ∉ handlerCalls history := by
    rw [hinvariant.missed, hinvariant.goingOn]
    simp [RoutineStage.goesOn, hentered]
  rw [hmissed, not_not]
  constructor
  · intro hshut
    obtain ⟨earlier, hcalls, -⟩ := hshut.last_call
    simp [hcalls]
  · intro hmem
    exact ⟨hinvariant.last_call hmem, by simpa [RoutineStage.holds] using hinvariant.held.symm⟩

end Runs

/-- The schedule of a routine that is interrupted while it waits, after it has gone on once. -/
def interruptedWaiting : List (Unit × RoutineCommand) :=
  [((), .advance), ((), .advance), ((), .wake etimedout), ((), .advance),
    ((), .clock ⟨7, 600000000⟩), ((), .wake 0), ((), .advance), ((), .advance), ((), .advance),
    ((), .advance), ((), .advance), ((), .interrompt), ((), .wake 0), ((), .advance),
    ((), .advance), ((), .advance)]

/-- A routine that is interrupted while it waits is shut down. -/
theorem shutsDown_iff_waiting :
    ∃ (history : RoutineHistory) (config : Config Unit Bool RoutineThread),
      RoutineRun true history config ∧ Entered history ∧ ((), .interrupted) ∈ history ∧
        ShutsDown history := by
  obtain ⟨config, hrun, hstage⟩ := exists_run_of_play routineMachine anyStep
    (⟨true, fun _ ↦ ⟨.loop, nullTimeSpec⟩⟩ : Config Unit Bool RoutineThread) interruptedWaiting
    (fun config ↦ (config.threads ()).stage)
    [((), .looped true), ((), .blocked), ((), .waited nullTimeSpec .ovtimeout), ((), .failed true),
      ((), .timed ⟨8, 100000000⟩), ((), .waited ⟨8, 100000000⟩ .success), ((), .awoke true),
      ((), .called .goOn), ((), .released), ((), .looped true), ((), .blocked), ((), .interrupted),
      ((), .waited ⟨8, 100000000⟩ .success), ((), .awoke false), ((), .called .shutdown),
      ((), .released)]
    .returned (by decide +kernel)
  refine ⟨_, config, hrun, by decide, by decide,
    (shutsDown_iff hrun hstage (by decide)).mpr (by decide)⟩

/-- A routine that is interrupted while its handler runs to go on returns without a shutdown. -/
theorem not_shutsDown_handling :
    ∃ (history : RoutineHistory) (config : Config Unit Bool RoutineThread),
      RoutineRun true history config ∧ (config.threads ()).stage = .returned ∧ Entered history ∧
        handlerCalls history = [.goOn] ∧ ¬ ShutsDown history := by
  obtain ⟨config, hrun, hstage⟩ := exists_run_of_play routineMachine anyStep
    (⟨true, fun _ ↦ ⟨.loop, nullTimeSpec⟩⟩ : Config Unit Bool RoutineThread)
    [((), .advance), ((), .advance), ((), .wake 0), ((), .advance), ((), .advance),
      ((), .interrompt), ((), .advance), ((), .advance)]
    (fun config ↦ (config.threads ()).stage)
    [((), .looped true), ((), .blocked), ((), .waited nullTimeSpec .success), ((), .awoke true),
      ((), .called .goOn), ((), .interrupted), ((), .released), ((), .looped false)]
    .returned (by decide +kernel)
  refine ⟨_, config, hrun, hstage, by decide, rfl, fun hshut ↦ ?_⟩
  obtain ⟨earlier, hcalls, -⟩ := hshut.last_call
  have hmem : HandlerCode.shutdown ∈ [HandlerCode.goOn] := by
    rw [show [HandlerCode.goOn] = _ from hcalls]
    simp
  exact absurd hmem (by decide)

end Mcmp.Routines.SignalRoutine
