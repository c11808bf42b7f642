import Mcmp.Routines.Consumer

/-!
# The consumer in an execution pool

`__priv_consumer_handler_dispatcher` of consumer.c, the routine that `mcmchConsumerRoutineCreate`
makes for an execution pool. A thread asks the key for a value and waits for a signal of its pool
(`mcmchPoolWaitSignal`) until the key has given one, and calls the handler with it. No lock is
taken: the threads of one consumer may be in the key together. `running` is read before each round
only, and a round goes on until the key gives a value.

Nothing that was taken is dropped, also not by an interruption, and each call of the handler comes
behind a wait that began after the value was taken (`consumerPool_handlesTaken`). A thread that an
interruption meets in a round stays in it for as long as the key gives nothing, so it need not come
to an end (`consumerPool_goesOn`).
-/

set_option autoImplicit false
set_option relaxedAutoImplicit false

namespace Mcmp.Routines.ConsumerPool

open Foundation.Interleaving Consumer

/-! ### The threads -/

/-- Where a thread is: before the condition of the loop, before and in a call of the key, in the
wait, before and in the call of the handler, and at its end. -/
inductive DispatcherStage
  | loop
  | key
  | inKey
  | wait (ret : ℤ)
  | handle
  | handling
  | returned
  deriving DecidableEq, Repr

/-- A thread: its place and its variable `taked`. -/
structure DispatcherThread where
  stage : DispatcherStage
  taked : ℕ
  deriving DecidableEq, Repr

/-- The next step of a thread of a consumer whose `running` is given. -/
def consumerHandlerDispatcher (running : Bool) (thread : DispatcherThread) :
    ConsumerCommand → DispatcherStage → Option (ConsumerEvent × Bool × DispatcherThread)
  | .advance, .loop =>
    some (.looped running, running,
      { thread with stage := if running then .key else .returned })
  | .advance, .key => some (.keyCalled, running, { thread with stage := .inKey })
  | .returns ret taked, .inKey =>
    some (.keyed ret taked, running, { stage := .wait ret, taked := taked })
  | .wake status, .wait ret =>
    some (.waited status, running,
      { thread with stage := if ret ≠ taken then .key else .handle })
  | .advance, .handle => some (.handled thread.taked, running, { thread with stage := .handling })
  | .advance, .handling => some (.handlerReturned, running, { thread with stage := .loop })
  | _, _ => none

/-- The threads of a consumer, and those who interrupt it. -/
def dispatcherMachine : Machine ConsumerCommand Bool DispatcherThread ConsumerEvent
  | .interrompt, _, thread => some (.interrupted, false, thread)
  | command, running, thread => consumerHandlerDispatcher running thread command thread.stage

/-- A consumer between two steps. -/
abbrev DispatcherConfig := Config ℕ Bool DispatcherThread

/-- A consumer that `mcmchConsumerRoutineCreate` has filled in, before the first step of its
threads. -/
def mcmchConsumerRoutineCreate (taked : ℕ → ℕ) : DispatcherConfig :=
  ⟨true, fun i ↦ ⟨.loop, taked i⟩⟩

/-- The runs of a consumer from its creation. -/
abbrev DispatcherRun (taked : ℕ → ℕ) :=
  Run dispatcherMachine.program anyStep (mcmchConsumerRoutineCreate taked)

/-! ### What one step does -/

section Steps

variable {running running' : Bool} {thread thread' : DispatcherThread} {event : ConsumerEvent}

/-- The steps of a thread that is at a stage: its event, and the stage and `taked` after it. -/
inductive DispatcherStep (running : Bool) (taked : ℕ) :
    DispatcherStage → ConsumerEvent → DispatcherStage → ℕ → Prop
  | entered : running = true → DispatcherStep running taked .loop (.looped true) .key taked
  | left : running = false → DispatcherStep running taked .loop (.looped false) .returned taked
  | keyCalled : DispatcherStep running taked .key .keyCalled .inKey taked
  | keyed (ret : ℤ) (value : ℕ) :
      DispatcherStep running taked .inKey (.keyed ret value) (.wait ret) value
  | again (ret status : ℤ) : ret ≠ taken →
      DispatcherStep running taked (.wait ret) (.waited status) .key taked
  | woken (status : ℤ) : DispatcherStep running taked (.wait taken) (.waited status) .handle taked
  | handled : DispatcherStep running taked .handle (.handled taked) .handling taked
  | handlerReturned : DispatcherStep running taked .handling .handlerReturned .loop taked

/-- A step of the system interrupts the consumer, or is a step of its thread. -/
theorem dispatcherStep_of_program
    (hprogram : dispatcherMachine.program running thread event running' thread') :
    (event = .interrupted ∧ running' = false ∧ thread' = thread) ∨
      running' = running ∧
        DispatcherStep running thread.taked thread.stage event thread'.stage thread'.taked := by
  obtain ⟨command, hcommand⟩ := hprogram
  obtain ⟨stage, taked⟩ := thread
  cases command with
  | interrompt =>
    simp only [dispatcherMachine, Option.some.injEq, Prod.mk.injEq] at hcommand
    obtain ⟨rfl, rfl, rfl⟩ := hcommand
    exact Or.inl ⟨rfl, rfl, rfl⟩
  | advance =>
    cases stage <;> simp only [dispatcherMachine, consumerHandlerDispatcher, reduceCtorEq,
      Option.some.injEq, Prod.mk.injEq] at hcommand
    case loop =>
      obtain ⟨rfl, rfl, rfl⟩ := hcommand
      cases running with
      | true => exact Or.inr ⟨rfl, .entered rfl⟩
      | false => exact Or.inr ⟨rfl, .left rfl⟩
    all_goals
      obtain ⟨rfl, rfl, rfl⟩ := hcommand
      exact Or.inr ⟨rfl, by constructor⟩
  | returns ret value =>
    cases stage <;> simp only [dispatcherMachine, consumerHandlerDispatcher, reduceCtorEq,
      Option.some.injEq, Prod.mk.injEq] at hcommand
    obtain ⟨rfl, rfl, rfl⟩ := hcommand
    exact Or.inr ⟨rfl, .keyed ret value⟩
  | wake status =>
    cases stage <;> simp only [dispatcherMachine, consumerHandlerDispatcher, reduceCtorEq,
      Option.some.injEq, Prod.mk.injEq] at hcommand
    rename_i ret
    obtain ⟨rfl, rfl, rfl⟩ := hcommand
    by_cases hret : ret = taken
    · subst hret
      exact Or.inr ⟨rfl, .woken status⟩
    · exact Or.inr ⟨rfl, by simpa [hret] using .again ret status hret⟩
  | clock now =>
    cases stage <;> simp [dispatcherMachine, consumerHandlerDispatcher] at hcommand

end Steps

/-! ### The values -/

section Values

variable {running running' : Bool} {taked taked' : ℕ} {stage stage' : DispatcherStage}
  {event : ConsumerEvent} {start : ℕ → ℕ} {history later : ConsumerHistory}
  {config config' : DispatcherConfig}

/-- The value that a thread has taken and will call the handler with. -/
def inHand (taked : ℕ) : DispatcherStage → List ℕ
  | .wait ret => if ret = taken then [taked] else []
  | .handle => [taked]
  | _ => []

/-- Whether the thread is in the wait. -/
def DispatcherStage.waiting : DispatcherStage → ℕ
  | .wait _ => 1
  | _ => 0

/-- A call of the key returns. -/
def isKeyed : ConsumerEvent → Bool
  | .keyed _ _ => true
  | _ => false

/-- A wait ends. -/
def isWaited : ConsumerEvent → Bool
  | .waited _ => true
  | _ => false

/-- How many calls of the key have returned to a thread. -/
def keysOf (i : ℕ) (history : ConsumerHistory) : ℕ :=
  history.countP fun entry ↦ decide (entry.1 = i) && isKeyed entry.2

/-- How many waits of a thread have ended. -/
def waitsOf (i : ℕ) (history : ConsumerHistory) : ℕ :=
  history.countP fun entry ↦ decide (entry.1 = i) && isWaited entry.2

theorem keysOf_concat (i j : ℕ) (history : ConsumerHistory) (event : ConsumerEvent) :
    keysOf i (history ++ [(j, event)]) =
      keysOf i history + if j = i then (isKeyed event).toNat else 0 := by
  by_cases hj : j = i <;> cases h : isKeyed event <;>
    simp [keysOf, List.countP_append, hj, h]

theorem waitsOf_concat (i j : ℕ) (history : ConsumerHistory) (event : ConsumerEvent) :
    waitsOf i (history ++ [(j, event)]) =
      waitsOf i history + if j = i then (isWaited event).toNat else 0 := by
  by_cases hj : j = i <;> cases h : isWaited event <;>
    simp [waitsOf, List.countP_append, hj, h]

/-- A step keeps the account of what was taken and handled. -/
theorem DispatcherStep.accounted {takes handles : List ℕ}
    (hstep : DispatcherStep running taked stage event stage' taked')
    (htakes : takes = handles ++ inHand taked stage) :
    takes ++ event.takes.toList =
      handles ++ event.handles.toList ++ inHand taked' stage' := by
  cases hstep with
  | keyed ret value =>
    by_cases hret : ret = taken <;>
      simp [htakes, inHand, ConsumerEvent.takes, ConsumerEvent.handles, hret]
  | again ret status hret =>
    simp [htakes, inHand, ConsumerEvent.takes, ConsumerEvent.handles, hret]
  | _ => simp [htakes, inHand, ConsumerEvent.takes, ConsumerEvent.handles]

/-- A step keeps the account of the calls of the key and the waits. -/
theorem DispatcherStep.waits {keys waits : ℕ}
    (hstep : DispatcherStep running taked stage event stage' taked')
    (hkeys : keys = waits + stage.waiting) :
    keys + (isKeyed event).toNat = waits + (isWaited event).toNat + stage'.waiting := by
  cases hstep <;> simp [hkeys, DispatcherStage.waiting, isKeyed, isWaited]

/-- A thread ends only in a consumer that does not run. -/
theorem DispatcherStep.running_eq_false
    (hstep : DispatcherStep running taked stage event .returned taked') : running = false := by
  cases hstep with
  | left hrunning => exact hrunning

/-- Every value that a thread takes it calls the handler with, once and in the order of taking,
whenever the consumer is interrupted: only the last value may still be in its hand, in the wait
behind the key or just behind that wait, and none is when the thread ends. A wait follows every call
of the key, also the one that took a value. -/
theorem consumerPool_handlesTaken (hrun : DispatcherRun start history config) (i : ℕ) :
    takenBy i history =
        handledBy i history ++ inHand (config.threads i).taked (config.threads i).stage ∧
      keysOf i history = waitsOf i history + (config.threads i).stage.waiting ∧
      ((config.threads i).stage = .returned →
        config.shared = false ∧ takenBy i history = handledBy i history) := by
  suffices h : takenBy i history =
        handledBy i history ++ inHand (config.threads i).taked (config.threads i).stage ∧
      keysOf i history = waitsOf i history + (config.threads i).stage.waiting ∧
      ((config.threads i).stage = .returned → config.shared = false) by
    refine ⟨h.1, h.2.1, fun hreturned ↦ ⟨h.2.2 hreturned, ?_⟩⟩
    simpa [hreturned, inHand] using h.1
  refine hrun.invariant (fun history (config : DispatcherConfig) ↦ takenBy i history =
        handledBy i history ++ inHand (config.threads i).taked (config.threads i).stage ∧
      keysOf i history = waitsOf i history + (config.threads i).stage.waiting ∧
      ((config.threads i).stage = .returned → config.shared = false))
    ⟨rfl, rfl, fun h ↦ by simp [mcmchConsumerRoutineCreate] at h⟩ ?_
  intro history config j event running' thread' _ ⟨htakes, hkeys, hreturned⟩ _ hprogram
  rw [takenBy_concat, handledBy_concat, keysOf_concat, waitsOf_concat]
  rcases dispatcherStep_of_program hprogram with ⟨rfl, rfl, rfl⟩ | ⟨rfl, hstep⟩
  · rcases eq_or_ne i j with rfl | hi
    · simpa [ConsumerEvent.takes, ConsumerEvent.handles, isKeyed, isWaited] using ⟨htakes, hkeys⟩
    · simpa [hi, Ne.symm hi] using ⟨htakes, hkeys⟩
  · rcases eq_or_ne i j with rfl | hi
    · refine ⟨by simpa using hstep.accounted htakes, by simpa using hstep.waits hkeys, ?_⟩
      intro hstage
      rw [Config.advance_threads_self] at hstage
      rw [hstage] at hstep
      exact hstep.running_eq_false
    · simpa [hi, Ne.symm hi] using ⟨htakes, hkeys, hreturned⟩

/-- A thread that handles a value, takes another one, finds the consumer interrupted and handles the
second value before it ends. -/
theorem consumerPool_handlesTaken_one :
    ∃ history config, DispatcherRun (fun _ ↦ 0) history config ∧
      (config.threads 0).stage = .returned ∧ config.shared = false ∧
      handledBy 0 history = [7, 9] ∧ takenBy 0 history = handledBy 0 history := by
  obtain ⟨history, config, hrun, hview⟩ := exists_run_of_play_view dispatcherMachine anyStep
    (mcmchConsumerRoutineCreate fun _ ↦ 0)
    [(0, .advance), (0, .advance), (0, .returns taken 7), (0, .wake 0), (0, .advance),
      (0, .advance), (0, .advance), (0, .advance), (0, .returns taken 9), (1, .interrompt),
      (0, .wake 0), (0, .advance), (0, .advance), (0, .advance)]
    (fun history config ↦ ((config.threads 0).stage, handledBy 0 history)) (.returned, [7, 9])
    (by decide)
  obtain ⟨hstage, hhandles⟩ := Prod.mk.inj hview
  obtain ⟨hstopped, htakes⟩ := (consumerPool_handlesTaken hrun 0).2.2 hstage
  exact ⟨history, config, hrun, hstage, hstopped, hhandles, htakes⟩

end Values

/-! ### An interrupted consumer -/

section Interrupted

variable {running running' : Bool} {taked taked' : ℕ} {stage stage' : DispatcherStage}
  {event : ConsumerEvent} {start : ℕ → ℕ} {history later : ConsumerHistory}
  {config config' : DispatcherConfig} {i : ℕ}

/-- The stages of a round: a thread that is at one of them will call the handler before it reads
`running` again. -/
def DispatcherStage.inRound : DispatcherStage → Bool
  | .key => true
  | .inKey => true
  | .wait _ => true
  | .handle => true
  | _ => false

/-- In a consumer that does not run no round begins. -/
theorem DispatcherStep.inRound (hstep : DispatcherStep running taked stage event stage' taked')
    (hstopped : running = false) :
    event.handles.toList.length + stage'.inRound.toNat = stage.inRound.toNat := by
  cases hstep with
  | entered hrunning => simp [hstopped] at hrunning
  | _ => rfl

/-- What is left to a thread after a part of a run in which the consumer does not run. -/
theorem handledBy_of_stopped
    (hlater : Run dispatcherMachine.program anyStep config later config')
    (hstopped : config.shared = false) (i : ℕ) :
    config'.shared = false ∧
      (handledBy i later).length + (config'.threads i).stage.inRound.toNat =
        (config.threads i).stage.inRound.toNat := by
  refine hlater.invariant (fun later (config' : DispatcherConfig) ↦ config'.shared = false ∧
      (handledBy i later).length + (config'.threads i).stage.inRound.toNat =
        (config.threads i).stage.inRound.toNat) ⟨hstopped, by simp [handledBy]⟩ ?_
  rintro later config' j event running' thread' _ ⟨hrunning, hround⟩ _ hprogram
  rw [handledBy_concat]
  rcases dispatcherStep_of_program hprogram with ⟨rfl, rfl, rfl⟩ | ⟨rfl, hstep⟩
  · rcases eq_or_ne i j with rfl | hi
    · simpa [ConsumerEvent.handles] using hround
    · simpa [hi, Ne.symm hi] using hround
  · refine ⟨hrunning, ?_⟩
    rcases eq_or_ne i j with rfl | hi
    · have hnext := hstep.inRound hrunning
      simp only [Config.advance_threads_self, List.length_append, if_true]
      omega
    · simpa [hi, Ne.symm hi] using hround

/-- A call of the key that gives nothing, and the wait behind it. -/
theorem exists_turn (hlater : Run dispatcherMachine.program anyStep config later config')
    (hkey : (config'.threads i).stage = .key) :
    ∃ last, (last.threads i).stage = .key ∧
      Run dispatcherMachine.program anyStep config
        (later ++ [(i, .keyCalled)] ++ [(i, .keyed 0 0)] ++ [(i, .waited 0)]) last := by
  have hplay : ∃ last, play dispatcherMachine anyStep
      [(i, .advance), (i, .returns 0 0), (i, .wake 0)] later config' =
        some (later ++ [(i, .keyCalled)] ++ [(i, .keyed 0 0)] ++ [(i, .waited 0)], last) ∧
      (last.threads i).stage = .key := by
    simp [play, dispatcherMachine, consumerHandlerDispatcher, hkey, anyStep, taken]
  obtain ⟨last, hplay, hstage⟩ := hplay
  exact ⟨last, hstage, run_of_play _ hlater hplay⟩

/-- A thread that is before a call of the key can call it any number of times in vain. -/
theorem exists_turns (hkey : (config.threads i).stage = .key) (n : ℕ) :
    ∃ later last, Run dispatcherMachine.program anyStep config later last ∧
      keysOf i later = n ∧ takenBy i later = [] ∧ handledBy i later = [] ∧
      (last.threads i).stage = .key := by
  induction n with
  | zero => exact ⟨[], config, .start, rfl, rfl, rfl, hkey⟩
  | succ n ih =>
    obtain ⟨later, middle, hlater, hkeys, htakes, hhandles, hstage⟩ := ih
    obtain ⟨last, hlast, hrun⟩ := exists_turn hlater hstage
    refine ⟨_, last, hrun, ?_, ?_, ?_, hlast⟩
    · rw [keysOf_concat, keysOf_concat, keysOf_concat, hkeys]
      simp [isKeyed]
    · rw [takenBy_concat, takenBy_concat, takenBy_concat, htakes]
      simp [ConsumerEvent.takes, taken]
    · rw [handledBy_concat, handledBy_concat, handledBy_concat, hhandles]
      simp [ConsumerEvent.handles]

/-- From when the consumer does not run, a thread that is in a round calls the handler once when the
round comes to its end, and any other thread does not call it. No interruption ends a round: a
thread that is before a call of the key may make any number of calls in vain. -/
theorem consumerPool_goesOn (hlater : Run dispatcherMachine.program anyStep config later config')
    (hstopped : config.shared = false) (i : ℕ) :
    (handledBy i later).length + (config'.threads i).stage.inRound.toNat =
        (config.threads i).stage.inRound.toNat ∧
      ((config'.threads i).stage = .returned →
        (handledBy i later).length = if (config.threads i).stage.inRound then 1 else 0) ∧
      ((config'.threads i).stage = .key → ∀ n, ∃ again last,
        Run dispatcherMachine.program anyStep config' again last ∧ keysOf i again = n ∧
          takenBy i again = [] ∧ handledBy i again = [] ∧ (last.threads i).stage = .key) := by
  have hround := (handledBy_of_stopped hlater hstopped i).2
  refine ⟨hround, fun hreturned ↦ ?_, fun hkey n ↦ exists_turns hkey n⟩
  rw [hreturned] at hround
  have hstart : (config.threads i).stage.inRound.toNat =
      if (config.threads i).stage.inRound then 1 else 0 := by
    cases (config.threads i).stage.inRound <;> rfl
  exact hround.trans hstart

/-- A thread that an interruption meets in the wait. It may call the key a thousand times in vain,
and when the key gives it a value it handles that one and ends. -/
theorem consumerPool_goesOn_one :
    ∃ history config later config' ending last, DispatcherRun (fun _ ↦ 0) history config ∧
      config.shared = false ∧
      Run dispatcherMachine.program anyStep config later config' ∧
      (∃ again last', Run dispatcherMachine.program anyStep config' again last' ∧
        keysOf 0 again = 1000 ∧ takenBy 0 again = [] ∧ handledBy 0 again = [] ∧
          (last'.threads 0).stage = .key) ∧
      Run dispatcherMachine.program anyStep config ending last ∧
      (last.threads 0).stage = .returned ∧ (handledBy 0 ending).length = 1 := by
  obtain ⟨history, config, hrun, hstopped, hround, later, config', hlater, hkey, ending, last,
      hending, hreturned⟩ :
      ∃ history config, DispatcherRun (fun _ ↦ 0) history config ∧ config.shared = false ∧
        (config.threads 0).stage.inRound = true ∧
        ∃ later config', Run dispatcherMachine.program anyStep config later config' ∧
          (config'.threads 0).stage = .key ∧
          ∃ ending last, Run dispatcherMachine.program anyStep config ending last ∧
            (last.threads 0).stage = .returned :=
    ⟨_, _, run_of_play [(0, .advance), (0, .advance), (0, .returns 0 0), (1, .interrompt)] .start
        rfl, rfl, rfl,
      _, _, run_of_play [(0, .wake 0)] .start rfl, rfl,
      _, _, run_of_play [(0, .wake 0), (0, .advance), (0, .returns taken 7), (0, .wake 0),
        (0, .advance), (0, .advance), (0, .advance)] .start rfl, rfl⟩
  have hcount := (consumerPool_goesOn hending hstopped 0).2.1 hreturned
  rw [hround] at hcount
  exact ⟨history, config, later, config', ending, last, hrun, hstopped, hlater,
    (consumerPool_goesOn hlater hstopped 0).2.2 hkey 1000, hending, hreturned, hcount⟩

end Interrupted

end Mcmp.Routines.ConsumerPool
