import Mcmp.Routines.SignalRoutine

/-!
# The consumer under a lock

`___priv_consumer_handler_dispatcher` of consumer.c. Each thread that runs it asks the key of the
consumer for a value, under the lock, and calls the handler with the value outside of the lock. When
the key has no value, the thread waits for the signal of the lock, at most half a second at a time,
and asks again. Any number of threads may run one consumer, and anybody may clear its `running`.

A step is taking or releasing the lock, the beginning or the end of a call, a wait, or the reading
of `running` or of the clock. What the key returns and where it stores the value are not known; a
value counts as taken when the key returns `MCMCHCONSUMER_TAKED`.

The calls of the key exclude each other (`consumer_keyExclusive`). Every value that was taken is
handled once, by the thread that took it and in the order of taking, except that a thread which
finds `running` clear drops the value that it has just taken (`consumer_handlesTaken`). From when
`running` is clear each thread has at most eight steps left (`consumer_stops`).
-/

set_option autoImplicit false
set_option relaxedAutoImplicit false

namespace Mcmp.Routines.Consumer

open Foundation.Interleaving SignalRoutine

/-! ### The threads of a consumer -/

/-- `MCMCHCONSUMER_TAKED`. -/
def taken : ℤ := 1

/-- Where a thread is: before the condition of the loop, before taking the lock, before and in a
call of the key (the one behind a signal is `again`), before and in the wait, before the reading of
`running` behind a wait that failed and that of the clock, before the reading of `running` behind
the waits, before the two releases of the lock, before and in the call of the handler, and at its
end. -/
inductive ConsumerStage
  | loop
  | block
  | key (again : Bool)
  | inKey (again : Bool)
  | wait
  | asleep
  | failed (ret : ℤ)
  | timer
  | awake (ret : ℤ)
  | release (ret : ℤ)
  | shutdown
  | handle
  | handling
  | returned
  deriving DecidableEq, Repr

/-- A thread: its number, its place, and its variables `taked` and `nextframe`. -/
structure ConsumerThread where
  id : ℕ
  stage : ConsumerStage
  taked : ℕ
  nextframe : McmchTimeSpec
  deriving DecidableEq, Repr

/-- `running` of the consumer, and the thread that has the lock. -/
structure ConsumerState where
  running : Bool
  holder : Option ℕ
  deriving DecidableEq, Repr

inductive ConsumerEvent
  | looped (running : Bool)
  | blocked
  | keyCalled
  | keyed (ret : ℤ) (taked : ℕ)
  | waits (nextframe : McmchTimeSpec)
  | waited (ret : ℤ)
  | tested (running : Bool)
  | timed
  | released
  | handled (taked : ℕ)
  | handlerReturned
  | interrupted
  deriving DecidableEq, Repr

/-- What can be told to happen: a thread goes on, the key returns, a wait ends with a status, the
clock is read, the consumer is interrupted. -/
inductive ConsumerCommand
  | advance
  | returns (ret : ℤ) (taked : ℕ)
  | wake (status : ℤ)
  | clock (now : McmchTimeSpec)
  | interrompt
  deriving DecidableEq, Repr

/-- The next step of a thread. A wait gives the lock up and takes it back. -/
def consumerHandlerDispatcher (state : ConsumerState) (thread : ConsumerThread) :
    ConsumerCommand → ConsumerStage → Option (ConsumerEvent × ConsumerState × ConsumerThread)
  | .advance, .loop =>
    some (.looped state.running, state,
      { thread with stage := if state.running then .block else .returned })
  | .advance, .block =>
    if state.holder = none then
      some (.blocked, { state with holder := some thread.id }, { thread with stage := .key false })
    else none
  | .advance, .key again => some (.keyCalled, state, { thread with stage := .inKey again })
  | .returns ret taked, .inKey again =>
    some (.keyed ret taked, state,
      { thread with
        stage := if again then .release ret else if ret ≠ taken then .wait else .awake ret
        taked := taked })
  | .advance, .wait =>
    some (.waits thread.nextframe, { state with holder := none }, { thread with stage := .asleep })
  | .wake status, .asleep =>
    if state.holder = none then
      let ret := (mcmchSignalLockTimedWait status).code
      some (.waited ret, { state with holder := some thread.id },
        { thread with stage := if ret ≠ Mcmpst.success.code then .failed ret else .awake ret })
    else none
  | .advance, .failed ret =>
    some (.tested state.running, state,
      { thread with
        stage := if ¬state.running ∨ ret ≠ Mcmpst.ovtimeout.code then .awake ret else .timer })
  | .clock now, .timer =>
    some (.timed, state,
      { thread with stage := .key false, nextframe := halfSecondAfter now })
  | .advance, .awake ret =>
    some (.tested state.running, state,
      { thread with
        stage :=
          if ¬state.running then .shutdown
          else if ret = Mcmpst.success.code then .key true else .release ret })
  | .advance, .release ret =>
    some (.released, { state with holder := none },
      { thread with stage := if ret = taken then .handle else .loop })
  | .advance, .shutdown =>
    some (.released, { state with holder := none }, { thread with stage := .returned })
  | .advance, .handle => some (.handled thread.taked, state, { thread with stage := .handling })
  | .advance, .handling => some (.handlerReturned, state, { thread with stage := .loop })
  | _, _ => none

/-- The threads of a consumer, and those who interrupt it. -/
def consumerMachine : Machine ConsumerCommand ConsumerState ConsumerThread ConsumerEvent
  | .interrompt, state, thread => some (.interrupted, { state with running := false }, thread)
  | command, state, thread => consumerHandlerDispatcher state thread command thread.stage

/-- A history of a consumer. -/
abbrev ConsumerHistory := List (ℕ × ConsumerEvent)

/-- A consumer between two steps. -/
abbrev ConsumerConfig := Config ℕ ConsumerState ConsumerThread

/-- A consumer that runs, its lock free, before the first step of its threads. What is in `taked` at
the start of a thread is not known. -/
def created (taked : ℕ → ℕ) : ConsumerConfig :=
  ⟨⟨true, none⟩, fun i ↦ ⟨i, .loop, taked i, nullTimeSpec⟩⟩

/-- The runs of a consumer from its creation. -/
abbrev ConsumerRun (taked : ℕ → ℕ) := Run consumerMachine.program anyStep (created taked)

/-! ### What one step does -/

section Steps

variable {state state' : ConsumerState} {thread thread' : ConsumerThread} {event : ConsumerEvent}
  {taked : ℕ → ℕ} {history : ConsumerHistory} {config : ConsumerConfig} {i j : ℕ}

/-- The steps of a thread that is at a stage: its event, and the consumer, the stage and `taked`
after it. -/
inductive ConsumerStep (state : ConsumerState) (i taked : ℕ) :
    ConsumerStage → ConsumerEvent → ConsumerState → ConsumerStage → ℕ → Prop
  | entered : state.running = true →
      ConsumerStep state i taked .loop (.looped true) state .block taked
  | left : state.running = false →
      ConsumerStep state i taked .loop (.looped false) state .returned taked
  | blocked : state.holder = none →
      ConsumerStep state i taked .block .blocked { state with holder := some i } (.key false) taked
  | keyCalled (again : Bool) :
      ConsumerStep state i taked (.key again) .keyCalled state (.inKey again) taked
  | keyAgain (ret : ℤ) (value : ℕ) :
      ConsumerStep state i taked (.inKey true) (.keyed ret value) state (.release ret) value
  | keyNone (ret : ℤ) (value : ℕ) : ret ≠ taken →
      ConsumerStep state i taked (.inKey false) (.keyed ret value) state .wait value
  | keyTaken (value : ℕ) :
      ConsumerStep state i taked (.inKey false) (.keyed taken value) state (.awake taken) value
  | waits (nextframe : McmchTimeSpec) :
      ConsumerStep state i taked .wait (.waits nextframe) { state with holder := none } .asleep
        taked
  | woken (ret : ℤ) (stage : ConsumerStage) : state.holder = none → ret ≠ taken →
      (stage = .failed ret ∨ stage = .awake ret) →
      ConsumerStep state i taked .asleep (.waited ret) { state with holder := some i } stage taked
  | failed (ret : ℤ) (stage : ConsumerStage) :
      (stage = .awake ret ∨ stage = .timer ∧ state.running = true) →
      ConsumerStep state i taked (.failed ret) (.tested state.running) state stage taked
  | timed : ConsumerStep state i taked .timer .timed state (.key false) taked
  | stopped (ret : ℤ) : state.running = false →
      ConsumerStep state i taked (.awake ret) (.tested false) state .shutdown taked
  | signalled : state.running = true →
      ConsumerStep state i taked (.awake 0) (.tested true) state (.key true) taked
  | goesOn (ret : ℤ) : state.running = true → ret ≠ 0 →
      ConsumerStep state i taked (.awake ret) (.tested true) state (.release ret) taked
  | handing : ConsumerStep state i taked (.release taken) .released { state with holder := none }
      .handle taked
  | released (ret : ℤ) : ret ≠ taken →
      ConsumerStep state i taked (.release ret) .released { state with holder := none } .loop taked
  | ends : ConsumerStep state i taked .shutdown .released { state with holder := none } .returned
      taked
  | handled : ConsumerStep state i taked .handle (.handled taked) state .handling taked
  | handlerReturned :
      ConsumerStep state i taked .handling .handlerReturned state .loop taked

/-- The status of a wait is not the one of a value that was taken. -/
theorem mcmchSignalLockTimedWait_ne_taken (status : ℤ) :
    (mcmchSignalLockTimedWait status).code ≠ taken := by
  unfold mcmchSignalLockTimedWait
  split_ifs <;> decide

/-- `ConsumerStep` lists every step of a thread. -/
theorem consumerStep_of_eq_some {command : ConsumerCommand} {stage : ConsumerStage}
    (hstep : consumerHandlerDispatcher state thread command stage = some (event, state', thread')) :
    thread'.id = thread.id ∧
      ConsumerStep state thread.id thread.taked stage event state' thread'.stage thread'.taked := by
  cases stage with
  | loop =>
    cases command <;> simp only [consumerHandlerDispatcher, reduceCtorEq, Option.some.injEq,
      Prod.mk.injEq] at hstep
    obtain ⟨rfl, rfl, rfl⟩ := hstep
    cases hrunning : state.running with
    | true => exact ⟨rfl, by simpa using .entered hrunning⟩
    | false => exact ⟨rfl, by simpa using .left hrunning⟩
  | block =>
    cases command <;> simp only [consumerHandlerDispatcher, reduceCtorEq] at hstep
    split_ifs at hstep with hholder
    simp only [Option.some.injEq, Prod.mk.injEq] at hstep
    obtain ⟨rfl, rfl, rfl⟩ := hstep
    exact ⟨rfl, .blocked hholder⟩
  | inKey again =>
    cases command <;> simp only [consumerHandlerDispatcher, reduceCtorEq, Option.some.injEq,
      Prod.mk.injEq] at hstep
    obtain ⟨rfl, rfl, rfl⟩ := hstep
    cases again with
    | true => exact ⟨rfl, .keyAgain _ _⟩
    | false =>
      by_cases htaken : ‹ℤ› = taken
      · subst htaken
        exact ⟨rfl, .keyTaken _⟩
      · exact ⟨rfl, by simpa [htaken] using .keyNone _ _ htaken⟩
  | asleep =>
    cases command with
    | wake status =>
      simp only [consumerHandlerDispatcher] at hstep
      by_cases hholder : state.holder = none
      · simp only [if_pos hholder, Option.some.injEq, Prod.mk.injEq] at hstep
        obtain ⟨rfl, rfl, rfl⟩ := hstep
        refine ⟨rfl, .woken _ _ hholder (mcmchSignalLockTimedWait_ne_taken status) ?_⟩
        by_cases hret : (mcmchSignalLockTimedWait status).code ≠ Mcmpst.success.code
        · exact Or.inl (if_pos hret)
        · exact Or.inr (if_neg hret)
      · simp [hholder] at hstep
    | _ => simp [consumerHandlerDispatcher] at hstep
  | failed ret =>
    cases command <;> simp only [consumerHandlerDispatcher, reduceCtorEq, Option.some.injEq,
      Prod.mk.injEq] at hstep
    obtain ⟨rfl, rfl, rfl⟩ := hstep
    refine ⟨rfl, .failed _ _ ?_⟩
    by_cases hstop : ¬state.running ∨ ret ≠ Mcmpst.ovtimeout.code
    · exact Or.inl (if_pos hstop)
    · exact Or.inr ⟨if_neg hstop, not_not.mp (not_or.mp hstop).1⟩
  | awake ret =>
    cases command <;> simp only [consumerHandlerDispatcher, reduceCtorEq, Option.some.injEq,
      Prod.mk.injEq] at hstep
    obtain ⟨rfl, rfl, rfl⟩ := hstep
    cases hrunning : state.running with
    | false => exact ⟨rfl, by simpa using .stopped ret hrunning⟩
    | true =>
      by_cases hret : ret = 0
      · subst hret
        exact ⟨rfl, by simpa [Mcmpst.code] using .signalled hrunning⟩
      · exact ⟨rfl, by simpa [Mcmpst.code, hret] using .goesOn ret hrunning hret⟩
  | release ret =>
    cases command <;> simp only [consumerHandlerDispatcher, reduceCtorEq, Option.some.injEq,
      Prod.mk.injEq] at hstep
    obtain ⟨rfl, rfl, rfl⟩ := hstep
    by_cases hret : ret = taken
    · subst hret
      exact ⟨rfl, by simpa using .handing⟩
    · exact ⟨rfl, by simpa [hret] using .released ret hret⟩
  | returned => cases command <;> simp [consumerHandlerDispatcher] at hstep
  | key | wait | timer | shutdown | handle | handling =>
    cases command <;> simp only [consumerHandlerDispatcher, reduceCtorEq, Option.some.injEq,
      Prod.mk.injEq] at hstep
    obtain ⟨rfl, rfl, rfl⟩ := hstep
    exact ⟨rfl, by constructor⟩

/-- A step of the system interrupts the consumer, or is a step of its thread. -/
theorem consumerStep_of_program
    (hprogram : consumerMachine.program state thread event state' thread') :
    (event = .interrupted ∧ state' = { state with running := false } ∧ thread' = thread) ∨
      thread'.id = thread.id ∧ ConsumerStep state thread.id thread.taked thread.stage event state'
        thread'.stage thread'.taked := by
  obtain ⟨command, hcommand⟩ := hprogram
  cases command with
  | interrompt =>
    simp only [consumerMachine, Option.some.injEq, Prod.mk.injEq] at hcommand
    obtain ⟨rfl, rfl, rfl⟩ := hcommand
    exact Or.inl ⟨rfl, rfl, rfl⟩
  | _ => exact Or.inr (consumerStep_of_eq_some hcommand)

end Steps

/-! ### The lock -/

section Lock

variable {state state' : ConsumerState} {stage stage' : ConsumerStage} {event : ConsumerEvent}
  {taked taked' : ℕ} {start : ℕ → ℕ} {history : ConsumerHistory} {config : ConsumerConfig}
  {i j : ℕ}

/-- The stages at which a thread has the lock. -/
def ConsumerStage.locked : ConsumerStage → Bool
  | .key _ => true
  | .inKey _ => true
  | .wait => true
  | .failed _ => true
  | .timer => true
  | .awake _ => true
  | .release _ => true
  | .shutdown => true
  | _ => false

/-- A step leaves the lock as it is, takes it when it is free, or gives it up. -/
theorem ConsumerStep.lock (hstep : ConsumerStep state i taked stage event state' stage' taked') :
    (stage'.locked = stage.locked ∧ state'.holder = state.holder) ∨
      (stage'.locked = true ∧ state.holder = none ∧ state'.holder = some i) ∨
      (stage.locked = true ∧ stage'.locked = false ∧ state'.holder = none) := by
  cases hstep with
  | blocked hfree => exact Or.inr (Or.inl ⟨rfl, hfree, rfl⟩)
  | woken ret stage' hfree hret hstage =>
    rcases hstage with rfl | rfl <;> exact Or.inr (Or.inl ⟨rfl, hfree, rfl⟩)
  | waits => exact Or.inr (Or.inr ⟨rfl, rfl, rfl⟩)
  | handing => exact Or.inr (Or.inr ⟨rfl, rfl, rfl⟩)
  | released => exact Or.inr (Or.inr ⟨rfl, rfl, rfl⟩)
  | ends => exact Or.inr (Or.inr ⟨rfl, rfl, rfl⟩)
  | failed ret stage' hstage => rcases hstage with rfl | ⟨rfl, -⟩ <;> exact Or.inl ⟨rfl, rfl⟩
  | _ => exact Or.inl ⟨rfl, rfl⟩

/-- Every thread knows its number, and the thread that has the lock is the one at a stage at which
it has the lock. -/
structure Locked (config : ConsumerConfig) : Prop where
  ids : ∀ i, (config.threads i).id = i
  holder : ∀ i, (config.threads i).stage.locked = true ↔ config.shared.holder = some i

theorem Locked.later {later : ConsumerHistory} {config' : ConsumerConfig} (hlocked : Locked config)
    (hlater : Run consumerMachine.program anyStep config later config') : Locked config' := by
  refine hlater.invariant (fun _ config ↦ Locked config) hlocked ?_
  intro later config i event state' thread' _ hlocked _ hprogram
  rcases consumerStep_of_program hprogram with ⟨-, rfl, rfl⟩ | ⟨hid, hstep⟩
  · refine ⟨fun j ↦ ?_, fun j ↦ ?_⟩
    all_goals rcases eq_or_ne j i with rfl | hj
    · simpa using hlocked.ids j
    · simpa [hj] using hlocked.ids j
    · simpa using hlocked.holder j
    · simpa [hj] using hlocked.holder j
  · rw [hlocked.ids i] at hid hstep
    have hbefore := hlocked.holder i
    refine ⟨fun j ↦ ?_, fun j ↦ ?_⟩
    · rcases eq_or_ne j i with rfl | hj
      · simpa using hid
      · simpa [hj] using hlocked.ids j
    · have hother := hlocked.holder j
      rcases hstep.lock with ⟨hstage, hholder⟩ | ⟨hstage, hfree, hholder⟩ | ⟨hhad, hstage, hholder⟩
      · rcases eq_or_ne j i with rfl | hj
        · simpa [hstage, hholder] using hbefore
        · simpa [hj, hholder] using hother
      · rcases eq_or_ne j i with rfl | hj
        · simp [hstage, hholder]
        · rw [hfree] at hother
          simpa [hj, hholder, Ne.symm hj] using hother
      · rcases eq_or_ne j i with rfl | hj
        · simp [hstage, hholder]
        · rw [hbefore.mp hhad] at hother
          simpa [hj, hholder, Ne.symm hj] using hother

theorem locked_of_run (hrun : ConsumerRun start history config) : Locked config :=
  Locked.later ⟨fun i ↦ rfl, fun i ↦ by simp [created, ConsumerStage.locked]⟩ hrun

/-- The calls of the key exclude each other, each is made with the lock, and the handler is called
without it. -/
theorem consumer_keyExclusive (hrun : ConsumerRun start history config) (i j : ℕ) :
    (∀ again again', (config.threads i).stage = .inKey again →
      (config.threads j).stage = .inKey again' → i = j) ∧
    (∀ again, (config.threads i).stage = .inKey again → config.shared.holder = some i) ∧
    ((config.threads i).stage = .handling → config.shared.holder ≠ some i) := by
  have hlocked := locked_of_run hrun
  have hkey : ∀ i again, (config.threads i).stage = .inKey again →
      config.shared.holder = some i := fun i again hi ↦ (hlocked.holder i).mp (by rw [hi]; rfl)
  refine ⟨fun again again' hi hj ↦ ?_, hkey i, fun hi hholder ↦ ?_⟩
  · exact Option.some.inj ((hkey i again hi).symm.trans (hkey j again' hj))
  · have hstage := (hlocked.holder i).mpr hholder
    rw [hi] at hstage
    exact Bool.false_ne_true hstage

/-- One thread in its handler while another one is in the key. -/
theorem consumer_keyExclusive_two :
    ∃ history config, ConsumerRun (fun _ ↦ 0) history config ∧
      (config.threads 0).stage = .handling ∧ (config.threads 1).stage = .inKey false ∧
      config.shared.holder = some 1 ∧ config.shared.holder ≠ some 0 := by
  obtain ⟨history, config, hrun, hview⟩ := exists_run_of_play_view consumerMachine anyStep
    (created fun _ ↦ 0)
    [(0, .advance), (0, .advance), (0, .advance), (0, .returns taken 7), (0, .advance),
      (0, .advance), (1, .advance), (1, .advance), (0, .advance), (1, .advance)]
    (fun _ config ↦ ((config.threads 0).stage, (config.threads 1).stage))
    (.handling, .inKey false) (by decide)
  obtain ⟨hfirst, hsecond⟩ := Prod.mk.inj hview
  exact ⟨history, config, hrun, hfirst, hsecond, (consumer_keyExclusive hrun 1 0).2.1 _ hsecond,
    (consumer_keyExclusive hrun 0 1).2.2 hfirst⟩

end Lock

/-! ### The values -/

section Values

variable {state state' : ConsumerState} {stage stage' : ConsumerStage} {event : ConsumerEvent}
  {taked taked' : ℕ} {start : ℕ → ℕ} {history : ConsumerHistory} {config : ConsumerConfig}
  {i j : ℕ}

/-- The value that a call of the key took. -/
def ConsumerEvent.takes : ConsumerEvent → Option ℕ
  | .keyed ret value => if ret = taken then some value else none
  | _ => none

/-- The value that the handler is called with. -/
def ConsumerEvent.handles : ConsumerEvent → Option ℕ
  | .handled value => some value
  | _ => none

/-- The values that a thread has taken. -/
def takenBy (i : ℕ) (history : ConsumerHistory) : List ℕ :=
  history.filterMap fun entry ↦ if entry.1 = i then entry.2.takes else none

/-- The values that a thread has called the handler with. -/
def handledBy (i : ℕ) (history : ConsumerHistory) : List ℕ :=
  history.filterMap fun entry ↦ if entry.1 = i then entry.2.handles else none

theorem takenBy_concat (i j : ℕ) (history : ConsumerHistory) (event : ConsumerEvent) :
    takenBy i (history ++ [(j, event)]) =
      takenBy i history ++ if j = i then event.takes.toList else [] := by
  rw [takenBy, List.filterMap_append]
  split_ifs with h
  · cases htakes : event.takes <;> simp [takenBy, h, htakes]
  · simp [takenBy, h]

theorem handledBy_concat (i j : ℕ) (history : ConsumerHistory) (event : ConsumerEvent) :
    handledBy i (history ++ [(j, event)]) =
      handledBy i history ++ if j = i then event.handles.toList else [] := by
  rw [handledBy, List.filterMap_append]
  split_ifs with h
  · cases hhandles : event.handles <;> simp [handledBy, h, hhandles]
  · simp [handledBy, h]

/-- The value that a thread has taken and will call the handler with. -/
def inHand (taked : ℕ) : ConsumerStage → List ℕ
  | .awake ret => if ret = taken then [taked] else []
  | .release ret => if ret = taken then [taked] else []
  | .handle => [taked]
  | _ => []

/-- What a thread has taken, `takes`, is what it has called the handler with, `handles`, and what it
has in its hand. At its end one value may have been dropped, when the consumer does not run. -/
def Accounted (running : Bool) (taked : ℕ) (takes handles : List ℕ) : ConsumerStage → Prop
  | .failed ret => ret ≠ taken ∧ takes = handles
  | .shutdown =>
    running = false ∧ ∃ dropped : List ℕ, dropped.length ≤ 1 ∧ takes = handles ++ dropped
  | .returned =>
    running = false ∧ ∃ dropped : List ℕ, dropped.length ≤ 1 ∧ takes = handles ++ dropped
  | stage => takes = handles ++ inHand taked stage

theorem length_inHand_le (taked : ℕ) (stage : ConsumerStage) : (inHand taked stage).length ≤ 1 := by
  unfold inHand
  split
  · split_ifs <;> simp
  · split_ifs <;> simp
  · rfl
  · exact Nat.zero_le 1

/-- A step keeps the account of its thread. -/
theorem ConsumerStep.accounted {takes handles : List ℕ}
    (hstep : ConsumerStep state i taked stage event state' stage' taked')
    (haccounted : Accounted state.running taked takes handles stage) :
    Accounted state'.running taked' (takes ++ event.takes.toList)
      (handles ++ event.handles.toList) stage' := by
  cases hstep with
  | left hrunning =>
    have htakes : takes = handles := by simpa [Accounted, inHand] using haccounted
    exact ⟨hrunning, [], by simp, by simp [htakes, ConsumerEvent.takes, ConsumerEvent.handles]⟩
  | keyAgain ret value =>
    have htakes : takes = handles := by simpa [Accounted, inHand] using haccounted
    by_cases hret : ret = taken <;>
      simp [Accounted, inHand, ConsumerEvent.takes, ConsumerEvent.handles, htakes, hret]
  | keyNone ret value hret =>
    have htakes : takes = handles := by simpa [Accounted, inHand] using haccounted
    simp [Accounted, inHand, ConsumerEvent.takes, ConsumerEvent.handles, htakes, hret]
  | woken ret stage' hfree hret hstage =>
    have htakes : takes = handles := by simpa [Accounted, inHand] using haccounted
    rcases hstage with rfl | rfl <;>
      simp [Accounted, inHand, ConsumerEvent.takes, ConsumerEvent.handles, htakes, hret]
  | failed ret stage' hstage =>
    obtain ⟨hret, htakes⟩ := haccounted
    rcases hstage with rfl | ⟨rfl, -⟩ <;>
      simp [Accounted, inHand, ConsumerEvent.takes, ConsumerEvent.handles, htakes, hret]
  | stopped ret hrunning =>
    have htakes : takes = handles ++ inHand taked (.awake ret) := haccounted
    exact ⟨hrunning, _, length_inHand_le taked (.awake ret), by
      simpa [ConsumerEvent.takes, ConsumerEvent.handles] using htakes⟩
  | signalled hrunning =>
    simpa [Accounted, inHand, ConsumerEvent.takes, ConsumerEvent.handles, taken] using haccounted
  | released ret hret =>
    simpa [Accounted, inHand, ConsumerEvent.takes, ConsumerEvent.handles, hret] using haccounted
  | _ =>
    simpa [Accounted, inHand, ConsumerEvent.takes, ConsumerEvent.handles] using haccounted

/-- A consumer that does not run stays so. -/
theorem ConsumerStep.running (hstep : ConsumerStep state i taked stage event state' stage' taked') :
    state'.running = state.running := by
  cases hstep <;> rfl

theorem accounted_interrompt {running : Bool} {takes handles : List ℕ}
    (haccounted : Accounted running taked takes handles stage) :
    Accounted false taked takes handles stage := by
  cases stage with
  | shutdown => exact ⟨rfl, haccounted.2⟩
  | returned => exact ⟨rfl, haccounted.2⟩
  | _ => exact haccounted

theorem accounted_of_run (hrun : ConsumerRun start history config) (i : ℕ) :
    Accounted config.shared.running (config.threads i).taked (takenBy i history)
      (handledBy i history) (config.threads i).stage := by
  refine hrun.invariant (fun history (config : ConsumerConfig) ↦ Accounted config.shared.running
    (config.threads i).taked (takenBy i history) (handledBy i history) (config.threads i).stage)
    (by exact rfl) ?_
  intro history config j event state' thread' _ haccounted _ hprogram
  simp only [takenBy_concat, handledBy_concat]
  rcases consumerStep_of_program hprogram with ⟨rfl, rfl, rfl⟩ | ⟨-, hstep⟩
  · rcases eq_or_ne i j with rfl | hi
    · simpa [ConsumerEvent.takes, ConsumerEvent.handles] using accounted_interrompt haccounted
    · simpa [hi, Ne.symm hi] using accounted_interrompt haccounted
  · rcases eq_or_ne i j with rfl | hi
    · simpa using hstep.accounted haccounted
    · simpa [hi, Ne.symm hi, hstep.running] using haccounted

/-- Every thread calls the handler with the values that it takes, in their order and once each. The
last one may still be in its hand, and a thread that is at its end may have dropped it, which
happens only in a consumer that does not run. -/
theorem consumer_handlesTaken (hrun : ConsumerRun start history config) (i : ℕ) :
    ((config.threads i).stage ≠ .shutdown → (config.threads i).stage ≠ .returned →
      takenBy i history =
        handledBy i history ++ inHand (config.threads i).taked (config.threads i).stage) ∧
    (config.shared.running = true →
      (config.threads i).stage ≠ .shutdown ∧ (config.threads i).stage ≠ .returned) ∧
    ∃ last : List ℕ, last.length ≤ 1 ∧ takenBy i history = handledBy i history ++ last := by
  have haccounted := accounted_of_run hrun i
  cases hstage : (config.threads i).stage with
  | shutdown =>
    rw [hstage] at haccounted
    exact ⟨fun h _ ↦ absurd rfl h, fun h ↦ by simp [haccounted.1] at h, haccounted.2⟩
  | returned =>
    rw [hstage] at haccounted
    exact ⟨fun _ h ↦ absurd rfl h, fun h ↦ by simp [haccounted.1] at h, haccounted.2⟩
  | failed ret =>
    rw [hstage] at haccounted
    exact ⟨fun _ _ ↦ by simpa [inHand] using haccounted.2, fun _ ↦ by simp, [], by simp, by
      simpa using haccounted.2⟩
  | _ =>
    rw [hstage] at haccounted
    exact ⟨fun _ _ ↦ haccounted, fun _ ↦ by simp, _, length_inHand_le _ _, haccounted⟩

/-- A thread that handles a value, takes another one, and finds the consumer interrupted. -/
theorem consumer_handlesTaken_one :
    ∃ history config, ConsumerRun (fun _ ↦ 0) history config ∧
      takenBy 0 history = [7, 9] ∧ handledBy 0 history = [7] ∧ config.shared.running = false ∧
      ∃ last : List ℕ, last.length ≤ 1 ∧ [7, 9] = [7] ++ last := by
  obtain ⟨history, config, hrun, hview⟩ := exists_run_of_play_view consumerMachine anyStep
    (created fun _ ↦ 0)
    [(0, .advance), (0, .advance), (0, .advance), (0, .returns taken 7), (0, .advance),
      (0, .advance), (0, .advance), (0, .advance), (0, .advance), (0, .advance), (0, .advance),
      (0, .returns taken 9), (1, .interrompt), (0, .advance), (0, .advance)]
    (fun history config ↦ (takenBy 0 history, handledBy 0 history, config.shared.running))
    ([7, 9], [7], false) (by decide)
  obtain ⟨htakes, hview⟩ := Prod.mk.inj hview
  obtain ⟨hhandles, hstopped⟩ := Prod.mk.inj hview
  have hlast := (consumer_handlesTaken hrun 0).2.2
  rw [htakes, hhandles] at hlast
  exact ⟨history, config, hrun, htakes, hhandles, hstopped, hlast⟩

end Values

/-! ### The end of the threads -/

section End

variable {state state' : ConsumerState} {stage stage' : ConsumerStage} {event : ConsumerEvent}
  {taked taked' : ℕ} {start : ℕ → ℕ} {history later : ConsumerHistory}
  {config config' : ConsumerConfig} {i j : ℕ}

/-- How many steps a thread of a consumer that does not run can take. -/
def ConsumerStage.remaining : ConsumerStage → ℕ
  | .block => 8
  | .timer => 8
  | .key false => 7
  | .key true => 6
  | .inKey false => 6
  | .inKey true => 5
  | .wait => 5
  | .asleep => 4
  | .release _ => 4
  | .failed _ => 3
  | .handle => 3
  | .handling => 2
  | .awake _ => 2
  | .loop => 1
  | .shutdown => 1
  | .returned => 0

/-- How many calls of the handler a thread of a consumer that does not run can begin. -/
def ConsumerStage.due : ConsumerStage → ℕ
  | .key true => 1
  | .inKey true => 1
  | .release _ => 1
  | .handle => 1
  | _ => 0

theorem ConsumerStage.remaining_le (stage : ConsumerStage) : stage.remaining ≤ 8 := by
  unfold ConsumerStage.remaining
  split <;> omega

theorem ConsumerStage.due_le (stage : ConsumerStage) : stage.due ≤ 1 := by
  unfold ConsumerStage.due
  split <;> omega

/-- A step of a thread of a consumer that does not run leaves it fewer steps, and one call of the
handler fewer when it begins one. -/
theorem ConsumerStep.remaining_lt
    (hstep : ConsumerStep state i taked stage event state' stage' taked')
    (hstopped : state.running = false) :
    stage'.remaining < stage.remaining ∧
      event.handles.toList.length + stage'.due ≤ stage.due := by
  cases hstep with
  | entered hrunning => simp [hstopped] at hrunning
  | signalled hrunning => simp [hstopped] at hrunning
  | goesOn ret hrunning => simp [hstopped] at hrunning
  | woken ret stage' hfree hret hstage =>
    rcases hstage with rfl | rfl <;>
      simp [ConsumerStage.remaining, ConsumerStage.due, ConsumerEvent.handles]
  | failed ret stage' hstage =>
    rcases hstage with rfl | ⟨-, hrunning⟩
    · simp [ConsumerStage.remaining, ConsumerStage.due, ConsumerEvent.handles]
    · simp [hstopped] at hrunning
  | keyCalled again =>
    cases again <;> simp [ConsumerStage.remaining, ConsumerStage.due, ConsumerEvent.handles]
  | _ => simp [ConsumerStage.remaining, ConsumerStage.due, ConsumerEvent.handles]

/-- The steps of a thread itself: whoever interrupts the consumer does so from outside. -/
def stepsOf (i : ℕ) (history : ConsumerHistory) : ℕ :=
  history.countP fun entry ↦ decide (entry.1 = i) && decide (entry.2 ≠ .interrupted)

theorem stepsOf_concat (i j : ℕ) (history : ConsumerHistory) (event : ConsumerEvent) :
    stepsOf i (history ++ [(j, event)]) =
      stepsOf i history + if j = i ∧ event ≠ .interrupted then 1 else 0 := by
  simp [stepsOf, List.countP_append, List.countP_singleton]

/-- What is left to a thread after a part of a run in which the consumer does not run. -/
theorem remaining_of_run
    (hlater : Run consumerMachine.program anyStep config later config')
    (hstopped : config.shared.running = false) (i : ℕ) :
    config'.shared.running = false ∧
      stepsOf i later + (config'.threads i).stage.remaining ≤
        (config.threads i).stage.remaining ∧
      (handledBy i later).length + (config'.threads i).stage.due ≤
        (config.threads i).stage.due := by
  refine hlater.invariant (fun later (config' : ConsumerConfig) ↦
    config'.shared.running = false ∧
      stepsOf i later + (config'.threads i).stage.remaining ≤
        (config.threads i).stage.remaining ∧
      (handledBy i later).length + (config'.threads i).stage.due ≤
        (config.threads i).stage.due) ⟨hstopped, by simp [stepsOf], by simp [handledBy]⟩ ?_
  intro later config' j event state' thread' _ ⟨hrunning, hsteps, hdue⟩ _ hprogram
  rw [stepsOf_concat, handledBy_concat]
  rcases consumerStep_of_program hprogram with ⟨rfl, rfl, rfl⟩ | ⟨-, hstep⟩
  · rcases eq_or_ne i j with rfl | hi
    · simpa [ConsumerEvent.handles] using ⟨hsteps, hdue⟩
    · simpa [hi, Ne.symm hi] using ⟨hsteps, hdue⟩
  · refine ⟨hstep.running.trans hrunning, ?_⟩
    rcases eq_or_ne i j with rfl | hi
    · obtain ⟨hremaining, hhandles⟩ := hstep.remaining_lt hrunning
      simp only [Config.advance_threads_self, List.length_append, true_and, if_true]
      constructor
      · split_ifs <;> omega
      · omega
    · simpa [hi, Ne.symm hi] using ⟨hsteps, hdue⟩

/-- A thread has a next step, unless it has ended or asks for the lock while another has it. -/
theorem isSome_consumerMachine (state : ConsumerState) (thread : ConsumerThread)
    (hstage : thread.stage ≠ .returned) (hlock : thread.stage.locked = true ∨ state.holder = none) :
    ∃ command ≠ .interrompt, (consumerMachine command state thread).isSome = true := by
  cases hstage' : thread.stage with
  | returned => exact absurd hstage' hstage
  | inKey again =>
    exact ⟨.returns 0 0, by simp, by simp [consumerMachine, hstage', consumerHandlerDispatcher]⟩
  | timer =>
    exact ⟨.clock nullTimeSpec, by simp, by
      simp [consumerMachine, hstage', consumerHandlerDispatcher]⟩
  | block =>
    have hfree := hlock.resolve_left (by simp [hstage', ConsumerStage.locked])
    exact ⟨.advance, by simp, by simp [consumerMachine, hstage', consumerHandlerDispatcher, hfree]⟩
  | asleep =>
    have hfree := hlock.resolve_left (by simp [hstage', ConsumerStage.locked])
    exact ⟨.wake 0, by simp, by simp [consumerMachine, hstage', consumerHandlerDispatcher, hfree]⟩
  | _ => exact ⟨.advance, by simp, by simp [consumerMachine, hstage', consumerHandlerDispatcher]⟩

/-- From when the consumer does not run, each thread takes at most eight more steps and calls the
handler at most once more. The threads are never stuck: as long as one of them has not ended, it has
a next step or the thread that has the lock has one. -/
theorem consumer_stops (hrun : ConsumerRun start history config)
    (hlater : Run consumerMachine.program anyStep config later config')
    (hstopped : config.shared.running = false) (i : ℕ) :
    stepsOf i later ≤ 8 ∧ (handledBy i later).length ≤ 1 ∧
      ((config'.threads i).stage ≠ .returned →
        ∃ j, (j = i ∨ config'.shared.holder = some j) ∧ ∃ command ≠ .interrompt,
          (consumerMachine command config'.shared (config'.threads j)).isSome = true) := by
  have hremaining := remaining_of_run hlater hstopped i
  have hsteps := (config.threads i).stage.remaining_le
  have hdue := (config.threads i).stage.due_le
  refine ⟨by omega, by omega, fun hstage ↦ ?_⟩
  have hlocked := (locked_of_run hrun).later hlater
  cases hholder : config'.shared.holder with
  | none => exact ⟨i, Or.inl rfl, isSome_consumerMachine _ _ hstage (Or.inr hholder)⟩
  | some j =>
    have hlock := (hlocked.holder j).mpr hholder
    have hgoing : (config'.threads j).stage ≠ .returned := by
      intro hreturned
      rw [hreturned] at hlock
      exact Bool.false_ne_true hlock
    exact ⟨j, Or.inr rfl, isSome_consumerMachine _ _ hgoing (Or.inl hlock)⟩

/-- A thread that is in the key behind a signal when the consumer is interrupted, and handles the
value that it takes. -/
theorem consumer_stops_one :
    ∃ history later config config', ConsumerRun (fun _ ↦ 0) history config ∧
      Run consumerMachine.program anyStep config later config' ∧
      handledBy 0 later = [5] ∧ stepsOf 0 later = 5 ∧ stepsOf 0 later ≤ 8 := by
  obtain ⟨history, config, hrun, hstopped, later, config', hlater, hhandles, hsteps⟩ :
      ∃ history config, ConsumerRun (fun _ ↦ 0) history config ∧ config.shared.running = false ∧
        ∃ later config', Run consumerMachine.program anyStep config later config' ∧
          handledBy 0 later = [5] ∧ stepsOf 0 later = 5 :=
    ⟨_, _, run_of_play [(0, .advance), (0, .advance), (0, .advance), (0, .returns 0 0),
        (0, .advance), (0, .wake 0), (0, .advance), (0, .advance), (1, .interrompt)] .start rfl,
      rfl, _, _, run_of_play [(0, .returns taken 5), (0, .advance), (0, .advance), (0, .advance),
        (0, .advance)] .start rfl, by decide, by decide⟩
  exact ⟨history, later, config, config', hrun, hlater, hhandles, hsteps,
    (consumer_stops hrun hlater hstopped 0).1⟩

end End

end Mcmp.Routines.Consumer
