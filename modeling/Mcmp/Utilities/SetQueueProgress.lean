import Mcmp.Foundation.SharedRetries
import Mcmp.Utilities.SetQueue

/-!
# Nobody is kept busy for ever by a set queue

The loops of `mcmpSetQueuePush` and `mcmpSetQueueTake` end when a compare-exchange succeeds. It
fails only when another call has changed the word in between, and a call changes few words. The
cost of a call (`accessesLeft`) is the number of accesses that it is away from its end when no other
thread moves: it depends on whether a loaded head, tail or byte is still the one in memory. What is
left to a call is the number of those words that it still changes (`changesLeft`).

With the rule of shared retries a number of calls of `n` threads takes at most `12 n - 2` steps for
each call, however the steps are interleaved, and all but `n` of the calls that have begun have
returned (`setQueue_lockFree`). So the threads cannot make steps for ever without calls returning.
-/

set_option autoImplicit false
set_option relaxedAutoImplicit false

namespace Mcmp.Utilities.SetQueueProgress

open Foundation.ByteBits Foundation.Interleaving Foundation.SharedRetries SetQueue

/-- The accesses that a Push is away from its end when no other thread moves. A head or a byte that
was loaded and has changed since costs another round. -/
def pushLeft (queue : McmpSetQueue) : PushStage → ℕ
  | .loadHashset => 9
  | .claimHashset _ => 8
  | .loadTail => 7
  | .loadHead _ => 6
  | .testReady _ index => if queue.head = index then 5 else 9
  | .rollBack => 1
  | .reserveHead index => if queue.head = index then 4 else 8
  | .storeItem _ => 3
  | .loadReady _ => 2
  | .publishReady index expected => if queue.ready (index / 8) = expected then 1 else 3

/-- The accesses that a Take is away from its end when no other thread moves. -/
def takeLeft (queue : McmpSetQueue) : TakeStage → ℕ
  | .loadTail => 9
  | .loadHead index => if queue.tail = index then 8 else 12
  | .testReady index => if queue.tail = index then 7 else 11
  | .reserveTail index => if queue.tail = index then 6 else 10
  | .readItem _ => 5
  | .loadHashset _ _ => 4
  | .clearHashset _ ind expected => if queue.values (ind / 8) = expected then 3 else 5
  | .loadReady _ _ => 2
  | .clearReady index _ expected => if queue.ready (index / 8) = expected then 1 else 3

def accessesLeft (queue : McmpSetQueue) : QueueThread → ℕ
  | .idle => 0
  | .push _ stage => pushLeft queue stage
  | .take stage => takeLeft queue stage

/-- The changes of head, tail and the bitmaps that a call still makes at most. -/
def changesLeft : QueueThread → ℕ
  | .idle => 0
  | .push _ .loadHashset => 3
  | .push _ (.claimHashset _) => 3
  | .push _ .loadTail => 2
  | .push _ (.loadHead _) => 2
  | .push _ (.testReady _ _) => 2
  | .push _ (.reserveHead _) => 2
  | .push _ _ => 1
  | .take .loadTail => 3
  | .take (.loadHead _) => 3
  | .take (.testReady _) => 3
  | .take (.reserveTail _) => 3
  | .take (.loadReady _ _) => 1
  | .take (.clearReady _ _ _) => 1
  | .take _ => 2

/-- A call begins. -/
def begins : QueueEvent → Bool
  | .called _ => true
  | _ => false

/-- A call returns. -/
def returns : QueueEvent → Bool
  | .pushReturned _ _ => true
  | .takeReturned _ _ => true
  | _ => false

/-- The thread is in a call. -/
def busy : QueueThread → ℕ
  | .idle => 0
  | _ => 1

variable {queue queue' : McmpSetQueue} {thread thread' : QueueThread} {event : QueueEvent}

/-- A change of head, tail or the bitmaps costs another call at most four accesses. -/
theorem accessesLeft_le_add (queue queue' : McmpSetQueue) (other : QueueThread) :
    accessesLeft queue' other ≤ accessesLeft queue other + 4 := by
  cases other with
  | idle => exact Nat.zero_le _
  | push ind stage =>
    cases stage with
    | testReady | reserveHead | publishReady =>
      simp only [accessesLeft, pushLeft]
      split_ifs <;> omega
    | _ => exact Nat.le_add_right _ _
  | take stage =>
    cases stage with
    | loadHead | testReady | reserveTail | clearHashset | clearReady =>
      simp only [accessesLeft, takeLeft]
      split_ifs <;> omega
    | _ => exact Nat.le_add_right _ _

/-- A step that leaves them as they are costs another call nothing. -/
theorem accessesLeft_congr (hhead : queue'.head = queue.head) (htail : queue'.tail = queue.tail)
    (hvalues : queue'.values = queue.values) (hready : queue'.ready = queue.ready)
    (other : QueueThread) : accessesLeft queue' other = accessesLeft queue other := by
  cases other with
  | idle => rfl
  | push ind stage => cases stage <;> simp only [accessesLeft, pushLeft, hhead, hready]
  | take stage => cases stage <;> simp only [accessesLeft, takeLeft, htail, hvalues, hready]

/-- A step of a call gets nearer to its end, and either leaves what the other calls compare with as
it is or is one of the changes that were left. -/
structure Advances (queue : McmpSetQueue) (thread : QueueThread)
    (step : QueueEvent × McmpSetQueue × QueueThread) : Prop where
  goesOn : begins step.1 = false
  ends : busy step.2.2 + (returns step.1).toNat = 1
  nearer : accessesLeft step.2.1 step.2.2 < accessesLeft queue thread
  fewer : changesLeft step.2.2 ≤ changesLeft thread
  others : (step.2.1.head = queue.head ∧ step.2.1.tail = queue.tail ∧
    step.2.1.values = queue.values ∧ step.2.1.ready = queue.ready) ∨
      changesLeft step.2.2 < changesLeft thread

theorem advances_push (queue : McmpSetQueue) (ind : ℕ) (stage : PushStage) :
    Advances queue (.push ind stage) (mcmpSetQueuePush ind queue stage) := by
  cases stage with
  | loadTail | rollBack | storeItem | loadReady =>
    exact ⟨rfl, rfl, by simp [mcmpSetQueuePush, accessesLeft, pushLeft],
      by simp [mcmpSetQueuePush, changesLeft], by simp [mcmpSetQueuePush, changesLeft]⟩
  | testReady tail index =>
    -- The head that was loaded is still the head, or it is not.
    by_cases hfresh : queue.head = index <;> simp only [mcmpSetQueuePush] <;> split_ifs <;>
      exact ⟨rfl, rfl, by simp [accessesLeft, pushLeft, hfresh], by simp [changesLeft],
        by simp [changesLeft]⟩
  | loadHashset | claimHashset | loadHead | reserveHead | publishReady =>
    simp only [mcmpSetQueuePush]
    split_ifs <;>
      exact ⟨rfl, rfl, by simp_all [accessesLeft, pushLeft], by simp [changesLeft],
        by simp [changesLeft]⟩

theorem advances_take (queue : McmpSetQueue) (stage : TakeStage) :
    Advances queue (.take stage) (mcmpSetQueueTake queue stage) := by
  cases stage with
  | loadTail | readItem | loadHashset | loadReady =>
    exact ⟨rfl, rfl, by simp [mcmpSetQueueTake, accessesLeft, takeLeft],
      by simp [mcmpSetQueueTake, changesLeft], by simp [mcmpSetQueueTake]⟩
  | loadHead index | testReady index =>
    by_cases hfresh : queue.tail = index <;> simp only [mcmpSetQueueTake] <;> split_ifs <;>
      exact ⟨rfl, rfl, by simp [accessesLeft, takeLeft, hfresh], by simp [changesLeft],
        by simp [changesLeft]⟩
  | reserveTail | clearHashset | clearReady =>
    simp only [mcmpSetQueueTake]
    split_ifs <;>
      exact ⟨rfl, rfl, by simp_all [accessesLeft, takeLeft], by simp [changesLeft],
        by simp [changesLeft]⟩

/-- The step of a thread begins a call, or gets nearer to the end of one. -/
theorem advances_of_program
    (hprogram : queueMachine.program queue thread event queue' thread') :
    (∃ call, thread = .idle ∧ event = .called call ∧ queue' = queue ∧ thread' = call.start) ∨
      Advances queue thread (event, queue', thread') := by
  obtain ⟨command, hcommand⟩ := hprogram
  cases command with
  | call call =>
    cases thread with
    | idle =>
      simp only [queueMachine, Option.some.injEq, Prod.mk.injEq] at hcommand
      obtain ⟨rfl, rfl, rfl⟩ := hcommand
      exact Or.inl ⟨call, rfl, rfl, rfl, rfl⟩
    | push | take => simp [queueMachine] at hcommand
  | advance =>
    cases thread with
    | idle => simp [queueMachine] at hcommand
    | push ind stage =>
      have hadvances := advances_push queue ind stage
      rw [Option.some.inj hcommand] at hadvances
      exact Or.inr hadvances
    | take stage =>
      have hadvances := advances_take queue stage
      rw [Option.some.inj hcommand] at hadvances
      exact Or.inr hadvances

section Runs

variable {ι : Type*} [DecidableEq ι] [Fintype ι]
  {guard : Guard ι McmpSetQueue QueueThread QueueEvent} {history : List (ι × QueueEvent)}
  {config : Config ι McmpSetQueue QueueThread}

/-- The calls that have begun. -/
def callsBegun (history : List (ι × QueueEvent)) : ℕ :=
  history.countP fun entry ↦ begins entry.2

/-- The calls that have returned. -/
def callsReturned (history : List (ι × QueueEvent)) : ℕ :=
  history.countP fun entry ↦ returns entry.2

/-- The steps of a run are at most ten for each call, and twelve more for each call and each further
thread. -/
theorem length_le_callsBegun (hrun : QueueRun guard queue history config) :
    history.length ≤ callsBegun history * (10 + 12 * (Fintype.card ι - 1)) := by
  have hbound := length_le_of_cost accessesLeft changesLeft begins (fun _ ↦ false) 9 3 4 0
    (fun _ ↦ ⟨rfl, rfl⟩) ?_ ?_ (fun _ _ h ↦ Bool.noConfusion h) ?_ hrun
  · rw [callsBegun]
    rw [show history.countP (fun _ ↦ false) = 0 from by simp, Nat.zero_mul, Nat.add_zero] at hbound
    convert hbound using 2
    omega
  · intro queue queue' thread thread' event hprogram other
    rcases advances_of_program hprogram with ⟨call, rfl, rfl, rfl, rfl⟩ | hadvances
    · exact Nat.le_add_right _ _
    · rcases hadvances.others with ⟨hhead, htail, hvalues, hready⟩ | hchange
      · rw [accessesLeft_congr hhead htail hvalues hready]
        exact Nat.le_add_right _ _
      · have hcharge := accessesLeft_le_add queue queue' other
        have hless : changesLeft thread' < changesLeft thread := hchange
        omega
  · intro queue queue' thread thread' event hprogram hbegins
    rcases advances_of_program hprogram with ⟨call, rfl, rfl, rfl, rfl⟩ | hadvances
    · cases call <;> exact ⟨le_rfl, le_rfl, rfl⟩
    · simp [hadvances.goesOn] at hbegins
  · intro queue queue' thread thread' event hprogram hbegins _
    rcases advances_of_program hprogram with ⟨call, rfl, rfl, rfl, rfl⟩ | hadvances
    · cases hbegins
    · exact ⟨hadvances.nearer, hadvances.fewer⟩

/-- A step that begins or ends no call leaves its thread in the call or outside it. -/
theorem busy_step (hprogram : queueMachine.program queue thread event queue' thread') :
    busy thread' + (returns event).toNat = busy thread + (begins event).toNat := by
  rcases advances_of_program hprogram with ⟨call, rfl, rfl, rfl, rfl⟩ | hadvances
  · cases call <;> rfl
  · have hin : busy thread = 1 := by
      have hnearer := hadvances.nearer
      cases thread with
      | idle => simp [accessesLeft] at hnearer
      | push | take => rfl
    have hends := hadvances.ends
    have hgoesOn := hadvances.goesOn
    simp only at hends hgoesOn
    rw [hin, hgoesOn, hends]
    rfl

/-- A call that has begun has returned, or its thread is in it. -/
theorem callsBegun_eq (hrun : QueueRun guard queue history config) :
    callsBegun history = callsReturned history + ∑ i, busy (config.threads i) :=
  countP_starts_eq begins returns busy (fun _ ↦ rfl) busy_step hrun

/-- Some call returns: the steps of a run on a set queue are at most ten for each call that has
returned and each thread, and twelve more for each of them and each further thread, in whatever
order the threads take them. -/
theorem setQueue_lockFree (hrun : QueueRun guard queue history config) :
    history.length ≤
      (callsReturned history + Fintype.card ι) * (10 + 12 * (Fintype.card ι - 1)) := by
  have hbusy : ∑ i, busy (config.threads i) ≤ Fintype.card ι :=
    sum_busy_le (fun thread ↦ by cases thread <;> simp [busy]) config
  refine (length_le_callsBegun hrun).trans (Nat.mul_le_mul_right _ ?_)
  rw [callsBegun_eq hrun]
  exact Nat.add_le_add_left hbusy _

/-- A Push that loses the head to another one, tries again and finds the queue full. -/
theorem setQueue_lockFree_retry :
    ∃ (history : List (Fin 2 × QueueEvent)) (config : Config (Fin 2) McmpSetQueue QueueThread),
      QueueRun anyStep queueOfTwo history config ∧ history.length = 19 ∧
        callsReturned history = 2 ∧ history.length ≤
          (callsReturned history + Fintype.card (Fin 2)) *
            (10 + 12 * (Fintype.card (Fin 2) - 1)) := by
  obtain ⟨history, config, hrun, hview⟩ := exists_run_of_play_view queueMachine anyStep
    (initially (Fin 2) queueOfTwo)
    [runCall 0 (.push 0) 4, runCall 1 (.push 1) 8, goOn 0 5].flatten
    (fun history _ ↦ (history.length, callsReturned history)) (19, 2) (by decide)
  obtain ⟨hlength, hcalls⟩ := Prod.mk.inj hview
  exact ⟨history, config, hrun, hlength, hcalls, setQueue_lockFree hrun⟩

end Runs

end Mcmp.Utilities.SetQueueProgress
