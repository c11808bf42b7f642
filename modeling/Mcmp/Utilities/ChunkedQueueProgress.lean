import Mcmp.Foundation.SharedRetries
import Mcmp.Utilities.ChunkedQueue

/-!
# Nobody is kept busy for ever by a chunked queue

The loops of `mcmpChunkedQueuePush` and `mcmpChunkedQueueTake` end when a compare-exchange succeeds,
or when the chunk is full or empty. The compare-exchanges are weak ones, so they fail when another
call has moved the head or the tail in between, and they may fail for no reason at all. The cost of
a call (`accessesLeft`) is the number of accesses that it is away from its end when neither happens;
what is left to a call (`changesLeft`) is the number of its stores into the block.

With the rule of shared retries a schedule of `n` threads has at most `6 n - 1` steps for each call
and three more for each failure for no reason, and all but `n` of the calls that have begun have
returned (`chunkedQueue_lockFree`). This holds for every block, whatever its header says, and for
every chunk index: also where the chunks overlap, a store costs another call only one more round.
-/

set_option autoImplicit false
set_option relaxedAutoImplicit false

namespace Mcmp.Utilities.ChunkedQueueProgress

open Foundation.Interleaving Foundation.SharedRetries Foundation.WordMemory ChunkedQueue

/-- The accesses that a Push is away from its end when no other thread moves. A head that was loaded
and has moved since costs another round. -/
def pushLeft (queue : McmpChunkedQueue) (chunkidx : ℕ) : PushStage → ℕ
  | .loadHead => 4
  | .loadTail index => if sizeAt queue (cqChunk queue chunkidx) = index then 3 else 6
  | .reserveHead index => if sizeAt queue (cqChunk queue chunkidx) = index then 2 else 5
  | .copyItem _ => 1

/-- The accesses that a Take is away from its end when no other thread moves. -/
def takeLeft (queue : McmpChunkedQueue) (chunkidx : ℕ) : TakeStage → ℕ
  | .loadTail => 4
  | .loadHead index => if sizeAt queue (cqChunk queue chunkidx + 8) = index then 3 else 6
  | .reserveTail index => if sizeAt queue (cqChunk queue chunkidx + 8) = index then 2 else 5
  | .copyItem _ => 1

def accessesLeft (queue : McmpChunkedQueue) : ChunkThread → ℕ
  | .idle => 0
  | .push chunkidx _ stage => pushLeft queue chunkidx stage
  | .take chunkidx stage => takeLeft queue chunkidx stage

/-- The stores into the block that a call still makes at most: a Push stores a head and an item, a
Take a tail. -/
def changesLeft : ChunkThread → ℕ
  | .idle => 0
  | .push _ _ (.copyItem _) => 1
  | .push _ _ _ => 2
  | .take _ (.copyItem _) => 0
  | .take _ _ => 1

/-- A call begins. -/
def begins : ChunkEvent → Bool
  | .called _ => true
  | _ => false

/-- A call returns. -/
def returns : ChunkEvent → Bool
  | .refused _ => true
  | .written _ _ _ => true
  | .taken _ _ _ => true
  | _ => false

/-- The thread is in a call. -/
def busy : ChunkThread → ℕ
  | .idle => 0
  | _ => 1

variable {queue queue' : McmpChunkedQueue} {thread thread' : ChunkThread} {event : ChunkEvent}
  {command : ChunkCommand}

/-- A change of the block costs another call at most one more round. -/
theorem accessesLeft_le_add (queue queue' : McmpChunkedQueue) (other : ChunkThread) :
    accessesLeft queue' other ≤ accessesLeft queue other + 3 := by
  cases other with
  | idle => exact Nat.zero_le _
  | push chunkidx item stage =>
    cases stage with
    | loadTail | reserveHead =>
      simp only [accessesLeft, pushLeft]
      split_ifs <;> omega
    | loadHead | copyItem => exact Nat.le_add_right _ _
  | take chunkidx stage =>
    cases stage with
    | loadHead | reserveTail =>
      simp only [accessesLeft, takeLeft]
      split_ifs <;> omega
    | loadTail | copyItem => exact Nat.le_add_right _ _

/-- A step of a call does not begin one, ends the call when it returns, and either leaves the block
as it is or is one of the stores that were left. Unless a compare-exchange is told to fail, it gets
nearer to the end of the call. -/
structure Advances (queue : McmpChunkedQueue) (thread : ChunkThread) (spurious : Bool)
    (step : ChunkEvent × McmpChunkedQueue × ChunkThread) : Prop where
  inCall : busy thread = 1
  goesOn : begins step.1 = false
  ends : busy step.2.2 + (returns step.1).toNat = 1
  nearer : spurious = false → accessesLeft step.2.1 step.2.2 < accessesLeft queue thread
  setBack : accessesLeft step.2.1 step.2.2 ≤ accessesLeft queue thread + 2
  fewer : changesLeft step.2.2 ≤ changesLeft thread
  others : step.2.1 = queue ∨ changesLeft step.2.2 < changesLeft thread

theorem advances_push (queue : McmpChunkedQueue) (chunkidx : ℕ) (item : Item) (spurious : Bool)
    (stage : PushStage) :
    Advances queue (.push chunkidx item stage) spurious
      (mcmpChunkedQueuePush chunkidx item spurious queue stage) := by
  cases stage with
  | loadHead | copyItem =>
    exact ⟨rfl, rfl, rfl, by simp [mcmpChunkedQueuePush, accessesLeft, pushLeft],
      by simp [mcmpChunkedQueuePush, accessesLeft, pushLeft],
      by simp [mcmpChunkedQueuePush, changesLeft], by simp [mcmpChunkedQueuePush, changesLeft]⟩
  | loadTail index =>
    -- The head that was loaded is still the head, or it is not.
    by_cases hfresh : sizeAt queue (cqChunk queue chunkidx) = index <;>
      simp only [mcmpChunkedQueuePush] <;> split_ifs <;>
      exact ⟨rfl, rfl, rfl, by simp [accessesLeft, pushLeft, hfresh],
        by simp [accessesLeft, pushLeft, hfresh], by simp [changesLeft], by simp [changesLeft]⟩
  | reserveHead index =>
    simp only [mcmpChunkedQueuePush]
    split_ifs with hsuccess
    · exact ⟨rfl, rfl, rfl, by simp [accessesLeft, pushLeft, hsuccess.1],
        by simp [accessesLeft, pushLeft, hsuccess.1], by simp [changesLeft],
        by simp [changesLeft]⟩
    · by_cases hfresh : sizeAt queue (cqChunk queue chunkidx) = index
      · exact ⟨rfl, rfl, rfl, fun hnot ↦ absurd ⟨hfresh, hnot⟩ hsuccess,
          by simp [accessesLeft, pushLeft, hfresh], by simp [changesLeft], by simp [changesLeft]⟩
      · exact ⟨rfl, rfl, rfl, by simp [accessesLeft, pushLeft, hfresh],
          by simp [accessesLeft, pushLeft, hfresh], by simp [changesLeft], by simp [changesLeft]⟩

theorem advances_take (queue : McmpChunkedQueue) (chunkidx : ℕ) (spurious : Bool)
    (stage : TakeStage) :
    Advances queue (.take chunkidx stage) spurious
      (mcmpChunkedQueueTake chunkidx spurious queue stage) := by
  cases stage with
  | loadTail | copyItem =>
    exact ⟨rfl, rfl, rfl, by simp [mcmpChunkedQueueTake, accessesLeft, takeLeft],
      by simp [mcmpChunkedQueueTake, accessesLeft, takeLeft],
      by simp [mcmpChunkedQueueTake, changesLeft], by simp [mcmpChunkedQueueTake, changesLeft]⟩
  | loadHead index =>
    by_cases hfresh : sizeAt queue (cqChunk queue chunkidx + 8) = index <;>
      simp only [mcmpChunkedQueueTake] <;> split_ifs <;>
      exact ⟨rfl, rfl, rfl, by simp [accessesLeft, takeLeft, hfresh],
        by simp [accessesLeft, takeLeft, hfresh], by simp [changesLeft], by simp [changesLeft]⟩
  | reserveTail index =>
    simp only [mcmpChunkedQueueTake]
    split_ifs with hsuccess
    · exact ⟨rfl, rfl, rfl, by simp [accessesLeft, takeLeft, hsuccess.1],
        by simp [accessesLeft, takeLeft, hsuccess.1], by simp [changesLeft],
        by simp [changesLeft]⟩
    · by_cases hfresh : sizeAt queue (cqChunk queue chunkidx + 8) = index
      · exact ⟨rfl, rfl, rfl, fun hnot ↦ absurd ⟨hfresh, hnot⟩ hsuccess,
          by simp [accessesLeft, takeLeft, hfresh], by simp [changesLeft], by simp [changesLeft]⟩
      · exact ⟨rfl, rfl, rfl, by simp [accessesLeft, takeLeft, hfresh],
          by simp [accessesLeft, takeLeft, hfresh], by simp [changesLeft], by simp [changesLeft]⟩

/-- The step of a thread begins a call, or is a step of one. -/
theorem advances_of_machine (hstep : chunkMachine command queue thread =
      some (event, queue', thread')) :
    (∃ call, thread = .idle ∧ event = .called call ∧ queue' = queue ∧ thread' = call.start) ∨
      Advances queue thread (command == .failSpuriously) (event, queue', thread') := by
  cases command with
  | call call =>
    cases thread with
    | idle =>
      simp only [chunkMachine, Option.some.injEq, Prod.mk.injEq] at hstep
      obtain ⟨rfl, rfl, rfl⟩ := hstep
      exact Or.inl ⟨call, rfl, rfl, rfl, rfl⟩
    | push | take => simp [chunkMachine] at hstep
  | advance =>
    cases thread with
    | idle => simp [chunkMachine] at hstep
    | push chunkidx item stage =>
      have hadvances := advances_push queue chunkidx item false stage
      rw [Option.some.inj hstep] at hadvances
      exact Or.inr hadvances
    | take chunkidx stage =>
      have hadvances := advances_take queue chunkidx false stage
      rw [Option.some.inj hstep] at hadvances
      exact Or.inr hadvances
  | failSpuriously =>
    cases thread with
    | idle => simp [chunkMachine] at hstep
    | push chunkidx item stage =>
      have hadvances := advances_push queue chunkidx item true stage
      cases stage with
      | reserveHead index =>
        rw [Option.some.inj hstep] at hadvances
        exact Or.inr hadvances
      | loadHead | loadTail | copyItem => simp [chunkMachine] at hstep
    | take chunkidx stage =>
      have hadvances := advances_take queue chunkidx true stage
      cases stage with
      | reserveTail index =>
        rw [Option.some.inj hstep] at hadvances
        exact Or.inr hadvances
      | loadTail | loadHead | copyItem => simp [chunkMachine] at hstep

section Schedules

variable {ι : Type*} [DecidableEq ι] [Fintype ι] {schedule : List (ι × ChunkCommand)}
  {history : List (ι × ChunkEvent)} {config : Config ι McmpChunkedQueue ChunkThread}

/-- The calls that have returned. -/
def callsReturned (history : List (ι × ChunkEvent)) : ℕ :=
  history.countP fun entry ↦ returns entry.2

/-- The compare-exchanges that were told to fail. -/
def failures (schedule : List (ι × ChunkCommand)) : ℕ :=
  schedule.countP fun entry ↦ entry.2 == .failSpuriously

section Steps

variable {entry : ChunkCommand × ChunkEvent}

/-- The step that a command makes, out of the program that records it. -/
theorem machine_of_recorded
    (hprogram : (recorded chunkMachine).program queue thread entry queue' thread') :
    chunkMachine entry.1 queue thread = some (entry.2, queue', thread') := by
  obtain ⟨command, hcommand⟩ := hprogram
  obtain ⟨⟨event, queue'', thread''⟩, hstep, hentry⟩ := Option.map_eq_some_iff.mp hcommand
  simp only [Prod.mk.injEq] at hentry
  obtain ⟨rfl, rfl, rfl⟩ := hentry
  exact hstep

/-- A step charges another call at most one more round for each store that its own call makes. -/
theorem accessesLeft_le_charge
    (hprogram : (recorded chunkMachine).program queue thread entry queue' thread')
    (other : ChunkThread) :
    accessesLeft queue' other ≤
      accessesLeft queue other + 3 * (changesLeft thread - changesLeft thread') := by
  rcases advances_of_machine (machine_of_recorded hprogram) with
    ⟨call, rfl, -, rfl, rfl⟩ | hadvances
  · exact Nat.le_add_right _ _
  · rcases hadvances.others with hsame | hchange
    · rw [show queue' = queue from hsame]
      exact Nat.le_add_right _ _
    · have hcharge := accessesLeft_le_add queue queue' other
      have hless : changesLeft thread' < changesLeft thread := hchange
      omega

/-- A call begins with at most four accesses and two stores. -/
theorem accessesLeft_of_begins
    (hprogram : (recorded chunkMachine).program queue thread entry queue' thread')
    (hbegins : begins entry.2 = true) :
    accessesLeft queue' thread' ≤ 4 ∧ changesLeft thread' ≤ 2 ∧ changesLeft thread = 0 := by
  rcases advances_of_machine (machine_of_recorded hprogram) with
    ⟨call, rfl, -, rfl, rfl⟩ | hadvances
  · cases call <;> exact ⟨le_rfl, by simp [ChunkCall.start, changesLeft], rfl⟩
  · simp [hadvances.goesOn] at hbegins

/-- Every other step is one of a call. -/
theorem advances_of_not_begins
    (hprogram : (recorded chunkMachine).program queue thread entry queue' thread')
    (hbegins : begins entry.2 = false) :
    Advances queue thread (entry.1 == .failSpuriously) (entry.2, queue', thread') := by
  rcases advances_of_machine (machine_of_recorded hprogram) with
    ⟨call, rfl, hevent, rfl, rfl⟩ | hadvances
  · simp [hevent, begins] at hbegins
  · exact hadvances

/-- A step that begins or ends no call leaves its thread in the call or outside it. -/
theorem busy_step
    (hprogram : (recorded chunkMachine).program queue thread entry queue' thread') :
    busy thread' + (returns entry.2).toNat = busy thread + (begins entry.2).toNat := by
  rcases advances_of_machine (machine_of_recorded hprogram) with
    ⟨call, rfl, hevent, rfl, rfl⟩ | hadvances
  · rw [hevent]
    cases call <;> rfl
  · have hends := hadvances.ends
    have hgoesOn := hadvances.goesOn
    simp only at hends hgoesOn
    rw [hadvances.inCall, hgoesOn, hends]
    rfl

end Steps

section Records

variable {record : List (ι × ChunkCommand × ChunkEvent)}
  {guard : Guard ι McmpChunkedQueue ChunkThread (ChunkCommand × ChunkEvent)}

/-- The calls that have begun. -/
def callsBegun (record : List (ι × ChunkCommand × ChunkEvent)) : ℕ :=
  record.countP fun entry ↦ begins entry.2.2

/-- The steps of a recorded run are at most five for each call, six more for each call and each
further thread, and three for each compare-exchange that was told to fail. -/
theorem length_le_callsBegun
    (hrun : Run (recorded chunkMachine).program guard (initially ι queue) record config) :
    record.length ≤ callsBegun record * (5 + 6 * (Fintype.card ι - 1)) +
      3 * record.countP fun entry ↦ entry.2.1 == .failSpuriously := by
  have hbound := length_le_of_cost accessesLeft changesLeft (fun entry ↦ begins entry.2)
    (fun entry ↦ entry.1 == .failSpuriously) 4 2 3 2 (fun _ ↦ ⟨rfl, rfl⟩) accessesLeft_le_charge
    accessesLeft_of_begins
    (fun hprogram hbegins _ ↦
      have hadvances := advances_of_not_begins hprogram hbegins
      ⟨hadvances.setBack, hadvances.fewer⟩)
    (fun hprogram hbegins hnot ↦
      have hadvances := advances_of_not_begins hprogram hbegins
      ⟨hadvances.nearer hnot, hadvances.fewer⟩) hrun
  have hround : 4 + 1 + 3 * (Fintype.card ι - 1) * 2 = 5 + 6 * (Fintype.card ι - 1) := by omega
  rw [hround, Nat.mul_comm _ (2 + 1)] at hbound
  exact hbound

/-- A call that has begun has returned, or its thread is in it. -/
theorem callsBegun_eq
    (hrun : Run (recorded chunkMachine).program guard (initially ι queue) record config) :
    callsBegun record =
      (record.countP fun entry ↦ returns entry.2.2) + ∑ i, busy (config.threads i) :=
  countP_starts_eq (fun entry : ChunkCommand × ChunkEvent ↦ begins entry.2)
    (fun entry ↦ returns entry.2) busy (fun _ ↦ rfl) busy_step hrun

end Records

/-- Some call returns: a schedule on a chunked queue has at most five steps for each call that has
returned and each thread, six more for each of them and each further thread, and three for each
compare-exchange that fails for no reason, in whatever order the threads take them. -/
theorem chunkedQueue_lockFree
    (hplay : play chunkMachine anyStep schedule [] (initially ι queue) = some (history, config)) :
    schedule.length ≤ (callsReturned history + Fintype.card ι) *
      (5 + 6 * (Fintype.card ι - 1)) + 3 * failures schedule := by
  obtain ⟨record, hrun, rfl, rfl⟩ := run_recorded_of_play schedule hplay
  have hbusy : ∑ i, busy (config.threads i) ≤ Fintype.card ι :=
    sum_busy_le (fun thread ↦ by cases thread <;> simp [busy]) config
  have hsteps := length_le_callsBegun hrun
  rw [callsBegun_eq hrun] at hsteps
  simp only [callsReturned, failures, List.countP_map, Function.comp_def, List.length_map]
  exact hsteps.trans (Nat.add_le_add_right
    (Nat.mul_le_mul_right _ (Nat.add_le_add_left hbusy _)) _)

/-- A Push whose compare-exchange fails once for no reason and once because it loses the head to
another Push, and that then finds the chunk full. -/
theorem chunkedQueue_lockFree_retry :
    ∃ (schedule : List (Fin 2 × ChunkCommand)) (history : List (Fin 2 × ChunkEvent))
      (config : Config (Fin 2) McmpChunkedQueue ChunkThread),
      play chunkMachine anyStep schedule [] (initially (Fin 2) queueOfFour) =
          some (history, config) ∧
        schedule.length = 14 ∧ callsReturned history = 2 ∧ failures schedule = 1 ∧
        schedule.length ≤ (callsReturned history + Fintype.card (Fin 2)) *
          (5 + 6 * (Fintype.card (Fin 2) - 1)) + 3 * failures schedule := by
  let schedule : List (Fin 2 × ChunkCommand) :=
    [(0, .call (.push 0 7)), (0, .advance), (0, .advance), (0, .failSpuriously), (0, .advance),
      (0, .advance), (1, .call (.push 0 8)), (1, .advance), (1, .advance), (1, .advance),
      (1, .advance), (0, .advance), (0, .advance), (0, .advance)]
  have hview : (play chunkMachine anyStep schedule [] (initially (Fin 2) queueOfFour)).map
      (fun result ↦ callsReturned result.1) = some 2 := by decide +kernel
  obtain ⟨⟨history, config⟩, hplay, hreturned⟩ := Option.map_eq_some_iff.mp hview
  exact ⟨schedule, history, config, hplay, rfl, hreturned, rfl, chunkedQueue_lockFree hplay⟩

end Schedules

end Mcmp.Utilities.ChunkedQueueProgress
