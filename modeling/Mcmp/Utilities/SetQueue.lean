import Mcmp.Foundation.CyclicRange
import Mcmp.Utilities.AtomicBitmap

/-!
# The set queue

`mcmpSetQueuePush` and `mcmpSetQueueTake` of setqueue.c, on a queue whose areas are apart: no
address is computed, and the successor of a cell does not wrap. `Mcmp.Utilities.SetQueueBlock` has
the block that `mcmpSetQueueCreate` makes, where the macros compute the addresses and sizes wrap; it
goes in lockstep with this one as long as the size of the block does not wrap.

A set queue of `length` cells holds indices below `length`, each at most once: a membership bitmap
has a bit for each index that is queued, a ready bitmap has a bit for each cell that a Push has
published, and `head` and `tail` delimit the ring of the cells in use.

A step of the system is one atomic access, or the plain read of an item, together with the
computation of the thread up to the next access. A call is at a stage, which names its next access
and carries the local variables that it still needs. The compare-exchanges are strong ones. The
ones on a bitmap replace a whole byte, so they fail on a change to any of its eight bits.

`QueueStep` lists what a step can do in terms of single bits, and `queueStep_of_program` says that
it lists everything. The last section is the safety of the indices and of the items area, which the
creation leaves as it finds it: under every interleaving a Take reads only cells that a Push has
written (`delivered_stored`).
-/

set_option autoImplicit false
set_option relaxedAutoImplicit false

namespace Mcmp.Utilities.SetQueue

open Foundation.ByteBits Foundation.CyclicRange Foundation.Interleaving
open AtomicBitmap (mcmpAtomicBitmapIsEnabledBit mcmpAtomicBitmapIsEnabledBit_eq
  and_bitMask_ne_zero_iff)

/-! ### The memory of a queue -/

/-- A set queue: the header, the membership bitmap, the ready bitmap and the items area. -/
structure McmpSetQueue where
  byteslength : ℕ
  length : ℕ
  head : ℕ
  tail : ℕ
  values : ByteMemory
  ready : ByteMemory
  items : ℕ → ℕ

/-- The queue in a block that was just made: the header is filled in and the bitmaps are cleared;
the items area keeps what the block held. -/
def emptyQueue (length : ℕ) (items : ℕ → ℕ) : McmpSetQueue where
  byteslength := (length + 7) / 8
  length := length
  head := 0
  tail := 0
  values := fun _ ↦ 0#8
  ready := fun _ ↦ 0#8
  items := items

/-- The indices in the cells of the ring, from tail to head. -/
def McmpSetQueue.ringItems (queue : McmpSetQueue) : List ℕ :=
  (cells queue.length queue.tail queue.head).map queue.items

/-! ### The calls, one atomic access at a time -/

/-- The next access of a Push. `expected` is a byte that was loaded from a bitmap, `tail` and
`index` are the loaded tail and the loaded head. -/
inductive PushStage
  | loadHashset
  | claimHashset (expected : BitVec 8)
  | loadTail
  | loadHead (tail : ℕ)
  | testReady (tail index : ℕ)
  | rollBack
  | reserveHead (index : ℕ)
  | storeItem (index : ℕ)
  | loadReady (index : ℕ)
  | publishReady (index : ℕ) (expected : BitVec 8)
  deriving DecidableEq, Repr

/-- The next access of a Take. `index` is the loaded tail, `ind` the item that was read. -/
inductive TakeStage
  | loadTail
  | loadHead (index : ℕ)
  | testReady (index : ℕ)
  | reserveTail (index : ℕ)
  | readItem (index : ℕ)
  | loadHashset (index ind : ℕ)
  | clearHashset (index ind : ℕ) (expected : BitVec 8)
  | loadReady (index ind : ℕ)
  | clearReady (index ind : ℕ) (expected : BitVec 8)
  deriving DecidableEq, Repr

/-- A call on a queue. -/
inductive QueueCall
  | push (ind : ℕ)
  | take
  deriving DecidableEq, Repr

/-- A thread outside any call, or inside one. -/
inductive QueueThread
  | idle
  | push (ind : ℕ) (stage : PushStage)
  | take (stage : TakeStage)
  deriving DecidableEq, Repr

/-- The events: a call starts; a call makes an access of which nothing is recorded; a Push claims
the membership bit of its index, reserves a cell, stores the index in it, and returns; a Take
removes a cell from the ring, reads its item, clears the membership bit of the item, and returns. -/
inductive QueueEvent
  | called (call : QueueCall)
  | accessed
  | claimed (ind : ℕ)
  | reserved (index ind : ℕ)
  | stored (index ind : ℕ)
  | pushReturned (ind : ℕ) (status : Mcmpst)
  | removed (index : ℕ)
  | delivered (index ind : ℕ)
  | unclaimed (ind : ℕ)
  | takeReturned (ind : Option ℕ) (status : Mcmpst)
  deriving DecidableEq, Repr

/-- The next step of a Push. The bound check comes before the first access and is made with it. -/
def mcmpSetQueuePush (ind : ℕ) (queue : McmpSetQueue) :
    PushStage → QueueEvent × McmpSetQueue × QueueThread
  | .loadHashset =>
    if queue.length ≤ ind then (.pushReturned ind .overflow, queue, .idle)
    else
      let expected := queue.values (ind / 8)
      if expected &&& bitMask (ind % 8) ≠ 0 then (.pushReturned ind .alrop, queue, .idle)
      else (.accessed, queue, .push ind (.claimHashset expected))
  | .claimHashset expected =>
    if queue.values (ind / 8) = expected then
      (.claimed ind,
        { queue with
          values := Function.update queue.values (ind / 8) (expected ||| bitMask (ind % 8)) },
        .push ind .loadTail)
    else (.pushReturned ind .retryop, queue, .idle)
  | .loadTail => (.accessed, queue, .push ind (.loadHead queue.tail))
  | .loadHead tail =>
    let index := queue.head
    let next := (index + 1) % queue.length
    if next = tail then (.accessed, queue, .push ind (.testReady tail index))
    else (.accessed, queue, .push ind (.reserveHead index))
  | .testReady tail index =>
    if mcmpAtomicBitmapIsEnabledBit queue.ready tail then (.accessed, queue, .push ind .rollBack)
    else (.accessed, queue, .push ind (.reserveHead index))
  | .rollBack =>
    (.pushReturned ind .overflow,
      { queue with
        values := Function.update queue.values (ind / 8)
          (queue.values (ind / 8) &&& ~~~bitMask (ind % 8)) },
      .idle)
  | .reserveHead index =>
    if queue.head = index then
      (.reserved index ind, { queue with head := (index + 1) % queue.length },
        .push ind (.storeItem index))
    else (.accessed, queue, .push ind .loadTail)
  | .storeItem index =>
    (.stored index ind, { queue with items := Function.update queue.items index ind },
      .push ind (.loadReady index))
  | .loadReady index =>
    (.accessed, queue, .push ind (.publishReady index (queue.ready (index / 8))))
  | .publishReady index expected =>
    if queue.ready (index / 8) = expected then
      (.pushReturned ind .success,
        { queue with
          ready := Function.update queue.ready (index / 8) (expected ||| bitMask (index % 8)) },
        .idle)
    else (.accessed, queue, .push ind (.loadReady index))

/-- The next step of a Take. -/
def mcmpSetQueueTake (queue : McmpSetQueue) : TakeStage → QueueEvent × McmpSetQueue × QueueThread
  | .loadTail => (.accessed, queue, .take (.loadHead queue.tail))
  | .loadHead index =>
    if index = queue.head then (.takeReturned none .isempty, queue, .idle)
    else (.accessed, queue, .take (.testReady index))
  | .testReady index =>
    if queue.ready (index / 8) &&& bitMask (index % 8) = 0 then
      (.takeReturned none .retryop, queue, .idle)
    else (.accessed, queue, .take (.reserveTail index))
  | .reserveTail index =>
    if queue.tail = index then
      (.removed index, { queue with tail := (index + 1) % queue.length },
        .take (.readItem index))
    else (.accessed, queue, .take .loadTail)
  | .readItem index =>
    let ind := queue.items index
    (.delivered index ind, queue, .take (.loadHashset index ind))
  | .loadHashset index ind =>
    (.accessed, queue, .take (.clearHashset index ind (queue.values (ind / 8))))
  | .clearHashset index ind expected =>
    if queue.values (ind / 8) = expected then
      (.unclaimed ind,
        { queue with
          values := Function.update queue.values (ind / 8) (expected &&& ~~~bitMask (ind % 8)) },
        .take (.loadReady index ind))
    else (.accessed, queue, .take (.loadHashset index ind))
  | .loadReady index ind =>
    (.accessed, queue, .take (.clearReady index ind (queue.ready (index / 8))))
  | .clearReady index ind expected =>
    if queue.ready (index / 8) = expected then
      (.takeReturned (some ind) .success,
        { queue with
          ready := Function.update queue.ready (index / 8)
            (expected &&& ~~~bitMask (index % 8)) },
        .idle)
    else (.accessed, queue, .take (.loadReady index ind))

/-- A thread at the start of a call. -/
def QueueCall.start : QueueCall → QueueThread
  | push ind => .push ind .loadHashset
  | take => .take .loadTail

/-- What a thread can be told to do: start a call when it is idle, or go on with the one it is
in. -/
inductive QueueCommand
  | call (call : QueueCall)
  | advance
  deriving DecidableEq, Repr

/-- The users of a queue. -/
def queueMachine : Machine QueueCommand McmpSetQueue QueueThread QueueEvent
  | .call call, queue, .idle => some (.called call, queue, call.start)
  | .advance, queue, .push ind stage => some (mcmpSetQueuePush ind queue stage)
  | .advance, queue, .take stage => some (mcmpSetQueueTake queue stage)
  | _, _, _ => none

/-- The system before any call on a queue. -/
def initially (ι : Type*) (queue : McmpSetQueue) : Config ι McmpSetQueue QueueThread :=
  ⟨queue, fun _ ↦ .idle⟩

/-- The runs of any number of threads on a queue under a guard. -/
abbrev QueueRun {ι : Type*} [DecidableEq ι] (guard : Guard ι McmpSetQueue QueueThread QueueEvent)
    (queue : McmpSetQueue) :=
  Run queueMachine.program guard (initially ι queue)

/-! ### What one step does -/

/-- The accesses that change nothing and of which nothing is recorded: where they take the thread.
These are the loads whose tests let the call go on, and the compare-exchanges that fail and are
tried again. -/
inductive Progress (queue : McmpSetQueue) : QueueThread → QueueThread → Prop
  | pushAbsent {ind : ℕ} (hind : ind < queue.length) (hclear : bit queue.values ind = false) :
    Progress queue (.push ind .loadHashset) (.push ind (.claimHashset (queue.values (ind / 8))))
  | pushTail {ind : ℕ} : Progress queue (.push ind .loadTail) (.push ind (.loadHead queue.tail))
  | pushNoRoom {ind : ℕ} :
    Progress queue (.push ind (.loadHead ((queue.head + 1) % queue.length)))
      (.push ind (.testReady ((queue.head + 1) % queue.length) queue.head))
  | pushRoom {ind tail : ℕ} (hroom : (queue.head + 1) % queue.length ≠ tail) :
    Progress queue (.push ind (.loadHead tail)) (.push ind (.reserveHead queue.head))
  | pushFull {ind tail index : ℕ} (hready : bit queue.ready tail = true) :
    Progress queue (.push ind (.testReady tail index)) (.push ind .rollBack)
  | pushNotReady {ind tail index : ℕ} (hready : bit queue.ready tail = false) :
    Progress queue (.push ind (.testReady tail index)) (.push ind (.reserveHead index))
  | pushReserveLost {ind index : ℕ} (hlost : queue.head ≠ index) :
    Progress queue (.push ind (.reserveHead index)) (.push ind .loadTail)
  | pushReadyLoaded {ind index : ℕ} :
    Progress queue (.push ind (.loadReady index))
      (.push ind (.publishReady index (queue.ready (index / 8))))
  | pushPublishLost {ind index : ℕ} {expected : BitVec 8} :
    Progress queue (.push ind (.publishReady index expected)) (.push ind (.loadReady index))
  | takeTail : Progress queue (.take .loadTail) (.take (.loadHead queue.tail))
  | takeNonempty {index : ℕ} (hne : index ≠ queue.head) :
    Progress queue (.take (.loadHead index)) (.take (.testReady index))
  | takeReady {index : ℕ} (hready : bit queue.ready index = true) :
    Progress queue (.take (.testReady index)) (.take (.reserveTail index))
  | takeReserveLost {index : ℕ} (hlost : queue.tail ≠ index) :
    Progress queue (.take (.reserveTail index)) (.take .loadTail)
  | takeHashsetLoaded {index ind : ℕ} :
    Progress queue (.take (.loadHashset index ind))
      (.take (.clearHashset index ind (queue.values (ind / 8))))
  | takeClearLost {index ind : ℕ} {expected : BitVec 8} :
    Progress queue (.take (.clearHashset index ind expected)) (.take (.loadHashset index ind))
  | takeReadyLoaded {index ind : ℕ} :
    Progress queue (.take (.loadReady index ind))
      (.take (.clearReady index ind (queue.ready (index / 8))))
  | takeReleaseLost {index ind : ℕ} {expected : BitVec 8} :
    Progress queue (.take (.clearReady index ind expected)) (.take (.loadReady index ind))

/-- What a step of the system does, bit by bit. -/
inductive QueueStep (queue : McmpSetQueue) :
    QueueThread → QueueEvent → McmpSetQueue → QueueThread → Prop
  | called (call : QueueCall) : QueueStep queue .idle (.called call) queue call.start
  | progressed {thread thread' : QueueThread} (hprogress : Progress queue thread thread') :
    QueueStep queue thread .accessed queue thread'
  | tooLarge {ind : ℕ} (hind : queue.length ≤ ind) :
    QueueStep queue (.push ind .loadHashset) (.pushReturned ind .overflow) queue .idle
  | present {ind : ℕ} (hset : bit queue.values ind = true) :
    QueueStep queue (.push ind .loadHashset) (.pushReturned ind .alrop) queue .idle
  | claimLost {ind : ℕ} {expected : BitVec 8} :
    QueueStep queue (.push ind (.claimHashset expected)) (.pushReturned ind .retryop) queue .idle
  | claimed {ind : ℕ} {expected : BitVec 8} (hind : ind < queue.length)
      (hclear : bit queue.values ind = false) :
    QueueStep queue (.push ind (.claimHashset expected)) (.claimed ind)
      { queue with values := setBit queue.values ind } (.push ind .loadTail)
  | rolledBack {ind : ℕ} :
    QueueStep queue (.push ind .rollBack) (.pushReturned ind .overflow)
      { queue with values := clearBit queue.values ind } .idle
  | reserved {ind : ℕ} :
    QueueStep queue (.push ind (.reserveHead queue.head)) (.reserved queue.head ind)
      { queue with head := (queue.head + 1) % queue.length } (.push ind (.storeItem queue.head))
  | stored {ind index : ℕ} :
    QueueStep queue (.push ind (.storeItem index)) (.stored index ind)
      { queue with items := Function.update queue.items index ind } (.push ind (.loadReady index))
  | published {ind index : ℕ} {expected : BitVec 8} :
    QueueStep queue (.push ind (.publishReady index expected)) (.pushReturned ind .success)
      { queue with ready := setBit queue.ready index } .idle
  | empty : QueueStep queue (.take (.loadHead queue.head)) (.takeReturned none .isempty) queue .idle
  | notReady {index : ℕ} (hready : bit queue.ready index = false) :
    QueueStep queue (.take (.testReady index)) (.takeReturned none .retryop) queue .idle
  | removed :
    QueueStep queue (.take (.reserveTail queue.tail)) (.removed queue.tail)
      { queue with tail := (queue.tail + 1) % queue.length } (.take (.readItem queue.tail))
  | delivered {index : ℕ} :
    QueueStep queue (.take (.readItem index)) (.delivered index (queue.items index)) queue
      (.take (.loadHashset index (queue.items index)))
  | unclaimed {index ind : ℕ} {expected : BitVec 8} :
    QueueStep queue (.take (.clearHashset index ind expected)) (.unclaimed ind)
      { queue with values := clearBit queue.values ind } (.take (.loadReady index ind))
  | released {index ind : ℕ} {expected : BitVec 8} :
    QueueStep queue (.take (.clearReady index ind expected)) (.takeReturned (some ind) .success)
      { queue with ready := clearBit queue.ready index } .idle

/-- A Push past its first access has an admissible index, and the byte with which it is about to
claim its bit has the bit clear. -/
def Validated (length : ℕ) : QueueThread → Prop
  | .push _ .loadHashset => True
  | .push ind (.claimHashset expected) => ind < length ∧ expected &&& bitMask (ind % 8) = 0
  | .push ind _ => ind < length
  | _ => True

theorem and_bitMask_eq_zero_iff (bitmap : ByteMemory) (idx : ℕ) :
    bitmap (idx / 8) &&& bitMask (idx % 8) = 0 ↔ bit bitmap idx = false := by
  rw [← Bool.not_eq_true, ← and_bitMask_ne_zero_iff, not_not]

/-- A step of a Push is one of the listed ones. -/
theorem queueStep_push {queue : McmpSetQueue} {ind : ℕ} {stage : PushStage}
    (hvalidated : Validated queue.length (.push ind stage)) :
    QueueStep queue (.push ind stage) (mcmpSetQueuePush ind queue stage).1
      (mcmpSetQueuePush ind queue stage).2.1 (mcmpSetQueuePush ind queue stage).2.2 := by
  cases stage with
  | loadHashset =>
    simp only [mcmpSetQueuePush]
    split_ifs with hlarge hset
    · exact .tooLarge hlarge
    · exact .present ((and_bitMask_ne_zero_iff _ _).mp hset)
    · exact .progressed (.pushAbsent (not_le.mp hlarge)
        ((and_bitMask_eq_zero_iff _ _).mp (not_not.mp hset)))
  | claimHashset expected =>
    simp only [mcmpSetQueuePush]
    split_ifs with hsame
    · subst hsame
      exact .claimed hvalidated.1 ((and_bitMask_eq_zero_iff _ _).mp hvalidated.2)
    · exact .claimLost
  | loadTail => exact .progressed .pushTail
  | loadHead tail =>
    simp only [mcmpSetQueuePush]
    split_ifs with hnext
    · subst hnext
      exact .progressed .pushNoRoom
    · exact .progressed (.pushRoom hnext)
  | testReady tail index =>
    simp only [mcmpSetQueuePush, mcmpAtomicBitmapIsEnabledBit_eq]
    split_ifs with hready
    · exact .progressed (.pushFull hready)
    · exact .progressed (.pushNotReady (Bool.not_eq_true _ ▸ hready))
  | rollBack => exact .rolledBack
  | reserveHead index =>
    simp only [mcmpSetQueuePush]
    split_ifs with hsame
    · subst hsame
      exact .reserved
    · exact .progressed (.pushReserveLost hsame)
  | storeItem index => exact .stored
  | loadReady index => exact .progressed .pushReadyLoaded
  | publishReady index expected =>
    simp only [mcmpSetQueuePush]
    split_ifs with hsame
    · subst hsame
      exact .published
    · exact .progressed .pushPublishLost

/-- A step of a Take is one of the listed ones. -/
theorem queueStep_take {queue : McmpSetQueue} {stage : TakeStage} :
    QueueStep queue (.take stage) (mcmpSetQueueTake queue stage).1
      (mcmpSetQueueTake queue stage).2.1 (mcmpSetQueueTake queue stage).2.2 := by
  cases stage with
  | loadTail => exact .progressed .takeTail
  | loadHead index =>
    simp only [mcmpSetQueueTake]
    split_ifs with hempty
    · subst hempty
      exact .empty
    · exact .progressed (.takeNonempty hempty)
  | testReady index =>
    simp only [mcmpSetQueueTake]
    split_ifs with hready
    · exact .notReady ((and_bitMask_eq_zero_iff _ _).mp hready)
    · exact .progressed (.takeReady ((and_bitMask_ne_zero_iff _ _).mp hready))
  | reserveTail index =>
    simp only [mcmpSetQueueTake]
    split_ifs with hsame
    · subst hsame
      exact .removed
    · exact .progressed (.takeReserveLost hsame)
  | readItem index => exact .delivered
  | loadHashset index ind => exact .progressed .takeHashsetLoaded
  | clearHashset index ind expected =>
    simp only [mcmpSetQueueTake]
    split_ifs with hsame
    · subst hsame
      exact .unclaimed
    · exact .progressed .takeClearLost
  | loadReady index ind => exact .progressed .takeReadyLoaded
  | clearReady index ind expected =>
    simp only [mcmpSetQueueTake]
    split_ifs with hsame
    · subst hsame
      exact .released
    · exact .progressed .takeReleaseLost

/-- A step of the system is one of the listed ones. -/
theorem queueStep_of_program {queue queue' : McmpSetQueue} {thread thread' : QueueThread}
    {event : QueueEvent} (hvalidated : Validated queue.length thread)
    (hprogram : queueMachine.program queue thread event queue' thread') :
    QueueStep queue thread event queue' thread' := by
  obtain ⟨command, hcommand⟩ := hprogram
  cases command with
  | call call =>
    cases thread with
    | idle =>
      simp only [queueMachine, Option.some.injEq, Prod.mk.injEq] at hcommand
      obtain ⟨rfl, rfl, rfl⟩ := hcommand
      exact .called call
    | push _ _ => simp [queueMachine] at hcommand
    | take _ => simp [queueMachine] at hcommand
  | advance =>
    cases thread with
    | idle => simp [queueMachine] at hcommand
    | push ind stage =>
      have hstep := queueStep_push hvalidated
      rw [Option.some.inj hcommand] at hstep
      exact hstep
    | take stage =>
      have hstep := @queueStep_take queue stage
      rw [Option.some.inj hcommand] at hstep
      exact hstep

/-- The sizes of a queue never change, and the thread that has moved is validated if it was so
before. -/
theorem QueueStep.sizes {queue queue' : McmpSetQueue} {thread thread' : QueueThread}
    {event : QueueEvent} (hstep : QueueStep queue thread event queue' thread')
    (hvalidated : Validated queue.length thread) :
    queue'.length = queue.length ∧ queue'.byteslength = queue.byteslength ∧
      Validated queue.length thread' := by
  refine ⟨by cases hstep <;> rfl, by cases hstep <;> rfl, ?_⟩
  cases hstep with
  | called call => cases call <;> exact trivial
  | progressed hprogress =>
    cases hprogress with
    | pushAbsent hind hclear => exact ⟨hind, (and_bitMask_eq_zero_iff _ _).mpr hclear⟩
    | _ => exact hvalidated
  | claimed hind hclear => exact hind
  | reserved => exact hvalidated
  | stored => exact hvalidated
  | _ => exact trivial

/-! ### Runs -/

section Runs

variable {ι : Type*} [DecidableEq ι] {guard : Guard ι McmpSetQueue QueueThread QueueEvent}
  {queue : McmpSetQueue} {history : List (ι × QueueEvent)}
  {config : Config ι McmpSetQueue QueueThread}

/-- Along every run the sizes of the queue are those it started with and every thread is
validated. -/
theorem run_sizes (hrun : QueueRun guard queue history config) :
    config.shared.length = queue.length ∧ config.shared.byteslength = queue.byteslength ∧
      ∀ thread, Validated queue.length (config.threads thread) := by
  refine Run.invariant (fun _ config ↦ config.shared.length = queue.length ∧
    config.shared.byteslength = queue.byteslength ∧
      ∀ thread, Validated queue.length (config.threads thread)) ?_ ?_ hrun
  · exact ⟨rfl, rfl, fun _ ↦ trivial⟩
  · rintro history config thread event queue' thread' - ⟨hlength, hbytes, hvalid⟩ - hprogram
    have hthread := hlength.symm ▸ hvalid thread
    obtain ⟨hlength', hbytes', hvalid'⟩ := (queueStep_of_program hthread hprogram).sizes hthread
    refine ⟨hlength'.trans hlength, hbytes'.trans hbytes, fun other ↦ ?_⟩
    by_cases hother : other = thread
    · rw [hother, Config.advance_threads_self, ← hlength]
      exact hvalid'
    · rw [Config.advance_threads_of_ne config hother]
      exact hvalid other

/-- Every step of a run is one of the listed ones. -/
theorem run_queueStep (hrun : QueueRun guard queue history config) {thread : ι}
    {event : QueueEvent} {queue' : McmpSetQueue} {thread' : QueueThread}
    (hprogram : queueMachine.program config.shared (config.threads thread) event queue' thread') :
    QueueStep config.shared (config.threads thread) event queue' thread' := by
  obtain ⟨hlength, -, hvalid⟩ := run_sizes hrun
  exact queueStep_of_program (hlength.symm ▸ hvalid thread) hprogram

end Runs

/-! ### Safety of the items area -/

section Written

variable {ι : Type*} {length : ℕ} {history : List (ι × QueueEvent)} {queue queue' : McmpSetQueue}
  {thread thread' : QueueThread} {event : QueueEvent} {index ind : ℕ}

/-- An index was stored in a cell. -/
def Stored (history : List (ι × QueueEvent)) (index ind : ℕ) : Prop :=
  ∃ who, (who, .stored index ind) ∈ history

/-- What a thread that is about to use a cell relies on: a Push that is to store its index has a
cell of the ring, and the cells that it is to publish, or that a Take is to remove or to read, were
written. -/
def Grounded (length : ℕ) (history : List (ι × QueueEvent)) : QueueThread → Prop
  | .push _ (.storeItem index) => index < length
  | .push _ (.loadReady index) => ∃ ind, Stored history index ind
  | .push _ (.publishReady index _) => ∃ ind, Stored history index ind
  | .take (.reserveTail index) => ∃ ind, Stored history index ind
  | .take (.readItem index) => ∃ ind, Stored history index ind
  | _ => True

/-- Head and tail are cells, only admissible indices were stored, a cell that was written holds one
of the indices that were stored in it, and a ready cell was written. -/
structure CellsWritten (length : ℕ) (history : List (ι × QueueEvent)) (queue : McmpSetQueue) :
    Prop where
  head_lt : queue.head < length
  tail_lt : queue.tail < length
  stored_lt : ∀ {index ind}, Stored history index ind → index < length ∧ ind < length
  items : ∀ {index ind}, Stored history index ind → Stored history index (queue.items index)
  ready : ∀ {index}, bit queue.ready index = true → ∃ ind, Stored history index ind

/-- What was stored after one more event. -/
theorem stored_concat (who : ι) : Stored (history ++ [(who, event)]) index ind ↔
    Stored history index ind ∨ event = .stored index ind := by
  constructor
  · rintro ⟨other, hmem⟩
    rcases List.mem_append.mp hmem with hold | hnew
    · exact Or.inl ⟨other, hold⟩
    · exact Or.inr (Prod.mk.inj (List.mem_singleton.mp hnew)).2.symm
  · rintro (⟨other, hmem⟩ | rfl)
    · exact ⟨other, List.mem_append_left _ hmem⟩
    · exact ⟨who, List.mem_append_right _ (List.mem_singleton.mpr rfl)⟩

theorem Stored.concat (hstored : Stored history index ind) (who : ι) (event : QueueEvent) :
    Stored (history ++ [(who, event)]) index ind :=
  (stored_concat who).mpr (Or.inl hstored)

theorem Grounded.concat (hgrounded : Grounded length history thread) (who : ι)
    (event : QueueEvent) : Grounded length (history ++ [(who, event)]) thread := by
  unfold Grounded at hgrounded ⊢
  split at hgrounded
  · exact hgrounded
  · exact hgrounded.imp fun _ hstored ↦ hstored.concat who event
  · exact hgrounded.imp fun _ hstored ↦ hstored.concat who event
  · exact hgrounded.imp fun _ hstored ↦ hstored.concat who event
  · exact hgrounded.imp fun _ hstored ↦ hstored.concat who event
  · exact trivial

/-- A step that stores nothing keeps the cells written, if head and tail stay cells and no cell
becomes ready that was not written. -/
theorem CellsWritten.concat (hwritten : CellsWritten length history queue) (who : ι)
    (hevent : ∀ index ind, event ≠ .stored index ind) (hhead : queue'.head < length)
    (htail : queue'.tail < length) (hitems : queue'.items = queue.items)
    (hready : ∀ index, bit queue'.ready index = true → ∃ ind, Stored history index ind) :
    CellsWritten length (history ++ [(who, event)]) queue' := by
  have hold : ∀ {index ind}, Stored (history ++ [(who, event)]) index ind →
      Stored history index ind := fun hstored ↦
    ((stored_concat who).mp hstored).resolve_right (hevent _ _)
  refine ⟨hhead, htail, fun hstored ↦ hwritten.stored_lt (hold hstored), fun hstored ↦ ?_,
    fun hset ↦ (hready _ hset).imp fun _ hstored ↦ hstored.concat who event⟩
  rw [hitems]
  exact (hwritten.items (hold hstored)).concat who event

/-- A store of an admissible index in a cell keeps the cells written. -/
theorem CellsWritten.store (hwritten : CellsWritten length history queue) (who : ι)
    (hindex : index < length) (hind : ind < length) :
    CellsWritten length (history ++ [(who, .stored index ind)])
      { queue with items := Function.update queue.items index ind } where
  head_lt := hwritten.head_lt
  tail_lt := hwritten.tail_lt
  stored_lt {cell value} hstored := by
    rcases (stored_concat who).mp hstored with hold | hnew
    · exact hwritten.stored_lt hold
    · obtain ⟨rfl, rfl⟩ := QueueEvent.stored.inj hnew
      exact ⟨hindex, hind⟩
  items {cell value} hstored := by
    by_cases hcell : cell = index
    · subst hcell
      exact (stored_concat who).mpr (Or.inr (by simp))
    · simp only [Function.update_of_ne hcell]
      rcases (stored_concat who).mp hstored with hold | hnew
      · exact (hwritten.items hold).concat who _
      · exact absurd (QueueEvent.stored.inj hnew).1.symm hcell
  ready hset := (hwritten.ready hset).imp fun _ hstored ↦ hstored.concat who _

/-- One step keeps the cells written and the thread that moves grounded. -/
theorem CellsWritten.step (hwritten : CellsWritten length history queue)
    (hlength : queue.length = length) (hvalidated : Validated length thread)
    (hgrounded : Grounded length history thread)
    (hstep : QueueStep queue thread event queue' thread') (who : ι) :
    CellsWritten length (history ++ [(who, event)]) queue' ∧
      Grounded length (history ++ [(who, event)]) thread' := by
  have hmod : ∀ k, k % queue.length < length := fun k ↦
    hlength ▸ Nat.mod_lt _ (hlength ▸ Nat.zero_lt_of_lt hwritten.head_lt)
  have hkeep : (∀ index ind, event ≠ .stored index ind) → ∀ values,
      CellsWritten length (history ++ [(who, event)]) { queue with values := values } :=
    fun hevent _ ↦
      hwritten.concat who hevent hwritten.head_lt hwritten.tail_lt rfl fun _ ↦ hwritten.ready
  cases hstep with
  | called call => exact ⟨hkeep (by simp) _, by cases call <;> exact trivial⟩
  | progressed hprogress =>
    refine ⟨hkeep (by simp) _, ?_⟩
    cases hprogress with
    | pushReadyLoaded => exact hgrounded.concat who _
    | pushPublishLost => exact hgrounded.concat who _
    | takeReady hready => exact (hwritten.ready hready).imp fun _ hstored ↦ hstored.concat who _
    | _ => exact trivial
  | tooLarge hind => exact ⟨hkeep (by simp) _, trivial⟩
  | present hset => exact ⟨hkeep (by simp) _, trivial⟩
  | claimLost => exact ⟨hkeep (by simp) _, trivial⟩
  | claimed hind hclear => exact ⟨hkeep (by simp) _, trivial⟩
  | rolledBack => exact ⟨hkeep (by simp) _, trivial⟩
  | reserved =>
    exact ⟨hwritten.concat who (by simp) (hmod _) hwritten.tail_lt rfl
      fun _ ↦ hwritten.ready, hwritten.head_lt⟩
  | @stored ind index =>
    exact ⟨hwritten.store who hgrounded hvalidated,
      ind, (stored_concat who).mpr (Or.inr rfl)⟩
  | published =>
    refine ⟨hwritten.concat who (by simp) hwritten.head_lt hwritten.tail_lt rfl
      fun cell hset ↦ ?_, trivial⟩
    rcases Bool.or_eq_true_iff.mp ((bit_setBit _ _ _).symm.trans hset) with hold | hnew
    · exact hwritten.ready hold
    · exact of_decide_eq_true hnew ▸ hgrounded
  | empty => exact ⟨hkeep (by simp) _, trivial⟩
  | notReady hready => exact ⟨hkeep (by simp) _, trivial⟩
  | removed =>
    exact ⟨hwritten.concat who (by simp) hwritten.head_lt (hmod _) rfl
      fun _ ↦ hwritten.ready, hgrounded.concat who _⟩
  | delivered => exact ⟨hkeep (by simp) _, trivial⟩
  | unclaimed => exact ⟨hkeep (by simp) _, trivial⟩
  | released =>
    refine ⟨hwritten.concat who (by simp) hwritten.head_lt hwritten.tail_lt rfl
      fun cell hset ↦ ?_, trivial⟩
    exact hwritten.ready (Bool.and_eq_true_iff.mp ((bit_clearBit _ _ _).symm.trans hset)).1

/-- A Take reads an index that was stored in the cell. -/
theorem CellsWritten.stored_of_delivered (hwritten : CellsWritten length history queue)
    (hgrounded : Grounded length history thread)
    (hstep : QueueStep queue thread (.delivered index ind) queue' thread') :
    Stored history index ind := by
  cases hstep with
  | delivered =>
    obtain ⟨first, hstored⟩ := hgrounded
    exact hwritten.items hstored

end Written

section Safety

variable {ι : Type*} [DecidableEq ι] {guard : Guard ι McmpSetQueue QueueThread QueueEvent}
  {length : ℕ} {items : ℕ → ℕ} {history : List (ι × QueueEvent)}
  {config : Config ι McmpSetQueue QueueThread}

/-- Along every run the cells that the calls rely on were written, and every thread is grounded. -/
theorem run_cellsWritten (hlength : 1 ≤ length)
    (hrun : QueueRun guard (emptyQueue length items) history config) :
    CellsWritten length history config.shared ∧
      ∀ thread, Grounded length history (config.threads thread) := by
  refine Run.invariant (fun history config ↦ CellsWritten length history config.shared ∧
    ∀ thread, Grounded length history (config.threads thread)) ?_ ?_ hrun
  · have hnone : ∀ {index ind}, ¬ Stored ([] : List (ι × QueueEvent)) index ind := by
      rintro index ind ⟨who, hmem⟩
      simp at hmem
    exact ⟨⟨hlength, hlength, fun hstored ↦ absurd hstored hnone,
      fun hstored ↦ absurd hstored hnone, fun hset ↦ by simp [initially, emptyQueue] at hset⟩,
      fun _ ↦ trivial⟩
  · rintro history config thread event queue' thread' hpast ⟨hwritten, hgrounded⟩ - hprogram
    obtain ⟨hsize, -, hvalid⟩ := run_sizes hpast
    obtain ⟨hwritten', hgrounded'⟩ := hwritten.step hsize (hvalid thread) (hgrounded thread)
      (run_queueStep hpast hprogram) thread
    refine ⟨hwritten', fun other ↦ ?_⟩
    by_cases hother : other = thread
    · rw [hother, Config.advance_threads_self]
      exact hgrounded'
    · rw [Config.advance_threads_of_ne config hother]
      exact (hgrounded other).concat thread event

/-- An item that a Take reads was stored in that cell by a Push before, and is an admissible
index. -/
theorem delivered_stored (hlength : 1 ≤ length) {thread : ι} {index ind : ℕ}
    {before after : List (ι × QueueEvent)}
    (hrun : QueueRun guard (emptyQueue length items)
      (before ++ (thread, .delivered index ind) :: after) config) :
    Stored before index ind ∧ ind < length := by
  obtain ⟨middle, queue', thread', hpast, -, hprogram⟩ := hrun.cut
  obtain ⟨hmiddle, hgrounded⟩ := run_cellsWritten hlength hpast
  have hread := hmiddle.stored_of_delivered (hgrounded thread) (run_queueStep hpast hprogram)
  exact ⟨hread, (hmiddle.stored_lt hread).2⟩

end Safety

/-! ### Schedules -/

/-- A queue of length two over an items area full of 57. -/
def queueOfTwo : McmpSetQueue := emptyQueue 2 fun _ ↦ 57

/-- A thread goes on with its call for a number of steps. -/
def goOn {ι : Type*} (thread : ι) (steps : ℕ) : List (ι × QueueCommand) :=
  List.replicate steps (thread, .advance)

/-- A thread starts a call and goes on with it for a number of steps. -/
def runCall {ι : Type*} (thread : ι) (call : QueueCall) (steps : ℕ) : List (ι × QueueCommand) :=
  (thread, .call call) :: goOn thread steps

end Mcmp.Utilities.SetQueue
