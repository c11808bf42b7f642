import Mcmp.Utilities.SetQueueAlone
import Mcmp.Utilities.SetQueueBlock

/-!
# One thread on a set queue in its block

The calls of a thread that has the block to itself (`callAlone`, `callsAlone`). The thread in the
block and one on the queue without addresses stay beside each other (`Beside`): every call of the
one that returns is answered as that of the other. So in its block, too, a queue of length `L`
behaves as a first-in-first-out queue without duplicates of capacity `L - 1`, when the size of the
block has not wrapped (`mcmpSetQueue_eq_fifo`). A call that is not answered with success changes no
byte of the memory: the bytes of a block are those of the queue and those around it
(`Represents.memory_unique`).
-/

set_option autoImplicit false
set_option relaxedAutoImplicit false

namespace Mcmp.Utilities.SetQueueBlockAlone

open Foundation.ByteBits Foundation.Interleaving Foundation.Lockstep Foundation.SetFifo
  Foundation.WordMemory SetQueue SetQueueBlock
open SetQueueAlone (Answer answer fifoCalls callAlone_returns callsAlone_eq_fifo
  callAlone_push_room)

/-! ### Calls run to their end -/

/-- Runs a call in the block from the load of the length to its return. There is no answer when the
call has not returned after nine accesses. -/
def callAlone (squ : ℕ) (memory : ByteMemory) (thread : BlockThread) (call : QueueCall) :
    Option Answer × ByteMemory × BlockThread :=
  let result := runAlone (blockMachine squ) .advance 9 memory
    { thread with call := call.start, bitslength := sizeAt memory (squ + 8) }
  (if result.2.2.call = .idle then result.1.getLast?.bind answer else none, result.2)

/-- Runs a list of calls, one after the other. -/
def callsAlone (squ : ℕ) (memory : ByteMemory) (thread : BlockThread) :
    List QueueCall → List (Option Answer) × ByteMemory × BlockThread
  | [] => ([], memory, thread)
  | call :: calls =>
    let first := callAlone squ memory thread call
    let rest := callsAlone squ first.2.1 first.2.2 calls
    (first.1 :: rest.1, rest.2)

/-- Runs a call after other calls. -/
def callAfter (squ : ℕ) (memory : ByteMemory) (thread : BlockThread) (calls : List QueueCall)
    (call : QueueCall) : Option Answer × ByteMemory × BlockThread :=
  let before := callsAlone squ memory thread calls
  callAlone squ before.2.1 before.2.2 call

/-! ### Beside the queue without addresses -/

/-- A thread between two calls in the block and one on a queue, after the same history. -/
def Beside (block : Block) (start : ByteMemory) (locals : BlockThread) (items : ℕ → ℕ)
    (memory : ByteMemory) (thread : BlockThread) (queue : McmpSetQueue) : Prop :=
  ∃ history, Abreast (blockMachine block.squ) queueMachine (initially start fun _ : Unit ↦ locals)
    (SetQueue.initially Unit (emptyQueue block.length items)) (Matching block start) history
    ⟨memory, fun _ ↦ thread⟩ ⟨queue, fun _ ↦ .idle⟩

section Beside

variable {block : Block} {start memory : ByteMemory} {locals thread : BlockThread}
  {items : ℕ → ℕ} {queue : McmpSetQueue}

/-- The one thread of a system is told what comes next. -/
theorem advance_unit {Shared Thread : Type*} (shared shared' : Shared) (own own' : Thread) :
    (⟨shared, fun _ ↦ own⟩ : Config Unit Shared Thread).advance () shared' own' =
      ⟨shared', fun _ ↦ own'⟩ := by
  unfold Config.advance
  congr 1

/-- A call that returns is answered in the block as on the queue, and both threads are between two
calls again. -/
theorem Beside.run_call {call : QueueCall}
    (hstep : InStep (blockMachine block.squ) queueMachine (initially start fun _ : Unit ↦ locals)
      (SetQueue.initially Unit (emptyQueue block.length items)) (Matching block start))
    (h : Beside block start locals items memory thread queue)
    (hreturns : (SetQueueAlone.callAlone queue call).1 ≠ none) :
    (callAlone block.squ memory thread call).1 = (SetQueueAlone.callAlone queue call).1 ∧
      Beside block start locals items (callAlone block.squ memory thread call).2.1
        (callAlone block.squ memory thread call).2.2 (SetQueueAlone.callAlone queue call).2 := by
  obtain ⟨history, habreast⟩ := h
  have hidle : thread.call = .idle := habreast.related.call ()
  have hcalled := hstep.step_abreast habreast () (.call call)
  simp only [blockMachine, queueMachine, hidle] at hcalled
  cases hcalled with
  | some hcalled =>
    rw [advance_unit, advance_unit] at hcalled
    obtain ⟨hevents, later, hlater⟩ := hstep.runAlone_abreast () .advance 9 hcalled.2
    rw [advance_unit, advance_unit] at hlater
    unfold SetQueueAlone.callAlone callAlone
    unfold SetQueueAlone.callAlone at hreturns
    dsimp only at hevents hlater hreturns ⊢
    generalize runAlone queueMachine .advance 9 queue call.start = result' at *
    generalize runAlone (blockMachine block.squ) .advance 9 memory _ = result at *
    have hend : result'.2.2 = .idle := by
      by_contra hne
      exact hreturns (if_neg hne)
    have hplace : result.2.2.call = result'.2.2 := hlater.related.call ()
    rw [if_pos (hplace.trans hend), if_pos hend, hevents]
    exact ⟨rfl, later, hend ▸ hlater⟩

/-- Calls that return are answered in the block as on the queue. -/
theorem Beside.run_calls
    (hstep : InStep (blockMachine block.squ) queueMachine (initially start fun _ : Unit ↦ locals)
      (SetQueue.initially Unit (emptyQueue block.length items)) (Matching block start))
    (calls : List QueueCall) (h : Beside block start locals items memory thread queue)
    (hreturns : none ∉ (SetQueueAlone.callsAlone queue calls).1) :
    (callsAlone block.squ memory thread calls).1 = (SetQueueAlone.callsAlone queue calls).1 ∧
      Beside block start locals items (callsAlone block.squ memory thread calls).2.1
        (callsAlone block.squ memory thread calls).2.2
        (SetQueueAlone.callsAlone queue calls).2 := by
  induction calls generalizing memory thread queue with
  | nil => exact ⟨rfl, h⟩
  | cons call calls ih =>
    simp only [SetQueueAlone.callsAlone, List.mem_cons, not_or] at hreturns
    obtain ⟨hanswer, hfirst⟩ := h.run_call hstep (Ne.symm hreturns.1)
    obtain ⟨hanswers, hlast⟩ := ih hfirst hreturns.2
    exact ⟨congrArg₂ List.cons hanswer hanswers, hlast⟩

/-- The ring that the macros read is that of the queue. -/
theorem Beside.ringItems_eq (h : Beside block start locals items memory thread queue) :
    (queueAt memory block.squ).ringItems = queue.ringItems := by
  obtain ⟨history, habreast⟩ := h
  obtain ⟨hhead, htail, -⟩ := run_inBounds block.positive habreast.run'
  exact habreast.related.represents.ringItems_eq hhead htail

/-- One queue has one memory. -/
theorem Beside.memory_eq {memory' : ByteMemory} {thread' : BlockThread}
    (h : Beside block start locals items memory thread queue)
    (h' : Beside block start locals items memory' thread' queue) : memory' = memory := by
  obtain ⟨history, habreast⟩ := h
  obtain ⟨history', habreast'⟩ := h'
  exact habreast.related.represents.memory_unique habreast'.related.represents fun i hout ↦
    (habreast'.related.frame i hout).trans (habreast.related.frame i hout).symm

end Beside

/-! ### The queue as a first-in-first-out queue -/

section Fifo

variable {length squ : ℕ} {malloc : ℕ → Option ℕ} {memory start : ByteMemory}

/-- A thread that has not called yet is beside one on an empty queue, which answers every call. -/
theorem beside_created (hmalloc : Allocates malloc) (hlength : 2 ≤ length)
    (hsize : setQueueSize length < 2 ^ 64)
    (hcreate : mcmpSetQueueCreate malloc memory length = .ok (squ, start)) (locals : BlockThread) :
    ∃ (block : Block) (items : ℕ → ℕ), block.squ = squ ∧ block.length = length ∧
      InStep (blockMachine squ) queueMachine (initially start fun _ : Unit ↦ locals)
        (SetQueue.initially Unit (emptyQueue length items)) (Matching block start) ∧
      ∀ calls, (callsAlone squ start (locals.at .idle) calls).1 =
          (SetQueueAlone.callsAlone (emptyQueue length items) calls).1 ∧
        Beside block start locals items (callsAlone squ start (locals.at .idle) calls).2.1
          (callsAlone squ start (locals.at .idle) calls).2.2
          (SetQueueAlone.callsAlone (emptyQueue length items) calls).2 := by
  obtain ⟨block, items, rfl, rfl, hstep⟩ :=
    created_inStep hmalloc (by omega) hsize hcreate fun _ : Unit ↦ locals
  refine ⟨block, items, rfl, rfl, hstep, fun calls ↦ ?_⟩
  refine Beside.run_calls hstep calls ⟨[], .start, .start, hstep.start⟩ ?_
  rw [(callsAlone_eq_fifo hlength items calls).1]
  simp

/-- One thread that uses a queue of a length from two on, in the block that was created for it, gets
from every list of calls the answers of a first-in-first-out queue without duplicates that has room
for one index less. No call asks for a retry, and a call that is not answered with success leaves
every byte of the memory as it was. -/
theorem mcmpSetQueue_eq_fifo (hmalloc : Allocates malloc) (hlength : 2 ≤ length)
    (hsize : setQueueSize length < 2 ^ 64)
    (hcreate : mcmpSetQueueCreate malloc memory length = .ok (squ, start)) (locals : BlockThread)
    (calls : List QueueCall) :
    (callsAlone squ start (locals.at .idle) calls).1 =
        (fifoCalls (BoundedFifo.empty : BoundedFifo ℕ (length - 1)) calls).1.map some ∧
      (∀ result ∈ (callsAlone squ start (locals.at .idle) calls).1, ∀ ind,
        result ≠ some (.retryop, ind)) ∧
      ∀ call, (∀ ind, (callAfter squ start (locals.at .idle) calls call).1 ≠ some (.success, ind)) →
        (callAfter squ start (locals.at .idle) calls call).2.1 =
          (callsAlone squ start (locals.at .idle) calls).2.1 := by
  obtain ⟨block, items, rfl, rfl, hstep, hcalls⟩ :=
    beside_created hmalloc hlength hsize hcreate locals
  obtain ⟨hanswers, hretry, hfailed⟩ := callsAlone_eq_fifo hlength items calls
  obtain ⟨hsame, hbeside⟩ := hcalls calls
  refine ⟨hsame.trans hanswers, hsame ▸ hretry, fun call hfails ↦ ?_⟩
  obtain ⟨hanswer, hbeside'⟩ := hbeside.run_call hstep (callAlone_returns hlength items calls call)
  rw [hfailed call fun ind ↦ hanswer ▸ hfails ind] at hbeside'
  exact hbeside.memory_eq hbeside'

/-- A queue of length two over bytes that are all 57 is filled, emptied and refilled: its one free
cell goes once round the ring. -/
theorem mcmpSetQueue_eq_fifo_wrapping :
    (callsAlone 4096 (freshBlock 2 57#8) (idleThreads ())
        [.push 1, .push 0, .take, .push 0, .push 0, .take, .take]).1 =
      [some (.success, none), some (.overflow, none), some (.success, some 1),
        some (.success, none), some (.alrop, none), some (.success, some 0),
        some (.isempty, none)] :=
  (@mcmpSetQueue_eq_fifo 2 4096 onePage (fun _ ↦ 57#8) _ onePage_allocates (by omega) (by decide)
    rfl (idleThreads ()) _).1.trans (by decide)

/-- When the size of the block has wrapped, a Take delivers index one after a Push of index zero. -/
theorem not_mcmpSetQueue_eq_fifo :
    ¬ ∀ (malloc : ℕ → Option ℕ) (memory start : ByteMemory) (length squ : ℕ), Allocates malloc →
      2 ≤ length → length < 2 ^ 64 →
      mcmpSetQueueCreate malloc memory length = .ok (squ, start) →
      ∀ (locals : BlockThread) (calls : List QueueCall),
        (callsAlone squ start (locals.at .idle) calls).1 =
          (fifoCalls (BoundedFifo.empty : BoundedFifo ℕ (length - 1)) calls).1.map some := by
  intro hclaim
  have hcalls := hclaim onePage (fun _ ↦ 0#8) (freshBlock (2 ^ 64 - 1) 0#8) (2 ^ 64 - 1) 4096
    onePage_allocates (by omega) (by omega) rfl (idleThreads ()) [.push 0, .take]
  exact absurd hcalls (by decide +kernel)

/-- After any calls of one thread on a queue of a length from two on, a Push of an admissible index
that is not queued returns success when fewer than `length - 1` indices are queued, and overflow
when the queue has no more room. After a Push that returned success the next Take delivers an
index. -/
theorem mcmpSetQueuePush_room (hmalloc : Allocates malloc) (hlength : 2 ≤ length)
    (hsize : setQueueSize length < 2 ^ 64)
    (hcreate : mcmpSetQueueCreate malloc memory length = .ok (squ, start)) (locals : BlockThread)
    (calls : List QueueCall) (ind : ℕ) :
    (ind < length →
      ind ∉ (queueAt (callsAlone squ start (locals.at .idle) calls).2.1 squ).ringItems →
      (callAfter squ start (locals.at .idle) calls (.push ind)).1 =
        some (if (queueAt (callsAlone squ start (locals.at .idle) calls).2.1 squ).ringItems.length <
          length - 1 then .success else .overflow, none)) ∧
      ∀ pushes : List QueueCall, (∀ call ∈ pushes, ∃ other, call = .push other) →
        (callAfter squ start (locals.at .idle) calls (.push ind)).1 = some (.success, none) →
        ∃ taken, (callAfter squ start (locals.at .idle) (calls ++ .push ind :: pushes) .take).1 =
          some (.success, some taken) := by
  obtain ⟨block, items, rfl, rfl, hstep, hcalls⟩ :=
    beside_created hmalloc hlength hsize hcreate locals
  have hanswered : ∀ calls call, (callAfter block.squ start (locals.at .idle) calls call).1 =
        (SetQueueAlone.callAlone
          (SetQueueAlone.callsAlone (emptyQueue block.length items) calls).2 call).1 :=
    fun calls call ↦
      ((hcalls calls).2.run_call hstep (callAlone_returns hlength items calls call)).1
  obtain ⟨hroom, htaken⟩ := @callAlone_push_room block.length hlength items _ rfl calls ind
  rw [hanswered, (hcalls calls).2.ringItems_eq]
  refine ⟨hroom, fun pushes hpushes hsuccess ↦ ?_⟩
  obtain ⟨taken, htake⟩ := htaken pushes hpushes hsuccess
  exact ⟨taken, (hanswered _ _).trans htake⟩

/-- A queue of length two takes index zero, then refuses index one, and delivers zero. -/
theorem mcmpSetQueuePush_room_one_cell :
    (callAfter 4096 (freshBlock 2 57#8) (idleThreads ()) [.push 0] (.push 1)).1 =
        some (.overflow, none) ∧
      ∃ taken, (callAfter 4096 (freshBlock 2 57#8) (idleThreads ()) [.push 0] .take).1 =
        some (.success, some taken) := by
  have hroom := @mcmpSetQueuePush_room 2 4096 onePage (fun _ ↦ 57#8) _ onePage_allocates (by omega)
    (by decide) rfl (idleThreads ())
  exact ⟨(hroom [.push 0] 1).1 (by decide) (by decide +kernel),
    (hroom [] 0).2 [] (by simp) (by decide +kernel)⟩

/-- A queue of length two does not have room for both admissible indices. -/
theorem not_mcmpSetQueuePush_success :
    ¬ ∀ (malloc : ℕ → Option ℕ) (memory start : ByteMemory) (length squ : ℕ), Allocates malloc →
      1 ≤ length → setQueueSize length < 2 ^ 64 →
      mcmpSetQueueCreate malloc memory length = .ok (squ, start) →
      ∀ (locals : BlockThread) (calls : List QueueCall) (ind : ℕ), ind < length →
        ind ∉ (queueAt (callsAlone squ start (locals.at .idle) calls).2.1 squ).ringItems →
        (callAfter squ start (locals.at .idle) calls (.push ind)).1 = some (.success, none) := by
  intro hclaim
  have hpush := hclaim onePage (fun _ ↦ 57#8) (freshBlock 2 57#8) 2 4096 onePage_allocates
    (by omega) (by decide) rfl (idleThreads ()) [.push 0] 1 (by decide) (by decide +kernel)
  exact absurd hpush (by decide +kernel)

end Fifo

end Mcmp.Utilities.SetQueueBlockAlone
