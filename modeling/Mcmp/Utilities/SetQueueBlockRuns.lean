import Mcmp.Utilities.SetQueueBlock
import Mcmp.Utilities.SetQueuePair

/-!
# The promises of a set queue in its block

What the users of a set queue can rely on, stated of the bytes of its block as the macros read them
(`queueAt`). The block goes in lockstep with the queue without addresses, so the promises of that
queue are its own, as long as the size that `mcmpSetQueueCreate` asks for has not wrapped.

When it has, the block is too small, and it may have no room for the bitmaps at all. The bitmaps of
a queue for `2 ^ 64 - 1` indices have no byte, and so the membership bits, the ready bits and the
items are the same bytes: a Take delivers an index that was never pushed.
-/

set_option autoImplicit false
set_option relaxedAutoImplicit false

namespace Mcmp.Utilities.SetQueueBlockRuns

open Foundation.ByteBits Foundation.CyclicRange Foundation.Interleaving Foundation.Lockstep
  Foundation.WordMemory SetQueue SetQueueBlock SetQueuePair SetQueueProtocol
open SetQueueShared (revalidates mayRollBack RingHoldsPending AlropKept revalidated_consistent
  revalidated_ringHoldsPending revalidated_alropKept)

/-! ### The ring and the bytes of the block -/

section Reading

variable {block : Block} {memory : ByteMemory} {queue : McmpSetQueue}
  {history : List (ℕ × QueueEvent)}

/-- A step revalidates in the block exactly if it does on the queue. -/
theorem revalidates_queueAt_iff (hrep : Represents block memory queue)
    (hhead : queue.head < block.length) (htail : queue.tail < block.length) (event : QueueEvent) :
    revalidates (queueAt memory block.squ) event ↔ revalidates queue event := by
  have hheadAt : (queueAt memory block.squ).head = queue.head := hrep.head
  have htailAt : (queueAt memory block.squ).tail = queue.tail := hrep.tail
  cases event with
  | reserved index ind =>
    simp only [revalidates, hrep.length_queueAt, hheadAt, htailAt, hrep.bit_ready hhead]
  | removed index => simp only [revalidates, hheadAt, htailAt, hrep.bit_ready htail]
  | _ => exact Iff.rfl

variable {ι : Type*} {history : List (ι × QueueEvent)}

/-- What the queue promises when no call is in progress is promised by the bytes of the block. -/
theorem ringHoldsPending_queueAt (hrep : Represents block memory queue)
    (hhead : queue.head < block.length) (htail : queue.tail < block.length)
    (hitems : ∀ ind ∈ queue.ringItems, ind < block.length)
    (hholds : RingHoldsPending history queue) :
    RingHoldsPending history (queueAt memory block.squ) := by
  have hring := hrep.ringItems_eq hhead htail
  have hbytes : (queueAt memory block.squ).byteslength = block.bytes := hrep.byteslength
  refine ⟨?_, ?_, fun index hindex ↦ ?_, fun ind hind ↦ ?_, fun ind hind hset ↦ ?_, ?_⟩
  · rw [hring]
    exact hholds.pending_iff
  · rw [hring]
    exact hholds.nodup
  · have hcell : index ∈ cells queue.length queue.tail queue.head := hrep.cells_eq ▸ hindex
    rw [hrep.bit_ready (lt_of_mem_cells htail hhead (hrep.queueLength ▸ hcell))]
    exact hholds.ready index hcell
  · rw [hring] at hind
    have hlt := Block.div_lt_bytes (hitems ind hind)
    rw [hrep.bit_values (by omega)]
    exact hholds.member ind hind
  · rw [hbytes] at hind
    rw [hrep.bit_values hind] at hset
    rw [hring]
    exact hholds.of_member ind (hrep.queueBytes ▸ hind) hset
  · rw [hring]
    exact hholds.balanced

/-- The indices in the ring are admissible when its cells are ready. -/
theorem ringItems_lt {length : ℕ} (hwritten : CellsWritten length history queue)
    (hready : ∀ index ∈ (ringOf queue).cells, bit queue.ready index = true) :
    ∀ ind ∈ queue.ringItems, ind < length := by
  intro ind hind
  obtain ⟨index, hindex, rfl⟩ := List.mem_map.mp hind
  obtain ⟨first, hstored⟩ := hwritten.ready (hready index hindex)
  exact (hwritten.stored_lt (hwritten.items hstored)).2

end Reading

/-! ### Revalidated runs -/

section Guards

variable {ι : Type*}

/-- Every step of the run in the block revalidates. -/
def Revalidated (squ : ℕ) : Guard ι ByteMemory BlockThread QueueEvent := fun _ config _ event ↦
  revalidates (queueAt config.shared squ) event

instance (squ : ℕ) (history : List (ι × QueueEvent)) (config : Config ι ByteMemory BlockThread)
    (thread : ι) (event : QueueEvent) : Decidable (Revalidated squ history config thread event) :=
  inferInstanceAs (Decidable (revalidates (queueAt config.shared squ) event))

/-- Every step of the run in the block revalidates, and no membership bit is rolled back after a
Push was answered with it. -/
def RevalidatedKept (squ : ℕ) : Guard ι ByteMemory BlockThread QueueEvent :=
  fun history config thread event ↦
    Revalidated squ history config thread event ∧ mayRollBack history (config.threads thread).call

instance [DecidableEq ι] (squ : ℕ) (history : List (ι × QueueEvent))
    (config : Config ι ByteMemory BlockThread) (thread : ι) (event : QueueEvent) :
    Decidable (RevalidatedKept squ history config thread event) :=
  inferInstanceAs (Decidable (_ ∧ _))

variable [DecidableEq ι] {block : Block} {start : ByteMemory} {items : ℕ → ℕ}
  {history : List (ι × QueueEvent)} {config : Config ι ByteMemory BlockThread}
  {config' : Config ι McmpSetQueue QueueThread} {thread : ι} {event : QueueEvent}

/-- A step that revalidates in the block revalidates on the queue. -/
theorem revalidated_of_matching
    (hrun : QueueRun anyStep (emptyQueue block.length items) history config')
    (hmatching : Matching block start config config')
    (hguard : Revalidated block.squ history config thread event) :
    SetQueueShared.Revalidated history config' thread event := by
  obtain ⟨hhead, htail, -⟩ := run_inBounds block.positive hrun
  exact (revalidates_queueAt_iff hmatching.represents hhead htail event).mp hguard

/-- A step that keeps the promise in the block keeps it on the queue. -/
theorem revalidatedKept_of_matching
    (hrun : QueueRun anyStep (emptyQueue block.length items) history config')
    (hmatching : Matching block start config config')
    (hguard : RevalidatedKept block.squ history config thread event) :
    SetQueueShared.RevalidatedKept history config' thread event :=
  ⟨revalidated_of_matching hrun hmatching hguard.1, hmatching.call thread ▸ hguard.2⟩

end Guards

section Promises

variable {ι : Type*} [DecidableEq ι] {length squ : ℕ} {malloc : ℕ → Option ℕ}
  {memory start : ByteMemory} {locals : ι → BlockThread} {history : List (ι × QueueEvent)}
  {config : Config ι ByteMemory BlockThread}

/-- In every state of a revalidated run in which no call is in progress, the ring holds exactly the
indices that were accepted and not delivered since. When a Take of a revalidated run is about to
return that the queue is empty and the tail that it loaded is still the tail, nothing is pending but
what other threads have removed from the ring and are about to read. -/
theorem mcmpSetQueue_ringHoldsPending (hmalloc : Allocates malloc) (hlength : 1 ≤ length)
    (hsize : setQueueSize length < 2 ^ 64)
    (hcreate : mcmpSetQueueCreate malloc memory length = .ok (squ, start))
    (hrun : BlockRun (Revalidated squ) squ start locals history config) :
    ((∀ thread, (config.threads thread).call = .idle) →
        RingHoldsPending history (queueAt config.shared squ)) ∧
      ∀ thread memory' thread',
        (config.threads thread).call = .take (.loadHead (queueAt config.shared squ).tail) →
        (blockMachine squ).program config.shared (config.threads thread)
          (.takeReturned none .isempty) memory' thread' →
        ∀ ind, Pending history ind → ∃ other index,
          (config.threads other).call = .take (.readItem index) ∧
            (queueAt config.shared squ).items index = ind := by
  obtain ⟨block, items, rfl, rfl, hstep⟩ := created_inStep hmalloc hlength hsize hcreate locals
  obtain ⟨config', hrun', hmatching⟩ := hstep.forward_guard SetQueueShared.Revalidated
    (fun _ _ _ _ _ ↦ revalidated_of_matching) hrun
  have hany : QueueRun anyStep (emptyQueue block.length items) history config' :=
    hrun'.mono fun _ _ _ _ _ ↦ trivial
  have hrep := hmatching.represents
  obtain ⟨hhead, htail, hbounds⟩ := run_inBounds hlength hany
  obtain ⟨hquiet, hempty⟩ := revalidated_ringHoldsPending hlength hrun'
  constructor
  · intro hidle
    have hholds := hquiet fun thread ↦ (hmatching.call thread).symm.trans (hidle thread)
    exact ringHoldsPending_queueAt hrep hhead htail
      (ringItems_lt (run_cellsWritten hlength hany).1 hholds.ready) hholds
  · intro thread memory' thread' hthread hprogram ind hind
    obtain ⟨queue', own', hprogram', -⟩ :=
      hstep.program_step (hrun.mono fun _ _ _ _ _ ↦ trivial) hany hmatching hprogram
    have htailAt : (queueAt config.shared block.squ).tail = config'.shared.tail := hrep.tail
    rw [hmatching.call thread, htailAt] at hthread
    obtain ⟨other, index, hother, hitem⟩ := hempty thread queue' own' hthread hprogram' ind hind
    have hindex := hbounds other
    rw [hother] at hindex
    exact ⟨other, index, (hmatching.call other).trans hother,
      (hrep.items_queueAt hindex).trans hitem⟩

/-- A run of two threads that revalidates: index one is pushed and taken and index zero is pushed
into the next cell. -/
theorem mcmpSetQueue_ringHoldsPending_push_take_push :
    ∃ (history : List (Fin 2 × QueueEvent)) (config : Config (Fin 2) ByteMemory BlockThread),
      BlockRun (Revalidated 4096) 4096 (freshBlock 2 57#8) idleThreads history config ∧
        (queueAt config.shared 4096).ringItems = [0] ∧
        RingHoldsPending history (queueAt config.shared 4096) := by
  obtain ⟨history, config, hrun, hview⟩ := exists_run_of_play_view (blockMachine 4096)
    (Revalidated 4096) (initially (freshBlock 2 57#8) (idleThreads : Fin 2 → BlockThread))
    [runCall 0 (.push 1) 8, runCall 1 .take 9, runCall 0 (.push 0) 8].flatten
    (fun _ config ↦ ((queueAt config.shared 4096).ringItems, (config.threads 0).call,
      (config.threads 1).call))
    ([0], .idle, .idle) (by decide +kernel)
  obtain ⟨hitems, hzero, hone⟩ : _ ∧ _ ∧ _ := by simpa only [Prod.mk.injEq] using hview
  refine ⟨history, config, hrun, hitems, ?_⟩
  exact (@mcmpSetQueue_ringHoldsPending _ _ 2 4096 onePage (fun _ ↦ 57#8) _ _ _ _ onePage_allocates
    (by omega) (by decide) rfl hrun).1 (Fin.forall_fin_two.mpr ⟨hzero, hone⟩)

/-- A property of the history and the ring holds whenever no call is in progress in a run of two
threads that meets a guard, on a queue that was created for any length from two on that meets a
condition. -/
def HoldsWhenQuiet (condition : ℕ → Prop)
    (guard : ℕ → Guard (Fin 2) ByteMemory BlockThread QueueEvent)
    (property : List (Fin 2 × QueueEvent) → McmpSetQueue → Prop) : Prop :=
  ∀ (malloc : ℕ → Option ℕ) (memory start : ByteMemory) (length squ : ℕ)
    (locals : Fin 2 → BlockThread), Allocates malloc → 2 ≤ length → condition length →
    mcmpSetQueueCreate malloc memory length = .ok (squ, start) →
    ∀ history config, BlockRun (guard squ) squ start locals history config →
      (∀ thread, (config.threads thread).call = .idle) →
        property history (queueAt config.shared squ)

/-- Without revalidation the head can run over the tail. One Push has reserved cell zero and not
published it. Another Push reserves cell one although the cell after it is the tail, because that
cell is not ready, and the head is the tail again. Both are accepted and the ring is empty. And when
the size of the block has wrapped, the item that a Push stores clears its membership bit. -/
theorem not_mcmpSetQueue_ringHoldsPending :
    ¬ HoldsWhenQuiet (setQueueSize · < 2 ^ 64) (fun _ ↦ anyStep) RingHoldsPending ∧
      ¬ HoldsWhenQuiet (· < 2 ^ 64) Revalidated RingHoldsPending := by
  constructor
  · intro hclaim
    obtain ⟨history, config, hrun, hview⟩ := exists_run_of_play_view (blockMachine 4096) anyStep
      (initially (freshBlock 2 57#8) (idleThreads : Fin 2 → BlockThread))
      [runCall 0 (.push 0) 5, runCall 1 (.push 1) 9, goOn 0 3].flatten
      (fun history config ↦ (decide (Since history (fun _ event ↦ accepts 1 event = true)
          fun _ event ↦ delivers 1 event = true),
        (queueAt config.shared 4096).ringItems, (config.threads 0).call, (config.threads 1).call))
      (true, [], .idle, .idle) (by decide +kernel)
    obtain ⟨hpending, hitems, hzero, hone⟩ : _ ∧ _ ∧ _ ∧ _ := by
      simpa only [Prod.mk.injEq] using hview
    have hholds := hclaim onePage (fun _ ↦ 57#8) _ 2 4096 _ onePage_allocates (by omega) (by decide)
      rfl history config hrun (Fin.forall_fin_two.mpr ⟨hzero, hone⟩)
    have hone' : Pending history 1 := by
      unfold Pending
      exact of_decide_eq_true hpending
    have hmem := (hholds.pending_iff 1).mp hone'
    simp [hitems] at hmem
  · intro hclaim
    obtain ⟨history, config, hrun, hview⟩ := exists_run_of_play_view (blockMachine 4096)
      (Revalidated 4096)
      (initially (freshBlock (2 ^ 64 - 1) 0#8) (idleThreads : Fin 2 → BlockThread))
      (runCall 0 (.push 1) 8)
      (fun _ config ↦ (bit (queueAt config.shared 4096).values 1,
        (queueAt config.shared 4096).ringItems, (config.threads 0).call, (config.threads 1).call))
      (false, [1], .idle, .idle) (by decide +kernel)
    obtain ⟨hclear, hitems, hzero, hone⟩ : _ ∧ _ ∧ _ ∧ _ := by
      simpa only [Prod.mk.injEq] using hview
    have hholds := hclaim onePage (fun _ ↦ 0#8) _ (2 ^ 64 - 1) 4096 _ onePage_allocates (by omega)
      (by omega) rfl history config hrun (Fin.forall_fin_two.mpr ⟨hzero, hone⟩)
    have hset := hholds.member 1 (by simp [hitems])
    simp [hclear] at hset

/-- In every state in which no call is in progress of a revalidated run that rolls back no
membership bit after a Push was answered with it, every index whose Push was answered that it is
queued already has been delivered since or is in the ring. -/
theorem mcmpSetQueue_alropKept (hmalloc : Allocates malloc) (hlength : 1 ≤ length)
    (hsize : setQueueSize length < 2 ^ 64)
    (hcreate : mcmpSetQueueCreate malloc memory length = .ok (squ, start))
    (hrun : BlockRun (RevalidatedKept squ) squ start locals history config)
    (hidle : ∀ thread, (config.threads thread).call = .idle) :
    AlropKept history (queueAt config.shared squ) := by
  obtain ⟨block, items, rfl, rfl, hstep⟩ := created_inStep hmalloc hlength hsize hcreate locals
  obtain ⟨config', hrun', hmatching⟩ := hstep.forward_guard SetQueueShared.RevalidatedKept
    (fun _ _ _ _ _ ↦ revalidatedKept_of_matching) hrun
  obtain ⟨hhead, htail, -⟩ :=
    run_inBounds hlength (hrun'.mono fun _ _ _ _ _ ↦ trivial)
  have hkept := revalidated_alropKept hlength hrun' fun thread ↦
    (hmatching.call thread).symm.trans (hidle thread)
  intro before thread ind after hhistory
  rw [hmatching.represents.ringItems_eq hhead htail]
  exact hkept before thread ind after hhistory

/-- A run of two threads that keeps the promise: index one is pushed, and a Push of it by the other
thread is answered that it is queued already. -/
theorem mcmpSetQueue_alropKept_pushed_twice :
    ∃ (history : List (Fin 2 × QueueEvent)) (config : Config (Fin 2) ByteMemory BlockThread),
      BlockRun (RevalidatedKept 4096) 4096 (freshBlock 2 57#8) idleThreads history config ∧
        (1, .pushReturned 1 .alrop) ∈ history ∧
        AlropKept history (queueAt config.shared 4096) := by
  obtain ⟨history, config, hrun, hview⟩ := exists_run_of_play_view (blockMachine 4096)
    (RevalidatedKept 4096) (initially (freshBlock 2 57#8) (idleThreads : Fin 2 → BlockThread))
    [runCall 0 (.push 1) 8, runCall 1 (.push 1) 1].flatten
    (fun history config ↦ (decide ((1, .pushReturned 1 .alrop) ∈ history),
      (config.threads 0).call, (config.threads 1).call))
    (true, .idle, .idle) (by decide +kernel)
  obtain ⟨hanswered, hzero, hone⟩ : _ ∧ _ ∧ _ := by simpa only [Prod.mk.injEq] using hview
  refine ⟨history, config, hrun, of_decide_eq_true hanswered, ?_⟩
  exact @mcmpSetQueue_alropKept _ _ 2 4096 onePage (fun _ ↦ 57#8) _ _ _ _ onePage_allocates
    (by omega) (by decide) rfl hrun (Fin.forall_fin_two.mpr ⟨hzero, hone⟩)

/-- The answer can be wrong. The ring of the queue of length two is full, and a Push of index one
has claimed its membership bit and is about to find that out. Another Push of index one is answered
that it is queued already, and then the first one rolls the bit back. And when the size of the block
has wrapped, the item that a Push of index one stores is the membership bit of index zero. -/
theorem not_mcmpSetQueue_alropKept :
    ¬ HoldsWhenQuiet (setQueueSize · < 2 ^ 64) (fun _ ↦ anyStep) AlropKept ∧
      ¬ HoldsWhenQuiet (· < 2 ^ 64) RevalidatedKept AlropKept := by
  constructor
  · intro hclaim
    obtain ⟨config, hrun, hview⟩ := exists_run_of_play (blockMachine 4096) anyStep
      (initially (freshBlock 2 57#8) (idleThreads : Fin 2 → BlockThread))
      [runCall 0 (.push 0) 8, runCall 0 (.push 1) 5, runCall 1 (.push 1) 1, goOn 0 1].flatten
      (fun config ↦ ((queueAt config.shared 4096).ringItems, (config.threads 0).call,
        (config.threads 1).call))
      (([(0, .called (.push 0)), (0, .accessed), (0, .claimed 0), (0, .accessed), (0, .accessed),
        (0, .reserved 0 0), (0, .stored 0 0), (0, .accessed), (0, .pushReturned 0 .success),
        (0, .called (.push 1)), (0, .accessed), (0, .claimed 1), (0, .accessed), (0, .accessed),
        (0, .accessed), (1, .called (.push 1))] : List (Fin 2 × QueueEvent)) ++
        (1, .pushReturned 1 .alrop) :: [(0, .pushReturned 1 .overflow)])
      ([0], .idle, .idle) (by decide +kernel)
    obtain ⟨hitems, hzero, hone⟩ : _ ∧ _ ∧ _ := by simpa only [Prod.mk.injEq] using hview
    have hkept := hclaim onePage (fun _ ↦ 57#8) _ 2 4096 _ onePage_allocates (by omega) (by decide)
      rfl _ config hrun (Fin.forall_fin_two.mpr ⟨hzero, hone⟩)
    rcases hkept _ 1 1 _ rfl with ⟨who, hwho⟩ | hmem
    · simp at hwho
    · simp [hitems] at hmem
  · intro hclaim
    obtain ⟨config, hrun, hview⟩ := exists_run_of_play (blockMachine 4096) (RevalidatedKept 4096)
      (initially (freshBlock (2 ^ 64 - 1) 0#8) (idleThreads : Fin 2 → BlockThread))
      (runCall 0 (.push 1) 8 ++ runCall 1 (.push 0) 1)
      (fun config ↦ ((queueAt config.shared 4096).ringItems, (config.threads 0).call,
        (config.threads 1).call))
      (([(0, .called (.push 1)), (0, .accessed), (0, .claimed 1), (0, .accessed), (0, .accessed),
        (0, .reserved 0 1), (0, .stored 0 1), (0, .accessed), (0, .pushReturned 1 .success),
        (1, .called (.push 0))] : List (Fin 2 × QueueEvent)) ++
        (1, .pushReturned 0 .alrop) :: [])
      ([1], .idle, .idle) (by decide +kernel)
    obtain ⟨hitems, hzero, hone⟩ : _ ∧ _ ∧ _ := by simpa only [Prod.mk.injEq] using hview
    have hkept := hclaim onePage (fun _ ↦ 0#8) _ (2 ^ 64 - 1) 4096 _ onePage_allocates (by omega)
      (by omega) rfl _ config hrun (Fin.forall_fin_two.mpr ⟨hzero, hone⟩)
    rcases hkept _ 1 0 _ rfl with ⟨who, hwho⟩ | hmem
    · simp at hwho
    · simp [hitems] at hmem

/-- Under every interleaving head and tail are cells, and an index that a Take reads is admissible,
was stored in that cell by a Push before, and has its byte in the bitmap. -/
theorem mcmpSetQueueTake_reads_written (hmalloc : Allocates malloc) (hlength : 1 ≤ length)
    (hsize : setQueueSize length < 2 ^ 64)
    (hcreate : mcmpSetQueueCreate malloc memory length = .ok (squ, start))
    (hrun : BlockRun anyStep squ start locals history config) :
    (queueAt config.shared squ).head < length ∧ (queueAt config.shared squ).tail < length ∧
      ∀ before thread index ind after,
        history = before ++ (thread, .delivered index ind) :: after →
        Stored before index ind ∧ ind < length ∧
          ind / 8 < (queueAt config.shared squ).byteslength := by
  obtain ⟨block, items, rfl, rfl, hstep⟩ := created_inStep hmalloc hlength hsize hcreate locals
  obtain ⟨config', hrun', hmatching⟩ := hstep.forward hrun
  have hrep := hmatching.represents
  have hheadAt : (queueAt config.shared block.squ).head = config'.shared.head := hrep.head
  have htailAt : (queueAt config.shared block.squ).tail = config'.shared.tail := hrep.tail
  have hbytes : (queueAt config.shared block.squ).byteslength = block.bytes := hrep.byteslength
  obtain ⟨hhead, htail, -⟩ := run_inBounds hlength hrun'
  refine ⟨hheadAt ▸ hhead, htailAt ▸ htail, ?_⟩
  rintro before thread index ind after rfl
  obtain ⟨hstored, hind⟩ := delivered_stored hlength hrun'
  exact ⟨hstored, hind, hbytes ▸ Block.div_lt_bytes hind⟩

/-- A Take that begins before the Push of index one has returned reads the index that the Push has
stored. -/
theorem mcmpSetQueueTake_reads_written_overlapping :
    ∃ (before : List (Fin 2 × QueueEvent)) (config : Config (Fin 2) ByteMemory BlockThread),
      BlockRun anyStep 4096 (freshBlock 2 57#8) idleThreads
        (before ++ (1, .delivered 0 1) :: []) config ∧ Stored before 0 1 := by
  obtain ⟨config, hrun, -⟩ := exists_run_of_play (blockMachine 4096) anyStep
    (initially (freshBlock 2 57#8) (idleThreads : Fin 2 → BlockThread))
    [runCall 0 (.push 1) 7, runCall 1 .take 1, goOn 0 1, goOn 1 4].flatten
    (fun config ↦ (config.threads 0).call)
    (([(0, .called (.push 1)), (0, .accessed), (0, .claimed 1), (0, .accessed), (0, .accessed),
      (0, .reserved 0 1), (0, .stored 0 1), (0, .accessed), (1, .called .take), (1, .accessed),
      (0, .pushReturned 1 .success), (1, .accessed), (1, .accessed), (1, .removed 0)] :
        List (Fin 2 × QueueEvent)) ++ (1, .delivered 0 1) :: [])
    .idle (by decide +kernel)
  exact ⟨_, config, hrun, ((@mcmpSetQueueTake_reads_written _ _ 2 4096 onePage (fun _ ↦ 57#8) _ _ _
    _ onePage_allocates (by omega) (by decide) rfl hrun).2.2 _ 1 0 1 _ rfl).1⟩

/-- When the size of the block has wrapped, the ready bit that a Push sets changes the item that it
has stored, and a Take reads an index that no Push has stored. -/
theorem not_mcmpSetQueueTake_reads_written :
    ¬ ∀ (malloc : ℕ → Option ℕ) (memory start : ByteMemory) (length squ : ℕ)
      (locals : Fin 2 → BlockThread), Allocates malloc → 1 ≤ length → length < 2 ^ 64 →
      mcmpSetQueueCreate malloc memory length = .ok (squ, start) →
      ∀ history config, BlockRun anyStep squ start locals history config →
        (queueAt config.shared squ).head < length ∧ (queueAt config.shared squ).tail < length ∧
          ∀ before thread index ind after,
            history = before ++ (thread, .delivered index ind) :: after →
            Stored before index ind ∧ ind < length ∧
              ind / 8 < (queueAt config.shared squ).byteslength := by
  intro hclaim
  obtain ⟨config, hrun, -⟩ := exists_run_of_play (blockMachine 4096) anyStep
    (initially (freshBlock (2 ^ 64 - 1) 0#8) (idleThreads : Fin 2 → BlockThread))
    (runCall 0 (.push 0) 8 ++ runCall 1 .take 5)
    (fun config ↦ (config.threads 0).call)
    (([(0, .called (.push 0)), (0, .accessed), (0, .claimed 0), (0, .accessed), (0, .accessed),
      (0, .reserved 0 0), (0, .stored 0 0), (0, .accessed), (0, .pushReturned 0 .success),
      (1, .called .take), (1, .accessed), (1, .accessed), (1, .accessed), (1, .removed 0)] :
        List (Fin 2 × QueueEvent)) ++ (1, .delivered 0 1) :: [])
    .idle (by decide +kernel)
  obtain ⟨⟨who, hmem⟩, -⟩ := (hclaim onePage (fun _ ↦ 0#8) _ (2 ^ 64 - 1) 4096 _ onePage_allocates
    (by omega) (by omega) rfl _ config hrun).2.2 _ 1 0 1 _ rfl
  simp at hmem

end Promises

/-! ### One producer and one consumer -/

/-- What a run of one producer and one consumer in a block guarantees: the order of its history; a
step that moves no element leaves head, tail, the ready bits and the items as they were; and when no
call is in progress the ring holds the accepted indices that are left to deliver, and they are the
members. -/
structure PairContract (squ : ℕ) (history : List (Side × QueueEvent))
    (config : Config Side ByteMemory BlockThread) : Prop extends PairOrder history where
  frame : ∀ side event memory' thread', movesElement event = false →
    (blockMachine squ).program config.shared (config.threads side) event memory' thread' →
      (queueAt memory' squ).head = (queueAt config.shared squ).head ∧
        (queueAt memory' squ).tail = (queueAt config.shared squ).tail ∧
        (∀ i < (queueAt config.shared squ).byteslength,
          (queueAt memory' squ).ready i = (queueAt config.shared squ).ready i) ∧
        ∀ index < (queueAt config.shared squ).length,
          (queueAt memory' squ).items index = (queueAt config.shared squ).items index
  quiet : (∀ side, (config.threads side).call = .idle) →
    inds acceptedInd history =
        inds deliveredInd history ++ (queueAt config.shared squ).ringItems ∧
      (queueAt config.shared squ).ringItems.Nodup ∧
      (∀ ind ∈ (queueAt config.shared squ).ringItems,
        bit (queueAt config.shared squ).values ind = true) ∧
      ∀ ind < 8 * (queueAt config.shared squ).byteslength,
        bit (queueAt config.shared squ).values ind = true →
          ind ∈ (queueAt config.shared squ).ringItems

section Pair

variable {length squ : ℕ} {malloc : ℕ → Option ℕ} {memory start : ByteMemory}
  {locals : Side → BlockThread} {history : List (Side × QueueEvent)}
  {config : Config Side ByteMemory BlockThread}

/-- One producer and one consumer of a queue of any length from two on can rely on the contract
under every interleaving. -/
theorem mcmpSetQueue_pairContract (hmalloc : Allocates malloc) (hlength : 2 ≤ length)
    (hsize : setQueueSize length < 2 ^ 64)
    (hcreate : mcmpSetQueueCreate malloc memory length = .ok (squ, start))
    (hrun : BlockRun Paired squ start locals history config) : PairContract squ history config := by
  obtain ⟨block, items, rfl, rfl, hstep⟩ :=
    created_inStep hmalloc (by omega) hsize hcreate locals
  obtain ⟨config', hrun', hmatching⟩ := hstep.forward_guard Paired
    (fun _ _ _ _ _ _ _ hguard ↦ hguard) hrun
  have hrep := hmatching.represents
  have hbytes : (queueAt config.shared block.squ).byteslength = block.bytes := hrep.byteslength
  have hlen : (queueAt config.shared block.squ).length = block.length := hrep.length
  obtain ⟨hhead, htail, -⟩ :=
    run_inBounds (by omega) (hrun'.mono fun _ _ _ _ _ ↦ trivial)
  refine ⟨paired_order hlength hrun', fun side event memory' thread' hmoves hprogram ↦ ?_,
    fun hidle ↦ ?_⟩
  · obtain ⟨queue', own', hprogram', hmatching'⟩ :=
      hstep.program_step (hrun.mono fun _ _ _ _ _ ↦ trivial)
        (hrun'.mono fun _ _ _ _ _ ↦ trivial) hmatching hprogram
    have hrep' : Represents block memory' queue' := hmatching'.represents
    obtain ⟨hhead, htail, hready, hitems⟩ :=
      frame_of_not_movesElement (run_queueStep hrun' hprogram') hmoves
    refine ⟨?_, ?_, fun i hi ↦ ?_, fun index hindex ↦ ?_⟩
    · exact hrep'.head.trans (hhead.trans hrep.head.symm)
    · exact hrep'.tail.trans (htail.trans hrep.tail.symm)
    · rw [hbytes] at hi
      rw [hrep'.ready_queueAt hi, hrep.ready_queueAt hi, hready]
    · rw [hlen] at hindex
      rw [hrep'.items_queueAt hindex, hrep.items_queueAt hindex, hitems]
  · obtain ⟨haccepted, hready, hnodup, hmembers⟩ := paired_quiet hlength hrun' fun side ↦
      (hmatching.call side).symm.trans (hidle side)
    have hlt := ringItems_lt (run_cellsWritten (by omega) hrun').1 hready
    rw [hrep.ringItems_eq hhead htail, hbytes]
    refine ⟨haccepted, hnodup, fun ind hind ↦ ?_, fun ind hind hset ↦ ?_⟩
    · have hdiv := Block.div_lt_bytes (hlt ind hind)
      rw [hrep.bit_values (by omega)]
      exact (hmembers ind).mpr hind
    · rw [hrep.bit_values hind] at hset
      exact (hmembers ind).mp hset

/-- The producer pushes index one while the consumer takes; the consumer takes once more and is told
that the queue is empty. -/
theorem mcmpSetQueue_pairContract_overlapping :
    ∃ (history : List (Side × QueueEvent)) (config : Config Side ByteMemory BlockThread),
      BlockRun Paired 4096 (freshBlock 2 57#8) idleThreads history config ∧
        inds deliveredInd history = [1] ∧
        (.consumer, .takeReturned none .isempty) ∈ history ∧
        PairContract 4096 history config := by
  obtain ⟨history, config, hrun, hview⟩ := exists_run_of_play_view (blockMachine 4096) Paired
    (initially (freshBlock 2 57#8) (idleThreads : Side → BlockThread))
    [runCall .producer (.push 1) 0, runCall .consumer .take 0, goOn .producer 6, goOn .consumer 2,
      goOn .producer 2, goOn .consumer 7, runCall .consumer .take 2].flatten
    (fun history _ ↦ (inds deliveredInd history,
      decide ((.consumer, .takeReturned none .isempty) ∈ history)))
    ([1], true) (by decide +kernel)
  obtain ⟨hdelivered, hempty⟩ := Prod.mk.inj hview
  exact ⟨history, config, hrun, hdelivered, of_decide_eq_true hempty,
    @mcmpSetQueue_pairContract 2 4096 onePage (fun _ ↦ 57#8) _ _ _ _ onePage_allocates (by omega)
      (by decide) rfl hrun⟩

/-- When the size of the block has wrapped, the producer pushes index zero and the consumer gets
index one. -/
theorem not_mcmpSetQueue_pairContract :
    ¬ ∀ (malloc : ℕ → Option ℕ) (memory start : ByteMemory) (length squ : ℕ)
      (locals : Side → BlockThread), Allocates malloc → 2 ≤ length → length < 2 ^ 64 →
      mcmpSetQueueCreate malloc memory length = .ok (squ, start) →
      ∀ history config, BlockRun Paired squ start locals history config →
        PairContract squ history config := by
  intro hclaim
  obtain ⟨history, config, hrun, hview⟩ := exists_run_of_play_view (blockMachine 4096) Paired
    (initially (freshBlock (2 ^ 64 - 1) 0#8) (idleThreads : Side → BlockThread))
    (runCall .producer (.push 0) 8 ++ runCall .consumer .take 5)
    (fun history _ ↦ (inds deliveredInd history, inds acceptedInd history))
    ([1], [0]) (by decide +kernel)
  obtain ⟨hdelivered, haccepted⟩ := Prod.mk.inj hview
  have horder := (hclaim onePage (fun _ ↦ 0#8) _ (2 ^ 64 - 1) 4096 _ onePage_allocates (by omega)
    (by omega) rfl history config hrun).order
  rw [hdelivered, haccepted] at horder
  exact absurd horder (by decide)

end Pair

end Mcmp.Utilities.SetQueueBlockRuns
