import Mcmp.Foundation.Lockstep
import Mcmp.Foundation.WordMemory
import Mcmp.Utilities.SetQueue

/-!
# The set queue in its block

setqueue.c once more, over the bytes of the memory. A set queue is one block: a header of 64 bytes
with two sizes, head and tail, the two bitmaps, and the items. The calls get the address of the
block and find everything else from there, through the macros of setqueue.h, which read the length
of the bitmaps out of the header. A call keeps the length of the ring and the addresses of its bytes
of the bitmaps in variables. The steps are those of the queue without addresses, one access each;
nothing in them keeps an access inside of the block.

The block and the queue without addresses go in lockstep: the same commands apply to both, with the
same events (`setQueueBlock_refines`). So what holds of the histories of a set queue holds of those
of its block. Besides, no run changes a byte outside of the block, nor the padding of the header.
-/

set_option autoImplicit false
set_option relaxedAutoImplicit false

namespace Mcmp.Utilities.SetQueueBlock

open Foundation.ByteBits Foundation.CyclicRange Foundation.Interleaving Foundation.Lockstep
  Foundation.WordMemory SetQueue
open AtomicBitmap (mcmpAtomicBitmapIsEnabledBit mcmpAtomicBitmapIsEnabledBit_eq)

/-! ### The block -/

/-- `MCMP_SQU_GET_VALUES_BITMAP`. -/
def getValuesBitmap (squ : ℕ) : ℕ := squ + 64

/-- `MCMP_SQU_GET_READY_BITMAP`. -/
def getReadyBitmap (memory : ByteMemory) (squ : ℕ) : ℕ := getValuesBitmap squ + sizeAt memory squ

/-- `MCMP_SQU_GET_ITEM`. -/
def getItem (memory : ByteMemory) (squ index : ℕ) : ℕ :=
  getReadyBitmap memory squ + sizeAt memory squ + 8 * index

/-- The size that `mcmpSetQueueCreate` asks for. -/
def setQueueRequest (length : ℕ) : ℕ :=
  let byteslength := (length + 7) % 2 ^ 64 / 8
  ((64 + byteslength * 2 % 2 ^ 64) % 2 ^ 64 + 8 * length % 2 ^ 64) % 2 ^ 64

/-- The size of a header, two bitmaps and `length` items. -/
def setQueueSize (length : ℕ) : ℕ := 64 + 2 * ((length + 7) / 8) + 8 * length

theorem setQueueRequest_eq {length : ℕ} (hfits : setQueueSize length < 2 ^ 64) :
    setQueueRequest length = setQueueSize length := by
  unfold setQueueSize at hfits ⊢
  have hround : (length + 7) % 2 ^ 64 = length + 7 := Nat.mod_eq_of_lt (by omega)
  simp only [setQueueRequest, hround]
  omega

/-- Creates a queue in the block that `malloc` returns. -/
def mcmpSetQueueCreate (malloc : ℕ → Option ℕ) (memory : ByteMemory) (length : ℕ) :
    Except Mcmpst (ℕ × ByteMemory) :=
  let byteslength := (length + 7) % 2 ^ 64 / 8
  match malloc (setQueueRequest length) with
  | none => .error .outOfMem
  | some squ =>
    let memory := storeSize memory squ byteslength
    let memory := storeSize memory (squ + 8) length
    let memory := storeSize memory (squ + 16) 0
    let memory := storeSize memory (squ + 24) 0
    .ok (squ, overwrite memory (getValuesBitmap squ) (byteslength * 2 % 2 ^ 64) fun _ ↦ 0#8)

/-- A queue is created in the block of the size asked for, and fails without one. -/
theorem mcmpSetQueueCreate_ok_iff (malloc : ℕ → Option ℕ) (memory : ByteMemory) (length squ : ℕ) :
    (∃ start, mcmpSetQueueCreate malloc memory length = .ok (squ, start)) ↔
      malloc (setQueueRequest length) = some squ := by
  unfold mcmpSetQueueCreate
  cases malloc (setQueueRequest length) with
  | none => simp
  | some address => simp [eq_comm]

/-! ### The calls -/

/-- A thread: where it is in its call, and its variables `bitslength`, `word_set` and
`word_ready`. -/
structure BlockThread where
  call : QueueThread
  bitslength : ℕ
  wordSet : ℕ
  wordReady : ℕ
  deriving DecidableEq, Repr

/-- The thread with its call at another place. -/
def BlockThread.at (thread : BlockThread) (call : QueueThread) : BlockThread :=
  { thread with call := call }

/-- The next step of a Push. -/
def mcmpSetQueuePush (squ : ℕ) (memory : ByteMemory) (thread : BlockThread) (ind : ℕ) :
    PushStage → QueueEvent × ByteMemory × BlockThread
  | .loadHashset =>
    if thread.bitslength ≤ ind then (.pushReturned ind .overflow, memory, thread.at .idle)
    else
      let wordSet := getValuesBitmap squ + ind / 8
      let expected := memory wordSet
      if expected &&& bitMask (ind % 8) ≠ 0 then
        (.pushReturned ind .alrop, memory, thread.at .idle)
      else
        (.accessed, memory,
          { thread with call := .push ind (.claimHashset expected), wordSet := wordSet })
  | .claimHashset expected =>
    if memory thread.wordSet = expected then
      (.claimed ind, Function.update memory thread.wordSet (expected ||| bitMask (ind % 8)),
        thread.at (.push ind .loadTail))
    else (.pushReturned ind .retryop, memory, thread.at .idle)
  | .loadTail =>
    (.accessed, memory, thread.at (.push ind (.loadHead (sizeAt memory (squ + 24)))))
  | .loadHead tail =>
    let index := sizeAt memory (squ + 16)
    let next := (index + 1) % 2 ^ 64 % thread.bitslength
    if next = tail then (.accessed, memory, thread.at (.push ind (.testReady tail index)))
    else (.accessed, memory, thread.at (.push ind (.reserveHead index)))
  | .testReady tail index =>
    if mcmpAtomicBitmapIsEnabledBit (bytesFrom memory (getReadyBitmap memory squ)) tail then
      (.accessed, memory, thread.at (.push ind .rollBack))
    else (.accessed, memory, thread.at (.push ind (.reserveHead index)))
  | .rollBack =>
    (.pushReturned ind .overflow,
      Function.update memory thread.wordSet (memory thread.wordSet &&& ~~~bitMask (ind % 8)),
      thread.at .idle)
  | .reserveHead index =>
    if sizeAt memory (squ + 16) = index then
      (.reserved index ind,
        storeSize memory (squ + 16) ((index + 1) % 2 ^ 64 % thread.bitslength),
        { thread with
          call := .push ind (.storeItem index)
          wordReady := getReadyBitmap memory squ + index / 8 })
    else (.accessed, memory, thread.at (.push ind .loadTail))
  | .storeItem index =>
    (.stored index ind, storeSize memory (getItem memory squ index) ind,
      thread.at (.push ind (.loadReady index)))
  | .loadReady index =>
    (.accessed, memory, thread.at (.push ind (.publishReady index (memory thread.wordReady))))
  | .publishReady index expected =>
    if memory thread.wordReady = expected then
      (.pushReturned ind .success,
        Function.update memory thread.wordReady (expected ||| bitMask (index % 8)),
        thread.at .idle)
    else (.accessed, memory, thread.at (.push ind (.loadReady index)))

/-- The next step of a Take. -/
def mcmpSetQueueTake (squ : ℕ) (memory : ByteMemory) (thread : BlockThread) :
    TakeStage → QueueEvent × ByteMemory × BlockThread
  | .loadTail => (.accessed, memory, thread.at (.take (.loadHead (sizeAt memory (squ + 24)))))
  | .loadHead index =>
    if index = sizeAt memory (squ + 16) then
      (.takeReturned none .isempty, memory, thread.at .idle)
    else
      (.accessed, memory,
        { thread with
          call := .take (.testReady index)
          wordReady := getReadyBitmap memory squ + index / 8 })
  | .testReady index =>
    if memory thread.wordReady &&& bitMask (index % 8) = 0 then
      (.takeReturned none .retryop, memory, thread.at .idle)
    else (.accessed, memory, thread.at (.take (.reserveTail index)))
  | .reserveTail index =>
    if sizeAt memory (squ + 24) = index then
      (.removed index, storeSize memory (squ + 24) ((index + 1) % 2 ^ 64 % thread.bitslength),
        thread.at (.take (.readItem index)))
    else (.accessed, memory, thread.at (.take .loadTail))
  | .readItem index =>
    let ind := sizeAt memory (getItem memory squ index)
    (.delivered index ind, memory,
      { thread with
        call := .take (.loadHashset index ind)
        wordSet := getValuesBitmap squ + ind / 8 })
  | .loadHashset index ind =>
    (.accessed, memory, thread.at (.take (.clearHashset index ind (memory thread.wordSet))))
  | .clearHashset index ind expected =>
    if memory thread.wordSet = expected then
      (.unclaimed ind,
        Function.update memory thread.wordSet (expected &&& ~~~bitMask (ind % 8)),
        thread.at (.take (.loadReady index ind)))
    else (.accessed, memory, thread.at (.take (.loadHashset index ind)))
  | .loadReady index ind =>
    (.accessed, memory, thread.at (.take (.clearReady index ind (memory thread.wordReady))))
  | .clearReady index ind expected =>
    if memory thread.wordReady = expected then
      (.takeReturned (some ind) .success,
        Function.update memory thread.wordReady (expected &&& ~~~bitMask (index % 8)),
        thread.at .idle)
    else (.accessed, memory, thread.at (.take (.loadReady index ind)))

/-- The users of the queue at an address. A call starts with the load of the length. -/
def blockMachine (squ : ℕ) : Machine QueueCommand ByteMemory BlockThread QueueEvent :=
  fun command memory thread ↦
    match command, thread.call with
    | .call call, .idle =>
      some (.called call, memory,
        { thread with call := call.start, bitslength := sizeAt memory (squ + 8) })
    | .advance, .push ind stage => some (mcmpSetQueuePush squ memory thread ind stage)
    | .advance, .take stage => some (mcmpSetQueueTake squ memory thread stage)
    | _, _ => none

/-- The users of the queue at an address before any call. What is in their variables is not
known. -/
def initially {ι : Type*} (memory : ByteMemory) (locals : ι → BlockThread) :
    Config ι ByteMemory BlockThread :=
  ⟨memory, fun thread ↦ (locals thread).at .idle⟩

/-- The runs of any number of threads on the queue at an address under a guard. -/
abbrev BlockRun {ι : Type*} [DecidableEq ι] (guard : Guard ι ByteMemory BlockThread QueueEvent)
    (squ : ℕ) (memory : ByteMemory) (locals : ι → BlockThread) :=
  Run (blockMachine squ).program guard (initially memory locals)

/-! ### What a block represents -/

/-- The queue that is read from the bytes at an address through the macros. -/
def queueAt (memory : ByteMemory) (squ : ℕ) : McmpSetQueue where
  byteslength := sizeAt memory squ
  length := sizeAt memory (squ + 8)
  head := sizeAt memory (squ + 16)
  tail := sizeAt memory (squ + 24)
  values := bytesFrom memory (getValuesBitmap squ)
  ready := bytesFrom memory (getReadyBitmap memory squ)
  items := fun index ↦ sizeAt memory (getItem memory squ index)

/-- Where a queue is and how many indices it has, such that its block ends inside the address
space. -/
structure Block where
  squ : ℕ
  length : ℕ
  positive : 1 ≤ length
  fits : squ + setQueueSize length ≤ 2 ^ 64

/-- The length of a bitmap. -/
def Block.bytes (block : Block) : ℕ := (block.length + 7) / 8

/-- The address of an item. -/
def Block.item (block : Block) (index : ℕ) : ℕ := block.squ + 64 + 2 * block.bytes + 8 * index

/-- The addresses that no call writes: those outside of the block, and the padding of the header. -/
def Block.Outside (block : Block) (i : ℕ) : Prop :=
  i < block.squ ∨ block.squ + setQueueSize block.length ≤ i ∨
    block.squ + 32 ≤ i ∧ i < block.squ + 64

/-- The bytes of a block are those of a queue. -/
structure Represents (block : Block) (memory : ByteMemory) (queue : McmpSetQueue) : Prop where
  byteslength : sizeAt memory block.squ = block.bytes
  length : sizeAt memory (block.squ + 8) = block.length
  head : sizeAt memory (block.squ + 16) = queue.head
  tail : sizeAt memory (block.squ + 24) = queue.tail
  values : ∀ i < block.bytes, memory (block.squ + 64 + i) = queue.values i
  ready : ∀ i < block.bytes, memory (block.squ + 64 + block.bytes + i) = queue.ready i
  items : ∀ i < block.length, sizeAt memory (block.item i) = queue.items i
  queueLength : queue.length = block.length
  queueBytes : queue.byteslength = block.bytes

section Representation

variable {block : Block} {memory : ByteMemory} {queue : McmpSetQueue} {ind index i : ℕ}
  {byte : BitVec 8}

theorem Block.end_le (block : Block) :
    block.squ + 64 + 2 * block.bytes + 8 * block.length ≤ 2 ^ 64 := by
  have hfits := block.fits
  unfold setQueueSize at hfits
  unfold bytes
  omega

theorem Block.length_lt (block : Block) : block.length < 2 ^ 64 := by
  have hend := block.end_le
  omega

/-- The byte of a bit of the queue. -/
theorem Block.div_lt_bytes (hind : ind < block.length) : ind / 8 < block.bytes := by
  unfold bytes
  omega

theorem getReadyBitmap_eq (h : Represents block memory queue) :
    getReadyBitmap memory block.squ = block.squ + 64 + block.bytes := by
  rw [getReadyBitmap, h.byteslength, getValuesBitmap]

theorem getItem_eq (h : Represents block memory queue) (index : ℕ) :
    getItem memory block.squ index = block.item index := by
  rw [getItem, getReadyBitmap_eq h, h.byteslength, Block.item]
  omega

/-- A byte of the first bitmap. -/
theorem Represents.values_queueAt (h : Represents block memory queue) (hi : i < block.bytes) :
    (queueAt memory block.squ).values i = queue.values i :=
  h.values i hi

/-- A byte of the second bitmap. -/
theorem Represents.ready_queueAt (h : Represents block memory queue) (hi : i < block.bytes) :
    (queueAt memory block.squ).ready i = queue.ready i := by
  rw [← h.ready i hi, ← getReadyBitmap_eq h]
  rfl

theorem Represents.bit_values (h : Represents block memory queue) (hind : ind < 8 * block.bytes) :
    bit (queueAt memory block.squ).values ind = bit queue.values ind := by
  rw [bit, bit, h.values_queueAt (by omega)]

theorem Represents.bit_ready (h : Represents block memory queue) (hindex : index < block.length) :
    bit (queueAt memory block.squ).ready index = bit queue.ready index := by
  rw [bit, bit, h.ready_queueAt (Block.div_lt_bytes hindex)]

theorem Represents.items_queueAt (h : Represents block memory queue)
    (hindex : index < block.length) :
    (queueAt memory block.squ).items index = queue.items index := by
  rw [← h.items index hindex, ← getItem_eq h]
  rfl

theorem Represents.length_queueAt (h : Represents block memory queue) :
    (queueAt memory block.squ).length = queue.length :=
  h.length.trans h.queueLength.symm

/-- The cells of the ring. -/
theorem Represents.cells_eq (h : Represents block memory queue) :
    cells (queueAt memory block.squ).length (queueAt memory block.squ).tail
        (queueAt memory block.squ).head = cells queue.length queue.tail queue.head := by
  rw [h.length_queueAt, show (queueAt memory block.squ).tail = queue.tail from h.tail,
    show (queueAt memory block.squ).head = queue.head from h.head]

/-- The indices in the ring. -/
theorem Represents.ringItems_eq (h : Represents block memory queue)
    (hhead : queue.head < block.length) (htail : queue.tail < block.length) :
    (queueAt memory block.squ).ringItems = queue.ringItems := by
  unfold McmpSetQueue.ringItems
  rw [h.cells_eq, h.queueLength]
  exact List.map_congr_left fun index hindex ↦ h.items_queueAt (lt_of_mem_cells htail hhead hindex)

/-- The bytes of a queue and those outside of its block are all there is in a memory. -/
theorem Represents.memory_unique {other : ByteMemory} (h : Represents block memory queue)
    (hother : Represents block other queue) (hout : ∀ i, block.Outside i → other i = memory i) :
    other = memory := by
  funext i
  by_cases houtside : block.Outside i
  · exact hout i houtside
  unfold Block.Outside setQueueSize at houtside
  by_cases hheader : i < block.squ + 32
  · have hword : ∀ address, sizeAt other address = sizeAt memory address → address ≤ i →
        i < address + 8 → other i = memory i := fun _ ↦ eq_of_sizeAt_eq
    have hbytes := hword _ (hother.byteslength.trans h.byteslength.symm)
    have hlength := hword _ (hother.length.trans h.length.symm)
    have hhead := hword _ (hother.head.trans h.head.symm)
    have htail := hword _ (hother.tail.trans h.tail.symm)
    rcases (by omega : i < block.squ + 8 ∨ (block.squ + 8 ≤ i ∧ i < block.squ + 8 + 8) ∨
      (block.squ + 16 ≤ i ∧ i < block.squ + 16 + 8) ∨ block.squ + 24 ≤ i) with
      hi | hi | hi | hi
    · exact hbytes (by omega) hi
    · exact hlength hi.1 hi.2
    · exact hhead hi.1 hi.2
    · exact htail hi (by omega)
  by_cases hvalues : i < block.squ + 64 + block.bytes
  · have hbyte := (hother.values (i - (block.squ + 64)) (by omega)).trans
      (h.values (i - (block.squ + 64)) (by omega)).symm
    rwa [show block.squ + 64 + (i - (block.squ + 64)) = i by omega] at hbyte
  by_cases hready : i < block.squ + 64 + 2 * block.bytes
  · have hbyte := (hother.ready (i - (block.squ + 64 + block.bytes)) (by omega)).trans
      (h.ready (i - (block.squ + 64 + block.bytes)) (by omega)).symm
    rwa [show block.squ + 64 + block.bytes + (i - (block.squ + 64 + block.bytes)) = i by omega]
      at hbyte
  · have hindex : (i - (block.squ + 64 + 2 * block.bytes)) / 8 < block.length := by
      unfold Block.bytes at *
      omega
    exact eq_of_sizeAt_eq ((hother.items _ hindex).trans (h.items _ hindex).symm)
      (by unfold Block.item; omega) (by unfold Block.item; omega)

/-- A size is not changed by a byte outside of it. -/
theorem sizeAt_update {address other : ℕ} (hout : other < address ∨ address + 8 ≤ other) :
    sizeAt (Function.update memory other byte) address = sizeAt memory address :=
  congrArg BitVec.toNat (wordAt_congr fun i hlow hhigh ↦ by
    rw [Function.update_of_ne (by omega)])

theorem sizeAt_overwrite {address other length : ℕ} {data : ℕ → BitVec 8}
    (hout : other + 8 ≤ address ∨ address + length ≤ other) :
    sizeAt (overwrite memory address length data) other = sizeAt memory other :=
  congrArg BitVec.toNat (wordAt_overwrite hout)

/-- A byte of the first bitmap is replaced. -/
theorem Represents.setValue (h : Represents block memory queue) (hi : i < block.bytes)
    (byte : BitVec 8) :
    Represents block (Function.update memory (block.squ + 64 + i) byte)
      { queue with values := Function.update queue.values i byte } where
  byteslength := by rw [sizeAt_update (by omega), h.byteslength]
  length := by rw [sizeAt_update (by omega), h.length]
  head := by rw [sizeAt_update (by omega), h.head]
  tail := by rw [sizeAt_update (by omega), h.tail]
  values j hj := by
    rcases eq_or_ne j i with rfl | hne
    · simp
    · rw [Function.update_of_ne (by omega), h.values j hj]
      exact (Function.update_of_ne hne _ _).symm
  ready j hj := by rw [Function.update_of_ne (by omega), h.ready j hj]
  items j hj := by rw [sizeAt_update (by unfold Block.item; omega), h.items j hj]
  queueLength := h.queueLength
  queueBytes := h.queueBytes

/-- A byte of the second bitmap is replaced. -/
theorem Represents.setReady (h : Represents block memory queue) (hi : i < block.bytes)
    (byte : BitVec 8) :
    Represents block (Function.update memory (block.squ + 64 + block.bytes + i) byte)
      { queue with ready := Function.update queue.ready i byte } where
  byteslength := by rw [sizeAt_update (by omega), h.byteslength]
  length := by rw [sizeAt_update (by omega), h.length]
  head := by rw [sizeAt_update (by omega), h.head]
  tail := by rw [sizeAt_update (by omega), h.tail]
  values j hj := by rw [Function.update_of_ne (by omega), h.values j hj]
  ready j hj := by
    rcases eq_or_ne j i with rfl | hne
    · simp
    · rw [Function.update_of_ne (by omega), h.ready j hj]
      exact (Function.update_of_ne hne _ _).symm
  items j hj := by rw [sizeAt_update (by unfold Block.item; omega), h.items j hj]
  queueLength := h.queueLength
  queueBytes := h.queueBytes

/-- The head is replaced. -/
theorem Represents.setHead (h : Represents block memory queue) {head : ℕ} (hhead : head < 2 ^ 64) :
    Represents block (storeSize memory (block.squ + 16) head) { queue with head := head } where
  byteslength := by rw [sizeAt_storeSize_of_disjoint (by omega), h.byteslength]
  length := by rw [sizeAt_storeSize_of_disjoint (by omega), h.length]
  head := sizeAt_storeSize hhead memory _
  tail := by rw [sizeAt_storeSize_of_disjoint (by omega), h.tail]
  values j hj := by rw [storeSize, storeWord_outside (by omega), h.values j hj]
  ready j hj := by rw [storeSize, storeWord_outside (by omega), h.ready j hj]
  items j hj := by
    rw [sizeAt_storeSize_of_disjoint (by unfold Block.item; omega), h.items j hj]
  queueLength := h.queueLength
  queueBytes := h.queueBytes

/-- The tail is replaced. -/
theorem Represents.setTail (h : Represents block memory queue) {tail : ℕ} (htail : tail < 2 ^ 64) :
    Represents block (storeSize memory (block.squ + 24) tail) { queue with tail := tail } where
  byteslength := by rw [sizeAt_storeSize_of_disjoint (by omega), h.byteslength]
  length := by rw [sizeAt_storeSize_of_disjoint (by omega), h.length]
  head := by rw [sizeAt_storeSize_of_disjoint (by omega), h.head]
  tail := sizeAt_storeSize htail memory _
  values j hj := by rw [storeSize, storeWord_outside (by omega), h.values j hj]
  ready j hj := by rw [storeSize, storeWord_outside (by omega), h.ready j hj]
  items j hj := by
    rw [sizeAt_storeSize_of_disjoint (by unfold Block.item; omega), h.items j hj]
  queueLength := h.queueLength
  queueBytes := h.queueBytes

/-- An item is replaced. -/
theorem Represents.setItem (h : Represents block memory queue) (hind : ind < 2 ^ 64) (index : ℕ) :
    Represents block (storeSize memory (block.item index) ind)
      { queue with items := Function.update queue.items index ind } where
  byteslength := by
    rw [sizeAt_storeSize_of_disjoint (by unfold Block.item; omega), h.byteslength]
  length := by rw [sizeAt_storeSize_of_disjoint (by unfold Block.item; omega), h.length]
  head := by rw [sizeAt_storeSize_of_disjoint (by unfold Block.item; omega), h.head]
  tail := by rw [sizeAt_storeSize_of_disjoint (by unfold Block.item; omega), h.tail]
  values j hj := by
    rw [storeSize, storeWord_outside (by unfold Block.item; omega), h.values j hj]
  ready j hj := by
    rw [storeSize, storeWord_outside (by unfold Block.item; omega), h.ready j hj]
  items j hj := by
    rcases eq_or_ne j index with rfl | hne
    · simpa using sizeAt_storeSize hind memory (block.item j)
    · rw [sizeAt_storeSize_of_disjoint (by unfold Block.item; omega), h.items j hj]
      exact (Function.update_of_ne hne _ _).symm
  queueLength := h.queueLength
  queueBytes := h.queueBytes

end Representation

/-! ### The indices of a call -/

/-- The indices and cells that a call uses next are those of the queue. -/
def InBounds (length : ℕ) : QueueThread → Prop
  | .push _ .loadHashset => True
  | .push ind (.testReady tail _) => ind < length ∧ tail < length
  | .push ind (.storeItem index) => ind < length ∧ index < length
  | .push ind (.loadReady index) => ind < length ∧ index < length
  | .push ind (.publishReady index _) => ind < length ∧ index < length
  | .push ind _ => ind < length
  | .take (.loadHead index) => index < length
  | .take (.testReady index) => index < length
  | .take (.reserveTail index) => index < length
  | .take (.readItem index) => index < length
  | .take (.loadHashset index ind) => index < length ∧ ind < length
  | .take (.clearHashset index ind _) => index < length ∧ ind < length
  | .take (.loadReady index _) => index < length
  | .take (.clearReady index _ _) => index < length
  | _ => True

section Bounds

variable {ι : Type*} [DecidableEq ι] {length : ℕ} {queue queue' : McmpSetQueue}
  {call call' : QueueThread} {event : QueueEvent} {items : ℕ → ℕ}
  {history : List (ι × QueueEvent)} {config : Config ι McmpSetQueue QueueThread}

/-- A step keeps the indices of its call in bounds, where the item that is read next is one of the
indices. -/
theorem InBounds.step (hbounds : InBounds length call) (hlength : queue.length = length)
    (hhead : queue.head < length) (htail : queue.tail < length)
    (hitem : ∀ index, call = .take (.readItem index) → queue.items index < length)
    (hstep : QueueStep queue call event queue' call') : InBounds length call' := by
  have hmod : ∀ k, k % queue.length < length := fun k ↦
    hlength ▸ Nat.mod_lt _ (hlength ▸ Nat.zero_lt_of_lt hhead)
  cases hstep with
  | called call => cases call <;> exact trivial
  | progressed hprogress =>
    cases hprogress with
    | pushAbsent hind => exact hlength ▸ hind
    | pushNoRoom => exact ⟨hbounds, hmod _⟩
    | pushFull => exact hbounds.1
    | pushNotReady => exact hbounds.1
    | takeTail => exact htail
    | takeReserveLost => exact trivial
    | _ => exact hbounds
  | claimed hind => exact hlength ▸ hind
  | reserved => exact ⟨hbounds, hhead⟩
  | stored => exact hbounds
  | removed => exact htail
  | delivered => exact ⟨hbounds, hitem _ rfl⟩
  | unclaimed => exact hbounds.1
  | _ => exact trivial

/-- Along every run head and tail are cells, and the calls are in bounds. -/
theorem run_inBounds (hlength : 1 ≤ length)
    (hrun : QueueRun anyStep (emptyQueue length items) history config) :
    config.shared.head < length ∧ config.shared.tail < length ∧
      ∀ thread, InBounds length (config.threads thread) := by
  have hwritten := (run_cellsWritten hlength hrun).1
  refine ⟨hwritten.head_lt, hwritten.tail_lt, ?_⟩
  refine hrun.invariant (fun _ config ↦ ∀ thread, InBounds length (config.threads thread))
    (fun _ ↦ by exact trivial) ?_
  intro history config thread event queue' call' hpast hbounds _ hprogram other
  obtain ⟨hwritten, hgrounded⟩ := run_cellsWritten hlength hpast
  by_cases hother : other = thread
  · subst hother
    rw [Config.advance_threads_self]
    refine (hbounds other).step (run_sizes hpast).1 hwritten.head_lt hwritten.tail_lt ?_
      (run_queueStep hpast hprogram)
    intro index hcall
    have hground := hgrounded other
    rw [hcall] at hground
    obtain ⟨ind, hstored⟩ := hground
    exact (hwritten.stored_lt (hwritten.items hstored)).2
  · rw [Config.advance_threads_of_ne config hother]
    exact hbounds other

end Bounds

/-! ### One step in the block -/

/-- The index whose byte of the first bitmap a call has in `word_set`. -/
def usesSet : QueueThread → Option ℕ
  | .push _ .loadHashset => none
  | .push ind _ => some ind
  | .take (.loadHashset _ ind) => some ind
  | .take (.clearHashset _ ind _) => some ind
  | _ => none

/-- The cell whose byte of the second bitmap a call has in `word_ready`. -/
def usesReady : QueueThread → Option ℕ
  | .push _ (.storeItem index) => some index
  | .push _ (.loadReady index) => some index
  | .push _ (.publishReady index _) => some index
  | .take (.testReady index) => some index
  | .take (.reserveTail index) => some index
  | .take (.readItem index) => some index
  | .take (.loadHashset index _) => some index
  | .take (.clearHashset index _ _) => some index
  | .take (.loadReady index _) => some index
  | .take (.clearReady index _ _) => some index
  | _ => none

/-- The variables that a call has set. -/
structure Cached (block : Block) (thread : BlockThread) : Prop where
  bitslength : thread.call ≠ .idle → thread.bitslength = block.length
  wordSet : ∀ ind, usesSet thread.call = some ind → thread.wordSet = block.squ + 64 + ind / 8
  wordReady : ∀ index, usesReady thread.call = some index →
    thread.wordReady = block.squ + 64 + block.bytes + index / 8

/-- A step in the block and one of the queue: they have the same event, leave the call at the same
place and the block with the bytes of the queue, and the one in the block writes nothing outside. -/
structure Alike (block : Block) (memory : ByteMemory)
    (next : QueueEvent × ByteMemory × BlockThread)
    (next' : QueueEvent × McmpSetQueue × QueueThread) : Prop where
  event : next.1 = next'.1
  call : next.2.2.call = next'.2.2
  cached : Cached block next.2.2
  represents : Represents block next.2.1 next'.2.1
  frame : ∀ i, block.Outside i → next.2.1 i = memory i

section Alike

variable {block : Block} {memory : ByteMemory} {queue : McmpSetQueue} {thread : BlockThread}
  {ind index i : ℕ} {call : QueueThread}

/-- A call goes on and uses the variables that it has. -/
theorem Cached.at (h : Cached block thread) (hcall : thread.call ≠ .idle)
    (hset : ∀ ind, usesSet call = some ind → usesSet thread.call = some ind)
    (hready : ∀ index, usesReady call = some index → usesReady thread.call = some index) :
    Cached block (thread.at call) where
  bitslength _ := h.bitslength hcall
  wordSet ind hind := h.wordSet ind (hset ind hind)
  wordReady index hindex := h.wordReady index (hready index hindex)

/-- A step that writes nothing. -/
theorem Alike.of_load {thread' : BlockThread} (hrep : Represents block memory queue)
    (hcached : Cached block thread') (event : QueueEvent) :
    Alike block memory (event, memory, thread') (event, queue, thread'.call) :=
  ⟨rfl, rfl, hcached, hrep, fun _ _ ↦ rfl⟩

theorem Block.Outside.ne_value (hout : block.Outside i) {k : ℕ} (hk : k < block.bytes) :
    i ≠ block.squ + 64 + k := by
  unfold Block.Outside setQueueSize at hout
  unfold Block.bytes at hk
  omega

theorem Block.Outside.ne_ready (hout : block.Outside i) {k : ℕ} (hk : k < block.bytes) :
    i ≠ block.squ + 64 + block.bytes + k := by
  unfold Block.Outside setQueueSize at hout
  unfold Block.bytes at hk ⊢
  omega

theorem Block.Outside.of_header (hout : block.Outside i) {address : ℕ}
    (hlow : block.squ ≤ address) (hhigh : address + 8 ≤ block.squ + 32) :
    i < address ∨ address + 8 ≤ i := by
  unfold Block.Outside setQueueSize at hout
  omega

theorem Block.Outside.of_item (hout : block.Outside i) (hindex : index < block.length) :
    i < block.item index ∨ block.item index + 8 ≤ i := by
  unfold Block.Outside setQueueSize at hout
  unfold Block.item Block.bytes
  omega

/-- The successor of a cell. -/
theorem Represents.next_eq (h : Represents block memory queue)
    (hbits : thread.bitslength = block.length) (hindex : index < block.length) :
    (index + 1) % 2 ^ 64 % thread.bitslength = (index + 1) % queue.length := by
  have hlength := block.length_lt
  rw [Nat.mod_eq_of_lt (by omega : index + 1 < 2 ^ 64), hbits, h.queueLength]

theorem Represents.next_lt (h : Represents block memory queue) (index : ℕ) :
    (index + 1) % queue.length < 2 ^ 64 := by
  rw [h.queueLength]
  exact (Nat.mod_lt _ block.positive).trans block.length_lt

/-- A Push in the block does what it does on the queue. -/
theorem push_alike {stage : PushStage} (hrep : Represents block memory queue)
    (hhead : queue.head < block.length) (hbounds : InBounds block.length (.push ind stage))
    (hcached : Cached block thread) (hcall : thread.call = .push ind stage) :
    Alike block memory (mcmpSetQueuePush block.squ memory thread ind stage)
      (SetQueue.mcmpSetQueuePush ind queue stage) := by
  have hbits := hcached.bitslength (by simp [hcall])
  have hat : ∀ {call}, (∀ ind', usesSet call = some ind' → usesSet thread.call = some ind') →
      (∀ index, usesReady call = some index → usesReady thread.call = some index) →
        Cached block (thread.at call) := hcached.at (by simp [hcall])
  have hnext := hrep.next_eq hbits hhead
  have hset : stage ≠ .loadHashset → thread.wordSet = block.squ + 64 + ind / 8 := by
    intro hstage
    refine hcached.wordSet ind ?_
    rw [hcall]
    cases stage <;> first | rfl | exact absurd rfl hstage
  cases stage with
  | loadHashset =>
    simp only [mcmpSetQueuePush, SetQueue.mcmpSetQueuePush]
    have hqueue : queue.length ≤ ind ↔ block.length ≤ ind := by rw [hrep.queueLength]
    have hthread : thread.bitslength ≤ ind ↔ block.length ≤ ind := by rw [hbits]
    by_cases hlarge : block.length ≤ ind
    · rw [if_pos (hthread.mpr hlarge), if_pos (hqueue.mpr hlarge)]
      exact .of_load hrep (hat (by simp [usesSet]) (by simp [usesReady])) _
    · have hbyte : memory (getValuesBitmap block.squ + ind / 8) = queue.values (ind / 8) :=
        hrep.values _ (Block.div_lt_bytes (not_le.mp hlarge))
      rw [if_neg (mt hthread.mp hlarge), if_neg (mt hqueue.mp hlarge), hbyte]
      split_ifs
      · exact .of_load hrep (hat (by simp [usesSet]) (by simp [usesReady])) _
      · refine ⟨rfl, rfl, ⟨fun _ ↦ hbits, fun ind' hind ↦ ?_, fun index hindex ↦ ?_⟩, hrep,
          fun _ _ ↦ rfl⟩
        · obtain rfl := Option.some.inj hind
          rfl
        · simp [usesReady] at hindex
  | claimHashset expected =>
    have hdiv := Block.div_lt_bytes hbounds
    simp only [mcmpSetQueuePush, SetQueue.mcmpSetQueuePush, hset (by simp), hrep.values _ hdiv]
    split_ifs
    · exact ⟨rfl, rfl, hat (by simp [usesSet, hcall]) (by simp [usesReady]),
        hrep.setValue hdiv _, fun i hout ↦ Function.update_of_ne (hout.ne_value hdiv) _ _⟩
    · exact .of_load hrep (hat (by simp [usesSet]) (by simp [usesReady])) _
  | loadTail =>
    simp only [mcmpSetQueuePush, SetQueue.mcmpSetQueuePush, hrep.tail]
    exact .of_load hrep (hat (by simp [usesSet, hcall]) (by simp [usesReady])) _
  | loadHead tail =>
    simp only [mcmpSetQueuePush, SetQueue.mcmpSetQueuePush, hrep.head, hnext]
    split_ifs
    · exact .of_load hrep (hat (by simp [usesSet, hcall]) (by simp [usesReady])) _
    · exact .of_load hrep (hat (by simp [usesSet, hcall]) (by simp [usesReady])) _
  | testReady tail index =>
    have hbit : mcmpAtomicBitmapIsEnabledBit
        (bytesFrom memory (getReadyBitmap memory block.squ)) tail =
          mcmpAtomicBitmapIsEnabledBit queue.ready tail := by
      rw [mcmpAtomicBitmapIsEnabledBit, bytesFrom, getReadyBitmap_eq hrep,
        hrep.ready _ (Block.div_lt_bytes hbounds.2), mcmpAtomicBitmapIsEnabledBit]
    simp only [mcmpSetQueuePush, SetQueue.mcmpSetQueuePush, hbit]
    split_ifs
    · exact .of_load hrep (hat (by simp [usesSet, hcall]) (by simp [usesReady])) _
    · exact .of_load hrep (hat (by simp [usesSet, hcall]) (by simp [usesReady])) _
  | rollBack =>
    have hdiv := Block.div_lt_bytes hbounds
    simp only [mcmpSetQueuePush, SetQueue.mcmpSetQueuePush, hset (by simp), hrep.values _ hdiv]
    exact ⟨rfl, rfl, hat (by simp [usesSet]) (by simp [usesReady]), hrep.setValue hdiv _,
      fun i hout ↦ Function.update_of_ne (hout.ne_value hdiv) _ _⟩
  | reserveHead index =>
    simp only [mcmpSetQueuePush, SetQueue.mcmpSetQueuePush, hrep.head]
    split_ifs with hsame
    · subst hsame
      rw [hnext]
      refine ⟨rfl, rfl, ⟨fun _ ↦ hbits, fun ind' hind ↦ ?_, fun index' hindex ↦ ?_⟩,
        hrep.setHead (hrep.next_lt _), fun i hout ↦ ?_⟩
      · exact hcached.wordSet ind' (by rw [hcall]; exact hind)
      · obtain rfl := Option.some.inj hindex
        rw [getReadyBitmap_eq hrep]
      · exact storeWord_outside (hout.of_header (by omega) (by omega))
    · exact .of_load hrep (hat (by simp [usesSet, hcall]) (by simp [usesReady])) _
  | storeItem index =>
    simp only [mcmpSetQueuePush, SetQueue.mcmpSetQueuePush, getItem_eq hrep]
    exact ⟨rfl, rfl, hat (by simp [usesSet, hcall]) (by simp [usesReady, hcall]),
      hrep.setItem (hbounds.1.trans block.length_lt) index,
      fun i hout ↦ storeWord_outside (hout.of_item hbounds.2)⟩
  | loadReady index =>
    have hready := hcached.wordReady index (by rw [hcall]; rfl)
    simp only [mcmpSetQueuePush, SetQueue.mcmpSetQueuePush, hready,
      hrep.ready _ (Block.div_lt_bytes hbounds.2)]
    exact .of_load hrep (hat (by simp [usesSet, hcall]) (by simp [usesReady, hcall])) _
  | publishReady index expected =>
    have hready := hcached.wordReady index (by rw [hcall]; rfl)
    have hdiv := Block.div_lt_bytes hbounds.2
    simp only [mcmpSetQueuePush, SetQueue.mcmpSetQueuePush, hready, hrep.ready _ hdiv]
    split_ifs
    · exact ⟨rfl, rfl, hat (by simp [usesSet]) (by simp [usesReady]), hrep.setReady hdiv _,
        fun i hout ↦ Function.update_of_ne (hout.ne_ready hdiv) _ _⟩
    · exact .of_load hrep (hat (by simp [usesSet, hcall]) (by simp [usesReady, hcall])) _

/-- A Take in the block does what it does on the queue. -/
theorem take_alike {stage : TakeStage} (hrep : Represents block memory queue)
    (htail : queue.tail < block.length) (hbounds : InBounds block.length (.take stage))
    (hcached : Cached block thread) (hcall : thread.call = .take stage) :
    Alike block memory (mcmpSetQueueTake block.squ memory thread stage)
      (SetQueue.mcmpSetQueueTake queue stage) := by
  have hbits := hcached.bitslength (by simp [hcall])
  have hat : ∀ {call}, (∀ ind', usesSet call = some ind' → usesSet thread.call = some ind') →
      (∀ index, usesReady call = some index → usesReady thread.call = some index) →
        Cached block (thread.at call) := hcached.at (by simp [hcall])
  have hready : ∀ index, usesReady (.take stage) = some index →
      thread.wordReady = block.squ + 64 + block.bytes + index / 8 := by
    intro index hindex
    exact hcached.wordReady index (by rw [hcall]; exact hindex)
  have hset : ∀ ind, usesSet (.take stage) = some ind →
      thread.wordSet = block.squ + 64 + ind / 8 := by
    intro ind hind
    exact hcached.wordSet ind (by rw [hcall]; exact hind)
  have hnext := hrep.next_eq hbits htail
  cases stage with
  | loadTail =>
    simp only [mcmpSetQueueTake, SetQueue.mcmpSetQueueTake, hrep.tail]
    exact .of_load hrep (hat (by simp [usesSet]) (by simp [usesReady])) _
  | loadHead index =>
    simp only [mcmpSetQueueTake, SetQueue.mcmpSetQueueTake, hrep.head]
    split_ifs
    · exact .of_load hrep (hat (by simp [usesSet]) (by simp [usesReady])) _
    · refine ⟨rfl, rfl, ⟨fun _ ↦ hbits, fun ind hind ↦ ?_, fun index' hindex ↦ ?_⟩, hrep,
        fun _ _ ↦ rfl⟩
      · simp [usesSet] at hind
      · obtain rfl := Option.some.inj hindex
        rw [getReadyBitmap_eq hrep]
  | testReady index =>
    simp only [mcmpSetQueueTake, SetQueue.mcmpSetQueueTake, hready index rfl,
      hrep.ready _ (Block.div_lt_bytes hbounds)]
    split_ifs
    · exact .of_load hrep (hat (by simp [usesSet]) (by simp [usesReady])) _
    · exact .of_load hrep (hat (by simp [usesSet]) (by simp [usesReady, hcall])) _
  | reserveTail index =>
    simp only [mcmpSetQueueTake, SetQueue.mcmpSetQueueTake, hrep.tail]
    split_ifs with hsame
    · subst hsame
      rw [hnext]
      exact ⟨rfl, rfl, hat (by simp [usesSet]) (by simp [usesReady, hcall]),
        hrep.setTail (hrep.next_lt _),
        fun i hout ↦ storeWord_outside (hout.of_header (by omega) (by omega))⟩
    · exact .of_load hrep (hat (by simp [usesSet]) (by simp [usesReady])) _
  | readItem index =>
    simp only [mcmpSetQueueTake, SetQueue.mcmpSetQueueTake, getItem_eq hrep, hrep.items _ hbounds]
    refine ⟨rfl, rfl, ⟨fun _ ↦ hbits, fun ind hind ↦ ?_, fun index' hindex ↦ ?_⟩, hrep,
      fun _ _ ↦ rfl⟩
    · obtain rfl := Option.some.inj hind
      rfl
    · exact hready index' hindex
  | loadHashset index ind =>
    simp only [mcmpSetQueueTake, SetQueue.mcmpSetQueueTake, hset ind rfl,
      hrep.values _ (Block.div_lt_bytes hbounds.2)]
    exact .of_load hrep (hat (by simp [usesSet, hcall]) (by simp [usesReady, hcall])) _
  | clearHashset index ind expected =>
    have hdiv := Block.div_lt_bytes hbounds.2
    simp only [mcmpSetQueueTake, SetQueue.mcmpSetQueueTake, hset ind rfl, hrep.values _ hdiv]
    split_ifs
    · exact ⟨rfl, rfl, hat (by simp [usesSet]) (by simp [usesReady, hcall]),
        hrep.setValue hdiv _, fun i hout ↦ Function.update_of_ne (hout.ne_value hdiv) _ _⟩
    · exact .of_load hrep (hat (by simp [usesSet, hcall]) (by simp [usesReady, hcall])) _
  | loadReady index ind =>
    simp only [mcmpSetQueueTake, SetQueue.mcmpSetQueueTake, hready index rfl,
      hrep.ready _ (Block.div_lt_bytes hbounds)]
    exact .of_load hrep (hat (by simp [usesSet]) (by simp [usesReady, hcall])) _
  | clearReady index ind expected =>
    have hdiv := Block.div_lt_bytes hbounds
    simp only [mcmpSetQueueTake, SetQueue.mcmpSetQueueTake, hready index rfl, hrep.ready _ hdiv]
    split_ifs
    · exact ⟨rfl, rfl, hat (by simp [usesSet]) (by simp [usesReady]), hrep.setReady hdiv _,
        fun i hout ↦ Function.update_of_ne (hout.ne_ready hdiv) _ _⟩
    · exact .of_load hrep (hat (by simp [usesSet]) (by simp [usesReady, hcall])) _

end Alike

/-! ### Runs in the block -/

section Runs

variable {ι : Type*} [DecidableEq ι] {block : Block} {memory start : ByteMemory}
  {queue : McmpSetQueue} {thread : BlockThread} {call : QueueThread} {locals : ι → BlockThread}
  {items : ℕ → ℕ} {length squ : ℕ}

/-- A command does in the block what it does on the queue. -/
theorem blockMachine_alike (hrep : Represents block memory queue)
    (hhead : queue.head < block.length) (htail : queue.tail < block.length)
    (hbounds : InBounds block.length call) (hcached : Cached block thread)
    (hcall : thread.call = call) (command : QueueCommand) :
    Option.Rel (Alike block memory) (blockMachine block.squ command memory thread)
      (queueMachine command queue call) := by
  unfold blockMachine
  rw [hcall]
  cases call with
  | idle =>
    cases command with
    | call call =>
      refine .some ⟨rfl, rfl, ⟨fun _ ↦ hrep.length, fun ind hind ↦ ?_, fun index hindex ↦ ?_⟩, hrep,
        fun _ _ ↦ rfl⟩
      · cases call <;> simp [QueueCall.start, usesSet] at hind
      · cases call <;> simp [QueueCall.start, usesReady] at hindex
    | advance => exact .none
  | push ind stage =>
    cases command with
    | call call => exact .none
    | advance => exact .some (push_alike hrep hhead hbounds hcached hcall)
  | take stage =>
    cases command with
    | call call => exact .none
    | advance => exact .some (take_alike hrep htail hbounds hcached hcall)

/-- The users of a block and those of a queue: they are at the same places of their calls, the block
has the bytes of the queue, and outside of it nothing has changed. -/
structure Matching (block : Block) (start : ByteMemory) (config : Config ι ByteMemory BlockThread)
    (config' : Config ι McmpSetQueue QueueThread) : Prop where
  represents : Represents block config.shared config'.shared
  call : ∀ thread, (config.threads thread).call = config'.threads thread
  cached : ∀ thread, Cached block (config.threads thread)
  frame : ∀ i, block.Outside i → config.shared i = start i

/-- A thread that is told the same in the block and on the queue. -/
theorem Matching.advance {config : Config ι ByteMemory BlockThread}
    {config' : Config ι McmpSetQueue QueueThread} (h : Matching block start config config')
    {next : QueueEvent × ByteMemory × BlockThread} {next' : QueueEvent × McmpSetQueue × QueueThread}
    (halike : Alike block config.shared next next') (thread : ι) :
    Matching block start (config.advance thread next.2.1 next.2.2)
      (config'.advance thread next'.2.1 next'.2.2) where
  represents := halike.represents
  call other := by
    rcases eq_or_ne other thread with rfl | hother
    · rw [Config.advance_threads_self, Config.advance_threads_self]
      exact halike.call
    · rw [Config.advance_threads_of_ne config hother, Config.advance_threads_of_ne config' hother]
      exact h.call other
  cached other := by
    rcases eq_or_ne other thread with rfl | hother
    · rw [Config.advance_threads_self]
      exact halike.cached
    · rw [Config.advance_threads_of_ne config hother]
      exact h.cached other
  frame i hout := (halike.frame i hout).trans (h.frame i hout)

/-- A block and a queue that it represents go in lockstep. -/
theorem inStep (hrep : Represents block start (emptyQueue block.length items))
    (locals : ι → BlockThread) :
    InStep (blockMachine block.squ) queueMachine (initially start locals)
      (SetQueue.initially ι (emptyQueue block.length items)) (Matching block start) where
  start := ⟨hrep, fun _ ↦ rfl, fun _ ↦ ⟨fun h ↦ absurd rfl h, fun ind hind ↦ by
    simp [initially, BlockThread.at, usesSet] at hind, fun index hindex ↦ by
    simp [initially, BlockThread.at, usesReady] at hindex⟩, fun _ _ ↦ rfl⟩
  step {history config config'} _ hrun hmatching thread command := by
    obtain ⟨hhead, htail, hbounds⟩ := run_inBounds block.positive hrun
    have halike := blockMachine_alike hmatching.represents hhead htail (hbounds thread)
      (hmatching.cached thread) (hmatching.call thread) command
    generalize blockMachine _ _ _ _ = next at halike ⊢
    generalize queueMachine _ _ _ = next' at halike ⊢
    cases halike with
    | none => exact .none
    | some halike => exact .some ⟨halike.event, hmatching.advance halike thread⟩

/-- What `malloc` promises: the bytes that were asked for are in the address space. -/
def Allocates (malloc : ℕ → Option ℕ) : Prop :=
  ∀ size squ, malloc size = some squ → squ + size ≤ 2 ^ 64

/-- The bytes of a block after its header has been stored and its bitmaps have been cleared. -/
theorem represents_created (block : Block) (memory : ByteMemory) :
    Represents block
        (overwrite (storeSize (storeSize (storeSize (storeSize memory block.squ block.bytes)
          (block.squ + 8) block.length) (block.squ + 16) 0) (block.squ + 24) 0)
          (getValuesBitmap block.squ) (2 * block.bytes) fun _ ↦ 0#8)
        (emptyQueue block.length fun index ↦ sizeAt memory (block.item index)) ∧
      ∀ i, block.Outside i →
        overwrite (storeSize (storeSize (storeSize (storeSize memory block.squ block.bytes)
          (block.squ + 8) block.length) (block.squ + 16) 0) (block.squ + 24) 0)
          (getValuesBitmap block.squ) (2 * block.bytes) (fun _ ↦ 0#8) i = memory i := by
  have hend := block.end_le
  unfold getValuesBitmap emptyQueue
  refine ⟨⟨?_, ?_, ?_, ?_, fun i hi ↦ ?_, fun i hi ↦ ?_, fun i _ ↦ ?_, rfl, rfl⟩, fun i hout ↦ ?_⟩
  · rw [sizeAt_overwrite (by omega), sizeAt_storeSize_of_disjoint (by omega),
      sizeAt_storeSize_of_disjoint (by omega), sizeAt_storeSize_of_disjoint (by omega),
      sizeAt_storeSize (by omega)]
  · rw [sizeAt_overwrite (by omega), sizeAt_storeSize_of_disjoint (by omega),
      sizeAt_storeSize_of_disjoint (by omega), sizeAt_storeSize (by omega)]
  · rw [sizeAt_overwrite (by omega), sizeAt_storeSize_of_disjoint (by omega),
      sizeAt_storeSize (by omega)]
  · rw [sizeAt_overwrite (by omega), sizeAt_storeSize (by omega)]
  · exact overwrite_inside (by omega) (by omega)
  · exact overwrite_inside (by omega) (by omega)
  · unfold Block.item
    rw [sizeAt_overwrite (by omega), sizeAt_storeSize_of_disjoint (by omega),
      sizeAt_storeSize_of_disjoint (by omega), sizeAt_storeSize_of_disjoint (by omega),
      sizeAt_storeSize_of_disjoint (by omega)]
  · unfold Block.Outside setQueueSize at hout
    unfold Block.bytes
    rw [overwrite_outside (by omega), storeSize, storeWord_outside (by omega), storeSize,
      storeWord_outside (by omega), storeSize, storeWord_outside (by omega), storeSize,
      storeWord_outside (by omega)]

/-- A block that has been created represents an empty queue, whose items are what the memory has
there, and nothing outside of it has been written. -/
theorem mcmpSetQueueCreate_represents {malloc : ℕ → Option ℕ} (hmalloc : Allocates malloc)
    (hlength : 1 ≤ length) (hsize : setQueueSize length < 2 ^ 64)
    (hcreate : mcmpSetQueueCreate malloc memory length = .ok (squ, start)) :
    ∃ block : Block, block.squ = squ ∧ block.length = length ∧
      Represents block start (emptyQueue length fun index ↦ sizeAt memory (block.item index)) ∧
      ∀ i, block.Outside i → start i = memory i := by
  unfold mcmpSetQueueCreate at hcreate
  cases hblock : malloc (setQueueRequest length) with
  | none => simp [hblock] at hcreate
  | some address =>
    have hround : (length + 7) % 2 ^ 64 / 8 = (length + 7) / 8 := by
      unfold setQueueSize at hsize
      rw [Nat.mod_eq_of_lt (by omega)]
    simp only [hblock, Except.ok.injEq, Prod.mk.injEq, hround] at hcreate
    obtain ⟨rfl, rfl⟩ := hcreate
    have hfits := hmalloc _ _ hblock
    rw [setQueueRequest_eq hsize] at hfits
    have hbytes : (length + 7) / 8 * 2 % 2 ^ 64 = 2 * ((length + 7) / 8) := by
      unfold setQueueSize at hsize
      omega
    rw [hbytes]
    obtain ⟨hrep, houtside⟩ := represents_created ⟨address, length, hlength, hfits⟩ memory
    exact ⟨⟨address, length, hlength, hfits⟩, rfl, rfl, hrep, houtside⟩

/-- A block that has been created goes in lockstep with an empty queue. -/
theorem created_inStep {malloc : ℕ → Option ℕ} (hmalloc : Allocates malloc)
    (hlength : 1 ≤ length) (hsize : setQueueSize length < 2 ^ 64)
    (hcreate : mcmpSetQueueCreate malloc memory length = .ok (squ, start))
    (locals : ι → BlockThread) :
    ∃ (block : Block) (items : ℕ → ℕ), block.squ = squ ∧ block.length = length ∧
      InStep (blockMachine squ) queueMachine (initially start locals)
        (SetQueue.initially ι (emptyQueue length items)) (Matching block start) := by
  obtain ⟨block, rfl, rfl, hrep, -⟩ :=
    mcmpSetQueueCreate_represents hmalloc hlength hsize hcreate
  exact ⟨block, _, rfl, rfl, inStep hrep locals⟩

/-- The set queue in its block refines the set queue without addresses. The histories of its users
are the same, the bytes of the block are at any moment those of a queue after the same history, and
no run changes a byte outside of the block or the padding of its header. -/
theorem setQueueBlock_refines {malloc : ℕ → Option ℕ} (hmalloc : Allocates malloc)
    (hlength : 1 ≤ length) (hsize : setQueueSize length < 2 ^ 64)
    (hcreate : mcmpSetQueueCreate malloc memory length = .ok (squ, start))
    (locals : ι → BlockThread) :
    ∃ (block : Block) (queue : McmpSetQueue), block.squ = squ ∧ block.length = length ∧
      queue = emptyQueue length (fun index ↦ sizeAt memory (block.item index)) ∧
      (∀ history, (∃ config, BlockRun anyStep squ start locals history config) ↔
        ∃ config, QueueRun (anyStep : Guard ι _ _ _) queue history config) ∧
      ∀ history config, BlockRun anyStep squ start locals history config →
        (∃ config', QueueRun anyStep queue history config' ∧
          Represents block config.shared config'.shared ∧
          ∀ thread, (config.threads thread).call = config'.threads thread) ∧
        ∀ i, block.Outside i → config.shared i = memory i := by
  obtain ⟨block, rfl, rfl, hrep, houtside⟩ :=
    mcmpSetQueueCreate_represents hmalloc hlength hsize hcreate
  have hstep := inStep hrep locals
  refine ⟨block, _, rfl, rfl, rfl, fun history ↦ ⟨?_, ?_⟩, fun history config hrun ↦ ?_⟩
  · rintro ⟨config, hrun⟩
    exact (hstep.forward hrun).imp fun _ h ↦ h.1
  · rintro ⟨config', hrun⟩
    exact (hstep.backward hrun).imp fun _ h ↦ h.1
  · obtain ⟨config', hrun', hmatching⟩ := hstep.forward hrun
    exact ⟨⟨config', hrun', hmatching.represents, hmatching.call⟩,
      fun i hout ↦ (hmatching.frame i hout).trans (houtside i hout)⟩

/-- An allocator with one page. -/
def onePage (size : ℕ) : Option ℕ := if size ≤ 4096 then some 4096 else none

theorem onePage_allocates : Allocates onePage := by
  intro size squ hsome
  unfold onePage at hsome
  split_ifs at hsome with hsize
  obtain rfl := Option.some.inj hsome
  omega

/-- A queue in the page, over bytes that were all the same. -/
def freshBlock (length : ℕ) (byte : BitVec 8) : ByteMemory :=
  match mcmpSetQueueCreate onePage (fun _ ↦ byte) length with
  | .ok (_, start) => start
  | .error _ => fun _ ↦ byte

/-- Threads whose variables are all zero. -/
def idleThreads {ι : Type*} : ι → BlockThread := fun _ ↦ ⟨.idle, 0, 0, 0⟩

/-- A Push of index one on a queue for two indices. -/
theorem exists_push_one (items : ℕ → ℕ) :
    ∃ history : List (ℕ × QueueEvent),
      (∃ config, QueueRun anyStep (emptyQueue 2 items) history config) ∧
        (0, .pushReturned 1 .success) ∈ history := by
  obtain ⟨history, config, hrun, hview⟩ := exists_run_of_play_view queueMachine anyStep
    (SetQueue.initially ℕ (emptyQueue 2 items)) (runCall 0 (.push 1) 8)
    (fun history _ ↦ decide ((0, .pushReturned 1 .success) ∈ history)) true
    (by with_unfolding_all rfl)
  exact ⟨history, ⟨config, hrun⟩, of_decide_eq_true hview⟩

/-- A Push of index one in a block for two indices. -/
theorem setQueueBlock_refines_two :
    ∃ (history : List (ℕ × QueueEvent)) (config : Config ℕ _ _),
      BlockRun anyStep 4096 (freshBlock 2 57#8) idleThreads history config ∧
      (0, .pushReturned 1 .success) ∈ history ∧
      config.shared 4095 = 57#8 := by
  obtain ⟨block, queue, hsqu, hlength, hqueue, hhistories, hruns⟩ :=
    @setQueueBlock_refines ℕ _ (fun _ ↦ 57#8) (freshBlock 2 57#8) 2 4096 onePage onePage_allocates
      (by omega) (by decide) rfl idleThreads
  subst hqueue
  obtain ⟨history, hqueueRun, hreturned⟩ :=
    exists_push_one fun index ↦ sizeAt (fun _ ↦ 57#8) (block.item index)
  obtain ⟨config, hrun⟩ := (hhistories history).mpr hqueueRun
  refine ⟨history, config, hrun, hreturned, ?_⟩
  exact (hruns _ _ hrun).2 4095 (Or.inl (by omega))

end Runs

end Mcmp.Utilities.SetQueueBlock
