import Mathlib.Tactic.Ring
import Mcmp.Foundation.Interleaving
import Mcmp.Foundation.WordMemory
import Mcmp.Status

/-!
# The chunked queue

`mcmpChunkedQueueCreate`, `mcmpChunkedQueuePush` and `mcmpChunkedQueueTake` of chunkedqueue.c. A
chunked queue is one block of bytes: a header, and then chunks of equal size, each of them a head,
a tail and `alignment` items. Each chunk is a ring of its own.

A step of the system is one atomic access or the copy of one item, together with the computation of
the thread up to the next of these. The compare-exchanges are weak ones: a thread can be told to
fail at one although the memory holds the expected value.

The block is seen as a family of chunks (`Shape.chunksOf`). `ChunkStep` lists what a step can do to
the chunks, and `chunkStep_of_program` says that it lists everything, as long as the calls are on
chunks that the queue has.
-/

set_option autoImplicit false
set_option relaxedAutoImplicit false

namespace Mcmp.Utilities.ChunkedQueue

open Foundation.ByteBits Foundation.Interleaving Foundation.WordMemory

/-! ### The block of a queue -/

/-- A chunked queue: the bytes from the queue pointer on. -/
abbrev McmpChunkedQueue := ByteMemory

/-- An item, a `uintptr_t`. -/
abbrev Item := BitVec 64

/-- `MCMP_CQ_ALIGNMENT`. -/
def cqAlignment (queue : McmpChunkedQueue) : ℕ := sizeAt queue 0

/-- `MCMP_CQ_LENGTH`. -/
def cqLength (queue : McmpChunkedQueue) : ℕ := sizeAt queue 8

/-- `MCMP_CQ_CHUNKSIZE`. -/
def cqChunksize (queue : McmpChunkedQueue) : ℕ := sizeAt queue 16

/-- `MCMP_CQ_CHUNK`, as an offset from the queue pointer. The header has 64 bytes. The head of the
chunk is at this offset and its tail eight bytes further. -/
def cqChunk (queue : McmpChunkedQueue) (ch : ℕ) : ℕ := (64 + ch * cqChunksize queue) % 2 ^ 64

/-- `MCMP_CQ_ITEM`, as an offset from the queue pointer. Head and tail have 16 bytes. -/
def cqItem (queue : McmpChunkedQueue) (ch it : ℕ) : ℕ :=
  (cqChunk queue ch + 16 + 8 * it) % 2 ^ 64

/-- Sets head and tail of the first `totalchunks` chunks to zero. -/
def initChunks : (totalchunks : ℕ) → McmpChunkedQueue → McmpChunkedQueue
  | 0, queue => queue
  | i + 1, queue =>
    let queue := initChunks i queue
    storeSize (storeSize queue (cqChunk queue i) 0) (cqChunk queue i + 8) 0

/-- Creates a queue in the block that `malloc` returns for the size computed, `none` when it returns
no block. All computations are on `size_t`. -/
def mcmpChunkedQueueCreate (malloc : ℕ → Option ByteMemory) (length alignment : ℕ) :
    Except Mcmpst McmpChunkedQueue :=
  let totalchunks := ((length + (alignment + 2 ^ 64 - 1) % 2 ^ 64) % 2 ^ 64) / alignment
  let normalizedLength := totalchunks * alignment % 2 ^ 64
  let chunksize := (16 + alignment * 8 % 2 ^ 64) % 2 ^ 64
  match malloc ((64 + totalchunks * chunksize % 2 ^ 64) % 2 ^ 64) with
  | none => .error .outOfMem
  | some block =>
    .ok (initChunks totalchunks
      (storeSize (storeSize (storeSize block 0 alignment) 8 normalizedLength) 16 chunksize))

/-- A queue for four items in two chunks, in a block full of 57. -/
def queueOfFour : McmpChunkedQueue :=
  initChunks 2 (storeSize (storeSize (storeSize (fun _ ↦ 57#8) 0 2) 8 4) 16 32)

theorem mcmpChunkedQueueCreate_queueOfFour :
    mcmpChunkedQueueCreate (fun _ ↦ some fun _ ↦ 57#8) 4 2 = .ok queueOfFour :=
  rfl

/-! ### The calls, one access at a time -/

/-- The next access of a Push. `index` is the loaded head. -/
inductive PushStage
  | loadHead
  | loadTail (index : ℕ)
  | reserveHead (index : ℕ)
  | copyItem (index : ℕ)
  deriving DecidableEq, Repr

/-- The next access of a Take. `index` is the loaded tail. -/
inductive TakeStage
  | loadTail
  | loadHead (index : ℕ)
  | reserveTail (index : ℕ)
  | copyItem (index : ℕ)
  deriving DecidableEq, Repr

/-- A call on a queue. -/
inductive ChunkCall
  | push (chunkidx : ℕ) (item : Item)
  | take (chunkidx : ℕ)
  deriving DecidableEq, Repr

/-- The chunk that a call is on. -/
def ChunkCall.chunkidx : ChunkCall → ℕ
  | push chunkidx _ => chunkidx
  | take chunkidx => chunkidx

/-- A thread outside any call, or inside one. -/
inductive ChunkThread
  | idle
  | push (chunkidx : ℕ) (item : Item) (stage : PushStage)
  | take (chunkidx : ℕ) (stage : TakeStage)
  deriving DecidableEq, Repr

/-- The events: a call starts; a call makes an access of which nothing is recorded; a call is
refused and returns `MCMPST_OVERFLOW`; a Push reserves a slot, and writes its item into the slot and
returns; a Take removes a slot from the ring, and reads the item of the slot and returns it. -/
inductive ChunkEvent
  | called (call : ChunkCall)
  | accessed
  | refused (call : ChunkCall)
  | reserved (chunkidx index : ℕ) (item : Item)
  | written (chunkidx index : ℕ) (item : Item)
  | removed (chunkidx index : ℕ)
  | taken (chunkidx index : ℕ) (item : Item)
  deriving DecidableEq, Repr

/-- The slot after a slot. -/
def nextSlot (queue : McmpChunkedQueue) (index : ℕ) : ℕ :=
  (index + 1) % 2 ^ 64 % cqAlignment queue

/-- The next step of a Push. A weak compare-exchange can fail spuriously. -/
def mcmpChunkedQueuePush (chunkidx : ℕ) (item : Item) (spurious : Bool)
    (queue : McmpChunkedQueue) : PushStage → ChunkEvent × McmpChunkedQueue × ChunkThread
  | .loadHead =>
    (.accessed, queue, .push chunkidx item (.loadTail (sizeAt queue (cqChunk queue chunkidx))))
  | .loadTail index =>
    if sizeAt queue (cqChunk queue chunkidx + 8) = nextSlot queue index then
      (.refused (.push chunkidx item), queue, .idle)
    else (.accessed, queue, .push chunkidx item (.reserveHead index))
  | .reserveHead index =>
    if sizeAt queue (cqChunk queue chunkidx) = index ∧ spurious = false then
      (.reserved chunkidx index item,
        storeSize queue (cqChunk queue chunkidx) (nextSlot queue index),
        .push chunkidx item (.copyItem index))
    else (.accessed, queue, .push chunkidx item .loadHead)
  | .copyItem index =>
    (.written chunkidx index item, storeWord queue (cqItem queue chunkidx index) item, .idle)

/-- The next step of a Take. -/
def mcmpChunkedQueueTake (chunkidx : ℕ) (spurious : Bool) (queue : McmpChunkedQueue) :
    TakeStage → ChunkEvent × McmpChunkedQueue × ChunkThread
  | .loadTail =>
    (.accessed, queue, .take chunkidx (.loadHead (sizeAt queue (cqChunk queue chunkidx + 8))))
  | .loadHead index =>
    if sizeAt queue (cqChunk queue chunkidx) = index then
      (.refused (.take chunkidx), queue, .idle)
    else (.accessed, queue, .take chunkidx (.reserveTail index))
  | .reserveTail index =>
    if sizeAt queue (cqChunk queue chunkidx + 8) = index ∧ spurious = false then
      (.removed chunkidx index,
        storeSize queue (cqChunk queue chunkidx + 8) (nextSlot queue index),
        .take chunkidx (.copyItem index))
    else (.accessed, queue, .take chunkidx .loadTail)
  | .copyItem index =>
    (.taken chunkidx index (wordAt queue (cqItem queue chunkidx index)), queue, .idle)

/-- A thread at the start of a call. -/
def ChunkCall.start : ChunkCall → ChunkThread
  | push chunkidx item => .push chunkidx item .loadHead
  | take chunkidx => .take chunkidx .loadTail

/-- What a thread can be told to do: start a call when it is idle, go on with the one it is in, or
fail at its weak compare-exchange. -/
inductive ChunkCommand
  | call (call : ChunkCall)
  | advance
  | failSpuriously
  deriving DecidableEq, Repr

/-- The users of a queue. -/
def chunkMachine : Machine ChunkCommand McmpChunkedQueue ChunkThread ChunkEvent
  | .call call, queue, .idle => some (.called call, queue, call.start)
  | .advance, queue, .push chunkidx item stage =>
    some (mcmpChunkedQueuePush chunkidx item false queue stage)
  | .advance, queue, .take chunkidx stage => some (mcmpChunkedQueueTake chunkidx false queue stage)
  | .failSpuriously, queue, .push chunkidx item (.reserveHead index) =>
    some (mcmpChunkedQueuePush chunkidx item true queue (.reserveHead index))
  | .failSpuriously, queue, .take chunkidx (.reserveTail index) =>
    some (mcmpChunkedQueueTake chunkidx true queue (.reserveTail index))
  | _, _, _ => none

/-- The system before any call on a queue. -/
def initially (ι : Type*) (queue : McmpChunkedQueue) : Config ι McmpChunkedQueue ChunkThread :=
  ⟨queue, fun _ ↦ .idle⟩

/-- The runs of any number of threads on a queue under a guard. -/
abbrev ChunkRun {ι : Type*} [DecidableEq ι]
    (guard : Guard ι McmpChunkedQueue ChunkThread ChunkEvent) (queue : McmpChunkedQueue) :=
  Run chunkMachine.program guard (initially ι queue)

/-! ### The block as a family of chunks -/

/-- A chunk: a ring of items. -/
structure Chunk where
  head : ℕ
  tail : ℕ
  items : ℕ → Item

/-- The number of chunks of `alignment` items that hold `length` items, rounded up. -/
def totalchunks (length alignment : ℕ) : ℕ := (length + (alignment - 1)) / alignment

/-- The number of chunks of a queue and the number of their items, such that the queue fits into the
address space. -/
structure Shape where
  chunks : ℕ
  alignment : ℕ
  alignment_pos : 1 ≤ alignment
  fits : 64 + chunks * (16 + 8 * alignment) < 2 ^ 64

namespace Shape

/-- The shape of a queue that is created for `length` items. -/
def ofLength (length alignment : ℕ) (halignment : 1 ≤ alignment)
    (hfits : 64 + totalchunks length alignment * (16 + 8 * alignment) < 2 ^ 64) : Shape :=
  ⟨totalchunks length alignment, alignment, halignment, hfits⟩

/-- The size of a chunk. -/
def chunksize (shape : Shape) : ℕ := 16 + 8 * shape.alignment

/-- The offset of a chunk. -/
def offset (shape : Shape) (ch : ℕ) : ℕ := 64 + ch * shape.chunksize

/-- The chunks of a block. -/
def chunksOf (shape : Shape) (queue : McmpChunkedQueue) (ch : ℕ) : Chunk where
  head := sizeAt queue (shape.offset ch)
  tail := sizeAt queue (shape.offset ch + 8)
  items it := if it < shape.alignment then wordAt queue (shape.offset ch + 16 + 8 * it) else 0

/-- The header of the block says that the queue has this shape. -/
structure Describes (shape : Shape) (queue : McmpChunkedQueue) : Prop where
  alignment_eq : cqAlignment queue = shape.alignment
  chunksize_eq : cqChunksize queue = shape.chunksize

variable {shape : Shape} {queue : McmpChunkedQueue} {ch other it address length size : ℕ}
  {data : ℕ → BitVec 8} {item : Item}

theorem offset_add_chunksize (ch : ℕ) :
    shape.offset ch + shape.chunksize = shape.offset (ch + 1) := by
  unfold offset
  ring

/-- A chunk ends where or before a later one begins. -/
theorem offset_add_chunksize_le (hlt : ch < other) :
    shape.offset ch + shape.chunksize ≤ shape.offset other := by
  rw [offset_add_chunksize]
  exact Nat.add_le_add_left (Nat.mul_le_mul_right _ hlt) 64

/-- A chunk of the queue ends inside the address space. -/
theorem offset_add_chunksize_lt (hch : ch < shape.chunks) :
    shape.offset ch + shape.chunksize < 2 ^ 64 :=
  lt_of_le_of_lt (offset_add_chunksize_le hch) shape.fits

/-- Different chunks do not overlap. -/
theorem offset_disjoint (hne : other ≠ ch) :
    shape.offset other + shape.chunksize ≤ shape.offset ch ∨
      shape.offset ch + shape.chunksize ≤ shape.offset other :=
  (Nat.lt_or_gt_of_ne hne).imp offset_add_chunksize_le offset_add_chunksize_le

theorem cqChunk_eq (h : shape.Describes queue) (hch : ch < shape.chunks) :
    cqChunk queue ch = shape.offset ch := by
  have hlt := offset_add_chunksize_lt hch
  rw [cqChunk, h.chunksize_eq, ← offset]
  exact Nat.mod_eq_of_lt (by omega)

theorem cqItem_eq (h : shape.Describes queue) (hch : ch < shape.chunks)
    (hit : it < shape.alignment) : cqItem queue ch it = shape.offset ch + 16 + 8 * it := by
  have hlt := offset_add_chunksize_lt hch
  unfold chunksize at hlt
  rw [cqItem, cqChunk_eq h hch]
  exact Nat.mod_eq_of_lt (by omega)

/-- The slot after a slot of a chunk. -/
theorem nextSlot_eq (h : shape.Describes queue) (hch : ch < shape.chunks)
    (hit : it < shape.alignment) : nextSlot queue it = (it + 1) % shape.alignment := by
  have hlt := offset_add_chunksize_lt hch
  unfold chunksize at hlt
  rw [nextSlot, h.alignment_eq, Nat.mod_eq_of_lt (show it + 1 < 2 ^ 64 by omega)]

/-- The copy of an item out of a chunk. -/
theorem wordAt_cqItem (h : shape.Describes queue) (hch : ch < shape.chunks)
    (hit : it < shape.alignment) :
    wordAt queue (cqItem queue ch it) = (shape.chunksOf queue ch).items it := by
  rw [cqItem_eq h hch hit, chunksOf]
  exact (if_pos hit).symm

/-- A change inside a chunk does not change the header. -/
theorem describes_overwrite (h : shape.Describes queue) (hlow : shape.offset ch ≤ address) :
    shape.Describes (overwrite queue address length data) := by
  have hheader : 64 ≤ shape.offset ch := Nat.le_add_right _ _
  exact ⟨(congrArg BitVec.toNat (wordAt_overwrite (by omega))).trans h.alignment_eq,
    (congrArg BitVec.toNat (wordAt_overwrite (by omega))).trans h.chunksize_eq⟩

theorem describes_storeWord (h : shape.Describes queue) (hlow : shape.offset ch ≤ address) :
    shape.Describes (storeWord queue address item) :=
  describes_overwrite h hlow

theorem describes_storeSize (h : shape.Describes queue) (hlow : shape.offset ch ≤ address) :
    shape.Describes (storeSize queue address size) :=
  describes_storeWord h hlow

/-- A change inside a chunk does not change another one. -/
theorem chunksOf_overwrite_of_ne (hlow : shape.offset ch ≤ address)
    (hhigh : address + length ≤ shape.offset ch + shape.chunksize) (hne : other ≠ ch) :
    shape.chunksOf (overwrite queue address length data) other = shape.chunksOf queue other := by
  have hdisjoint : shape.offset other + shape.chunksize ≤ shape.offset ch ∨
      shape.offset ch + shape.chunksize ≤ shape.offset other := offset_disjoint hne
  have hsize : shape.chunksize = 16 + 8 * shape.alignment := rfl
  simp only [chunksOf, sizeAt, Chunk.mk.injEq]
  refine ⟨by rw [wordAt_overwrite (by omega)], by rw [wordAt_overwrite (by omega)], ?_⟩
  funext it
  split_ifs with hit
  · exact wordAt_overwrite (by omega)
  · rfl

/-- Storing the head of a chunk. -/
theorem chunksOf_storeSize_head (hsize : size < 2 ^ 64) :
    shape.chunksOf (storeSize queue (shape.offset ch) size) =
      Function.update (shape.chunksOf queue) ch { shape.chunksOf queue ch with head := size } := by
  have hchunksize : shape.chunksize = 16 + 8 * shape.alignment := rfl
  refine Function.eq_update_iff.mpr ⟨?_, fun other hne ↦
    chunksOf_overwrite_of_ne (le_refl _) (by omega) hne⟩
  simp only [chunksOf, Chunk.mk.injEq]
  refine ⟨sizeAt_storeSize hsize _ _, sizeAt_storeSize_of_disjoint (by omega), ?_⟩
  funext it
  rw [storeSize, wordAt_storeWord_of_disjoint (by omega)]

/-- Storing the tail of a chunk. -/
theorem chunksOf_storeSize_tail (hsize : size < 2 ^ 64) :
    shape.chunksOf (storeSize queue (shape.offset ch + 8) size) =
      Function.update (shape.chunksOf queue) ch { shape.chunksOf queue ch with tail := size } := by
  have hchunksize : shape.chunksize = 16 + 8 * shape.alignment := rfl
  refine Function.eq_update_iff.mpr ⟨?_, fun other hne ↦
    chunksOf_overwrite_of_ne (by omega) (by omega) hne⟩
  simp only [chunksOf, Chunk.mk.injEq]
  refine ⟨sizeAt_storeSize_of_disjoint (by omega), sizeAt_storeSize hsize _ _, ?_⟩
  funext it
  rw [storeSize, wordAt_storeWord_of_disjoint (by omega)]

/-- Storing an item of a chunk. -/
theorem chunksOf_storeWord_item (hit : it < shape.alignment) :
    shape.chunksOf (storeWord queue (shape.offset ch + 16 + 8 * it) item) =
      Function.update (shape.chunksOf queue) ch
        { shape.chunksOf queue ch with
          items := Function.update (shape.chunksOf queue ch).items it item } := by
  have hchunksize : shape.chunksize = 16 + 8 * shape.alignment := rfl
  refine Function.eq_update_iff.mpr ⟨?_, fun other hne ↦
    chunksOf_overwrite_of_ne (by omega) (by omega) hne⟩
  simp only [chunksOf, sizeAt, Chunk.mk.injEq]
  refine ⟨by rw [wordAt_storeWord_of_disjoint (by omega)],
    by rw [wordAt_storeWord_of_disjoint (by omega)], ?_⟩
  refine Function.eq_update_iff.mpr ⟨by rw [if_pos hit, wordAt_storeWord], fun slot hne ↦ ?_⟩
  split_ifs with hslot
  · exact wordAt_storeWord_of_disjoint (by omega)
  · rfl

/-- The header that the creation writes. -/
theorem describes_header (hpos : 0 < shape.chunks) (block : ByteMemory) (normalizedLength : ℕ) :
    shape.Describes (storeSize (storeSize (storeSize block 0 shape.alignment) 8 normalizedLength) 16
      shape.chunksize) := by
  have hlt := offset_add_chunksize_lt hpos
  have hsize : shape.chunksize = 16 + 8 * shape.alignment := rfl
  have halignment : shape.alignment < 2 ^ 64 := by omega
  constructor
  · rw [cqAlignment, sizeAt_storeSize_of_disjoint (by omega),
      sizeAt_storeSize_of_disjoint (by omega), sizeAt_storeSize halignment]
  · exact sizeAt_storeSize (by omega) _ _

/-- The loop makes the chunks that it has visited empty rings. -/
theorem initChunks_spec (h : shape.Describes queue) {count : ℕ} (hcount : count ≤ shape.chunks) :
    shape.Describes (initChunks count queue) ∧
      cqLength (initChunks count queue) = cqLength queue ∧
      ∀ ch, shape.chunksOf (initChunks count queue) ch =
        if ch < count then { shape.chunksOf queue ch with head := 0, tail := 0 }
        else shape.chunksOf queue ch := by
  induction count with
  | zero => exact ⟨h, rfl, fun ch ↦ rfl⟩
  | succ count ih =>
    obtain ⟨hdescribes, hlength, hchunks⟩ := ih (by omega)
    have hheader : 64 ≤ shape.offset count := Nat.le_add_right _ _
    rw [initChunks, cqChunk_eq hdescribes (by omega)]
    refine ⟨describes_storeSize (describes_storeSize hdescribes (le_refl _))
      (Nat.le_add_right _ _), ?_, fun ch ↦ ?_⟩
    · rw [← hlength, cqLength, sizeAt_storeSize_of_disjoint (by omega),
        sizeAt_storeSize_of_disjoint (by omega), cqLength]
    rw [chunksOf_storeSize_tail (by omega), chunksOf_storeSize_head (by omega)]
    rcases eq_or_ne ch count with rfl | hne
    · simp only [Function.update_self, hchunks, lt_irrefl, if_false, Nat.lt_succ_self, if_true]
    · simp only [Function.update_of_ne hne, hchunks, Nat.lt_succ_iff_lt_or_eq, hne, or_false]

/-- No number that the creation computes on the way to the size of the block wraps. -/
theorem sizes_eq (hpos : 0 < shape.chunks)
    (hchunks : shape.chunks = totalchunks length shape.alignment) :
    (length + (shape.alignment + 2 ^ 64 - 1) % 2 ^ 64) % 2 ^ 64 / shape.alignment = shape.chunks ∧
      shape.chunks * shape.alignment % 2 ^ 64 = shape.chunks * shape.alignment ∧
      (16 + shape.alignment * 8 % 2 ^ 64) % 2 ^ 64 = shape.chunksize := by
  rw [totalchunks] at hchunks
  have hfits := shape.fits
  have halignment := shape.alignment_pos
  have hone : 1 * (16 + 8 * shape.alignment) ≤ shape.chunks * (16 + 8 * shape.alignment) :=
    Nat.mul_le_mul_right _ hpos
  have hitems : 8 * (shape.chunks * shape.alignment) ≤
      shape.chunks * (16 + 8 * shape.alignment) := by
    rw [Nat.mul_left_comm]
    exact Nat.mul_le_mul_left _ (Nat.le_add_left _ _)
  have hlength : length + (shape.alignment - 1) < (shape.chunks + 1) * shape.alignment := by
    rw [← Nat.div_lt_iff_lt_mul (by omega), ← hchunks]
    exact Nat.lt_succ_self _
  rw [Nat.add_mul, Nat.one_mul] at hlength
  have hminus : (shape.alignment + 2 ^ 64 - 1) % 2 ^ 64 = shape.alignment - 1 := by omega
  have hsum : (length + (shape.alignment - 1)) % 2 ^ 64 = length + (shape.alignment - 1) :=
    Nat.mod_eq_of_lt (by omega)
  refine ⟨?_, Nat.mod_eq_of_lt (by omega), ?_⟩
  · rw [hminus, hsum, ← hchunks]
  · unfold chunksize
    omega

/-- A new queue has the shape that the parameters of its creation give and announces the items of
all its chunks, which are empty rings. -/
theorem create_spec {malloc : ℕ → Option ByteMemory} {length : ℕ} (hpos : 0 < shape.chunks)
    (hchunks : shape.chunks = totalchunks length shape.alignment)
    (hcreate : mcmpChunkedQueueCreate malloc length shape.alignment = .ok queue) :
    shape.Describes queue ∧ cqLength queue = shape.chunks * shape.alignment ∧
      ∀ ch < shape.chunks,
        (shape.chunksOf queue ch).head = 0 ∧ (shape.chunksOf queue ch).tail = 0 := by
  obtain ⟨hcount, hannounced, hsize⟩ := sizes_eq hpos hchunks
  simp only [mcmpChunkedQueueCreate, hcount, hannounced, hsize] at hcreate
  split at hcreate
  · exact absurd hcreate (by simp)
  · rename_i block _
    obtain rfl := Except.ok.inj hcreate
    obtain ⟨hdescribes, hlength, hempty⟩ := initChunks_spec (describes_header hpos block
      (shape.chunks * shape.alignment)) (le_refl shape.chunks)
    refine ⟨hdescribes, ?_, fun ch hch ↦ ?_⟩
    · rw [hlength, cqLength, sizeAt_storeSize_of_disjoint (by omega),
        sizeAt_storeSize (by omega)]
    · rw [hempty, if_pos hch]
      exact ⟨rfl, rfl⟩

end Shape

/-- A queue without chunks is one for no items. -/
theorem length_eq_zero_of_totalchunks {length alignment : ℕ} (halignment : 1 ≤ alignment)
    (hzero : totalchunks length alignment = 0) : length = 0 := by
  rw [totalchunks, Nat.div_eq_zero_iff] at hzero
  omega

/-- The chunks have room for the items that the queue is created for. -/
theorem le_totalchunks_mul {length alignment : ℕ} (halignment : 1 ≤ alignment) :
    length ≤ totalchunks length alignment * alignment := by
  have hdiv := Nat.div_add_mod (length + (alignment - 1)) alignment
  have hmod := Nat.mod_lt (length + (alignment - 1)) halignment
  rw [Nat.mul_comm] at hdiv
  unfold totalchunks
  omega

/-- The number of chunks as the creation computes it, when there are none. -/
theorem totalchunks_zero {alignment : ℕ} (halignment : 1 ≤ alignment) (hword : alignment < 2 ^ 64) :
    (0 + (alignment + 2 ^ 64 - 1) % 2 ^ 64) % 2 ^ 64 / alignment = 0 := by
  have hminus : (0 + (alignment + 2 ^ 64 - 1) % 2 ^ 64) % 2 ^ 64 = alignment - 1 := by omega
  rw [hminus]
  exact Nat.div_eq_of_lt (by omega)

/-- A queue announces the items of all its chunks. -/
theorem cqLength_create {malloc : ℕ → Option ByteMemory} {length alignment : ℕ}
    {queue : McmpChunkedQueue} (halignment : 1 ≤ alignment) (hword : alignment < 2 ^ 64)
    (hfits : 64 + totalchunks length alignment * (16 + 8 * alignment) < 2 ^ 64)
    (hcreate : mcmpChunkedQueueCreate malloc length alignment = .ok queue) :
    cqLength queue = totalchunks length alignment * alignment := by
  rcases Nat.eq_zero_or_pos (totalchunks length alignment) with hzero | hpos
  · obtain rfl := length_eq_zero_of_totalchunks halignment hzero
    rw [hzero, Nat.zero_mul]
    simp only [mcmpChunkedQueueCreate, totalchunks_zero halignment hword, Nat.zero_mul] at hcreate
    split at hcreate
    · exact absurd hcreate (by simp)
    · obtain rfl := Except.ok.inj hcreate
      rw [initChunks, cqLength, sizeAt_storeSize_of_disjoint (by omega)]
      exact sizeAt_storeSize (by decide) _ _
  · exact ((Shape.ofLength length alignment halignment hfits).create_spec hpos rfl hcreate).2.1

/-! ### The steps on the chunks -/

/-- What a step can do to chunks of `alignment` items. -/
inductive ChunkStep (alignment : ℕ) (chunks : ℕ → Chunk) :
    ChunkThread → ChunkEvent → (ℕ → Chunk) → ChunkThread → Prop
  | called (call : ChunkCall) :
      ChunkStep alignment chunks .idle (.called call) chunks call.start
  | pushHead {ch : ℕ} {item : Item} :
      ChunkStep alignment chunks (.push ch item .loadHead) .accessed chunks
        (.push ch item (.loadTail (chunks ch).head))
  | pushFull {ch index : ℕ} {item : Item}
      (hfull : (index + 1) % alignment = (chunks ch).tail) :
      ChunkStep alignment chunks (.push ch item (.loadTail index)) (.refused (.push ch item)) chunks
        .idle
  | pushRoom {ch index : ℕ} {item : Item}
      (hroom : (index + 1) % alignment ≠ (chunks ch).tail) :
      ChunkStep alignment chunks (.push ch item (.loadTail index)) .accessed chunks
        (.push ch item (.reserveHead index))
  | pushRetry {ch index : ℕ} {item : Item} :
      ChunkStep alignment chunks (.push ch item (.reserveHead index)) .accessed chunks
        (.push ch item .loadHead)
  | reserved {ch index : ℕ} {item : Item} (hhead : (chunks ch).head = index) :
      ChunkStep alignment chunks (.push ch item (.reserveHead index)) (.reserved ch index item)
        (Function.update chunks ch { chunks ch with head := (index + 1) % alignment })
        (.push ch item (.copyItem index))
  | written {ch index : ℕ} {item : Item} :
      ChunkStep alignment chunks (.push ch item (.copyItem index)) (.written ch index item)
        (Function.update chunks ch
          { chunks ch with items := Function.update (chunks ch).items index item }) .idle
  | takeTail {ch : ℕ} :
      ChunkStep alignment chunks (.take ch .loadTail) .accessed chunks
        (.take ch (.loadHead (chunks ch).tail))
  | takeEmpty {ch index : ℕ} (hempty : (chunks ch).head = index) :
      ChunkStep alignment chunks (.take ch (.loadHead index)) (.refused (.take ch)) chunks .idle
  | takeSome {ch index : ℕ} (hsome : (chunks ch).head ≠ index) :
      ChunkStep alignment chunks (.take ch (.loadHead index)) .accessed chunks
        (.take ch (.reserveTail index))
  | takeRetry {ch index : ℕ} :
      ChunkStep alignment chunks (.take ch (.reserveTail index)) .accessed chunks
        (.take ch .loadTail)
  | removed {ch index : ℕ} (htail : (chunks ch).tail = index) :
      ChunkStep alignment chunks (.take ch (.reserveTail index)) (.removed ch index)
        (Function.update chunks ch { chunks ch with tail := (index + 1) % alignment })
        (.take ch (.copyItem index))
  | taken {ch index : ℕ} :
      ChunkStep alignment chunks (.take ch (.copyItem index))
        (.taken ch index ((chunks ch).items index)) chunks .idle

/-- A thread is outside any call, or in a call on a chunk that the queue has with an index of an
item. -/
def Shape.Inside (shape : Shape) : ChunkThread → Prop
  | .idle => True
  | .push ch _ .loadHead => ch < shape.chunks
  | .push ch _ (.loadTail index) => ch < shape.chunks ∧ index < shape.alignment
  | .push ch _ (.reserveHead index) => ch < shape.chunks ∧ index < shape.alignment
  | .push ch _ (.copyItem index) => ch < shape.chunks ∧ index < shape.alignment
  | .take ch .loadTail => ch < shape.chunks
  | .take ch (.loadHead index) => ch < shape.chunks ∧ index < shape.alignment
  | .take ch (.reserveTail index) => ch < shape.chunks ∧ index < shape.alignment
  | .take ch (.copyItem index) => ch < shape.chunks ∧ index < shape.alignment

/-- A queue of a shape between two steps: heads and tails are indices of items. -/
structure Shape.WellFormed (shape : Shape) (queue : McmpChunkedQueue) : Prop where
  describes : shape.Describes queue
  head_lt : ∀ ch < shape.chunks, (shape.chunksOf queue ch).head < shape.alignment
  tail_lt : ∀ ch < shape.chunks, (shape.chunksOf queue ch).tail < shape.alignment

/-- A queue that has been created is well formed. -/
theorem Shape.wellFormed_create {shape : Shape} {malloc : ℕ → Option ByteMemory} {length : ℕ}
    {queue : McmpChunkedQueue} (hpos : 0 < shape.chunks)
    (hchunks : shape.chunks = totalchunks length shape.alignment)
    (hcreate : mcmpChunkedQueueCreate malloc length shape.alignment = .ok queue) :
    shape.WellFormed queue := by
  obtain ⟨hdescribes, -, hempty⟩ := create_spec hpos hchunks hcreate
  exact ⟨hdescribes, fun ch hch ↦ (hempty ch hch).1 ▸ shape.alignment_pos,
    fun ch hch ↦ (hempty ch hch).2 ▸ shape.alignment_pos⟩

/-- The calls are on the first `count` chunks. -/
def OnChunks {ι Shared : Type*} (count : ℕ) : Guard ι Shared ChunkThread ChunkEvent :=
  fun _ _ _ event ↦ ∀ call, event = .called call → call.chunkidx < count

section Steps

variable {shape : Shape} {queue queue' : McmpChunkedQueue} {thread thread' : ChunkThread}
  {event : ChunkEvent}

theorem Shape.WellFormed.alignment_le (h : shape.WellFormed queue) :
    shape.alignment ≤ 2 ^ 64 := by
  rw [← h.describes.alignment_eq]
  exact (sizeAt_lt _ _).le

/-- The slot after a slot of a queue is a slot, and a `size_t`. -/
theorem Shape.WellFormed.next_lt (h : shape.WellFormed queue) (index : ℕ) :
    (index + 1) % shape.alignment < 2 ^ 64 :=
  (Nat.mod_lt _ shape.alignment_pos).trans_le h.alignment_le

/-- A step of a Push is one of the listed ones. -/
theorem chunkStep_push {ch : ℕ} {item : Item} {stage : PushStage} (spurious : Bool)
    (hqueue : shape.WellFormed queue) (hinside : shape.Inside (.push ch item stage)) :
    ChunkStep shape.alignment (shape.chunksOf queue) (.push ch item stage)
      (mcmpChunkedQueuePush ch item spurious queue stage).1
      (shape.chunksOf (mcmpChunkedQueuePush ch item spurious queue stage).2.1)
      (mcmpChunkedQueuePush ch item spurious queue stage).2.2 := by
  cases stage with
  | loadHead =>
    rw [mcmpChunkedQueuePush, Shape.cqChunk_eq hqueue.describes hinside]
    exact .pushHead
  | loadTail index =>
    obtain ⟨hch, hindex⟩ := hinside
    rw [mcmpChunkedQueuePush, Shape.cqChunk_eq hqueue.describes hch,
      Shape.nextSlot_eq hqueue.describes hch hindex]
    split_ifs with hfull
    · exact .pushFull hfull.symm
    · exact .pushRoom (Ne.symm hfull)
  | reserveHead index =>
    obtain ⟨hch, hindex⟩ := hinside
    rw [mcmpChunkedQueuePush, Shape.cqChunk_eq hqueue.describes hch,
      Shape.nextSlot_eq hqueue.describes hch hindex]
    split_ifs with hsame
    · rw [Shape.chunksOf_storeSize_head (hqueue.next_lt index)]
      exact .reserved hsame.1
    · exact .pushRetry
  | copyItem index =>
    obtain ⟨hch, hindex⟩ := hinside
    rw [mcmpChunkedQueuePush, Shape.cqItem_eq hqueue.describes hch hindex,
      Shape.chunksOf_storeWord_item hindex]
    exact .written

/-- A step of a Take is one of the listed ones. -/
theorem chunkStep_take {ch : ℕ} {stage : TakeStage} (spurious : Bool)
    (hqueue : shape.WellFormed queue) (hinside : shape.Inside (.take ch stage)) :
    ChunkStep shape.alignment (shape.chunksOf queue) (.take ch stage)
      (mcmpChunkedQueueTake ch spurious queue stage).1
      (shape.chunksOf (mcmpChunkedQueueTake ch spurious queue stage).2.1)
      (mcmpChunkedQueueTake ch spurious queue stage).2.2 := by
  cases stage with
  | loadTail =>
    rw [mcmpChunkedQueueTake, Shape.cqChunk_eq hqueue.describes hinside]
    exact .takeTail
  | loadHead index =>
    obtain ⟨hch, hindex⟩ := hinside
    rw [mcmpChunkedQueueTake, Shape.cqChunk_eq hqueue.describes hch]
    split_ifs with hempty
    · exact .takeEmpty hempty
    · exact .takeSome hempty
  | reserveTail index =>
    obtain ⟨hch, hindex⟩ := hinside
    rw [mcmpChunkedQueueTake, Shape.cqChunk_eq hqueue.describes hch,
      Shape.nextSlot_eq hqueue.describes hch hindex]
    split_ifs with hsame
    · rw [Shape.chunksOf_storeSize_tail (hqueue.next_lt index)]
      exact .removed hsame.1
    · exact .takeRetry
  | copyItem index =>
    obtain ⟨hch, hindex⟩ := hinside
    rw [mcmpChunkedQueueTake, Shape.wordAt_cqItem hqueue.describes hch hindex]
    exact .taken

/-- A step of the machine starts a call, or is a step of a Push or of a Take. -/
theorem chunkMachine_cases (hstep : chunkMachine.program queue thread event queue' thread') :
    (∃ call, thread = .idle ∧ event = .called call ∧ queue' = queue ∧ thread' = call.start) ∨
    (∃ ch item stage spurious, thread = .push ch item stage ∧
      event = (mcmpChunkedQueuePush ch item spurious queue stage).1 ∧
      queue' = (mcmpChunkedQueuePush ch item spurious queue stage).2.1 ∧
      thread' = (mcmpChunkedQueuePush ch item spurious queue stage).2.2) ∨
    ∃ ch stage spurious, thread = .take ch stage ∧
      event = (mcmpChunkedQueueTake ch spurious queue stage).1 ∧
      queue' = (mcmpChunkedQueueTake ch spurious queue stage).2.1 ∧
      thread' = (mcmpChunkedQueueTake ch spurious queue stage).2.2 := by
  obtain ⟨command, hcommand⟩ := hstep
  unfold chunkMachine at hcommand
  split at hcommand
  · simp only [Option.some.injEq, Prod.mk.injEq] at hcommand
    obtain ⟨rfl, rfl, rfl⟩ := hcommand
    exact Or.inl ⟨_, rfl, rfl, rfl, rfl⟩
  · have hresult := Prod.ext_iff.mp (Option.some.inj hcommand)
    exact Or.inr (Or.inl ⟨_, _, _, false, rfl, hresult.1.symm, (Prod.ext_iff.mp hresult.2).1.symm,
      (Prod.ext_iff.mp hresult.2).2.symm⟩)
  · have hresult := Prod.ext_iff.mp (Option.some.inj hcommand)
    exact Or.inr (Or.inr ⟨_, _, false, rfl, hresult.1.symm, (Prod.ext_iff.mp hresult.2).1.symm,
      (Prod.ext_iff.mp hresult.2).2.symm⟩)
  · have hresult := Prod.ext_iff.mp (Option.some.inj hcommand)
    exact Or.inr (Or.inl ⟨_, _, _, true, rfl, hresult.1.symm, (Prod.ext_iff.mp hresult.2).1.symm,
      (Prod.ext_iff.mp hresult.2).2.symm⟩)
  · have hresult := Prod.ext_iff.mp (Option.some.inj hcommand)
    exact Or.inr (Or.inr ⟨_, _, true, rfl, hresult.1.symm, (Prod.ext_iff.mp hresult.2).1.symm,
      (Prod.ext_iff.mp hresult.2).2.symm⟩)
  · exact absurd hcommand (by simp)

/-- `ChunkStep` lists every step of a machine whose calls are on chunks of the queue. -/
theorem chunkStep_of_program (hqueue : shape.WellFormed queue) (hinside : shape.Inside thread)
    (hstep : chunkMachine.program queue thread event queue' thread') :
    ChunkStep shape.alignment (shape.chunksOf queue) thread event (shape.chunksOf queue')
      thread' := by
  rcases chunkMachine_cases hstep with ⟨call, rfl, rfl, rfl, rfl⟩ | ⟨ch, item, stage, spurious, rfl,
    rfl, rfl, rfl⟩ | ⟨ch, stage, spurious, rfl, rfl, rfl, rfl⟩
  · exact .called call
  · exact chunkStep_push spurious hqueue hinside
  · exact chunkStep_take spurious hqueue hinside

/-- A step leaves the header of the queue as it is. -/
theorem describes_of_program (hqueue : shape.WellFormed queue) (hinside : shape.Inside thread)
    (hstep : chunkMachine.program queue thread event queue' thread') : shape.Describes queue' := by
  have hpush : ∀ ch item stage spurious, shape.Inside (.push ch item stage) →
      shape.Describes (mcmpChunkedQueuePush ch item spurious queue stage).2.1 := by
    intro ch item stage spurious hat
    cases stage with
    | loadHead => exact hqueue.describes
    | loadTail index =>
      rw [mcmpChunkedQueuePush]
      split_ifs <;> exact hqueue.describes
    | reserveHead index =>
      rw [mcmpChunkedQueuePush, Shape.cqChunk_eq hqueue.describes hat.1]
      split_ifs
      · exact Shape.describes_storeSize hqueue.describes (le_refl _)
      · exact hqueue.describes
    | copyItem index =>
      rw [mcmpChunkedQueuePush, Shape.cqItem_eq hqueue.describes hat.1 hat.2, Nat.add_assoc]
      exact Shape.describes_storeWord hqueue.describes (Nat.le_add_right _ _)
  have htake : ∀ ch stage spurious, shape.Inside (.take ch stage) →
      shape.Describes (mcmpChunkedQueueTake ch spurious queue stage).2.1 := by
    intro ch stage spurious hat
    cases stage with
    | loadTail => exact hqueue.describes
    | loadHead index =>
      rw [mcmpChunkedQueueTake]
      split_ifs <;> exact hqueue.describes
    | reserveTail index =>
      rw [mcmpChunkedQueueTake, Shape.cqChunk_eq hqueue.describes hat.1]
      split_ifs
      · exact Shape.describes_storeSize hqueue.describes (Nat.le_add_right _ _)
      · exact hqueue.describes
    | copyItem index => exact hqueue.describes
  rcases chunkMachine_cases hstep with ⟨call, -, -, rfl, -⟩ | ⟨ch, item, stage, spurious, rfl, -,
    rfl, -⟩ | ⟨ch, stage, spurious, rfl, -, rfl, -⟩
  · exact hqueue.describes
  · exact hpush ch item stage spurious hinside
  · exact htake ch stage spurious hinside

/-- A step leaves heads and tails inside the chunks, and the thread inside the queue. -/
theorem ChunkStep.inside {chunks chunks' : ℕ → Chunk}
    (hstep : ChunkStep shape.alignment chunks thread event chunks' thread')
    (hrings : ∀ ch < shape.chunks,
      (chunks ch).head < shape.alignment ∧ (chunks ch).tail < shape.alignment)
    (hinside : shape.Inside thread)
    (hcall : ∀ call, event = .called call → call.chunkidx < shape.chunks) :
    (∀ ch < shape.chunks,
      (chunks' ch).head < shape.alignment ∧ (chunks' ch).tail < shape.alignment) ∧
      shape.Inside thread' := by
  have hnext : ∀ index, (index + 1) % shape.alignment < shape.alignment := fun index ↦
    Nat.mod_lt _ shape.alignment_pos
  -- a change of one chunk that keeps head and tail inside
  have hupdate : ∀ (ch : ℕ) (chunk : Chunk), chunk.head < shape.alignment →
      chunk.tail < shape.alignment → ∀ other < shape.chunks,
      (Function.update chunks ch chunk other).head < shape.alignment ∧
        (Function.update chunks ch chunk other).tail < shape.alignment := by
    intro ch chunk hhead htail other hother
    rcases eq_or_ne other ch with rfl | hne
    · rw [Function.update_self]
      exact ⟨hhead, htail⟩
    · rw [Function.update_of_ne hne]
      exact hrings other hother
  cases hstep with
  | called call =>
    refine ⟨hrings, ?_⟩
    cases call <;> exact hcall _ rfl
  | pushHead => exact ⟨hrings, hinside, (hrings _ hinside).1⟩
  | pushFull => exact ⟨hrings, trivial⟩
  | pushRoom => exact ⟨hrings, hinside⟩
  | pushRetry => exact ⟨hrings, hinside.1⟩
  | reserved => exact ⟨hupdate _ _ (hnext _) (hrings _ hinside.1).2, hinside⟩
  | written => exact ⟨hupdate _ _ (hrings _ hinside.1).1 (hrings _ hinside.1).2, trivial⟩
  | takeTail => exact ⟨hrings, hinside, (hrings _ hinside).2⟩
  | takeEmpty => exact ⟨hrings, trivial⟩
  | takeSome => exact ⟨hrings, hinside⟩
  | takeRetry => exact ⟨hrings, hinside.1⟩
  | removed => exact ⟨hupdate _ _ (hrings _ hinside.1).1 (hnext _), hinside⟩
  | taken => exact ⟨hrings, trivial⟩

/-- A step leaves the queue well formed and the thread inside it. -/
theorem wellFormed_of_program (hqueue : shape.WellFormed queue) (hinside : shape.Inside thread)
    (hcall : ∀ call, event = .called call → call.chunkidx < shape.chunks)
    (hstep : chunkMachine.program queue thread event queue' thread') :
    shape.WellFormed queue' ∧ shape.Inside thread' := by
  obtain ⟨hrings, hthread⟩ := (chunkStep_of_program hqueue hinside hstep).inside
    (fun ch hch ↦ ⟨hqueue.head_lt ch hch, hqueue.tail_lt ch hch⟩) hinside hcall
  exact ⟨⟨describes_of_program hqueue hinside hstep, fun ch hch ↦ (hrings ch hch).1,
    fun ch hch ↦ (hrings ch hch).2⟩, hthread⟩

end Steps

section Runs

variable {ι : Type*} [DecidableEq ι] {shape : Shape} {queue : McmpChunkedQueue}
  {guard : Guard ι McmpChunkedQueue ChunkThread ChunkEvent}

/-- Along a run whose calls are on chunks of the queue, the queue is well formed and the threads are
inside it. -/
theorem wellFormed_of_run (hqueue : shape.WellFormed queue)
    (hguard : ∀ history config thread event, guard history config thread event →
      OnChunks shape.chunks history config thread event)
    {history : List (ι × ChunkEvent)} {config : Config ι McmpChunkedQueue ChunkThread}
    (hrun : ChunkRun guard queue history config) :
    shape.WellFormed config.shared ∧ ∀ thread, shape.Inside (config.threads thread) := by
  have hinitial : ∀ thread : ι, shape.Inside ((initially ι queue).threads thread) :=
    fun _ ↦ trivial
  refine Run.invariant (fun _ config ↦ shape.WellFormed config.shared ∧
    ∀ thread, shape.Inside (config.threads thread)) ⟨hqueue, hinitial⟩ ?_ hrun
  rintro history config thread event shared own - ⟨hshared, hthreads⟩ hmeets hstep
  obtain ⟨hshared', hown⟩ := wellFormed_of_program hshared (hthreads thread)
    (hguard _ _ _ _ hmeets) hstep
  refine ⟨hshared', fun other ↦ ?_⟩
  rcases eq_or_ne other thread with rfl | hne
  · rwa [Config.advance_threads_self]
  · rw [Config.advance_threads_of_ne _ hne]
    exact hthreads other

/-- A run whose calls are on chunks of the queue is a run of `ChunkStep` on the chunks. -/
theorem chunkStep_run (hqueue : shape.WellFormed queue)
    (hguard : ∀ history config thread event, guard history config thread event →
      OnChunks shape.chunks history config thread event)
    {guard' : Guard ι (ℕ → Chunk) ChunkThread ChunkEvent}
    (hguard' : ∀ history config thread event, guard history config thread event →
      guard' history (config.view shape.chunksOf id) thread event)
    {history : List (ι × ChunkEvent)} {config : Config ι McmpChunkedQueue ChunkThread}
    (hrun : ChunkRun guard queue history config) :
    Run (ChunkStep shape.alignment) guard' ⟨shape.chunksOf queue, fun _ ↦ .idle⟩ history
      (config.view shape.chunksOf id) := by
  have hinitial : (initially ι queue).view shape.chunksOf id =
      ⟨shape.chunksOf queue, fun _ ↦ .idle⟩ := rfl
  rw [← hinitial]
  refine Run.simulation shape.chunksOf id ?_ hrun
  intro history config thread event shared own hpast hmeets hstep
  obtain ⟨hshared, hthreads⟩ := wellFormed_of_run hqueue hguard hpast
  exact ⟨hguard' _ _ _ _ hmeets, chunkStep_of_program hshared (hthreads thread) hstep⟩

end Runs

end Mcmp.Utilities.ChunkedQueue
