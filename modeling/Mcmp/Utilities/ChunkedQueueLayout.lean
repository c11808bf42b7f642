import Mathlib.Algebra.Order.Floor.Div
import Mathlib.Order.CompletePartialOrder
import Mathlib.Order.Interval.Set.Disjoint
import Mcmp.Utilities.AllocationSizes

/-!
# The layout of a chunked queue

The macros of chunkedqueue.h compute where a chunk and an item of a queue are, with the stride that
the creation has put into the header. Every offset is a `size_t` that may have wrapped. As long as
the exact size of the queue is a `size_t`, no offset wraps: the header, the pairs of indices at the
starts of the chunks and the cells of the items are ranges of the block that do not overlap
(`Layout`).

The stride depends on the number of items of a chunk, so that the offset of an item is a product of
two numbers that the caller chooses. All that is needed of it is that a chunk ends where or before a
later one begins (`Shape.offset_disjoint`).
-/

set_option autoImplicit false
set_option relaxedAutoImplicit false

namespace Mcmp.Utilities.ChunkedQueueLayout

open Foundation.ByteBits ChunkedQueue AllocationSizes

/-! ### The parts of a queue -/

variable (queue : McmpChunkedQueue)

/-- The bytes of the header. -/
def headerBytes : Set ℕ := Set.Ico 0 64

/-- The bytes of the head and the tail of a chunk. -/
def chunkBytes (ch : ℕ) : Set ℕ := Set.Ico (cqChunk queue ch) (cqChunk queue ch + 16)

/-- The bytes of an item of a chunk. -/
def itemBytes (ch it : ℕ) : Set ℕ := Set.Ico (cqItem queue ch it) (cqItem queue ch it + 8)

/-- The parts of a queue of some chunks, of `alignment` items each, lie in a block of `size` bytes
and do not overlap. -/
structure Layout (chunks alignment size : ℕ) : Prop where
  item_block : ∀ ch < chunks, ∀ it < alignment, itemBytes queue ch it ⊆ Set.Iio size
  item_header : ∀ ch < chunks, ∀ it < alignment, Disjoint (itemBytes queue ch it) headerBytes
  item_chunk : ∀ ch < chunks, ∀ it < alignment, ∀ ch' < chunks,
    Disjoint (itemBytes queue ch it) (chunkBytes queue ch')
  item_item : ∀ ch < chunks, ∀ it < alignment, ∀ ch' < chunks, ∀ it' < alignment,
    ¬ Disjoint (itemBytes queue ch it) (itemBytes queue ch' it') → (ch, it) = (ch', it')
  chunk_block : ∀ ch < chunks, chunkBytes queue ch ⊆ Set.Iio size
  chunk_header : ∀ ch < chunks, Disjoint (chunkBytes queue ch) headerBytes
  chunk_chunk : ∀ ch < chunks, ∀ ch' < chunks, ch ≠ ch' →
    Disjoint (chunkBytes queue ch) (chunkBytes queue ch')

/-! ### They do not overlap -/

section Parts

variable {queue : McmpChunkedQueue} {first second length length' : ℕ}

/-- Two ranges are disjoint when one ends where or before the other begins. -/
theorem disjoint_Ico (hapart : first + length ≤ second ∨ second + length' ≤ first) :
    Disjoint (Set.Ico first (first + length)) (Set.Ico second (second + length')) := by
  rw [Set.disjoint_left]
  rintro i ⟨hlow, hhigh⟩ ⟨hlow', hhigh'⟩
  omega

theorem layout_of_describes {shape : Shape} (h : shape.Describes queue) :
    Layout queue shape.chunks shape.alignment (64 + shape.chunks * shape.chunksize) := by
  have hsize : shape.chunksize = 16 + 8 * shape.alignment := rfl
  have hend : ∀ ch < shape.chunks,
      shape.offset ch + shape.chunksize ≤ 64 + shape.chunks * shape.chunksize := fun ch hch ↦
    Shape.offset_add_chunksize_le hch
  have hstart : ∀ ch, 64 ≤ shape.offset ch := fun ch ↦ Nat.le_add_right _ _
  have hdisjoint : ∀ {ch ch' : ℕ}, ch ≠ ch' →
      shape.offset ch + shape.chunksize ≤ shape.offset ch' ∨
        shape.offset ch' + shape.chunksize ≤ shape.offset ch := Shape.offset_disjoint
  refine ⟨?_, ?_, ?_, ?_, ?_, ?_, ?_⟩
  · rintro ch hch it hit i ⟨-, hi⟩
    have hchunk := hend ch hch
    rw [Shape.cqItem_eq h hch hit] at hi
    rw [Set.mem_Iio]
    omega
  · intro ch hch it hit
    have hchunk := hstart ch
    rw [itemBytes, Shape.cqItem_eq h hch hit]
    exact @disjoint_Ico _ 0 8 64 (Or.inr (by omega))
  · intro ch hch it hit ch' hch'
    rw [itemBytes, chunkBytes, Shape.cqItem_eq h hch hit, Shape.cqChunk_eq h hch']
    apply disjoint_Ico
    by_cases hsame : ch = ch'
    · subst hsame
      omega
    · have hapart := hdisjoint hsame
      omega
  · intro ch hch it hit ch' hch' it' hit' hoverlap
    rw [itemBytes, itemBytes, Shape.cqItem_eq h hch hit, Shape.cqItem_eq h hch' hit'] at hoverlap
    have hnot := mt disjoint_Ico hoverlap
    by_cases hsame : ch = ch'
    · subst hsame
      rw [Prod.mk.injEq]
      omega
    · have hapart := hdisjoint hsame
      omega
  · rintro ch hch i ⟨-, hi⟩
    have hchunk := hend ch hch
    rw [Shape.cqChunk_eq h hch] at hi
    rw [Set.mem_Iio]
    omega
  · intro ch hch
    have hchunk := hstart ch
    rw [chunkBytes, Shape.cqChunk_eq h hch]
    exact @disjoint_Ico _ 0 16 64 (Or.inr (by omega))
  · intro ch hch ch' hch' hne
    rw [chunkBytes, chunkBytes, Shape.cqChunk_eq h hch, Shape.cqChunk_eq h hch']
    have hapart := hdisjoint hne
    exact disjoint_Ico (by omega)

/-- A queue without chunks has no parts but the header. -/
theorem layout_zero (queue : McmpChunkedQueue) (alignment size : ℕ) :
    Layout queue 0 alignment size := by
  constructor <;> exact fun ch hch ↦ absurd hch (Nat.not_lt_zero ch)

end Parts

theorem totalchunks_eq_ceilDiv {length alignment : ℕ} (halignment : 1 ≤ alignment) :
    totalchunks length alignment = length ⌈/⌉ alignment := by
  rw [Nat.ceilDiv_eq_add_pred_div, totalchunks]
  congr 1
  omega

/-- Whatever block the allocator returns for the size that the creation asks for: when the exact
size of the queue is a `size_t`, the parts of the queue lie in a block of the size asked for and do
not overlap. -/
theorem mcmpChunkedQueueCreate_layout (malloc : ℕ → Option ByteMemory) {length alignment : ℕ}
    {queue : McmpChunkedQueue} (halignment : 1 ≤ alignment)
    (hfits : chunkedQueueSize length alignment < 2 ^ 64)
    (hcreate : mcmpChunkedQueueCreate malloc length alignment = .ok queue) :
    Layout queue (length ⌈/⌉ alignment) alignment (chunkedQueueRequest length alignment) := by
  rw [← totalchunks_eq_ceilDiv halignment]
  rcases Nat.eq_zero_or_pos (totalchunks length alignment) with hzero | hpos
  · rw [hzero]
    exact layout_zero queue _ _
  · have hone : 1 * (16 + 8 * alignment) ≤
        totalchunks length alignment * (16 + 8 * alignment) := Nat.mul_le_mul_right _ hpos
    have hexact : 64 + totalchunks length alignment * (16 + 8 * alignment) < 2 ^ 64 := hfits
    have hdescribes := (@Shape.create_spec (Shape.ofLength length alignment halignment hfits)
      queue malloc length hpos rfl hcreate).1
    rw [chunkedQueueRequest_eq halignment (by omega) hfits]
    exact layout_of_describes hdescribes

/-- The queue for four items in two chunks. -/
theorem mcmpChunkedQueueCreate_layout_four : Layout queueOfFour 2 2 128 :=
  @mcmpChunkedQueueCreate_layout (fun _ ↦ some fun _ ↦ 57#8) 4 2 _ (by decide) (by decide)
    mcmpChunkedQueueCreate_queueOfFour

end Mcmp.Utilities.ChunkedQueueLayout
