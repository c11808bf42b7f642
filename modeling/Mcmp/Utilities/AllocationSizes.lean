import Mcmp.Utilities.ChunkedQueue
import Mcmp.Utilities.SetQueueBlock

/-!
# The sizes of the queues

Both kinds of queues are created in one block. Its size is put together from sums and products of
`size_t` numbers that the caller chooses, and none of them is checked for a wrap. This module
compares the sizes that are asked for (`setQueueRequest`, `chunkedQueueRequest`) with the exact ones
of what the creation lays out in the block (`setQueueSize`, `chunkedQueueSize`). They agree as long
as the exact size is a `size_t`. From there on the request is too small, whatever it wraps to, and
the creation fails only when there is no block of the smaller size either.
-/

set_option autoImplicit false
set_option relaxedAutoImplicit false

namespace Mcmp.Utilities.AllocationSizes

open Foundation.ByteBits ChunkedQueue SetQueueBlock

/-! ### The set queue -/

/-- A block that a set queue is created in is large enough for it. -/
def SetQueueFits (malloc : ℕ → Option ℕ) (length : ℕ) : Prop :=
  ∀ memory squ start, mcmpSetQueueCreate malloc memory length = .ok (squ, start) →
    setQueueSize length ≤ setQueueRequest length

theorem setQueueFits_iff (malloc : ℕ → Option ℕ) (length : ℕ) :
    SetQueueFits malloc length ↔
      malloc (setQueueRequest length) = none ∨ setQueueSize length < 2 ^ 64 := by
  have hrequest : setQueueRequest length < 2 ^ 64 := Nat.mod_lt _ (by decide)
  have hcreated := fun memory squ ↦ mcmpSetQueueCreate_ok_iff malloc memory length squ
  constructor
  · intro hfits
    rw [or_iff_not_imp_left]
    intro hsome
    obtain ⟨squ, hblock⟩ := Option.ne_none_iff_exists'.mp hsome
    obtain ⟨start, hcreate⟩ := (hcreated (fun _ ↦ 0#8) squ).mpr hblock
    have hle := hfits _ squ start hcreate
    omega
  · rintro (hnone | hsize) memory squ start hcreate
    · have hblock := (hcreated memory squ).mp ⟨start, hcreate⟩
      simp [hnone] at hblock
    · exact (setQueueRequest_eq hsize).ge

/-! ### The chunked queue -/

/-- The size that `mcmpChunkedQueueCreate` asks for. -/
def chunkedQueueRequest (length alignment : ℕ) : ℕ :=
  let totalchunks := ((length + (alignment + 2 ^ 64 - 1) % 2 ^ 64) % 2 ^ 64) / alignment
  let chunksize := (16 + alignment * 8 % 2 ^ 64) % 2 ^ 64
  (64 + totalchunks * chunksize % 2 ^ 64) % 2 ^ 64

/-- The size of a header and of chunks for `length` items, each of two indices and `alignment`
items. -/
def chunkedQueueSize (length alignment : ℕ) : ℕ :=
  64 + totalchunks length alignment * (16 + 8 * alignment)

/-- A queue is created in the block of the size asked for, and fails without one. -/
theorem mcmpChunkedQueueCreate_ok_iff (malloc : ℕ → Option ByteMemory) (length alignment : ℕ) :
    (∃ queue, mcmpChunkedQueueCreate malloc length alignment = .ok queue) ↔
      ∃ block, malloc (chunkedQueueRequest length alignment) = some block := by
  constructor
  · rintro ⟨queue, hcreate⟩
    simp only [mcmpChunkedQueueCreate] at hcreate
    split at hcreate
    · exact absurd hcreate (by simp)
    · next block hblock => exact ⟨block, hblock⟩
  · rintro ⟨block, hblock⟩
    simp only [chunkedQueueRequest] at hblock
    simp only [mcmpChunkedQueueCreate, hblock]
    exact ⟨_, rfl⟩

theorem chunkedQueueRequest_eq {length alignment : ℕ} (halignment : 1 ≤ alignment)
    (hword : alignment < 2 ^ 64) (hfits : chunkedQueueSize length alignment < 2 ^ 64) :
    chunkedQueueRequest length alignment = chunkedQueueSize length alignment := by
  have hexact : 64 + totalchunks length alignment * (16 + 8 * alignment) < 2 ^ 64 := hfits
  rcases Nat.eq_zero_or_pos (totalchunks length alignment) with hzero | hpos
  · obtain rfl := length_eq_zero_of_totalchunks halignment hzero
    simp only [chunkedQueueRequest, totalchunks_zero halignment hword, chunkedQueueSize, hzero,
      Nat.zero_mul]
    rfl
  · obtain ⟨hcount, -, hsize⟩ :=
      (Shape.ofLength length alignment halignment hfits).sizes_eq hpos rfl
    simp only [Shape.ofLength, Shape.chunksize] at hcount hsize
    simp only [chunkedQueueRequest, hcount, hsize, chunkedQueueSize]
    omega

/-- A block that a chunked queue is created in is large enough for it, and the queue announces at
least the length that it was asked for. -/
def ChunkedQueueFits (malloc : ℕ → Option ByteMemory) (length alignment : ℕ) : Prop :=
  ∀ queue, mcmpChunkedQueueCreate malloc length alignment = .ok queue →
    chunkedQueueSize length alignment ≤ chunkedQueueRequest length alignment ∧
      length ≤ cqLength queue

theorem chunkedQueueFits_iff (malloc : ℕ → Option ByteMemory) {length alignment : ℕ}
    (halignment : 1 ≤ alignment) (hword : alignment < 2 ^ 64) :
    ChunkedQueueFits malloc length alignment ↔
      malloc (chunkedQueueRequest length alignment) = none ∨
        chunkedQueueSize length alignment < 2 ^ 64 := by
  have hrequest : chunkedQueueRequest length alignment < 2 ^ 64 := Nat.mod_lt _ (by decide)
  have hcreated := mcmpChunkedQueueCreate_ok_iff malloc length alignment
  constructor
  · intro hfits
    rw [or_iff_not_imp_left]
    intro hsome
    obtain ⟨queue, hcreate⟩ := hcreated.mpr (Option.ne_none_iff_exists'.mp hsome)
    have hle := (hfits queue hcreate).1
    omega
  · rintro (hnone | hsize) queue hcreate
    · obtain ⟨block, hblock⟩ := hcreated.mp ⟨queue, hcreate⟩
      simp [hnone] at hblock
    · refine ⟨(chunkedQueueRequest_eq halignment hword hsize).ge, ?_⟩
      rw [cqLength_create halignment hword hsize hcreate]
      exact le_totalchunks_mul halignment

/-! ### Both queues -/

/-- For every length and alignment, a block that a queue is created in is at least as large as the
exact size of what the creation puts there exactly when the allocator refuses the size asked for, or
the exact size does not exceed a `size_t`. -/
theorem mcmpQueueCreate_fits_iff (setMalloc : ℕ → Option ℕ)
    (chunkMalloc : ℕ → Option ByteMemory) (length : ℕ) {alignment : ℕ} (halignment : 1 ≤ alignment)
    (hword : alignment < 2 ^ 64) :
    (SetQueueFits setMalloc length ↔
      setMalloc (setQueueRequest length) = none ∨ setQueueSize length < 2 ^ 64) ∧
    (ChunkedQueueFits chunkMalloc length alignment ↔
      chunkMalloc (chunkedQueueRequest length alignment) = none ∨
        chunkedQueueSize length alignment < 2 ^ 64) :=
  ⟨setQueueFits_iff setMalloc length, chunkedQueueFits_iff chunkMalloc halignment hword⟩

/-- Queues for four items, in two chunks, get blocks that are large enough. -/
theorem mcmpQueueCreate_fits_four :
    SetQueueFits (fun _ ↦ some 4096) 4 ∧ ChunkedQueueFits (fun _ ↦ some fun _ ↦ 57#8) 4 2 := by
  obtain ⟨hset, hchunked⟩ := mcmpQueueCreate_fits_iff (fun _ ↦ some 4096)
    (fun _ ↦ some fun _ ↦ 57#8) 4 (show 1 ≤ 2 by decide) (by decide)
  exact ⟨hset.mpr (Or.inr (by decide)), hchunked.mpr (Or.inr (by decide))⟩

/-- An allocator that has no block of more than 128 bytes has one of 56 bytes for a set queue of
`2 ^ 64 - 1` indices, and one for a chunked queue whose only chunk has `2 ^ 61` items. -/
theorem mcmpQueueCreate_wraps :
    setQueueRequest (2 ^ 64 - 1) = 56 ∧
      ¬ SetQueueFits (fun size ↦ if size ≤ 128 then some 4096 else none) (2 ^ 64 - 1) ∧
      chunkedQueueRequest 1 (2 ^ 61) = 80 ∧
      ¬ ChunkedQueueFits (fun size ↦ if size ≤ 128 then some fun _ ↦ 57#8 else none) 1
        (2 ^ 61) := by
  have hset : setQueueRequest (2 ^ 64 - 1) = 56 := by decide
  have hchunked : chunkedQueueRequest 1 (2 ^ 61) = 80 := by decide
  refine ⟨hset, fun hfits ↦ ?_, hchunked, fun hfits ↦ ?_⟩
  · rw [setQueueFits_iff, hset] at hfits
    exact absurd hfits (by decide)
  · rw [chunkedQueueFits_iff _ (by decide) (by decide), hchunked] at hfits
    exact absurd hfits (by decide)

end Mcmp.Utilities.AllocationSizes
