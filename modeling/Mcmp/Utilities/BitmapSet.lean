import Mathlib.Data.Set.Insert
import Mcmp.Utilities.AtomicBitmap
import Mcmp.Utilities.Bitmap

/-!
# A bitmap as a set

A bitmap of `len` bytes is a set of indices below `8 * len`. `mcmpBitmapEnableBit` inserts an index,
`mcmpBitmapDisableBit` removes one, and `mcmpBitmapCleanOrder` leaves the empty set
(`bitmapSet_apply`). So after any sequence of these operations an index is in the set if the last
operation that affected it has inserted it, or if none has affected it and it was there at the start
(`mem_runSet`). The plain and the atomic functions that test a bit all read this set.
-/

set_option autoImplicit false
set_option relaxedAutoImplicit false

namespace Mcmp.Utilities.BitmapSet

open Foundation.ByteBits Foundation.WordMemory

/-! ### The operations -/

/-- An operation on a bitmap. -/
inductive BitmapOp
  | enable (idx : ℕ)
  | disable (idx : ℕ)
  | cleanOrder
  deriving DecidableEq, Repr

/-- The indices of an operation are those of a bitmap of `len` bytes. -/
def BitmapOp.Within (len : ℕ) : BitmapOp → Prop
  | enable idx => idx < 8 * len
  | disable idx => idx < 8 * len
  | cleanOrder => True

instance (len : ℕ) : ∀ op : BitmapOp, Decidable (op.Within len)
  | .enable idx => inferInstanceAs (Decidable (idx < 8 * len))
  | .disable idx => inferInstanceAs (Decidable (idx < 8 * len))
  | .cleanOrder => isTrue trivial

/-- The operation on the memory of a bitmap. -/
def BitmapOp.apply (bitmap len : ℕ) (memory : ByteMemory) : BitmapOp → ByteMemory
  | enable idx => Bitmap.mcmpBitmapEnableBit memory bitmap idx
  | disable idx => Bitmap.mcmpBitmapDisableBit memory bitmap idx
  | cleanOrder => Bitmap.mcmpBitmapCleanOrder memory bitmap len

/-- A sequence of operations on the memory of a bitmap. -/
def runBitmap (bitmap len : ℕ) (memory : ByteMemory) (ops : List BitmapOp) : ByteMemory :=
  ops.foldl (BitmapOp.apply bitmap len) memory

/-- The operation on a set of indices. -/
def BitmapOp.onSet (indices : Set ℕ) : BitmapOp → Set ℕ
  | enable idx => insert idx indices
  | disable idx => indices \ {idx}
  | cleanOrder => ∅

/-- A sequence of operations on a set of indices. -/
def runSet (indices : Set ℕ) (ops : List BitmapOp) : Set ℕ := ops.foldl BitmapOp.onSet indices

/-- The operation decides whether an index is in the set. -/
def BitmapOp.affects (j : ℕ) : BitmapOp → Bool
  | enable idx => idx = j
  | disable idx => idx = j
  | cleanOrder => true

/-- The last operation that affects an index. -/
def lastAffecting (ops : List BitmapOp) (j : ℕ) : Option BitmapOp :=
  (ops.filter (BitmapOp.affects j)).getLast?

/-- The indices of the bits that are set in a bitmap. -/
def bitmapSet (memory : ByteMemory) (bitmap len : ℕ) : Set ℕ :=
  {j | j < 8 * len ∧ bit memory (8 * bitmap + j) = true}

/-! ### A sequence of operations on a set -/

theorem lastAffecting_concat (ops : List BitmapOp) (op : BitmapOp) (j : ℕ) :
    lastAffecting (ops ++ [op]) j =
      if op.affects j = true then some op else lastAffecting ops j := by
  by_cases haffects : op.affects j = true
  · simp [lastAffecting, haffects]
  · simp [lastAffecting, haffects]

/-- An operation that affects an index puts it into the set or takes it out, whatever the set. -/
theorem mem_onSet_of_affects {op : BitmapOp} {j : ℕ} (haffects : op.affects j = true)
    (indices : Set ℕ) : j ∈ op.onSet indices ↔ op = .enable j := by
  cases op with
  | enable idx =>
    obtain rfl : idx = j := of_decide_eq_true haffects
    simp [BitmapOp.onSet]
  | disable idx =>
    obtain rfl : idx = j := of_decide_eq_true haffects
    simp [BitmapOp.onSet]
  | cleanOrder => simp [BitmapOp.onSet]

theorem mem_onSet_of_not_affects {op : BitmapOp} {j : ℕ} (haffects : ¬ op.affects j = true)
    (indices : Set ℕ) : j ∈ op.onSet indices ↔ j ∈ indices := by
  cases op with
  | enable idx =>
    have hne : j ≠ idx := fun h ↦ haffects (decide_eq_true h.symm)
    simp [BitmapOp.onSet, hne]
  | disable idx =>
    have hne : j ≠ idx := fun h ↦ haffects (decide_eq_true h.symm)
    simp [BitmapOp.onSet, hne]
  | cleanOrder => exact absurd rfl haffects

/-- After a sequence of operations an index is in the set when the last operation that affected it
has inserted it, or none has affected it and it was there before. -/
theorem mem_runSet (ops : List BitmapOp) (indices : Set ℕ) (j : ℕ) :
    j ∈ runSet indices ops ↔
      lastAffecting ops j = some (.enable j) ∨ lastAffecting ops j = none ∧ j ∈ indices := by
  induction ops using List.reverseRecOn with
  | nil => simp [runSet, lastAffecting]
  | append_singleton ops op ih =>
    rw [runSet, List.foldl_append, List.foldl_cons, List.foldl_nil, ← runSet, lastAffecting_concat]
    by_cases haffects : op.affects j = true
    · rw [mem_onSet_of_affects haffects, if_pos haffects]
      simp
    · rw [mem_onSet_of_not_affects haffects, if_neg haffects, ih]

/-! ### The bitmap is the set -/

section Refinement

variable {memory : ByteMemory} {bitmap len : ℕ}

/-- An operation on the memory is the operation on the set. -/
theorem bitmapSet_apply (hfits : bitmap + len ≤ 2 ^ 64) {op : BitmapOp} (hop : op.Within len) :
    bitmapSet (op.apply bitmap len memory) bitmap len = op.onSet (bitmapSet memory bitmap len) := by
  ext j
  cases op with
  | enable idx =>
    have hidx : idx < 8 * len := hop
    rw [BitmapOp.apply, Bitmap.mcmpBitmapEnableBit_natCast (by omega)]
    simp only [bitmapSet, Set.mem_ofPred_eq, bit_setBit, BitmapOp.onSet, Set.mem_insert_iff,
      Bool.or_eq_true, decide_eq_true_eq, Nat.add_left_cancel_iff]
    constructor
    · rintro ⟨hj, hset | rfl⟩
      · exact Or.inr ⟨hj, hset⟩
      · exact Or.inl rfl
    · rintro (rfl | ⟨hj, hset⟩)
      · exact ⟨hidx, Or.inr rfl⟩
      · exact ⟨hj, Or.inl hset⟩
  | disable idx =>
    have hidx : idx < 8 * len := hop
    rw [BitmapOp.apply, Bitmap.mcmpBitmapDisableBit_natCast (by omega)]
    simp only [bitmapSet, Set.mem_ofPred_eq, bit_clearBit, BitmapOp.onSet, Set.mem_sdiff,
      Set.mem_singleton_iff, Bool.and_eq_true, Bool.not_eq_true', decide_eq_false_iff_not,
      Nat.add_left_cancel_iff, and_assoc]
  | cleanOrder =>
    simp only [bitmapSet, Set.mem_ofPred_eq, BitmapOp.apply, BitmapOp.onSet,
      Set.mem_empty_iff_false, iff_false, not_and]
    intro hj
    rw [bit, Bitmap.mcmpBitmapCleanOrder, overwrite_inside (by omega) (by omega)]
    simp

/-- A sequence of operations on the memory is the sequence on the set. -/
theorem bitmapSet_run (hfits : bitmap + len ≤ 2 ^ 64) {ops : List BitmapOp}
    (hops : ∀ op ∈ ops, op.Within len) :
    bitmapSet (runBitmap bitmap len memory ops) bitmap len =
      runSet (bitmapSet memory bitmap len) ops := by
  induction ops generalizing memory with
  | nil => rfl
  | cons op ops ih =>
    have hrest : ∀ other ∈ ops, other.Within len := fun other hother ↦
      hops other (List.mem_cons_of_mem op hother)
    refine (ih hrest).trans (congrArg (fun indices ↦ runSet indices ops) ?_)
    exact bitmapSet_apply hfits (hops op List.mem_cons_self)

end Refinement

/-- After any sequence of operations within a bitmap, the functions that test a bit, plain and
atomic, agree: the bit is set when the last operation that affected it was an enable, or it was set
at the start and none has affected it. -/
theorem bitmap_tests (memory : ByteMemory) {bitmap len j : ℕ} (hfits : bitmap + len ≤ 2 ^ 64)
    {ops : List BitmapOp} (hops : ∀ op ∈ ops, op.Within len) (hj : j < 8 * len) :
    (Bitmap.mcmpBitmapIsEnabledBit (runBitmap bitmap len memory ops) bitmap j = true ↔
      lastAffecting ops j = some (.enable j) ∨
        lastAffecting ops j = none ∧ bit memory (8 * bitmap + j) = true) ∧
    Bitmap.mcmpBitmapIsDisabledBit (runBitmap bitmap len memory ops) bitmap j =
      !Bitmap.mcmpBitmapIsEnabledBit (runBitmap bitmap len memory ops) bitmap j ∧
    AtomicBitmap.mcmpAtomicBitmapIsEnabledBit
        (bytesFrom (runBitmap bitmap len memory ops) bitmap) j =
      Bitmap.mcmpBitmapIsEnabledBit (runBitmap bitmap len memory ops) bitmap j ∧
    AtomicBitmap.mcmpAtomicBitmapIsDisabledBit
        (bytesFrom (runBitmap bitmap len memory ops) bitmap) j =
      Bitmap.mcmpBitmapIsDisabledBit (runBitmap bitmap len memory ops) bitmap j := by
  have hbyte : bitmap + j / 8 < 2 ^ 64 := by omega
  refine ⟨?_, ?_, ?_, ?_⟩
  · rw [Bitmap.mcmpBitmapIsEnabledBit_natCast hbyte]
    have hrun := mem_runSet ops (bitmapSet memory bitmap len) j
    rw [← bitmapSet_run hfits hops] at hrun
    simpa only [bitmapSet, Set.mem_ofPred_eq, hj, true_and] using hrun
  · rw [Bitmap.mcmpBitmapIsDisabledBit_natCast hbyte, Bitmap.mcmpBitmapIsEnabledBit_natCast hbyte]
  · rw [AtomicBitmap.mcmpAtomicBitmapIsEnabledBit_eq, bit_bytesFrom,
      Bitmap.mcmpBitmapIsEnabledBit_natCast hbyte]
  · rw [AtomicBitmap.mcmpAtomicBitmapIsDisabledBit_eq, bit_bytesFrom,
      Bitmap.mcmpBitmapIsDisabledBit_natCast hbyte]

/-- A bitmap of two bytes at address 4096, full of ones, is cleaned, and the bits 1, 0 and 10 are
enabled. -/
theorem bitmap_tests_two_bytes :
    Bitmap.mcmpBitmapIsEnabledBit (runBitmap 4096 2 (fun _ ↦ 255#8)
        [.cleanOrder, .enable 1, .enable 0, .enable 10]) 4096 (10 : ℕ) = true ∧
      Bitmap.mcmpBitmapIsDisabledBit (runBitmap 4096 2 (fun _ ↦ 255#8)
        [.cleanOrder, .enable 1, .enable 0, .enable 10]) 4096 (10 : ℕ) = false := by
  have hops : ∀ op ∈ [BitmapOp.cleanOrder, .enable 1, .enable 0, .enable 10], op.Within 2 := by
    decide
  obtain ⟨henabled, hdisabled, -⟩ :=
    @bitmap_tests (fun _ ↦ 255#8) 4096 2 10 (by decide) _ hops (by decide)
  have hset := henabled.mpr (by decide)
  exact ⟨hset, by rw [hdisabled, hset]; rfl⟩

end Mcmp.Utilities.BitmapSet
