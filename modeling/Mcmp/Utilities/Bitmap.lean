import Mcmp.Foundation.WordMemory
import Mcmp.Status

/-!
# Single bits of a bitmap

The functions of bitmap.c that set, clear and test one bit. They take an index of type `bitidx_t`,
which is signed: the byte of the index and its place in the byte are computed by divisions that
round towards zero, and the place is then narrowed to `uint8_t`. For an index that is not negative
they set, clear and test the bit of that index (`mcmpBitmapEnableBit_natCast`,
`mcmpBitmapDisableBit_natCast`). Nothing in the functions refuses a negative index: the byte is then
one at or before the bitmap, and the place is zero or too large for a byte
(`bit_mcmpBitmapDisableBit_neg`).

A bitmap is given by its address in the memory, so its bit `j` is bit `8 * bitmap + j` of the
memory. A shift count is used modulo 32, as the machine does it; the source language leaves a larger
count open.
-/

set_option autoImplicit false
set_option relaxedAutoImplicit false

namespace Mcmp.Utilities.Bitmap

open Foundation.ByteBits Foundation.WordMemory

/-! ### The functions -/

/-- The address of `bitmap[byteoff]` for the byte of an index. -/
def byteAddress (bitmap : ℕ) (idx : ℤ) : ℕ := ((bitmap + idx.tdiv 8) % 2 ^ 64).toNat

/-- `(uint8_t)(idx % 8)`. -/
def bitidx (idx : ℤ) : ℕ := (idx.tmod 8 % 256).toNat

/-- `1 << bitidx`, an `int`. -/
def bitOf (idx : ℤ) : BitVec 32 := 1#32 <<< (bitidx idx % 32)

def mcmpBitmapCleanOrder (memory : ByteMemory) (bitmap len : ℕ) : ByteMemory :=
  overwrite memory bitmap len fun _ ↦ 0#8

def mcmpBitmapEnableBit (memory : ByteMemory) (bitmap : ℕ) (idx : ℤ) : ByteMemory :=
  Function.update memory (byteAddress bitmap idx)
    (((memory (byteAddress bitmap idx)).setWidth 32 ||| bitOf idx).setWidth 8)

def mcmpBitmapDisableBit (memory : ByteMemory) (bitmap : ℕ) (idx : ℤ) : ByteMemory :=
  Function.update memory (byteAddress bitmap idx)
    (((memory (byteAddress bitmap idx)).setWidth 32 &&& ~~~bitOf idx).setWidth 8)

def mcmpBitmapIsEnabledBit (memory : ByteMemory) (bitmap : ℕ) (idx : ℤ) : Bool :=
  (memory (byteAddress bitmap idx)).setWidth 32 &&& bitOf idx ≠ 0

def mcmpBitmapIsDisabledBit (memory : ByteMemory) (bitmap : ℕ) (idx : ℤ) : Bool :=
  (memory (byteAddress bitmap idx)).setWidth 32 &&& bitOf idx = 0

/-! ### Indices that are not negative -/

section NatCast

variable {memory : ByteMemory} {bitmap idx : ℕ}

theorem bitOf_natCast (idx : ℕ) : bitOf idx = 1#32 <<< (idx % 8) := by
  have hmod : (idx : ℤ).tmod 8 = (idx % 8 : ℕ) := (Int.ofNat_tmod idx 8).symm
  have hbitidx : bitidx idx % 32 = idx % 8 := by
    rw [bitidx, hmod]
    omega
  rw [bitOf, hbitidx]

theorem byteAddress_natCast (hfits : bitmap + idx / 8 < 2 ^ 64) :
    byteAddress bitmap idx = (8 * bitmap + idx) / 8 := by
  have hdiv : (idx : ℤ).tdiv 8 = (idx / 8 : ℕ) := (Int.ofNat_tdiv idx 8).symm
  rw [byteAddress, hdiv]
  omega

/-- The arithmetic on the promoted byte is that of the byte. -/
theorem setWidth_or_bitOf (byte : BitVec 8) (k : ℕ) :
    (byte.setWidth 32 ||| 1#32 <<< k).setWidth 8 = byte ||| bitMask k := by
  apply BitVec.eq_of_getLsbD_eq
  intro i hi
  have hwide : i < 32 := by omega
  simp only [bitMask, BitVec.getLsbD_setWidth, BitVec.getLsbD_or, hi, hwide, decide_true,
    Bool.true_and]

theorem setWidth_and_not_bitOf (byte : BitVec 8) (k : ℕ) :
    (byte.setWidth 32 &&& ~~~(1#32 <<< k)).setWidth 8 = byte &&& ~~~bitMask k := by
  apply BitVec.eq_of_getLsbD_eq
  intro i hi
  have hwide : i < 32 := by omega
  simp only [bitMask, BitVec.getLsbD_setWidth, BitVec.getLsbD_and, BitVec.getLsbD_not, hi, hwide,
    decide_true, Bool.true_and]

theorem setWidth_and_bitOf (byte : BitVec 8) {k : ℕ} (hk : k < 8) :
    byte.setWidth 32 &&& 1#32 <<< k ≠ 0 ↔ byte.getLsbD k = true := by
  have hwide : k < 32 := by omega
  constructor
  · intro hne
    rw [← Bool.not_eq_false]
    intro hclear
    refine hne (BitVec.eq_of_getLsbD_eq fun i hi ↦ ?_)
    rw [BitVec.getLsbD_and, BitVec.getLsbD_setWidth, BitVec.getLsbD_shiftLeft, BitVec.getLsbD_one]
    by_cases h : i = k
    · subst h
      simp [hclear]
    · have hshift : i < k ∨ i - k ≠ 0 := by omega
      rcases hshift with hlt | hne'
      · simp [hlt]
      · simp [hne']
  · intro hset heq
    have hbit := congrArg (fun x ↦ BitVec.getLsbD x k) heq
    simp [hwide, hset] at hbit

theorem mcmpBitmapEnableBit_natCast (hfits : bitmap + idx / 8 < 2 ^ 64) :
    mcmpBitmapEnableBit memory bitmap idx = setBit memory (8 * bitmap + idx) := by
  have hmod : (8 * bitmap + idx) % 8 = idx % 8 := by omega
  rw [mcmpBitmapEnableBit, byteAddress_natCast hfits, bitOf_natCast, setWidth_or_bitOf, setBit,
    hmod]

theorem mcmpBitmapDisableBit_natCast (hfits : bitmap + idx / 8 < 2 ^ 64) :
    mcmpBitmapDisableBit memory bitmap idx = clearBit memory (8 * bitmap + idx) := by
  have hmod : (8 * bitmap + idx) % 8 = idx % 8 := by omega
  rw [mcmpBitmapDisableBit, byteAddress_natCast hfits, bitOf_natCast, setWidth_and_not_bitOf,
    clearBit, hmod]

theorem mcmpBitmapIsEnabledBit_natCast (hfits : bitmap + idx / 8 < 2 ^ 64) :
    mcmpBitmapIsEnabledBit memory bitmap idx = bit memory (8 * bitmap + idx) := by
  have hmod : (8 * bitmap + idx) % 8 = idx % 8 := by omega
  rw [Bool.eq_iff_iff, mcmpBitmapIsEnabledBit, decide_eq_true_eq, byteAddress_natCast hfits,
    bitOf_natCast, setWidth_and_bitOf _ (Nat.mod_lt _ (by omega)), bit, hmod]

theorem mcmpBitmapIsDisabledBit_natCast (hfits : bitmap + idx / 8 < 2 ^ 64) :
    mcmpBitmapIsDisabledBit memory bitmap idx = !bit memory (8 * bitmap + idx) := by
  rw [← mcmpBitmapIsEnabledBit_natCast hfits]
  simp [mcmpBitmapIsEnabledBit, mcmpBitmapIsDisabledBit]

end NatCast

/-! ### Negative indices -/

theorem bitMask_of_le {k : ℕ} (hk : 8 ≤ k) : bitMask k = 0#8 := by
  apply BitVec.eq_of_getLsbD_eq
  intro i hi
  rw [bitMask, BitVec.getLsbD_setWidth, BitVec.getLsbD_shiftLeft]
  simp only [show i < k by omega, decide_true, Bool.not_true, Bool.and_false, Bool.false_and,
    BitVec.getLsbD_zero]

/-- Clearing the bit of a negative index leaves the bitmap as it is: the byte is one before the
bitmap, or the mask of the place has no bit in a byte. -/
theorem bit_mcmpBitmapDisableBit_neg (memory : ByteMemory) {bitmap len k j : ℕ} (hpos : 0 < k)
    (hk : k / 8 + len ≤ 2 ^ 64) (hj : j < 8 * len) :
    bit (mcmpBitmapDisableBit memory bitmap (-k)) (8 * bitmap + j) =
      bit memory (8 * bitmap + j) := by
  have hdiv : (-(k : ℤ)).tdiv 8 = -(k / 8 : ℕ) := by
    rw [Int.neg_tdiv]
    exact congrArg Neg.neg (Int.ofNat_tdiv k 8).symm
  have hmod : (-(k : ℤ)).tmod 8 = -(k % 8 : ℕ) := by
    rw [Int.neg_tmod]
    exact congrArg Neg.neg (Int.ofNat_tmod k 8).symm
  have hbyte : (8 * bitmap + j) / 8 = bitmap + j / 8 := by omega
  rw [bit, bit, hbyte, mcmpBitmapDisableBit]
  by_cases hsame : bitmap + j / 8 = byteAddress bitmap (-k)
  · rw [← hsame, Function.update_self]
    have hlarge : 8 ≤ bitidx (-k) % 32 := by
      rw [byteAddress, hdiv] at hsame
      rw [bitidx, hmod]
      omega
    have hall : ~~~0#8 = BitVec.allOnes 8 := rfl
    rw [bitOf, setWidth_and_not_bitOf, bitMask_of_le hlarge, hall, BitVec.and_allOnes]
  · rw [Function.update_of_ne hsame]

end Mcmp.Utilities.Bitmap
