import Mcmp.Foundation.ByteBits

/-!
# Byte order

A little-endian machine loads a big-endian number by loading the word and reversing its bytes
(`byteSwap`). The word that comes out is the number that the bytes of the memory spell from the most
significant one on (`BigEndianAt`, `byteSwap_chunkAt_eq_iff`).
-/

set_option autoImplicit false
set_option relaxedAutoImplicit false

namespace Mcmp.Foundation.ByteOrder

open ByteBits

/-- A byte and a word have together the width of a word with one byte more. -/
theorem byte_add_width (width : ℕ) : 8 + 8 * width = 8 * (width + 1) := by omega

/-- The word with its bytes in the reverse order. -/
def byteSwap : (width : ℕ) → BitVec (8 * width) → BitVec (8 * width)
  | 0, _ => 0#0
  | width + 1, word =>
    (word.setWidth 8 ++ byteSwap width ((word >>> 8).setWidth (8 * width))).cast
      (byte_add_width width)

/-- Reversing the bytes keeps the place of a bit in its byte. -/
theorem getLsbD_byteSwap {width : ℕ} (word : BitVec (8 * width)) {k : ℕ} (hk : k < 8 * width) :
    (byteSwap width word).getLsbD k = word.getLsbD (8 * (width - 1 - k / 8) + k % 8) := by
  induction width with
  | zero => omega
  | succ width ih =>
    rw [byteSwap, BitVec.getLsbD_cast, BitVec.getLsbD_append]
    by_cases hlow : k < 8 * width
    · rw [if_pos hlow, ih _ hlow, BitVec.getLsbD_setWidth, BitVec.getLsbD_ushiftRight]
      have hinside : 8 * (width - 1 - k / 8) + k % 8 < 8 * width := by omega
      have hplace : 8 + (8 * (width - 1 - k / 8) + k % 8) =
          8 * (width + 1 - 1 - k / 8) + k % 8 := by omega
      rw [hplace, decide_eq_true hinside, Bool.true_and]
    · rw [if_neg hlow, BitVec.getLsbD_setWidth]
      have hinside : k - 8 * width < 8 := by omega
      have hplace : 8 * (width + 1 - 1 - k / 8) + k % 8 = k - 8 * width := by omega
      rw [hplace, decide_eq_true hinside, Bool.true_and]

/-- The bytes from an address on are the big-endian representation of a word. -/
def BigEndianAt (bytes : ByteMemory) (address width : ℕ) (word : BitVec (8 * width)) : Prop :=
  ∀ i < width, bytes (address + i) = (word >>> (8 * (width - 1 - i))).setWidth 8

instance (bytes : ByteMemory) (address width : ℕ) (word : BitVec (8 * width)) :
    Decidable (BigEndianAt bytes address width word) :=
  inferInstanceAs (Decidable (∀ i < width, _))

/-- Loading a word and reversing its bytes gives the number that the bytes represent big-endian. -/
theorem byteSwap_chunkAt_eq_iff (bytes : ByteMemory) (address width : ℕ)
    (word : BitVec (8 * width)) :
    byteSwap width (chunkAt bytes address width) = word ↔ BigEndianAt bytes address width word := by
  have hbit {k : ℕ} (hk : k < 8 * width) :
      (byteSwap width (chunkAt bytes address width)).getLsbD k =
        (bytes (address + (width - 1 - k / 8))).getLsbD (k % 8) := by
    have hinside : 8 * (width - 1 - k / 8) + k % 8 < 8 * width := by omega
    have hdiv : (8 * address + (8 * (width - 1 - k / 8) + k % 8)) / 8 =
        address + (width - 1 - k / 8) := by omega
    have hmod : (8 * address + (8 * (width - 1 - k / 8) + k % 8)) % 8 = k % 8 := by omega
    rw [getLsbD_byteSwap _ hk, getLsbD_chunkAt _ _ hinside, bit, hdiv, hmod]
  constructor
  · rintro rfl i hi
    apply BitVec.eq_of_getLsbD_eq
    intro k hk
    have hinside : 8 * (width - 1 - i) + k < 8 * width := by omega
    have hbyte : width - 1 - (8 * (width - 1 - i) + k) / 8 = i := by omega
    have hplace : (8 * (width - 1 - i) + k) % 8 = k := by omega
    rw [BitVec.getLsbD_setWidth, BitVec.getLsbD_ushiftRight, hbit hinside, hbyte, hplace,
      decide_eq_true hk, Bool.true_and]
  · intro hbytes
    apply BitVec.eq_of_getLsbD_eq
    intro k hk
    have hplace : k % 8 < 8 := Nat.mod_lt _ (by omega)
    have hbyte : 8 * (width - 1 - (width - 1 - k / 8)) + k % 8 = k := by omega
    rw [hbit hk, hbytes (width - 1 - k / 8) (by omega), BitVec.getLsbD_setWidth,
      BitVec.getLsbD_ushiftRight, hbyte, decide_eq_true hplace, Bool.true_and]

end Mcmp.Foundation.ByteOrder
