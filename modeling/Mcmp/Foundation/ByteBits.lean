import Mathlib.Data.BitVec
import Mathlib.Data.Set.Insert

/-!
# Bits of a byte memory

A byte memory is read from a base pointer: `bytes i` is the byte at offset `i`. Bit `idx` of the
memory is bit `idx % 8` of byte `idx / 8` (`bit`), and `bitSet` is the set of the bits that are
set. Storing a byte with one bit of it set or cleared changes that one bit of the memory and no
other (`bit_update_or`, `bit_update_and_not`), which on the sets is `insert` and removal
(`bitSet_setBit`, `bitSet_clearBit`).

`chunkAt` is the little-endian load of several consecutive bytes, so bit `k` of the loaded word is
bit `8 * address + k` of the memory (`getLsbD_chunkAt`). The least set bit of a loaded word is then
the first set bit of the range of the memory it covers, and the least clear bit is found in the
complement of the word.
-/

set_option autoImplicit false
set_option relaxedAutoImplicit false

namespace Mcmp.Foundation.ByteBits

/-- A memory of bytes, read at an offset from its base pointer. -/
abbrev ByteMemory := ℕ → BitVec 8

/-- Bit `idx` of a byte memory: bit `idx % 8` of byte `idx / 8`. -/
def bit (bytes : ByteMemory) (idx : ℕ) : Bool := (bytes (idx / 8)).getLsbD (idx % 8)

/-- The set of the bits that are set in a byte memory. -/
def bitSet (bytes : ByteMemory) : Set ℕ := {idx | bit bytes idx = true}

@[simp] theorem mem_bitSet (bytes : ByteMemory) (idx : ℕ) :
    idx ∈ bitSet bytes ↔ bit bytes idx = true :=
  Iff.rfl

/-- The memory with all bytes zero has no bit set. -/
@[simp] theorem bit_zero (idx : ℕ) : bit (fun _ ↦ 0#8) idx = false := by
  simp [bit]

@[simp] theorem bitSet_zero : bitSet (fun _ ↦ 0#8) = ∅ := by
  ext idx
  simp

/-! ### One-bit masks -/

/-- The byte whose only set bit is bit `k`, as C computes it: the shift is made on the promoted
`int` and the result is narrowed to `uint8_t`. -/
def bitMask (k : ℕ) : BitVec 8 := (1#32 <<< k).setWidth 8

theorem getLsbD_bitMask {k i : ℕ} (hi : i < 8) : (bitMask k).getLsbD i = decide (i = k) := by
  have hwide : i < 32 := by omega
  simp only [bitMask, BitVec.getLsbD_setWidth, BitVec.getLsbD_shiftLeft, BitVec.getLsbD_one, hi,
    hwide, decide_true, Bool.true_and]
  rw [Bool.eq_iff_iff]
  simp only [Bool.and_eq_true, Bool.not_eq_true', decide_eq_false_iff_not, decide_eq_true_eq]
  omega

/-- A byte has a bit in common with a one-bit mask when that bit of it is set. -/
theorem and_bitMask_ne_zero {k : ℕ} (hk : k < 8) (byte : BitVec 8) :
    byte &&& bitMask k ≠ 0 ↔ byte.getLsbD k = true := by
  constructor
  · intro hne
    rw [← Bool.not_eq_false]
    intro hclear
    refine hne (BitVec.eq_of_getLsbD_eq fun i hi ↦ ?_)
    rw [BitVec.getLsbD_and, getLsbD_bitMask hi]
    by_cases h : i = k
    · subst h
      simp [hclear]
    · simp [h]
  · intro hset heq
    have hbit := congrArg (fun x ↦ BitVec.getLsbD x k) heq
    simp [getLsbD_bitMask hk, hset] at hbit

/-- Two bit indices are the same when they name the same byte and the same bit of it. -/
theorem eq_of_div_mod_eq {idx j : ℕ} (hdiv : j / 8 = idx / 8) (hmod : j % 8 = idx % 8) :
    j = idx := by
  omega

/-- Storing a byte with bit `idx` added to it sets bit `idx` of the memory. -/
theorem bit_update_or (bytes : ByteMemory) (idx j : ℕ) :
    bit (Function.update bytes (idx / 8) (bytes (idx / 8) ||| bitMask (idx % 8))) j =
      (bit bytes j || decide (j = idx)) := by
  have hmod : j % 8 < 8 := Nat.mod_lt _ (by omega)
  unfold bit
  by_cases hdiv : j / 8 = idx / 8
  · rw [hdiv, Function.update_self, BitVec.getLsbD_or, getLsbD_bitMask hmod]
    have hiff : j % 8 = idx % 8 ↔ j = idx := ⟨eq_of_div_mod_eq hdiv, fun h ↦ by rw [h]⟩
    simp only [hiff]
  · have hne : j ≠ idx := fun h ↦ hdiv (by rw [h])
    rw [Function.update_of_ne hdiv]
    simp [hne]

/-- Storing a byte with bit `idx` removed from it clears bit `idx` of the memory. -/
theorem bit_update_and_not (bytes : ByteMemory) (idx j : ℕ) :
    bit (Function.update bytes (idx / 8) (bytes (idx / 8) &&& ~~~bitMask (idx % 8))) j =
      (bit bytes j && !decide (j = idx)) := by
  have hmod : j % 8 < 8 := Nat.mod_lt _ (by omega)
  unfold bit
  by_cases hdiv : j / 8 = idx / 8
  · rw [hdiv, Function.update_self, BitVec.getLsbD_and, BitVec.getLsbD_not, getLsbD_bitMask hmod]
    have hiff : j % 8 = idx % 8 ↔ j = idx := ⟨eq_of_div_mod_eq hdiv, fun h ↦ by rw [h]⟩
    simp only [hiff, hmod, decide_true, Bool.true_and]
  · have hne : j ≠ idx := fun h ↦ hdiv (by rw [h])
    rw [Function.update_of_ne hdiv]
    simp [hne]

/-- The memory with bit `idx` set: one byte is replaced. -/
def setBit (bytes : ByteMemory) (idx : ℕ) : ByteMemory :=
  Function.update bytes (idx / 8) (bytes (idx / 8) ||| bitMask (idx % 8))

/-- The memory with bit `idx` cleared: one byte is replaced. -/
def clearBit (bytes : ByteMemory) (idx : ℕ) : ByteMemory :=
  Function.update bytes (idx / 8) (bytes (idx / 8) &&& ~~~bitMask (idx % 8))

@[simp] theorem bit_setBit (bytes : ByteMemory) (idx j : ℕ) :
    bit (setBit bytes idx) j = (bit bytes j || decide (j = idx)) :=
  bit_update_or bytes idx j

@[simp] theorem bit_clearBit (bytes : ByteMemory) (idx j : ℕ) :
    bit (clearBit bytes idx) j = (bit bytes j && !decide (j = idx)) :=
  bit_update_and_not bytes idx j

/-- Setting a bit adds it to the set of set bits. -/
@[simp] theorem bitSet_setBit (bytes : ByteMemory) (idx : ℕ) :
    bitSet (setBit bytes idx) = insert idx (bitSet bytes) := by
  ext j
  simp only [mem_bitSet, bit_setBit, Bool.or_eq_true, decide_eq_true_eq, Set.mem_insert_iff]
  exact or_comm

/-- Clearing a bit removes it from the set of set bits. -/
@[simp] theorem bitSet_clearBit (bytes : ByteMemory) (idx : ℕ) :
    bitSet (clearBit bytes idx) = bitSet bytes \ {idx} := by
  ext j
  simp only [mem_bitSet, bit_clearBit, Bool.and_eq_true, Bool.not_eq_true',
    decide_eq_false_iff_not, Set.mem_sdiff, Set.mem_singleton_iff]

/-- A memory is determined by its bits. -/
theorem eq_of_bit_eq {first second : ByteMemory} (hbit : ∀ idx, bit first idx = bit second idx) :
    first = second := by
  funext i
  apply BitVec.eq_of_getLsbD_eq
  intro k hk
  have h := hbit (8 * i + k)
  have hdiv : (8 * i + k) / 8 = i := by omega
  have hmod : (8 * i + k) % 8 = k := by omega
  simpa only [bit, hdiv, hmod] using h

/-- Setting a clear bit and clearing it again changes nothing. -/
theorem clearBit_setBit {bytes : ByteMemory} {idx : ℕ} (hclear : bit bytes idx = false) :
    clearBit (setBit bytes idx) idx = bytes := by
  apply eq_of_bit_eq
  intro j
  by_cases h : j = idx
  · simp [h, hclear]
  · simp [h]

/-- The memory from an address on. -/
def bytesFrom (bytes : ByteMemory) (base : ℕ) : ByteMemory := fun i ↦ bytes (base + i)

/-- A bit of the memory from an address on is the bit so much further in the memory. -/
@[simp] theorem bit_bytesFrom (bytes : ByteMemory) (base j : ℕ) :
    bit (bytesFrom bytes base) j = bit bytes (8 * base + j) := by
  have hdiv : (8 * base + j) / 8 = base + j / 8 := by omega
  have hmod : (8 * base + j) % 8 = j % 8 := by omega
  rw [bit, bit, bytesFrom, hdiv, hmod]

/-! ### Little-endian loads -/

/-- The load of `width` consecutive bytes on a little-endian machine: the byte at the lowest
address is the least significant one. -/
def chunkAt (bytes : ByteMemory) (address : ℕ) : (width : ℕ) → BitVec (8 * width)
  | 0 => 0#0
  | width + 1 => (bytes (address + width) ++ chunkAt bytes address width).cast (by omega)

/-- Bit `k` of a loaded word is bit `8 * address + k` of the memory. -/
theorem getLsbD_chunkAt (bytes : ByteMemory) (address : ℕ) {width k : ℕ} (hk : k < 8 * width) :
    (chunkAt bytes address width).getLsbD k = bit bytes (8 * address + k) := by
  induction width with
  | zero => omega
  | succ width ih =>
    rw [chunkAt, BitVec.getLsbD_cast, BitVec.getLsbD_append]
    by_cases hlow : k < 8 * width
    · rw [if_pos hlow]
      exact ih hlow
    · rw [if_neg hlow]
      have hdiv : (8 * address + k) / 8 = address + width := by omega
      have hmod : (8 * address + k) % 8 = k - 8 * width := by omega
      simp only [bit, hdiv, hmod]

/-- A load of bytes that are the same gives the same word. -/
theorem chunkAt_congr {bytes bytes' : ByteMemory} {address : ℕ} (width : ℕ)
    (hsame : ∀ i, address ≤ i → i < address + width → bytes i = bytes' i) :
    chunkAt bytes address width = chunkAt bytes' address width := by
  induction width with
  | zero => rfl
  | succ width ih =>
    rw [chunkAt, chunkAt, hsame _ (Nat.le_add_right address width) (Nat.lt_succ_self _),
      ih fun i hle hlt ↦ hsame i hle (Nat.lt_succ_of_lt hlt)]

/-- A word that is not zero keeps its number of trailing zeros when it is zero-extended. -/
theorem toNat_ctz_setWidth {w v : ℕ} (hle : w ≤ v) {x : BitVec w} (hx : x ≠ 0#w) :
    ((x.setWidth v).ctz).toNat = x.ctz.toNat := by
  have hbit := BitVec.getLsbD_true_ctz_of_ne_zero hx
  have hlt : x.ctz.toNat < w := BitVec.lt_of_getLsbD hbit
  have hx' : x.setWidth v ≠ 0#v := by
    intro h
    have hzero := congrArg (fun y ↦ BitVec.getLsbD y x.ctz.toNat) h
    simp only [BitVec.getLsbD_setWidth, hbit, BitVec.getLsbD_zero, Bool.and_true,
      decide_eq_false_iff_not] at hzero
    omega
  have hbit' := BitVec.getLsbD_true_ctz_of_ne_zero hx'
  rw [BitVec.getLsbD_setWidth, Bool.and_eq_true] at hbit'
  apply le_antisymm
  · by_contra h
    have hfalse := BitVec.getLsbD_false_of_lt_ctz (x := x.setWidth v) (i := x.ctz.toNat) (by omega)
    simp only [BitVec.getLsbD_setWidth, hbit, Bool.and_true, decide_eq_false_iff_not] at hfalse
    omega
  · by_contra h
    have hfalse := BitVec.getLsbD_false_of_lt_ctz (x := x) (i := (x.setWidth v).ctz.toNat)
      (by omega)
    rw [hbit'.2] at hfalse
    exact Bool.noConfusion hfalse

end Mcmp.Foundation.ByteBits
