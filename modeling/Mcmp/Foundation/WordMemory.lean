import Mcmp.Foundation.ByteBits

/-!
# Words in a byte memory

Reading and replacing ranges of a byte memory. `overwrite` replaces a range of bytes; storing a word
of eight bytes (`storeWord`) and copying a list of bytes (`storeBytes`) are cases of it. `wordAt` is
the little-endian load of a word. A load returns the word that was stored last at its address
(`wordAt_storeWord`), and does not see a change outside of its eight bytes (`wordAt_overwrite`).

An `int` in memory is a word of four bytes (`intAt`, `storeInt`). A `size_t` in memory is a word of
eight read as a natural number (`sizeAt`), so a stored size comes back modulo `2 ^ 64`.
-/

set_option autoImplicit false
set_option relaxedAutoImplicit false

namespace Mcmp.Foundation.WordMemory

open ByteBits

variable {bytes : ByteMemory} {address length i : ℕ} {data : ℕ → BitVec 8}

/-- The memory with `length` bytes from an address on replaced. -/
def overwrite (bytes : ByteMemory) (address length : ℕ) (data : ℕ → BitVec 8) : ByteMemory :=
  fun i ↦ if address ≤ i ∧ i < address + length then data (i - address) else bytes i

theorem overwrite_inside (hlow : address ≤ i) (hhigh : i < address + length) :
    overwrite bytes address length data i = data (i - address) :=
  if_pos ⟨hlow, hhigh⟩

theorem overwrite_outside (hout : i < address ∨ address + length ≤ i) :
    overwrite bytes address length data i = bytes i :=
  if_neg (by omega)

/-- A copy of a list of bytes to an address. -/
def storeBytes (bytes : ByteMemory) (address : ℕ) (data : List (BitVec 8)) : ByteMemory :=
  overwrite bytes address data.length fun i ↦ data.getD i 0#8

/-! ### Words -/

/-- The load of a word of eight bytes. -/
def wordAt (bytes : ByteMemory) (address : ℕ) : BitVec 64 := chunkAt bytes address 8

/-- The store of a word of eight bytes. -/
def storeWord (bytes : ByteMemory) (address : ℕ) (word : BitVec 64) : ByteMemory :=
  overwrite bytes address 8 fun i ↦ (word >>> (8 * i)).setWidth 8

/-- A load depends on its eight bytes only. -/
theorem wordAt_congr {other : ByteMemory}
    (hsame : ∀ i, address ≤ i → i < address + 8 → other i = bytes i) :
    wordAt other address = wordAt bytes address :=
  chunkAt_congr 8 hsame

/-- A load does not see a change outside of its eight bytes. -/
theorem wordAt_overwrite {other : ℕ} (hout : other + 8 ≤ address ∨ address + length ≤ other) :
    wordAt (overwrite bytes address length data) other = wordAt bytes other :=
  wordAt_congr fun _ _ _ ↦ overwrite_outside (by omega)

/-- A load returns what was stored at its address byte by byte, the low byte first. -/
theorem chunkAt_overwrite (bytes : ByteMemory) (address : ℕ) {width : ℕ}
    (chunk : BitVec (8 * width)) :
    chunkAt (overwrite bytes address width fun i ↦ (chunk >>> (8 * i)).setWidth 8) address width =
      chunk := by
  apply BitVec.eq_of_getLsbD_eq
  intro k hk
  have hrest : (8 * address + k) % 8 < 8 := Nat.mod_lt _ (by omega)
  have hback : 8 * ((8 * address + k) / 8 - address) + (8 * address + k) % 8 = k := by omega
  rw [getLsbD_chunkAt _ _ hk, bit, overwrite_inside (by omega) (by omega),
    BitVec.getLsbD_setWidth, BitVec.getLsbD_ushiftRight, hback]
  simp only [hrest, decide_true, Bool.true_and]

/-- A load returns the word that was stored at its address. -/
theorem wordAt_storeWord (bytes : ByteMemory) (address : ℕ) (word : BitVec 64) :
    wordAt (storeWord bytes address word) address = word :=
  @chunkAt_overwrite bytes address 8 word

theorem wordAt_storeWord_of_disjoint {word : BitVec 64} {other : ℕ}
    (hout : other + 8 ≤ address ∨ address + 8 ≤ other) :
    wordAt (storeWord bytes address word) other = wordAt bytes other :=
  wordAt_overwrite hout

theorem storeWord_outside {word : BitVec 64} (hout : i < address ∨ address + 8 ≤ i) :
    storeWord bytes address word i = bytes i :=
  overwrite_outside hout

/-! ### Ints -/

/-- The load of an `int`. -/
def intAt (bytes : ByteMemory) (address : ℕ) : BitVec 32 := chunkAt bytes address 4

/-- The store of an `int`. -/
def storeInt (bytes : ByteMemory) (address : ℕ) (value : BitVec 32) : ByteMemory :=
  overwrite bytes address 4 fun i ↦ (value >>> (8 * i)).setWidth 8

theorem intAt_storeInt (bytes : ByteMemory) (address : ℕ) (value : BitVec 32) :
    intAt (storeInt bytes address value) address = value :=
  @chunkAt_overwrite bytes address 4 value

theorem intAt_congr {other : ByteMemory}
    (hsame : ∀ i, address ≤ i → i < address + 4 → other i = bytes i) :
    intAt other address = intAt bytes address :=
  chunkAt_congr 4 hsame

theorem storeInt_outside {value : BitVec 32} (hout : i < address ∨ address + 4 ≤ i) :
    storeInt bytes address value i = bytes i :=
  overwrite_outside hout

/-! ### Sizes -/

/-- The load of a `size_t`. -/
def sizeAt (bytes : ByteMemory) (address : ℕ) : ℕ := (wordAt bytes address).toNat

/-- The store of a `size_t`. -/
def storeSize (bytes : ByteMemory) (address size : ℕ) : ByteMemory :=
  storeWord bytes address (BitVec.ofNat 64 size)

theorem sizeAt_lt (bytes : ByteMemory) (address : ℕ) : sizeAt bytes address < 2 ^ 64 :=
  (wordAt bytes address).isLt

/-- Memories that hold the same word have the same bytes there. -/
theorem eq_of_sizeAt_eq {other : ByteMemory} (hsame : sizeAt other address = sizeAt bytes address)
    (hlow : address ≤ i) (hhigh : i < address + 8) : other i = bytes i := by
  have hword : wordAt other address = wordAt bytes address := BitVec.eq_of_toNat_eq hsame
  apply BitVec.eq_of_getLsbD_eq
  intro k hk
  have hbyte : ∀ memory : ByteMemory, (memory i).getLsbD k =
      (wordAt memory address).getLsbD (8 * (i - address) + k) := by
    intro memory
    rw [wordAt, getLsbD_chunkAt _ _ (by omega), bit,
      show (8 * address + (8 * (i - address) + k)) / 8 = i by omega,
      show (8 * address + (8 * (i - address) + k)) % 8 = k by omega]
  rw [hbyte, hbyte, hword]

/-- A stored size that is a `size_t` comes back. -/
theorem sizeAt_storeSize {size : ℕ} (hsize : size < 2 ^ 64) (bytes : ByteMemory) (address : ℕ) :
    sizeAt (storeSize bytes address size) address = size := by
  rw [sizeAt, storeSize, wordAt_storeWord, BitVec.toNat_ofNat, Nat.mod_eq_of_lt hsize]

theorem sizeAt_storeSize_of_disjoint {size other : ℕ}
    (hout : other + 8 ≤ address ∨ address + 8 ≤ other) :
    sizeAt (storeSize bytes address size) other = sizeAt bytes other :=
  congrArg BitVec.toNat (wordAt_storeWord_of_disjoint hout)

end Mcmp.Foundation.WordMemory
