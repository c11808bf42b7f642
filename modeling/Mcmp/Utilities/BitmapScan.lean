import Mathlib.Order.Bounds.Basic
import Mcmp.Foundation.ByteBits

/-!
# The bit scanners of bitmap.c and atomicbitmap.c

`mcmpBitmapNextAvaibleBit`, `mcmpBitmapNextOccupiedBit` and their atomic twins look for the first
clear or set bit of a bitmap at or after an offset. All four read the byte of the offset with the
bits before the offset masked out, and then run four loops that load 8, 4, 2 and 1 bytes at a time,
each going on from where the one before it stopped. They differ in how a loaded word is turned into
the word whose least set bit is returned (`Selection`) and in the width of the register that the
first byte is promoted to.

A scan is run against a sequence of memory contents, one for each load it makes, so that an atomic
scanner can be followed while other threads change the bitmap; a plain scanner reads one memory all
along. The scan records its loads (`Load`) in the order in which they are made.

The invariant of the loops is `Swept`: the loads made so far read every bit between the offset and
the position exactly once, and the bit sought was not among them. A chunk that has no bit sought
extends it (`Swept.extend`) and a chunk that has one ends the scan (`Swept.hit`). `nextBit_spec` is
the specification of the four scanners. The scanners work with `size_t` positions below `len`, which
do not wrap because `8 * len < 2 ^ 63`; the index they return is narrowed to `bitidx_t`.
-/

set_option autoImplicit false
set_option relaxedAutoImplicit false

namespace Mcmp.Utilities.BitmapScan

open Foundation.ByteBits

/-! ### Loads, scans and selections -/

/-- One load of a scan: the offset of its first byte in the bitmap and its width in bytes. -/
structure Load where
  address : ℕ
  width : ℕ
  deriving DecidableEq, Repr

/-- What a scan returns, and the loads it made, in order. -/
structure Scan where
  result : ℤ
  loads : List Load
  deriving DecidableEq, Repr

/-- A loop of a scan has returned from the scanner with an index, or has stopped at a byte
position; either way with the loads made so far. -/
inductive Progress
  | returned (index : ℕ) (loads : List Load)
  | position (i : ℕ) (loads : List Load)

/-- Runs the next loop from the position that the one before it stopped at. -/
def Progress.next (progress : Progress) (loop : ℕ → List Load → Progress) : Progress :=
  match progress with
  | .returned index loads => .returned index loads
  | .position i loads => loop i loads

/-- How a scanner turns the first byte, with the bit of the offset, and a chunk into the word whose
least set bit it returns: bit `k` of that word says that bit `k` of what was loaded is `sought`, and
in the first byte that it is not before the offset. -/
structure Selection where
  sought : Bool
  first : BitVec 8 → ℕ → BitVec 8
  chunk : ∀ {w : ℕ}, BitVec w → BitVec w
  getLsbD_first : ∀ (byte : BitVec 8) (bitrest k : ℕ), bitrest < 8 → k < 8 →
    (first byte bitrest).getLsbD k = (decide (bitrest ≤ k) && (byte.getLsbD k == sought))
  getLsbD_chunk : ∀ {w : ℕ} (x : BitVec w) (k : ℕ), k < w →
    (chunk x).getLsbD k = (x.getLsbD k == sought)

/-- The mask of the bits before the offset, `(1 << bitrest) - 1` as an `int`. -/
def lowMask (bitrest : ℕ) : BitVec 32 := (1#32 <<< bitrest) - 1#32

theorem getLsbD_lowMask {bitrest k : ℕ} (hbitrest : bitrest < 8) (hk : k < 8) :
    (lowMask bitrest).getLsbD k = decide (k < bitrest) := by
  have hall : ∀ r : Fin 8, ∀ i : Fin 8, (lowMask r).getLsbD i = decide (i.val < r.val) := by
    decide
  exact hall ⟨bitrest, hbitrest⟩ ⟨k, hk⟩

/-- The scan for a clear bit: `~(byte | ((1 << bitrest) - 1))` for the first byte and `~chunk` for
the others, narrowed to the width of the chunk. -/
def avaible : Selection where
  sought := false
  first := fun byte bitrest ↦ (~~~(byte.setWidth 32 ||| lowMask bitrest)).setWidth 8
  chunk := fun x ↦ ~~~x
  getLsbD_first := by
    intro byte bitrest k hbitrest hk
    have hwide : k < 32 := by omega
    rw [BitVec.getLsbD_setWidth, BitVec.getLsbD_not, BitVec.getLsbD_or, BitVec.getLsbD_setWidth,
      getLsbD_lowMask hbitrest hk]
    by_cases hle : bitrest ≤ k
    · simp [hk, hwide, hle, not_lt.mpr hle]
    · simp [hk, hwide, hle, not_le.mp hle]
  getLsbD_chunk := by
    intro w x k hk
    simp [hk]

/-- The scan for a set bit: `byte & ~((1 << bitrest) - 1)` for the first byte and the chunk itself
for the others. -/
def occupied : Selection where
  sought := true
  first := fun byte bitrest ↦ (byte.setWidth 32 &&& ~~~lowMask bitrest).setWidth 8
  chunk := fun x ↦ x
  getLsbD_first := by
    intro byte bitrest k hbitrest hk
    have hwide : k < 32 := by omega
    rw [BitVec.getLsbD_setWidth, BitVec.getLsbD_and, BitVec.getLsbD_not, BitVec.getLsbD_setWidth,
      getLsbD_lowMask hbitrest hk]
    by_cases hle : bitrest ≤ k
    · simp [hk, hwide, hle, not_lt.mpr hle]
    · simp [hk, hwide, hle, not_le.mp hle]
  getLsbD_chunk := by
    intro w x k hk
    simp

/-! ### The scanners -/

/-- The conversion of a `size_t` index to `bitidx_t`. -/
def bitidx (index : ℕ) : ℤ := (BitVec.ofNat 64 index).toInt

/-- One of the four loops, `for (; i + slack < len; i += width)`. The word selected from a chunk is
promoted to a register of `register` bits, whose trailing zeros are counted. The fuel bounds the
number of chunks, and `len` of it is enough. -/
def chunkLoop (selection : Selection) (contents : ℕ → ByteMemory) (len width slack register : ℕ) :
    (fuel : ℕ) → ℕ → List Load → Progress
  | 0, i, loads => .position i loads
  | fuel + 1, i, loads =>
    if i + slack < len then
      let selected := selection.chunk (chunkAt (contents loads.length) i width)
      if selected ≠ 0 then
        .returned (i * 8 + (selected.setWidth register).ctz.toNat) (loads ++ [⟨i, width⟩])
      else
        chunkLoop selection contents len width slack register fuel (i + width)
          (loads ++ [⟨i, width⟩])
    else .position i loads

/-- The four loops of a scanner, run one after the other from a position past the offset. -/
def chunkLoops (selection : Selection) (contents : ℕ → ByteMemory) (len i : ℕ)
    (loads : List Load) : Progress :=
  (((chunkLoop selection contents len 8 8 64 len i loads).next
    (chunkLoop selection contents len 4 4 32 len)).next
    (chunkLoop selection contents len 2 2 32 len)).next
    (chunkLoop selection contents len 1 0 32 len)

/-- The body of the scanners. `contents n` is what the bitmap holds at the load number `n`, and the
selected part of the first byte is promoted to a register of `register` bits. -/
def nextBit (selection : Selection) (register : ℕ) (contents : ℕ → ByteMemory)
    (offset len : ℕ) : Scan :=
  let i := offset / 8
  if i ≥ len then ⟨-1, []⟩
  else
    let selected := selection.first (contents 0 i) (offset % 8)
    if selected ≠ 0 then
      ⟨bitidx (i * 8 + (selected.setWidth register).ctz.toNat), [⟨i, 1⟩]⟩
    else
      match chunkLoops selection contents len (i + 1) [⟨i, 1⟩] with
      | .returned index loads => ⟨bitidx index, loads⟩
      | .position _ loads => ⟨-1, loads⟩

/-- The first clear bit of a bitmap at or after an offset. -/
def mcmpBitmapNextAvaibleBit (bitmap : ByteMemory) (offset len : ℕ) : Scan :=
  nextBit avaible 32 (fun _ ↦ bitmap) offset len

/-- The first set bit of a bitmap at or after an offset. -/
def mcmpBitmapNextOccupiedBit (bitmap : ByteMemory) (offset len : ℕ) : Scan :=
  nextBit occupied 32 (fun _ ↦ bitmap) offset len

/-- The atomic scan for a clear bit. The first byte is counted with the long builtin here, unlike
in the other three scanners. -/
def mcmpAtomicBitmapNextAvaibleBit (contents : ℕ → ByteMemory) (offset len : ℕ) : Scan :=
  nextBit avaible 64 contents offset len

/-- The atomic scan for a set bit. -/
def mcmpAtomicBitmapNextOccupiedBit (contents : ℕ → ByteMemory) (offset len : ℕ) : Scan :=
  nextBit occupied 32 contents offset len

/-! ### What the loads of a scan have read -/

/-- A load reads the bits of its bytes. -/
def Load.Covers (load : Load) (j : ℕ) : Prop :=
  8 * load.address ≤ j ∧ j < 8 * (load.address + load.width)

/-- The load number `n` of a list of loads reads bit `j`. -/
def ReadAt (loads : List Load) (j n : ℕ) : Prop :=
  ∃ load, loads[n]? = some load ∧ load.Covers j

/-- A load appended to a list is the load with the next number. -/
theorem readAt_concat (loads : List Load) (load : Load) (j n : ℕ) :
    ReadAt (loads ++ [load]) j n ↔ ReadAt loads j n ∨ n = loads.length ∧ load.Covers j := by
  unfold ReadAt
  rcases lt_trichotomy n loads.length with hlt | rfl | hgt
  · simp [List.getElem?_append_left hlt, hlt.ne]
  · simp
  · have hpast : loads.length + 1 ≤ n := hgt
    simp [List.getElem?_eq_none_iff.mpr (by simpa using hpast : (loads ++ [load]).length ≤ n),
      hgt.ne', List.getElem?_eq_none_iff.mpr hgt.le]

section Sweep

variable (selection : Selection) (contents : ℕ → ByteMemory) (offset len : ℕ)

/-- The invariant of a scan at byte position `i`: its loads are inside the bitmap and before the
position, they read every bit from the offset to the position exactly once, and none of those bits
had the value sought when it was read. -/
structure Swept (loads : List Load) (i : ℕ) : Prop where
  inside : ∀ load ∈ loads, load.address + load.width ≤ len
  before : ∀ j n, ReadAt loads j n → j < 8 * i
  once : ∀ j, offset ≤ j → j < 8 * i → ∃! n, ReadAt loads j n
  missed : ∀ j, offset ≤ j → ∀ n, ReadAt loads j n → bit (contents n) j = !selection.sought

/-- A scan that has found index `k`: its loads are inside the bitmap, they read every bit from the
offset to `k` exactly once, bit `k` had the value sought when it was read, and no bit before it
had. -/
structure Hit (loads : List Load) (k : ℕ) : Prop where
  inside : ∀ load ∈ loads, load.address + load.width ≤ len
  lower : offset ≤ k
  upper : k < 8 * len
  once : ∀ j, offset ≤ j → j ≤ k → ∃! n, ReadAt loads j n
  found : ∀ n, ReadAt loads k n → bit (contents n) k = selection.sought
  missed : ∀ j, offset ≤ j → j < k → ∀ n, ReadAt loads j n → bit (contents n) j = !selection.sought

variable {selection contents offset len} {loads : List Load} {i width : ℕ}

/-- Before the first load nothing has been read, and nothing is between the offset and the
position of its byte. -/
theorem swept_nil : Swept selection contents offset len [] (offset / 8) where
  inside := by simp
  before := by simp [ReadAt]
  once := fun j hoffset hj ↦ absurd hj (by omega)
  missed := by simp [ReadAt]

/-- A load at the position reads every bit of its bytes exactly once. -/
theorem Swept.once_extend (hswept : Swept selection contents offset len loads i) {j : ℕ}
    (hoffset : offset ≤ j) (hj : j < 8 * (i + width)) :
    ∃! n, ReadAt (loads ++ [⟨i, width⟩]) j n := by
  by_cases hold : j < 8 * i
  · obtain ⟨n, hread, hunique⟩ := hswept.once j hoffset hold
    refine ⟨n, (readAt_concat _ _ _ _).mpr (Or.inl hread), fun m hm ↦ ?_⟩
    rcases (readAt_concat _ _ _ _).mp hm with hm | ⟨-, hcovers⟩
    · exact hunique m hm
    · exact absurd hcovers.1 (by simp only; omega)
  · refine ⟨loads.length, (readAt_concat _ _ _ _).mpr (Or.inr ⟨rfl, by simp only; omega, hj⟩),
      fun m hm ↦ ?_⟩
    rcases (readAt_concat _ _ _ _).mp hm with hm | ⟨hm, -⟩
    · exact absurd (hswept.before j m hm) hold
    · exact hm

/-- The loads stay inside the bitmap when one more is made inside it. -/
theorem Swept.inside_extend (hswept : Swept selection contents offset len loads i)
    (hbound : i + width ≤ len) :
    ∀ load ∈ loads ++ [⟨i, width⟩], load.address + load.width ≤ len := by
  intro load hload
  rcases List.mem_append.mp hload with hold | hnew
  · exact hswept.inside load hold
  · obtain rfl := List.mem_singleton.mp hnew
    exact hbound

/-- A load at the position in which the bit sought is not found moves the position past it. -/
theorem Swept.extend (hswept : Swept selection contents offset len loads i)
    (hbound : i + width ≤ len)
    (hmissed : ∀ j, offset ≤ j → 8 * i ≤ j → j < 8 * (i + width) →
      bit (contents loads.length) j = !selection.sought) :
    Swept selection contents offset len (loads ++ [⟨i, width⟩]) (i + width) where
  inside := hswept.inside_extend hbound
  before := by
    intro j n hread
    rcases (readAt_concat _ _ _ _).mp hread with hread | ⟨-, hcovers⟩
    · have := hswept.before j n hread
      omega
    · exact hcovers.2
  once := fun j hoffset hj ↦ hswept.once_extend hoffset hj
  missed := by
    intro j hoffset n hread
    rcases (readAt_concat _ _ _ _).mp hread with hread | ⟨rfl, hcovers⟩
    · exact hswept.missed j hoffset n hread
    · exact hmissed j hoffset hcovers.1 hcovers.2

/-- A load at the position in which the bit sought is first found at `k` ends the scan. -/
theorem Swept.hit (hswept : Swept selection contents offset len loads i) {k : ℕ}
    (hbound : i + width ≤ len) (hlower : offset ≤ k) (hk : 8 * i ≤ k)
    (hk' : k < 8 * (i + width)) (hfound : bit (contents loads.length) k = selection.sought)
    (hmissed : ∀ j, offset ≤ j → 8 * i ≤ j → j < k →
      bit (contents loads.length) j = !selection.sought) :
    Hit selection contents offset len (loads ++ [⟨i, width⟩]) k where
  inside := hswept.inside_extend hbound
  lower := hlower
  upper := by omega
  once := fun j hoffset hj ↦ hswept.once_extend hoffset (by omega)
  found := by
    intro n hread
    rcases (readAt_concat _ _ _ _).mp hread with hread | ⟨rfl, -⟩
    · exact absurd (hswept.before k n hread) (by omega)
    · exact hfound
  missed := by
    intro j hoffset hj n hread
    rcases (readAt_concat _ _ _ _).mp hread with hread | ⟨rfl, hcovers⟩
    · exact hswept.missed j hoffset n hread
    · exact hmissed j hoffset hcovers.1 hj

/-- The word selected from a load at the position describes the bits the load reads: bit `k` of the
word is set when bit `k` of the load is sought and is not before the offset. -/
def Selects (selection : Selection) (bytes : ByteMemory) (offset i : ℕ) {w : ℕ}
    (word : BitVec w) : Prop :=
  ∀ k < w, word.getLsbD k =
    (decide (offset ≤ 8 * i + k) && (bit bytes (8 * i + k) == selection.sought))

/-- A selected word that is zero says that the bit sought is not among the bits the load reads. -/
theorem Selects.missed {bytes : ByteMemory} {w : ℕ} {word : BitVec w}
    (hword : Selects selection bytes offset i word) (hzero : word = 0) {j : ℕ}
    (hoffset : offset ≤ j) (hlow : 8 * i ≤ j) (hhigh : j < 8 * i + w) :
    bit bytes j = !selection.sought := by
  have hbit := hword (j - 8 * i) (by omega)
  have hback : 8 * i + (j - 8 * i) = j := by omega
  rw [hback, hzero] at hbit
  exact Bool.eq_not.mpr (by simpa [hoffset] using hbit)

/-- The least set bit of a selected word is the first bit sought among the bits the load reads. -/
theorem Swept.hit_of_word (hswept : Swept selection contents offset len loads i)
    (hbound : i + width ≤ len) {register : ℕ} (hregister : 8 * width ≤ register)
    {word : BitVec (8 * width)}
    (hword : Selects selection (contents loads.length) offset i word) (hne : word ≠ 0) :
    Hit selection contents offset len (loads ++ [⟨i, width⟩])
      (i * 8 + (word.setWidth register).ctz.toNat) := by
  rw [toNat_ctz_setWidth hregister hne]
  have hset := BitVec.getLsbD_true_ctz_of_ne_zero hne
  have hlt := BitVec.lt_of_getLsbD hset
  have hindex : i * 8 + word.ctz.toNat = 8 * i + word.ctz.toNat := by omega
  rw [hword _ hlt, Bool.and_eq_true, decide_eq_true_eq, beq_iff_eq] at hset
  rw [hindex]
  apply hswept.hit hbound hset.1 (by omega) (by omega) hset.2
  intro j hoffset hj hlow
  have hclear := BitVec.getLsbD_false_of_lt_ctz (x := word) (i := j - 8 * i) (by omega)
  have hback : 8 * i + (j - 8 * i) = j := by omega
  rw [hword _ (by omega), hback] at hclear
  exact Bool.eq_not.mpr (by simpa [hoffset] using hclear)

/-- A selected word that is zero moves the position past the load. -/
theorem Swept.extend_of_word (hswept : Swept selection contents offset len loads i)
    (hbound : i + width ≤ len) {word : BitVec (8 * width)}
    (hword : Selects selection (contents loads.length) offset i word) (hzero : word = 0) :
    Swept selection contents offset len (loads ++ [⟨i, width⟩]) (i + width) :=
  hswept.extend hbound fun _ hoffset hlow hhigh ↦ hword.missed hzero hoffset hlow (by omega)

/-- The word selected from the first byte. -/
theorem selects_first (bytes : ByteMemory) :
    Selects selection bytes offset (offset / 8)
      (selection.first (bytes (offset / 8)) (offset % 8)) := by
  intro k hk
  have hbyte : (8 * (offset / 8) + k) / 8 = offset / 8 := by omega
  have hrest : (8 * (offset / 8) + k) % 8 = k := by omega
  have hiff : offset % 8 ≤ k ↔ offset ≤ 8 * (offset / 8) + k := by omega
  rw [selection.getLsbD_first _ _ _ (by omega) hk, bit, hbyte, hrest]
  simp only [hiff]

/-- The word selected from a chunk at a position past the offset. -/
theorem selects_chunk (bytes : ByteMemory) (hoffset : offset ≤ 8 * i) :
    Selects selection bytes offset i (selection.chunk (chunkAt bytes i width)) := by
  intro k hk
  have hpast : offset ≤ 8 * i + k := by omega
  rw [selection.getLsbD_chunk _ _ hk, getLsbD_chunkAt _ _ hk]
  simp [hpast]

/-- What a loop leaves: a found index, or the invariant at a position past the offset. -/
def Sweeps (selection : Selection) (contents : ℕ → ByteMemory) (offset len : ℕ) :
    Progress → Prop
  | .returned k loads => Hit selection contents offset len loads k
  | .position i loads => Swept selection contents offset len loads i ∧ offset ≤ 8 * i

/-- A loop keeps the invariant of the scan. Its bound keeps every chunk inside the bitmap, because
the slack is at least the width less one. -/
theorem chunkLoop_sweeps (width slack register : ℕ) (hwidth : width ≤ slack + 1)
    (hregister : 8 * width ≤ register) (fuel : ℕ) :
    ∀ {i : ℕ} {loads : List Load}, Swept selection contents offset len loads i → offset ≤ 8 * i →
      Sweeps selection contents offset len
        (chunkLoop selection contents len width slack register fuel i loads) := by
  induction fuel with
  | zero => exact fun hswept hoffset ↦ ⟨hswept, hoffset⟩
  | succ fuel ih =>
    intro i loads hswept hoffset
    simp only [chunkLoop]
    split_ifs with hbound hne
    · exact hswept.hit_of_word (by omega) hregister (selects_chunk _ hoffset) hne
    · exact ih (hswept.extend_of_word (by omega) (selects_chunk _ hoffset) (not_not.mp hne))
        (by omega)
    · exact ⟨hswept, hoffset⟩

/-- A loop with enough fuel stops only when its bound does. -/
theorem len_le_of_chunkLoop_position {slack register : ℕ} (hwidth : 0 < width) (fuel : ℕ) :
    ∀ {i stop : ℕ} {loads final : List Load}, len ≤ i + fuel →
      chunkLoop selection contents len width slack register fuel i loads = .position stop final →
      len ≤ stop + slack := by
  induction fuel with
  | zero =>
    intro i stop loads final hfuel hloop
    simp only [chunkLoop, Progress.position.injEq] at hloop
    omega
  | succ fuel ih =>
    intro i stop loads final hfuel hloop
    simp only [chunkLoop] at hloop
    split_ifs at hloop with hbound hne
    · exact ih (by omega) hloop
    · simp only [Progress.position.injEq] at hloop
      omega

/-- The next loop goes on from what the one before it has left. -/
theorem Sweeps.next {progress : Progress} {loop : ℕ → List Load → Progress}
    (hprogress : Sweeps selection contents offset len progress)
    (hloop : ∀ i loads, Swept selection contents offset len loads i → offset ≤ 8 * i →
      Sweeps selection contents offset len (loop i loads)) :
    Sweeps selection contents offset len (progress.next loop) := by
  cases progress with
  | returned k loads => exact hprogress
  | position i loads => exact hloop i loads hprogress.1 hprogress.2

/-- The conversion to `bitidx_t` keeps an index of a bitmap of fewer than `2 ^ 63` bits. -/
theorem bitidx_eq {index : ℕ} (hindex : index < 2 ^ 63) : bitidx index = index := by
  unfold bitidx
  rw [BitVec.toInt_eq_toNat_of_lt (by rw [BitVec.toNat_ofNat]; omega), BitVec.toNat_ofNat,
    Nat.mod_eq_of_lt (by omega)]

/-- What a scan has established when it returns: the index it found, or `-1` after having read
every bit from the offset on without finding the one sought. -/
def Settles (selection : Selection) (contents : ℕ → ByteMemory) (offset len : ℕ)
    (scan : Scan) : Prop :=
  (∃ k : ℕ, scan.result = k ∧ Hit selection contents offset len scan.loads k) ∨
    scan.result = -1 ∧ ∃ i, len ≤ i ∧ Swept selection contents offset len scan.loads i

theorem chunkLoops_sweeps (hswept : Swept selection contents offset len loads i)
    (hoffset : offset ≤ 8 * i) :
    Sweeps selection contents offset len (chunkLoops selection contents len i loads) := by
  have hlong := chunkLoop_sweeps 8 8 64 (by omega) (by omega) len hswept hoffset
  have hword := hlong.next fun i loads hi hoffset ↦
    chunkLoop_sweeps 4 4 32 (by omega) (by omega) len hi hoffset
  have hshort := hword.next fun i loads hi hoffset ↦
    chunkLoop_sweeps 2 2 32 (by omega) (by omega) len hi hoffset
  exact hshort.next fun i loads hi hoffset ↦
    chunkLoop_sweeps 1 0 32 (by omega) (by omega) len hi hoffset

/-- The last loop stops at the end of the bitmap. -/
theorem len_le_of_chunkLoops_position {stop : ℕ} {final : List Load}
    (hloops : chunkLoops selection contents len i loads = .position stop final) : len ≤ stop := by
  unfold chunkLoops at hloops
  generalize ((chunkLoop selection contents len 8 8 64 len i loads).next
    (chunkLoop selection contents len 4 4 32 len)).next
    (chunkLoop selection contents len 2 2 32 len) = progress at hloops
  cases progress with
  | returned k loads => simp [Progress.next] at hloops
  | position i loads => exact len_le_of_chunkLoop_position (by omega) len (by omega) hloops

/-- The specification of the four scanners. -/
theorem nextBit_settles (hlen : 8 * len < 2 ^ 63) {register : ℕ} (hregister : 8 ≤ register) :
    Settles selection contents offset len (nextBit selection register contents offset len) := by
  have hstart : Swept selection contents offset len [] (offset / 8) := swept_nil
  have hbitidx : ∀ {k : ℕ} {loads : List Load}, Hit selection contents offset len loads k →
      bitidx k = k := fun hhit ↦ bitidx_eq (by have := hhit.upper; omega)
  simp only [nextBit]
  split_ifs with hpast hne
  · exact Or.inr ⟨rfl, offset / 8, hpast, hstart⟩
  · have hinside : offset / 8 + 1 ≤ len := by omega
    have hhit := hstart.hit_of_word hinside hregister (selects_first _) hne
    exact Or.inl ⟨_, hbitidx hhit, hhit⟩
  · have hinside : offset / 8 + 1 ≤ len := by omega
    have hextended := hstart.extend_of_word hinside (selects_first _) (not_not.mp hne)
    have hsweeps := chunkLoops_sweeps hextended (by omega)
    rw [List.nil_append] at hsweeps
    split
    · next index loads hloops =>
      rw [hloops] at hsweeps
      exact Or.inl ⟨index, hbitidx hsweeps, hsweeps⟩
    · next stop loads hloops =>
      rw [hloops] at hsweeps
      exact Or.inr ⟨rfl, stop, len_le_of_chunkLoops_position hloops, hsweeps.1⟩

/-- The register that the first byte is promoted to makes no difference. -/
theorem nextBit_register {register register' : ℕ} (hregister : 8 ≤ register)
    (hregister' : 8 ≤ register') :
    nextBit selection register contents offset len =
      nextBit selection register' contents offset len := by
  simp only [nextBit]
  split_ifs with hpast hne
  · rfl
  · rw [toNat_ctz_setWidth hregister hne, toNat_ctz_setWidth hregister' hne]
  · rfl

/-- Over memory contents that do not change, a scan settles which bit is the first one sought. -/
theorem Settles.isLeast {bitmap : ByteMemory} {scan : Scan}
    (hscan : Settles selection (fun _ ↦ bitmap) offset len scan) :
    (∀ k : ℕ, scan.result = k ↔
      IsLeast {j | offset ≤ j ∧ j < 8 * len ∧ bit bitmap j = selection.sought} k) ∧
    (scan.result = -1 ↔
      ∀ j, offset ≤ j → j < 8 * len → bit bitmap j = !selection.sought) ∧
    ∀ load ∈ scan.loads, load.address + load.width ≤ len := by
  rcases hscan with ⟨index, hresult, hhit⟩ | ⟨hresult, stop, hstop, hswept⟩
  · have hat : bit bitmap index = selection.sought := by
      obtain ⟨n, hread, -⟩ := hhit.once index hhit.lower le_rfl
      exact hhit.found n hread
    have hbelow : ∀ j, offset ≤ j → j < index → bit bitmap j = !selection.sought := by
      intro j hoffset hj
      obtain ⟨n, hread, -⟩ := hhit.once j hoffset hj.le
      exact hhit.missed j hoffset hj n hread
    have hleast : IsLeast {j | offset ≤ j ∧ j < 8 * len ∧ bit bitmap j = selection.sought}
        index := by
      refine ⟨⟨hhit.lower, hhit.upper, hat⟩, fun j hj ↦ ?_⟩
      by_contra hlt
      have hmiss := hbelow j hj.1 (not_le.mp hlt)
      rw [hj.2.2] at hmiss
      exact Bool.eq_not.mp hmiss rfl
    refine ⟨fun k ↦ ⟨fun hk ↦ ?_, fun hk ↦ ?_⟩, ⟨fun hnone ↦ ?_, fun hnone ↦ ?_⟩, hhit.inside⟩
    · have hindex : k = index := by omega
      rwa [hindex]
    · rw [hresult, hleast.unique hk]
    · omega
    · have hmiss := hnone index hhit.lower hhit.upper
      rw [hat] at hmiss
      exact absurd rfl (Bool.eq_not.mp hmiss)
  · have hnone : ∀ j, offset ≤ j → j < 8 * len → bit bitmap j = !selection.sought := by
      intro j hoffset hj
      obtain ⟨n, hread, -⟩ := hswept.once j hoffset (by omega)
      exact hswept.missed j hoffset n hread
    refine ⟨fun k ↦ ⟨fun hk ↦ by omega, fun hk ↦ ?_⟩, ⟨fun _ ↦ hnone, fun _ ↦ hresult⟩,
      hswept.inside⟩
    have hmiss := hnone k hk.1.1 hk.1.2.1
    rw [hk.1.2.2] at hmiss
    exact absurd rfl (Bool.eq_not.mp hmiss)

/-- Over memory contents that do not change, a scan returns `-1` when no bit from the offset on is
sought, and otherwise the first one that is. -/
theorem nextBit_cases (selection : Selection) (bitmap : ByteMemory) {register : ℕ} (offset : ℕ)
    {len : ℕ} (hregister : 8 ≤ register) (hlen : 8 * len < 2 ^ 63) :
    (nextBit selection register (fun _ ↦ bitmap) offset len).result = -1 ∧
        (∀ j, offset ≤ j → j < 8 * len → bit bitmap j = !selection.sought) ∨
      ∃ k : ℕ, (nextBit selection register (fun _ ↦ bitmap) offset len).result = k ∧
        offset ≤ k ∧ k < 8 * len ∧ bit bitmap k = selection.sought ∧
        ∀ j, offset ≤ j → j < k → bit bitmap j = !selection.sought := by
  have hsettles : Settles selection (fun _ ↦ bitmap) offset len
      (nextBit selection register (fun _ ↦ bitmap) offset len) := nextBit_settles hlen hregister
  obtain ⟨hfound, hnone, -⟩ := hsettles.isLeast
  rcases hsettles with ⟨k, hresult, -⟩ | ⟨hresult, -⟩
  · obtain ⟨⟨hoffset, hlt, hsought⟩, hleast⟩ := (hfound k).mp hresult
    refine Or.inr ⟨k, hresult, hoffset, hlt, hsought, fun j hj hjk ↦ ?_⟩
    rw [Bool.eq_not]
    intro hother
    have hle := hleast ⟨hj, hjk.trans hlt, hother⟩
    omega
  · exact Or.inl ⟨hresult, hnone.mp hresult⟩

/-- A scan for a clear bit from bit zero on, over contents that do not change, returns `-1` when
every bit is set, and otherwise the lowest clear bit. -/
theorem nextBit_avaible_cases (bitmap : ByteMemory) {register len : ℕ} (hregister : 8 ≤ register)
    (hlen : 8 * len < 2 ^ 63) :
    (nextBit avaible register (fun _ ↦ bitmap) 0 len).result = -1 ∧
        (∀ j < 8 * len, bit bitmap j = true) ∨
      ∃ k < 8 * len, (nextBit avaible register (fun _ ↦ bitmap) 0 len).result = (k : ℕ) ∧
        bit bitmap k = false ∧ ∀ j < k, bit bitmap j = true := by
  rcases nextBit_cases avaible bitmap 0 hregister hlen with ⟨hresult, hall⟩ |
    ⟨k, hresult, -, hlt, hclear, hbelow⟩
  · exact Or.inl ⟨hresult, fun j hj ↦ hall j (Nat.zero_le j) hj⟩
  · exact Or.inr ⟨k, hlt, hresult, hclear, fun j hj ↦ hbelow j (Nat.zero_le j) hj⟩

end Sweep

/-! ### The plain and the atomic scanners -/

/-- The plain scanners return the least clear and the least set bit from the offset on, return `-1`
exactly when there is none, and load no byte outside the bitmap. -/
theorem mcmpBitmapNextBit_isLeast (bitmap : ByteMemory) (offset len : ℕ)
    (hlen : 8 * len < 2 ^ 63) :
    ((∀ k : ℕ, (mcmpBitmapNextAvaibleBit bitmap offset len).result = k ↔
        IsLeast {j | offset ≤ j ∧ j < 8 * len ∧ bit bitmap j = false} k) ∧
      ((mcmpBitmapNextAvaibleBit bitmap offset len).result = -1 ↔
        ∀ j, offset ≤ j → j < 8 * len → bit bitmap j = true) ∧
      ∀ load ∈ (mcmpBitmapNextAvaibleBit bitmap offset len).loads,
        load.address + load.width ≤ len) ∧
    (∀ k : ℕ, (mcmpBitmapNextOccupiedBit bitmap offset len).result = k ↔
        IsLeast {j | offset ≤ j ∧ j < 8 * len ∧ bit bitmap j = true} k) ∧
      ((mcmpBitmapNextOccupiedBit bitmap offset len).result = -1 ↔
        ∀ j, offset ≤ j → j < 8 * len → bit bitmap j = false) ∧
      ∀ load ∈ (mcmpBitmapNextOccupiedBit bitmap offset len).loads,
        load.address + load.width ≤ len :=
  ⟨(nextBit_settles hlen (by omega)).isLeast, (nextBit_settles hlen (by omega)).isLeast⟩

/-- In the two bytes `0xff 0x0f` the first clear bit from bit 3 on is bit 12, and no bit is set from
bit 12 on. -/
theorem mcmpBitmapNextBit_isLeast_two_bytes :
    (mcmpBitmapNextAvaibleBit (fun i ↦ if i = 0 then 0xff#8 else 0x0f#8) 3 2).result = 12 ∧
      (mcmpBitmapNextOccupiedBit (fun i ↦ if i = 0 then 0xff#8 else 0x0f#8) 12 2).result = -1 := by
  have hscan := mcmpBitmapNextBit_isLeast (fun i ↦ if i = 0 then 0xff#8 else 0x0f#8)
  refine ⟨((hscan 3 2 (by omega)).1.1 12).mpr ⟨by decide, ?_⟩,
    (hscan 12 2 (by omega)).2.2.1.mpr ?_⟩
  · rintro j ⟨hlow, -, hclear⟩
    by_contra hlt
    have hset : ∀ i < 12, bit (fun i ↦ if i = 0 then 0xff#8 else 0x0f#8) i = true := by decide
    rw [hset j (not_le.mp hlt)] at hclear
    exact Bool.noConfusion hclear
  · intro j hlow hhigh
    have hclear : ∀ i < 16, 12 ≤ i → bit (fun i ↦ if i = 0 then 0xff#8 else 0x0f#8) i = false := by
      decide
    exact hclear j hhigh hlow

/-- What a scan tells about a bitmap that changes while it runs: an index that it returns is in the
range and had the value sought at the load that read it, every bit of the range before that index
had not, and when it returns `-1` no bit of the range had; each of these bits is read by exactly one
load. -/
def Observes (sought : Bool) (contents : ℕ → ByteMemory) (offset len : ℕ) (scan : Scan) : Prop :=
  (∀ k : ℕ, scan.result = k →
    offset ≤ k ∧ k < 8 * len ∧
      (∀ j, offset ≤ j → j ≤ k → ∃! n, ReadAt scan.loads j n) ∧
      (∀ n, ReadAt scan.loads k n → bit (contents n) k = sought) ∧
      ∀ j, offset ≤ j → j < k → ∀ n, ReadAt scan.loads j n → bit (contents n) j = !sought) ∧
  (scan.result = -1 → ∀ j, offset ≤ j → j < 8 * len →
    (∃! n, ReadAt scan.loads j n) ∧
      ∀ n, ReadAt scan.loads j n → bit (contents n) j = !sought) ∧
  (scan.result = -1 ∨ ∃ k : ℕ, scan.result = k)

theorem Settles.observes {selection : Selection} {contents : ℕ → ByteMemory} {offset len : ℕ}
    {scan : Scan} (hscan : Settles selection contents offset len scan) :
    Observes selection.sought contents offset len scan := by
  rcases hscan with ⟨index, hresult, hhit⟩ | ⟨hresult, stop, hstop, hswept⟩
  · refine ⟨fun k hk ↦ ?_, fun hnone ↦ by omega, Or.inr ⟨index, hresult⟩⟩
    have hindex : k = index := by omega
    subst hindex
    exact ⟨hhit.lower, hhit.upper, hhit.once, hhit.found, hhit.missed⟩
  · refine ⟨fun k hk ↦ by omega, fun _ j hoffset hj ↦ ?_, Or.inl hresult⟩
    exact ⟨hswept.once j hoffset (by omega), hswept.missed j hoffset⟩

/-- The atomic scanners observe a changing bitmap load by load, and on a bitmap that does not change
they agree with the plain scanners. -/
theorem mcmpAtomicBitmapNextBit_observes (contents : ℕ → ByteMemory) (offset len : ℕ)
    (hlen : 8 * len < 2 ^ 63) :
    Observes false contents offset len (mcmpAtomicBitmapNextAvaibleBit contents offset len) ∧
    Observes true contents offset len (mcmpAtomicBitmapNextOccupiedBit contents offset len) ∧
    ∀ bitmap : ByteMemory,
      mcmpAtomicBitmapNextAvaibleBit (fun _ ↦ bitmap) offset len =
          mcmpBitmapNextAvaibleBit bitmap offset len ∧
        mcmpAtomicBitmapNextOccupiedBit (fun _ ↦ bitmap) offset len =
          mcmpBitmapNextOccupiedBit bitmap offset len :=
  ⟨(nextBit_settles hlen (by omega)).observes, (nextBit_settles hlen (by omega)).observes,
    fun _ ↦ ⟨nextBit_register (by omega) (by omega), rfl⟩⟩

/-- A bitmap of two bytes that is full when its first byte is read and empty afterwards: the atomic
scan for a clear bit returns bit 8, which it read with its second load. -/
theorem mcmpAtomicBitmapNextBit_observes_two_bytes :
    (mcmpAtomicBitmapNextAvaibleBit (fun n _ ↦ if n = 0 then 0xff#8 else 0#8) 0 2).result = 8 ∧
      Observes false (fun n _ ↦ if n = 0 then 0xff#8 else 0#8) 0 2
        (mcmpAtomicBitmapNextAvaibleBit (fun n _ ↦ if n = 0 then 0xff#8 else 0#8) 0 2) :=
  ⟨by decide +kernel, (mcmpAtomicBitmapNextBit_observes _ 0 2 (by omega)).1⟩

end Mcmp.Utilities.BitmapScan
