import Mcmp.Foundation.Interleaving
import Mcmp.Utilities.Bitmap
import Mcmp.Utilities.BitmapLoop

/-!
# The client table

`clients.c`, its portable half and the one for Linux. A table of clients is one block: a header with
the number of clients it was made for and the length of its bitmap in bytes, the bitmap, and the
records. The type of the records and the macros that read them are not in the tree: `Client` is any
type, `header` and `size` are the sizes of the header and of a record, `getFd` reads the descriptor
of a client, and `getBySlot` is the macro that gives the address of the record of a slot. It is
asked to address an array of records (`AddressesRecords`), which is the way in which a removal
counts back from a pointer to a slot.

Closing all clients and looking one up by its descriptor are loops over the set bits of the bitmap
(`mcmchClientBroadcastFlush_eq`, `mcmchClientGetBitIndex_eq`).
-/

set_option autoImplicit false
set_option relaxedAutoImplicit false

namespace Mcmp.Server.Clients

open Foundation.ByteBits Foundation.Interleaving Foundation.ScanLoop Foundation.WordMemory
open Utilities Utilities.BitmapLoop

universe u

variable {Client : Type u}

/-! ### The table and its calls -/

/-- A table of clients: `fullength` and `bitmap_length` of the header, the bytes of the bitmap, the
address of the records, and the records by slot. A record at a slot from `fullength` on lies behind
the block. -/
structure McmchClientBroadcast (Client : Type u) where
  fullength : ℕ
  bitmapLength : ℕ
  bitmap : ByteMemory
  clients : ℕ
  records : ℕ → Client

/-- What a table asks of `MCMCHCLIENT_GETBY_SLOT`: the records are an array that starts at their
address. -/
def AddressesRecords (size : ℕ) (getBySlot : McmchClientBroadcast Client → ℕ → ℕ) : Prop :=
  ∀ broadcast slot, getBySlot broadcast slot = (broadcast.clients + size * slot) % 2 ^ 64

theorem AddressesRecords.congr {size : ℕ} {getBySlot : McmchClientBroadcast Client → ℕ → ℕ}
    (h : AddressesRecords size getBySlot) {broadcast broadcast' : McmchClientBroadcast Client}
    (hclients : broadcast'.clients = broadcast.clients) :
    getBySlot broadcast' = getBySlot broadcast := by
  funext slot
  rw [h, h, hclients]

/-- Creates a table in the block that `malloc` returns for the size computed, or none when it
returns no block. -/
def mcmchClientCreateBroadcast (header size : ℕ) (malloc : ℕ → Option (McmchClientBroadcast Client))
    (length : ℕ) : Except Mcmpst (McmchClientBroadcast Client) :=
  let blen := (length + 7) % 2 ^ 64 / 8
  match malloc (((header + blen) % 2 ^ 64 + size * length % 2 ^ 64) % 2 ^ 64) with
  | none => .error .outOfMem
  | some block =>
    .ok { block with
      fullength := length
      bitmapLength := blen
      bitmap := Bitmap.mcmpBitmapCleanOrder block.bitmap 0 blen }

/-- Adds a client: sets the lowest clear bit of the bitmap and copies the client to its record.
Returns the address of the record, or no address and the status. -/
def mcmchClientBroadcastAdd (getBySlot : McmchClientBroadcast Client → ℕ → ℕ)
    (broadcast : McmchClientBroadcast Client) (client : Client) :
    Except Mcmpst ℕ × McmchClientBroadcast Client :=
  let slot :=
    (BitmapScan.mcmpBitmapNextAvaibleBit broadcast.bitmap 0 broadcast.bitmapLength).result
  if slot = -1 then (.error .overflow, broadcast)
  else
    (.ok (getBySlot broadcast slot.toNat),
      { broadcast with
        bitmap := Bitmap.mcmpBitmapEnableBit broadcast.bitmap 0 slot
        records := Function.update broadcast.records slot.toNat client })

/-- Removes the client at an address. -/
def mcmchClientBroadcastDel (size : ℕ) (broadcast : McmchClientBroadcast Client) (client : ℕ) :
    Mcmpst × McmchClientBroadcast Client :=
  let dif := (((client : ℤ) - broadcast.clients) % 2 ^ 64).toNat
  if dif % size ≠ 0 then (.invalign, broadcast)
  else
    (.success,
      { broadcast with
        bitmap := Bitmap.mcmpBitmapDisableBit broadcast.bitmap 0
          (BitmapScan.bitidx (dif / size)) })

/-- The server, as far as closing a client reads it. -/
structure McmchServer where
  epollfd : ℤ
  deriving DecidableEq, Repr

/-- The calls that closing a client makes to the system. -/
inductive SystemCall
  | epollCtlDel (epollfd fd : ℤ)
  | close (fd : ℤ)
  deriving DecidableEq, Repr

/-- Takes a client off the poll and closes its descriptor. -/
def mcmchClientClose (getFd : Client → ℤ) (server : McmchServer) (client : Client) :
    List SystemCall :=
  [.epollCtlDel server.epollfd (getFd client), .close (getFd client)]

/-- One iteration of a flush: closes the client of a slot and clears its bit. -/
def flushSlot (getFd : Client → ℤ) (server : McmchServer)
    (state : McmchClientBroadcast Client × List SystemCall) (bitidx : ℕ) :
    McmchClientBroadcast Client × List SystemCall :=
  ({ state.1 with bitmap := Bitmap.mcmpBitmapDisableBit state.1.bitmap 0 bitidx },
    state.2 ++ mcmchClientClose getFd server (state.1.records bitidx))

/-- Closes every client. Returns the status, the table and the calls made to the system, or nothing
when the fuel runs out. -/
def mcmchClientBroadcastFlush (getFd : Client → ℤ) (server : McmchServer)
    (broadcast : McmchClientBroadcast Client) (fuel : ℕ) :
    Option (Mcmpst × McmchClientBroadcast Client × List SystemCall) :=
  (forOccupied (fun state ↦ state.1.bitmap) broadcast.bitmapLength
    (fun state bitidx ↦ (.next (flushSlot getFd server state bitidx) : Outcome _ Empty)) fuel
    (broadcast, [])).map fun final ↦ (.success, final.1)

/-- One iteration of a lookup: leaves the loop when the client of a slot has the descriptor. -/
def lookSlot (getFd : Client → ℤ) (ctfd : ℤ) (broadcast : McmchClientBroadcast Client)
    (bitidx : ℕ) : Outcome (McmchClientBroadcast Client) ℤ :=
  if getFd (broadcast.records bitidx) = ctfd then .stop broadcast bitidx else .next broadcast

/-- Looks for the first client with a descriptor, or returns nothing when the fuel runs out. -/
def mcmchClientGetBitIndex (getFd : Client → ℤ) (broadcast : McmchClientBroadcast Client)
    (ctfd : ℤ) (fuel : ℕ) : Option ℤ :=
  (forOccupied (fun state ↦ state.bitmap) broadcast.bitmapLength (lookSlot getFd ctfd) fuel
    broadcast).map fun final ↦ final.2.getD (-1)

/-! ### Closing all clients, and looking one up -/

theorem disableBit_natCast {bitmap : ByteMemory} {slot : ℕ} (hslot : slot < 2 ^ 63) :
    Bitmap.mcmpBitmapDisableBit bitmap 0 slot = clearBit bitmap slot := by
  have hclear := @Bitmap.mcmpBitmapDisableBit_natCast bitmap 0 slot (by omega)
  simpa using hclear

theorem enableBit_natCast {bitmap : ByteMemory} {slot : ℕ} (hslot : slot < 2 ^ 63) :
    Bitmap.mcmpBitmapEnableBit bitmap 0 slot = setBit bitmap slot := by
  have hset := @Bitmap.mcmpBitmapEnableBit_natCast bitmap 0 slot (by omega)
  simpa using hset

/-- The bitmap after some slots have been cleared, one after the other. -/
theorem bit_foldl_clearBit (slots : List ℕ) (i : ℕ) :
    ∀ bitmap, bit (slots.foldl clearBit bitmap) i = (bit bitmap i && decide (i ∉ slots)) := by
  induction slots with
  | nil =>
    intro bitmap
    simp
  | cons slot slots ih =>
    intro bitmap
    rw [List.foldl_cons, ih, bit_clearBit]
    by_cases hslot : i = slot
    · simp [hslot]
    · simp [hslot]

/-- The first occupied slot with a property is the least one. -/
theorem find?_occupiedBits {bitmap : ByteMemory} {len k : ℕ} {accepts : ℕ → Bool} :
    (occupiedBits bitmap len).find? accepts = some k ↔
      IsLeast {slot | slot < 8 * len ∧ bit bitmap slot = true ∧ accepts slot = true} k := by
  rw [occupiedBits, List.find?_filter, List.find?_range_eq_some, List.mem_range]
  constructor
  · rintro ⟨haccepts, hlt, hbelow⟩
    refine ⟨⟨hlt, of_decide_eq_true haccepts⟩, fun slot hslot ↦ ?_⟩
    by_contra hless
    have hnot := hbelow slot (not_le.mp hless)
    simp [hslot.2.1, hslot.2.2] at hnot
  · rintro ⟨⟨hlt, hset, haccepts⟩, hleast⟩
    refine ⟨decide_eq_true ⟨hset, haccepts⟩, hlt, fun slot hslot ↦ ?_⟩
    rw [Bool.not_eq_true', decide_eq_false_iff_not]
    intro hboth
    have hle := hleast ⟨hslot.trans hlt, hboth⟩
    omega

section Loops

variable {getFd : Client → ℤ} {server : McmchServer} {broadcast : McmchClientBroadcast Client}
  {fuel : ℕ}

theorem foldl_flushSlot (slots : List ℕ) :
    ∀ (broadcast : McmchClientBroadcast Client) (calls : List SystemCall),
      (∀ slot ∈ slots, slot < 2 ^ 63) →
      slots.foldl (flushSlot getFd server) (broadcast, calls) =
        ({ broadcast with bitmap := slots.foldl clearBit broadcast.bitmap },
          calls ++ slots.flatMap fun slot ↦
            mcmchClientClose getFd server (broadcast.records slot)) := by
  induction slots with
  | nil =>
    intro broadcast calls _
    simp
  | cons slot slots ih =>
    intro broadcast calls hslots
    have hclear : Bitmap.mcmpBitmapDisableBit broadcast.bitmap 0 slot =
        clearBit broadcast.bitmap slot := disableBit_natCast (hslots slot (by simp))
    have hrest := ih ({ broadcast with bitmap := clearBit broadcast.bitmap slot })
      (calls ++ mcmchClientClose getFd server (broadcast.records slot))
      fun other hother ↦ hslots other (by simp [hother])
    rw [List.foldl_cons, flushSlot, hclear, hrest]
    simp

/-- A flush closes the client of each occupied slot, in increasing order of the slots, and clears
the bits of these slots. -/
theorem mcmchClientBroadcastFlush_eq (hlen : 8 * broadcast.bitmapLength < 2 ^ 63)
    (hfuel : 8 * broadcast.bitmapLength < fuel) :
    mcmchClientBroadcastFlush getFd server broadcast fuel =
      some (.success,
        { broadcast with
          bitmap := (occupiedBits broadcast.bitmap broadcast.bitmapLength).foldl clearBit
            broadcast.bitmap },
        (occupiedBits broadcast.bitmap broadcast.bitmapLength).flatMap fun slot ↦
          mcmchClientClose getFd server (broadcast.records slot)) := by
  have hslots : ∀ slot ∈ occupiedBits broadcast.bitmap broadcast.bitmapLength, slot < 2 ^ 63 := by
    intro slot hslot
    exact (mem_occupiedBits.mp hslot).1.trans hlen
  have hkeeps : ∀ (state : McmchClientBroadcast Client × List SystemCall) (b i : ℕ),
      b < 8 * broadcast.bitmapLength → b < i →
        bit (flushSlot getFd server state b).1.bitmap i = bit state.1.bitmap i := by
    intro state b i hb hi
    have hne : i ≠ b := by omega
    show bit (Bitmap.mcmpBitmapDisableBit state.1.bitmap 0 b) i = bit state.1.bitmap i
    rw [disableBit_natCast (hb.trans hlen), bit_clearBit]
    simp [hne]
  rw [mcmchClientBroadcastFlush, forOccupied_next hlen hkeeps hfuel, foldl_flushSlot _ _ _ hslots]
  rfl

/-- A lookup returns the first occupied slot whose client has the descriptor, or `-1`. -/
theorem mcmchClientGetBitIndex_eq (ctfd : ℤ) (hlen : 8 * broadcast.bitmapLength < 2 ^ 63)
    (hfuel : 8 * broadcast.bitmapLength < fuel) :
    mcmchClientGetBitIndex getFd broadcast ctfd fuel =
      some ((((occupiedBits broadcast.bitmap broadcast.bitmapLength).find? fun slot ↦
        getFd (broadcast.records slot) = ctfd).map fun slot : ℕ ↦ (slot : ℤ)).getD (-1)) := by
  have hkeeps : KeepsLater (fun state : McmchClientBroadcast Client ↦ bit state.bitmap)
      (lookSlot getFd ctfd) (8 * broadcast.bitmapLength) := by
    intro state b state' _ hbody i _
    unfold lookSlot at hbody
    split_ifs at hbody
    obtain rfl := Outcome.next.inj hbody
    rfl
  have hvisit := visit_search (fun state b ↦ getFd (McmchClientBroadcast.records state b) = ctfd)
    (fun b ↦ (b : ℤ)) broadcast (occupiedBits broadcast.bitmap broadcast.bitmapLength)
  rw [mcmchClientGetBitIndex, forOccupied_eq_visit hlen hkeeps hfuel]
  exact congrArg (fun final ↦ some (final.2.getD (-1))) hvisit

/-- The slot that a lookup returns is the least one with the descriptor, and `-1` stands for none.
-/
theorem mcmchClientGetBitIndex_spec (ctfd : ℤ) (hlen : 8 * broadcast.bitmapLength < 2 ^ 63) :
    ∃ index, (∀ fuel, 8 * broadcast.bitmapLength < fuel →
        mcmchClientGetBitIndex getFd broadcast ctfd fuel = some index) ∧
      (∀ slot : ℕ, index = slot ↔
        IsLeast {slot | slot < 8 * broadcast.bitmapLength ∧ bit broadcast.bitmap slot = true ∧
          getFd (broadcast.records slot) = ctfd} slot) ∧
      (index = -1 ↔ ∀ slot < 8 * broadcast.bitmapLength, bit broadcast.bitmap slot = true →
        getFd (broadcast.records slot) ≠ ctfd) := by
  have hleast (slot : ℕ) := @find?_occupiedBits broadcast.bitmap broadcast.bitmapLength slot
    fun slot ↦ getFd (broadcast.records slot) = ctfd
  simp only [decide_eq_true_eq] at hleast
  refine ⟨_, fun fuel hfuel ↦ mcmchClientGetBitIndex_eq ctfd hlen hfuel, fun slot ↦ ?_, ?_⟩
  · rw [← hleast slot]
    cases hfind : (occupiedBits broadcast.bitmap broadcast.bitmapLength).find? fun slot ↦
      getFd (broadcast.records slot) = ctfd with
    | none => simp
    | some found => simp
  · cases hfind : (occupiedBits broadcast.bitmap broadcast.bitmapLength).find? fun slot ↦
      getFd (broadcast.records slot) = ctfd with
    | none =>
      rw [List.find?_eq_none] at hfind
      refine iff_of_true rfl fun slot hslot hset ↦ ?_
      simpa using hfind slot (mem_occupiedBits.mpr ⟨hslot, hset⟩)
    | some found =>
      obtain ⟨⟨hlt, hset, hfd⟩, -⟩ := (hleast found).mp hfind
      refine iff_of_false ?_ fun hnone ↦ hnone found hlt hset hfd
      show (found : ℤ) ≠ -1
      omega

end Loops

/-- The loop over the set bits of a bitmap ends and visits the bits that are set at its start, each
once and in increasing order, for every body that leaves the bits behind the visited one alone, be
it that the body clears the visited bit. A flush closes the client of each occupied slot once and
leaves every bit of the bitmap clear, and a lookup returns the lowest occupied slot whose client has
the descriptor, or `-1` when there is none. -/
theorem mcmpBitmapNextOccupiedBit_iteration {σ : Type u} (bitmap : σ → ByteMemory)
    (step : σ → ℕ → σ) {len : ℕ} (hlen : 8 * len < 2 ^ 63)
    (hkeeps : ∀ state b i, b < 8 * len → b < i →
      bit (bitmap (step state b)) i = bit (bitmap state) i)
    (state : σ) (getFd : Client → ℤ) (server : McmchServer)
    {broadcast : McmchClientBroadcast Client} (hbroadcast : 8 * broadcast.bitmapLength < 2 ^ 63)
    (ctfd : ℤ) :
    ((∀ i, i ∈ occupiedBits (bitmap state) len ↔ i < 8 * len ∧ bit (bitmap state) i = true) ∧
      (occupiedBits (bitmap state) len).Pairwise (· < ·) ∧
      ∀ fuel, 8 * len < fuel →
        forOccupied bitmap len (fun s b ↦ (.next (step s b) : Outcome σ Empty)) fuel state =
          some ((occupiedBits (bitmap state) len).foldl step state, none)) ∧
    (∃ after, (∀ fuel, 8 * broadcast.bitmapLength < fuel →
        mcmchClientBroadcastFlush getFd server broadcast fuel =
          some (.success, { broadcast with bitmap := after },
            (occupiedBits broadcast.bitmap broadcast.bitmapLength).flatMap fun slot ↦
              mcmchClientClose getFd server (broadcast.records slot))) ∧
      ∀ i < 8 * broadcast.bitmapLength, bit after i = false) ∧
    ∃ index, (∀ fuel, 8 * broadcast.bitmapLength < fuel →
        mcmchClientGetBitIndex getFd broadcast ctfd fuel = some index) ∧
      (∀ slot : ℕ, index = slot ↔
        IsLeast {slot | slot < 8 * broadcast.bitmapLength ∧ bit broadcast.bitmap slot = true ∧
          getFd (broadcast.records slot) = ctfd} slot) ∧
      (index = -1 ↔ ∀ slot < 8 * broadcast.bitmapLength, bit broadcast.bitmap slot = true →
        getFd (broadcast.records slot) ≠ ctfd) := by
  refine ⟨⟨fun i ↦ mem_occupiedBits, List.pairwise_lt_range.filter _,
      fun fuel hfuel ↦ forOccupied_next hlen hkeeps hfuel state⟩,
    ⟨_, fun fuel hfuel ↦ mcmchClientBroadcastFlush_eq hbroadcast hfuel, fun i hi ↦ ?_⟩,
    mcmchClientGetBitIndex_spec ctfd hbroadcast⟩
  rw [bit_foldl_clearBit]
  simp [mem_occupiedBits, hi]

/-- A table with room for three clients, whose records are their descriptors, and of which the slots
0 and 2 are occupied. -/
def threeClients : McmchClientBroadcast ℤ where
  fullength := 3
  bitmapLength := 1
  bitmap := fun _ ↦ 5#8
  clients := 4096
  records := fun slot ↦ 10 + slot

/-- A loop that clears the bits of the byte 5 and notes them visits 0 and 2. A flush of the table
closes 10 and 12, and the descriptor 12 is found at slot 2. -/
theorem mcmpBitmapNextOccupiedBit_iteration_threeClients :
    forOccupied (fun state : List ℕ × ByteMemory ↦ state.2) 1
        (fun state b ↦ (.next (state.1 ++ [b], clearBit state.2 b) : Outcome _ Empty)) 9
        ([], fun _ ↦ 5#8) = some (([0, 2], clearBit (clearBit (fun _ ↦ 5#8) 0) 2), none) ∧
      (∃ after, mcmchClientBroadcastFlush id ⟨7⟩ threeClients 9 =
        some (.success, { threeClients with bitmap := after },
          [.epollCtlDel 7 10, .close 10, .epollCtlDel 7 12, .close 12])) ∧
      ∃ index, mcmchClientGetBitIndex id threeClients 12 9 = some index ∧ index = (2 : ℕ) := by
  have hbits : occupiedBits (fun _ ↦ 5#8) 1 = [0, 2] := by decide
  have hkeeps : ∀ (state : List ℕ × ByteMemory) (b i : ℕ), b < 8 * 1 → b < i →
      bit (clearBit state.2 b) i = bit state.2 i := by
    intro state b i _ hi
    have hne : i ≠ b := by omega
    simp [hne]
  obtain ⟨⟨-, -, hloop⟩, ⟨after, hflush, -⟩, index, hindex, hleast, -⟩ :=
    mcmpBitmapNextOccupiedBit_iteration (fun state : List ℕ × ByteMemory ↦ state.2)
      (fun state b ↦ (state.1 ++ [b], clearBit state.2 b)) (by decide) hkeeps ([], fun _ ↦ 5#8)
      id ⟨7⟩ (show 8 * threeClients.bitmapLength < 2 ^ 63 by decide) 12
  refine ⟨?_, ⟨after, ?_⟩, index, hindex 9 (by decide), (hleast 2).mpr ?_⟩
  · rw [hloop 9 (by decide), hbits]
    rfl
  · rw [hflush 9 (by decide)]
    show some (_, _, (occupiedBits (fun _ ↦ 5#8) 1).flatMap _) = _
    rw [hbits]
    rfl
  · refine ⟨⟨by decide, by decide, by decide⟩, fun slot hslot ↦ ?_⟩
    have hfd : (10 + slot : ℤ) = 12 := hslot.2.2
    omega

end Mcmp.Server.Clients
