import Mcmp.Foundation.Interleaving
import Mcmp.Utilities.Bitmap
import Mcmp.Utilities.BitmapScan

/-!
# Broadcasts

`mcmchBroadcastCreate`, `mcmchBroadcastAddClient` and `mcmchBroadcastDelClient` of broadcast.c. A
broadcast is one block of memory: a header with the number of clients it has room for and the length
of its bitmap in bytes, the bitmap, and one record of 64 bytes for each client. A record holds the
bytes of an address and a pointer back to the broadcast. The bitmap is rounded up to whole bytes, so
the last byte can have bits that belong to no client.

The two calls keep header and padding as they are (`Layout.Intact`). Adding a client takes the
lowest free slot (`mcmchBroadcastAddClient_cases`). Removing one recovers the slot from the pointer
to the record, by a subtraction from the address of the records; but the address is computed from
the record instead of the broadcast, so the length of the bitmap is read out of the address bytes of
the client (`deleteIndex`).
-/

set_option autoImplicit false
set_option relaxedAutoImplicit false

namespace Mcmp.Server.Broadcast

open Foundation.ByteBits Foundation.Interleaving Foundation.WordMemory Utilities

/-! ### The block of a broadcast -/

/-- `MCH_BC_GET_LENGTH`. -/
def getLength (memory : ByteMemory) (bc : ℕ) : ℕ := sizeAt memory bc

/-- `MCH_BC_GET_BITMAP_LENGTH`. -/
def getBitmapLength (memory : ByteMemory) (bc : ℕ) : ℕ := sizeAt memory (bc + 8)

/-- `MCH_BC_GET_BITMAP`. The header has 16 bytes. -/
def getBitmap (bc : ℕ) : ℕ := (bc + 16) % 2 ^ 64

/-- `MCH_BC_GET_CLIENTS`. -/
def getClients (memory : ByteMemory) (bc : ℕ) : ℕ :=
  (getBitmap bc + getBitmapLength memory bc) % 2 ^ 64

/-- `MCH_BC_GET_CLIENT`. A record has 64 bytes. -/
def getClient (memory : ByteMemory) (bc i : ℕ) : ℕ := (getClients memory bc + 64 * i) % 2 ^ 64

/-- Creates a broadcast in the block at the address that `malloc` returns for the size computed, or
none when it returns no block. -/
def mcmchBroadcastCreate (malloc : ℕ → Option ℕ) (memory : ByteMemory) (capacity : ℕ) :
    Except Mcmpst (ℕ × ByteMemory) :=
  let bitmapLength := (capacity + 7) % 2 ^ 64 / 8
  match malloc (((16 + bitmapLength) % 2 ^ 64 + 64 * capacity % 2 ^ 64) % 2 ^ 64) with
  | none => .error .outOfMem
  | some broadcast =>
    let memory := storeSize (storeSize memory broadcast capacity) (broadcast + 8) bitmapLength
    .ok (broadcast, Bitmap.mcmpBitmapCleanOrder memory (getBitmap broadcast)
      (getBitmapLength memory broadcast))

/-- Adds a client: copies the bytes of its address into the lowest free record, stores the pointer
to the broadcast behind the 32 bytes of the address, and sets the bit of the record. Returns the
address of the record, or no address and the status. -/
def mcmchBroadcastAddClient (memory : ByteMemory) (broadcast : ℕ) (address : List (BitVec 8)) :
    Except Mcmpst ℕ × ByteMemory :=
  let ni := (BitmapScan.mcmpBitmapNextAvaibleBit (bytesFrom memory (getBitmap broadcast)) 0
    (getBitmapLength memory broadcast)).result
  if ni = -1 ∨ ni ≥ getLength memory broadcast then (.error .overflow, memory)
  else
    let client := getClient memory broadcast ni.toNat
    let memory := storeBytes memory client address
    let memory := storeWord memory (client + 32) (BitVec.ofNat 64 broadcast)
    (.ok client, Bitmap.mcmpBitmapEnableBit memory (getBitmap broadcast) ni)

/-- The slot that a removal computes from a pointer to a record: the signed difference of the two
addresses, shifted to the right by the six bits of the size of a record. -/
def deleteIndex (memory : ByteMemory) (client : ℕ) : ℤ :=
  ((client : ℤ) - getClients memory client).bmod (2 ^ 64) / 64

/-- Removes a client. -/
def mcmchBroadcastDelClient (memory : ByteMemory) (broadcast client : ℕ) : Mcmpst × ByteMemory :=
  let ni := deleteIndex memory client
  if ni < 0 ∨ ni ≥ getLength memory broadcast then (.overflow, memory)
  else if Bitmap.mcmpBitmapIsDisabledBit memory (getBitmap broadcast) ni then (.noavle, memory)
  else (.success, Bitmap.mcmpBitmapDisableBit memory (getBitmap broadcast) ni)

/-! ### Its users -/

/-- A call of a user of a broadcast. -/
inductive BroadcastCommand
  | add (address : List (BitVec 8))
  | del (client : ℕ)
  deriving DecidableEq, Repr

/-- What a call returns. -/
inductive BroadcastEvent
  | added (client : ℕ)
  | refused (status : Mcmpst)
  | removed (client : ℕ) (status : Mcmpst)
  deriving DecidableEq, Repr

/-- A thread that adds clients to a broadcast and removes them. -/
def broadcastMachine (broadcast : ℕ) : Machine BroadcastCommand ByteMemory Unit BroadcastEvent
  | .add address, memory, _ =>
    match mcmchBroadcastAddClient memory broadcast address with
    | (.ok client, memory) => some (.added client, memory, ())
    | (.error status, memory) => some (.refused status, memory, ())
  | .del client, memory, _ =>
    let (status, memory) := mcmchBroadcastDelClient memory broadcast client
    some (.removed client status, memory, ())

/-- The runs of a user of a broadcast from a memory. -/
abbrev BroadcastRun (broadcast : ℕ) (memory : ByteMemory) :=
  Run (broadcastMachine broadcast).program
    (anyStep : Guard Unit ByteMemory Unit BroadcastEvent) ⟨memory, fun _ ↦ ()⟩

/-! ### The layout of a broadcast -/

/-- Where a broadcast is and how many clients it has room for, such that its block ends inside the
address space. -/
structure Layout where
  base : ℕ
  capacity : ℕ
  fits : base + 16 + (capacity + 7) / 8 + 64 * capacity < 2 ^ 64

namespace Layout

/-- The length of the bitmap in bytes. -/
def bitmapLength (layout : Layout) : ℕ := (layout.capacity + 7) / 8

/-- The address of a record. -/
def client (layout : Layout) (slot : ℕ) : ℕ :=
  layout.base + 16 + layout.bitmapLength + 64 * slot

/-- The bit of a slot, or of the padding. -/
def taken (layout : Layout) (memory : ByteMemory) (slot : ℕ) : Bool :=
  bit memory (8 * (layout.base + 16) + slot)

/-- The header is the one that the creation wrote, and no bit of the padding is set. -/
structure Intact (layout : Layout) (memory : ByteMemory) : Prop where
  length_eq : getLength memory layout.base = layout.capacity
  bitmapLength_eq : getBitmapLength memory layout.base = layout.bitmapLength
  padding : ∀ slot, layout.capacity ≤ slot → slot < 8 * layout.bitmapLength →
    layout.taken memory slot = false

variable {layout : Layout} {memory memory' : ByteMemory} {slot other : ℕ}

theorem capacity_le : layout.capacity ≤ 8 * layout.bitmapLength := by
  unfold bitmapLength
  omega

theorem client_inj : layout.client slot = layout.client other ↔ slot = other := by
  unfold client
  omega

/-- The record of a slot ends inside the address space. -/
theorem client_lt (hslot : slot < layout.capacity) : layout.client slot + 64 < 2 ^ 64 := by
  have hfits := layout.fits
  unfold client bitmapLength
  omega

theorem getBitmap_eq : getBitmap layout.base = layout.base + 16 := by
  have hfits := layout.fits
  unfold getBitmap
  omega

theorem getClient_eq (h : layout.Intact memory) (hslot : slot < layout.capacity) :
    getClient memory layout.base slot = layout.client slot := by
  have hlt := client_lt hslot
  unfold client at hlt ⊢
  rw [getClient, getClients, getBitmap_eq, h.bitmapLength_eq]
  omega

/-- The byte of a bit of the bitmap is inside the address space. -/
theorem bit_fits (hslot : slot < 8 * layout.bitmapLength) :
    layout.base + 16 + slot / 8 < 2 ^ 64 := by
  have hfits := layout.fits
  unfold bitmapLength at hslot
  omega

/-- A change behind the header that keeps the padding keeps the broadcast intact. -/
theorem Intact.of_header (h : layout.Intact memory)
    (hheader : ∀ i < layout.base + 16, memory' i = memory i)
    (hpadding : ∀ slot, layout.capacity ≤ slot → slot < 8 * layout.bitmapLength →
      layout.taken memory' slot = layout.taken memory slot) : layout.Intact memory' := by
  refine ⟨?_, ?_, fun slot hcapacity hslot ↦ ?_⟩
  · rw [← h.length_eq]
    exact congrArg BitVec.toNat (wordAt_congr fun i _ hi ↦ hheader i (by omega))
  · rw [← h.bitmapLength_eq]
    exact congrArg BitVec.toNat (wordAt_congr fun i _ hi ↦ hheader i (by omega))
  · rw [hpadding slot hcapacity hslot]
    exact h.padding slot hcapacity hslot

/-- A change behind the bitmap changes no bit of it. -/
theorem taken_congr
    (hsame : ∀ i < layout.base + 16 + layout.bitmapLength, memory' i = memory i)
    (hslot : slot < 8 * layout.bitmapLength) :
    layout.taken memory' slot = layout.taken memory slot := by
  rw [taken, taken, bit, bit, hsame _ (by omega)]

theorem Intact.congr (h : layout.Intact memory)
    (hsame : ∀ i < layout.base + 16 + layout.bitmapLength, memory' i = memory i) :
    layout.Intact memory' :=
  h.of_header (fun i hi ↦ hsame i (by omega)) fun _ _ hslot ↦ taken_congr hsame hslot

@[simp] theorem taken_setBit :
    layout.taken (setBit memory (8 * (layout.base + 16) + slot)) other =
      (layout.taken memory other || decide (other = slot)) := by
  simp [taken]

@[simp] theorem taken_clearBit :
    layout.taken (clearBit memory (8 * (layout.base + 16) + slot)) other =
      (layout.taken memory other && !decide (other = slot)) := by
  simp [taken]

theorem Intact.setBit (h : layout.Intact memory) (hslot : slot < layout.capacity) :
    layout.Intact (setBit memory (8 * (layout.base + 16) + slot)) := by
  apply h.of_header (fun i hi ↦ Function.update_of_ne (by omega) _ _)
  intro other hother _
  have hne : other ≠ slot := by omega
  simp [hne]

theorem Intact.clearBit (h : layout.Intact memory) (hslot : slot < layout.capacity) :
    layout.Intact (clearBit memory (8 * (layout.base + 16) + slot)) := by
  apply h.of_header (fun i hi ↦ Function.update_of_ne (by omega) _ _)
  intro other hother _
  have hne : other ≠ slot := by omega
  simp [hne]

end Layout

/-! ### What the calls do -/

section Calls

variable {layout : Layout} {memory : ByteMemory}

/-- A broadcast that has been created is intact and empty. -/
theorem mcmchBroadcastCreate_spec {malloc : ℕ → Option ℕ} {memory' : ByteMemory}
    (hcreate : mcmchBroadcastCreate malloc memory layout.capacity = .ok (layout.base, memory')) :
    layout.Intact memory' ∧
      ∀ slot < 8 * layout.bitmapLength, layout.taken memory' slot = false := by
  have hfits := layout.fits
  have hlength : (layout.capacity + 7) % 2 ^ 64 / 8 = layout.bitmapLength := by
    unfold Layout.bitmapLength
    omega
  have hsize : layout.bitmapLength < 2 ^ 64 := by
    unfold Layout.bitmapLength
    omega
  simp only [mcmchBroadcastCreate, hlength] at hcreate
  split at hcreate
  · exact absurd hcreate (by simp)
  obtain ⟨rfl, rfl⟩ := Prod.mk.inj (Except.ok.inj hcreate)
  generalize hstored : storeSize (storeSize memory layout.base layout.capacity) (layout.base + 8)
    layout.bitmapLength = stored
  have hbitmap : getBitmapLength stored layout.base = layout.bitmapLength := by
    rw [← hstored]
    exact sizeAt_storeSize hsize _ _
  have hcapacity : getLength stored layout.base = layout.capacity := by
    rw [← hstored, getLength, sizeAt_storeSize_of_disjoint (by omega)]
    exact sizeAt_storeSize (by omega) _ _
  rw [hbitmap, Layout.getBitmap_eq, Bitmap.mcmpBitmapCleanOrder]
  have hclean : ∀ slot < 8 * layout.bitmapLength,
      layout.taken (overwrite stored (layout.base + 16) layout.bitmapLength fun _ ↦ 0#8) slot =
        false := by
    intro slot hslot
    rw [Layout.taken, bit, overwrite_inside (by omega) (by omega)]
    exact BitVec.getLsbD_zero
  refine ⟨⟨?_, ?_, fun slot _ hslot ↦ hclean slot hslot⟩, hclean⟩
  · rw [← hcapacity]
    exact congrArg BitVec.toNat (wordAt_overwrite (by omega))
  · refine Eq.trans ?_ hbitmap
    exact congrArg BitVec.toNat (wordAt_overwrite (by omega))

/-- The memory after a client has been added at a slot. -/
def Layout.added (layout : Layout) (memory : ByteMemory) (slot : ℕ) (address : List (BitVec 8)) :
    ByteMemory :=
  Foundation.ByteBits.setBit
    (storeWord (storeBytes memory (layout.client slot) address) (layout.client slot + 32)
      (BitVec.ofNat 64 layout.base))
    (8 * (layout.base + 16) + slot)

/-- Adding a client finds every slot taken and changes nothing, or writes the lowest free slot. -/
theorem mcmchBroadcastAddClient_eq (h : layout.Intact memory) (address : List (BitVec 8)) :
    mcmchBroadcastAddClient memory layout.base address = (.error .overflow, memory) ∧
        (∀ slot < layout.capacity, layout.taken memory slot = true) ∨
      ∃ slot < layout.capacity,
        mcmchBroadcastAddClient memory layout.base address =
          (.ok (layout.client slot), layout.added memory slot address) ∧
        layout.taken memory slot = false ∧ ∀ other < slot, layout.taken memory other = true := by
  have hbits : 8 * layout.bitmapLength < 2 ^ 63 := by
    have hfits := layout.fits
    unfold Layout.bitmapLength
    omega
  have hcapacity : layout.capacity ≤ 8 * layout.bitmapLength := Layout.capacity_le
  have hscan := BitmapScan.nextBit_avaible_cases (bytesFrom memory (layout.base + 16))
    (show 8 ≤ 32 by decide) hbits
  simp only [bit_bytesFrom] at hscan
  simp only [mcmchBroadcastAddClient, BitmapScan.mcmpBitmapNextAvaibleBit, Layout.getBitmap_eq]
  rw [show getBitmapLength memory layout.base = layout.bitmapLength from h.bitmapLength_eq,
    show getLength memory layout.base = layout.capacity from h.length_eq]
  rcases hscan with ⟨hresult, hall⟩ | ⟨slot, hslot, hresult, hclear, hbelow⟩
  · refine Or.inl ⟨?_, fun slot hslot ↦ hall slot (by omega)⟩
    simp only [hresult, true_or, if_true]
  · rw [hresult]
    by_cases hpadding : layout.capacity ≤ slot
    · have hout : (slot : ℤ) = -1 ∨ (slot : ℤ) ≥ layout.capacity := by omega
      exact Or.inl ⟨if_pos hout, fun other hother ↦ hbelow other (by omega)⟩
    · have hinside : ¬ ((slot : ℤ) = -1 ∨ (slot : ℤ) ≥ layout.capacity) := by omega
      have hclient := Layout.getClient_eq h (not_le.mp hpadding)
      simp only [if_neg hinside, Int.toNat_natCast, hclient,
        Bitmap.mcmpBitmapEnableBit_natCast (Layout.bit_fits hslot)]
      exact Or.inr ⟨slot, not_le.mp hpadding, rfl, hclear, hbelow⟩

/-- Adding a client finds every slot taken and changes nothing, or takes the lowest free slot. -/
theorem mcmchBroadcastAddClient_cases (h : layout.Intact memory) (address : List (BitVec 8)) :
    mcmchBroadcastAddClient memory layout.base address = (.error .overflow, memory) ∧
        (∀ slot < layout.capacity, layout.taken memory slot = true) ∨
      ∃ slot < layout.capacity, ∃ memory',
        mcmchBroadcastAddClient memory layout.base address = (.ok (layout.client slot), memory') ∧
        layout.taken memory slot = false ∧ (∀ other < slot, layout.taken memory other = true) ∧
        layout.Intact memory' ∧
        ∀ other < 8 * layout.bitmapLength,
          layout.taken memory' other = (layout.taken memory other || decide (other = slot)) := by
  refine (mcmchBroadcastAddClient_eq h address).imp_right ?_
  rintro ⟨slot, hslot, hadd, hclear, hbelow⟩
  -- the record is behind the bitmap
  have hbehind : ∀ i < layout.base + 16 + layout.bitmapLength,
      storeWord (storeBytes memory (layout.client slot) address) (layout.client slot + 32)
        (BitVec.ofNat 64 layout.base) i = memory i := by
    intro i hi
    have hlow : i < layout.client slot := by
      unfold Layout.client
      omega
    rw [storeWord_outside (Or.inl (by omega)), storeBytes, overwrite_outside (Or.inl hlow)]
  refine ⟨slot, hslot, _, hadd, hclear, hbelow, (h.congr hbehind).setBit hslot,
    fun other hother ↦ ?_⟩
  rw [Layout.added, Layout.taken_setBit, Layout.taken_congr hbehind hother]

/-- Removing a client computes a slot outside the broadcast or one that is free, and changes
nothing, or frees the slot that it computes. -/
theorem mcmchBroadcastDelClient_cases (h : layout.Intact memory) (client : ℕ) :
    mcmchBroadcastDelClient memory layout.base client = (.overflow, memory) ∧
        (∀ slot < layout.capacity, deleteIndex memory client ≠ slot) ∨
      ∃ slot < layout.capacity, deleteIndex memory client = slot ∧
        (layout.taken memory slot = false ∧
            mcmchBroadcastDelClient memory layout.base client = (.noavle, memory) ∨
          layout.taken memory slot = true ∧
            mcmchBroadcastDelClient memory layout.base client =
              (.success, clearBit memory (8 * (layout.base + 16) + slot))) := by
  have hlength : getLength memory layout.base = layout.capacity := h.length_eq
  rw [mcmchBroadcastDelClient, hlength]
  generalize deleteIndex memory client = ni
  by_cases hout : ni < 0 ∨ ni ≥ layout.capacity
  · refine Or.inl ⟨if_pos hout, fun slot hslot ↦ ?_⟩
    omega
  · obtain ⟨slot, rfl⟩ : ∃ slot : ℕ, ni = slot := ⟨ni.toNat, by omega⟩
    have hslot : slot < layout.capacity := by omega
    have hfits := Layout.bit_fits (hslot.trans_le Layout.capacity_le)
    refine Or.inr ⟨slot, hslot, rfl, ?_⟩
    simp only [if_neg hout, Layout.getBitmap_eq, Bitmap.mcmpBitmapIsDisabledBit_natCast hfits,
      Bitmap.mcmpBitmapDisableBit_natCast hfits]
    cases htaken : layout.taken memory slot with
    | false =>
      refine Or.inl ⟨rfl, ?_⟩
      rw [Layout.taken] at htaken
      simp [htaken]
    | true =>
      refine Or.inr ⟨rfl, ?_⟩
      rw [Layout.taken] at htaken
      simp [htaken]

/-- A step of a user of an intact broadcast. -/
theorem broadcastStep_cases (h : layout.Intact memory) {thread thread' : Unit}
    {event : BroadcastEvent} {memory' : ByteMemory}
    (hstep : (broadcastMachine layout.base).program memory thread event memory' thread') :
    (event = .refused .overflow ∧ memory' = memory) ∨
    (∃ slot < layout.capacity, event = .added (layout.client slot) ∧
      layout.taken memory slot = false ∧ layout.Intact memory' ∧
      ∀ other < 8 * layout.bitmapLength,
        layout.taken memory' other = (layout.taken memory other || decide (other = slot))) ∨
    (∃ client status, event = .removed client status ∧ status ≠ .success ∧ memory' = memory) ∨
    ∃ client, event = .removed client .success ∧ layout.Intact memory' := by
  obtain ⟨command, hcommand⟩ := hstep
  unfold broadcastMachine at hcommand
  cases command with
  | add address =>
    rcases mcmchBroadcastAddClient_cases h address with ⟨hadd, -⟩ |
      ⟨slot, hslot, next, hadd, hclear, -, hnext, hbits⟩
    · simp only [hadd] at hcommand
      cases hcommand
      exact Or.inl ⟨rfl, rfl⟩
    · simp only [hadd] at hcommand
      cases hcommand
      exact Or.inr (Or.inl ⟨slot, hslot, rfl, hclear, hnext, hbits⟩)
  | del client =>
    rcases mcmchBroadcastDelClient_cases h client with ⟨hdel, -⟩ | ⟨slot, hslot, -, ⟨-, hdel⟩ |
      ⟨-, hdel⟩⟩
    · simp only [hdel] at hcommand
      cases hcommand
      exact Or.inr (Or.inr (Or.inl ⟨client, _, rfl, by decide, rfl⟩))
    · simp only [hdel] at hcommand
      cases hcommand
      exact Or.inr (Or.inr (Or.inl ⟨client, _, rfl, by decide, rfl⟩))
    · simp only [hdel] at hcommand
      cases hcommand
      exact Or.inr (Or.inr (Or.inr ⟨client, rfl, h.clearBit hslot⟩))

end Calls

/-! ### The registrations of a run -/

/-- A client is added. -/
def Added (client : ℕ) (_ : Unit) : BroadcastEvent → Prop
  | .added other => other = client
  | _ => False

/-- Some client is removed with success. -/
def Removes (_ : Unit) : BroadcastEvent → Prop
  | .removed _ status => status = .success
  | _ => False

/-- What a user may expect of registrations: the padding is never occupied; a client is refused when
all slots are occupied, which changes nothing, and otherwise gets the record of the lowest free
slot, whose bit alone is set; two clients have different records unless one was removed with success
in between. -/
structure RegistrationContract (layout : Layout) (history : List (Unit × BroadcastEvent))
    (memory : ByteMemory) : Prop where
  padding : ∀ slot, layout.capacity ≤ slot → slot < 8 * layout.bitmapLength →
    layout.taken memory slot = false
  refused_iff : ∀ address,
    (mcmchBroadcastAddClient memory layout.base address).1 = .error .overflow ↔
      ∀ slot < layout.capacity, layout.taken memory slot = true
  refused : ∀ address status,
    (mcmchBroadcastAddClient memory layout.base address).1 = .error status →
      status = .overflow ∧ (mcmchBroadcastAddClient memory layout.base address).2 = memory
  added : ∀ address client,
    (mcmchBroadcastAddClient memory layout.base address).1 = .ok client →
      ∃ slot, client = layout.client slot ∧
        IsLeast {slot | slot < layout.capacity ∧ layout.taken memory slot = false} slot ∧
        ∀ other < 8 * layout.bitmapLength,
          layout.taken (mcmchBroadcastAddClient memory layout.base address).2 other =
            (layout.taken memory other || decide (other = slot))
  distinct : ∀ earlier between later first second,
    history = earlier ++ ((), BroadcastEvent.added first) :: between ++
        ((), BroadcastEvent.added second) :: later →
      (∀ client, ((), .removed client .success) ∉ between) → first ≠ second

section Runs

variable {layout : Layout} {memory : ByteMemory} {history : List (Unit × BroadcastEvent)}
  {config : Config Unit ByteMemory Unit}

/-- Along a run the broadcast is intact, and the slot of a client stays occupied until some client
is removed with success. -/
theorem intact_of_run (h : layout.Intact memory)
    (hrun : BroadcastRun layout.base memory history config) :
    layout.Intact config.shared ∧ ∀ slot < layout.capacity,
      Since history (Added (layout.client slot)) Removes →
        layout.taken config.shared slot = true := by
  refine Run.invariant (fun history config ↦ layout.Intact config.shared ∧
    ∀ slot < layout.capacity, Since history (Added (layout.client slot)) Removes →
      layout.taken config.shared slot = true) ?_ ?_ hrun
  · exact ⟨h, fun slot _ hsince ↦ absurd hsince (not_since_nil _ _)⟩
  rintro history config thread event memory' thread' - ⟨hintact, hkept⟩ - hstep
  rcases broadcastStep_cases hintact hstep with ⟨rfl, rfl⟩ |
    ⟨slot, hslot, rfl, -, hintact', hbits⟩ | ⟨client, status, rfl, -, rfl⟩ | ⟨client, rfl, hintact'⟩
  · refine ⟨hintact, fun other hother hsince ↦ hkept other hother ?_⟩
    exact ((since_concat ..).mp hsince).elim False.elim And.left
  · refine ⟨hintact', fun other hother hsince ↦ ?_⟩
    have hbit := hbits other (hother.trans_le Layout.capacity_le)
    show layout.taken memory' other = true
    rw [hbit, Bool.or_eq_true, decide_eq_true_eq]
    rcases (since_concat ..).mp hsince with hsame | ⟨hbefore, -⟩
    · exact Or.inr (Layout.client_inj.mp hsame).symm
    · exact Or.inl (hkept other hother hbefore)
  · refine ⟨hintact, fun other hother hsince ↦ hkept other hother ?_⟩
    exact ((since_concat ..).mp hsince).elim False.elim And.left
  · refine ⟨hintact', fun other hother hsince ↦ ?_⟩
    rcases (since_concat ..).mp hsince with hsame | ⟨-, hcancel⟩
    · exact hsame.elim
    · exact absurd rfl hcancel

/-- The contract in an intact state of a run. -/
theorem registrationContract_of_run (h : layout.Intact memory)
    (hrun : BroadcastRun layout.base memory history config) :
    RegistrationContract layout history config.shared := by
  obtain ⟨hintact, -⟩ := intact_of_run h hrun
  refine ⟨hintact.padding, fun address ↦ ?_, fun address status hrefused ↦ ?_,
    fun address client hadded ↦ ?_, ?_⟩
  · rcases mcmchBroadcastAddClient_cases hintact address with ⟨hadd, hall⟩ | ⟨slot, hslot, next,
      hadd, hclear, -⟩
    · simp only [hadd, true_iff]
      exact hall
    · simp only [hadd, reduceCtorEq, false_iff, not_forall]
      exact ⟨slot, hslot, by simp [hclear]⟩
  · rcases mcmchBroadcastAddClient_cases hintact address with ⟨hadd, -⟩ | ⟨_, -, _, hadd, -⟩
    · rw [hadd] at hrefused ⊢
      exact ⟨(Except.error.inj hrefused).symm, rfl⟩
    · rw [hadd] at hrefused
      exact absurd hrefused (by simp)
  · rcases mcmchBroadcastAddClient_cases hintact address with ⟨hadd, -⟩ | ⟨slot, hslot, next, hadd,
      hclear, hbelow, -, hbits⟩
    · rw [hadd] at hadded
      exact absurd hadded (by simp)
    · rw [hadd] at hadded ⊢
      refine ⟨slot, (Except.ok.inj hadded).symm, ⟨⟨hslot, hclear⟩, fun other hother ↦ ?_⟩, hbits⟩
      by_contra hlt
      have hset := hbelow other (not_le.mp hlt)
      rw [hother.2] at hset
      exact Bool.noConfusion hset
  · rintro earlier between later first second rfl hnone rfl
    obtain ⟨middle, memory', thread', hbefore, -, hstep⟩ := hrun.cut
    obtain ⟨hmiddle, hkept⟩ := intact_of_run h hbefore
    rcases broadcastStep_cases hmiddle hstep with ⟨hevent, -⟩ | ⟨slot, hslot, hevent, hclear, -⟩ |
      ⟨_, _, hevent, -⟩ | ⟨_, hevent, -⟩
    · exact absurd hevent (by simp)
    · obtain rfl := (BroadcastEvent.added.injEq ..).mp hevent
      have hsince : Since (earlier ++ ((), .added (layout.client slot)) :: between)
          (Added (layout.client slot)) Removes := by
        refine ⟨earlier, (), _, between, rfl, rfl, ?_⟩
        rintro ⟨⟨⟩, event⟩ hmem hremoves
        cases event with
        | removed client status =>
          obtain rfl : status = .success := hremoves
          exact hnone client hmem
        | _ => exact hremoves
      rw [hkept slot hslot hsince] at hclear
      exact Bool.noConfusion hclear
    · exact absurd hevent (by simp)
    · exact absurd hevent (by simp)

end Runs

/-- A broadcast for one client at address 4096, in a memory full of 57. -/
def singleBroadcast : ByteMemory :=
  Bitmap.mcmpBitmapCleanOrder (storeSize (storeSize (fun _ ↦ 57#8) 4096 1) 4104 1) 4112 1

theorem mcmchBroadcastCreate_singleBroadcast :
    mcmchBroadcastCreate (fun _ ↦ some 4096) (fun _ ↦ 57#8) 1 = .ok (4096, singleBroadcast) := by
  have hlength : getBitmapLength (storeSize (storeSize (fun _ ↦ 57#8) 4096 1) 4104 1) 4096 = 1 :=
    sizeAt_storeSize (by decide) _ _
  simp only [mcmchBroadcastCreate]
  rw [show (1 + 7) % 2 ^ 64 / 8 = 1 from rfl, hlength]
  rfl

end Mcmp.Server.Broadcast
