import Mathlib.Data.List.Nodup
import Mcmp.Server.Clients

/-!
# A client table in use

A user of a client table adds clients and removes clients that it has added. `live` reads off the
history which clients are in the table, each with the address that its addition returned.

The table keeps account of them in every run: the addresses of the live clients are those of the
slots whose bits are set, and the record of each of them is a copy of it (`Registered`). What can go
wrong is the limit. The bitmap is rounded up to whole bytes, and the search for a clear bit is
bounded by the bits of these bytes and not by the number of records, so a table whose length is not
a multiple of eight gives out slots behind its last record once it is full. The broadcast of
broadcast.c, which is built in the same way, compares the slot with its length.
-/

set_option autoImplicit false
set_option relaxedAutoImplicit false

namespace Mcmp.Server.ClientTable

open Foundation.ByteBits Foundation.Interleaving Foundation.WordMemory
open Utilities Utilities.BitmapLoop Clients

universe u

variable {Client : Type u}

/-! ### The user of a table -/

/-- A call of a user of a table. -/
inductive ClientCommand (Client : Type u)
  | add (client : Client)
  | del (address : ℕ)

/-- What a call returns. -/
inductive ClientEvent (Client : Type u)
  | added (client : Client) (address : ℕ)
  | refused (client : Client) (status : Mcmpst)
  | removed (address : ℕ) (status : Mcmpst)
  deriving DecidableEq

/-- A thread that adds clients to a table and removes them. -/
def clientMachine (getBySlot : McmchClientBroadcast Client → ℕ → ℕ) (size : ℕ) :
    Machine (ClientCommand Client) (McmchClientBroadcast Client) Unit (ClientEvent Client)
  | .add client, broadcast, _ =>
    match mcmchClientBroadcastAdd getBySlot broadcast client with
    | (.ok address, broadcast) => some (.added client address, broadcast, ())
    | (.error status, broadcast) => some (.refused client status, broadcast, ())
  | .del address, broadcast, _ =>
    let (status, broadcast) := mcmchClientBroadcastDel size broadcast address
    some (.removed address status, broadcast, ())

/-- The call is an addition of the client. -/
def ClientEvent.Adds (client : Client) : ClientEvent Client → Prop
  | .added other _ => other = client
  | .refused other _ => other = client
  | .removed .. => False

/-- What an event does to the addresses of the clients that are in the table. -/
def register (clients : List (ℕ × Client)) : ClientEvent Client → List (ℕ × Client)
  | .added client address => (address, client) :: clients
  | .refused .. => clients
  | .removed address _ => clients.filter (·.1 ≠ address)

/-- The clients that were added and not removed yet, with the addresses that were returned. -/
def live (history : List (Unit × ClientEvent Client)) : List (ℕ × Client) :=
  history.foldl (fun clients entry ↦ register clients entry.2) []

@[simp] theorem live_concat (history : List (Unit × ClientEvent Client)) (thread : Unit)
    (event : ClientEvent Client) :
    live (history ++ [(thread, event)]) = register (live history) event := by
  simp [live]

/-- Only clients that are in the table are removed. -/
def ownClients : Guard Unit (McmchClientBroadcast Client) Unit (ClientEvent Client) :=
  fun history _ _ event ↦
    match event with
    | .removed address _ => address ∈ (live history).map Prod.fst
    | _ => True

instance (history : List (Unit × ClientEvent Client))
    (config : Config Unit (McmchClientBroadcast Client) Unit) (thread : Unit)
    (event : ClientEvent Client) : Decidable (ownClients history config thread event) :=
  match event with
  | .removed address _ => inferInstanceAs (Decidable (address ∈ (live history).map Prod.fst))
  | .added .. => inferInstanceAs (Decidable True)
  | .refused .. => inferInstanceAs (Decidable True)

/-- The runs of a user of a table. -/
abbrev ClientRun (getBySlot : McmchClientBroadcast Client → ℕ → ℕ) (size : ℕ)
    (broadcast : McmchClientBroadcast Client) :=
  Run (clientMachine getBySlot size).program ownClients
    (⟨broadcast, fun _ ↦ ()⟩ : Config Unit (McmchClientBroadcast Client) Unit)

/-! ### What a table keeps account of -/

/-- The records of all slots of the bitmap have different addresses, and their slots are indices. -/
structure Addressable (size bitmapLength : ℕ) : Prop where
  size_pos : 0 < size
  bits : 8 * bitmapLength < 2 ^ 63
  records : size * (8 * bitmapLength) ≤ 2 ^ 64

/-- The bits that are set are those of the slots of the clients, which have different addresses, and
the record of each client is a copy of it. -/
structure Registered (getBySlot : McmchClientBroadcast Client → ℕ → ℕ)
    (broadcast : McmchClientBroadcast Client) (clients : List (ℕ × Client)) : Prop where
  nodup : (clients.map Prod.fst).Nodup
  bits : ∀ slot < 8 * broadcast.bitmapLength,
    bit broadcast.bitmap slot = true ↔ getBySlot broadcast slot ∈ clients.map Prod.fst
  records : ∀ entry ∈ clients, ∃ slot < 8 * broadcast.bitmapLength,
    entry.1 = getBySlot broadcast slot ∧ broadcast.records slot = entry.2

section Calls

variable {getBySlot : McmchClientBroadcast Client → ℕ → ℕ} {size : ℕ}
  {broadcast : McmchClientBroadcast Client} {clients : List (ℕ × Client)}

theorem Addressable.size_mul_lt (h : Addressable size broadcast.bitmapLength) {slot : ℕ}
    (hslot : slot < 8 * broadcast.bitmapLength) : size * slot < 2 ^ 64 :=
  (Nat.mul_lt_mul_of_pos_left hslot h.size_pos).trans_le h.records

theorem getBySlot_inj (hget : AddressesRecords size getBySlot)
    (h : Addressable size broadcast.bitmapLength) {slot other : ℕ}
    (hslot : slot < 8 * broadcast.bitmapLength) (hother : other < 8 * broadcast.bitmapLength) :
    getBySlot broadcast slot = getBySlot broadcast other ↔ slot = other := by
  have hlt := h.size_mul_lt hslot
  have hlt' := h.size_mul_lt hother
  rw [hget, hget]
  constructor
  · intro heq
    have hmul : size * slot = size * other := by omega
    exact Nat.eq_of_mul_eq_mul_left h.size_pos hmul
  · rintro rfl
    rfl

/-- The clients are as many as the set bits. -/
theorem Registered.length_eq (h : Registered getBySlot broadcast clients)
    (hget : AddressesRecords size getBySlot) (haddr : Addressable size broadcast.bitmapLength) :
    clients.length = (occupiedBits broadcast.bitmap broadcast.bitmapLength).length := by
  have hslots : ((occupiedBits broadcast.bitmap broadcast.bitmapLength).map
      (getBySlot broadcast)).Nodup := by
    apply (List.nodup_range.filter _).map_on
    intro slot hslot other hother heq
    have hlt := (mem_occupiedBits.mp hslot).1
    have hlt' := (mem_occupiedBits.mp hother).1
    exact (getBySlot_inj hget haddr hlt hlt').mp heq
  have hperm : (clients.map Prod.fst).Perm ((occupiedBits broadcast.bitmap
      broadcast.bitmapLength).map (getBySlot broadcast)) := by
    rw [List.perm_ext_iff_of_nodup h.nodup hslots]
    intro address
    rw [List.mem_map]
    constructor
    · rintro ⟨entry, hentry, rfl⟩
      obtain ⟨slot, hslot, haddress, -⟩ := h.records entry hentry
      rw [haddress]
      apply List.mem_map_of_mem
      rw [mem_occupiedBits, h.bits slot hslot, ← haddress]
      exact ⟨hslot, List.mem_map_of_mem hentry⟩
    · intro haddress
      obtain ⟨slot, hslot, rfl⟩ := List.mem_map.mp haddress
      obtain ⟨hlt, hset⟩ := mem_occupiedBits.mp hslot
      exact List.mem_map.mp ((h.bits slot hlt).mp hset)
  simpa using hperm.length_eq

theorem Registered.length_le (h : Registered getBySlot broadcast clients)
    (hget : AddressesRecords size getBySlot) (haddr : Addressable size broadcast.bitmapLength) :
    clients.length ≤ 8 * broadcast.bitmapLength := by
  rw [h.length_eq hget haddr, occupiedBits]
  simpa using List.length_filter_le (bit broadcast.bitmap) (List.range (8 * broadcast.bitmapLength))

/-- There are at least as many clients as slots below the first clear bit. -/
theorem Registered.le_length (h : Registered getBySlot broadcast clients)
    (hget : AddressesRecords size getBySlot) (haddr : Addressable size broadcast.bitmapLength)
    {slot : ℕ} (hslot : slot ≤ 8 * broadcast.bitmapLength)
    (hbelow : ∀ other < slot, bit broadcast.bitmap other = true) : slot ≤ clients.length := by
  have hsub : List.range slot ⊆ occupiedBits broadcast.bitmap broadcast.bitmapLength := by
    intro other hother
    have hlt := List.mem_range.mp hother
    exact mem_occupiedBits.mpr ⟨by omega, hbelow other hlt⟩
  rw [h.length_eq hget haddr]
  simpa using (List.nodup_range.subperm hsub).length_le

/-- A table that has been created is empty. -/
theorem mcmchClientCreateBroadcast_spec {header length : ℕ}
    {malloc : ℕ → Option (McmchClientBroadcast Client)}
    (hcreate : mcmchClientCreateBroadcast header size malloc length = .ok broadcast) :
    broadcast.fullength = length ∧ broadcast.bitmapLength = (length + 7) % 2 ^ 64 / 8 ∧
      Registered getBySlot broadcast [] := by
  simp only [mcmchClientCreateBroadcast] at hcreate
  split at hcreate
  · exact absurd hcreate (by simp)
  obtain rfl := Except.ok.inj hcreate
  refine ⟨rfl, rfl, List.nodup_nil, fun slot hslot ↦ ?_, by simp⟩
  dsimp only at hslot ⊢
  rw [bit, Bitmap.mcmpBitmapCleanOrder, overwrite_inside (by omega) (by omega)]
  simp

/-- An addition finds the table full up to its last bit and changes nothing, or takes a slot that is
free, which is no higher than there are clients. -/
theorem mcmchClientBroadcastAdd_cases (h : Registered getBySlot broadcast clients)
    (hget : AddressesRecords size getBySlot) (haddr : Addressable size broadcast.bitmapLength)
    (client : Client) :
    mcmchClientBroadcastAdd getBySlot broadcast client = (.error .overflow, broadcast) ∧
        clients.length = 8 * broadcast.bitmapLength ∨
      ∃ slot < 8 * broadcast.bitmapLength, ∃ broadcast',
        mcmchClientBroadcastAdd getBySlot broadcast client =
          (.ok (getBySlot broadcast slot), broadcast') ∧
        slot ≤ clients.length ∧ getBySlot broadcast slot ∉ clients.map Prod.fst ∧
        broadcast'.bitmapLength = broadcast.bitmapLength ∧
        broadcast'.clients = broadcast.clients ∧
        Registered getBySlot broadcast' ((getBySlot broadcast slot, client) :: clients) := by
  have hlen := h.length_le hget haddr
  rcases BitmapScan.nextBit_avaible_cases broadcast.bitmap (show 8 ≤ 32 by decide) haddr.bits with
    ⟨hresult, hall⟩ | ⟨slot, hslot, hresult, hclear, hbelow⟩
  · have hfull := h.le_length hget haddr le_rfl hall
    refine Or.inl ⟨?_, by omega⟩
    simp only [mcmchClientBroadcastAdd, BitmapScan.mcmpBitmapNextAvaibleBit, hresult, if_true]
  · have hne : (slot : ℤ) ≠ -1 := by omega
    have hfree : getBySlot broadcast slot ∉ clients.map Prod.fst := by
      rw [← h.bits slot hslot, hclear]
      simp
    have hadd : mcmchClientBroadcastAdd getBySlot broadcast client =
        (.ok (getBySlot broadcast slot),
          { broadcast with
            bitmap := setBit broadcast.bitmap slot
            records := Function.update broadcast.records slot client }) := by
      simp only [mcmchClientBroadcastAdd, BitmapScan.mcmpBitmapNextAvaibleBit, hresult,
        if_neg hne, Int.toNat_natCast, enableBit_natCast (hslot.trans haddr.bits)]
    have hsame : getBySlot { broadcast with
        bitmap := setBit broadcast.bitmap slot
        records := Function.update broadcast.records slot client } = getBySlot broadcast :=
      hget.congr rfl
    refine Or.inr ⟨slot, hslot, _, hadd, h.le_length hget haddr hslot.le hbelow, hfree, rfl, rfl,
      List.nodup_cons.mpr ⟨hfree, h.nodup⟩, fun other hother ↦ ?_, fun entry hentry ↦ ?_⟩
    · rw [hsame]
      show bit (setBit broadcast.bitmap slot) other = true ↔
        getBySlot broadcast other ∈ _ :: clients.map Prod.fst
      rw [bit_setBit, Bool.or_eq_true, decide_eq_true_eq, h.bits other hother, List.mem_cons,
        getBySlot_inj hget haddr hother hslot]
      exact or_comm
    · rw [hsame]
      rcases List.mem_cons.mp hentry with rfl | hold
      · exact ⟨slot, hslot, rfl, Function.update_self _ _ _⟩
      · obtain ⟨other, hother, haddress, hrecord⟩ := h.records entry hold
        have hne : other ≠ slot := by
          rintro rfl
          exact hfree (haddress ▸ List.mem_map_of_mem hold)
        exact ⟨other, hother, haddress, (Function.update_of_ne hne _ _).trans hrecord⟩

theorem mem_addresses_filter {address other : ℕ} :
    address ∈ (clients.filter (·.1 ≠ other)).map Prod.fst ↔
      address ∈ clients.map Prod.fst ∧ address ≠ other := by
  simp only [List.mem_map, List.mem_filter, decide_eq_true_eq]
  constructor
  · rintro ⟨entry, ⟨hentry, hne⟩, rfl⟩
    exact ⟨⟨entry, hentry, rfl⟩, hne⟩
  · rintro ⟨⟨entry, hentry, rfl⟩, hne⟩
    exact ⟨entry, ⟨hentry, hne⟩, rfl⟩

/-- The removal of a client in the table succeeds and frees its slot. -/
theorem mcmchClientBroadcastDel_spec (h : Registered getBySlot broadcast clients)
    (hget : AddressesRecords size getBySlot) (haddr : Addressable size broadcast.bitmapLength)
    {address : ℕ}
    (hown : address ∈ clients.map Prod.fst) :
    ∃ broadcast', mcmchClientBroadcastDel size broadcast address = (.success, broadcast') ∧
      broadcast'.bitmapLength = broadcast.bitmapLength ∧
      broadcast'.clients = broadcast.clients ∧
      Registered getBySlot broadcast' (clients.filter (·.1 ≠ address)) := by
  obtain ⟨entry, hentry, rfl⟩ := List.mem_map.mp hown
  obtain ⟨slot, hslot, haddress, -⟩ := h.records entry hentry
  have hlt := haddr.size_mul_lt hslot
  have hbits := haddr.bits
  have hdif : (((entry.1 : ℤ) - broadcast.clients) % 2 ^ 64).toNat = size * slot := by
    rw [haddress, hget]
    omega
  have hdel : mcmchClientBroadcastDel size broadcast entry.1 =
      (.success, { broadcast with bitmap := clearBit broadcast.bitmap slot }) := by
    simp only [mcmchClientBroadcastDel, hdif, Nat.mul_mod_right, ne_eq, not_true_eq_false, if_false,
      Nat.mul_div_cancel_left slot haddr.size_pos, BitmapScan.bitidx_eq (hslot.trans hbits),
      disableBit_natCast (hslot.trans hbits)]
  have hsame : getBySlot { broadcast with bitmap := clearBit broadcast.bitmap slot } =
      getBySlot broadcast := hget.congr rfl
  refine ⟨_, hdel, rfl, rfl, h.nodup.sublist (List.filter_sublist.map _), fun other hother ↦ ?_,
    fun other hother ↦ hsame ▸ h.records other (List.mem_filter.mp hother).1⟩
  rw [hsame]
  show bit (clearBit broadcast.bitmap slot) other = true ↔
    getBySlot broadcast other ∈ (clients.filter (·.1 ≠ entry.1)).map Prod.fst
  rw [bit_clearBit, Bool.and_eq_true, h.bits other hother, mem_addresses_filter, haddress, ne_eq,
    getBySlot_inj hget haddr hother hslot]
  simp

end Calls

/-! ### Runs -/

/-- What a user may expect of a table for `length` clients: an addition returns the address of a
slot below the length that no live client has, and it is refused with `OVERFLOW` exactly when
`length` clients are live; the record of each live client is a copy of it, and the set bits are
exactly those of the slots of the live clients. -/
structure TableContract (getBySlot : McmchClientBroadcast Client → ℕ → ℕ) (length : ℕ)
    (history : List (Unit × ClientEvent Client)) (broadcast : McmchClientBroadcast Client) :
    Prop where
  added : ∀ earlier client address later,
    history = earlier ++ ((), ClientEvent.added client address) :: later →
      ∃ slot < length, address = getBySlot broadcast slot ∧
        address ∉ (live earlier).map Prod.fst
  refused_iff : ∀ earlier client event later, history = earlier ++ ((), event) :: later →
    event.Adds client →
      (event = ClientEvent.refused client .overflow ↔ (live earlier).length = length)
  records : ∀ entry ∈ live history, ∃ slot < 8 * broadcast.bitmapLength,
    entry.1 = getBySlot broadcast slot ∧ broadcast.records slot = entry.2
  bits : ∀ slot < 8 * broadcast.bitmapLength, bit broadcast.bitmap slot = true ↔
    getBySlot broadcast slot ∈ (live history).map Prod.fst

/-- No client is added while `limit` clients are in the table. -/
def NoneAddedAt (limit : ℕ) (history : List (Unit × ClientEvent Client)) : Prop :=
  ∀ earlier client event later, history = earlier ++ ((), event) :: later → event.Adds client →
    (live earlier).length ≠ limit

section Runs

variable {getBySlot : McmchClientBroadcast Client → ℕ → ℕ} {size : ℕ}
  {broadcast : McmchClientBroadcast Client} {history : List (Unit × ClientEvent Client)}
  {config : Config Unit (McmchClientBroadcast Client) Unit}

/-- A step of a user of a table in which the live clients are registered. -/
theorem clientStep_cases (h : Registered getBySlot broadcast (live history))
    (hget : AddressesRecords size getBySlot) (haddr : Addressable size broadcast.bitmapLength)
    {thread thread' : Unit} {event : ClientEvent Client} {broadcast' : McmchClientBroadcast Client}
    (hguard : ownClients history ⟨broadcast, fun _ ↦ thread⟩ () event)
    (hstep : (clientMachine getBySlot size).program broadcast thread event broadcast' thread') :
    broadcast'.bitmapLength = broadcast.bitmapLength ∧ broadcast'.clients = broadcast.clients ∧
      Registered getBySlot broadcast' (register (live history) event) ∧
      ((∃ client, event = .refused client .overflow ∧
          (live history).length = 8 * broadcast.bitmapLength) ∨
        (∃ client, ∃ slot < 8 * broadcast.bitmapLength,
          event = .added client (getBySlot broadcast slot) ∧
          slot ≤ (live history).length ∧
          getBySlot broadcast slot ∉ (live history).map Prod.fst) ∨
        ∃ address, event = .removed address .success) := by
  obtain ⟨command, hcommand⟩ := hstep
  cases command with
  | add client =>
    unfold clientMachine at hcommand
    rcases mcmchClientBroadcastAdd_cases h hget haddr client with ⟨hadd, hfull⟩ |
      ⟨slot, hslot, next, hadd, hle, hfree, hlength, hclients, hnext⟩
    · simp only [hadd] at hcommand
      cases hcommand
      exact ⟨rfl, rfl, h, Or.inl ⟨client, rfl, hfull⟩⟩
    · simp only [hadd] at hcommand
      cases hcommand
      exact ⟨hlength, hclients, hnext, Or.inr (Or.inl ⟨client, slot, hslot, rfl, hle, hfree⟩)⟩
  | del address =>
    unfold clientMachine at hcommand
    cases hdel : mcmchClientBroadcastDel size broadcast address with
    | mk status next =>
      simp only [hdel] at hcommand
      cases hcommand
      obtain ⟨next, hspec, hlength, hclients, hnext⟩ :=
        mcmchClientBroadcastDel_spec h hget haddr hguard
      obtain ⟨rfl, rfl⟩ := Prod.mk.inj (hdel.symm.trans hspec)
      exact ⟨hlength, hclients, hnext, Or.inr (Or.inr ⟨address, rfl⟩)⟩

/-- Along a run the live clients are registered. -/
theorem registered_of_run (h : Registered getBySlot broadcast [])
    (hget : AddressesRecords size getBySlot) (haddr : Addressable size broadcast.bitmapLength)
    (hrun : ClientRun getBySlot size broadcast history config) :
    config.shared.bitmapLength = broadcast.bitmapLength ∧
      config.shared.clients = broadcast.clients ∧
      Registered getBySlot config.shared (live history) := by
  apply Run.invariant (fun history config ↦
    config.shared.bitmapLength = broadcast.bitmapLength ∧
      config.shared.clients = broadcast.clients ∧
      Registered getBySlot config.shared (live history)) ⟨rfl, rfl, h⟩ _ hrun
  rintro history config ⟨⟩ event broadcast' thread' - ⟨hlength, hclients, hregistered⟩ hguard hstep
  obtain ⟨hlength', hclients', hnext, -⟩ :=
    clientStep_cases hregistered hget (hlength ▸ haddr) hguard hstep
  rw [live_concat]
  exact ⟨hlength'.trans hlength, hclients'.trans hclients, hnext⟩

/-- A call of a run, between the calls before it and those after it. -/
theorem clientEvent_cases (h : Registered getBySlot broadcast [])
    (hget : AddressesRecords size getBySlot) (haddr : Addressable size broadcast.bitmapLength)
    {earlier later : List (Unit × ClientEvent Client)} {client : Client}
    {event : ClientEvent Client}
    (hrun : ClientRun getBySlot size broadcast (earlier ++ ((), event) :: later) config)
    (hadds : event.Adds client) :
    (event = .refused client .overflow ∧
        (live earlier).length = 8 * broadcast.bitmapLength) ∨
      ∃ slot < 8 * broadcast.bitmapLength,
        event = .added client (getBySlot broadcast slot) ∧ slot ≤ (live earlier).length ∧
        (live earlier).length < 8 * broadcast.bitmapLength ∧
        getBySlot broadcast slot ∉ (live earlier).map Prod.fst := by
  obtain ⟨middle, shared, own, hbefore, hguard, hstep⟩ := hrun.cut
  obtain ⟨hlength, hclients, hregistered⟩ := registered_of_run h hget haddr hbefore
  have haddr' : Addressable size middle.shared.bitmapLength := hlength ▸ haddr
  have hslots : getBySlot middle.shared = getBySlot broadcast := hget.congr hclients
  obtain ⟨hnextLength, -, hnext, hcases⟩ := clientStep_cases hregistered hget haddr' hguard hstep
  rw [← hlength, ← hslots]
  rcases hcases with ⟨other, rfl, hfull⟩ | ⟨other, slot, hslot, rfl, hle, hfree⟩ | ⟨_, rfl⟩
  · obtain rfl : other = client := hadds
    exact Or.inl ⟨rfl, hfull⟩
  · obtain rfl : other = client := hadds
    have hroom := hnext.length_le hget (hnextLength ▸ haddr')
    rw [hnextLength] at hroom
    exact Or.inr ⟨slot, hslot, rfl, hle, hroom, hfree⟩
  · exact hadds.elim

/-- While no client is added at a limit, there are no more clients than the limit. -/
theorem length_live_le {limit : ℕ} (history : List (Unit × ClientEvent Client)) :
    NoneAddedAt limit history → (live history).length ≤ limit := by
  induction history using List.reverseRecOn with
  | nil =>
    intro _
    exact Nat.zero_le limit
  | append_singleton history entry ih =>
    intro hnone
    obtain ⟨⟨⟩, event⟩ := entry
    have hbefore : (live history).length ≤ limit := by
      apply ih
      rintro earlier client event' later rfl
      exact hnone earlier client event' (later ++ [((), event)]) (by simp)
    rw [live_concat]
    cases event with
    | added client address =>
      have hne := hnone history client _ [] rfl rfl
      show (live history).length + 1 ≤ limit
      omega
    | refused client status => exact hbefore
    | removed address status => exact (List.length_filter_le _ _).trans hbefore

/-- The contract is kept when the slots of the bitmap are as many as the table was made for, or when
no client is added at the smaller of the two numbers. -/
theorem tableContract_of_run {length : ℕ} (h : Registered getBySlot broadcast [])
    (hget : AddressesRecords size getBySlot) (haddr : Addressable size broadcast.bitmapLength)
    (hrun : ClientRun getBySlot size broadcast history config)
    (hlimit : 8 * broadcast.bitmapLength = length ∨
      NoneAddedAt (min length (8 * broadcast.bitmapLength)) history) :
    TableContract getBySlot length history config.shared := by
  obtain ⟨hlength, hclients, hregistered⟩ := registered_of_run h hget haddr hrun
  have hslots : getBySlot config.shared = getBySlot broadcast := hget.congr hclients
  -- below the limit there is a slot for one more client
  have hroom : ∀ earlier client event later, history = earlier ++ ((), event) :: later →
      event.Adds client → 8 * broadcast.bitmapLength = length ∨
        (live earlier).length < length ∧ (live earlier).length < 8 * broadcast.bitmapLength := by
    rintro earlier client event later rfl hadds
    refine hlimit.imp_right fun hnone ↦ ?_
    have hne := hnone earlier client event later rfl hadds
    have hle : (live earlier).length ≤ min length (8 * broadcast.bitmapLength) := by
      apply length_live_le
      rintro before other event' between rfl
      exact hnone before other event' (between ++ ((), event) :: later) (by simp)
    omega
  refine ⟨fun earlier client address later hhistory ↦ ?_,
    fun earlier client event later hhistory hadds ↦ ?_, hregistered.records, hregistered.bits⟩
  · subst hhistory
    have hcase := hroom earlier client _ later rfl rfl
    rcases clientEvent_cases h hget haddr hrun (show ClientEvent.Adds client _ from rfl) with
      ⟨hevent, -⟩ | ⟨slot, hslot, hevent, hle, -, hfree⟩
    · exact absurd hevent (by simp)
    · obtain ⟨-, rfl⟩ := (ClientEvent.added.injEq ..).mp hevent
      exact ⟨slot, by omega, by rw [hslots], hfree⟩
  · subst hhistory
    have hcase := hroom earlier client event later rfl hadds
    rcases clientEvent_cases h hget haddr hrun hadds with ⟨hevent, hfull⟩ |
      ⟨slot, hslot, hevent, hle, hlt, -⟩
    · exact iff_of_true hevent (by omega)
    · exact iff_of_false (by simp [hevent]) (by omega)

end Runs

/-- A table keeps its contract in a run exactly when its length is a multiple of eight (and rounding
it up did not wrap), or no client is added in the run while the table has as many clients as it was
made for, or as its bitmap has bits if these are fewer. -/
theorem mcmchClientBroadcast_contract_iff {getBySlot : McmchClientBroadcast Client → ℕ → ℕ}
    {header size length : ℕ} (hget : AddressesRecords size getBySlot)
    {malloc : ℕ → Option (McmchClientBroadcast Client)} {created : McmchClientBroadcast Client}
    (hcreate : mcmchClientCreateBroadcast header size malloc length = .ok created)
    (haddr : Addressable size created.bitmapLength)
    {history : List (Unit × ClientEvent Client)}
    {config : Config Unit (McmchClientBroadcast Client) Unit}
    (hrun : ClientRun getBySlot size created history config) :
    TableContract getBySlot length history config.shared ↔
      8 * ((length + 7) % 2 ^ 64 / 8) = length ∨
        NoneAddedAt (min length (8 * ((length + 7) % 2 ^ 64 / 8))) history := by
  obtain ⟨-, hlength, hregistered⟩ := mcmchClientCreateBroadcast_spec hcreate
  rw [← hlength]
  refine ⟨fun hcontract ↦ ?_, tableContract_of_run hregistered hget haddr hrun⟩
  by_contra hbad
  obtain ⟨hne, hadded⟩ := not_or.mp hbad
  apply hadded
  rintro earlier client event later rfl hadds hlimit
  have hiff := hcontract.refused_iff earlier client event later rfl hadds
  rcases clientEvent_cases hregistered hget haddr hrun hadds with ⟨hevent, hfull⟩ |
    ⟨slot, hslot, hevent, -, hlt, -⟩
  · have hfull' := hiff.mp hevent
    omega
  · have hrefused := hiff.mpr (by omega)
    rw [hevent] at hrefused
    exact absurd hrefused (by simp)

/-- Records of 64 bytes each. -/
def recordsOf64 (broadcast : McmchClientBroadcast ℕ) (slot : ℕ) : ℕ :=
  (broadcast.clients + 64 * slot) % 2 ^ 64

theorem addressesRecords_recordsOf64 : AddressesRecords 64 recordsOf64 :=
  fun _ _ ↦ rfl

/-- A table for at most eight clients, created in a block full of 57. -/
def smallTable (length : ℕ) : McmchClientBroadcast ℕ where
  fullength := length
  bitmapLength := 1
  bitmap := Bitmap.mcmpBitmapCleanOrder (fun _ ↦ 57#8) 0 1
  clients := 4113
  records := fun _ ↦ 0

theorem mcmchClientCreateBroadcast_smallTable {length : ℕ} (hone : 1 ≤ length)
    (height : length ≤ 8) :
    mcmchClientCreateBroadcast 16 64 (fun _ ↦ some ⟨9, 9, fun _ ↦ 57#8, 4113, fun _ ↦ 0⟩) length =
      .ok (smallTable length) := by
  have hblen : (length + 7) % 2 ^ 64 / 8 = 1 := by omega
  simp only [mcmchClientCreateBroadcast, hblen]
  rfl

theorem addressable_smallTable (length : ℕ) : Addressable 64 (smallTable length).bitmapLength := by
  show Addressable 64 1
  exact ⟨by decide, by decide, by decide⟩

/-- What eight additions to a table return. -/
def eightAdded : List (ClientEvent ℕ) :=
  (List.range 8).map fun k ↦ .added (5 + k) (4113 + 64 * k)

/-- Eight clients fill a table for eight clients, and a ninth one is refused. When the third client
has left, its slot is given out again. -/
theorem mcmchClientBroadcast_contract_iff_eight :
    ∃ (history : List (Unit × ClientEvent ℕ))
      (config : Config Unit (McmchClientBroadcast ℕ) Unit),
      ClientRun recordsOf64 64 (smallTable 8) history config ∧
        history.map Prod.snd =
          eightAdded ++ [.refused 13 .overflow, .removed 4241 .success, .added 14 4241] ∧
        TableContract recordsOf64 8 history config.shared := by
  obtain ⟨history, config, hrun, hevents⟩ := exists_run_of_play_view
    (clientMachine recordsOf64 64) ownClients ⟨smallTable 8, fun _ ↦ ()⟩
    ((List.range 9).map (fun k ↦ ((), ClientCommand.add (5 + k))) ++
      [((), .del 4241), ((), .add 14)])
    (fun history _ ↦ history.map Prod.snd)
    (eightAdded ++ [.refused 13 .overflow, .removed 4241 .success, .added 14 4241])
    (by decide +kernel)
  exact ⟨history, config, hrun, hevents,
    (mcmchClientBroadcast_contract_iff addressesRecords_recordsOf64
      (mcmchClientCreateBroadcast_smallTable (by decide) (by decide)) (addressable_smallTable 8)
      hrun).mpr (Or.inl rfl)⟩

/-- A second client is put behind the only record of a table for one client. -/
theorem mcmchClientBroadcast_contract_overrun :
    mcmchClientCreateBroadcast 16 64 (fun _ ↦ some ⟨9, 9, fun _ ↦ 57#8, 4113, fun _ ↦ 0⟩) 1 =
        .ok (smallTable 1) ∧
      ∃ (history : List (Unit × ClientEvent ℕ))
        (config : Config Unit (McmchClientBroadcast ℕ) Unit),
        ClientRun recordsOf64 64 (smallTable 1) history config ∧
          history = [((), ClientEvent.added 5 4113), ((), ClientEvent.added 6 4177)] ∧
          ¬ TableContract recordsOf64 1 history config.shared := by
  obtain ⟨config, hrun, hclients⟩ := exists_run_of_play (clientMachine recordsOf64 64) ownClients
    ⟨smallTable 1, fun _ ↦ ()⟩ [((), .add 5), ((), .add 6)] (fun config ↦ config.shared.clients)
    [((), ClientEvent.added 5 4113), ((), ClientEvent.added 6 4177)] 4113 (by decide +kernel)
  refine ⟨mcmchClientCreateBroadcast_smallTable le_rfl (by decide), _, config, hrun, rfl,
    fun hcontract ↦ ?_⟩
  obtain ⟨slot, hslot, haddress, -⟩ :=
    hcontract.added [((), ClientEvent.added 5 4113)] 6 4177 [] rfl
  rw [recordsOf64, hclients] at haddress
  omega

end Mcmp.Server.ClientTable
