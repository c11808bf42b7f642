import Mcmp.Server.Broadcast

/-!
# What adding a client writes

`mcmchBroadcastAddClient` copies as many bytes of the address as the caller says into the 32 bytes
that the record has for them, and then stores the pointer to the broadcast behind these. Nothing
compares the number with 32. An address that fits changes the record of its slot alone and can be
read back from it; the bytes of a longer one run over the pointer, into the records that follow and
over the end of the block.
-/

set_option autoImplicit false
set_option relaxedAutoImplicit false

namespace Mcmp.Server.BroadcastFrame

open Foundation.ByteBits Foundation.Interleaving Foundation.WordMemory Utilities Broadcast

/-- What an addition may write: no byte of the record of another client; the pointer to the
broadcast in its own record; and the given address at the start of the 32 bytes for it. -/
structure WritesOwnRecord (layout : Layout) (memory memory' : ByteMemory) (client : ℕ)
    (address : List (BitVec 8)) : Prop where
  others : ∀ slot < layout.capacity, layout.client slot ≠ client → ∀ i < 64,
    memory' (layout.client slot + i) = memory (layout.client slot + i)
  broadcast : wordAt memory' (client + 32) = BitVec.ofNat 64 layout.base
  address : address <+: (List.range 32).map fun i ↦ memory' (client + i)

section Frame

variable {layout : Layout} {memory : ByteMemory} {slot i : ℕ} {address : List (BitVec 8)}

/-- The bitmap ends before the records. -/
theorem added_behind_bitmap (hslot : slot < layout.capacity)
    (hi : layout.base + 16 + layout.bitmapLength ≤ i) :
    layout.added memory slot address i =
      storeWord (storeBytes memory (layout.client slot) address) (layout.client slot + 32)
        (BitVec.ofNat 64 layout.base) i := by
  have hbyte : (8 * (layout.base + 16) + slot) / 8 < layout.base + 16 + layout.bitmapLength := by
    have hcapacity := @Layout.capacity_le layout
    omega
  exact Function.update_of_ne (by omega) _ _

/-- An address that fits changes nothing behind the bitmap but its own record. -/
theorem added_outside_record (hslot : slot < layout.capacity) (hfits : address.length ≤ 32)
    (hi : layout.base + 16 + layout.bitmapLength ≤ i)
    (hout : i < layout.client slot ∨ layout.client slot + 64 ≤ i) :
    layout.added memory slot address i = memory i := by
  rw [added_behind_bitmap hslot hi, storeWord_outside (by omega), storeBytes,
    overwrite_outside (by omega)]

/-- An address that fits can be read back. -/
theorem added_address (hslot : slot < layout.capacity) (hfits : address.length ≤ 32)
    (hi : i < address.length) :
    layout.added memory slot address (layout.client slot + i) = address[i] := by
  have hbehind : layout.base + 16 + layout.bitmapLength ≤ layout.client slot := by
    unfold Layout.client
    omega
  rw [added_behind_bitmap hslot (by omega), storeWord_outside (by omega), storeBytes,
    overwrite_inside (by omega) (by omega), Nat.add_sub_cancel_left]
  simp [hi]

theorem writesOwnRecord_added_iff (hslot : slot < layout.capacity) :
    WritesOwnRecord layout memory (layout.added memory slot address) (layout.client slot) address ↔
      address.length ≤ 32 := by
  constructor
  · intro hwrites
    simpa using hwrites.address.length_le
  intro hfits
  have hbehind : ∀ other, layout.base + 16 + layout.bitmapLength ≤ layout.client other := by
    intro other
    unfold Layout.client
    omega
  refine ⟨fun other hother hne i hi ↦ ?_, ?_, ?_⟩
  · have hslots : other ≠ slot := fun heq ↦ hne (Layout.client_inj.mpr heq)
    refine added_outside_record hslot hfits ((hbehind other).trans (Nat.le_add_right _ _)) ?_
    unfold Layout.client
    omega
  · have hword : ∀ i, layout.client slot + 32 ≤ i → i < layout.client slot + 32 + 8 →
        layout.added memory slot address i =
          storeWord (storeBytes memory (layout.client slot) address) (layout.client slot + 32)
            (BitVec.ofNat 64 layout.base) i := by
      intro i hlow _
      have hle := hbehind slot
      exact added_behind_bitmap hslot (by omega)
    rw [wordAt_congr hword, wordAt_storeWord]
  · rw [List.prefix_iff_eq_take]
    apply List.ext_getElem
    · simp [hfits]
    intro i hi _
    rw [List.getElem_take, List.getElem_map, List.getElem_range, added_address hslot hfits hi]

end Frame

/-- In every reachable state of a broadcast, an addition that returns a client writes its own record
alone, with the pointer and the address in it, exactly when the address is not longer than the 32
bytes that a record has for it. -/
theorem mcmchBroadcastAddClient_writesOwnRecord_iff {malloc : ℕ → Option ℕ}
    {memory created : ByteMemory} {capacity broadcast : ℕ}
    (hfits : broadcast + 16 + (capacity + 7) / 8 + 64 * capacity < 2 ^ 64)
    (hcreate : mcmchBroadcastCreate malloc memory capacity = .ok (broadcast, created))
    {history : List (Unit × BroadcastEvent)} {config : Config Unit ByteMemory Unit}
    (hrun : BroadcastRun broadcast created history config) {address : List (BitVec 8)} {client : ℕ}
    {memory' : ByteMemory}
    (hadd : mcmchBroadcastAddClient config.shared broadcast address = (.ok client, memory')) :
    WritesOwnRecord ⟨broadcast, capacity, hfits⟩ config.shared memory' client address ↔
      address.length ≤ 32 := by
  let layout : Layout := ⟨broadcast, capacity, hfits⟩
  have hcreate' : mcmchBroadcastCreate malloc memory layout.capacity =
      .ok (layout.base, created) := hcreate
  have hintact : layout.Intact config.shared :=
    (intact_of_run (mcmchBroadcastCreate_spec hcreate').1 hrun).1
  rcases mcmchBroadcastAddClient_eq hintact address with ⟨hfull, -⟩ | ⟨slot, hslot, hslotAdd, -⟩
  · exact absurd (hadd.symm.trans hfull) (by simp)
  · obtain ⟨hclient, rfl⟩ := Prod.mk.inj (hadd.symm.trans hslotAdd)
    obtain rfl := Except.ok.inj hclient
    exact writesOwnRecord_added_iff hslot

/-- A broadcast for two clients at address 4096, in a memory full of 57. -/
def pairBroadcast : ByteMemory :=
  Bitmap.mcmpBitmapCleanOrder (storeSize (storeSize (fun _ ↦ 57#8) 4096 2) 4104 1) 4112 1

theorem mcmchBroadcastCreate_pairBroadcast :
    mcmchBroadcastCreate (fun _ ↦ some 4096) (fun _ ↦ 57#8) 2 = .ok (4096, pairBroadcast) := by
  have hlength : getBitmapLength (storeSize (storeSize (fun _ ↦ 57#8) 4096 2) 4104 1) 4096 = 1 :=
    sizeAt_storeSize (by decide) _ _
  simp only [mcmchBroadcastCreate]
  rw [show (2 + 7) % 2 ^ 64 / 8 = 1 from rfl, hlength]
  rfl

/-- When the first record is taken, the addition of a client with an address of four bytes writes
the second record alone. -/
theorem mcmchBroadcastAddClient_writesOwnRecord_pair :
    ∃ (config : Config Unit ByteMemory Unit) (memory' : ByteMemory),
      BroadcastRun 4096 pairBroadcast [((), .added 4113)] config ∧
        mcmchBroadcastAddClient config.shared 4096 [127#8, 0#8, 0#8, 1#8] =
          (.ok 4177, memory') ∧
        WritesOwnRecord ⟨4096, 2, by decide⟩ config.shared memory' 4177
          [127#8, 0#8, 0#8, 1#8] := by
  obtain ⟨config, hrun, hclient⟩ := exists_run_of_play (broadcastMachine 4096) anyStep
    ⟨pairBroadcast, fun _ ↦ ()⟩ [((), .add [10#8, 0#8, 0#8, 7#8])]
    (fun config ↦ (mcmchBroadcastAddClient config.shared 4096 [127#8, 0#8, 0#8, 1#8]).1)
    [((), .added 4113)] (.ok 4177) (by decide +kernel)
  cases hadd : mcmchBroadcastAddClient config.shared 4096 [127#8, 0#8, 0#8, 1#8] with
  | mk result memory' =>
    rw [hadd] at hclient
    obtain rfl : result = .ok 4177 := hclient
    exact ⟨config, memory', hrun, hadd, (mcmchBroadcastAddClient_writesOwnRecord_iff (by decide)
      mcmchBroadcastCreate_pairBroadcast hrun hadd).mpr (by decide)⟩

/-- Adding a client with an address of 65 bytes overwrites the first byte of the next record. -/
theorem mcmchBroadcastAddClient_overwrites_pair :
    mcmchBroadcastCreate (fun _ ↦ some 4096) (fun _ ↦ 57#8) 2 = .ok (4096, pairBroadcast) ∧
      ∃ memory', mcmchBroadcastAddClient pairBroadcast 4096 (List.replicate 65 1#8) =
          (.ok 4113, memory') ∧
        memory' 4177 ≠ pairBroadcast 4177 ∧
        ¬ WritesOwnRecord ⟨4096, 2, by decide⟩ pairBroadcast memory' 4113
          (List.replicate 65 1#8) := by
  have hclient : (mcmchBroadcastAddClient pairBroadcast 4096 (List.replicate 65 1#8)).1 =
      .ok 4113 := by
    decide +kernel
  have hbyte : (mcmchBroadcastAddClient pairBroadcast 4096 (List.replicate 65 1#8)).2 4177 ≠
      pairBroadcast 4177 := by
    decide +kernel
  cases hadd : mcmchBroadcastAddClient pairBroadcast 4096 (List.replicate 65 1#8) with
  | mk result memory' =>
    rw [hadd] at hclient hbyte
    obtain rfl : result = .ok 4113 := hclient
    refine ⟨mcmchBroadcastCreate_pairBroadcast, memory', rfl, hbyte, fun hwrites ↦ ?_⟩
    exact hbyte (hwrites.others 1 (by decide) (by decide) 0 (by decide))

end Mcmp.Server.BroadcastFrame
