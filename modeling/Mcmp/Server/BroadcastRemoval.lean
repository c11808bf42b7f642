import Mcmp.Server.Broadcast

/-!
# Removing a client from a broadcast

A removal recovers the slot of a client by subtracting the address of the records from the address
of its own record. It computes the address of the records as if the record were the broadcast:
sixteen bytes behind the record, and then as many bytes further as the second word of the record
says, which is a part of the address of the client. The difference is the slot of the client only
when that word is close below `2 ^ 64` (`deleteIndex_eq_iff`); with a smaller word it is negative,
and the removal is refused. `mcmchBroadcastDelClient_undoes_iff` states exactly when a removal
undoes the registration.
-/

set_option autoImplicit false
set_option relaxedAutoImplicit false

namespace Mcmp.Server.BroadcastRemoval

open Foundation.ByteBits Foundation.Interleaving Foundation.WordMemory Utilities Broadcast

/-- The removal of the client in a slot undoes its registration: it succeeds and frees that slot and
no other, and when it is repeated it finds the slot free and changes nothing. -/
structure Undoes (layout : Layout) (memory : ByteMemory) (slot : ℕ) : Prop where
  removed : (mcmchBroadcastDelClient memory layout.base (layout.client slot)).1 = .success
  cleared : ∀ other < 8 * layout.bitmapLength,
    layout.taken (mcmchBroadcastDelClient memory layout.base (layout.client slot)).2 other =
      (layout.taken memory other && !decide (other = slot))
  again : mcmchBroadcastDelClient
      (mcmchBroadcastDelClient memory layout.base (layout.client slot)).2 layout.base
        (layout.client slot) =
    (.noavle, (mcmchBroadcastDelClient memory layout.base (layout.client slot)).2)

/-- The second word of the record of a slot lets a removal compute that slot: sixteen and the word
are a number of bytes from the slot to `2 ^ 64`, up to the size of a record, and more than
`2 ^ 63`. -/
structure Recovers (layout : Layout) (memory : ByteMemory) (slot : ℕ) : Prop where
  lower : 2 ^ 64 ≤ getBitmapLength memory (layout.client slot) + 64 * slot + 79
  upper : getBitmapLength memory (layout.client slot) + 64 * slot + 16 ≤ 2 ^ 64
  positive : 2 ^ 63 < getBitmapLength memory (layout.client slot) + 16

section Removal

variable {layout : Layout} {memory memory' : ByteMemory} {slot : ℕ}

/-- A removal computes the slot of its client when the second word of the record lets it. -/
theorem deleteIndex_eq_iff (hslot : slot < layout.capacity) :
    deleteIndex memory (layout.client slot) = slot ↔ Recovers layout memory slot := by
  have hclient := Layout.client_lt hslot
  have hfits := layout.fits
  have hword : getBitmapLength memory (layout.client slot) < 2 ^ 64 := sizeAt_lt _ _
  have hiff : deleteIndex memory (layout.client slot) = slot ↔
      2 ^ 64 ≤ getBitmapLength memory (layout.client slot) + 64 * slot + 79 ∧
        getBitmapLength memory (layout.client slot) + 64 * slot + 16 ≤ 2 ^ 64 ∧
        2 ^ 63 < getBitmapLength memory (layout.client slot) + 16 := by
    rw [deleteIndex, getClients, getBitmap]
    generalize getBitmapLength memory (layout.client slot) = word at hword
    generalize layout.client slot = client at hclient
    rw [Int.bmod_def]
    -- the difference of the two addresses does not depend on the address of the record
    by_cases hsmall : word + 16 ≤ 2 ^ 64
    · have hdifference : ((client : ℤ) - ((((client + 16) % 2 ^ 64 + word) % 2 ^ 64 : ℕ) : ℤ)) %
          ((2 ^ 64 : ℕ) : ℤ) = 2 ^ 64 - 16 - (word : ℤ) := by
        omega
      rw [hdifference]
      split_ifs <;> omega
    · have hdifference : ((client : ℤ) - ((((client + 16) % 2 ^ 64 + word) % 2 ^ 64 : ℕ) : ℤ)) %
          ((2 ^ 64 : ℕ) : ℤ) = 2 ^ 65 - 16 - (word : ℤ) := by
        omega
      rw [hdifference]
      split_ifs <;> omega
  exact ⟨fun h ↦ ⟨(hiff.mp h).1, (hiff.mp h).2.1, (hiff.mp h).2.2⟩,
    fun h ↦ hiff.mpr ⟨h.lower, h.upper, h.positive⟩⟩

/-- The slot that a removal computes does not depend on the bitmap. -/
theorem deleteIndex_clearBit {other : ℕ} (hother : other < layout.capacity) :
    deleteIndex (clearBit memory (8 * (layout.base + 16) + other)) (layout.client slot) =
      deleteIndex memory (layout.client slot) := by
  have hcapacity : layout.capacity ≤ 8 * layout.bitmapLength := Layout.capacity_le
  have hword : getBitmapLength (clearBit memory (8 * (layout.base + 16) + other))
      (layout.client slot) = getBitmapLength memory (layout.client slot) := by
    refine congrArg BitVec.toNat (wordAt_congr fun i hi _ ↦ Function.update_of_ne ?_ _ _)
    unfold Layout.client at hi
    omega
  rw [deleteIndex, getClients, hword, deleteIndex, getClients]

/-- A removal that succeeds frees the slot that it computes. -/
theorem removal_of_success (h : layout.Intact memory) {client : ℕ}
    (hsuccess : (mcmchBroadcastDelClient memory layout.base client).1 = .success) :
    ∃ slot < layout.capacity, deleteIndex memory client = slot ∧
      layout.taken memory slot = true ∧
      (mcmchBroadcastDelClient memory layout.base client).2 =
        clearBit memory (8 * (layout.base + 16) + slot) := by
  rcases mcmchBroadcastDelClient_cases h client with ⟨hdel, -⟩ | ⟨slot, hslot, hindex, ⟨-, hdel⟩ |
    ⟨htaken, hdel⟩⟩
  · rw [hdel] at hsuccess
    exact absurd hsuccess (by simp)
  · rw [hdel] at hsuccess
    exact absurd hsuccess (by simp)
  · rw [hdel]
    exact ⟨slot, hslot, hindex, htaken, rfl⟩

/-- A removal undoes the registration of a slot that is occupied and that it computes. -/
theorem undoes_iff (h : layout.Intact memory) (hslot : slot < layout.capacity) :
    Undoes layout memory slot ↔ layout.taken memory slot = true ∧ Recovers layout memory slot := by
  rw [← deleteIndex_eq_iff hslot]
  constructor
  · intro hundoes
    obtain ⟨found, hfound, hindex, htaken, hmemory⟩ := removal_of_success h hundoes.removed
    have hcleared := hundoes.cleared found (hfound.trans_le Layout.capacity_le)
    rw [hmemory] at hcleared
    have hsame : found = slot := by simpa [htaken] using hcleared
    exact ⟨hsame ▸ htaken, hsame ▸ hindex⟩
  · rintro ⟨htaken, hindex⟩
    have hdel : mcmchBroadcastDelClient memory layout.base (layout.client slot) =
        (.success, clearBit memory (8 * (layout.base + 16) + slot)) := by
      rcases mcmchBroadcastDelClient_cases h (layout.client slot) with ⟨-, hnone⟩ |
        ⟨found, hfound, hfoundIndex, hcases⟩
      · exact absurd hindex (hnone slot hslot)
      · obtain rfl : found = slot := by omega
        rcases hcases with ⟨hclear, -⟩ | ⟨-, hdel⟩
        · rw [htaken] at hclear
          exact Bool.noConfusion hclear
        · exact hdel
    have hagain : mcmchBroadcastDelClient (clearBit memory (8 * (layout.base + 16) + slot))
        layout.base (layout.client slot) =
          (.noavle, clearBit memory (8 * (layout.base + 16) + slot)) := by
      rw [← deleteIndex_clearBit hslot] at hindex
      rcases mcmchBroadcastDelClient_cases (h.clearBit hslot) (layout.client slot) with
        ⟨-, hnone⟩ | ⟨found, hfound, hfoundIndex, hcases⟩
      · exact absurd hindex (hnone slot hslot)
      · obtain rfl : found = slot := by omega
        rcases hcases with ⟨-, hdel⟩ | ⟨hset, -⟩
        · exact hdel
        · simp at hset
    refine ⟨?_, fun other _ ↦ ?_, ?_⟩
    · rw [hdel]
    · rw [hdel, Layout.taken_clearBit]
    · rw [hdel]
      exact hagain

/-- A removal right after the registration restores the occupied slots if and only if it computes
the slot of the registration. -/
theorem restores_iff (h : layout.Intact memory') (hslot : slot < layout.capacity)
    (hclear : layout.taken memory slot = false)
    (hadded : ∀ other < 8 * layout.bitmapLength,
      layout.taken memory' other = (layout.taken memory other || decide (other = slot))) :
    (mcmchBroadcastDelClient memory' layout.base (layout.client slot)).1 = .success ∧
        (∀ other < 8 * layout.bitmapLength,
          layout.taken (mcmchBroadcastDelClient memory' layout.base (layout.client slot)).2 other =
            layout.taken memory other) ↔
      Recovers layout memory' slot := by
  have hbits : slot < 8 * layout.bitmapLength := hslot.trans_le Layout.capacity_le
  have hset : layout.taken memory' slot = true := by
    rw [hadded slot hbits]
    simp
  constructor
  · rintro ⟨hsuccess, hrestored⟩
    obtain ⟨found, hfound, hindex, -, hmemory⟩ := removal_of_success h hsuccess
    have hback := hrestored slot hbits
    rw [hmemory, Layout.taken_clearBit, hset, hclear] at hback
    have hsame : slot = found := by simpa using hback
    exact (deleteIndex_eq_iff hslot).mp (hsame ▸ hindex)
  · intro hrecovers
    have hundoes := (undoes_iff h hslot).mpr ⟨hset, hrecovers⟩
    refine ⟨hundoes.removed, fun other hother ↦ ?_⟩
    rw [hundoes.cleared other hother, hadded other hother]
    by_cases hsame : other = slot
    · rw [hsame, hclear]
      simp
    · simp [hsame]

end Removal

/-! ### When a removal undoes a registration -/

/-- A client is removed with success. -/
def RemovedSelf (client : ℕ) (_ : Unit) : BroadcastEvent → Prop
  | .removed other status => other = client ∧ status = .success
  | _ => False

/-- A pointer to a client that has been added and not removed since is the record of a slot, and its
removal undoes its registration if and only if the slot is still occupied and the second word of the
record, a part of the address of the client, lets a removal compute the slot. The same word decides
whether adding a client and removing it again restores the occupied slots. -/
theorem mcmchBroadcastDelClient_undoes_iff {malloc : ℕ → Option ℕ} {memory created : ByteMemory}
    {capacity broadcast : ℕ}
    (hfits : broadcast + 16 + (capacity + 7) / 8 + 64 * capacity < 2 ^ 64)
    (hcreate : mcmchBroadcastCreate malloc memory capacity = .ok (broadcast, created))
    {history : List (Unit × BroadcastEvent)} {config : Config Unit ByteMemory Unit}
    (hrun : BroadcastRun broadcast created history config) :
    (∀ client, Since history (Added client) (RemovedSelf client) →
      ∃ slot < capacity, client = Layout.client ⟨broadcast, capacity, hfits⟩ slot ∧
        (Undoes ⟨broadcast, capacity, hfits⟩ config.shared slot ↔
          Layout.taken ⟨broadcast, capacity, hfits⟩ config.shared slot = true ∧
            Recovers ⟨broadcast, capacity, hfits⟩ config.shared slot)) ∧
      ∀ address client memory',
        mcmchBroadcastAddClient config.shared broadcast address = (.ok client, memory') →
        ∃ slot < capacity, client = Layout.client ⟨broadcast, capacity, hfits⟩ slot ∧
          ((mcmchBroadcastDelClient memory' broadcast client).1 = .success ∧
              (∀ other < 8 * Layout.bitmapLength ⟨broadcast, capacity, hfits⟩,
                Layout.taken ⟨broadcast, capacity, hfits⟩
                    (mcmchBroadcastDelClient memory' broadcast client).2 other =
                  Layout.taken ⟨broadcast, capacity, hfits⟩ config.shared other) ↔
            Recovers ⟨broadcast, capacity, hfits⟩ memory' slot) := by
  let layout : Layout := ⟨broadcast, capacity, hfits⟩
  have hcreate' : mcmchBroadcastCreate malloc memory layout.capacity =
      .ok (layout.base, created) := hcreate
  have hcreated : layout.Intact created := (mcmchBroadcastCreate_spec hcreate').1
  have hintact : layout.Intact config.shared := (intact_of_run hcreated hrun).1
  constructor
  · rintro client ⟨before, thread, event, after, rfl, hadded, -⟩
    obtain ⟨middle, memory', thread', hbefore, -, hstep⟩ := hrun.cut
    have hmiddle : layout.Intact middle.shared := (intact_of_run hcreated hbefore).1
    rcases broadcastStep_cases hmiddle hstep with ⟨rfl, -⟩ | ⟨slot, hslot, rfl, -⟩ |
      ⟨_, _, rfl, -⟩ | ⟨_, rfl, -⟩
    · exact hadded.elim
    · exact ⟨slot, hslot, Eq.symm hadded, undoes_iff hintact hslot⟩
    · exact hadded.elim
    · exact hadded.elim
  · intro address client memory' hadd
    rcases mcmchBroadcastAddClient_cases hintact address with ⟨hnone, -⟩ |
      ⟨slot, hslot, next, hsome, hclear, -, hnext, hadded⟩
    · exact absurd (hadd.symm.trans hnone) (by simp)
    · obtain ⟨hclient, rfl⟩ := Prod.mk.inj (hadd.symm.trans hsome)
      obtain rfl := Except.ok.inj hclient
      exact ⟨slot, hslot, rfl, restores_iff hnext hslot hclear hadded⟩

/-- The address of a client in a slot of a broadcast for one, whose second word is sixteen below
`2 ^ 64`: its removal undoes its registration. -/
theorem mcmchBroadcastDelClient_undoes_iff_high_word :
    ∃ (history : List (Unit × BroadcastEvent)) (config : Config Unit ByteMemory Unit),
      BroadcastRun 4096 singleBroadcast history config ∧ history = [((), .added 4113)] ∧
        Undoes ⟨4096, 1, by decide⟩ config.shared 0 := by
  obtain ⟨config, hrun, hview⟩ := exists_run_of_play (broadcastMachine 4096) anyStep
    ⟨singleBroadcast, fun _ ↦ ()⟩
    [((), .add [0#8, 0#8, 0#8, 0#8, 0#8, 0#8, 0#8, 0#8, 0xf0#8, 0xff#8, 0xff#8, 0xff#8, 0xff#8,
      0xff#8, 0xff#8, 0xff#8])]
    (fun config ↦ (bit config.shared (8 * 4112), getBitmapLength config.shared 4113))
    [((), .added 4113)] (true, 2 ^ 64 - 16) (by decide +kernel)
  obtain ⟨htaken, hword⟩ := Prod.mk.inj hview
  obtain ⟨slot, hslot, -, hundoes⟩ := (mcmchBroadcastDelClient_undoes_iff (by decide)
    mcmchBroadcastCreate_singleBroadcast hrun).1 4113 ⟨[], (), _, [], rfl, rfl, by simp⟩
  obtain rfl : slot = 0 := by omega
  have hclient : Layout.client ⟨4096, 1, by decide⟩ 0 = 4113 := rfl
  refine ⟨_, config, hrun, rfl, hundoes.mpr ⟨htaken, ?_, ?_, ?_⟩⟩
  · rw [hclient, hword]
    decide
  · rw [hclient, hword]
    decide
  · rw [hclient, hword]
    decide

/-- The client at 127.0.0.1:8080, whose address is followed by eight zero bytes, is added and
cannot be removed. -/
theorem not_undoes_zero_word :
    ∃ (history : List (Unit × BroadcastEvent)) (config : Config Unit ByteMemory Unit),
      BroadcastRun 4096 singleBroadcast history config ∧ history = [((), .added 4113)] ∧
        (mcmchBroadcastDelClient config.shared 4096 4113).1 = .overflow ∧
        ¬ Undoes ⟨4096, 1, by decide⟩ config.shared 0 := by
  obtain ⟨config, hrun, hrefused⟩ := exists_run_of_play (broadcastMachine 4096) anyStep
    ⟨singleBroadcast, fun _ ↦ ()⟩
    [((), .add [2#8, 0#8, 0x1f#8, 0x90#8, 127#8, 0#8, 0#8, 1#8, 0#8, 0#8, 0#8, 0#8, 0#8, 0#8, 0#8,
      0#8])]
    (fun config ↦ (mcmchBroadcastDelClient config.shared 4096 4113).1)
    [((), .added 4113)] .overflow (by decide +kernel)
  exact ⟨_, config, hrun, rfl, hrefused,
    fun hundoes ↦ absurd (hundoes.removed.symm.trans hrefused) (by decide)⟩

end Mcmp.Server.BroadcastRemoval
