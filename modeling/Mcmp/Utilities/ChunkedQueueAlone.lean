import Mcmp.Foundation.CyclicRange
import Mcmp.Utilities.ChunkedQueue

/-!
# A chunked queue used by one thread

The calls of a thread that has the queue to itself, each run from its first access to its return
(`callAlone`). A weak compare-exchange may fail any number of times before it succeeds, so a call
comes with the number of its spurious failures.

Each chunk is a first-in-first-out queue of its own, with room for one item less than it has slots
(`callsAlone_eq_fifos`). One step of the argument is that a call whose compare-exchange has failed
starts over with the memory as it was (`runCommands_tries`); the other is that the ring of a chunk
holds the list of its items (`Represents`), which the two successful calls keep.
-/

set_option autoImplicit false
set_option relaxedAutoImplicit false

namespace Mcmp.Utilities.ChunkedQueueAlone

open Foundation.ByteBits Foundation.CyclicRange Foundation.Interleaving Foundation.WordMemory
  ChunkedQueue

/-! ### Calls run to their end -/

/-- What a call returns: its status, and the item that a Take stores. -/
abbrev Answer := Mcmpst × Option Item

/-- The answer of a call, read from the event of its return. -/
def answer : ChunkEvent → Option Answer
  | .refused _ => some (.overflow, none)
  | .written _ _ _ => some (.success, none)
  | .taken _ _ item => some (.success, some item)
  | _ => none

/-- A call whose compare-exchange fails spuriously the given number of times: two loads and the
failure for each of them, and then two loads, the compare-exchange and the copy. -/
def tries : (failures : ℕ) → List ChunkCommand
  | 0 => [.advance, .advance, .advance, .advance]
  | failures + 1 => .advance :: .advance :: .failSpuriously :: tries failures

/-- What a thread has been answered with when it has returned. -/
def returned (result : List ChunkEvent × McmpChunkedQueue × ChunkThread) : Option Answer :=
  match result.2.2 with
  | .idle => result.1.findSome? answer
  | _ => none

@[simp] theorem returned_accessed (events : List ChunkEvent)
    (last : McmpChunkedQueue × ChunkThread) :
    returned (.accessed :: events, last) = returned (events, last) :=
  rfl

/-- Runs a call from its first access to its return. -/
def callAlone (queue : McmpChunkedQueue) (call : ChunkCall) (failures : ℕ) :
    Option Answer × McmpChunkedQueue :=
  let result := runCommands chunkMachine (tries failures) queue call.start
  (returned result, result.2.1)

/-- Runs a list of calls, one after the other. -/
def callsAlone (queue : McmpChunkedQueue) :
    List (ChunkCall × ℕ) → List (Option Answer) × McmpChunkedQueue
  | [] => ([], queue)
  | (call, failures) :: calls =>
    let first := callAlone queue call failures
    let rest := callsAlone first.2 calls
    (first.1 :: rest.1, rest.2)

/-! ### A family of first-in-first-out queues -/

/-- A call on a family of first-in-first-out queues of a capacity. -/
def fifosCall (capacity : ℕ) (fifos : ℕ → List Item) : ChunkCall → Answer × (ℕ → List Item)
  | .push ch item =>
    if (fifos ch).length < capacity then
      ((.success, none), Function.update fifos ch (fifos ch ++ [item]))
    else ((.overflow, none), fifos)
  | .take ch =>
    match fifos ch with
    | [] => ((.overflow, none), fifos)
    | item :: items => ((.success, some item), Function.update fifos ch items)

/-- A list of calls on a family of first-in-first-out queues. -/
def fifosCalls (capacity : ℕ) (fifos : ℕ → List Item) :
    List ChunkCall → List Answer × (ℕ → List Item)
  | [] => ([], fifos)
  | call :: calls =>
    let first := fifosCall capacity fifos call
    let rest := fifosCalls capacity first.2 calls
    (first.1 :: rest.1, rest.2)

/-! ### A call from its first access to its return -/

section Calls

variable {queue : McmpChunkedQueue} {ch : ℕ}

/-- A Push that finds no room has only loaded from the memory. -/
theorem callAlone_push_full (item : Item) (failures : ℕ)
    (hfull : sizeAt queue (cqChunk queue ch + 8) =
      nextSlot queue (sizeAt queue (cqChunk queue ch))) :
    callAlone queue (.push ch item) failures = (some (.overflow, none), queue) := by
  cases failures <;>
    simp [callAlone, tries, runCommands, chunkMachine, ChunkCall.start, mcmpChunkedQueuePush, hfull,
      returned, List.findSome?_cons, answer]

/-- A Take that finds no item has only loaded from the memory. -/
theorem callAlone_take_empty (failures : ℕ)
    (hempty : sizeAt queue (cqChunk queue ch) = sizeAt queue (cqChunk queue ch + 8)) :
    callAlone queue (.take ch) failures = (some (.overflow, none), queue) := by
  cases failures <;>
    simp [callAlone, tries, runCommands, chunkMachine, ChunkCall.start, mcmpChunkedQueueTake,
      hempty, returned, List.findSome?_cons, answer]

/-- A Push that finds room moves the head and writes the item, however often its compare-exchange
has failed: a failure leaves the memory as it was and lets the call start over. -/
theorem callAlone_push_fits (queue : McmpChunkedQueue) (ch : ℕ) (item : Item) (failures : ℕ)
    (hroom : sizeAt queue (cqChunk queue ch + 8) ≠
      nextSlot queue (sizeAt queue (cqChunk queue ch))) :
    callAlone queue (.push ch item) failures = (some (.success, none),
      (mcmpChunkedQueuePush ch item false
        (mcmpChunkedQueuePush ch item false queue
          (.reserveHead (sizeAt queue (cqChunk queue ch)))).2.1
        (.copyItem (sizeAt queue (cqChunk queue ch)))).2.1) := by
  induction failures with
  | zero =>
    simp [callAlone, tries, runCommands, chunkMachine, ChunkCall.start, mcmpChunkedQueuePush, hroom,
      returned, List.findSome?_cons, answer]
  | succ failures ih =>
    rw [← ih]
    simp [callAlone, tries, runCommands, chunkMachine, ChunkCall.start, mcmpChunkedQueuePush,
      hroom]

/-- A Take that finds an item moves the tail and returns the item, however often its
compare-exchange has failed. -/
theorem callAlone_take_some (queue : McmpChunkedQueue) (ch : ℕ) (failures : ℕ)
    (hsome : sizeAt queue (cqChunk queue ch) ≠ sizeAt queue (cqChunk queue ch + 8)) :
    callAlone queue (.take ch) failures =
      let tail := sizeAt queue (cqChunk queue ch + 8)
      let removed := (mcmpChunkedQueueTake ch false queue (.reserveTail tail)).2.1
      (some (.success, some (wordAt removed (cqItem removed ch tail))), removed) := by
  induction failures with
  | zero =>
    simp [callAlone, tries, runCommands, chunkMachine, ChunkCall.start, mcmpChunkedQueueTake, hsome,
      returned, List.findSome?_cons, answer]
  | succ failures ih =>
    rw [← ih]
    simp [callAlone, tries, runCommands, chunkMachine, ChunkCall.start, mcmpChunkedQueueTake,
      hsome]

end Calls

/-! ### The refinement -/

/-- The items in the ring of a chunk, the oldest one first. -/
def ringItems (alignment : ℕ) (chunk : Chunk) : List Item :=
  (cells alignment chunk.tail chunk.head).map chunk.items

/-- A queue represents a family of first-in-first-out queues: the ring of each chunk holds the items
of its queue. -/
structure Represents (shape : Shape) (queue : McmpChunkedQueue) (fifos : ℕ → List Item) :
    Prop where
  wellFormed : shape.WellFormed queue
  items : ∀ ch < shape.chunks, ringItems shape.alignment (shape.chunksOf queue ch) = fifos ch

section Rings

variable {alignment : ℕ} {chunk : Chunk}

/-- A ring with a head inside is full when its next head is the tail. -/
theorem ring_full_iff (hhead : chunk.head < alignment) (htail : chunk.tail < alignment) :
    (chunk.head + 1) % alignment = chunk.tail ↔
      ¬ (ringItems alignment chunk).length < alignment - 1 := by
  have hspan := span_lt htail hhead
  rw [mod_eq_next hhead, next_head_eq_tail_iff htail hhead, ringItems, List.length_map,
    length_cells]
  omega

/-- A ring is empty when head and tail meet. -/
theorem ring_empty_iff (hhead : chunk.head < alignment) (htail : chunk.tail < alignment) :
    chunk.head = chunk.tail ↔ ringItems alignment chunk = [] := by
  constructor
  · intro hsame
    rw [ringItems, hsame, cells_self, List.map_nil]
  · intro hempty
    by_contra hne
    rw [ringItems, cells_eq_cons htail hhead hne] at hempty
    exact absurd hempty (by simp)

/-- Moving the head past a new item appends it. -/
theorem ringItems_push (item : Item) (hhead : chunk.head < alignment)
    (htail : chunk.tail < alignment) (hroom : (chunk.head + 1) % alignment ≠ chunk.tail) :
    ringItems alignment
        { head := (chunk.head + 1) % alignment
          tail := chunk.tail
          items := Function.update chunk.items chunk.head item } =
      ringItems alignment chunk ++ [item] := by
  rw [mod_eq_next hhead] at hroom ⊢
  have hold : (cells alignment chunk.tail chunk.head).map
      (Function.update chunk.items chunk.head item) = ringItems alignment chunk := by
    refine List.map_congr_left fun index hindex ↦ Function.update_of_ne ?_ _ _
    rintro rfl
    exact head_notMem_cells htail hhead hindex
  simp only [ringItems, cells_next_head htail hhead hroom, List.map_append, List.map_singleton,
    Function.update_self]
  rw [hold, ringItems]

/-- Moving the tail past the oldest item removes it. -/
theorem ringItems_take (hhead : chunk.head < alignment) (htail : chunk.tail < alignment)
    (hsome : chunk.head ≠ chunk.tail) :
    ringItems alignment chunk =
      chunk.items chunk.tail ::
        ringItems alignment { chunk with tail := (chunk.tail + 1) % alignment } := by
  rw [mod_eq_next htail, ringItems, cells_eq_cons htail hhead hsome, List.map_cons, ringItems]

end Rings

section Refinement

variable {shape : Shape} {queue : McmpChunkedQueue} {fifos : ℕ → List Item} {ch : ℕ}

/-- A Push on a chunk that has room, seen on the chunks. -/
theorem push_room_spec (hqueue : shape.WellFormed queue) (hch : ch < shape.chunks)
    (item : Item) (failures : ℕ)
    (hroom : ((shape.chunksOf queue ch).head + 1) % shape.alignment ≠
      (shape.chunksOf queue ch).tail) :
    (callAlone queue (.push ch item) failures).1 = some (.success, none) ∧
      shape.WellFormed (callAlone queue (.push ch item) failures).2 ∧
      shape.chunksOf (callAlone queue (.push ch item) failures).2 =
        Function.update (shape.chunksOf queue) ch
          { head := ((shape.chunksOf queue ch).head + 1) % shape.alignment
            tail := (shape.chunksOf queue ch).tail
            items := Function.update (shape.chunksOf queue ch).items
              (shape.chunksOf queue ch).head item } := by
  have hat := Shape.cqChunk_eq hqueue.describes hch
  have hhead := hqueue.head_lt ch hch
  generalize hindex : (shape.chunksOf queue ch).head = index at hroom hhead ⊢
  have hload : sizeAt queue (cqChunk queue ch) = index := by
    rw [hat]
    exact hindex
  have hnext := Shape.nextSlot_eq hqueue.describes hch hhead
  have hcall := callAlone_push_fits queue ch item failures (by
    rw [hload, hnext, hat]
    exact hroom.symm)
  rw [hload] at hcall
  -- the two steps that change the memory
  have hreserve : mcmpChunkedQueuePush ch item false queue (.reserveHead index) =
      (.reserved ch index item, storeSize queue (shape.offset ch) ((index + 1) % shape.alignment),
        .push ch item (.copyItem index)) := by
    rw [mcmpChunkedQueuePush, if_pos ⟨hload, rfl⟩, hat, hnext]
  have hfirst : chunkMachine.program queue (.push ch item (.reserveHead index))
      (.reserved ch index item) (storeSize queue (shape.offset ch) ((index + 1) % shape.alignment))
      (.push ch item (.copyItem index)) :=
    ⟨.advance, congrArg some hreserve⟩
  have hat' : shape.Inside (.push ch item (.reserveHead index)) := ⟨hch, hhead⟩
  obtain ⟨hreserved, hinside⟩ := wellFormed_of_program hqueue hat' (by rintro _ ⟨⟩) hfirst
  generalize hmemory : storeSize queue (shape.offset ch) ((index + 1) % shape.alignment) = memory
    at hreserve hreserved
  have hcopy : mcmpChunkedQueuePush ch item false memory (.copyItem index) =
      (.written ch index item, storeWord memory (shape.offset ch + 16 + 8 * index) item,
        .idle) := by
    rw [mcmpChunkedQueuePush, Shape.cqItem_eq hreserved.describes hch hhead]
  have hsecond : chunkMachine.program memory (.push ch item (.copyItem index))
      (.written ch index item) (storeWord memory (shape.offset ch + 16 + 8 * index) item) .idle :=
    ⟨.advance, congrArg some hcopy⟩
  obtain ⟨hwritten, -⟩ := wellFormed_of_program hreserved hinside (by rintro _ ⟨⟩) hsecond
  have hresult : (callAlone queue (.push ch item) failures) =
      (some (.success, none), storeWord memory (shape.offset ch + 16 + 8 * index) item) := by
    rw [hcall, hreserve, hcopy]
  rw [hresult]
  refine ⟨rfl, hwritten, ?_⟩
  rw [Shape.chunksOf_storeWord_item hhead, ← hmemory,
    Shape.chunksOf_storeSize_head (hqueue.next_lt index), Function.update_self,
    Function.update_idem]

/-- A Take on a chunk that is not empty, seen on the chunks. -/
theorem take_some_spec (hqueue : shape.WellFormed queue) (hch : ch < shape.chunks)
    (failures : ℕ) (hsome : (shape.chunksOf queue ch).head ≠ (shape.chunksOf queue ch).tail) :
    (callAlone queue (.take ch) failures).1 =
        some (.success, some ((shape.chunksOf queue ch).items (shape.chunksOf queue ch).tail)) ∧
      shape.WellFormed (callAlone queue (.take ch) failures).2 ∧
      shape.chunksOf (callAlone queue (.take ch) failures).2 =
        Function.update (shape.chunksOf queue) ch
          { shape.chunksOf queue ch with
            tail := ((shape.chunksOf queue ch).tail + 1) % shape.alignment } := by
  have hat := Shape.cqChunk_eq hqueue.describes hch
  have htail := hqueue.tail_lt ch hch
  generalize hindex : (shape.chunksOf queue ch).tail = index at hsome htail ⊢
  have hload : sizeAt queue (cqChunk queue ch + 8) = index := by
    rw [hat]
    exact hindex
  have hnext := Shape.nextSlot_eq hqueue.describes hch htail
  have hcall := callAlone_take_some queue ch failures (by
    rw [hload, hat]
    exact hsome)
  have hremove : mcmpChunkedQueueTake ch false queue (.reserveTail index) =
      (.removed ch index, storeSize queue (shape.offset ch + 8) ((index + 1) % shape.alignment),
        .take ch (.copyItem index)) := by
    rw [mcmpChunkedQueueTake, if_pos ⟨hload, rfl⟩, hat, hnext]
  have hstep : chunkMachine.program queue (.take ch (.reserveTail index)) (.removed ch index)
      (storeSize queue (shape.offset ch + 8) ((index + 1) % shape.alignment))
      (.take ch (.copyItem index)) :=
    ⟨.advance, congrArg some hremove⟩
  have hat' : shape.Inside (.take ch (.reserveTail index)) := ⟨hch, htail⟩
  obtain ⟨hremoved, -⟩ := wellFormed_of_program hqueue hat' (by rintro _ ⟨⟩) hstep
  have hchunks : shape.chunksOf
        (storeSize queue (shape.offset ch + 8) ((index + 1) % shape.alignment)) =
      Function.update (shape.chunksOf queue) ch
        { shape.chunksOf queue ch with tail := (index + 1) % shape.alignment } :=
    Shape.chunksOf_storeSize_tail (hqueue.next_lt index)
  generalize storeSize queue (shape.offset ch + 8) ((index + 1) % shape.alignment) = memory
    at hremove hremoved hchunks
  have hitem : wordAt memory (cqItem memory ch index) = (shape.chunksOf queue ch).items index := by
    rw [Shape.wordAt_cqItem hremoved.describes hch htail, hchunks, Function.update_self]
  simp only [hload, hremove, hitem] at hcall
  rw [hcall]
  exact ⟨rfl, hremoved, hchunks⟩

/-- A change of one chunk changes its queue only. -/
theorem Represents.update (h : Represents shape queue fifos) {queue' : McmpChunkedQueue}
    {chunk : Chunk} {items : List Item} (hqueue' : shape.WellFormed queue')
    (hchunks : shape.chunksOf queue' = Function.update (shape.chunksOf queue) ch chunk)
    (hitems : ringItems shape.alignment chunk = items) :
    Represents shape queue' (Function.update fifos ch items) := by
  refine ⟨hqueue', fun other hother ↦ ?_⟩
  rw [hchunks]
  rcases eq_or_ne other ch with rfl | hne
  · rw [Function.update_self, Function.update_self, hitems]
  · rw [Function.update_of_ne hne, Function.update_of_ne hne, h.items other hother]

theorem Represents.push_agree (h : Represents shape queue fifos) (hch : ch < shape.chunks)
    (item : Item) (failures : ℕ) :
    (callAlone queue (.push ch item) failures).1 =
        some (fifosCall (shape.alignment - 1) fifos (.push ch item)).1 ∧
      Represents shape (callAlone queue (.push ch item) failures).2
        (fifosCall (shape.alignment - 1) fifos (.push ch item)).2 ∧
      ((callAlone queue (.push ch item) failures).1 = some (.overflow, none) →
        (callAlone queue (.push ch item) failures).2 = queue) ∧
      ∀ other ≠ ch, shape.chunksOf (callAlone queue (.push ch item) failures).2 other =
        shape.chunksOf queue other := by
  have hhead := h.wellFormed.head_lt ch hch
  have htail := h.wellFormed.tail_lt ch hch
  have hfull := ring_full_iff hhead htail
  rw [h.items ch hch] at hfull
  by_cases hroom : (fifos ch).length < shape.alignment - 1
  · have hnext : ((shape.chunksOf queue ch).head + 1) % shape.alignment ≠
        (shape.chunksOf queue ch).tail := fun hsame ↦ hfull.mp hsame hroom
    obtain ⟨hanswer, hwellFormed, hchunks⟩ := push_room_spec h.wellFormed hch item failures hnext
    have hitems := ringItems_push item hhead htail hnext
    rw [h.items ch hch] at hitems
    simp only [fifosCall, if_pos hroom]
    refine ⟨hanswer, h.update hwellFormed hchunks hitems, fun hrefused ↦ ?_, fun other hne ↦ ?_⟩
    · rw [hanswer] at hrefused
      exact absurd hrefused (by simp)
    · rw [hchunks, Function.update_of_ne hne]
  · have hcall := callAlone_push_full item failures (show sizeAt queue (cqChunk queue ch + 8) =
        nextSlot queue (sizeAt queue (cqChunk queue ch)) by
      rw [Shape.cqChunk_eq h.wellFormed.describes hch]
      exact ((Shape.nextSlot_eq h.wellFormed.describes hch hhead).trans (hfull.mpr hroom)).symm)
    have hfifos : fifosCall (shape.alignment - 1) fifos (.push ch item) =
        ((.overflow, none), fifos) := if_neg hroom
    rw [hcall, hfifos]
    exact ⟨rfl, h, fun _ ↦ rfl, fun _ _ ↦ rfl⟩

theorem Represents.take_agree (h : Represents shape queue fifos) (hch : ch < shape.chunks)
    (failures : ℕ) :
    (callAlone queue (.take ch) failures).1 =
        some (fifosCall (shape.alignment - 1) fifos (.take ch)).1 ∧
      Represents shape (callAlone queue (.take ch) failures).2
        (fifosCall (shape.alignment - 1) fifos (.take ch)).2 ∧
      ((callAlone queue (.take ch) failures).1 = some (.overflow, none) →
        (callAlone queue (.take ch) failures).2 = queue) ∧
      ∀ other ≠ ch, shape.chunksOf (callAlone queue (.take ch) failures).2 other =
        shape.chunksOf queue other := by
  have hhead := h.wellFormed.head_lt ch hch
  have htail := h.wellFormed.tail_lt ch hch
  have hempty := ring_empty_iff hhead htail
  have hring := h.items ch hch
  by_cases hsame : (shape.chunksOf queue ch).head = (shape.chunksOf queue ch).tail
  · have hcall := callAlone_take_empty failures (show sizeAt queue (cqChunk queue ch) =
        sizeAt queue (cqChunk queue ch + 8) by
      rw [Shape.cqChunk_eq h.wellFormed.describes hch]
      exact hsame)
    have hnil : fifos ch = [] := hring.symm.trans (hempty.mp hsame)
    have hfifos : fifosCall (shape.alignment - 1) fifos (.take ch) =
        ((.overflow, none), fifos) := by
      simp only [fifosCall, hnil]
    rw [hcall, hfifos]
    exact ⟨rfl, h, fun _ ↦ rfl, fun _ _ ↦ rfl⟩
  · obtain ⟨hanswer, hwellFormed, hchunks⟩ := take_some_spec h.wellFormed hch failures hsame
    rw [ringItems_take hhead htail hsame] at hring
    simp only [fifosCall, ← hring]
    refine ⟨hanswer, h.update hwellFormed hchunks rfl, fun hrefused ↦ ?_, fun other hne ↦ ?_⟩
    · rw [hanswer] at hrefused
      exact absurd hrefused (by simp)
    · rw [hchunks, Function.update_of_ne hne]

/-- A call on a chunk of the queue is answered as the call on the family of its queues, and keeps
the representation. A call that is refused changes nothing, and no call changes another chunk. -/
theorem Represents.agree (h : Represents shape queue fifos) (call : ChunkCall) (failures : ℕ)
    (hcall : call.chunkidx < shape.chunks) :
    (callAlone queue call failures).1 = some (fifosCall (shape.alignment - 1) fifos call).1 ∧
      Represents shape (callAlone queue call failures).2
        (fifosCall (shape.alignment - 1) fifos call).2 ∧
      ((callAlone queue call failures).1 = some (.overflow, none) →
        (callAlone queue call failures).2 = queue) ∧
      ∀ other ≠ call.chunkidx,
        shape.chunksOf (callAlone queue call failures).2 other = shape.chunksOf queue other := by
  cases call with
  | push ch item => exact h.push_agree hcall item failures
  | take ch => exact h.take_agree hcall failures

theorem Represents.calls (h : Represents shape queue fifos) (calls : List (ChunkCall × ℕ))
    (hcalls : ∀ call ∈ calls, call.1.chunkidx < shape.chunks) :
    (callsAlone queue calls).1 =
        (fifosCalls (shape.alignment - 1) fifos (calls.map Prod.fst)).1.map some ∧
      Represents shape (callsAlone queue calls).2
        (fifosCalls (shape.alignment - 1) fifos (calls.map Prod.fst)).2 := by
  induction calls generalizing queue fifos with
  | nil => exact ⟨rfl, h⟩
  | cons entry calls ih =>
    obtain ⟨call, failures⟩ := entry
    obtain ⟨hanswer, hrepresents, -, -⟩ := h.agree call failures (hcalls _ List.mem_cons_self)
    obtain ⟨hanswers, hlast⟩ :=
      ih hrepresents fun other hother ↦ hcalls other (List.mem_cons_of_mem _ hother)
    refine ⟨?_, hlast⟩
    simp only [callsAlone, List.map_cons, fifosCalls, hanswer, hanswers]

/-- The ring of every chunk of a new queue is empty. -/
theorem represents_create {malloc : ℕ → Option ByteMemory} {length : ℕ} (hpos : 0 < shape.chunks)
    (hchunks : shape.chunks = totalchunks length shape.alignment)
    (hcreate : mcmpChunkedQueueCreate malloc length shape.alignment = .ok queue) :
    Represents shape queue fun _ ↦ [] := by
  obtain ⟨-, -, hempty⟩ := Shape.create_spec hpos hchunks hcreate
  refine ⟨Shape.wellFormed_create hpos hchunks hcreate, fun ch hch ↦ ?_⟩
  rw [ringItems, (hempty ch hch).1, (hempty ch hch).2, cells_self, List.map_nil]

end Refinement

/-- One thread that uses a queue gets from every list of calls on its chunks, however often their
compare-exchanges fail, the answers of first-in-first-out queues with room for `alignment - 1`
items, one for each chunk, and the rings hold the items of these queues. After these calls a call
that is refused leaves the queue as it was, and every call leaves the other chunks as they were. -/
theorem callsAlone_eq_fifos {malloc : ℕ → Option ByteMemory} {length alignment : ℕ}
    {queue : McmpChunkedQueue} (halignment : 1 ≤ alignment)
    (hfits : 64 + totalchunks length alignment * (16 + 8 * alignment) < 2 ^ 64)
    (hcreate : mcmpChunkedQueueCreate malloc length alignment = .ok queue)
    (calls : List (ChunkCall × ℕ))
    (hcalls : ∀ call ∈ calls, call.1.chunkidx < totalchunks length alignment) :
    (callsAlone queue calls).1 =
        (fifosCalls (alignment - 1) (fun _ ↦ []) (calls.map Prod.fst)).1.map some ∧
      (∀ ch < totalchunks length alignment,
        ringItems alignment ((Shape.ofLength length alignment halignment hfits).chunksOf
            (callsAlone queue calls).2 ch) =
          (fifosCalls (alignment - 1) (fun _ ↦ []) (calls.map Prod.fst)).2 ch) ∧
      ∀ (call : ChunkCall) (failures : ℕ), call.chunkidx < totalchunks length alignment →
        ((callAlone (callsAlone queue calls).2 call failures).1 = some (.overflow, none) →
          (callAlone (callsAlone queue calls).2 call failures).2 = (callsAlone queue calls).2) ∧
        ∀ other ≠ call.chunkidx,
          (Shape.ofLength length alignment halignment hfits).chunksOf
              (callAlone (callsAlone queue calls).2 call failures).2 other =
            (Shape.ofLength length alignment halignment hfits).chunksOf
              (callsAlone queue calls).2 other := by
  rcases Nat.eq_zero_or_pos (totalchunks length alignment) with hzero | hpos
  · -- a queue without chunks has no calls
    rw [hzero] at hcalls ⊢
    have hnil : calls = [] := List.eq_nil_iff_forall_not_mem.mpr fun call hmem ↦
      absurd (hcalls call hmem) (Nat.not_lt_zero _)
    subst hnil
    exact ⟨rfl, fun _ hch ↦ absurd hch (Nat.not_lt_zero _),
      fun _ _ hch ↦ absurd hch (Nat.not_lt_zero _)⟩
  · have hrepresents : Represents (Shape.ofLength length alignment halignment hfits) queue
        fun _ ↦ [] := represents_create hpos rfl hcreate
    obtain ⟨hanswers, hlast⟩ := hrepresents.calls calls hcalls
    refine ⟨hanswers, fun ch hch ↦ hlast.items ch hch, fun call failures hcall ↦ ?_⟩
    obtain ⟨-, -, hrefused, hothers⟩ := hlast.agree call failures hcall
    exact ⟨hrefused, hothers⟩

/-- Two chunks of two slots, each with room for one item: the chunks fill and empty independently,
one of them goes twice round its ring, and the compare-exchange of one call fails three times. -/
theorem callsAlone_eq_fifos_wrapping :
    (callsAlone queueOfFour [(.push 0 7, 0), (.push 0 8, 1), (.push 1 9, 3), (.take 0, 0),
      (.push 0 8, 0), (.take 0, 2), (.take 0, 0), (.push 0 5, 0), (.take 1, 0),
      (.take 0, 0)]).1 =
      [some (.success, none), some (.overflow, none), some (.success, none),
        some (.success, some 7), some (.success, none), some (.success, some 8),
        some (.overflow, none), some (.success, none), some (.success, some 9),
        some (.success, some 5)] := by
  rw [(callsAlone_eq_fifos (by decide) (by decide) mcmpChunkedQueueCreate_queueOfFour _
    (by decide)).1]
  decide

/-! ### Filling a queue -/

/-- Pushes on first-in-first-out queues are answered by how many pushes were made before on the same
queue. -/
theorem fifosCalls_pushes {capacity ch : ℕ} {item : Item} {later : List ChunkCall}
    (earlier : List ChunkCall) :
    ∀ fifos : ℕ → List Item, (∀ call ∈ earlier, ∃ ch item, call = .push ch item) →
      (fifosCalls capacity fifos (earlier ++ .push ch item :: later)).1[earlier.length]? =
        some (if (fifos ch).length + earlier.countP (·.chunkidx = ch) < capacity then .success
          else .overflow, none) := by
  induction earlier with
  | nil =>
    intro fifos _
    by_cases hroom : (fifos ch).length < capacity
    · simp [fifosCalls, fifosCall, hroom]
    · simp [fifosCalls, fifosCall, hroom]
  | cons first earlier ih =>
    intro fifos hpushes
    obtain ⟨other, pushed, rfl⟩ := hpushes first (by simp)
    have hrest := ih (fifosCall capacity fifos (.push other pushed)).2
      fun call hcall ↦ hpushes call (by simp [hcall])
    have hlength : ((fifosCall capacity fifos (.push other pushed)).2 ch).length +
          earlier.countP (·.chunkidx = ch) < capacity ↔
        (fifos ch).length + (ChunkCall.push other pushed :: earlier).countP (·.chunkidx = ch) <
          capacity := by
      by_cases hroom : (fifos other).length < capacity
      · rcases eq_or_ne other ch with rfl | hne
        · simp only [fifosCall, if_pos hroom, Function.update_self, List.length_append,
            List.length_singleton, ChunkCall.chunkidx, decide_true, List.countP_cons_of_pos]
          omega
        · simp only [fifosCall, if_pos hroom, Function.update_of_ne hne.symm, ChunkCall.chunkidx,
            hne, decide_false, Bool.false_eq_true, not_false_eq_true, List.countP_cons_of_neg]
      · rcases eq_or_ne other ch with rfl | hne
        · simp only [fifosCall, if_neg hroom, ChunkCall.chunkidx, decide_true,
            List.countP_cons_of_pos]
          omega
        · simp only [fifosCall, if_neg hroom, ChunkCall.chunkidx, hne, decide_false,
            Bool.false_eq_true, not_false_eq_true, List.countP_cons_of_neg]
    rw [List.cons_append, fifosCalls, List.length_cons, List.getElem?_cons_succ, hrest]
    simp only [hlength]

/-- A queue announces `alignment` items for each of its chunks, and each chunk keeps one of its
slots free: however pushes are spread over the chunks and ordered, with no Take between them, the
first `alignment - 1` on a chunk return `SUCCESS` and the others return `OVERFLOW`. -/
theorem callsAlone_pushes {malloc : ℕ → Option ByteMemory} {length alignment : ℕ}
    {queue : McmpChunkedQueue} (halignment : 1 ≤ alignment) (hword : alignment < 2 ^ 64)
    (hfits : 64 + totalchunks length alignment * (16 + 8 * alignment) < 2 ^ 64)
    (hcreate : mcmpChunkedQueueCreate malloc length alignment = .ok queue)
    {calls : List (ChunkCall × ℕ)}
    (hcalls : ∀ call ∈ calls, ∃ ch < totalchunks length alignment, ∃ item,
      call.1 = .push ch item) :
    cqLength queue = totalchunks length alignment * alignment ∧
      ∀ earlier ch item failures later, calls = earlier ++ (.push ch item, failures) :: later →
        (callsAlone queue calls).1[earlier.length]? =
          some (some (if earlier.countP (·.1.chunkidx = ch) < alignment - 1 then .success
            else .overflow, none)) := by
  refine ⟨cqLength_create halignment hword hfits hcreate, ?_⟩
  rintro earlier ch item failures later rfl
  have hchunks : ∀ call ∈ earlier ++ (.push ch item, failures) :: later,
      call.1.chunkidx < totalchunks length alignment := by
    intro call hcall
    obtain ⟨other, hother, pushed, hpush⟩ := hcalls call hcall
    rw [hpush]
    exact hother
  have hpushes : ∀ call ∈ earlier.map Prod.fst, ∃ ch item, call = ChunkCall.push ch item := by
    intro call hcall
    obtain ⟨entry, hentry, rfl⟩ := List.mem_map.mp hcall
    obtain ⟨other, -, pushed, hpush⟩ := hcalls entry (by simp [hentry])
    exact ⟨other, pushed, hpush⟩
  have hpos : 0 < totalchunks length alignment :=
    (Nat.zero_le _).trans_lt (hchunks (.push ch item, failures) (by simp))
  have hrepresents : Represents (Shape.ofLength length alignment halignment hfits) queue
      fun _ ↦ [] := represents_create hpos rfl hcreate
  have hanswer := @fifosCalls_pushes (alignment - 1) ch item (later.map Prod.fst)
    (earlier.map Prod.fst) (fun _ ↦ []) hpushes
  rw [List.length_map, List.countP_map, List.length_nil, Nat.zero_add] at hanswer
  rw [(hrepresents.calls _ hchunks).1, List.map_append, List.map_cons, List.getElem?_map]
  exact congrArg (Option.map some) hanswer

/-- In a queue for four items in two chunks, two pushes on each chunk leave one of them refused,
whatever their order. -/
theorem callsAlone_pushes_four :
    cqLength queueOfFour = 4 ∧
      (callsAlone queueOfFour [(.push 0 7, 0), (.push 1 8, 1), (.push 0 9, 0),
        (.push 1 6, 0)]).1[2]? = some (some (.overflow, none)) := by
  obtain ⟨hlength, hanswer⟩ := callsAlone_pushes (by decide) (by decide) (by decide)
    mcmpChunkedQueueCreate_queueOfFour (show ∀ call ∈ [(ChunkCall.push 0 7, 0), (.push 1 8, 1),
      (.push 0 9, 0), (.push 1 6, 0)], ∃ ch < totalchunks 4 2, ∃ item, call.1 = .push ch item by
        simp [totalchunks])
  exact ⟨hlength, hanswer [(.push 0 7, 0), (.push 1 8, 1)] 0 9 0 [(.push 1 6, 0)] rfl⟩

/-- The four items that a queue announces, two on each chunk, are not all taken. -/
theorem not_callsAlone_pushes_success :
    mcmpChunkedQueueCreate (fun _ ↦ some fun _ ↦ 57#8) 4 2 = .ok queueOfFour ∧
      cqLength queueOfFour = 4 ∧
      (callsAlone queueOfFour [(.push 0 7, 0), (.push 0 8, 0), (.push 1 9, 0),
        (.push 1 6, 0)]).1 =
        [some (.success, none), some (.overflow, none), some (.success, none),
          some (.overflow, none)] := by
  refine ⟨mcmpChunkedQueueCreate_queueOfFour, ?_, ?_⟩
  · decide +kernel
  · decide +kernel

end Mcmp.Utilities.ChunkedQueueAlone
