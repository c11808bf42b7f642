import Mcmp.Foundation.CyclicRange
import Mcmp.Utilities.ChunkedQueue

/-!
# A chunk between one producer and one consumer

One thread pushes on a chunk and another one takes from it. Both calls move the index that they
share before they copy the item. A Take therefore can remove a slot that a Push has reserved and not
yet written, and read it too early (`exists_early_take`): the other queue of the library copies its
item before it publishes the slot.

When every Take that has removed a slot reads it while the Push is not in front of its copy into
that slot, the pair works (`mcmpChunkedQueue_pairContract_iff`). The reservations are numbered from
zero on, and so are the writes, removals and reads; number `j` is about slot `j % alignment`. Head
and tail are the slots of the next reservation and the next removal, which are less than one turn of
the ring apart (`Accounts`).
-/

set_option autoImplicit false
set_option relaxedAutoImplicit false

namespace Mcmp.Utilities.ChunkedQueuePair

open Foundation.ByteBits Foundation.CyclicRange Foundation.Interleaving ChunkedQueue

/-! ### The two threads -/

/-- The two users of a chunk. -/
inductive Side
  | producer
  | consumer
  deriving DecidableEq, Repr

/-- The producer starts Push calls on the chunk only, and the consumer Take calls on it. -/
def Paired {Shared : Type*} (ch : ℕ) : Guard Side Shared ChunkThread ChunkEvent :=
  fun _ _ side event ↦
    match event with
    | .called (.push chunkidx _) => side = .producer ∧ chunkidx = ch
    | .called (.take chunkidx) => side = .consumer ∧ chunkidx = ch
    | _ => True

/-- A pair in which a slot is read only while the producer is not in front of its copy into it. -/
def PairedWaiting {Shared : Type*} (ch : ℕ) : Guard Side Shared ChunkThread ChunkEvent :=
  fun history config side event ↦
    Paired ch history config side event ∧
      match event, config.threads .producer with
      | .taken _ index _, .push _ _ (.copyItem reserved) => index ≠ reserved
      | _, _ => True

instance {Shared : Type*} (ch : ℕ) (history : List (Side × ChunkEvent))
    (config : Config Side Shared ChunkThread) (side : Side) (event : ChunkEvent) :
    Decidable (Paired ch history config side event) := by
  unfold Paired
  split <;> infer_instance

instance {Shared : Type*} (ch : ℕ) (history : List (Side × ChunkEvent))
    (config : Config Side Shared ChunkThread) (side : Side) (event : ChunkEvent) :
    Decidable (PairedWaiting ch history config side event) := by
  unfold PairedWaiting
  split <;> infer_instance

/-! ### The contract of the pair -/

/-- The item that an event has reserved a slot for. -/
def reservedItem : ChunkEvent → Option Item
  | .reserved _ _ item => some item
  | _ => none

/-- The item that an event has taken. -/
def takenItem : ChunkEvent → Option Item
  | .taken _ _ item => some item
  | _ => none

/-- The items of the events of one kind in a history, in order. -/
def itemsOf (kind : ChunkEvent → Option Item) (history : List (Side × ChunkEvent)) : List Item :=
  history.filterMap fun entry ↦ kind entry.2

/-- A slot is reserved. -/
def Reserved (index : ℕ) (_ : Side) : ChunkEvent → Prop
  | .reserved _ slot _ => slot = index
  | _ => False

/-- A slot is written. -/
def Written (index : ℕ) (_ : Side) : ChunkEvent → Prop
  | .written _ slot _ => slot = index
  | _ => False

/-- A slot is read. -/
def Taken (index : ℕ) (_ : Side) : ChunkEvent → Prop
  | .taken _ slot _ => slot = index
  | _ => False

/-- A slot that is read has been written since its last reservation. -/
def ReadsWritten (history : List (Side × ChunkEvent)) : Prop :=
  ∀ before side ch index item after, history = before ++ (side, .taken ch index item) :: after →
    Since before (Written index) (Reserved index)

/-- What one producer and one consumer may expect of a chunk: the items taken are a prefix of those
for which a slot was reserved, a slot that is read has been written since it was reserved, and a
slot that is written has been read since it was written before. -/
structure PairContract (history : List (Side × ChunkEvent)) : Prop where
  takes_prefix : itemsOf takenItem history <+: itemsOf reservedItem history
  reads_written : ReadsWritten history
  writes_read : ∀ before side ch index item after,
    history = before ++ (side, .written ch index item) :: after →
      ¬ Since before (Written index) (Taken index)

theorem itemsOf_concat (kind : ChunkEvent → Option Item) (history : List (Side × ChunkEvent))
    (side : Side) (event : ChunkEvent) :
    itemsOf kind (history ++ [(side, event)]) = itemsOf kind history ++ (kind event).toList := by
  rw [itemsOf, List.filterMap_append, itemsOf]
  cases hkind : kind event <;> simp [hkind]

theorem itemsOf_concat_none {kind : ChunkEvent → Option Item} {event : ChunkEvent}
    (hkind : kind event = none) (history : List (Side × ChunkEvent)) (side : Side) :
    itemsOf kind (history ++ [(side, event)]) = itemsOf kind history := by
  rw [itemsOf_concat, hkind]
  exact List.append_nil _

/-! ### Reservations, writes, removals and reads -/

/-- The state of a chunk after `written` writes, `removed` removals and `taken` reads. -/
structure Accounts (alignment : ℕ) (chunk : Chunk) (history : List (Side × ChunkEvent))
    (written removed taken : ℕ) : Prop where
  head_eq : chunk.head = (itemsOf reservedItem history).length % alignment
  tail_eq : chunk.tail = removed % alignment
  written_le : written ≤ (itemsOf reservedItem history).length
  removed_le : removed ≤ (itemsOf reservedItem history).length
  reserved_lt : (itemsOf reservedItem history).length < removed + alignment
  taken_le : taken ≤ written
  removed_le_taken : removed ≤ taken + 1
  taken_le_removed : taken ≤ removed
  items_eq : ∀ j item, taken ≤ j → j < written → (itemsOf reservedItem history)[j]? = some item →
    chunk.items (j % alignment) = item
  takenItems_eq : itemsOf takenItem history = (itemsOf reservedItem history).take taken
  since_reserved : ∀ j < written, (itemsOf reservedItem history).length ≤ j + alignment →
    Since history (Written (j % alignment)) (Reserved (j % alignment))
  since_taken : ∀ index, Since history (Written index) (Taken index) →
    ∃ j, taken ≤ j ∧ j < written ∧ j % alignment = index

/-- What the producer knows. -/
def ProducerAt (alignment ch : ℕ) (reserved : List Item) (written removed : ℕ) :
    ChunkThread → Prop
  | .idle => reserved.length = written
  | .push c _ .loadHead => c = ch ∧ reserved.length = written
  | .push c _ (.loadTail index) =>
    c = ch ∧ reserved.length = written ∧ index = reserved.length % alignment
  | .push c _ (.reserveHead index) =>
    c = ch ∧ reserved.length = written ∧ index = reserved.length % alignment ∧
      reserved.length + 1 < removed + alignment
  | .push c item (.copyItem index) =>
    c = ch ∧ reserved.length = written + 1 ∧ index = written % alignment ∧
      reserved[written]? = some item
  | .take _ _ => False

/-- What the consumer knows. -/
def ConsumerAt (alignment ch : ℕ) (reserved : List Item) (removed taken : ℕ) : ChunkThread → Prop
  | .idle => removed = taken
  | .take c .loadTail => c = ch ∧ removed = taken
  | .take c (.loadHead index) => c = ch ∧ removed = taken ∧ index = removed % alignment
  | .take c (.reserveTail index) =>
    c = ch ∧ removed = taken ∧ index = removed % alignment ∧ removed < reserved.length
  | .take c (.copyItem index) => c = ch ∧ removed = taken + 1 ∧ index = taken % alignment
  | .push _ _ _ => False

section Accounting

variable {alignment ch index written removed taken : ℕ} {chunk : Chunk} {item : Item} {side : Side}
  {history : List (Side × ChunkEvent)} {event : ChunkEvent}

/-- An event that is neither a reservation nor a write nor a read changes no account. -/
theorem Accounts.other (h : Accounts alignment chunk history written removed taken)
    (hreserved : ∀ index, ¬ Reserved index side event)
    (hwritten : ∀ index, ¬ Written index side event) (htaken : ∀ index, ¬ Taken index side event) :
    Accounts alignment chunk (history ++ [(side, event)]) written removed taken := by
  have hkept :
      itemsOf reservedItem (history ++ [(side, event)]) = itemsOf reservedItem history := by
    refine itemsOf_concat_none ?_ _ _
    cases event with
    | reserved => exact absurd rfl (hreserved _)
    | _ => rfl
  have htook : itemsOf takenItem (history ++ [(side, event)]) = itemsOf takenItem history := by
    refine itemsOf_concat_none ?_ _ _
    cases event with
    | taken => exact absurd rfl (htaken _)
    | _ => rfl
  refine ⟨?_, h.tail_eq, ?_, ?_, ?_, h.taken_le, h.removed_le_taken, h.taken_le_removed, ?_, ?_, ?_,
    ?_⟩
  · rw [hkept, h.head_eq]
  · rw [hkept]
    exact h.written_le
  · rw [hkept]
    exact h.removed_le
  · rw [hkept]
    exact h.reserved_lt
  · rw [hkept]
    exact h.items_eq
  · rw [hkept, htook, h.takenItems_eq]
  · rw [hkept]
    intro j hj hlast
    exact (since_concat ..).mpr (Or.inr ⟨h.since_reserved j hj hlast, hreserved _⟩)
  · intro index hsince
    rcases (since_concat ..).mp hsince with hnow | ⟨hbefore, -⟩
    · exact absurd hnow (hwritten _)
    · exact h.since_taken index hbefore

/-- A reservation, when all reservations so far are written and there is room. -/
theorem Accounts.reserve (h : Accounts alignment chunk history written removed taken)
    (hwritten : (itemsOf reservedItem history).length = written)
    (hroom : (itemsOf reservedItem history).length + 1 < removed + alignment) :
    Accounts alignment { chunk with head := (chunk.head + 1) % alignment }
      (history ++ [(side, .reserved ch chunk.head item)]) written removed taken := by
  have hitems : itemsOf reservedItem (history ++ [(side, .reserved ch chunk.head item)]) =
      itemsOf reservedItem history ++ [item] := itemsOf_concat ..
  have hlength : (itemsOf reservedItem history ++ [item]).length = written + 1 := by
    rw [List.length_append, hwritten, List.length_singleton]
  have htook : itemsOf takenItem (history ++ [(side, .reserved ch chunk.head item)]) =
      itemsOf takenItem history :=
    itemsOf_concat_none rfl _ _
  have hhead := h.head_eq
  have hremoved := h.removed_le
  have hbehind := h.taken_le_removed
  rw [hwritten] at hroom hhead hremoved
  refine ⟨?_, h.tail_eq, ?_, ?_, ?_, h.taken_le, h.removed_le_taken, h.taken_le_removed, ?_, ?_, ?_,
    ?_⟩
  · rw [hitems, hlength, hhead, Nat.mod_add_mod]
  · rw [hitems, hlength]
    exact Nat.le_succ _
  · rw [hitems, hlength]
    omega
  · rw [hitems, hlength]
    exact hroom
  · rw [hitems]
    intro j stored hlow hhigh hget
    rw [List.getElem?_append_left (by omega)] at hget
    exact h.items_eq j stored hlow hhigh hget
  · rw [hitems, htook, h.takenItems_eq, List.take_append_of_le_length (by omega)]
  · rw [hitems, hlength]
    intro j hj hlast
    refine (since_concat ..).mpr (Or.inr ⟨h.since_reserved j hj (by omega), fun hslot ↦ ?_⟩)
    have hslot' : chunk.head = j % alignment := hslot
    rw [hhead] at hslot'
    exact mod_ne_mod hj (by omega) hslot'.symm
  · intro index hsince
    rcases (since_concat ..).mp hsince with hnow | ⟨hbefore, -⟩
    · exact hnow.elim
    · exact h.since_taken index hbefore

/-- The write of the last reservation. No slot between the reads and this write is the same one. -/
theorem Accounts.write (h : Accounts alignment chunk history written removed taken)
    (hnext : (itemsOf reservedItem history).length = written + 1)
    (hitem : (itemsOf reservedItem history)[written]? = some item) :
    Accounts alignment
        { chunk with items := Function.update chunk.items (written % alignment) item }
        (history ++ [(side, .written ch (written % alignment) item)]) (written + 1) removed taken ∧
      ¬ Since history (Written (written % alignment)) (Taken (written % alignment)) := by
  have hkept : itemsOf reservedItem (history ++ [(side, .written ch (written % alignment) item)]) =
      itemsOf reservedItem history :=
    itemsOf_concat_none rfl _ _
  have htook : itemsOf takenItem (history ++ [(side, .written ch (written % alignment) item)]) =
      itemsOf takenItem history :=
    itemsOf_concat_none rfl _ _
  have hlt := h.reserved_lt
  have hbehind := h.removed_le_taken
  have hle := h.taken_le
  have hdistinct : ∀ j, taken ≤ j → j < written → j % alignment ≠ written % alignment :=
    fun j hlow hhigh ↦ mod_ne_mod hhigh (by omega)
  refine ⟨⟨?_, h.tail_eq, ?_, ?_, ?_, by omega, hbehind, h.taken_le_removed, ?_, ?_, ?_, ?_⟩, ?_⟩
  · rw [hkept, ← h.head_eq]
  · rw [hkept, hnext]
  · rw [hkept]
    exact h.removed_le
  · rw [hkept]
    exact hlt
  · rw [hkept]
    intro j stored hlow hhigh hget
    rcases Nat.lt_succ_iff_lt_or_eq.mp hhigh with hold | rfl
    · exact (Function.update_of_ne (hdistinct j hlow hold) _ _).trans
        (h.items_eq j stored hlow hold hget)
    · exact (Function.update_self ..).trans (Option.some.inj (hitem.symm.trans hget))
  · rw [hkept, htook, h.takenItems_eq]
  · rw [hkept]
    intro j hj hlast
    apply (since_concat ..).mpr
    rcases Nat.lt_succ_iff_lt_or_eq.mp hj with hold | rfl
    · exact Or.inr ⟨h.since_reserved j hold hlast, not_false⟩
    · exact Or.inl rfl
  · intro index hsince
    rcases (since_concat ..).mp hsince with hnow | ⟨hbefore, -⟩
    · exact ⟨written, hle, Nat.lt_succ_self _, hnow⟩
    · obtain ⟨j, hlow, hhigh, hslot⟩ := h.since_taken index hbefore
      exact ⟨j, hlow, by omega, hslot⟩
  · intro hsince
    obtain ⟨j, hlow, hhigh, hslot⟩ := h.since_taken _ hsince
    exact hdistinct j hlow hhigh hslot

/-- A removal, when all removed slots so far have been read and a slot is reserved. -/
theorem Accounts.remove (h : Accounts alignment chunk history written removed taken)
    (hread : removed = taken) (hsome : removed < (itemsOf reservedItem history).length) :
    Accounts alignment { chunk with tail := (chunk.tail + 1) % alignment }
      (history ++ [(side, .removed ch chunk.tail)]) written (removed + 1) taken := by
  have h' : Accounts alignment chunk (history ++ [(side, .removed ch chunk.tail)]) written removed
      taken := h.other (fun _ ↦ not_false) (fun _ ↦ not_false) fun _ ↦ not_false
  have hkept : itemsOf reservedItem (history ++ [(side, .removed ch chunk.tail)]) =
      itemsOf reservedItem history :=
    itemsOf_concat_none rfl _ _
  have hlt := h.reserved_lt
  refine ⟨h'.head_eq, ?_, h'.written_le, ?_, ?_, h.taken_le, by omega, by omega, h'.items_eq,
    h'.takenItems_eq, h'.since_reserved, h'.since_taken⟩
  · rw [h.tail_eq, Nat.mod_add_mod]
  · rw [hkept]
    exact hsome
  · rw [hkept]
    omega

/-- The read of the slot that was removed last, when it has been written. -/
theorem Accounts.take (h : Accounts alignment chunk history written removed taken)
    (hnext : removed = taken + 1) (hwritten : taken < written) :
    Accounts alignment chunk
        (history ++ [(side, .taken ch (taken % alignment) (chunk.items (taken % alignment)))])
        written removed (taken + 1) ∧
      Since history (Written (taken % alignment)) (Reserved (taken % alignment)) := by
  have hle := h.written_le
  have hlt := h.reserved_lt
  obtain ⟨item, hitem⟩ : ∃ item, (itemsOf reservedItem history)[taken]? = some item :=
    ⟨_, List.getElem?_eq_getElem (by omega)⟩
  rw [h.items_eq taken item (le_refl _) hwritten hitem]
  have hkept : itemsOf reservedItem (history ++ [(side, .taken ch (taken % alignment) item)]) =
      itemsOf reservedItem history :=
    itemsOf_concat_none rfl _ _
  have htook : itemsOf takenItem (history ++ [(side, .taken ch (taken % alignment) item)]) =
      itemsOf takenItem history ++ [item] := itemsOf_concat ..
  refine ⟨⟨?_, h.tail_eq, ?_, ?_, ?_, hwritten, by omega, by omega, ?_, ?_, ?_, ?_⟩,
    h.since_reserved taken hwritten (by omega)⟩
  · rw [hkept, h.head_eq]
  · rw [hkept]
    exact hle
  · rw [hkept]
    exact h.removed_le
  · rw [hkept]
    exact hlt
  · rw [hkept]
    exact fun j stored hlow hhigh hget ↦ h.items_eq j stored (by omega) hhigh hget
  · rw [hkept, htook, h.takenItems_eq, List.take_add_one, hitem]
    rfl
  · rw [hkept]
    intro j hj hlast
    exact (since_concat ..).mpr (Or.inr ⟨h.since_reserved j hj hlast, not_false⟩)
  · intro index hsince
    rcases (since_concat ..).mp hsince with hnow | ⟨hbefore, hkeep⟩
    · exact hnow.elim
    · obtain ⟨j, hlow, hhigh, hslot⟩ := h.since_taken index hbefore
      refine ⟨j, Nat.lt_of_le_of_ne hlow ?_, hhigh, hslot⟩
      rintro rfl
      exact hkeep hslot

end Accounting

/-! ### The steps of the two threads -/

section Steps

variable {alignment ch written removed taken : ℕ} {chunks chunks' : ℕ → Chunk}
  {thread thread' other : ChunkThread} {history : List (Side × ChunkEvent)} {event : ChunkEvent}

/-- What the consumer knows stays true when there are more reservations. -/
theorem ConsumerAt.mono {reserved more : List Item}
    (h : ConsumerAt alignment ch reserved removed taken other) :
    ConsumerAt alignment ch (reserved ++ more) removed taken other := by
  unfold ConsumerAt at h ⊢
  split at h
  case h_4 => exact ⟨h.1, h.2.1, h.2.2.1, by simp; omega⟩
  all_goals exact h

/-- A step of the producer. It only writes a slot whose last item has been read. -/
theorem producer_step
    (haccounts : Accounts alignment (chunks ch) history written removed taken)
    (hproducer : ProducerAt alignment ch (itemsOf reservedItem history) written removed thread)
    (hconsumer : ConsumerAt alignment ch (itemsOf reservedItem history) removed taken other)
    (hcall : ∀ call, event = .called call → ∃ item, call = .push ch item)
    (hstep : ChunkStep alignment chunks thread event chunks' thread') :
    ∃ written', Accounts alignment (chunks' ch) (history ++ [(Side.producer, event)]) written'
        removed taken ∧
      ProducerAt alignment ch (itemsOf reservedItem (history ++ [(Side.producer, event)])) written'
        removed thread' ∧
      ConsumerAt alignment ch (itemsOf reservedItem (history ++ [(Side.producer, event)])) removed
        taken other ∧
      ∀ index, Written index .producer event →
        ¬ Since history (Written index) (Taken index) := by
  have hquiet : Accounts alignment (chunks ch) (history ++ [(Side.producer, .accessed)]) written
      removed taken := haccounts.other (fun _ ↦ not_false) (fun _ ↦ not_false) fun _ ↦ not_false
  cases hstep with
  | called call =>
    obtain ⟨item, rfl⟩ := hcall _ rfl
    rw [itemsOf_concat_none rfl]
    exact ⟨written, haccounts.other (fun _ ↦ not_false) (fun _ ↦ not_false) fun _ ↦ not_false,
      ⟨rfl, hproducer⟩, hconsumer, fun _ ↦ False.elim⟩
  | pushHead =>
    obtain ⟨rfl, hwritten⟩ := hproducer
    rw [itemsOf_concat_none rfl]
    exact ⟨written, hquiet, ⟨rfl, hwritten, haccounts.head_eq⟩, hconsumer, fun _ ↦ False.elim⟩
  | pushFull =>
    rw [itemsOf_concat_none rfl]
    exact ⟨written, haccounts.other (fun _ ↦ not_false) (fun _ ↦ not_false) fun _ ↦ not_false,
      hproducer.2.1, hconsumer, fun _ ↦ False.elim⟩
  | pushRoom hroom =>
    obtain ⟨rfl, hwritten, rfl⟩ := hproducer
    rw [itemsOf_concat_none rfl]
    refine ⟨written, hquiet, ⟨rfl, hwritten, rfl, ?_⟩, hconsumer, fun _ ↦ False.elim⟩
    rw [haccounts.tail_eq, Nat.mod_add_mod] at hroom
    have hlt := haccounts.reserved_lt
    refine Nat.lt_of_le_of_ne hlt fun hturn ↦ hroom ?_
    rw [hturn, Nat.add_mod_right]
  | pushRetry =>
    rw [itemsOf_concat_none rfl]
    exact ⟨written, hquiet, ⟨hproducer.1, hproducer.2.1⟩, hconsumer, fun _ ↦ False.elim⟩
  | @reserved c index item hhead =>
    obtain ⟨rfl, hwritten, -, hroom⟩ := hproducer
    subst hhead
    rw [Function.update_self]
    refine ⟨written, haccounts.reserve hwritten hroom, ?_, ?_, fun _ ↦ False.elim⟩
    · rw [itemsOf_concat]
      refine ⟨rfl, by simp [reservedItem, hwritten], ?_, ?_⟩
      · rw [haccounts.head_eq, hwritten]
      · rw [← hwritten]
        exact List.getElem?_concat_length
    · rw [itemsOf_concat]
      exact hconsumer.mono
  | @written c index item =>
    obtain ⟨rfl, hnext, rfl, hitem⟩ := hproducer
    obtain ⟨hwrite, hread⟩ := haccounts.write hnext hitem
    rw [Function.update_self, itemsOf_concat_none rfl]
    refine ⟨written + 1, hwrite, hnext, hconsumer, ?_⟩
    rintro index rfl
    exact hread
  | takeTail => exact hproducer.elim
  | takeEmpty => exact hproducer.elim
  | takeSome => exact hproducer.elim
  | takeRetry => exact hproducer.elim
  | removed => exact hproducer.elim
  | taken => exact hproducer.elim

/-- What the producer knows stays true when more slots are removed. -/
theorem ProducerAt.mono {reserved : List Item}
    (h : ProducerAt alignment ch reserved written removed other) :
    ProducerAt alignment ch reserved written (removed + 1) other := by
  unfold ProducerAt at h ⊢
  split at h
  case h_4 => exact ⟨h.1, h.2.1, h.2.2.1, by omega⟩
  all_goals exact h

/-- The slot that was removed last is written, unless the producer is in front of its copy into
it. -/
theorem Accounts.taken_lt_written
    (h : Accounts alignment (chunks ch) history written removed taken)
    (hproducer : ProducerAt alignment ch (itemsOf reservedItem history) written removed other)
    (hnext : removed = taken + 1)
    (hwaits : ∀ d stored reserved, other = .push d stored (.copyItem reserved) →
      taken % alignment ≠ reserved) : taken < written := by
  have hle := h.taken_le
  have hremoved := h.removed_le
  unfold ProducerAt at hproducer
  split at hproducer
  case h_5 d stored reserved =>
    obtain ⟨-, hlength, rfl, -⟩ := hproducer
    apply Nat.lt_of_le_of_ne hle
    rintro rfl
    exact hwaits _ _ _ rfl rfl
  case h_6 => exact hproducer.elim
  all_goals omega

/-- A step of the consumer that does not read in front of the copy of the producer only reads a slot
that has been written since it was reserved. -/
theorem consumer_step
    (haccounts : Accounts alignment (chunks ch) history written removed taken)
    (hproducer : ProducerAt alignment ch (itemsOf reservedItem history) written removed other)
    (hconsumer : ConsumerAt alignment ch (itemsOf reservedItem history) removed taken thread)
    (hcall : ∀ call, event = .called call → call = .take ch)
    (hwaits : ∀ c index item reserved d stored, event = .taken c index item →
      other = .push d stored (.copyItem reserved) → index ≠ reserved)
    (hstep : ChunkStep alignment chunks thread event chunks' thread') :
    ∃ removed' taken', Accounts alignment (chunks' ch) (history ++ [(Side.consumer, event)]) written
        removed' taken' ∧
      ProducerAt alignment ch (itemsOf reservedItem (history ++ [(Side.consumer, event)])) written
        removed' other ∧
      ConsumerAt alignment ch (itemsOf reservedItem (history ++ [(Side.consumer, event)])) removed'
        taken' thread' ∧
      ∀ index, Taken index .consumer event →
        Since history (Written index) (Reserved index) := by
  have hquiet : Accounts alignment (chunks ch) (history ++ [(Side.consumer, .accessed)]) written
      removed taken := haccounts.other (fun _ ↦ not_false) (fun _ ↦ not_false) fun _ ↦ not_false
  cases hstep with
  | called call =>
    obtain rfl := hcall _ rfl
    rw [itemsOf_concat_none rfl]
    exact ⟨removed, taken, haccounts.other (fun _ ↦ not_false) (fun _ ↦ not_false)
      fun _ ↦ not_false, hproducer, ⟨rfl, hconsumer⟩, fun _ ↦ False.elim⟩
  | takeTail =>
    obtain ⟨rfl, hread⟩ := hconsumer
    rw [itemsOf_concat_none rfl]
    exact ⟨removed, taken, hquiet, hproducer, ⟨rfl, hread, haccounts.tail_eq⟩,
      fun _ ↦ False.elim⟩
  | takeEmpty =>
    rw [itemsOf_concat_none rfl]
    exact ⟨removed, taken, haccounts.other (fun _ ↦ not_false) (fun _ ↦ not_false)
      fun _ ↦ not_false, hproducer, hconsumer.2.1, fun _ ↦ False.elim⟩
  | takeSome hsome =>
    obtain ⟨rfl, hread, rfl⟩ := hconsumer
    rw [itemsOf_concat_none rfl]
    refine ⟨removed, taken, hquiet, hproducer, ⟨rfl, hread, rfl, ?_⟩, fun _ ↦ False.elim⟩
    refine Nat.lt_of_le_of_ne haccounts.removed_le fun hsame ↦ hsome ?_
    rw [haccounts.head_eq, hsame]
  | takeRetry =>
    rw [itemsOf_concat_none rfl]
    exact ⟨removed, taken, hquiet, hproducer, ⟨hconsumer.1, hconsumer.2.1⟩, fun _ ↦ False.elim⟩
  | @removed c index htail =>
    obtain ⟨rfl, hread, -, hsome⟩ := hconsumer
    subst htail
    rw [Function.update_self, itemsOf_concat_none rfl]
    refine ⟨removed + 1, taken, haccounts.remove hread hsome, hproducer.mono, ⟨rfl, by omega, ?_⟩,
      fun _ ↦ False.elim⟩
    rw [haccounts.tail_eq, hread]
  | @taken c index =>
    obtain ⟨rfl, hnext, rfl⟩ := hconsumer
    have hwritten : taken < written := haccounts.taken_lt_written hproducer hnext
      fun d stored reserved hother ↦ hwaits _ _ _ _ _ _ rfl hother
    obtain ⟨htake, hsince⟩ := haccounts.take hnext hwritten
    rw [itemsOf_concat_none rfl]
    refine ⟨removed, taken + 1, htake, hproducer, hnext, ?_⟩
    rintro index rfl
    exact hsince
  | pushHead => exact hconsumer.elim
  | pushFull => exact hconsumer.elim
  | pushRoom => exact hconsumer.elim
  | pushRetry => exact hconsumer.elim
  | reserved => exact hconsumer.elim
  | written => exact hconsumer.elim

end Steps

/-! ### The runs of the pair -/

/-- What holds along the runs of a pair that waits: the accounts, what the two threads know, and the
contract. -/
def PairSound (alignment ch : ℕ) (history : List (Side × ChunkEvent))
    (config : Config Side (ℕ → Chunk) ChunkThread) : Prop :=
  ∃ written removed taken,
    Accounts alignment (config.shared ch) history written removed taken ∧
      ProducerAt alignment ch (itemsOf reservedItem history) written removed
        (config.threads .producer) ∧
      ConsumerAt alignment ch (itemsOf reservedItem history) removed taken
        (config.threads .consumer)

section Runs

variable {alignment ch : ℕ} {chunks : ℕ → Chunk} {history : List (Side × ChunkEvent)}
  {config : Config Side (ℕ → Chunk) ChunkThread}

/-- One step of a pair that waits. -/
theorem PairSound.step {side : Side} {event : ChunkEvent} {chunks' : ℕ → Chunk}
    {thread' : ChunkThread} (h : PairSound alignment ch history config)
    (hguard : PairedWaiting ch history config side event)
    (hstep : ChunkStep alignment config.shared (config.threads side) event chunks' thread') :
    PairSound alignment ch (history ++ [(side, event)]) (config.advance side chunks' thread') ∧
      (∀ index, Written index side event → ¬ Since history (Written index) (Taken index)) ∧
      ∀ index, Taken index side event → Since history (Written index) (Reserved index) := by
  obtain ⟨written, removed, taken, haccounts, hproducer, hconsumer⟩ := h
  obtain ⟨hpaired, hwaiting⟩ := hguard
  cases side with
  | producer =>
    obtain ⟨written', haccounts', hproducer', hconsumer', hwrites⟩ :=
      producer_step haccounts hproducer hconsumer (fun call hcall ↦ by
        subst hcall
        cases call with
        | push c item => exact ⟨item, congrArg (ChunkCall.push · item) hpaired.2⟩
        | take c => exact absurd hpaired.1 (by decide)) hstep
    refine ⟨⟨written', removed, taken, haccounts', ?_, ?_⟩, hwrites, fun index hread ↦ ?_⟩
    · rwa [Config.advance_threads_self]
    · rwa [Config.advance_threads_of_ne _ (by decide)]
    · generalize config.threads .producer = thread at hproducer hstep
      cases hstep with
      | taken => exact hproducer.elim
      | _ => exact hread.elim
  | consumer =>
    obtain ⟨removed', taken', haccounts', hproducer', hconsumer', hreads⟩ :=
      consumer_step haccounts hproducer hconsumer (fun call hcall ↦ by
        subst hcall
        cases call with
        | push c item => exact absurd hpaired.1 (by decide)
        | take c => exact congrArg ChunkCall.take hpaired.2) (fun c index item reserved d stored
          hevent hother ↦ by
        subst hevent
        rw [hother] at hwaiting
        exact hwaiting) hstep
    refine ⟨⟨written, removed', taken', haccounts', ?_, ?_⟩, fun index hwrite ↦ ?_, hreads⟩
    · rwa [Config.advance_threads_of_ne _ (by decide)]
    · rwa [Config.advance_threads_self]
    · generalize config.threads .consumer = thread at hconsumer hstep
      cases hstep with
      | written => exact hconsumer.elim
      | _ => exact hwrite.elim

/-- The runs of a pair that waits, from empty rings. -/
theorem pairSound_run (halignment : 1 ≤ alignment)
    (hempty : (chunks ch).head = 0 ∧ (chunks ch).tail = 0)
    (hrun : Run (ChunkStep alignment) (PairedWaiting ch) ⟨chunks, fun _ ↦ .idle⟩ history config) :
    PairSound alignment ch history config := by
  refine Run.invariant (PairSound alignment ch) ?_ ?_ hrun
  · refine ⟨0, 0, 0, ⟨?_, ?_, le_refl _, le_refl _, ?_, le_refl _, Nat.zero_le _, le_refl _, ?_,
      rfl, ?_, ?_⟩, rfl, rfl⟩
    · exact hempty.1
    · exact hempty.2.trans (Nat.zero_mod _).symm
    · exact Nat.lt_of_lt_of_eq halignment (Nat.zero_add _).symm
    · exact fun j _ _ hlt ↦ absurd hlt (Nat.not_lt_zero _)
    · exact fun j hlt ↦ absurd hlt (Nat.not_lt_zero _)
    · exact fun index hsince ↦ absurd hsince (not_since_nil _ _)
  · intro history config side event chunks' thread' _ hsound hguard hstep
    exact (hsound.step hguard hstep).1

/-- A pair that waits keeps the contract. -/
theorem pairContract_of_waiting (halignment : 1 ≤ alignment)
    (hempty : (chunks ch).head = 0 ∧ (chunks ch).tail = 0)
    (hrun : Run (ChunkStep alignment) (PairedWaiting ch) ⟨chunks, fun _ ↦ .idle⟩ history config) :
    PairContract history := by
  refine ⟨?_, ?_, ?_⟩
  · obtain ⟨_, _, taken, haccounts, -⟩ := pairSound_run halignment hempty hrun
    rw [haccounts.takenItems_eq]
    exact List.take_prefix _ _
  · rintro before side c index item after rfl
    obtain ⟨middle, shared, own, hbefore, hguard, hstep⟩ := hrun.cut
    exact ((pairSound_run halignment hempty hbefore).step hguard hstep).2.2 index rfl
  · rintro before side c index item after rfl
    obtain ⟨middle, shared, own, hbefore, hguard, hstep⟩ := hrun.cut
    exact ((pairSound_run halignment hempty hbefore).step hguard hstep).2.1 index rfl

/-- A thread comes in front of its copy into a slot by reserving it. -/
theorem event_of_copying {thread thread' : ChunkThread} {event : ChunkEvent}
    {chunks' : ℕ → Chunk} {c index : ℕ} {item : Item}
    (hstep : ChunkStep alignment chunks thread event chunks' thread')
    (hthread : thread' = .push c item (.copyItem index)) : event = .reserved c index item := by
  cases hstep with
  | called call => cases call <;> exact absurd hthread (by simp [ChunkCall.start])
  | reserved =>
    simp only [ChunkThread.push.injEq, PushStage.copyItem.injEq] at hthread
    obtain ⟨rfl, rfl, rfl⟩ := hthread
    rfl
  | _ => exact absurd hthread (by simp)

/-- While the producer is in front of its copy into a slot, the slot has not been written since its
last reservation. The consumer is never in a Push. -/
theorem not_since_of_copying
    (hrun : Run (ChunkStep alignment) (Paired ch) ⟨chunks, fun _ ↦ .idle⟩ history config) :
    (∀ c item index, config.threads .producer = .push c item (.copyItem index) →
      ¬ Since history (Written index) (Reserved index)) ∧
      ∀ c item stage, config.threads .consumer ≠ .push c item stage := by
  refine Run.invariant (fun history config ↦
    (∀ c item index, config.threads .producer = .push c item (.copyItem index) →
      ¬ Since history (Written index) (Reserved index)) ∧
      ∀ c item stage, config.threads .consumer ≠ .push c item stage) ⟨?_, ?_⟩ ?_ hrun
  · rintro c item index ⟨⟩
  · rintro c item stage ⟨⟩
  rintro history config side event chunks' thread' - ⟨hcopying, hconsumer⟩ hpaired hstep
  cases side with
  | producer =>
    refine ⟨fun c item index hthread ↦ ?_, fun c item stage ↦ ?_⟩
    · rw [Config.advance_threads_self] at hthread
      obtain rfl := event_of_copying hstep hthread
      exact fun hsince ↦ ((since_concat ..).mp hsince).elim id fun hbefore ↦ hbefore.2 rfl
    · rw [Config.advance_threads_of_ne _ (by decide)]
      exact hconsumer c item stage
  | consumer =>
    generalize hthread : config.threads .consumer = thread at hstep hconsumer
    refine ⟨fun c item index hproducer ↦ ?_, fun c item stage ↦ ?_⟩
    · rw [Config.advance_threads_of_ne _ (by decide)] at hproducer
      rw [since_concat]
      rintro (hwritten | ⟨hbefore, -⟩)
      · cases hstep with
        | written => exact hconsumer _ _ _ rfl
        | _ => exact hwritten
      · exact hcopying c item index hproducer hbefore
    · rw [Config.advance_threads_self]
      cases hstep with
      | called call =>
        cases call with
        | push c item => exact absurd hpaired.1 (by decide)
        | take c => exact ChunkThread.noConfusion
      | _ => first
        | exact ChunkThread.noConfusion
        | exact absurd rfl (hconsumer _ _ _)

end Runs

/-! ### When the contract holds -/

/-- The calls of a pair are on its chunk. -/
theorem onChunks_of_paired {ch count : ℕ} (hch : ch < count)
    {history : List (Side × ChunkEvent)} {config : Config Side McmpChunkedQueue ChunkThread}
    {side : Side} {event : ChunkEvent} (hpaired : Paired ch history config side event) :
    OnChunks count history config side event := by
  rintro call rfl
  cases call with
  | push c item => exact hpaired.2.symm ▸ hch
  | take c => exact hpaired.2.symm ▸ hch

/-- A pair that reads only written slots waits. -/
theorem waiting_of_readsWritten {shape : Shape} {queue : McmpChunkedQueue} {ch : ℕ}
    (hqueue : shape.WellFormed queue) (hch : ch < shape.chunks)
    {history : List (Side × ChunkEvent)} {config : Config Side McmpChunkedQueue ChunkThread}
    (hrun : ChunkRun (Paired ch) queue history config) (hreads : ReadsWritten history) :
    ChunkRun (PairedWaiting ch) queue history config := by
  induction hrun with
  | start => exact .start
  | @step history config side event queue' thread' hpast hpaired hstep ih =>
    have hearlier : ReadsWritten history := fun before side' c index item after hsplit ↦
      hreads before side' c index item (after ++ [(side, event)]) (by rw [hsplit]; simp)
    refine .step (ih hearlier) ⟨hpaired, ?_⟩ hstep
    split
    · rename_i c index item d stored reserved hproducer
      rintro rfl
      have hsince := hreads history side c index item [] rfl
      have hchunks : Run (ChunkStep shape.alignment) (Paired ch)
          ⟨shape.chunksOf queue, fun _ ↦ .idle⟩ history (config.view shape.chunksOf id) :=
        chunkStep_run hqueue (fun _ _ _ _ ↦ onChunks_of_paired hch) (fun _ _ _ _ hguard ↦ hguard)
          hpast
      exact (not_since_of_copying hchunks).1 _ _ _ hproducer hsince
    · trivial

/-- One producer and one consumer of a chunk keep the contract in exactly those runs in which every
Take that has removed a slot reads it while the Push is not in front of its copy into that slot. -/
theorem mcmpChunkedQueue_pairContract_iff {malloc : ℕ → Option ByteMemory}
    {length alignment ch : ℕ} {queue : McmpChunkedQueue} (halignment : 2 ≤ alignment)
    (hfits : 64 + totalchunks length alignment * (16 + 8 * alignment) < 2 ^ 64)
    (hcreate : mcmpChunkedQueueCreate malloc length alignment = .ok queue)
    (hch : ch < totalchunks length alignment) {history : List (Side × ChunkEvent)}
    {config : Config Side McmpChunkedQueue ChunkThread}
    (hrun : ChunkRun (Paired ch) queue history config) :
    PairContract history ↔ ChunkRun (PairedWaiting ch) queue history config := by
  have hpositive : 1 ≤ alignment := by omega
  let shape := Shape.ofLength length alignment hpositive hfits
  have hpos : 0 < shape.chunks := Nat.zero_lt_of_lt hch
  have hqueue : shape.WellFormed queue := Shape.wellFormed_create hpos rfl hcreate
  obtain ⟨-, -, hempty⟩ := Shape.create_spec hpos rfl hcreate
  constructor
  · exact fun hcontract ↦ waiting_of_readsWritten hqueue hch hrun hcontract.reads_written
  · intro hwaiting
    have hchunks : Run (ChunkStep alignment) (PairedWaiting ch)
        ⟨shape.chunksOf queue, fun _ ↦ .idle⟩ history (config.view shape.chunksOf id) :=
      chunkStep_run hqueue (fun _ _ _ _ hguard ↦ onChunks_of_paired hch hguard.1)
        (fun _ _ _ _ hguard ↦ hguard) hwaiting
    exact pairContract_of_waiting hpositive (hempty ch hch) hchunks

/-- A thread goes on with its call for a number of steps. -/
def goOn (side : Side) (steps : ℕ) : List (Side × ChunkCommand) :=
  List.replicate steps (side, .advance)

/-- A thread starts a call and goes on with it for a number of steps. -/
def runCall (side : Side) (call : ChunkCall) (steps : ℕ) : List (Side × ChunkCommand) :=
  (side, .call call) :: goOn side steps

/-- The consumer removes the slot that the producer has reserved and waits for the producer before
it reads the slot; then the other slot is filled and read. -/
theorem mcmpChunkedQueue_pairContract_iff_waiting :
    ∃ (history : List (Side × ChunkEvent)) (config : Config Side McmpChunkedQueue ChunkThread),
      ChunkRun (Paired 0) queueOfFour history config ∧ itemsOf takenItem history = [7, 8] ∧
        PairContract history := by
  obtain ⟨config, hrun, -⟩ := exists_run_of_play chunkMachine (PairedWaiting 0)
    (initially Side queueOfFour)
    [runCall .producer (.push 0 7) 3, runCall .consumer (.take 0) 3, goOn .producer 1,
      goOn .consumer 1, runCall .producer (.push 0 8) 4, runCall .consumer (.take 0) 4].flatten
    (fun config ↦ cqLength config.shared)
    [(Side.producer, .called (.push 0 7)), (.producer, .accessed), (.producer, .accessed),
      (.producer, .reserved 0 0 7), (.consumer, .called (.take 0)), (.consumer, .accessed),
      (.consumer, .accessed), (.consumer, .removed 0 0), (.producer, .written 0 0 7),
      (.consumer, .taken 0 0 7), (.producer, .called (.push 0 8)), (.producer, .accessed),
      (.producer, .accessed), (.producer, .reserved 0 1 8), (.producer, .written 0 1 8),
      (.consumer, .called (.take 0)), (.consumer, .accessed), (.consumer, .accessed),
      (.consumer, .removed 0 1), (.consumer, .taken 0 1 8)]
    4 (by decide +kernel)
  have hpaired := hrun.mono fun _ _ _ _ hguard ↦ hguard.1
  exact ⟨_, config, hpaired, by decide, (mcmpChunkedQueue_pairContract_iff (le_refl 2)
    (by decide) mcmpChunkedQueueCreate_queueOfFour (by decide) hpaired).mpr hrun⟩

/-- The consumer reads the slot between its reservation and its write, and returns eight of the
bytes that were in the block before the queue. -/
theorem exists_early_take :
    ∃ (history : List (Side × ChunkEvent)) (config : Config Side McmpChunkedQueue ChunkThread),
      ChunkRun (Paired 0) queueOfFour history config ∧ itemsOf reservedItem history = [7] ∧
        itemsOf takenItem history = [0x3939393939393939] ∧ ¬ PairContract history := by
  obtain ⟨config, hrun, -⟩ := exists_run_of_play chunkMachine (Paired 0)
    (initially Side queueOfFour)
    [runCall .producer (.push 0 7) 3, runCall .consumer (.take 0) 4].flatten
    (fun config ↦ cqLength config.shared)
    [(Side.producer, .called (.push 0 7)), (.producer, .accessed), (.producer, .accessed),
      (.producer, .reserved 0 0 7), (.consumer, .called (.take 0)), (.consumer, .accessed),
      (.consumer, .accessed), (.consumer, .removed 0 0),
      (.consumer, .taken 0 0 0x3939393939393939)]
    4 (by decide +kernel)
  exact ⟨_, config, hrun, by decide, by decide,
    fun hcontract ↦ absurd hcontract.takes_prefix (by decide)⟩

end Mcmp.Utilities.ChunkedQueuePair
