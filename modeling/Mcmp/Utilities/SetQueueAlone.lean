import Mcmp.Foundation.SetFifo
import Mcmp.Utilities.SetQueue

/-!
# A set queue used by one thread

The calls of a thread that has the queue to itself, each run from its first access to its return
(`callAlone`). No compare-exchange fails, so a call returns within nine accesses. A queue of length
`L` behaves as a first-in-first-out queue without duplicates of capacity `L - 1`
(`callsAlone_eq_fifo`): one cell of the ring always stays free, which tells a full ring from an
empty one. The room is therefore for one index less than there are admissible ones
(`callAlone_push_room`).
-/

set_option autoImplicit false
set_option relaxedAutoImplicit false

namespace Mcmp.Utilities.SetQueueAlone

open Foundation.ByteBits Foundation.CyclicRange Foundation.Interleaving Foundation.SetFifo SetQueue

/-! ### Calls run to their end -/

/-- What a call returns: its status, and the index that a Take delivers. -/
abbrev Answer := Mcmpst × Option ℕ

/-- The answer of a call, read from its last event. -/
def answer : QueueEvent → Option Answer
  | .pushReturned _ status => some (status, none)
  | .takeReturned ind status => some (status, ind)
  | _ => none

/-- Runs a call from its first access to its return. There is no answer when the call has not
returned after nine accesses. -/
def callAlone (queue : McmpSetQueue) (call : QueueCall) : Option Answer × McmpSetQueue :=
  let result := runAlone queueMachine .advance 9 queue call.start
  (if result.2.2 = .idle then result.1.getLast?.bind answer else none, result.2.1)

/-- Runs a list of calls, one after the other. -/
def callsAlone (queue : McmpSetQueue) : List QueueCall → List (Option Answer) × McmpSetQueue
  | [] => ([], queue)
  | call :: calls =>
    let first := callAlone queue call
    let rest := callsAlone first.2 calls
    (first.1 :: rest.1, rest.2)

section Calls

variable {queue : McmpSetQueue} {ind : ℕ}

theorem callAlone_push_tooLarge (hind : queue.length ≤ ind) :
    callAlone queue (.push ind) = (some (.overflow, none), queue) := by
  simp [callAlone, runAlone, queueMachine, QueueCall.start, mcmpSetQueuePush, hind, answer]

theorem callAlone_push_present (hind : ind < queue.length) (hset : bit queue.values ind = true) :
    callAlone queue (.push ind) = (some (.alrop, none), queue) := by
  have hbyte : queue.values (ind / 8) &&& bitMask (ind % 8) ≠ 0#8 :=
    (AtomicBitmap.and_bitMask_ne_zero_iff _ _).mpr hset
  simp [callAlone, runAlone, queueMachine, QueueCall.start, mcmpSetQueuePush, hind.not_ge, answer,
    hbyte]

theorem callAlone_push_full (hind : ind < queue.length) (hclear : bit queue.values ind = false)
    (hnext : (queue.head + 1) % queue.length = queue.tail)
    (hready : bit queue.ready queue.tail = true) :
    callAlone queue (.push ind) = (some (.overflow, none), queue) := by
  have hbyte : queue.values (ind / 8) &&& bitMask (ind % 8) = 0#8 :=
    (and_bitMask_eq_zero_iff _ _).mpr hclear
  have hcall : callAlone queue (.push ind) = (some (.overflow, none),
      { queue with values := clearBit (setBit queue.values ind) ind }) := by
    simp [callAlone, runAlone, queueMachine, QueueCall.start, mcmpSetQueuePush, hind.not_ge, answer,
      hbyte, hnext, hready, setBit, clearBit]
  rw [hcall, clearBit_setBit hclear]

theorem callAlone_push_free (hind : ind < queue.length) (hclear : bit queue.values ind = false)
    (hroom : (queue.head + 1) % queue.length ≠ queue.tail) :
    callAlone queue (.push ind) = (some (.success, none),
      { queue with
        head := (queue.head + 1) % queue.length
        values := setBit queue.values ind
        ready := setBit queue.ready queue.head
        items := Function.update queue.items queue.head ind }) := by
  have hbyte : queue.values (ind / 8) &&& bitMask (ind % 8) = 0#8 :=
    (and_bitMask_eq_zero_iff _ _).mpr hclear
  simp [callAlone, runAlone, queueMachine, QueueCall.start, mcmpSetQueuePush, hind.not_ge, answer,
    hbyte, hroom, setBit]

theorem callAlone_take_empty (hempty : queue.tail = queue.head) :
    callAlone queue .take = (some (.isempty, none), queue) := by
  simp [callAlone, runAlone, queueMachine, QueueCall.start, mcmpSetQueueTake, hempty, answer]

theorem callAlone_take_ready (hne : queue.tail ≠ queue.head)
    (hready : bit queue.ready queue.tail = true) :
    callAlone queue .take = (some (.success, some (queue.items queue.tail)),
      { queue with
        tail := (queue.tail + 1) % queue.length
        values := clearBit queue.values (queue.items queue.tail)
        ready := clearBit queue.ready queue.tail }) := by
  have hbyte : queue.ready (queue.tail / 8) &&& bitMask (queue.tail % 8) ≠ 0#8 :=
    (AtomicBitmap.and_bitMask_ne_zero_iff _ _).mpr hready
  simp [callAlone, runAlone, queueMachine, QueueCall.start, mcmpSetQueueTake, hne, answer,
    hbyte, clearBit]

end Calls

/-! ### The queue as a first-in-first-out queue -/

/-- The calls of a first-in-first-out queue of the indices below `length` without duplicates and
with room for `length - 1` of them. -/
def fifoCall {length : ℕ} (fifo : BoundedFifo ℕ (length - 1)) :
    QueueCall → Answer × BoundedFifo ℕ (length - 1)
  | .push ind =>
    if length ≤ ind then ((.overflow, none), fifo)
    else
      match fifo.enqueue ind with
      | .error .present => ((.alrop, none), fifo)
      | .error .full => ((.overflow, none), fifo)
      | .ok fifo' => ((.success, none), fifo')
  | .take =>
    match fifo.dequeue with
    | none => ((.isempty, none), fifo)
    | some (ind, fifo') => ((.success, some ind), fifo')

/-- A list of calls of the first-in-first-out queue. -/
def fifoCalls {length : ℕ} (fifo : BoundedFifo ℕ (length - 1)) :
    List QueueCall → List Answer × BoundedFifo ℕ (length - 1)
  | [] => ([], fifo)
  | call :: calls =>
    let first := fifoCall fifo call
    let rest := fifoCalls first.2 calls
    (first.1 :: rest.1, rest.2)

section Fifo

variable {length : ℕ} (fifo : BoundedFifo ℕ (length - 1))

/-- The four ways in which a Push is answered. -/
theorem fifoCall_push_cases (ind : ℕ) :
    (length ≤ ind ∧ fifoCall fifo (.push ind) = ((.overflow, none), fifo)) ∨
    (ind < length ∧ ind ∈ fifo.entries ∧ fifoCall fifo (.push ind) = ((.alrop, none), fifo)) ∨
    (ind < length ∧ ind ∉ fifo.entries ∧ ¬ fifo.entries.length < length - 1 ∧
      fifoCall fifo (.push ind) = ((.overflow, none), fifo)) ∨
    (ind < length ∧ ind ∉ fifo.entries ∧ fifo.entries.length < length - 1 ∧
      ∃ fifo', fifoCall fifo (.push ind) = ((.success, none), fifo') ∧
        fifo'.entries = fifo.entries ++ [ind]) := by
  by_cases hind : length ≤ ind
  · exact Or.inl ⟨hind, if_pos hind⟩
  have hlt := not_le.mp hind
  by_cases hmem : ind ∈ fifo.entries
  · refine Or.inr (Or.inl ⟨hlt, hmem, ?_⟩)
    simp only [fifoCall, if_neg hind, BoundedFifo.enqueue_of_mem hmem]
  by_cases hroom : fifo.entries.length < length - 1
  · obtain ⟨fifo', henqueue, hentries⟩ := BoundedFifo.enqueue_of_room hmem hroom
    refine Or.inr (Or.inr (Or.inr ⟨hlt, hmem, hroom, fifo', ?_, hentries⟩))
    simp only [fifoCall, if_neg hind, henqueue]
  · refine Or.inr (Or.inr (Or.inl ⟨hlt, hmem, hroom, ?_⟩))
    simp only [fifoCall, if_neg hind, BoundedFifo.enqueue_of_full hmem hroom]

/-- The two ways in which a Take is answered. -/
theorem fifoCall_take_cases :
    (fifo.entries = [] ∧ fifoCall fifo .take = ((.isempty, none), fifo)) ∨
    ∃ ind rest fifo', fifo.entries = ind :: rest ∧
      fifoCall fifo .take = ((.success, some ind), fifo') ∧ fifo'.entries = rest := by
  cases hentries : fifo.entries with
  | nil =>
    refine Or.inl ⟨rfl, ?_⟩
    simp only [fifoCall, BoundedFifo.dequeue_of_nil hentries]
  | cons ind rest =>
    obtain ⟨fifo', hdequeue, hrest⟩ := BoundedFifo.dequeue_of_cons hentries
    refine Or.inr ⟨ind, rest, fifo', rfl, ?_, hrest⟩
    simp only [fifoCall, hdequeue]

/-- The first-in-first-out queue never asks for a retry. -/
theorem fifoCall_ne_retryop (call : QueueCall) : (fifoCall fifo call).1.1 ≠ .retryop := by
  cases call with
  | push ind =>
    rcases fifoCall_push_cases fifo ind with ⟨-, h⟩ | ⟨-, -, h⟩ | ⟨-, -, -, h⟩ | ⟨-, -, -, _, h, -⟩
    all_goals simp [h]
  | take =>
    rcases fifoCall_take_cases fifo with ⟨-, h⟩ | ⟨_, _, _, -, h, -⟩
    all_goals simp [h]

theorem fifoCalls_ne_retryop (calls : List QueueCall) :
    ∀ result ∈ (fifoCalls fifo calls).1, result.1 ≠ .retryop := by
  induction calls generalizing fifo with
  | nil => simp [fifoCalls]
  | cons call calls ih =>
    intro result hresult
    rcases List.mem_cons.mp hresult with rfl | hrest
    · exact fifoCall_ne_retryop fifo call
    · exact ih _ _ hrest

/-- A Push of the first-in-first-out queue removes nothing, and one that succeeds leaves it with an
entry. -/
theorem entries_fifoCall_push (ind : ℕ) :
    fifo.entries <+: (fifoCall fifo (.push ind)).2.entries ∧
      ((fifoCall fifo (.push ind)).1.1 = .success →
        (fifoCall fifo (.push ind)).2.entries ≠ []) := by
  rcases fifoCall_push_cases fifo ind with
    ⟨-, h⟩ | ⟨-, -, h⟩ | ⟨-, -, -, h⟩ | ⟨-, -, -, fifo', h, hentries⟩
  · simp [h]
  · simp [h]
  · simp [h]
  · simp [h, hentries]

theorem entries_prefix_fifoCalls {pushes : List QueueCall}
    (hpushes : ∀ call ∈ pushes, ∃ ind, call = .push ind) :
    fifo.entries <+: (fifoCalls fifo pushes).2.entries := by
  induction pushes generalizing fifo with
  | nil => exact List.prefix_refl _
  | cons call pushes ih =>
    obtain ⟨ind, rfl⟩ := hpushes call List.mem_cons_self
    exact (entries_fifoCall_push fifo ind).1.trans
      (ih _ fun other hother ↦ hpushes other (List.mem_cons_of_mem _ hother))

end Fifo

/-- A set queue of a length represents a first-in-first-out queue: the cells of the ring hold its
entries, the ready cells are those of the ring, and the members are the entries. -/
structure Represents (length : ℕ) (queue : McmpSetQueue) (fifo : BoundedFifo ℕ (length - 1)) :
    Prop where
  length_eq : queue.length = length
  head_lt : queue.head < length
  tail_lt : queue.tail < length
  items : queue.ringItems = fifo.entries
  ready_iff : ∀ index, bit queue.ready index = true ↔ index ∈ cells length queue.tail queue.head
  member_iff : ∀ ind, bit queue.values ind = true ↔ ind ∈ fifo.entries

section Refinement

variable {length : ℕ} {queue : McmpSetQueue} {fifo : BoundedFifo ℕ (length - 1)} {ind : ℕ}

theorem represents_empty (hlength : 1 ≤ length) (items : ℕ → ℕ) :
    Represents length (emptyQueue length items) BoundedFifo.empty :=
  ⟨rfl, hlength, hlength, by simp [emptyQueue, McmpSetQueue.ringItems, BoundedFifo.empty],
    by simp [emptyQueue], by simp [emptyQueue, BoundedFifo.empty]⟩

/-- The next cell after the head is the tail exactly when the queue has no room. -/
theorem Represents.no_room_iff (h : Represents length queue fifo) :
    (queue.head + 1) % queue.length = queue.tail ↔ ¬ fifo.entries.length < length - 1 := by
  have hspan := span_lt h.tail_lt h.head_lt
  have hcount : fifo.entries.length = span length queue.tail queue.head := by
    rw [← h.items, McmpSetQueue.ringItems, List.length_map, length_cells, h.length_eq]
  rw [h.length_eq, mod_eq_next h.head_lt, next_head_eq_tail_iff h.tail_lt h.head_lt, hcount]
  omega

/-- A Push that finds room appends its index. -/
theorem Represents.push (h : Represents length queue fifo) {fifo' : BoundedFifo ℕ (length - 1)}
    (hroom : (queue.head + 1) % queue.length ≠ queue.tail)
    (hentries : fifo'.entries = fifo.entries ++ [ind]) :
    Represents length
      { queue with
        head := (queue.head + 1) % queue.length
        values := setBit queue.values ind
        ready := setBit queue.ready queue.head
        items := Function.update queue.items queue.head ind } fifo' := by
  have hnext : (queue.head + 1) % queue.length = next length queue.head := by
    rw [h.length_eq, mod_eq_next h.head_lt]
  rw [hnext] at hroom ⊢
  have hcells := cells_next_head h.tail_lt h.head_lt hroom
  have hfresh := head_notMem_cells h.tail_lt h.head_lt
  refine ⟨h.length_eq, next_lt h.head_lt, h.tail_lt, ?_, fun index ↦ ?_, fun value ↦ ?_⟩
  · have hold : (cells length queue.tail queue.head).map
        (Function.update queue.items queue.head ind) = fifo.entries := by
      rw [← h.items, McmpSetQueue.ringItems, h.length_eq]
      refine List.map_congr_left fun index hindex ↦ Function.update_of_ne ?_ _ _
      rintro rfl
      exact hfresh hindex
    simp only [McmpSetQueue.ringItems, h.length_eq]
    rw [hcells, List.map_append, hold, hentries, List.map_singleton, Function.update_self]
  · rw [hcells, bit_setBit, Bool.or_eq_true, h.ready_iff, List.mem_append, List.mem_singleton,
      decide_eq_true_eq]
  · rw [hentries, bit_setBit, Bool.or_eq_true, h.member_iff, List.mem_append, List.mem_singleton,
      decide_eq_true_eq]

/-- A Take that finds an entry removes the oldest one. -/
theorem Represents.take (h : Represents length queue fifo) {fifo' : BoundedFifo ℕ (length - 1)}
    (hne : queue.tail ≠ queue.head)
    (hentries : fifo.entries = queue.items queue.tail :: fifo'.entries) :
    Represents length
      { queue with
        tail := (queue.tail + 1) % queue.length
        values := clearBit queue.values (queue.items queue.tail)
        ready := clearBit queue.ready queue.tail } fifo' := by
  have hnext : (queue.tail + 1) % queue.length = next length queue.tail := by
    rw [h.length_eq, mod_eq_next h.tail_lt]
  rw [hnext]
  have hcells := cells_eq_cons h.tail_lt h.head_lt hne.symm
  have hgone := tail_notMem_cells_next h.tail_lt h.head_lt hne.symm
  have hnodup := fifo.nodup
  rw [hentries, List.nodup_cons] at hnodup
  refine ⟨h.length_eq, h.head_lt, next_lt h.tail_lt, ?_, fun index ↦ ?_, fun value ↦ ?_⟩
  · have hitems := h.items
    simp only [McmpSetQueue.ringItems, h.length_eq] at hitems ⊢
    rw [hcells, List.map_cons, hentries] at hitems
    exact (List.cons.inj hitems).2
  · rw [bit_clearBit, Bool.and_eq_true, h.ready_iff, hcells, List.mem_cons, Bool.not_eq_true',
      decide_eq_false_iff_not]
    constructor
    · rintro ⟨rfl | hindex, hneq⟩
      · exact absurd rfl hneq
      · exact hindex
    · refine fun hindex ↦ ⟨Or.inr hindex, ?_⟩
      rintro rfl
      exact hgone hindex
  · rw [bit_clearBit, Bool.and_eq_true, h.member_iff, hentries, List.mem_cons, Bool.not_eq_true',
      decide_eq_false_iff_not]
    constructor
    · rintro ⟨rfl | hvalue, hneq⟩
      · exact absurd rfl hneq
      · exact hvalue
    · refine fun hvalue ↦ ⟨Or.inr hvalue, ?_⟩
      rintro rfl
      exact hnodup.1 hvalue

theorem Represents.entries_eq_nil (h : Represents length queue fifo)
    (hempty : queue.tail = queue.head) : fifo.entries = [] := by
  rw [← h.items, McmpSetQueue.ringItems, hempty, cells_self, List.map_nil]

theorem Represents.tail_ready (h : Represents length queue fifo)
    (hne : queue.tail ≠ queue.head) : bit queue.ready queue.tail = true :=
  (h.ready_iff _).mpr (tail_mem_cells h.tail_lt h.head_lt hne.symm)

theorem Represents.entries_eq_cons (h : Represents length queue fifo)
    (hne : queue.tail ≠ queue.head) :
    fifo.entries = queue.items queue.tail ::
      (cells length (next length queue.tail) queue.head).map queue.items := by
  rw [← h.items, McmpSetQueue.ringItems, h.length_eq,
    cells_eq_cons h.tail_lt h.head_lt hne.symm, List.map_cons]

/-- What one call of a set queue and of the queue it represents have in common: the answer, and what
they represent afterwards. A call that is not answered with success leaves the set queue as it
was. -/
def Agree (length : ℕ) (queue : McmpSetQueue) (alone : Option Answer × McmpSetQueue)
    (fifo : Answer × BoundedFifo ℕ (length - 1)) : Prop :=
  alone.1 = some fifo.1 ∧ Represents length alone.2 fifo.2 ∧
    (fifo.1.1 ≠ .success → alone.2 = queue)

/-- A Push is answered as that of the first-in-first-out queue. -/
theorem Represents.push_agree (h : Represents length queue fifo) (hlength : 2 ≤ length) (ind : ℕ) :
    Agree length queue (callAlone queue (.push ind)) (fifoCall fifo (.push ind)) := by
  have hclear : ind ∉ fifo.entries → bit queue.values ind = false := fun hmem ↦
    Bool.eq_false_iff.mpr (mt (h.member_iff ind).mp hmem)
  rcases fifoCall_push_cases fifo ind with ⟨hind, hfifo⟩ | ⟨hind, hmem, hfifo⟩ |
    ⟨hind, hmem, hfull, hfifo⟩ | ⟨hind, hmem, hroom, fifo', hfifo, hentries⟩
  · rw [callAlone_push_tooLarge (h.length_eq ▸ hind), hfifo]
    exact ⟨rfl, h, fun _ ↦ rfl⟩
  · rw [callAlone_push_present (h.length_eq ▸ hind) ((h.member_iff ind).mpr hmem), hfifo]
    exact ⟨rfl, h, fun _ ↦ rfl⟩
  · have hne : queue.tail ≠ queue.head := by
      intro hempty
      rw [h.entries_eq_nil hempty, List.length_nil] at hfull
      omega
    rw [callAlone_push_full (h.length_eq ▸ hind) (hclear hmem) (h.no_room_iff.mpr hfull)
      (h.tail_ready hne), hfifo]
    exact ⟨rfl, h, fun _ ↦ rfl⟩
  · have hfree := mt h.no_room_iff.mp (not_not.mpr hroom)
    rw [callAlone_push_free (h.length_eq ▸ hind) (hclear hmem) hfree, hfifo]
    exact ⟨rfl, h.push hfree hentries, fun hstatus ↦ absurd rfl hstatus⟩

/-- A Take is answered as that of the first-in-first-out queue. -/
theorem Represents.take_agree (h : Represents length queue fifo) :
    Agree length queue (callAlone queue .take) (fifoCall fifo .take) := by
  rcases fifoCall_take_cases fifo with ⟨hnil, hfifo⟩ | ⟨ind, rest, fifo', hcons, hfifo, hrest⟩
  · have hempty : queue.tail = queue.head := by
      by_contra hne
      rw [h.entries_eq_cons hne] at hnil
      exact List.cons_ne_nil _ _ hnil
    rw [callAlone_take_empty hempty, hfifo]
    exact ⟨rfl, h, fun _ ↦ rfl⟩
  · have hne : queue.tail ≠ queue.head := by
      intro hempty
      rw [h.entries_eq_nil hempty] at hcons
      exact List.cons_ne_nil _ _ hcons.symm
    obtain ⟨rfl, hcells⟩ := List.cons.inj (hcons.symm.trans (h.entries_eq_cons hne))
    rw [callAlone_take_ready hne (h.tail_ready hne), hfifo]
    exact ⟨rfl, h.take hne (by rw [hcons, hrest]), fun hstatus ↦ absurd rfl hstatus⟩

theorem Represents.agree (h : Represents length queue fifo) (hlength : 2 ≤ length)
    (call : QueueCall) : Agree length queue (callAlone queue call) (fifoCall fifo call) := by
  cases call with
  | push ind => exact h.push_agree hlength ind
  | take => exact h.take_agree

/-- A list of calls is answered as that of the first-in-first-out queue, which is represented
afterwards. -/
theorem Represents.calls (h : Represents length queue fifo) (hlength : 2 ≤ length)
    (calls : List QueueCall) :
    (callsAlone queue calls).1 = (fifoCalls fifo calls).1.map some ∧
      Represents length (callsAlone queue calls).2 (fifoCalls fifo calls).2 := by
  induction calls generalizing queue fifo with
  | nil => exact ⟨rfl, h⟩
  | cons call calls ih =>
    obtain ⟨hanswer, hrepresents, -⟩ := h.agree hlength call
    obtain ⟨hanswers, hlast⟩ := ih hrepresents
    refine ⟨?_, hlast⟩
    simp only [callsAlone, fifoCalls, List.map_cons, hanswer, hanswers]

end Refinement

/-- Every call of one thread returns. -/
theorem callAlone_returns {length : ℕ} (hlength : 2 ≤ length) (items : ℕ → ℕ)
    (calls : List QueueCall) (call : QueueCall) :
    (callAlone (callsAlone (emptyQueue length items) calls).2 call).1 ≠ none := by
  obtain ⟨-, hrepresents⟩ := (represents_empty (by omega) items).calls hlength calls
  rw [(hrepresents.agree hlength call).1]
  exact Option.some_ne_none _

/-- One thread that uses a queue of a length from two on gets from every list of calls the answers
of a first-in-first-out queue without duplicates that has room for one index less. No call asks for
a retry, and a call that is not answered with success leaves the queue as it was. -/
theorem callsAlone_eq_fifo {length : ℕ} (hlength : 2 ≤ length) (items : ℕ → ℕ)
    (calls : List QueueCall) :
    (callsAlone (emptyQueue length items) calls).1 =
        (fifoCalls (BoundedFifo.empty : BoundedFifo ℕ (length - 1)) calls).1.map some ∧
      (∀ result ∈ (callsAlone (emptyQueue length items) calls).1, ∀ ind,
        result ≠ some (.retryop, ind)) ∧
      ∀ call, (∀ ind, (callAlone (callsAlone (emptyQueue length items) calls).2 call).1 ≠
          some (.success, ind)) →
        (callAlone (callsAlone (emptyQueue length items) calls).2 call).2 =
          (callsAlone (emptyQueue length items) calls).2 := by
  obtain ⟨hanswers, hrepresents⟩ := (represents_empty (by omega) items).calls hlength calls
  refine ⟨hanswers, ?_, fun call hfails ↦ ?_⟩
  · rintro result hresult ind rfl
    rw [hanswers, List.mem_map] at hresult
    obtain ⟨answer, hanswer, hsome⟩ := hresult
    obtain rfl := Option.some.inj hsome
    exact fifoCalls_ne_retryop _ _ _ hanswer rfl
  · obtain ⟨hanswer, -, hsame⟩ := hrepresents.agree hlength call
    exact hsame fun hsuccess ↦ hfails _ (hanswer.trans (congrArg some (Prod.ext hsuccess rfl)))

/-! ### Room -/

theorem callsAlone_append (queue : McmpSetQueue) (first second : List QueueCall) :
    (callsAlone queue (first ++ second)).2 =
      (callsAlone (callsAlone queue first).2 second).2 := by
  induction first generalizing queue with
  | nil => rfl
  | cons call first ih => exact ih _

/-- After any calls of one thread on a queue of a length from two on, a Push of an admissible index
that is not queued returns success when fewer than `length - 1` indices are queued, and overflow
when the queue has no more room. After a Push that returned success the next Take delivers an
index. -/
theorem callAlone_push_room {length : ℕ} (hlength : 2 ≤ length) {items : ℕ → ℕ}
    {queue : McmpSetQueue} (hqueue : queue = emptyQueue length items) (calls : List QueueCall)
    (ind : ℕ) :
    (ind < length → ind ∉ (callsAlone queue calls).2.ringItems →
      (callAlone (callsAlone queue calls).2 (.push ind)).1 =
        some (if (callsAlone queue calls).2.ringItems.length < length - 1 then .success
          else .overflow, none)) ∧
      ∀ pushes : List QueueCall, (∀ call ∈ pushes, ∃ other, call = .push other) →
        (callAlone (callsAlone queue calls).2 (.push ind)).1 = some (.success, none) →
        ∃ taken, (callAlone (callsAlone queue (calls ++ .push ind :: pushes)).2 .take).1 =
          some (.success, some taken) := by
  subst hqueue
  obtain ⟨-, hrepresents⟩ := (represents_empty (by omega) items).calls hlength calls
  generalize (fifoCalls BoundedFifo.empty calls).2 = fifo at hrepresents
  obtain ⟨hanswer, hpushed, -⟩ := hrepresents.push_agree hlength ind
  constructor
  · intro hind hmem
    rw [hrepresents.items] at hmem ⊢
    rw [hanswer]
    rcases fifoCall_push_cases fifo ind with ⟨hlarge, -⟩ | ⟨-, hpresent, -⟩ |
      ⟨-, -, hfull, hfifo⟩ | ⟨-, -, hroom, _, hfifo, -⟩
    · exact absurd hlarge hind.not_ge
    · exact absurd hpresent hmem
    · rw [hfifo, if_neg hfull]
    · rw [hfifo, if_pos hroom]
  · intro pushes hpushes hsuccess
    have hstatus := Option.some.inj (hanswer.symm.trans hsuccess)
    have hentries := (entries_fifoCall_push fifo ind).2 (congrArg Prod.fst hstatus)
    obtain ⟨-, hlast⟩ := hpushed.calls hlength pushes
    have hne := (entries_prefix_fifoCalls _ hpushes).ne_nil hentries
    rcases fifoCall_take_cases (fifoCalls (fifoCall fifo (.push ind)).2 pushes).2 with
      ⟨hnil, -⟩ | ⟨taken, _, _, -, hfifo, -⟩
    · exact absurd hnil hne
    · refine ⟨taken, ?_⟩
      rw [callsAlone_append]
      exact hlast.take_agree.1.trans (congrArg some (congrArg Prod.fst hfifo))

end Mcmp.Utilities.SetQueueAlone
