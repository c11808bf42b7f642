import Mcmp.Utilities.SetQueueShared

/-!
# A set queue between one producer and one consumer

One thread pushes and another one takes, as the worker executor does it. The producer is alone in
moving the head, so the head that it has loaded is the head when it reserves a cell. The consumer is
alone in moving the tail, so the tail that a Push has loaded is the tail or a cell that was removed
since, and then the ring has more room than the Push sees. A cell that the consumer is still
draining is the one before the tail, so the producer never reserves it. With these facts
(`ProducerAt`, `ConsumerAt`) every step of such a run revalidates (`paired_revalidated`).

The indices of the reservations are those that were delivered, followed by the one that the consumer
is about to read and by those in the ring, in order (`Fifo`). From this the delivered indices are a
prefix of the accepted ones, and a Take that returns that the queue is empty has nothing left to
deliver (`paired_order`).
-/

set_option autoImplicit false
set_option relaxedAutoImplicit false

namespace Mcmp.Utilities.SetQueuePair

open Foundation.ByteBits Foundation.CyclicRange Foundation.ExclusiveHolders
  Foundation.Interleaving SetQueue SetQueueProtocol SetQueueShared

/-! ### The two threads -/

/-- The two users of the queue. -/
inductive Side
  | producer
  | consumer
  deriving DecidableEq, Repr

/-- Only the producer starts a Push, and only the consumer starts a Take. -/
def Paired {Shared Thread : Type*} : Guard Side Shared Thread QueueEvent := fun _ _ side event ↦
  match event with
  | .called (.push _) => side = .producer
  | .called .take => side = .consumer
  | _ => True

instance {Shared Thread : Type*} (history : List (Side × QueueEvent))
    (config : Config Side Shared Thread) (side : Side) (event : QueueEvent) :
    Decidable (Paired history config side event) := by
  unfold Paired
  split <;> infer_instance

/-- What the producer knows: a tail that it has loaded is not behind the tail, a head that it has
loaded is the head, and the ring has room for the cell that it is about to reserve. -/
def ProducerAt (queue : McmpSetQueue) : QueueThread → Prop
  | .push _ (.loadHead tail) => tail < queue.length ∧
      span queue.length queue.tail queue.head ≤ span queue.length tail queue.head
  | .push _ (.testReady tail index) => index = queue.head ∧ (index + 1) % queue.length = tail
  | .push _ (.reserveHead index) => index = queue.head ∧
      (queue.head + 1) % queue.length ≠ queue.tail
  | .take _ => False
  | _ => True

/-- What the consumer knows: a tail that it has loaded is the tail, the cell that it is about to
remove is in the ring and ready, and the cell that it is draining is the one before the tail. -/
def ConsumerAt (queue : McmpSetQueue) : QueueThread → Prop
  | .take (.loadHead index) => index = queue.tail
  | .take (.testReady index) => index = queue.tail ∧ queue.tail ≠ queue.head
  | .take (.reserveTail index) => index = queue.tail ∧ queue.tail ≠ queue.head ∧
      bit queue.ready queue.tail = true
  | .take (.readItem index) => (index + 1) % queue.length = queue.tail
  | .take (.loadHashset index _) => (index + 1) % queue.length = queue.tail
  | .take (.clearHashset index _ _) => (index + 1) % queue.length = queue.tail
  | .take (.loadReady index _) => (index + 1) % queue.length = queue.tail
  | .take (.clearReady index _ _) => (index + 1) % queue.length = queue.tail
  | .push _ _ => False
  | _ => True

section Knowledge

variable {queue queue' : McmpSetQueue} {thread thread' : QueueThread} {event : QueueEvent}
  {pending : Set ℕ} {threads : Side → QueueThread}

/-- A ring without room, seen from the head, is full. -/
theorem no_room_iff (hhead : queue.head < queue.length) (htail : queue.tail < queue.length) :
    (queue.head + 1) % queue.length = queue.tail ↔
      span queue.length queue.tail queue.head + 1 = queue.length := by
  rw [mod_eq_next hhead, next_head_eq_tail_iff htail hhead]

theorem ConsumerAt.drains_eq (hconsumer : ConsumerAt queue thread) {index : ℕ}
    (hdrains : (roleOf thread).drains = some index) : (index + 1) % queue.length = queue.tail := by
  unfold roleOf at hdrains
  split at hdrains <;> first
    | exact Option.some.inj hdrains ▸ hconsumer
    | simp [Role.drains] at hdrains

theorem ConsumerAt.fills_eq_none (hconsumer : ConsumerAt queue thread) :
    (roleOf thread).fills = none := by
  unfold roleOf
  split <;> first
    | rfl
    | exact hconsumer.elim

theorem ProducerAt.drains_eq_none (hproducer : ProducerAt queue thread) :
    (roleOf thread).drains = none := by
  unfold roleOf
  split <;> first
    | rfl
    | exact hproducer.elim

/-- No cell of the ring is left unready while neither thread is filling one. -/
theorem ready_of_mem_cells
    (hconsistent : Consistent pending (ringOf queue) (roleOf ∘ threads))
    (hconsumer : ConsumerAt queue (threads .consumer))
    (hfills : (roleOf (threads .producer)).fills = none) {index : ℕ}
    (hcell : index ∈ (ringOf queue).cells) : bit queue.ready index = true := by
  by_contra hclear
  have hmem : index ∈ {index | index ∈ (ringOf queue).cells ∧ index ∉ (ringOf queue).ready} :=
    ⟨hcell, hclear⟩
  obtain ⟨side, hside⟩ := (hconsistent.filled.mem_iff index).mp hmem
  have hside' : (roleOf (threads side)).fills = some index := hside
  cases side with
  | producer => simp [hfills] at hside'
  | consumer => simp [hconsumer.fills_eq_none] at hside'

/-- The head cell is not ready while the ring has room for it: it could only be ready because the
consumer is draining it, and then it would be the cell before the tail. -/
theorem head_not_ready (hconsistent : Consistent pending (ringOf queue) (roleOf ∘ threads))
    (hproducer : ProducerAt queue (threads .producer))
    (hconsumer : ConsumerAt queue (threads .consumer))
    (hroom : (queue.head + 1) % queue.length ≠ queue.tail) :
    bit queue.ready queue.head = false := by
  rw [← Bool.not_eq_true]
  intro hready
  have hmem : queue.head ∈
      {index | index ∈ (ringOf queue).ready ∧ index ∉ (ringOf queue).cells} :=
    ⟨hready, hconsistent.head_notMem⟩
  obtain ⟨side, hside⟩ := (hconsistent.drained.mem_iff _).mp hmem
  have hside' : (roleOf (threads side)).drains = some queue.head := hside
  cases side with
  | producer => simp [hproducer.drains_eq_none] at hside'
  | consumer => exact hroom (hconsumer.drains_eq hside')

/-- A step of the producer revalidates, and the producer knows afterwards what it should. -/
theorem producer_step (hconsistent : Consistent pending (ringOf queue) (roleOf ∘ threads))
    (hproducer : ProducerAt queue (threads .producer))
    (hconsumer : ConsumerAt queue (threads .consumer)) (hlength : 2 ≤ queue.length)
    (hevent : event ≠ .called .take)
    (hstep : QueueStep queue (threads .producer) event queue' thread') :
    revalidates queue event ∧ ProducerAt queue' thread' := by
  have hhead : queue.head < queue.length := hconsistent.head_lt
  have htail : queue.tail < queue.length := hconsistent.tail_lt
  have hspan := span_lt htail hhead
  generalize hthread : threads .producer = thread at hstep hproducer
  cases hstep with
  | called call =>
    cases call with
    | push ind => exact ⟨trivial, trivial⟩
    | take => exact absurd rfl hevent
  | progressed hprogress =>
    refine ⟨trivial, ?_⟩
    cases hprogress with
    | pushTail => exact ⟨htail, le_refl _⟩
    | pushNoRoom => exact ⟨rfl, rfl⟩
    | @pushRoom ind tail hroom =>
      refine ⟨rfl, fun hfull ↦ hroom ?_⟩
      obtain ⟨hlt, hbehind⟩ := hproducer
      have hlast := (no_room_iff hhead htail).mp hfull
      have hlt' := span_lt hlt hhead
      rw [mod_eq_next hhead, next_head_eq_tail_iff hlt hhead]
      omega
    | @pushNotReady ind tail index hready =>
      obtain ⟨rfl, rfl⟩ := hproducer
      refine ⟨rfl, fun hfull ↦ ?_⟩
      have hne : queue.head ≠ queue.tail := by
        intro hsame
        have hlast := (no_room_iff hhead htail).mp hfull
        rw [hsame] at hlast
        simp only [span, le_refl, if_true] at hlast
        omega
      have hset : bit queue.ready queue.tail = true := ready_of_mem_cells hconsistent hconsumer
        (by rw [hthread]; rfl) (tail_mem_cells htail hhead hne)
      rw [hfull, hset] at hready
      exact Bool.noConfusion hready
    | _ => first
      | exact trivial
      | exact hproducer.elim
  | reserved =>
    refine ⟨⟨hproducer.2, ?_⟩, trivial⟩
    exact head_not_ready hconsistent (by rw [hthread]; exact hproducer) hconsumer hproducer.2
  | _ => first
    | exact ⟨trivial, trivial⟩
    | exact hproducer.elim

/-- What the consumer knows stays true when the producer takes a step. -/
theorem ConsumerAt.of_producer_step (hconsumer : ConsumerAt queue (threads .consumer))
    (hproducer : ProducerAt queue thread)
    (hstep : QueueStep queue thread event queue' thread') :
    ConsumerAt queue' (threads .consumer) := by
  generalize threads .consumer = taker at hconsumer
  cases hstep with
  | reserved =>
    unfold ConsumerAt at hconsumer ⊢
    split at hconsumer <;> first
      | exact hconsumer
      | exact ⟨hconsumer.1, hproducer.2.symm⟩
      | exact ⟨hconsumer.1, hproducer.2.symm, hconsumer.2.2⟩
  | published =>
    unfold ConsumerAt at hconsumer ⊢
    split at hconsumer <;> first
      | exact hconsumer
      | exact ⟨hconsumer.1, hconsumer.2.1, by simp [hconsumer.2.2]⟩
  | _ => first
    | exact hconsumer
    | exact hproducer.elim

/-- A step of the consumer revalidates, and the consumer knows afterwards what it should. -/
theorem consumer_step (hconsumer : ConsumerAt queue thread)
    (hevent : ∀ ind, event ≠ .called (.push ind))
    (hstep : QueueStep queue thread event queue' thread') :
    revalidates queue event ∧ ConsumerAt queue' thread' := by
  cases hstep with
  | called call =>
    cases call with
    | push ind => exact absurd rfl (hevent ind)
    | take => exact ⟨trivial, trivial⟩
  | progressed hprogress =>
    refine ⟨trivial, ?_⟩
    cases hprogress with
    | takeTail => exact rfl
    | takeNonempty hne =>
      obtain rfl := hconsumer
      exact ⟨rfl, hne⟩
    | takeReady hready =>
      obtain ⟨rfl, hne⟩ := hconsumer
      exact ⟨rfl, hne, hready⟩
    | _ => first
      | exact trivial
      | exact hconsumer
  | removed => exact ⟨hconsumer.2, rfl⟩
  | _ => first
    | exact ⟨trivial, hconsumer⟩
    | exact ⟨trivial, trivial⟩
    | exact hconsumer.elim

/-- What the producer knows stays true when the consumer takes a step. -/
theorem ProducerAt.of_consumer_step (hproducer : ProducerAt queue (threads .producer))
    (hconsumer : ConsumerAt queue thread) (hhead : queue.head < queue.length)
    (htail : queue.tail < queue.length)
    (hstep : QueueStep queue thread event queue' thread') :
    ProducerAt queue' (threads .producer) := by
  generalize threads .producer = pusher at hproducer
  cases hstep with
  | removed =>
    obtain ⟨-, hne, -⟩ := hconsumer
    have hmod := mod_eq_next htail
    have hspan := span_next_tail htail hhead hne.symm
    unfold ProducerAt at hproducer ⊢
    split at hproducer
    · refine ⟨hproducer.1, ?_⟩
      simp only [hmod]
      omega
    · exact hproducer
    · refine ⟨hproducer.1, fun hfull ↦ ?_⟩
      simp only [hmod, mod_eq_next hhead] at hfull
      have hlast := (next_head_eq_tail_iff (next_lt htail) hhead).mp hfull
      have hlt := span_lt htail hhead
      omega
    · exact hproducer
    · exact trivial
  | _ => first
    | exact hproducer
    | exact hconsumer.elim

end Knowledge

/-- One producer and one consumer whose steps revalidate. -/
def PairedRevalidated : Guard Side McmpSetQueue QueueThread QueueEvent :=
  fun history config side event ↦
    Paired history config side event ∧ Revalidated history config side event

/-- Every step of a run of one producer and one consumer revalidates, and both know along the run
what they should. -/
theorem paired_revalidated {length : ℕ} {items : ℕ → ℕ} (hlength : 2 ≤ length)
    {history : List (Side × QueueEvent)} {config : Config Side McmpSetQueue QueueThread}
    (hrun : QueueRun Paired (emptyQueue length items) history config) :
    QueueRun PairedRevalidated (emptyQueue length items) history config ∧
      ProducerAt config.shared (config.threads .producer) ∧
      ConsumerAt config.shared (config.threads .consumer) := by
  refine Run.strengthen (fun _ config ↦ ProducerAt config.shared (config.threads .producer) ∧
    ConsumerAt config.shared (config.threads .consumer)) ?_ ?_ hrun
  · exact ⟨trivial, trivial⟩
  rintro history config side event queue' thread' hpast ⟨hproducer, hconsumer⟩ hpaired hprogram
  obtain ⟨hconsistent, -⟩ := revalidated_consistent (by omega)
    (hpast.mono fun _ _ _ _ hguard ↦ hguard.2)
  have hstep := run_queueStep hpast hprogram
  cases side with
  | producer =>
    have hsize : 2 ≤ config.shared.length := (run_sizes hpast).1 ▸ hlength
    have hevent : event ≠ .called .take := by
      rintro rfl
      exact Side.noConfusion hpaired
    obtain ⟨hrevalidates, hproducer'⟩ :=
      producer_step hconsistent hproducer hconsumer hsize hevent hstep
    refine ⟨⟨hpaired, hrevalidates⟩, ?_, ?_⟩
    · simpa using hproducer'
    · simpa using hconsumer.of_producer_step hproducer hstep
  | consumer =>
    have hevent : ∀ ind, event ≠ .called (.push ind) := by
      rintro ind rfl
      exact Side.noConfusion hpaired
    obtain ⟨hrevalidates, hconsumer'⟩ := consumer_step hconsumer hevent hstep
    refine ⟨⟨hpaired, hrevalidates⟩, ?_, ?_⟩
    · simpa using
        hproducer.of_consumer_step hconsumer hconsistent.head_lt hconsistent.tail_lt hstep
    · simpa using hconsumer'

/-! ### First in, first out -/

/-- The index of a reservation. -/
def reservedInd : QueueEvent → Option ℕ
  | .reserved _ ind => some ind
  | _ => none

/-- The index of a Push that was accepted. -/
def acceptedInd : QueueEvent → Option ℕ
  | .pushReturned ind .success => some ind
  | _ => none

theorem acceptedInd_eq_none {ind : ℕ} {status : Mcmpst} (hstatus : status ≠ .success) :
    acceptedInd (.pushReturned ind status) = none := by
  cases status with
  | success => exact absurd rfl hstatus
  | _ => rfl

/-- The index that a Take has delivered. -/
def deliveredInd : QueueEvent → Option ℕ
  | .delivered _ ind => some ind
  | _ => none

/-- The indices of the events of one kind in a history, in order. -/
def inds {ι : Type*} (kind : QueueEvent → Option ℕ) (history : List (ι × QueueEvent)) : List ℕ :=
  history.filterMap fun entry ↦ kind entry.2

theorem inds_concat {ι : Type*} (kind : QueueEvent → Option ℕ) (history : List (ι × QueueEvent))
    (side : ι) (event : QueueEvent) :
    inds kind (history ++ [(side, event)]) = inds kind history ++ (kind event).toList := by
  rw [inds, List.filterMap_append, inds]
  cases hkind : kind event <;> simp [hkind]

/-- The index that a Push has reserved a cell for. -/
def pushing : Role → Option ℕ
  | .filling ind _ => some ind
  | .publishing ind _ => some ind
  | _ => none

/-- The items as they will be when the index of a role is stored in its cell. -/
def overlay (items : ℕ → ℕ) : Role → ℕ → ℕ
  | .filling ind index => Function.update items index ind
  | _ => items

/-- The indices of the reservations are the accepted ones and the one being pushed, and they are the
delivered ones, the one being delivered and those in the ring. -/
structure Fifo (history : List (Side × QueueEvent)) (ring : Ring) (producer consumer : Role) :
    Prop where
  accepted : inds reservedInd history = inds acceptedInd history ++ (pushing producer).toList
  delivered : inds reservedInd history = inds deliveredInd history ++
    ((consumer.delivering ring.items).toList ++ ring.cells.map (overlay ring.items producer))

section FifoSteps

variable {history : List (Side × QueueEvent)} {event : QueueEvent}
  {ring ring' : Ring} {producer producer' consumer consumer' role' : Role} {pending : Set ℕ}
  {roles : Side → Role}

/-- A step keeps the order when what it reserves goes to the end of both lists and what it accepts
and delivers leaves them at the front. -/
theorem Fifo.concat (side : Side) (hfifo : Fifo history ring producer consumer)
    (haccepted : (pushing producer).toList ++ (reservedInd event).toList =
      (acceptedInd event).toList ++ (pushing producer').toList)
    (hdelivered : (consumer.delivering ring.items).toList ++
        ring.cells.map (overlay ring.items producer) ++ (reservedInd event).toList =
      (deliveredInd event).toList ++ ((consumer'.delivering ring'.items).toList ++
        ring'.cells.map (overlay ring'.items producer'))) :
    Fifo (history ++ [(side, event)]) ring' producer' consumer' where
  accepted := by
    rw [inds_concat, inds_concat, hfifo.accepted, List.append_assoc, haccepted, List.append_assoc]
  delivered := by
    rw [inds_concat, inds_concat, hfifo.delivered, List.append_assoc, hdelivered,
      List.append_assoc]

/-- A step of the producer keeps the order. -/
theorem Fifo.producer_step (side : Side)
    (hfifo : Fifo history ring (roles .producer) (roles .consumer))
    (hconsistent : Consistent pending ring roles) (hcareful : careful ring event)
    (hdrains : role'.drains = none) (heffect : Effect ring (roles .producer) event ring' role') :
    Fifo (history ++ [(side, event)]) ring' role' (roles .consumer) := by
  generalize hproducer : roles .producer = producer at hfifo heffect
  cases heffect with
  | @reserved ind =>
    apply hfifo.concat side rfl
    have hsame : ring.cells.map (overlay ring.items (.filling ind ring.head)) =
        ring.cells.map ring.items := by
      refine List.map_congr_left fun index hcell ↦ Function.update_of_ne ?_ _ _
      rintro rfl
      exact hconsistent.head_notMem hcell
    rw [hconsistent.cells_reserved hcareful.1, List.map_append, hsame]
    simp [overlay, reservedInd, deliveredInd]
  | @stored ind index =>
    apply hfifo.concat side rfl
    have hclear := (hconsistent.mem_of_fills hproducer rfl).2
    have hread : (roles .consumer).delivering (Function.update ring.items index ind) =
        (roles .consumer).delivering ring.items := by
      refine Role.delivering_congr fun cell hrole ↦ Function.update_of_ne ?_ _ _
      rintro rfl
      exact hclear (hconsistent.mem_of_drains hrole rfl).1
    simp [hread, overlay, reservedInd, deliveredInd, Ring.cells]
  | published =>
    exact hfifo.concat side rfl (by simp [overlay, reservedInd, deliveredInd, Ring.cells])
  | removed => simp [Role.drains] at hdrains
  | delivered => simp [Role.drains] at hdrains
  | unclaimed => simp [Role.drains] at hdrains
  | @refused ind status hstatus hpresent =>
    exact hfifo.concat side (by simp [acceptedInd_eq_none hstatus, reservedInd, pushing])
      (by simp [reservedInd, deliveredInd])
  | _ =>
    exact hfifo.concat side (by simp [pushing, reservedInd, acceptedInd])
      (by simp [overlay, reservedInd, deliveredInd, Ring.cells])

/-- A step of the consumer keeps the order. -/
theorem Fifo.consumer_step (side : Side)
    (hfifo : Fifo history ring (roles .producer) (roles .consumer))
    (hconsistent : Consistent pending ring roles) (hcareful : careful ring event)
    (hfills : (roles .consumer).fills = none) (hfills' : role'.fills = none)
    (heffect : Effect ring (roles .consumer) event ring' role') :
    Fifo (history ++ [(side, event)]) ring' (roles .producer) role' := by
  generalize hconsumer : roles .consumer = consumer at hfifo heffect hfills
  cases heffect with
  | reserved => simp [Role.fills] at hfills'
  | stored => simp [Role.fills] at hfills
  | published => simp [Role.fills] at hfills
  | removed =>
    apply hfifo.concat side (by simp [reservedInd, acceptedInd])
    have htail : overlay ring.items (roles .producer) ring.tail = ring.items ring.tail := by
      cases hproducer : roles .producer with
      | filling ind index =>
        refine Function.update_of_ne ?_ _ _
        rintro rfl
        exact (hconsistent.mem_of_fills hproducer rfl).2 hcareful.2
      | _ => rfl
    rw [hconsistent.cells_eq_cons hcareful.1, List.map_cons, htail]
    simp [Role.delivering, reservedInd, deliveredInd]
  | delivered =>
    exact hfifo.concat side (by simp [reservedInd, acceptedInd])
      (by simp [Role.delivering, reservedInd, deliveredInd])
  | @refused ind status hstatus hpresent =>
    exact hfifo.concat side (by simp [acceptedInd_eq_none hstatus, reservedInd])
      (by simp [reservedInd, deliveredInd])
  | _ =>
    exact hfifo.concat side (by simp [reservedInd, acceptedInd])
      (by simp [Role.delivering, reservedInd, deliveredInd, Ring.cells])

end FifoSteps

/-- Along every run of one producer and one consumer the order is kept. -/
theorem paired_fifo {length : ℕ} {items : ℕ → ℕ} (hlength : 2 ≤ length)
    {history : List (Side × QueueEvent)} {config : Config Side McmpSetQueue QueueThread}
    (hrun : QueueRun Paired (emptyQueue length items) history config) :
    Fifo history (ringOf config.shared) (roleOf (config.threads .producer))
      (roleOf (config.threads .consumer)) := by
  induction (paired_revalidated hlength hrun).1 with
  | start =>
    exact ⟨rfl, by simp [inds, initially, emptyQueue, roleOf, ringOf, Ring.cells, Role.delivering]⟩
  | @step history config side event queue' thread' hpast hguard hprogram ih =>
    obtain ⟨hpaired, hrevalidates⟩ := hguard
    have hsofar : QueueRun Paired (emptyQueue length items) history config :=
      hpast.mono fun _ _ _ _ hguard ↦ hguard.1
    obtain ⟨-, -, hconsumer⟩ := paired_revalidated hlength hsofar
    obtain ⟨-, hproducer', hconsumer'⟩ :=
      paired_revalidated hlength (hsofar.step hpaired hprogram)
    obtain ⟨hconsistent, -⟩ := revalidated_consistent (by omega)
      (hpast.mono fun _ _ _ _ hguard ↦ hguard.2)
    have hstep := run_queueStep hpast hprogram
    have hcareful := careful_of_revalidates hstep hrevalidates
    cases side with
    | producer =>
      rw [Config.advance_threads_self] at hproducer'
      simpa using Fifo.producer_step .producer (ih hsofar) hconsistent hcareful
        hproducer'.drains_eq_none (effect_of_queueStep hstep)
    | consumer =>
      rw [Config.advance_threads_self] at hconsumer'
      simpa using Fifo.consumer_step .consumer (ih hsofar) hconsistent hcareful
        hconsumer.fills_eq_none hconsumer'.fills_eq_none (effect_of_queueStep hstep)

/-! ### Calls that fail -/

/-- The event adds an index to the ring or removes one from it, or it is one of the changes that
come with that. -/
def movesElement : QueueEvent → Bool
  | .reserved _ _ => true
  | .stored _ _ => true
  | .pushReturned _ .success => true
  | .removed _ => true
  | .delivered _ _ => true
  | .unclaimed _ => true
  | .takeReturned (some _) _ => true
  | _ => false

/-- The event is the return of a call with `MCMPST_RETRYOP`, `MCMPST_ALROP` or `MCMPST_OVERFLOW`. -/
def failsCall : QueueEvent → Bool
  | .pushReturned _ status => status ∈ [.retryop, .alrop, .overflow]
  | .takeReturned _ status => status ∈ [.retryop, .alrop, .overflow]
  | _ => false

/-- A thread that is past a reservation or a removal, or outside any call. -/
def Committed (thread : QueueThread) : Prop :=
  thread = .idle ∨ (roleOf thread).fills ≠ none ∨ (roleOf thread).drains ≠ none

section Failing

variable {queue queue' : McmpSetQueue} {thread thread' : QueueThread} {event : QueueEvent}

/-- An access of which nothing is recorded is made inside a call and leaves the role as it is. -/
theorem progress_keeps_role (hprogress : Progress queue thread thread') :
    thread ≠ .idle ∧ roleOf thread' = roleOf thread := by
  cases hprogress <;> exact ⟨by simp, rfl⟩

/-- A step that moves no element leaves head, tail, the ready bits and the items as they are. -/
theorem frame_of_not_movesElement (hstep : QueueStep queue thread event queue' thread')
    (hevent : movesElement event = false) :
    queue'.head = queue.head ∧ queue'.tail = queue.tail ∧ queue'.ready = queue.ready ∧
      queue'.items = queue.items := by
  cases hstep <;> first
    | exact ⟨rfl, rfl, rfl, rfl⟩
    | exact Bool.noConfusion hevent

/-- A step that moves an element leaves its thread committed, and so does every step of a committed
thread inside a call. -/
theorem committed_of_queueStep (hstep : QueueStep queue thread event queue' thread')
    (hmoves : movesElement event = true ∨ Committed thread ∧ ∀ call, event ≠ .called call) :
    Committed thread' := by
  cases hstep with
  | called call =>
    obtain hmoves | ⟨-, hcall⟩ := hmoves
    · exact Bool.noConfusion hmoves
    · exact absurd rfl (hcall call)
  | progressed hprogress =>
    obtain hmoves | ⟨hcommitted, -⟩ := hmoves
    · exact Bool.noConfusion hmoves
    · obtain ⟨hinside, hrole⟩ := progress_keeps_role hprogress
      apply Or.inr
      rw [hrole]
      exact hcommitted.resolve_left hinside
  | claimed hind hclear =>
    obtain hmoves | ⟨hcommitted, -⟩ := hmoves
    · exact Bool.noConfusion hmoves
    · simp [Committed, roleOf, Role.fills, Role.drains] at hcommitted
  | _ => simp [Committed, roleOf, Role.fills, Role.drains]

/-- A call that fails is not committed when it returns. -/
theorem not_committed_of_failsCall (hstep : QueueStep queue thread event queue' thread')
    (hfails : failsCall event = true) : ¬ Committed thread ∧ movesElement event = false := by
  cases hstep with
  | tooLarge _ => exact ⟨by simp [Committed, roleOf, Role.fills, Role.drains], rfl⟩
  | present _ => exact ⟨by simp [Committed, roleOf, Role.fills, Role.drains], rfl⟩
  | claimLost => exact ⟨by simp [Committed, roleOf, Role.fills, Role.drains], rfl⟩
  | rolledBack => exact ⟨by simp [Committed, roleOf, Role.fills, Role.drains], rfl⟩
  | notReady _ => exact ⟨by simp [Committed, roleOf, Role.fills, Role.drains], rfl⟩
  | _ => simp [failsCall] at hfails

variable {ι : Type*} [DecidableEq ι] {guard : Guard ι McmpSetQueue QueueThread QueueEvent}
  {history : List (ι × QueueEvent)} {config : Config ι McmpSetQueue QueueThread}

/-- A thread that has moved an element since its last call is committed. -/
theorem committed_of_since (hrun : QueueRun guard queue history config) (who : ι)
    (hsince : Since history (fun thread event ↦ thread = who ∧ movesElement event = true)
      fun thread event ↦ thread = who ∧ ∃ call, event = .called call) :
    Committed (config.threads who) := by
  revert hsince
  refine Run.invariant (fun history config ↦
    Since history (fun thread event ↦ thread = who ∧ movesElement event = true)
      (fun thread event ↦ thread = who ∧ ∃ call, event = .called call) →
    Committed (config.threads who)) ?_ ?_ hrun
  · exact fun hsince ↦ absurd hsince (not_since_nil _ _)
  · intro history config thread event queue' thread' hpast ih _ hprogram hsince
    have hstep := run_queueStep hpast hprogram
    rw [since_concat] at hsince
    by_cases hthread : thread = who
    · subst hthread
      rw [Config.advance_threads_self]
      apply committed_of_queueStep hstep
      rcases hsince with ⟨-, hmoves⟩ | ⟨hbefore, hcall⟩
      · exact Or.inl hmoves
      · exact Or.inr ⟨ih hbefore, fun call hevent ↦ hcall ⟨rfl, call, hevent⟩⟩
    · rw [Config.advance_threads_of_ne config (Ne.symm hthread)]
      rcases hsince with ⟨hsame, -⟩ | ⟨hbefore, -⟩
      · exact absurd hsame hthread
      · exact ih hbefore

/-- The steps of a call that fails move no element. -/
theorem failing_call_moves_nothing {before middle after : List (ι × QueueEvent)} {who : ι}
    {call : QueueCall} {ret : QueueEvent}
    (hrun : QueueRun guard queue
      (before ++ (who, .called call) :: middle ++ (who, ret) :: after) config)
    (hmiddle : ∀ entry ∈ middle, entry.1 = who → ∀ call, entry.2 ≠ .called call)
    (hfails : failsCall ret = true) :
    ∀ entry ∈ (who, ret) :: middle, entry.1 = who → movesElement entry.2 = false := by
  obtain ⟨config', queue', thread', hpast, -, hprogram⟩ := hrun.cut
  obtain ⟨hcommitted, hret⟩ := not_committed_of_failsCall (run_queueStep hpast hprogram) hfails
  rintro ⟨thread, event⟩ hentry rfl
  rcases List.mem_cons.mp hentry with hlast | hinside
  · obtain ⟨-, rfl⟩ := Prod.mk.inj hlast
    exact hret
  · rw [← Bool.not_eq_true]
    intro hmoves
    obtain ⟨early, late, rfl⟩ := List.append_of_mem hinside
    refine hcommitted (committed_of_since hpast thread ?_)
    refine ⟨before ++ (thread, .called call) :: early, thread, event, late, by simp, ⟨rfl, hmoves⟩,
      ?_⟩
    rintro entry hentry ⟨hwho, hcall, hevent⟩
    exact hmiddle entry (by simp [hentry]) hwho hcall hevent

end Failing

/-! ### What the two threads can rely on -/

/-- The delivered indices are a prefix of the accepted ones. -/
theorem delivered_prefix_accepted {history : List (Side × QueueEvent)} {ring : Ring}
    {roles : Side → Role} {pending : Set ℕ} (hconsistent : Consistent pending ring roles)
    (hfifo : Fifo history ring (roles .producer) (roles .consumer)) :
    inds deliveredInd history <+: inds acceptedInd history := by
  have hdelivered : inds deliveredInd history <+: inds reservedInd history := by
    rw [hfifo.delivered]
    exact List.prefix_append _ _
  have haccepted : inds acceptedInd history <+: inds reservedInd history := by
    rw [hfifo.accepted]
    exact List.prefix_append _ _
  apply List.prefix_of_prefix_length_le hdelivered haccepted
  have hlength := congrArg List.length (hfifo.accepted.symm.trans hfifo.delivered)
  simp only [List.length_append, List.length_map] at hlength
  -- a Push that is not accepted yet has a cell of the ring
  have hpushing : (pushing (roles .producer)).toList.length ≤ ring.cells.length := by
    cases hrole : roles .producer with
    | filling ind index =>
      exact List.length_pos_of_mem (hconsistent.mem_of_fills hrole rfl).1
    | publishing ind index =>
      exact List.length_pos_of_mem (hconsistent.mem_of_fills hrole rfl).1
    | _ => exact Nat.zero_le _
  omega

/-- What the history of one producer and one consumer guarantees: the indices are delivered in the
order in which they were accepted, which is that of the reservations; a Take returns that the queue
is empty only when all that was accepted before it began is delivered; and a call that fails moves
no element. -/
structure PairOrder (history : List (Side × QueueEvent)) : Prop where
  order : inds deliveredInd history <+: inds acceptedInd history
  reservation_order : inds acceptedInd history <+: inds reservedInd history
  empty : ∀ before middle after, history = before ++ (.consumer, .called .take) :: middle ++
      (.consumer, .takeReturned none .isempty) :: after →
    inds acceptedInd before <+: inds deliveredInd (before ++ (.consumer, .called .take) :: middle)
  failing : ∀ before middle after side call ret,
    history = before ++ (side, .called call) :: middle ++ (side, ret) :: after →
    (∀ entry ∈ middle, entry.1 = side → ∀ call, entry.2 ≠ .called call) → failsCall ret = true →
      ∀ entry ∈ (side, ret) :: middle, entry.1 = side → movesElement entry.2 = false

section Pair

variable {length : ℕ} {items : ℕ → ℕ} {history : List (Side × QueueEvent)}
  {config : Config Side McmpSetQueue QueueThread}

/-- The ring of one producer and one consumer is consistent. -/
theorem paired_consistent (hlength : 2 ≤ length)
    (hrun : QueueRun Paired (emptyQueue length items) history config) :
    Consistent {ind | Pending history ind} (ringOf config.shared) (roleOf ∘ config.threads) := by
  have hrevalidated : QueueRun Revalidated (emptyQueue length items) history config :=
    (paired_revalidated hlength hrun).1.mono fun _ _ _ _ hguard ↦ hguard.2
  exact (revalidated_consistent (by omega) hrevalidated).1

/-- The history of one producer and one consumer of a queue of any length from two on, under every
interleaving. -/
theorem paired_order (hlength : 2 ≤ length)
    (hrun : QueueRun Paired (emptyQueue length items) history config) : PairOrder history := by
  have hfifo := paired_fifo hlength hrun
  refine ⟨delivered_prefix_accepted (paired_consistent hlength hrun) hfifo, ?_, ?_, ?_⟩
  · rw [hfifo.accepted]
    exact List.prefix_append _ _
  · rintro before middle after rfl
    obtain ⟨config', queue', thread', hpast, -, hprogram⟩ := hrun.cut
    have hfifo' := paired_fifo hlength hpast
    obtain ⟨-, -, hconsumer⟩ := paired_revalidated hlength hpast
    have hstep := run_queueStep hpast hprogram
    generalize hthread : config'.threads .consumer = thread at hstep hconsumer
    cases hstep with
    | empty =>
      have hsame : config'.shared.head = config'.shared.tail := hconsumer
      have hcells : (ringOf config'.shared).cells = [] := by simp [Ring.cells, ringOf, hsame]
      have hall := hfifo'.delivered
      rw [hthread, hcells] at hall
      simp only [roleOf, Role.delivering, Option.toList_none, List.map_nil, List.append_nil] at hall
      have hearly : inds acceptedInd before <+:
          inds acceptedInd (before ++ (.consumer, .called .take) :: middle) := by
        simp [inds, List.filterMap_append]
      apply hearly.trans
      rw [← hall, hfifo'.accepted]
      exact List.prefix_append _ _
  · rintro before middle after side call ret rfl hmiddle hfails
    exact failing_call_moves_nothing hrun hmiddle hfails

/-- When no call is in progress, the ring holds the accepted indices that are left to deliver, in
cells that are ready, and they are the members. -/
theorem paired_quiet (hlength : 2 ≤ length)
    (hrun : QueueRun Paired (emptyQueue length items) history config)
    (hidle : ∀ side, config.threads side = .idle) :
    inds acceptedInd history = inds deliveredInd history ++ config.shared.ringItems ∧
      (∀ index ∈ (ringOf config.shared).cells, bit config.shared.ready index = true) ∧
      config.shared.ringItems.Nodup ∧
      ∀ ind, bit config.shared.values ind = true ↔ ind ∈ config.shared.ringItems := by
  have hfifo := paired_fifo hlength hrun
  obtain ⟨hready, hnodup, hmembers, -⟩ :=
    consistent_quiet (paired_consistent hlength hrun) fun side ↦ by simp [hidle, roleOf]
  have haccepted := hfifo.accepted
  have hdelivered := hfifo.delivered
  simp only [hidle, roleOf, pushing, overlay, Role.delivering, Option.toList_none,
    List.append_nil, List.nil_append] at haccepted hdelivered
  exact ⟨haccepted.symm.trans hdelivered, hready, hnodup, hmembers⟩

end Pair

end Mcmp.Utilities.SetQueuePair
