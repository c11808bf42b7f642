import Mcmp.Utilities.SetQueueProtocol

/-!
# A set queue shared by many threads

What any number of producers and consumers can rely on. `RingHoldsPending` says of a state in which
no call is in progress that the ring holds exactly the indices that were accepted and not delivered
since. It can fail: a Push that finds the cell after the head to be the tail goes on when the ready
bit of the tail is clear, as it is while the Push that reserved that cell has not published it, and
moves the head onto the tail, so that a full ring looks like an empty one. It holds in every run in
which the conditions that the calls test are still true when the compare-exchange that relies on
them succeeds (`Revalidated`, `revalidated_ringHoldsPending`).

A Push that is answered `MCMPST_ALROP` has seen the membership bit of its index set by another
thread. The other thread may be a Push that is about to find no room and to clear the bit again, so
the index that was said to be queued is forgotten. It is delivered or stays in the ring in every
revalidated run in which no membership bit is rolled back after a Push was answered on the strength
of it (`revalidated_alropKept`).
-/

set_option autoImplicit false
set_option relaxedAutoImplicit false

namespace Mcmp.Utilities.SetQueueShared

open Foundation.ByteBits Foundation.ExclusiveHolders Foundation.Interleaving SetQueue
  SetQueueProtocol

variable {ι : Type*} [DecidableEq ι]

/-! ### Careful runs of the protocol -/

/-- The effects as a program on rings. -/
def ringProgram : Program Ring Role QueueEvent := Effect

/-- Every step of the run is a careful one. -/
def Careful : Guard ι Ring Role QueueEvent := fun _ config _ event ↦ careful config.shared event

/-- The ring of a queue of a length that was just created. -/
def freshRing (length : ℕ) (items : ℕ → ℕ) : Ring := ⟨length, 0, 0, ∅, ∅, items⟩

omit [DecidableEq ι] in
theorem consistent_freshRing {length : ℕ} (hlength : 1 ≤ length) (items : ℕ → ℕ) :
    Consistent ∅ (freshRing length items) (fun _ : ι ↦ Role.none) where
  head_lt := hlength
  tail_lt := hlength
  filled := by
    have hset : {index | index ∈ (freshRing length items).cells ∧ index ∉ (∅ : Set ℕ)} = ∅ := by
      simp [Ring.cells, freshRing]
    exact hset ▸ Exclusive.of_none fun _ ↦ rfl
  drained := by
    have hset : {index | index ∈ (∅ : Set ℕ) ∧ index ∉ (freshRing length items).cells} = ∅ := by
      simp
    exact hset ▸ Exclusive.of_none fun _ ↦ rfl
  held := by
    apply Exclusive.of_none
    intro holder
    cases holder with
    | inl thread => rfl
    | inr cell => simp [Ring.holding, Ring.cellItem, freshRing]
  offered := by
    apply Exclusive.of_none
    intro holder
    cases holder with
    | inl thread => rfl
    | inr cell => simp [Ring.offering, Ring.cellItem, freshRing]
  stored hrole := by simp at hrole

/-- Along every careful run the ring is consistent, and the deliveries of an index balance its
acceptances. -/
theorem careful_run {length : ℕ} (hlength : 1 ≤ length) {items : ℕ → ℕ}
    {history : List (ι × QueueEvent)} {config : Config ι Ring Role}
    (hrun : Run ringProgram Careful ⟨freshRing length items, fun _ ↦ .none⟩ history config) :
    Consistent {ind | Pending history ind} config.shared config.threads ∧
      ∀ ind, DeliveriesBalanced history ind := by
  refine Run.invariant (fun history config ↦
    Consistent {ind | Pending history ind} config.shared config.threads ∧
      ∀ ind, DeliveriesBalanced history ind) ?_ ?_ hrun
  · have hnone : ∀ ind, ¬ Pending ([] : List (ι × QueueEvent)) ind := fun ind ↦ not_since_nil _ _
    have hempty : {ind | Pending ([] : List (ι × QueueEvent)) ind} = ∅ := by simp [hnone]
    refine ⟨hempty ▸ consistent_freshRing hlength items, fun ind ↦ ?_⟩
    simp [DeliveriesBalanced, hnone]
  · rintro history config thread event ring' role' - ⟨hconsistent, hbalanced⟩ hcareful heffect
    refine ⟨?_, fun ind ↦ ?_⟩
    · rw [pending_concat]
      exact hconsistent.step hcareful heffect
    · obtain ⟨haccepts, hdelivers⟩ := hconsistent.alternates ind heffect
      exact (hbalanced ind).concat haccepts hdelivers

omit [DecidableEq ι] in
/-- When no thread holds anything, the cells of the ring are ready and hold different indices, which
are the members and the pending indices. -/
theorem consistent_quiet {pending : Set ℕ} {ring : Ring} {roles : ι → Role}
    (h : Consistent pending ring roles) (hquiet : ∀ thread, roles thread = .none) :
    (∀ index ∈ ring.cells, index ∈ ring.ready) ∧ (ring.cells.map ring.items).Nodup ∧
      (∀ ind, ind ∈ ring.members ↔ ind ∈ ring.cells.map ring.items) ∧
      ∀ ind, ind ∈ pending ↔ ind ∈ ring.cells.map ring.items := by
  have hready : ∀ index ∈ ring.cells, index ∈ ring.ready := by
    intro index hcell
    by_contra hclear
    have hempty := h.filled.eq_empty_of_none fun thread ↦ by simp [hquiet, Role.fills]
    have hmem : index ∈ {index | index ∈ ring.cells ∧ index ∉ ring.ready} := ⟨hcell, hclear⟩
    rw [hempty] at hmem
    exact hmem
  have hitem : ∀ index ∈ ring.cells, ring.cellItem index = some (ring.items index) :=
    fun index hcell ↦ Ring.cellItem_of_mem hcell (hready index hcell)
  have hcell : ∀ ind, (∃ index, ring.cellItem index = some ind) ↔
      ind ∈ ring.cells.map ring.items := by
    intro ind
    simp only [Ring.cellItem_eq_some, List.mem_map]
    constructor
    · rintro ⟨index, ⟨hcell, -⟩, hvalue⟩
      exact ⟨index, hcell, hvalue⟩
    · rintro ⟨index, hcell, hvalue⟩
      exact ⟨index, ⟨hcell, hready index hcell⟩, hvalue⟩
  refine ⟨hready, ?_, fun ind ↦ ?_, fun ind ↦ ?_⟩
  · refine List.Nodup.map_on (fun index hindex other hother hsame ↦ ?_) h.nodup_cells
    have hheld := hitem other hother
    rw [← hsame] at hheld
    exact Sum.inr.inj (h.held.injective (a := .inr index) (b := .inr other)
      (hitem index hindex) hheld)
  · rw [h.held.mem_iff, ← hcell]
    simp [Ring.holding, hquiet, Role.member]
  · rw [h.offered.mem_iff, ← hcell]
    simp [Ring.offering, hquiet, Role.delivering]

omit [DecidableEq ι] in
/-- When the ring is empty, a pending index is in a cell that a thread has removed and not read. -/
theorem consistent_empty {pending : Set ℕ} {ring : Ring} {roles : ι → Role} {ind : ℕ}
    (h : Consistent pending ring roles) (hempty : ring.head = ring.tail)
    (hpending : ind ∈ pending) :
    ∃ thread index, roles thread = .reading index ∧ ring.items index = ind := by
  obtain ⟨holder, hholder⟩ := (h.offered.mem_iff ind).mp hpending
  cases holder with
  | inl thread =>
    have hthread : (roles thread).delivering ring.items = some ind := hholder
    cases hrole : roles thread with
    | reading index =>
      rw [hrole] at hthread
      exact ⟨thread, index, hrole, Option.some.inj hthread⟩
    | _ => simp [hrole, Role.delivering] at hthread
  | inr index =>
    have hcell := (Ring.cellItem_eq_some.mp hholder).1.1
    simp [Ring.cells, hempty] at hcell

/-! ### Revalidated runs of the set queue -/

/-- The tests of a call are still true at the compare-exchange that relies on them. When a Push
reserves the head cell, the cell after it is not the tail and the head cell is not ready; when a
Take removes the tail cell, it is not the head and it is ready. -/
def revalidates (queue : McmpSetQueue) : QueueEvent → Prop
  | .reserved _ _ => (queue.head + 1) % queue.length ≠ queue.tail ∧
      bit queue.ready queue.head = false
  | .removed _ => queue.tail ≠ queue.head ∧ bit queue.ready queue.tail = true
  | _ => True

instance (queue : McmpSetQueue) (event : QueueEvent) : Decidable (revalidates queue event) := by
  unfold revalidates
  split <;> infer_instance

/-- Every step of the run revalidates. -/
def Revalidated : Guard ι McmpSetQueue QueueThread QueueEvent := fun _ config _ event ↦
  revalidates config.shared event

omit [DecidableEq ι] in
instance (history : List (ι × QueueEvent)) (config : Config ι McmpSetQueue QueueThread)
    (thread : ι) (event : QueueEvent) : Decidable (Revalidated history config thread event) :=
  inferInstanceAs (Decidable (revalidates config.shared event))

/-- A step that revalidates is careful. -/
theorem careful_of_revalidates {queue queue' : McmpSetQueue} {thread thread' : QueueThread}
    {event : QueueEvent} (hstep : QueueStep queue thread event queue' thread')
    (hrevalidates : revalidates queue event) : careful (ringOf queue) event := by
  cases hstep with
  | reserved => exact ⟨hrevalidates.1, by simp [ringOf, hrevalidates.2]⟩
  | removed => exact hrevalidates
  | _ => exact trivial

/-- The runs of a queue are runs of the protocol, under any guard that the steps meet. -/
theorem run_view {guard : Guard ι McmpSetQueue QueueThread QueueEvent}
    {guard' : Guard ι Ring Role QueueEvent}
    (hguard : ∀ history config thread event queue' thread', guard history config thread event →
      QueueStep config.shared (config.threads thread) event queue' thread' →
      guard' history (config.view ringOf roleOf) thread event)
    {length : ℕ} {items : ℕ → ℕ} {history : List (ι × QueueEvent)}
    {config : Config ι McmpSetQueue QueueThread}
    (hrun : QueueRun guard (emptyQueue length items) history config) :
    Run ringProgram guard' ⟨freshRing length items, fun _ ↦ .none⟩ history
      (config.view ringOf roleOf) := by
  have hsimulated : Run ringProgram guard' _ history _ := hrun.simulation ringOf roleOf
    fun history config thread event queue' thread' hpast hstep hprogram ↦
      ⟨hguard _ _ _ _ _ _ hstep (run_queueStep hpast hprogram),
        effect_of_queueStep (run_queueStep hpast hprogram)⟩
  have hstart : (initially ι (emptyQueue length items)).view ringOf roleOf =
      ⟨freshRing length items, fun _ ↦ .none⟩ := by
    simp only [Config.view, initially, emptyQueue, ringOf, freshRing, bitSet_zero]
    rfl
  rwa [hstart] at hsimulated

/-- Along every revalidated run the ring is consistent, and the deliveries of an index balance its
acceptances. -/
theorem revalidated_consistent {length : ℕ} {items : ℕ → ℕ} (hlength : 1 ≤ length)
    {history : List (ι × QueueEvent)} {config : Config ι McmpSetQueue QueueThread}
    (hrun : QueueRun Revalidated (emptyQueue length items) history config) :
    Consistent {ind | Pending history ind} (ringOf config.shared) (roleOf ∘ config.threads) ∧
      ∀ ind, DeliveriesBalanced history ind :=
  careful_run hlength (run_view (fun _ _ _ _ _ _ hrevalidates hstep ↦
    careful_of_revalidates hstep hrevalidates) hrun)

/-! ### No index is lost or delivered twice -/

/-- The ring holds exactly the pending indices, each once, in cells that are ready, and they are the
members. Every index was delivered as often as it was accepted, one time less if it is
in the ring. -/
structure RingHoldsPending (history : List (ι × QueueEvent)) (queue : McmpSetQueue) : Prop where
  pending_iff : ∀ ind, Pending history ind ↔ ind ∈ queue.ringItems
  nodup : queue.ringItems.Nodup
  ready : ∀ index ∈ (ringOf queue).cells, bit queue.ready index = true
  member : ∀ ind ∈ queue.ringItems, bit queue.values ind = true
  of_member : ∀ ind < 8 * queue.byteslength, bit queue.values ind = true → ind ∈ queue.ringItems
  balanced : ∀ ind, history.countP (fun entry ↦ accepts ind entry.2) =
    history.countP (fun entry ↦ delivers ind entry.2) + queue.ringItems.count ind

/-- In every state of a revalidated run in which no call is in progress, the ring holds exactly the
indices that were accepted and not delivered since. When a Take of a revalidated run is about to
return that the queue is empty and the tail that it loaded is still the tail, nothing is pending but
what other threads have removed from the ring and are about to read. -/
theorem revalidated_ringHoldsPending {length : ℕ} {items : ℕ → ℕ} (hlength : 1 ≤ length)
    {history : List (ι × QueueEvent)} {config : Config ι McmpSetQueue QueueThread}
    (hrun : QueueRun Revalidated (emptyQueue length items) history config) :
    ((∀ thread, config.threads thread = .idle) → RingHoldsPending history config.shared) ∧
      ∀ thread queue' thread', config.threads thread = .take (.loadHead config.shared.tail) →
        queueMachine.program config.shared (config.threads thread) (.takeReturned none .isempty)
          queue' thread' →
        ∀ ind, Pending history ind → ∃ other index,
          config.threads other = .take (.readItem index) ∧ config.shared.items index = ind := by
  obtain ⟨hconsistent, hbalanced⟩ := revalidated_consistent hlength hrun
  constructor
  · intro hidle
    obtain ⟨hready, hnodup, hmembers, hpending⟩ := consistent_quiet hconsistent fun thread ↦ by
      simp [hidle, roleOf]
    have hitems : (ringOf config.shared).cells.map (ringOf config.shared).items =
        config.shared.ringItems := rfl
    rw [hitems] at hnodup hmembers hpending
    refine ⟨hpending, hnodup, hready, fun ind ↦ (hmembers ind).mpr,
      fun ind _ ↦ (hmembers ind).mp, fun ind ↦ ?_⟩
    have hcount := hbalanced ind
    unfold DeliveriesBalanced at hcount
    by_cases hind : Pending history ind
    · rw [if_pos hind] at hcount
      rw [hcount, List.count_eq_one_of_mem hnodup ((hpending ind).mp hind)]
    · rw [if_neg hind] at hcount
      rw [hcount, List.count_eq_zero.mpr (mt (hpending ind).mpr hind)]
  · intro thread queue' thread' hthread hprogram ind hind
    have hstep := run_queueStep hrun hprogram
    rw [hthread] at hstep
    have hempty : config.shared.head = config.shared.tail := by
      generalize htail : config.shared.tail = tail at hstep
      cases hstep with
      | empty => rfl
    obtain ⟨other, index, hrole, hitem⟩ := consistent_empty hconsistent hempty hind
    refine ⟨other, index, ?_, hitem⟩
    have hother : roleOf (config.threads other) = .reading index := hrole
    unfold roleOf at hother
    split at hother <;> simp_all

/-! ### The promise of `MCMPST_ALROP` -/

/-- Every index whose Push was answered that it is queued already has been delivered by a Take that
has completed since, or is in the ring. -/
def AlropKept (history : List (ι × QueueEvent)) (queue : McmpSetQueue) : Prop :=
  ∀ before thread ind after, history = before ++ (thread, .pushReturned ind .alrop) :: after →
    (∃ who, (who, .takeReturned (some ind) .success) ∈ after) ∨ ind ∈ queue.ringItems

/-- A Push of the index was answered that it is queued already, and its membership bit was not
claimed since. -/
def AnsweredSinceClaim (history : List (ι × QueueEvent)) (ind : ℕ) : Prop :=
  Since history (fun _ event ↦ event = .pushReturned ind .alrop)
    fun _ event ↦ event = .claimed ind

/-- A Push is not about to roll back a membership bit that another Push was answered with. -/
def mayRollBack (history : List (ι × QueueEvent)) : QueueThread → Prop
  | .push ind .rollBack => ¬ AnsweredSinceClaim history ind
  | _ => True

instance (history : List (ι × QueueEvent)) (thread : QueueThread) :
    Decidable (mayRollBack history thread) := by
  unfold mayRollBack AnsweredSinceClaim
  split <;> infer_instance

/-- Every step of the run revalidates, and no membership bit is rolled back after a Push was
answered with it. -/
def RevalidatedKept : Guard ι McmpSetQueue QueueThread QueueEvent :=
  fun history config thread event ↦
    Revalidated history config thread event ∧ mayRollBack history (config.threads thread)

instance (history : List (ι × QueueEvent)) (config : Config ι McmpSetQueue QueueThread)
    (thread : ι) (event : QueueEvent) : Decidable (RevalidatedKept history config thread event) :=
  inferInstanceAs (Decidable (_ ∧ _))

/-- Where an answered index is, the events since the answer being `after`: a Take that delivers it
has completed, or is about to, or it is a member and was not claimed again. -/
def Kept (ring : Ring) (roles : ι → Role) (ind : ℕ) (after : List (ι × QueueEvent)) : Prop :=
  (∃ who, (who, .takeReturned (some ind) .success) ∈ after) ∨
    (∃ thread index, roles thread = .releasing index ind) ∨
      ind ∈ ring.members ∧ ∀ who, (who, QueueEvent.claimed ind) ∉ after

/-- One effect keeps an answered index, unless it rolls its membership bit back. -/
theorem Kept.step {ring ring' : Ring} {roles : ι → Role} {role' : Role} {thread : ι}
    {event : QueueEvent} {ind : ℕ} {after : List (ι × QueueEvent)}
    (hkept : Kept ring roles ind after)
    (heffect : Effect ring (roles thread) event ring' role')
    (hrollBack : (∀ who, (who, QueueEvent.claimed ind) ∉ after) →
      ¬ (roles thread = .claiming ind ∧ event = .pushReturned ind .overflow)) :
    Kept ring' (Function.update roles thread role') ind (after ++ [(thread, event)]) := by
  rcases hkept with ⟨who, hwho⟩ | ⟨other, index, hother⟩ | ⟨hmember, hclaim⟩
  · exact Or.inl ⟨who, List.mem_append_left _ hwho⟩
  · by_cases hne : other = thread
    · subst hne
      rw [hother] at heffect
      cases heffect with
      | accessed => exact Or.inr (Or.inl ⟨other, index, Function.update_self _ _ _⟩)
      | released => exact Or.inl ⟨other, List.mem_append_right _ (List.mem_singleton.mpr rfl)⟩
    · exact Or.inr (Or.inl ⟨other, index, by rw [Function.update_of_ne hne, hother]⟩)
  · have hstay : ind ∈ ring'.members → event ≠ .claimed ind →
        Kept ring' (Function.update roles thread role') ind (after ++ [(thread, event)]) := by
      refine fun hmember' hevent ↦ Or.inr (Or.inr ⟨hmember', fun who hwho ↦ ?_⟩)
      rcases List.mem_append.mp hwho with hold | hnew
      · exact hclaim who hold
      · exact hevent (Prod.mk.inj (List.mem_singleton.mp hnew)).2.symm
    generalize hrole : roles thread = role at heffect
    cases heffect with
    | @claimed value habsent =>
      apply hstay (Set.mem_insert_of_mem _ hmember)
      rintro ⟨⟩
      exact habsent hmember
    | @rolledBack value =>
      refine hstay ⟨hmember, ?_⟩ (by simp)
      rintro rfl
      exact hrollBack hclaim ⟨hrole, rfl⟩
    | @unclaimed index value =>
      by_cases hvalue : ind = value
      · subst hvalue
        exact Or.inr (Or.inl ⟨thread, index, Function.update_self _ _ _⟩)
      · exact hstay ⟨hmember, hvalue⟩ (by simp)
    | _ => exact hstay hmember (by simp)

/-- The guard of the runs of the protocol that keep the promise. -/
def CarefulKept : Guard ι Ring Role QueueEvent := fun history config thread event ↦
  careful config.shared event ∧ ∀ ind, config.threads thread = .claiming ind →
    event = .pushReturned ind .overflow → ¬ AnsweredSinceClaim history ind

/-- Along every run of the protocol that keeps the promise, every answered index is kept. -/
theorem carefulKept_run {initial : Config ι Ring Role} {history : List (ι × QueueEvent)}
    {config : Config ι Ring Role} (hrun : Run ringProgram CarefulKept initial history config) :
    ∀ before thread ind after, history = before ++ (thread, .pushReturned ind .alrop) :: after →
      Kept config.shared config.threads ind after := by
  refine Run.invariant (fun history config ↦ ∀ before thread ind after,
    history = before ++ (thread, .pushReturned ind .alrop) :: after →
      Kept config.shared config.threads ind after) ?_ ?_ hrun
  · intro before thread ind after hhistory
    simp at hhistory
  · rintro history config thread event ring' role' - ih ⟨-, hguard⟩ heffect before answered ind
      after hhistory
    rcases split_concat hhistory with ⟨rfl, -, hlast⟩ | ⟨after, rfl, rfl⟩
    · obtain ⟨rfl, rfl⟩ := Prod.mk.inj hlast
      change Effect config.shared (config.threads answered) _ ring' role' at heffect
      generalize config.threads answered = role at heffect
      cases heffect with
      | refused hstatus hpresent => exact Or.inr (Or.inr ⟨hpresent rfl, by simp⟩)
    · refine (ih _ _ _ _ rfl).step heffect fun hclaim hrollBack ↦ ?_
      refine hguard ind hrollBack.1 hrollBack.2 ⟨before, answered, _, after, rfl, rfl, ?_⟩
      rintro ⟨who, later⟩ hlater rfl
      exact hclaim who hlater

omit [DecidableEq ι] in
/-- A step of the set queue that keeps the promise is seen as one of the protocol that does. -/
theorem carefulKept_of_revalidatedKept {history : List (ι × QueueEvent)}
    {config : Config ι McmpSetQueue QueueThread} {thread : ι} {event : QueueEvent}
    {queue' : McmpSetQueue} {thread' : QueueThread}
    (hguard : RevalidatedKept history config thread event)
    (hstep : QueueStep config.shared (config.threads thread) event queue' thread') :
    CarefulKept history (config.view ringOf roleOf) thread event := by
  refine ⟨careful_of_revalidates hstep hguard.1, ?_⟩
  rintro ind hrole rfl
  have hmay := hguard.2
  have hclaiming : roleOf (config.threads thread) = .claiming ind := hrole
  generalize config.threads thread = own at hmay hstep hclaiming
  cases hstep with
  | tooLarge _ => simp [roleOf] at hclaiming
  | rolledBack => exact hmay

/-- In every state in which no call is in progress of a revalidated run that rolls back no
membership bit after a Push was answered with it, every index whose Push was answered that it is
queued already has been delivered since or is in the ring. -/
theorem revalidated_alropKept {length : ℕ} {items : ℕ → ℕ} (hlength : 1 ≤ length)
    {history : List (ι × QueueEvent)} {config : Config ι McmpSetQueue QueueThread}
    (hrun : QueueRun RevalidatedKept (emptyQueue length items) history config)
    (hidle : ∀ thread, config.threads thread = .idle) : AlropKept history config.shared := by
  have hrevalidated : QueueRun Revalidated (emptyQueue length items) history config :=
    hrun.mono fun _ _ _ _ hguard ↦ hguard.1
  have hkept := carefulKept_run (run_view
    (fun _ _ _ _ _ _ hguard hstep ↦ carefulKept_of_revalidatedKept hguard hstep) hrun)
  obtain ⟨hconsistent, -⟩ := revalidated_consistent hlength hrevalidated
  obtain ⟨-, -, hmembers, -⟩ := consistent_quiet hconsistent fun thread ↦ by simp [hidle, roleOf]
  intro before thread ind after hhistory
  rcases hkept before thread ind after hhistory with hdelivered | ⟨other, index, hother⟩ | hmember
  · exact Or.inl hdelivered
  · simp [Config.view, hidle, roleOf] at hother
  · exact Or.inr ((hmembers ind).mp hmember.1)

end Mcmp.Utilities.SetQueueShared
