import Mathlib.Data.Sum.Basic
import Mcmp.Foundation.CyclicRange
import Mcmp.Foundation.ExclusiveHolders
import Mcmp.Utilities.SetQueue

/-!
# The protocol of the set queue

The threads that use a set queue hand cells and indices on to each other. This module states the
protocol without bytes, loads and retries. A `Ring` has its two bitmaps as sets, a thread has a
`Role`, which says what it holds at the moment, and an `Effect` is a step that changes one of them.
Every step of the set queue is an effect on the ring it represents (`run_view`).

The protocol works as long as the changes of head and tail are made under the conditions they are
meant to be made under (`careful`): a cell is reserved when the ring has room for it and it is not
ready, and removed when it is in the ring and ready. Then every cell of the ring that is not ready
is being filled by one thread, every ready cell outside the ring is being drained by one thread, and
every member is held by one thread or by one ready cell of the ring (`Consistent`). The indices that
are pending, accepted and not delivered since, are those held by the ready cells of the ring and by
the threads that are about to read the item of a cell they have removed.
-/

set_option autoImplicit false
set_option relaxedAutoImplicit false

namespace Mcmp.Utilities.SetQueueProtocol

open Foundation.ByteBits Foundation.CyclicRange Foundation.ExclusiveHolders
  Foundation.Interleaving SetQueue

/-! ### Rings, roles and effects -/

/-- A set queue with its bitmaps seen as sets. -/
structure Ring where
  length : ℕ
  head : ℕ
  tail : ℕ
  members : Set ℕ
  ready : Set ℕ
  items : ℕ → ℕ

/-- The cells in use, from tail up to head. -/
def Ring.cells (ring : Ring) : List ℕ :=
  Foundation.CyclicRange.cells ring.length ring.tail ring.head

/-- What a thread holds: a claimed index, an index and the cell reserved for it before and after the
store, a removed cell, a removed cell and its index, a removed cell whose index is given up. -/
inductive Role
  | none
  | claiming (ind : ℕ)
  | filling (ind index : ℕ)
  | publishing (ind index : ℕ)
  | reading (index : ℕ)
  | clearing (index ind : ℕ)
  | releasing (index ind : ℕ)
  deriving DecidableEq, Repr

/-- What a step does to a ring and to the role of the thread that takes it. -/
inductive Effect (ring : Ring) : Role → QueueEvent → Ring → Role → Prop
  | called (call : QueueCall) : Effect ring .none (.called call) ring .none
  | accessed {role : Role} : Effect ring role .accessed ring role
  | refused {ind : ℕ} {status : Mcmpst} (hstatus : status ≠ .success)
      (hpresent : status = .alrop → ind ∈ ring.members) :
    Effect ring .none (.pushReturned ind status) ring .none
  | claimed {ind : ℕ} (habsent : ind ∉ ring.members) :
    Effect ring .none (.claimed ind) { ring with members := insert ind ring.members }
      (.claiming ind)
  | rolledBack {ind : ℕ} :
    Effect ring (.claiming ind) (.pushReturned ind .overflow)
      { ring with members := ring.members \ {ind} } .none
  | reserved {ind : ℕ} :
    Effect ring (.claiming ind) (.reserved ring.head ind)
      { ring with head := (ring.head + 1) % ring.length } (.filling ind ring.head)
  | stored {ind index : ℕ} :
    Effect ring (.filling ind index) (.stored index ind)
      { ring with items := Function.update ring.items index ind } (.publishing ind index)
  | published {ind index : ℕ} :
    Effect ring (.publishing ind index) (.pushReturned ind .success)
      { ring with ready := insert index ring.ready } .none
  | turnedAway {status : Mcmpst} : Effect ring .none (.takeReturned none status) ring .none
  | removed :
    Effect ring .none (.removed ring.tail) { ring with tail := (ring.tail + 1) % ring.length }
      (.reading ring.tail)
  | delivered {index : ℕ} :
    Effect ring (.reading index) (.delivered index (ring.items index)) ring
      (.clearing index (ring.items index))
  | unclaimed {index ind : ℕ} :
    Effect ring (.clearing index ind) (.unclaimed ind)
      { ring with members := ring.members \ {ind} } (.releasing index ind)
  | released {index ind : ℕ} :
    Effect ring (.releasing index ind) (.takeReturned (some ind) .success)
      { ring with ready := ring.ready \ {index} } .none

/-- The ring that a set queue represents. -/
def ringOf (queue : McmpSetQueue) : Ring :=
  ⟨queue.length, queue.head, queue.tail, bitSet queue.values, bitSet queue.ready, queue.items⟩

/-- The role of a thread. -/
def roleOf : QueueThread → Role
  | .idle => .none
  | .push _ .loadHashset => .none
  | .push _ (.claimHashset _) => .none
  | .push ind .loadTail => .claiming ind
  | .push ind (.loadHead _) => .claiming ind
  | .push ind (.testReady _ _) => .claiming ind
  | .push ind .rollBack => .claiming ind
  | .push ind (.reserveHead _) => .claiming ind
  | .push ind (.storeItem index) => .filling ind index
  | .push ind (.loadReady index) => .publishing ind index
  | .push ind (.publishReady index _) => .publishing ind index
  | .take .loadTail => .none
  | .take (.loadHead _) => .none
  | .take (.testReady _) => .none
  | .take (.reserveTail _) => .none
  | .take (.readItem index) => .reading index
  | .take (.loadHashset index ind) => .clearing index ind
  | .take (.clearHashset index ind _) => .clearing index ind
  | .take (.loadReady index ind) => .releasing index ind
  | .take (.clearReady index ind _) => .releasing index ind

/-- A step of the set queue is an effect on the ring it represents. -/
theorem effect_of_queueStep {queue queue' : McmpSetQueue} {thread thread' : QueueThread}
    {event : QueueEvent} (hstep : QueueStep queue thread event queue' thread') :
    Effect (ringOf queue) (roleOf thread) event (ringOf queue') (roleOf thread') := by
  cases hstep with
  | called call => cases call <;> exact .called _
  | progressed hprogress => cases hprogress <;> exact .accessed
  | tooLarge hind => exact .refused (by decide) (by simp)
  | present hset => exact .refused (by decide) fun _ ↦ hset
  | claimLost => exact .refused (by decide) (by simp)
  | @claimed ind expected hind hclear =>
    have heffect := @Effect.claimed (ringOf queue) ind (by simp [ringOf, hclear])
    simpa [ringOf, roleOf] using heffect
  | @rolledBack ind =>
    have heffect := @Effect.rolledBack (ringOf queue) ind
    simpa [ringOf, roleOf] using heffect
  | reserved => exact .reserved
  | stored => exact .stored
  | @published ind index expected =>
    have heffect := @Effect.published (ringOf queue) ind index
    simpa [ringOf, roleOf] using heffect
  | empty => exact .turnedAway
  | notReady hready => exact .turnedAway
  | removed => exact .removed
  | delivered => exact .delivered
  | @unclaimed index ind expected =>
    have heffect := @Effect.unclaimed (ringOf queue) index ind
    simpa [ringOf, roleOf] using heffect
  | @released index ind expected =>
    have heffect := @Effect.released (ringOf queue) index ind
    simpa [ringOf, roleOf] using heffect

/-! ### Who holds what -/

/-- The cell of the ring that a role is filling. -/
def Role.fills : Role → Option ℕ
  | filling _ index => some index
  | publishing _ index => some index
  | _ => Option.none

/-- The cell outside the ring that a role is draining. -/
def Role.drains : Role → Option ℕ
  | reading index => some index
  | clearing index _ => some index
  | releasing index _ => some index
  | _ => Option.none

/-- The index that a role is about to deliver. -/
def Role.delivering (items : ℕ → ℕ) : Role → Option ℕ
  | reading index => some (items index)
  | _ => Option.none

/-- The member that a role holds. -/
def Role.member (items : ℕ → ℕ) : Role → Option ℕ
  | claiming ind => some ind
  | filling ind _ => some ind
  | publishing ind _ => some ind
  | reading index => some (items index)
  | clearing _ ind => some ind
  | _ => Option.none

open scoped Classical in
/-- The index that a cell holds: the item of a ready cell of the ring. -/
noncomputable def Ring.cellItem (ring : Ring) (index : ℕ) : Option ℕ :=
  if index ∈ ring.cells ∧ index ∈ ring.ready then some (ring.items index) else none

variable {ι : Type*}

/-- The members in the hands of the threads and of the cells. -/
noncomputable def Ring.holding (ring : Ring) (roles : ι → Role) : ι ⊕ ℕ → Option ℕ :=
  Sum.elim (Role.member ring.items ∘ roles) ring.cellItem

/-- The indices that are accepted and not delivered yet. -/
noncomputable def Ring.offering (ring : Ring) (roles : ι → Role) : ι ⊕ ℕ → Option ℕ :=
  Sum.elim (Role.delivering ring.items ∘ roles) ring.cellItem

/-- The cells, the members and the pending indices have one holder each. -/
structure Consistent (pending : Set ℕ) (ring : Ring) (roles : ι → Role) : Prop where
  head_lt : ring.head < ring.length
  tail_lt : ring.tail < ring.length
  filled : Exclusive (Role.fills ∘ roles) {index | index ∈ ring.cells ∧ index ∉ ring.ready}
  drained : Exclusive (Role.drains ∘ roles) {index | index ∈ ring.ready ∧ index ∉ ring.cells}
  held : Exclusive (ring.holding roles) ring.members
  offered : Exclusive (ring.offering roles) pending
  stored : ∀ {thread ind index}, roles thread = .publishing ind index → ring.items index = ind

section Steps

variable {pending : Set ℕ} {ring : Ring} {roles : ι → Role} {thread : ι} {index ind : ℕ}

theorem Ring.cellItem_of_mem (hcell : index ∈ ring.cells) (hready : index ∈ ring.ready) :
    ring.cellItem index = some (ring.items index) :=
  if_pos ⟨hcell, hready⟩

theorem Ring.cellItem_eq_some : ring.cellItem index = some ind ↔
    (index ∈ ring.cells ∧ index ∈ ring.ready) ∧ ring.items index = ind := by
  simp [Ring.cellItem]

/-- A cell holds the same in two rings when it is in both and ready, with the same item, or in
neither. -/
theorem Ring.cellItem_congr_at {ring' : Ring}
    (hcell : index ∈ ring'.cells ∧ index ∈ ring'.ready ↔ index ∈ ring.cells ∧ index ∈ ring.ready)
    (hitem : index ∈ ring.cells → index ∈ ring.ready → ring'.items index = ring.items index) :
    ring'.cellItem index = ring.cellItem index := by
  unfold Ring.cellItem
  by_cases hindex : index ∈ ring.cells ∧ index ∈ ring.ready
  · rw [if_pos hindex, if_pos (hcell.mpr hindex), hitem hindex.1 hindex.2]
  · rw [if_neg hindex, if_neg (mt hcell.mp hindex)]

/-- The head moves past its cell. -/
theorem Consistent.cells_reserved (h : Consistent pending ring roles)
    (hroom : (ring.head + 1) % ring.length ≠ ring.tail) :
    { ring with head := (ring.head + 1) % ring.length }.cells = ring.cells ++ [ring.head] := by
  rw [mod_eq_next h.head_lt] at hroom
  simp only [Ring.cells, mod_eq_next h.head_lt]
  exact cells_next_head h.tail_lt h.head_lt hroom

/-- The tail moves past its cell. -/
theorem Consistent.cells_eq_cons (h : Consistent pending ring roles)
    (hne : ring.tail ≠ ring.head) :
    ring.cells = ring.tail :: { ring with tail := (ring.tail + 1) % ring.length }.cells := by
  simp only [Ring.cells, mod_eq_next h.tail_lt]
  exact Foundation.CyclicRange.cells_eq_cons h.tail_lt h.head_lt hne.symm

theorem Consistent.head_notMem (h : Consistent pending ring roles) : ring.head ∉ ring.cells :=
  head_notMem_cells h.tail_lt h.head_lt

theorem Consistent.nodup_cells (h : Consistent pending ring roles) : ring.cells.Nodup :=
  Foundation.CyclicRange.nodup_cells h.tail_lt h.head_lt

/-- A cell that is being filled is in the ring and not ready. -/
theorem Consistent.mem_of_fills (h : Consistent pending ring roles) {role : Role}
    (hrole : roles thread = role) (hfills : role.fills = some index) :
    index ∈ ring.cells ∧ index ∉ ring.ready :=
  h.filled.mem ((congrArg Role.fills hrole).trans hfills)

/-- A cell that is being drained is ready and not in the ring. -/
theorem Consistent.mem_of_drains (h : Consistent pending ring roles) {role : Role}
    (hrole : roles thread = role) (hdrains : role.drains = some index) :
    index ∈ ring.ready ∧ index ∉ ring.cells :=
  h.drained.mem ((congrArg Role.drains hrole).trans hdrains)

/-! ### What the effects keep -/

variable [DecidableEq ι]

/-- What a role is mapped to does not change when the new role is mapped to the same. -/
theorem comp_update_of_eq {Value : Type*} (f : Role → Value) {role role' : Role}
    (hrole : roles thread = role) (hsame : f role' = f role) :
    f ∘ Function.update roles thread role' = f ∘ roles := by
  rw [Function.comp_update, hsame, ← hrole]
  exact Function.update_eq_self thread (f ∘ roles)

/-- The holders after a thread has changed its role. -/
theorem elim_comp_update (f : Role → Option ℕ) (cellItem : ℕ → Option ℕ) (role : Role) :
    Sum.elim (f ∘ Function.update roles thread role) cellItem =
      Function.update (Sum.elim (f ∘ roles) cellItem) (Sum.inl thread) (f role) := by
  rw [Function.comp_update, Sum.update_elim_inl]

/-- The cells about to be published hold their indices, if the new role is not to publish. -/
theorem Consistent.stored_update (h : Consistent pending ring roles) {role : Role}
    (hrole : ∀ ind index, role ≠ .publishing ind index) {other : ι}
    (hother : Function.update roles thread role other = .publishing ind index) :
    ring.items index = ind := by
  by_cases hne : other = thread
  · rw [hne, Function.update_self] at hother
    exact absurd hother (hrole ind index)
  · rw [Function.update_of_ne hne] at hother
    exact h.stored hother

theorem Consistent.claim (h : Consistent pending ring roles) (hrole : roles thread = .none)
    (habsent : ind ∉ ring.members) :
    Consistent pending { ring with members := insert ind ring.members }
      (Function.update roles thread (.claiming ind)) where
  head_lt := h.head_lt
  tail_lt := h.tail_lt
  filled := by
    rw [comp_update_of_eq Role.fills hrole (by rfl)]
    exact h.filled
  drained := by
    rw [comp_update_of_eq Role.drains hrole (by rfl)]
    exact h.drained
  held := by
    have hfree : ring.holding roles (Sum.inl thread) = none := by
      simp [Ring.holding, hrole, Role.member]
    rw [Ring.holding, elim_comp_update]
    exact h.held.acquire hfree habsent
  offered := by
    rw [Ring.offering, comp_update_of_eq (Role.delivering _) hrole (by rfl)]
    exact h.offered
  stored := h.stored_update (by simp)

/-- A thread that holds a member gives it up, at the end of a Push that was rolled back and in the
middle of a Take. -/
theorem Consistent.giveUp (h : Consistent pending ring roles) {role role' : Role}
    (hrole : roles thread = role) (hmember : role.member ring.items = some ind)
    (hfills : role'.fills = role.fills) (hdrains : role'.drains = role.drains)
    (hdelivering : role'.delivering ring.items = role.delivering ring.items)
    (hgone : role'.member ring.items = none)
    (hstored : ∀ ind index, role' ≠ .publishing ind index) :
    Consistent pending { ring with members := ring.members \ {ind} }
      (Function.update roles thread role') where
  head_lt := h.head_lt
  tail_lt := h.tail_lt
  filled := by
    rw [comp_update_of_eq Role.fills hrole hfills]
    exact h.filled
  drained := by
    rw [comp_update_of_eq Role.drains hrole hdrains]
    exact h.drained
  held := by
    have hown : ring.holding roles (Sum.inl thread) = some ind :=
      (congrArg (Role.member ring.items) hrole).trans hmember
    rw [Ring.holding, elim_comp_update, hgone]
    exact h.held.release hown
  offered := by
    rw [Ring.offering, comp_update_of_eq (Role.delivering _) hrole hdelivering]
    exact h.offered
  stored := h.stored_update hstored

theorem Consistent.reserve (h : Consistent pending ring roles)
    (hrole : roles thread = .claiming ind) (hroom : (ring.head + 1) % ring.length ≠ ring.tail)
    (hready : ring.head ∉ ring.ready) :
    Consistent pending { ring with head := (ring.head + 1) % ring.length }
      (Function.update roles thread (.filling ind ring.head)) := by
  have hcells : ∀ index,
      index ∈ { ring with head := (ring.head + 1) % ring.length }.cells ↔
        index ∈ ring.cells ∨ index = ring.head := by
    intro index
    rw [h.cells_reserved hroom, List.mem_append, List.mem_singleton]
  have hitems : { ring with head := (ring.head + 1) % ring.length }.cellItem = ring.cellItem := by
    refine funext fun index ↦ Ring.cellItem_congr_at ?_ fun _ _ ↦ rfl
    rw [hcells]
    constructor
    · rintro ⟨hcell | rfl, hset⟩
      · exact ⟨hcell, hset⟩
      · exact absurd hset hready
    · exact fun ⟨hcell, hset⟩ ↦ ⟨Or.inl hcell, hset⟩
  refine ⟨Nat.mod_lt _ (Nat.zero_lt_of_lt h.head_lt), h.tail_lt, ?_, ?_, ?_, ?_,
    h.stored_update (by simp)⟩
  · have hset : {index | index ∈ { ring with head := (ring.head + 1) % ring.length }.cells ∧
        index ∉ ring.ready} =
        insert ring.head {index | index ∈ ring.cells ∧ index ∉ ring.ready} := by
      ext index
      simp only [hcells, Set.mem_ofPred_eq, Set.mem_insert_iff]
      constructor
      · rintro ⟨hcell | hcell, hclear⟩
        · exact Or.inr ⟨hcell, hclear⟩
        · exact Or.inl hcell
      · rintro (rfl | ⟨hcell, hclear⟩)
        · exact ⟨Or.inr rfl, hready⟩
        · exact ⟨Or.inl hcell, hclear⟩
    rw [hset, Function.comp_update]
    exact h.filled.acquire (by simp [hrole, Role.fills]) fun hmem ↦ h.head_notMem hmem.1
  · have hset : {index | index ∈ ring.ready ∧
        index ∉ { ring with head := (ring.head + 1) % ring.length }.cells} =
        {index | index ∈ ring.ready ∧ index ∉ ring.cells} := by
      ext index
      simp only [hcells, Set.mem_ofPred_eq, not_or]
      constructor
      · exact fun ⟨hset, hcell, _⟩ ↦ ⟨hset, hcell⟩
      · refine fun ⟨hset, hcell⟩ ↦ ⟨hset, hcell, ?_⟩
        rintro rfl
        exact hready hset
    rw [hset, comp_update_of_eq Role.drains hrole (by rfl)]
    exact h.drained
  · rw [Ring.holding, comp_update_of_eq (Role.member _) hrole (by rfl), hitems]
    exact h.held
  · rw [Ring.offering, comp_update_of_eq (Role.delivering _) hrole (by rfl), hitems]
    exact h.offered

/-- What a role is mapped to depends only on the items of the cells that it is to read. -/
theorem Role.delivering_congr {items items' : ℕ → ℕ} {role : Role}
    (hitems : ∀ index, role = .reading index → items' index = items index) :
    role.delivering items' = role.delivering items := by
  cases role with
  | reading index => exact congrArg some (hitems index rfl)
  | _ => rfl

theorem Role.member_congr {items items' : ℕ → ℕ} {role : Role}
    (hitems : ∀ index, role = .reading index → items' index = items index) :
    role.member items' = role.member items := by
  cases role with
  | reading index => exact congrArg some (hitems index rfl)
  | _ => rfl

theorem Consistent.store (h : Consistent pending ring roles)
    (hrole : roles thread = .filling ind index) :
    Consistent pending { ring with items := Function.update ring.items index ind }
      (Function.update roles thread (.publishing ind index)) := by
  obtain ⟨hcell, hclear⟩ := h.mem_of_fills hrole rfl
  -- the store is to a cell that nobody reads and that offers nothing
  have hread : ∀ {other cell}, roles other = .reading cell →
      Function.update ring.items index ind cell = ring.items cell := by
    intro other cell hother
    refine Function.update_of_ne ?_ _ _
    rintro rfl
    exact hclear (h.mem_of_drains hother rfl).1
  have hitems : { ring with items := Function.update ring.items index ind }.cellItem =
      ring.cellItem := by
    refine funext fun cell ↦ Ring.cellItem_congr_at Iff.rfl fun _ hset ↦ ?_
    refine Function.update_of_ne ?_ _ _
    rintro rfl
    exact hclear hset
  have hmembers : Role.member (Function.update ring.items index ind) ∘
      Function.update roles thread (.publishing ind index) = Role.member ring.items ∘ roles := by
    rw [comp_update_of_eq (Role.member _) hrole (by rfl)]
    exact funext fun other ↦ Role.member_congr fun _ ↦ hread
  have hdelivering : Role.delivering (Function.update ring.items index ind) ∘
      Function.update roles thread (.publishing ind index) =
        Role.delivering ring.items ∘ roles := by
    rw [comp_update_of_eq (Role.delivering _) hrole (by rfl)]
    exact funext fun other ↦ Role.delivering_congr fun _ ↦ hread
  refine ⟨h.head_lt, h.tail_lt, ?_, ?_, ?_, ?_, ?_⟩
  · rw [comp_update_of_eq Role.fills hrole (by rfl)]
    exact h.filled
  · rw [comp_update_of_eq Role.drains hrole (by rfl)]
    exact h.drained
  · rw [Ring.holding, hmembers, hitems]
    exact h.held
  · rw [Ring.offering, hdelivering, hitems]
    exact h.offered
  · intro other value cell hother
    by_cases hne : other = thread
    · rw [hne, Function.update_self] at hother
      obtain ⟨rfl, rfl⟩ := Role.publishing.inj hother
      exact Function.update_self _ _ _
    · rw [Function.update_of_ne hne] at hother
      have hcells : cell ≠ index := by
        rintro rfl
        have hsame : (Role.fills ∘ roles) other = some cell := congrArg Role.fills hother
        exact hne (h.filled.injective hsame (congrArg Role.fills hrole))
      exact (Function.update_of_ne hcells _ _).trans (h.stored hother)

omit [DecidableEq ι] in
/-- The index that a Push is about to publish is not pending: it would have two holders. -/
theorem Consistent.publishing_notMem (h : Consistent pending ring roles)
    (hrole : roles thread = .publishing ind index) : ind ∉ pending := by
  intro hpending
  obtain ⟨holder, hholder⟩ := (h.offered.mem_iff ind).mp hpending
  have hown : ring.holding roles (Sum.inl thread) = some ind := by
    simp [Ring.holding, hrole, Role.member]
  cases holder with
  | inl other =>
    have hother : (roles other).delivering ring.items = some ind := hholder
    have hsame : ring.holding roles (Sum.inl other) = some ind := by
      cases hreading : roles other <;> rw [hreading] at hother <;>
        simp_all [Role.delivering, Role.member, Ring.holding]
    obtain rfl := Sum.inl.inj (h.held.injective hsame hown)
    simp [hrole, Role.delivering] at hother
  | inr cell => exact Sum.inr_ne_inl (h.held.injective hholder hown)

theorem Consistent.publish (h : Consistent pending ring roles)
    (hrole : roles thread = .publishing ind index) :
    Consistent (insert ind pending) { ring with ready := insert index ring.ready }
      (Function.update roles thread .none) := by
  obtain ⟨hcell, hclear⟩ := h.mem_of_fills hrole rfl
  have hempty : ring.cellItem index = none := if_neg fun hindex ↦ hclear hindex.2
  have hitems : { ring with ready := insert index ring.ready }.cellItem =
      Function.update ring.cellItem index (some ind) := by
    funext cell
    by_cases hne : cell = index
    · subst hne
      rw [Function.update_self, ← h.stored hrole]
      exact Ring.cellItem_of_mem hcell (Set.mem_insert _ _)
    · rw [Function.update_of_ne hne]
      refine Ring.cellItem_congr_at (and_congr_right fun _ ↦ ?_) fun _ _ ↦ rfl
      exact Set.mem_insert_iff.trans (or_iff_right hne)
  refine ⟨h.head_lt, h.tail_lt, ?_, ?_, ?_, ?_, h.stored_update (by simp)⟩
  · have hset : {cell | cell ∈ ring.cells ∧ cell ∉ insert index ring.ready} =
        {cell | cell ∈ ring.cells ∧ cell ∉ ring.ready} \ {index} := by
      ext cell
      simp only [Set.mem_insert_iff, not_or, Set.mem_ofPred_eq, Set.mem_sdiff,
        Set.mem_singleton_iff]
      tauto
    have hfills : (Role.fills ∘ roles) thread = some index := congrArg Role.fills hrole
    rw [Function.comp_update]
    exact hset ▸ h.filled.release hfills
  · have hset : {cell | cell ∈ insert index ring.ready ∧ cell ∉ ring.cells} =
        {cell | cell ∈ ring.ready ∧ cell ∉ ring.cells} := by
      ext cell
      simp only [Set.mem_insert_iff, Set.mem_ofPred_eq]
      constructor
      · rintro ⟨rfl | hset, hout⟩
        · exact absurd hcell hout
        · exact ⟨hset, hout⟩
      · exact fun ⟨hset, hout⟩ ↦ ⟨Or.inr hset, hout⟩
    rw [comp_update_of_eq Role.drains hrole (by rfl)]
    exact hset ▸ h.drained
  · have hown : ring.holding roles (Sum.inl thread) = some ind := by
      simp [Ring.holding, hrole, Role.member]
    rw [Ring.holding, hitems, ← Sum.update_elim_inr, elim_comp_update]
    exact h.held.pass hown hempty
  · rw [Ring.offering, hitems, ← Sum.update_elim_inr,
      comp_update_of_eq (Role.delivering _) hrole (by rfl)]
    exact h.offered.acquire hempty (h.publishing_notMem hrole)

theorem Consistent.remove (h : Consistent pending ring roles) (hrole : roles thread = .none)
    (hne : ring.tail ≠ ring.head) (hready : ring.tail ∈ ring.ready) :
    Consistent pending { ring with tail := (ring.tail + 1) % ring.length }
      (Function.update roles thread (.reading ring.tail)) := by
  have hcons := h.cells_eq_cons hne
  have hnodup := h.nodup_cells
  rw [hcons] at hnodup
  have htail : ring.tail ∉ { ring with tail := (ring.tail + 1) % ring.length }.cells :=
    (List.nodup_cons.mp hnodup).1
  have hcells : ∀ cell, cell ∈ ring.cells ↔ cell = ring.tail ∨
      cell ∈ { ring with tail := (ring.tail + 1) % ring.length }.cells := by
    intro cell
    rw [hcons, List.mem_cons]
  have hitem : ring.cellItem ring.tail = some (ring.items ring.tail) :=
    Ring.cellItem_of_mem ((hcells _).mpr (Or.inl rfl)) hready
  have hitems : { ring with tail := (ring.tail + 1) % ring.length }.cellItem =
      Function.update ring.cellItem ring.tail none := by
    funext cell
    by_cases hcell : cell = ring.tail
    · rw [hcell, Function.update_self]
      exact if_neg fun hin ↦ htail hin.1
    · rw [Function.update_of_ne hcell]
      refine Ring.cellItem_congr_at (and_congr_left fun _ ↦ ?_) fun _ _ ↦ rfl
      exact ((hcells cell).trans (or_iff_right hcell)).symm
  refine ⟨h.head_lt, Nat.mod_lt _ (Nat.zero_lt_of_lt h.head_lt), ?_, ?_, ?_, ?_,
    h.stored_update (by simp)⟩
  · have hset : {cell | cell ∈ { ring with tail := (ring.tail + 1) % ring.length }.cells ∧
        cell ∉ ring.ready} = {cell | cell ∈ ring.cells ∧ cell ∉ ring.ready} := by
      ext cell
      simp only [hcells, Set.mem_ofPred_eq]
      constructor
      · exact fun ⟨hin, hclear⟩ ↦ ⟨Or.inr hin, hclear⟩
      · rintro ⟨rfl | hin, hclear⟩
        · exact absurd hready hclear
        · exact ⟨hin, hclear⟩
    rw [hset, comp_update_of_eq Role.fills hrole (by rfl)]
    exact h.filled
  · have hset : {cell | cell ∈ ring.ready ∧
        cell ∉ { ring with tail := (ring.tail + 1) % ring.length }.cells} =
        insert ring.tail {cell | cell ∈ ring.ready ∧ cell ∉ ring.cells} := by
      ext cell
      simp only [hcells, Set.mem_ofPred_eq, Set.mem_insert_iff, not_or]
      constructor
      · intro ⟨hset, hout⟩
        by_cases hcell : cell = ring.tail
        · exact Or.inl hcell
        · exact Or.inr ⟨hset, hcell, hout⟩
      · rintro (rfl | ⟨hset, -, hout⟩)
        · exact ⟨hready, htail⟩
        · exact ⟨hset, hout⟩
    rw [hset, Function.comp_update]
    refine h.drained.acquire (by simp [hrole, Role.drains]) fun hmem ↦ hmem.2 ?_
    exact (hcells _).mpr (Or.inl rfl)
  · have hfree : ring.holding roles (Sum.inl thread) = none := by
      simp [Ring.holding, hrole, Role.member]
    rw [Ring.holding, hitems, elim_comp_update, ← Sum.update_elim_inr]
    exact h.held.pass hitem hfree
  · have hfree : ring.offering roles (Sum.inl thread) = none := by
      simp [Ring.offering, hrole, Role.delivering]
    rw [Ring.offering, hitems, elim_comp_update, ← Sum.update_elim_inr]
    exact h.offered.pass hitem hfree

theorem Consistent.deliver (h : Consistent pending ring roles)
    (hrole : roles thread = .reading index) :
    Consistent (pending \ {ring.items index}) ring
      (Function.update roles thread (.clearing index (ring.items index))) where
  head_lt := h.head_lt
  tail_lt := h.tail_lt
  filled := by
    rw [comp_update_of_eq Role.fills hrole (by rfl)]
    exact h.filled
  drained := by
    rw [comp_update_of_eq Role.drains hrole (by rfl)]
    exact h.drained
  held := by
    rw [Ring.holding, comp_update_of_eq (Role.member _) hrole (by rfl)]
    exact h.held
  offered := by
    have hown : ring.offering roles (Sum.inl thread) = some (ring.items index) := by
      simp [Ring.offering, hrole, Role.delivering]
    rw [Ring.offering, elim_comp_update]
    exact h.offered.release hown
  stored := h.stored_update (by simp)

theorem Consistent.release (h : Consistent pending ring roles)
    (hrole : roles thread = .releasing index ind) :
    Consistent pending { ring with ready := ring.ready \ {index} }
      (Function.update roles thread .none) := by
  obtain ⟨hready, hout⟩ := h.mem_of_drains hrole rfl
  have hne : ∀ {cell}, cell ∈ ring.cells → cell ≠ index := by
    rintro cell hcell rfl
    exact hout hcell
  have hitems : { ring with ready := ring.ready \ {index} }.cellItem = ring.cellItem := by
    refine funext fun cell ↦ Ring.cellItem_congr_at ?_ fun _ _ ↦ rfl
    exact and_congr_right fun hcell ↦ and_iff_left (hne hcell)
  refine ⟨h.head_lt, h.tail_lt, ?_, ?_, ?_, ?_, h.stored_update (by simp)⟩
  · have hset : {cell | cell ∈ ring.cells ∧ cell ∉ ring.ready \ {index}} =
        {cell | cell ∈ ring.cells ∧ cell ∉ ring.ready} := by
      ext cell
      exact and_congr_right fun hcell ↦ not_congr (and_iff_left (hne hcell))
    rw [comp_update_of_eq Role.fills hrole (by rfl)]
    exact hset ▸ h.filled
  · have hset : {cell | cell ∈ ring.ready \ {index} ∧ cell ∉ ring.cells} =
        {cell | cell ∈ ring.ready ∧ cell ∉ ring.cells} \ {index} := by
      ext cell
      simp only [Set.mem_ofPred_eq, Set.mem_sdiff, Set.mem_singleton_iff]
      tauto
    have hdrains : (Role.drains ∘ roles) thread = some index := congrArg Role.drains hrole
    rw [Function.comp_update]
    exact hset ▸ h.drained.release hdrains
  · rw [Ring.holding, comp_update_of_eq (Role.member _) hrole (by rfl), hitems]
    exact h.held
  · rw [Ring.offering, comp_update_of_eq (Role.delivering _) hrole (by rfl), hitems]
    exact h.offered

end Steps

/-! ### Accepted and delivered indices -/

/-- The event says that a Push of the index was accepted. -/
def accepts (ind : ℕ) (event : QueueEvent) : Bool := event = .pushReturned ind .success

/-- The event says that a Take has read the index from a cell. -/
def delivers (ind : ℕ) : QueueEvent → Bool
  | .delivered _ other => other = ind
  | _ => false

/-- The index was accepted and has not been delivered since. -/
def Pending (history : List (ι × QueueEvent)) (ind : ℕ) : Prop :=
  Since history (fun _ event ↦ accepts ind event = true) fun _ event ↦ delivers ind event = true

/-- The pending indices after one more event. -/
def pendingAfter (pending : Set ℕ) : QueueEvent → Set ℕ
  | .pushReturned ind .success => insert ind pending
  | .delivered _ ind => pending \ {ind}
  | _ => pending

theorem mem_pendingAfter (pending : Set ℕ) (event : QueueEvent) (ind : ℕ) :
    ind ∈ pendingAfter pending event ↔
      accepts ind event = true ∨ ind ∈ pending ∧ ¬ delivers ind event = true := by
  cases event with
  | pushReturned value status =>
    cases status <;> simp [pendingAfter, accepts, delivers, eq_comm]
  | delivered index value => simp [pendingAfter, accepts, delivers, eq_comm]
  | _ => simp [pendingAfter, accepts, delivers]

theorem pending_concat (history : List (ι × QueueEvent)) (thread : ι) (event : QueueEvent) :
    {ind | Pending (history ++ [(thread, event)]) ind} =
      pendingAfter {ind | Pending history ind} event := by
  ext ind
  rw [mem_pendingAfter, Set.mem_ofPred_eq, Set.mem_ofPred_eq]
  exact since_concat _ _ _ _ _

open scoped Classical in
/-- As many deliveries of the index as acceptances, one less while it is pending. -/
def DeliveriesBalanced (history : List (ι × QueueEvent)) (ind : ℕ) : Prop :=
  history.countP (fun entry ↦ accepts ind entry.2) =
    history.countP (fun entry ↦ delivers ind entry.2) + if Pending history ind then 1 else 0

/-- Acceptances and deliveries stay balanced when an index is accepted only while it is not pending
and delivered only while it is. -/
theorem DeliveriesBalanced.concat {history : List (ι × QueueEvent)} {ind : ℕ} {thread : ι}
    {event : QueueEvent} (hbalanced : DeliveriesBalanced history ind)
    (haccepts : accepts ind event = true → ¬ Pending history ind)
    (hdelivers : delivers ind event = true → Pending history ind) :
    DeliveriesBalanced (history ++ [(thread, event)]) ind := by
  have hpending : Pending (history ++ [(thread, event)]) ind ↔
      accepts ind event = true ∨ Pending history ind ∧ ¬ delivers ind event = true :=
    since_concat _ _ _ _ _
  unfold DeliveriesBalanced at hbalanced ⊢
  rw [List.countP_append, List.countP_append, List.countP_singleton, List.countP_singleton]
  by_cases hin : accepts ind event = true
  · have hnot := haccepts hin
    have hout : ¬ delivers ind event = true := fun hout ↦ hnot (hdelivers hout)
    rw [if_neg hnot] at hbalanced
    rw [if_pos hin, if_neg hout, if_pos (hpending.mpr (Or.inl hin)), hbalanced]
  · rw [if_neg hin]
    by_cases hout : delivers ind event = true
    · have hgone : ¬ Pending (history ++ [(thread, event)]) ind := fun hnew ↦
        (hpending.mp hnew).elim hin fun hold ↦ hold.2 hout
      rw [if_pos (hdelivers hout)] at hbalanced
      rw [if_pos hout, if_neg hgone, hbalanced]
    · have hsame : Pending (history ++ [(thread, event)]) ind ↔ Pending history ind :=
        hpending.trans ((or_iff_right hin).trans (and_iff_left hout))
      rw [if_neg hout, propext hsame]
      exact hbalanced

/-! ### Careful runs -/

/-- The conditions under which head and tail are meant to be moved. -/
def careful (ring : Ring) : QueueEvent → Prop
  | .reserved _ _ => (ring.head + 1) % ring.length ≠ ring.tail ∧ ring.head ∉ ring.ready
  | .removed _ => ring.tail ≠ ring.head ∧ ring.tail ∈ ring.ready
  | _ => True

section Careful

variable {pending : Set ℕ} {ring ring' : Ring} {roles : ι → Role} {role' : Role} {thread : ι}
  {event : QueueEvent} {ind : ℕ}

/-- An index is accepted only while it is not pending, and delivered only while it is. -/
theorem Consistent.alternates (h : Consistent pending ring roles) (ind : ℕ)
    (heffect : Effect ring (roles thread) event ring' role') :
    (accepts ind event = true → ind ∉ pending) ∧ (delivers ind event = true → ind ∈ pending) := by
  generalize hrole : roles thread = role at heffect
  cases heffect with
  | @published value index =>
    refine ⟨fun haccepts ↦ ?_, by simp [delivers]⟩
    obtain ⟨rfl, -⟩ := QueueEvent.pushReturned.inj (of_decide_eq_true haccepts)
    exact h.publishing_notMem hrole
  | @delivered index =>
    refine ⟨by simp [accepts], fun hdelivers ↦ ?_⟩
    rw [← of_decide_eq_true hdelivers]
    exact h.offered.mem (a := Sum.inl thread) (by simp [Ring.offering, hrole, Role.delivering])
  | refused hstatus hpresent => exact ⟨by simp [accepts, hstatus], by simp [delivers]⟩
  | _ => exact ⟨by simp [accepts], by simp [delivers]⟩

variable [DecidableEq ι]

/-- One careful effect keeps a ring consistent. -/
theorem Consistent.step (h : Consistent pending ring roles)
    (hcareful : careful ring event) (heffect : Effect ring (roles thread) event ring' role') :
    Consistent (pendingAfter pending event) ring' (Function.update roles thread role') := by
  have hstay : Consistent pending ring (Function.update roles thread (roles thread)) := by
    rw [Function.update_eq_self]
    exact h
  generalize hrole : roles thread = role at heffect hstay
  cases heffect with
  | called call => exact hstay
  | accessed => exact hstay
  | @refused ind status hstatus hpresent =>
    cases status with
    | success => exact absurd rfl hstatus
    | _ => exact hstay
  | turnedAway => exact hstay
  | claimed habsent => exact h.claim hrole habsent
  | rolledBack =>
    exact h.giveUp hrole rfl rfl rfl rfl rfl (by simp)
  | reserved => exact h.reserve hrole hcareful.1 hcareful.2
  | stored => exact h.store hrole
  | published => exact h.publish hrole
  | removed => exact h.remove hrole hcareful.1 hcareful.2
  | delivered => exact h.deliver hrole
  | unclaimed =>
    exact h.giveUp hrole rfl rfl rfl rfl rfl (by simp)
  | released => exact h.release hrole

end Careful

end Mcmp.Utilities.SetQueueProtocol
