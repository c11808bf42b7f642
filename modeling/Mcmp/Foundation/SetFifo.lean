import Mathlib.Data.List.Nodup

/-!
# Bounded queues without duplicates

A first-in-first-out queue over a type of entries, which holds each entry at most once and at most
`capacity` of them. Both bounds are part of the type, so every queue that an operation returns has
them. `enqueue` refuses an entry that is in the queue, and otherwise one for which there is no room;
`dequeue` returns the oldest entry.
-/

set_option autoImplicit false
set_option relaxedAutoImplicit false

namespace Mcmp.Foundation.SetFifo

/-- A queue of at most `capacity` different entries, the oldest one first. -/
structure BoundedFifo (Entry : Type*) (capacity : ℕ) where
  entries : List Entry
  nodup : entries.Nodup
  length_le : entries.length ≤ capacity

/-- Why an entry is refused. -/
inductive Refusal
  | present
  | full
  deriving DecidableEq, Repr

variable {Entry : Type*} {capacity : ℕ}

namespace BoundedFifo

/-- The queue without entries. -/
def empty : BoundedFifo Entry capacity := ⟨[], List.nodup_nil, Nat.zero_le _⟩

/-- Appends an entry that is not in the queue, if there is room. -/
def enqueue [DecidableEq Entry] (queue : BoundedFifo Entry capacity) (entry : Entry) :
    Except Refusal (BoundedFifo Entry capacity) :=
  if hmem : entry ∈ queue.entries then .error .present
  else if hroom : queue.entries.length < capacity then
    .ok {
      entries := queue.entries ++ [entry]
      nodup := List.nodup_append.mpr ⟨queue.nodup, List.nodup_singleton entry, by
        rintro other hother _ hentry rfl
        exact hmem (List.mem_singleton.mp hentry ▸ hother)⟩
      length_le := by
        rw [List.length_append]
        exact hroom }
  else .error .full

/-- Removes the oldest entry. -/
def dequeue : BoundedFifo Entry capacity → Option (Entry × BoundedFifo Entry capacity)
  | ⟨[], _, _⟩ => none
  | ⟨entry :: entries, hnodup, hlength⟩ =>
    some (entry, ⟨entries, (List.nodup_cons.mp hnodup).2, Nat.le_of_succ_le hlength⟩)

section Enqueue

variable [DecidableEq Entry] {queue : BoundedFifo Entry capacity} {entry : Entry}

theorem enqueue_of_mem (hmem : entry ∈ queue.entries) :
    enqueue queue entry = .error .present :=
  dif_pos hmem

theorem enqueue_of_full (hmem : entry ∉ queue.entries)
    (hfull : ¬ queue.entries.length < capacity) : enqueue queue entry = .error .full := by
  rw [enqueue, dif_neg hmem, dif_neg hfull]

theorem enqueue_of_room (hmem : entry ∉ queue.entries)
    (hroom : queue.entries.length < capacity) :
    ∃ queue' : BoundedFifo Entry capacity, enqueue queue entry = .ok queue' ∧
      queue'.entries = queue.entries ++ [entry] := by
  rw [enqueue, dif_neg hmem, dif_pos hroom]
  exact ⟨_, rfl, rfl⟩

end Enqueue

theorem dequeue_of_nil {queue : BoundedFifo Entry capacity} (hnil : queue.entries = []) :
    dequeue queue = none := by
  obtain ⟨entries, hnodup, hlength⟩ := queue
  subst hnil
  rfl

theorem dequeue_of_cons {queue : BoundedFifo Entry capacity} {entry : Entry} {rest : List Entry}
    (hcons : queue.entries = entry :: rest) :
    ∃ queue' : BoundedFifo Entry capacity, dequeue queue = some (entry, queue') ∧
      queue'.entries = rest := by
  obtain ⟨entries, hnodup, hlength⟩ := queue
  subst hcons
  exact ⟨_, rfl, rfl⟩

end BoundedFifo

end Mcmp.Foundation.SetFifo
