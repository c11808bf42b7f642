import Mcmp.Foundation.Interleaving
import Mathlib.Algebra.Order.BigOperators.Group.Finset
import Mathlib.Data.Fintype.BigOperators
import Mathlib.Algebra.Group.Action.Defs

/-!
# How often shared work is tried again

A call of a non-blocking operation reads a shared word, computes, and tries to replace the word by a
compare-exchange. When another thread has changed the word in between, it tries again. This module
bounds the number of steps of a whole run of such calls.

The bound rests on two numbers of a thread. Its `cost` is the number of steps it is away from the
end of its call when no other thread moves; it depends on the shared memory. Its `left` is the
number of changes that the call is still to make to what other threads compare with. A step of a
call lowers the own cost, unless it is a setback such as a compare-exchange that fails for no
reason. It raises the cost of each other thread by at most `retry` for each change that it makes.
Then the cost of all threads, with each change that is left counted for all other threads, falls
with every step of a call (`length_le_of_cost`), so a number of calls takes a number of steps in
proportion to it, in whatever order the steps are taken.
-/

set_option autoImplicit false
set_option relaxedAutoImplicit false

namespace Mcmp.Foundation.SharedRetries

open Interleaving

variable {ι Shared Thread Event : Type*} [DecidableEq ι] [Fintype ι]

section Potential

variable (cost : Shared → Thread → ℕ) (left : Thread → ℕ) (retry : ℕ)

/-- What a thread is to cost, the retries of the other threads for its changes included. -/
def weight (shared : Shared) (thread : Thread) (others : ℕ) : ℕ :=
  cost shared thread + retry * others * left thread

/-- What all threads are to cost. -/
def potential (config : Config ι Shared Thread) : ℕ :=
  ∑ i, weight cost left retry config.shared (config.threads i) (Fintype.card ι - 1)

/-- The step of a thread for the potential: the own weight is replaced, and the costs of the other
threads rise by what the step charges. -/
theorem potential_advance_le (config : Config ι Shared Thread) (thread : ι) (shared : Shared)
    (own : Thread) {charge : ℕ}
    (hothers : ∀ other, cost shared other ≤ cost config.shared other + charge) :
    potential cost left retry (config.advance thread shared own) +
        weight cost left retry config.shared (config.threads thread) (Fintype.card ι - 1) ≤
      potential cost left retry config +
        weight cost left retry shared own (Fintype.card ι - 1) + (Fintype.card ι - 1) * charge := by
  have hsplit (config : Config ι Shared Thread) : potential cost left retry config =
      weight cost left retry config.shared (config.threads thread) (Fintype.card ι - 1) +
        ∑ i ∈ Finset.univ.erase thread,
          weight cost left retry config.shared (config.threads i) (Fintype.card ι - 1) :=
    (Finset.add_sum_erase _ _ (Finset.mem_univ thread)).symm
  have hrest : ∑ i ∈ Finset.univ.erase thread, weight cost left retry
        (config.advance thread shared own).shared ((config.advance thread shared own).threads i)
        (Fintype.card ι - 1) ≤
      ∑ i ∈ Finset.univ.erase thread,
        (weight cost left retry config.shared (config.threads i) (Fintype.card ι - 1) +
          charge) := by
    refine Finset.sum_le_sum fun i hi ↦ ?_
    rw [Config.advance_threads_of_ne config (Finset.ne_of_mem_erase hi)]
    have hcost := hothers (config.threads i)
    simp only [weight, Config.advance_shared]
    omega
  rw [Finset.sum_add_distrib, Finset.sum_const, Finset.card_erase_of_mem (Finset.mem_univ thread),
    Finset.card_univ, smul_eq_mul] at hrest
  rw [hsplit, hsplit config, Config.advance_threads_self, Config.advance_shared]
  rw [Config.advance_shared] at hrest
  omega

end Potential

variable {program : Program Shared Thread Event} {guard : Guard ι Shared Thread Event}
  {initial : Config ι Shared Thread} {history : List (ι × Event)} {config : Config ι Shared Thread}

/-- The rule of shared retries. When a call begins with a cost of at most `most` and with at most
`changes` changes left, each of its other steps lowers its cost, or is a setback that raises it by
at most `again`, and each change raises the cost of another thread by at most `retry`, a run takes
a bounded number of steps for each call and each setback. -/
theorem length_le_of_cost (cost : Shared → Thread → ℕ) (left : Thread → ℕ)
    (starts setback : Event → Bool) (most changes retry again : ℕ)
    (hinitial : ∀ i, cost initial.shared (initial.threads i) = 0 ∧ left (initial.threads i) = 0)
    (hothers : ∀ {shared shared' : Shared} {thread thread' : Thread} {event : Event},
      program shared thread event shared' thread' → ∀ other,
        cost shared' other ≤ cost shared other + retry * (left thread - left thread'))
    (hstart : ∀ {shared shared' : Shared} {thread thread' : Thread} {event : Event},
      program shared thread event shared' thread' → starts event = true →
        cost shared' thread' ≤ most ∧ left thread' ≤ changes ∧ left thread = 0)
    (hsetback : ∀ {shared shared' : Shared} {thread thread' : Thread} {event : Event},
      program shared thread event shared' thread' → starts event = false → setback event = true →
        cost shared' thread' ≤ cost shared thread + again ∧ left thread' ≤ left thread)
    (hgoOn : ∀ {shared shared' : Shared} {thread thread' : Thread} {event : Event},
      program shared thread event shared' thread' → starts event = false →
        setback event = false →
        cost shared' thread' < cost shared thread ∧ left thread' ≤ left thread)
    (hrun : Run program guard initial history config) :
    history.length ≤ (history.countP fun entry ↦ starts entry.2) *
        (most + 1 + retry * (Fintype.card ι - 1) * changes) +
      (history.countP fun entry ↦ setback entry.2) * (again + 1) := by
  suffices hbound : history.length + potential cost left retry config ≤
      (history.countP fun entry ↦ starts entry.2) *
          (most + 1 + retry * (Fintype.card ι - 1) * changes) +
        (history.countP fun entry ↦ setback entry.2) * (again + 1) from
    (Nat.le_add_right _ _).trans hbound
  refine hrun.invariant (fun history config ↦ history.length + potential cost left retry config ≤
    (history.countP fun entry ↦ starts entry.2) *
        (most + 1 + retry * (Fintype.card ι - 1) * changes) +
      (history.countP fun entry ↦ setback entry.2) * (again + 1)) ?_ ?_
  · simp [potential, weight, hinitial]
  · intro history config thread event shared own _ hpast _ hprogram
    have hpotential := potential_advance_le cost left retry config thread shared own
      (hothers hprogram)
    -- What a step that begins no call charges to the others is what it no longer has left.
    have hcharge (hleft : left own ≤ left (config.threads thread)) :
        (Fintype.card ι - 1) * (retry * (left (config.threads thread) - left own)) +
          retry * (Fintype.card ι - 1) * left own =
            retry * (Fintype.card ι - 1) * left (config.threads thread) := by
      rw [← Nat.mul_assoc, Nat.mul_comm (Fintype.card ι - 1) retry, ← Nat.mul_add,
        Nat.sub_add_cancel hleft]
    rw [List.length_append, List.length_singleton, List.countP_append, List.countP_append,
      List.countP_singleton, List.countP_singleton, Nat.add_mul, Nat.add_mul]
    by_cases hevent : starts event = true
    · obtain ⟨hcost, hleft, hnone⟩ := hstart hprogram hevent
      have hchanges := Nat.mul_le_mul_left (retry * (Fintype.card ι - 1)) hleft
      have hmore := Nat.zero_le ((if setback event = true then 1 else 0) * (again + 1))
      rw [if_pos hevent, Nat.one_mul]
      simp only [weight, hnone, Nat.zero_sub, Nat.mul_zero, Nat.add_zero] at hpotential
      omega
    · by_cases hback : setback event = true
      · obtain ⟨hcost, hleft⟩ := hsetback hprogram (Bool.not_eq_true _ ▸ hevent) hback
        have hcharged := hcharge hleft
        simp only [weight] at hpotential
        simp only [if_neg hevent, if_pos hback, Nat.zero_mul, Nat.one_mul, Nat.add_zero]
        omega
      · obtain ⟨hcost, hleft⟩ := hgoOn hprogram (Bool.not_eq_true _ ▸ hevent)
          (Bool.not_eq_true _ ▸ hback)
        have hcharged := hcharge hleft
        simp only [weight] at hpotential
        simp only [if_neg hevent, if_neg hback, Nat.zero_mul, Nat.add_zero]
        omega

/-- A call that has begun has returned, or its thread is in it. -/
theorem countP_starts_eq (starts returns : Event → Bool) (busy : Thread → ℕ)
    (hinitial : ∀ i, busy (initial.threads i) = 0)
    (hstep : ∀ {shared shared' : Shared} {thread thread' : Thread} {event : Event},
      program shared thread event shared' thread' →
        busy thread' + (returns event).toNat = busy thread + (starts event).toNat)
    (hrun : Run program guard initial history config) :
    (history.countP fun entry ↦ starts entry.2) =
      (history.countP fun entry ↦ returns entry.2) + ∑ i, busy (config.threads i) := by
  refine hrun.invariant (fun history config ↦ (history.countP fun entry ↦ starts entry.2) =
    (history.countP fun entry ↦ returns entry.2) + ∑ i, busy (config.threads i)) ?_ ?_
  · simp [hinitial]
  · intro history config thread event shared own _ hpast _ hprogram
    have hbalance := hstep hprogram
    have hsplit (config : Config ι Shared Thread) : ∑ i, busy (config.threads i) =
        busy (config.threads thread) +
          ∑ i ∈ Finset.univ.erase thread, busy (config.threads i) :=
      (Finset.add_sum_erase _ _ (Finset.mem_univ thread)).symm
    have hrest : ∑ i ∈ Finset.univ.erase thread, busy ((config.advance thread shared own).threads i)
        = ∑ i ∈ Finset.univ.erase thread, busy (config.threads i) :=
      Finset.sum_congr rfl fun i hi ↦ by
        rw [Config.advance_threads_of_ne config (Finset.ne_of_mem_erase hi)]
    have htoNat (b : Bool) : (if b = true then 1 else 0) = b.toNat := by cases b <;> rfl
    rw [hsplit] at hpast ⊢
    rw [hrest, Config.advance_threads_self]
    simp only [List.countP_append, List.countP_singleton, htoNat]
    omega

omit [DecidableEq ι] in
/-- No more calls are going on than there are threads. -/
theorem sum_busy_le {busy : Thread → ℕ} (hbusy : ∀ thread, busy thread ≤ 1)
    (config : Config ι Shared Thread) : ∑ i, busy (config.threads i) ≤ Fintype.card ι := by
  rw [Fintype.card_eq_sum_ones]
  exact Finset.sum_le_sum fun i _ ↦ hbusy _

/-! ### The commands of a schedule -/

section Schedules

variable {Command : Type*}

/-- The machine that records the command of each step with its event. -/
def recorded (machine : Machine Command Shared Thread Event) :
    Machine Command Shared Thread (Command × Event) :=
  fun command shared thread ↦
    (machine command shared thread).map fun (event, shared, own) ↦ ((command, event), shared, own)

omit [Fintype ι] in
/-- Executing a schedule with its commands recorded gives the history of the schedule, and the
schedule itself. -/
theorem run_recorded_of_play {machine : Machine Command Shared Thread Event}
    (schedule : List (ι × Command))
    (hplay : play machine anyStep schedule [] initial = some (history, config)) :
    ∃ record : List (ι × Command × Event),
      Run (recorded machine).program anyStep initial record config ∧
        record.map (fun entry ↦ (entry.1, entry.2.2)) = history ∧
        record.map (fun entry ↦ (entry.1, entry.2.1)) = schedule := by
  suffices hfrom : ∀ (rest : List (ι × Command)) (past : List (ι × Command × Event))
      (middle : Config ι Shared Thread),
      Run (recorded machine).program anyStep initial past middle →
      play machine anyStep rest (past.map fun entry ↦ (entry.1, entry.2.2)) middle =
        some (history, config) →
      ∃ record : List (ι × Command × Event),
        Run (recorded machine).program anyStep initial record config ∧
          record.map (fun entry ↦ (entry.1, entry.2.2)) = history ∧
          record.map (fun entry ↦ (entry.1, entry.2.1)) =
            past.map (fun entry ↦ (entry.1, entry.2.1)) ++ rest from
    hfrom schedule [] initial .start hplay
  intro rest
  induction rest with
  | nil =>
    intro past middle hrun hplay
    obtain ⟨rfl, rfl⟩ := Prod.mk.inj (Option.some.inj hplay)
    exact ⟨past, hrun, rfl, (List.append_nil _).symm⟩
  | cons first rest ih =>
    intro past middle hrun hplay
    obtain ⟨thread, command⟩ := first
    cases hstep : machine command middle.shared (middle.threads thread) with
    | none => simp [play, hstep] at hplay
    | some result =>
      obtain ⟨event, shared, own⟩ := result
      have hnext : Run (recorded machine).program anyStep initial
          (past ++ [(thread, command, event)]) (middle.advance thread shared own) :=
        hrun.step trivial ⟨command, by simp [recorded, hstep]⟩
      rw [play_cons hstep] at hplay
      obtain ⟨record, hrecord, hhistory, hschedule⟩ := ih _ _ hnext
        (by rw [List.map_append]; exact hplay)
      refine ⟨record, hrecord, hhistory, hschedule.trans ?_⟩
      rw [List.map_append, List.append_assoc]
      rfl

end Schedules

end Mcmp.Foundation.SharedRetries
