import Mathlib.Logic.Basic

/-!
# A signal sent to a thread

What the kernel keeps of a thread for one signal. A thread that blocks the signal has at most one of
it pending: sending it again while it is pending changes nothing. A thread that does not block it
gets it at once, and the default action of the signal terminates the process. A thread that has
ended gets nothing, as long as it was not joined: afterwards its id is nobody's or that of another
thread, and sending a signal to it is not defined.
-/

set_option autoImplicit false
set_option relaxedAutoImplicit false

namespace Mcmp.Foundation.Signals

/-- A thread as the target of one signal. -/
structure Target where
  blocked : Bool
  pending : Bool
  ended : Bool
  deriving DecidableEq, Repr

namespace Target

/-- The target after the signal was sent to it, or nothing when that terminates the process. -/
def kill (target : Target) : Option Target :=
  if target.ended then some target
  else if target.blocked then some { target with pending := true } else none

/-- The target after a wait for the signal has returned, or nothing when it goes on waiting. -/
def sigwait (target : Target) : Option Target :=
  if target.pending then some { target with pending := false } else none

/-- The thread blocks the signal from now on. -/
def block (target : Target) : Target := { target with blocked := true }

/-- The thread has ended. -/
def finish (target : Target) : Target := { target with ended := true }

variable {target target' : Target}

/-- A signal finds a thread that has ended, becomes pending, or terminates the process. -/
theorem kill_cases (target : Target) :
    (target.ended = true ∧ target.kill = some target) ∨
      (target.ended = false ∧ target.blocked = true ∧
        target.kill = some { target with pending := true }) ∨
      (target.ended = false ∧ target.blocked = false ∧ target.kill = none) := by
  cases hended : target.ended with
  | true => exact Or.inl ⟨rfl, if_pos hended⟩
  | false =>
    refine Or.inr ?_
    cases hblocked : target.blocked with
    | true => exact Or.inl ⟨rfl, rfl, by simp [kill, hended, hblocked]⟩
    | false => exact Or.inr ⟨rfl, rfl, by simp [kill, hended, hblocked]⟩

/-- A wait returns when the signal is pending, and takes it. -/
theorem sigwait_eq_some :
    target.sigwait = some target' ↔
      target.pending = true ∧ target' = { target with pending := false } := by
  unfold sigwait
  cases target.pending with
  | true => simp [eq_comm]
  | false => simp

end Target

end Mcmp.Foundation.Signals
