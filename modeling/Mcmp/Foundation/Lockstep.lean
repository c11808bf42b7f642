import Mcmp.Foundation.Interleaving

/-!
# Machines in lockstep

Two machines that take the same commands. They go in lockstep under a relation of their
configurations when, from two related ones, a command applies to both or to neither and leads to the
same event and to related configurations again. Then the runs of the one are the runs of the other:
every history of the first is a history of the second, with related configurations at their ends,
and the other way round (`InStep.forward`, `InStep.backward`). A guard carries over where it follows
from the other one in related configurations (`InStep.forward_guard`), and a thread that goes on
alone does the same in both (`InStep.runAlone_abreast`).

The relation needs to be kept only where both machines can be, after one and the same history. So
what is known of the runs of either machine may be used to keep it.
-/

set_option autoImplicit false
set_option relaxedAutoImplicit false

namespace Mcmp.Foundation.Lockstep

open Interleaving

variable {ι Command Event Shared Thread Shared' Thread' : Type*} [DecidableEq ι]
  {machine : Machine Command Shared Thread Event} {machine' : Machine Command Shared' Thread' Event}
  {initial : Config ι Shared Thread} {initial' : Config ι Shared' Thread'}
  {related : Config ι Shared Thread → Config ι Shared' Thread' → Prop}

/-- Two machines go in lockstep from two configurations: these are related, and from related
configurations that both machines reach with one history every command of every thread does the same
in both. -/
structure InStep (machine : Machine Command Shared Thread Event)
    (machine' : Machine Command Shared' Thread' Event) (initial : Config ι Shared Thread)
    (initial' : Config ι Shared' Thread')
    (related : Config ι Shared Thread → Config ι Shared' Thread' → Prop) : Prop where
  start : related initial initial'
  step : ∀ {history config config'}, Run machine.program anyStep initial history config →
    Run machine'.program anyStep initial' history config' → related config config' →
    ∀ thread command, Option.Rel
      (fun next next' ↦ next.1 = next'.1 ∧
        related (config.advance thread next.2.1 next.2.2)
          (config'.advance thread next'.2.1 next'.2.2))
      (machine command config.shared (config.threads thread))
      (machine' command config'.shared (config'.threads thread))

/-- A step of the first machine is one of the second. -/
theorem InStep.program_step (h : InStep machine machine' initial initial' related)
    {history : List (ι × Event)} {config : Config ι Shared Thread}
    {config' : Config ι Shared' Thread'}
    (hrun : Run machine.program anyStep initial history config)
    (hrun' : Run machine'.program anyStep initial' history config')
    (hrelated : related config config') {thread : ι} {event : Event} {shared : Shared}
    {own : Thread} (hprogram : machine.program config.shared (config.threads thread) event shared
      own) :
    ∃ shared' own', machine'.program config'.shared (config'.threads thread) event shared' own' ∧
      related (config.advance thread shared own) (config'.advance thread shared' own') := by
  obtain ⟨command, hnext⟩ := hprogram
  have hstep := h.step hrun hrun' hrelated thread command
  rw [hnext] at hstep
  generalize hnext' : machine' command config'.shared (config'.threads thread) = next' at hstep
  cases hstep with
  | @some _ next' hsame =>
    obtain ⟨event', shared', own'⟩ := next'
    obtain ⟨rfl, hrelated'⟩ := hsame
    exact ⟨shared', own', ⟨command, hnext'⟩, hrelated'⟩

/-- Every run of the first machine that meets a guard is one of the second that meets a guard that
follows from it where the configurations are related. -/
theorem InStep.forward_guard (h : InStep machine machine' initial initial' related)
    {guard : Guard ι Shared Thread Event} (guard' : Guard ι Shared' Thread' Event)
    (hguard : ∀ history config config' thread event,
      Run machine'.program anyStep initial' history config' → related config config' →
      guard history config thread event → guard' history config' thread event)
    {history : List (ι × Event)} {config : Config ι Shared Thread}
    (hrun : Run machine.program guard initial history config) :
    ∃ config', Run machine'.program guard' initial' history config' ∧ related config config' := by
  refine hrun.invariant (fun history config ↦ ∃ config',
    Run machine'.program guard' initial' history config' ∧ related config config')
    ⟨initial', .start, h.start⟩ ?_
  rintro history config thread event shared own hpast ⟨config', hpast', hrelated⟩ hmeets hprogram
  have hany : Run machine'.program anyStep initial' history config' :=
    hpast'.mono fun _ _ _ _ _ ↦ trivial
  obtain ⟨shared', own', hprogram', hrelated'⟩ :=
    h.program_step (hpast.mono fun _ _ _ _ _ ↦ trivial) hany hrelated hprogram
  exact ⟨_, hpast'.step (hguard _ _ _ _ _ hany hrelated hmeets) hprogram', hrelated'⟩

/-- Every run of the first machine is one of the second. -/
theorem InStep.forward (h : InStep machine machine' initial initial' related)
    {history : List (ι × Event)} {config : Config ι Shared Thread}
    (hrun : Run machine.program anyStep initial history config) :
    ∃ config', Run machine'.program anyStep initial' history config' ∧ related config config' :=
  h.forward_guard anyStep (fun _ _ _ _ _ _ _ _ ↦ trivial) hrun

/-- Two machines that go in lockstep do so the other way round. -/
theorem InStep.symm (h : InStep machine machine' initial initial' related) :
    InStep machine' machine initial' initial fun config' config ↦ related config config' where
  start := h.start
  step hpast' hpast hrelated thread command := by
    have hstep := h.step hpast hpast' hrelated thread command
    generalize machine command _ _ = next at hstep
    generalize machine' command _ _ = next' at hstep
    cases hstep with
    | none => exact .none
    | some hsame => exact .some ⟨hsame.1.symm, hsame.2⟩

/-- Every run of the second machine is one of the first. -/
theorem InStep.backward (h : InStep machine machine' initial initial' related)
    {history : List (ι × Event)} {config' : Config ι Shared' Thread'}
    (hrun : Run machine'.program anyStep initial' history config') :
    ∃ config, Run machine.program anyStep initial history config ∧ related config config' :=
  h.symm.forward hrun

/-- Both machines are at related configurations that they reach with one history. -/
structure Abreast (machine : Machine Command Shared Thread Event)
    (machine' : Machine Command Shared' Thread' Event) (initial : Config ι Shared Thread)
    (initial' : Config ι Shared' Thread')
    (related : Config ι Shared Thread → Config ι Shared' Thread' → Prop)
    (history : List (ι × Event)) (config : Config ι Shared Thread)
    (config' : Config ι Shared' Thread') : Prop where
  run : Run machine.program anyStep initial history config
  run' : Run machine'.program anyStep initial' history config'
  related : related config config'

/-- A command to a thread applies to both machines or to neither, with the same event, and they stay
abreast. -/
theorem InStep.step_abreast (h : InStep machine machine' initial initial' related)
    {history : List (ι × Event)} {config : Config ι Shared Thread}
    {config' : Config ι Shared' Thread'}
    (habreast : Abreast machine machine' initial initial' related history config config')
    (thread : ι) (command : Command) :
    Option.Rel (fun next next' ↦ next.1 = next'.1 ∧
        Abreast machine machine' initial initial' related (history ++ [(thread, next.1)])
          (config.advance thread next.2.1 next.2.2) (config'.advance thread next'.2.1 next'.2.2))
      (machine command config.shared (config.threads thread))
      (machine' command config'.shared (config'.threads thread)) := by
  have hstep := h.step habreast.run habreast.run' habreast.related thread command
  generalize hnext : machine command config.shared (config.threads thread) = next at hstep ⊢
  generalize hnext' : machine' command config'.shared (config'.threads thread) = next' at hstep ⊢
  cases hstep with
  | none => exact .none
  | @some next next' hsame =>
    obtain ⟨event, shared, own⟩ := next
    obtain ⟨event', shared', own'⟩ := next'
    obtain ⟨rfl, hrelated⟩ := hsame
    exact .some ⟨rfl, habreast.run.step trivial ⟨command, hnext⟩,
      habreast.run'.step trivial ⟨command, hnext'⟩, hrelated⟩

/-- A thread that goes on alone makes the same events in both machines, which stay abreast. -/
theorem InStep.runAlone_abreast (h : InStep machine machine' initial initial' related)
    (thread : ι) (command : Command) (fuel : ℕ) {history : List (ι × Event)}
    {config : Config ι Shared Thread} {config' : Config ι Shared' Thread'}
    (habreast : Abreast machine machine' initial initial' related history config config') :
    (runAlone machine command fuel config.shared (config.threads thread)).1 =
        (runAlone machine' command fuel config'.shared (config'.threads thread)).1 ∧
      ∃ later, Abreast machine machine' initial initial' related later
        (config.advance thread
          (runAlone machine command fuel config.shared (config.threads thread)).2.1
          (runAlone machine command fuel config.shared (config.threads thread)).2.2)
        (config'.advance thread
          (runAlone machine' command fuel config'.shared (config'.threads thread)).2.1
          (runAlone machine' command fuel config'.shared (config'.threads thread)).2.2) := by
  induction fuel generalizing history config config' with
  | zero =>
    refine ⟨rfl, history, ?_⟩
    simpa only [runAlone, Config.advance_same] using habreast
  | succ fuel ih =>
    have hstep := h.step_abreast habreast thread command
    simp only [runAlone]
    generalize machine command config.shared (config.threads thread) = next at hstep ⊢
    generalize machine' command config'.shared (config'.threads thread) = next' at hstep ⊢
    cases hstep with
    | none =>
      refine ⟨rfl, history, ?_⟩
      simpa only [Config.advance_same] using habreast
    | @some next next' hsame =>
      obtain ⟨hevent, habreast'⟩ := hsame
      have hrest := ih habreast'
      simp only [Config.advance_shared, Config.advance_threads_self,
        Config.advance_advance] at hrest
      exact ⟨by simp only [hevent, hrest.1], hrest.2⟩

end Mcmp.Foundation.Lockstep
