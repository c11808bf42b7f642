import Mcmp.Routines.MonitorThread

/-!
# The thread of a monitor in fair executions

In the executions here the thread goes on whenever it is not waiting for a signal that has not come,
the handler of the monitor returns from its calls, and the one that destroys the monitor goes on
until it has to wait for the end of the thread. Users need not do anything.

Every ping leads to a call of the handler that begins after it (`ping_leadsTo_call`), and every
destruction returns (`mcmchMonitorDestroy_returns`), unless the process is terminated. Both are
shown with a rank of the stages of the thread: the number of steps that the thread is away from the
call, or from its end.
-/

set_option autoImplicit false
set_option relaxedAutoImplicit false

namespace Mcmp.Routines.MonitorThread

open Foundation.Fairness Foundation.Interleaving Foundation.Signals

/-- The executions of a monitor from its start. -/
abbrev MonitorExecution (inherited : Bool) :=
  Execution monitorMachine.program anyStep (started inherited)

/-- The parties that are obliged to go on. -/
def obliged : MonitorParty → MonitorConfig → Prop
  | .handler, config => config.shared.terminated = false ∧ ¬ HandlerAt config .ended ∧
      (HandlerAt config .waiting → config.shared.signal.pending = true)
  | .owner, config => config.shared.terminated = false ∧
      (OwnerAt config .signalling ∨
        OwnerAt config .joining ∧ config.shared.signal.ended = true)
  | .user _, _ => False

variable {inherited : Bool} {history : MonitorHistory} {config : MonitorConfig}
  {party : MonitorParty} {event : MonitorEvent} {state : MonitorState} {actor : Actor}
  {execution : MonitorExecution inherited}

/-- A rank of the stages of the thread, as a rank of the configurations. -/
def stageRank (rank : HandlerStage → ℕ) (config : MonitorConfig) : ℕ :=
  match config.threads .handler with
  | .handler stage => rank stage
  | _ => 0

theorem HandlerAt.stageRank_eq {stage : HandlerStage} (hat : HandlerAt config stage)
    (rank : HandlerStage → ℕ) : stageRank rank config = rank stage := by
  rw [HandlerAt] at hat
  rw [stageRank, hat]

@[simp] theorem stageRank_advance_handler (rank : HandlerStage → ℕ) (stage : HandlerStage) :
    stageRank rank (config.advance .handler state (.handler stage)) = rank stage :=
  HandlerAt.stageRank_eq (handlerAt_advance_handler.mpr rfl) rank

@[simp] theorem stageRank_advance_owner (rank : HandlerStage → ℕ) :
    stageRank rank (config.advance .owner state actor) = stageRank rank config := by
  rw [stageRank, stageRank, Config.advance_threads_of_ne _ (by simp)]

@[simp] theorem stageRank_advance_user (rank : HandlerStage → ℕ) (i : ℕ) :
    stageRank rank (config.advance (.user i) state actor) = stageRank rank config := by
  rw [stageRank, stageRank, Config.advance_threads_of_ne _ (by simp)]

/-- The rule of fair executions of a monitor, with the steps that `MonitorStep` lists. -/
theorem monitor_leadsTo (hfair : execution.Fair obliged)
    {first second : MonitorHistory → MonitorConfig → Prop} (helper : MonitorParty)
    (rank : MonitorConfig → ℕ)
    (hobliged : ∀ {history : MonitorHistory} {config : MonitorConfig},
      MonitorRun inherited history config → first history config → ¬ second history config →
      obliged helper config)
    (hkept : ∀ {history : MonitorHistory} {config : MonitorConfig} {party : MonitorParty}
      {event : MonitorEvent} {state : MonitorState} {actor : Actor},
      Recorded inherited history config → first history config → ¬ second history config →
      MonitorStep config party event state actor →
      second (history ++ [(party, event)]) (config.advance party state actor) ∨
        first (history ++ [(party, event)]) (config.advance party state actor) ∧
          rank (config.advance party state actor) ≤ rank config ∧
          (party = helper → rank (config.advance party state actor) < rank config)) :
    execution.LeadsTo first second := by
  refine hfair.leadsTo helper rank (fun _ _ ↦ hobliged) ?_
  intro history config party event state actor hrun hfirst hsecond _ hprogram
  have hrecorded := recorded_of_run hrun
  exact hkept hrecorded hfirst hsecond (monitorStep_of_program hrecorded.housed hprogram).2

/-! ### Pings -/

/-- The steps that the thread is at most away from a call of the handler without an error, or from
the end of it. -/
def callRank : HandlerStage → ℕ
  | .ended => 0
  | .calling .success _ => 1
  | .woken _ => 2
  | .waiting => 3
  | .loop => 4
  | .blocking => 5
  | .beating .success _ => 7
  | .beating _ _ => 5
  | .calling _ _ => 6

theorem callRank_afterBeat {st : Mcmpst} (hst : st ≠ .critical) (status errno : ℤ) :
    callRank (afterBeat st status errno) < callRank (.beating st status) := by
  have hleast : callRank .loop < callRank (.beating st status) := by cases st <;> simp [callRank]
  rcases afterBeat_cases hst status errno with h | ⟨rfl, -, h | h⟩
  · rwa [h]
  · simp [h, callRank]
  · simp [h, callRank]

theorem callRank_beating {st : Mcmpst} (hst : st ≠ .success) (status : ℤ) :
    callRank (.beating st status) < callRank (.calling st status) := by
  cases st <;> simp_all [callRank]

/-- The thread gets nearer to the next call with each step that does not begin one. -/
theorem callRank_step (hstep : MonitorStep config party event state actor)
    (hcall : event ≠ .called .success) :
    stageRank callRank (config.advance party state actor) ≤ stageRank callRank config ∧
      (party = .handler →
        stageRank callRank (config.advance party state actor) < stageRank callRank config) := by
  cases hstep with
  | pinged | destroying | signalled | destroyed => simp
  | @called st status hat =>
    have hlower := @callRank_beating st (fun h ↦ hcall (by rw [h])) status
    simp [hat.stageRank_eq, hlower, hlower.le]
  | @beaten st status errno hat hst =>
    have hlower := callRank_afterBeat hst status errno
    simp [hat.stageRank_eq, hlower, hlower.le]
  | blocked hat | looped hat | left hat | woken hat | failed _ hat | tested hat | stopped hat
    | crashed hat => simp [hat.stageRank_eq, callRank]

/-- The ping is answered, or none can be. -/
def Settled (history : MonitorHistory) (config : MonitorConfig) : Prop :=
  ¬ Unanswered history ∨ Stopped history ∨ Crashed history ∨ config.shared.terminated = true

theorem ping_leadsTo_call (hfair : execution.Fair obliged) :
    execution.LeadsTo (fun history _ ↦ Unanswered history) Settled := by
  refine monitor_leadsTo hfair .handler (stageRank callRank) ?_ ?_
  · intro history config hrun hunanswered hsettled
    have hrecorded := recorded_of_run hrun
    simp only [Settled, not_or, not_not] at hsettled
    obtain ⟨-, hstopped, hcrashed, hgoes⟩ := hsettled
    refine ⟨by simpa using hgoes, fun hended ↦ ?_, fun hwaiting ↦ ?_⟩
    · exact (hrecorded.cause hended).elim hstopped hcrashed
    · rcases held_of_unanswered hrun hunanswered with h | h | ⟨status, h | h⟩ | h | h
      · exact absurd h hgoes
      · exact h
      · cases hwaiting.eq h
      · cases hwaiting.eq h
      · exact absurd h hstopped
      · exact absurd h hcrashed
  · intro history config party event state actor hrecorded hunanswered hsettled hstep
    by_cases hcall : event = .called .success
    · exact Or.inl (Or.inl fun h ↦ by simpa [hcall] using unanswered_concat.mp h)
    · refine Or.inr ⟨unanswered_concat.mpr (Or.inr ⟨hunanswered, hcall⟩), callRank_step hstep hcall⟩

/-! ### Destructions -/

/-- The destruction has sent its signal. -/
def Signalled (history : MonitorHistory) (config : MonitorConfig) : Prop :=
  Stopped history ∧ ¬ OwnerAt config .signalling

/-- The destruction has returned, or the process is terminated. -/
def Returned (_ : MonitorHistory) (config : MonitorConfig) : Prop :=
  OwnerAt config .done ∨ config.shared.terminated = true

/-- The steps that the thread is at most away from its end when `running` is clear. -/
def endRank : HandlerStage → ℕ
  | .ended => 0
  | .loop => 1
  | .woken _ => 1
  | .blocking => 2
  | .waiting => 2
  | .beating .success _ => 4
  | .calling .success _ => 5
  | .beating _ _ => 2
  | .calling _ _ => 3

theorem endRank_afterBeat {st : Mcmpst} (hst : st ≠ .critical) (status errno : ℤ) :
    endRank (afterBeat st status errno) < endRank (.beating st status) := by
  have hleast : endRank .loop < endRank (.beating st status) := by cases st <;> simp [endRank]
  rcases afterBeat_cases hst status errno with h | ⟨rfl, -, h | h⟩
  · rwa [h]
  · simp [h, endRank]
  · simp [h, endRank]

theorem endRank_beating (st : Mcmpst) (status : ℤ) :
    endRank (.beating st status) < endRank (.calling st status) := by
  cases st <;> simp [endRank]

/-- When `running` is clear, the thread gets nearer to its end with each step. -/
theorem endRank_step (hrunning : config.shared.running = false)
    (hstep : MonitorStep config party event state actor) :
    stageRank endRank (config.advance party state actor) ≤ stageRank endRank config ∧
      (party = .handler →
        stageRank endRank (config.advance party state actor) < stageRank endRank config) := by
  cases hstep with
  | pinged | destroying | signalled | destroyed => simp
  | looped _ h | tested _ h => simp [hrunning] at h
  | @called st status hat =>
    have hlower := endRank_beating st status
    simp [hat.stageRank_eq, hlower, hlower.le]
  | @beaten st status errno hat hst =>
    have hlower := endRank_afterBeat hst status errno
    simp [hat.stageRank_eq, hlower, hlower.le]
  | blocked hat | left hat | woken hat | failed _ hat | stopped hat | crashed hat =>
    simp [hat.stageRank_eq, endRank]

/-- Once the destruction has sent its signal, it stays so. -/
theorem signalled_step (hrecorded : Recorded inherited history config)
    (hstep : MonitorStep config party event state actor) (hsignalled : Signalled history config) :
    Signalled (history ++ [(party, event)]) (config.advance party state actor) := by
  obtain ⟨hstopped, hnot⟩ := hsignalled
  refine ⟨stopped_mono hstopped, fun hat ↦ ?_⟩
  cases hstep with
  | destroying hidle => exact hrecorded.idle.mp hidle hstopped
  | signalled | destroyed => simp at hat
  | _ => exact hnot (by simpa using hat)

/-- A signal is pending behind it on a thread that waits, when it has not terminated the process. -/
theorem pending_ping (hrecorded : Recorded inherited history config)
    (hgoes : (mcmchMonitorPing config.shared).terminated = false)
    (hwaiting : HandlerAt config .waiting) :
    (mcmchMonitorPing config.shared).signal.pending = true := by
  rcases ping_cases config.shared with ⟨hended, -⟩ | ⟨-, -, hping⟩ | ⟨-, -, hping⟩
  · cases hwaiting.eq (hrecorded.ended.mp hended)
  · simp [hping]
  · simp [hping] at hgoes

/-- Behind the signal of the destruction the thread does not wait for another one. -/
theorem wakened_of_run (hrun : MonitorRun inherited history config)
    (hsignalled : Signalled history config) (hgoes : config.shared.terminated = false)
    (hwaiting : HandlerAt config .waiting) : config.shared.signal.pending = true := by
  refine monitor_invariant (fun history config ↦ Signalled history config →
    config.shared.terminated = false → HandlerAt config .waiting →
      config.shared.signal.pending = true) ?_ ?_ hrun hsignalled hgoes hwaiting
  · exact fun h ↦ absurd h.1 (by simp [Stopped])
  rintro history config party event state actor hrecorded hgoes hpast hstep ⟨hstopped, hnot⟩
    hgoes' hat
  rw [stopped_concat] at hstopped
  cases hstep with
  | pinged | signalled => exact pending_ping hrecorded hgoes' (by simpa using hat)
  | destroying => simp at hnot
  | destroyed hjoining =>
    refine hpast ⟨by simpa using hstopped, fun h ↦ ?_⟩ hgoes (by simpa using hat)
    cases hjoining.eq h
  | looped _ hrunning =>
    have hclear := hrecorded.running.mpr (by simpa using hstopped)
    simp [hrunning] at hclear
  | @beaten st status errno _ hst =>
    rcases afterBeat_cases hst status errno with h | ⟨-, -, h | h⟩ <;> simp [h] at hat
  | _ => simp at hat

theorem stopped_leadsTo_signalled (hfair : execution.Fair obliged) :
    execution.LeadsTo (fun history _ ↦ Stopped history)
      fun history config ↦ Signalled history config ∨ Returned history config := by
  refine monitor_leadsTo hfair .owner (fun _ ↦ 0) ?_ ?_
  · intro history config _ hstopped hsecond
    simp only [Signalled, Returned, not_or, not_and, not_not] at hsecond
    exact ⟨by simpa using hsecond.2.2, Or.inl (hsecond.1 hstopped)⟩
  · intro history config party event state actor hrecorded hstopped hsecond hstep
    have hsignalling : OwnerAt config .signalling := by
      by_contra h
      exact hsecond (Or.inl ⟨hstopped, h⟩)
    by_cases hparty : party = .owner
    · left
      left
      subst hparty
      refine ⟨stopped_mono hstopped, ?_⟩
      cases hstep with
      | destroying hidle => cases hidle.eq hsignalling
      | signalled | destroyed => simp
    · exact Or.inr ⟨stopped_mono hstopped, le_rfl, fun h ↦ absurd h hparty⟩

theorem signalled_leadsTo_ended (hfair : execution.Fair obliged) :
    execution.LeadsTo Signalled
      fun history config ↦ (Signalled history config ∧ HandlerAt config .ended) ∨
        Returned history config := by
  refine monitor_leadsTo hfair .handler (stageRank endRank) ?_ ?_
  · intro history config hrun hsignalled hsecond
    obtain ⟨hended, hreturned⟩ := not_or.mp hsecond
    have hgoes : config.shared.terminated = false := by
      simpa using (not_or.mp hreturned).2
    exact ⟨hgoes, fun h ↦ hended ⟨hsignalled, h⟩, wakened_of_run hrun hsignalled hgoes⟩
  · intro history config party event state actor hrecorded hsignalled _ hstep
    exact Or.inr ⟨signalled_step hrecorded hstep hsignalled,
      endRank_step (hrecorded.running.mpr hsignalled.1) hstep⟩

theorem ended_leadsTo_returned (hfair : execution.Fair obliged) :
    execution.LeadsTo (fun history config ↦ Signalled history config ∧ HandlerAt config .ended)
      Returned := by
  refine monitor_leadsTo hfair .owner (fun _ ↦ 0) ?_ ?_
  · intro history config hrun ⟨⟨hstopped, hnot⟩, hended⟩ hreturned
    have hrecorded := recorded_of_run hrun
    obtain ⟨hdone, hgoes⟩ := not_or.mp hreturned
    refine ⟨by simpa using hgoes, Or.inr ⟨?_, hrecorded.ended.mpr hended⟩⟩
    obtain ⟨stage, hat⟩ := hrecorded.housed.owner
    cases stage with
    | idle => exact absurd hstopped (hrecorded.idle.mp hat)
    | signalling => exact absurd hat hnot
    | joining => exact hat
    | done => exact absurd hat hdone
  · intro history config party event state actor hrecorded ⟨hsignalled, hended⟩ _ hstep
    by_cases hparty : party = .owner
    · left
      subst hparty
      cases hstep with
      | destroying hidle => exact absurd hsignalled.1 (hrecorded.idle.mp hidle)
      | signalled hsignalling => exact absurd hsignalling hsignalled.2
      | destroyed => exact Or.inl (by simp)
    · refine Or.inr ⟨⟨signalled_step hrecorded hstep hsignalled, ?_⟩, le_rfl,
        fun h ↦ absurd h hparty⟩
      exact (@joined_step [] _ _ _ _ _ ⟨hended, by simp⟩ hstep).ended

/-- In a fair execution every ping is followed by a call of the handler, unless the monitor is being
destroyed, the handler was told of a critical error, or the process is terminated; and every
destruction returns, unless the process is terminated. -/
theorem monitorHandler_progresses (hfair : execution.Fair obliged) :
    execution.LeadsTo (fun history _ ↦ Unanswered history) Settled ∧
      execution.LeadsTo (fun history _ ↦ Stopped history) Returned :=
  ⟨ping_leadsTo_call hfair, (stopped_leadsTo_signalled hfair).trans_or
    ((signalled_leadsTo_ended hfair).trans_or (ended_leadsTo_returned hfair))⟩

/-- A fair execution with a ping that is answered and a destruction. -/
theorem monitorHandler_progresses_once :
    ∃ execution : MonitorExecution false, execution.Fair obliged ∧
      (execution.LeadsTo (fun history _ ↦ Unanswered history) Settled ∧
        execution.LeadsTo (fun history _ ↦ Stopped history) Returned) ∧
      ∃ n, (.user 0, .pinged) ∈ execution.history n ∧ calls (execution.history n) = 1 ∧
        Stopped (execution.history n) ∧ (execution.config n).shared.terminated = false := by
  let history : MonitorHistory := [(.handler, .blocked), (.handler, .looped true),
    (.user 0, .pinged), (.handler, .woken 0), (.handler, .tested true),
    (.handler, .called .success), (.handler, .beaten .success), (.owner, .stopped),
    (.handler, .looped false), (.owner, .signalled), (.owner, .destroyed)]
  obtain ⟨config, hrun, hview⟩ := exists_run_of_play monitorMachine anyStep (started false)
    [(.handler, .advance), (.handler, .advance), (.user 0, .ping), (.handler, .advance),
      (.handler, .advance), (.handler, .advance), (.handler, .returns 0), (.owner, .destroy),
      (.handler, .advance), (.owner, .advance), (.owner, .advance)]
    (fun config ↦ (config.threads .handler, config.threads .owner, config.shared.terminated))
    history (.handler .ended, .owner .done, false) rfl
  simp only [Prod.mk.injEq] at hview
  obtain ⟨hhandler, howner, hgoes⟩ := hview
  obtain ⟨execution, hfair, hrests⟩ :=
    @exists_fair_execution _ _ _ _ _ _ _ _ _ _ hrun obliged fun party ↦ by
    cases party with
    | handler => exact fun h ↦ h.2.1 hhandler
    | owner =>
      rintro ⟨-, h | ⟨h, -⟩⟩
      · cases OwnerAt.eq howner h
      · cases OwnerAt.eq howner h
    | user => exact id
  obtain ⟨hhistory, hconfig⟩ := hrests history.length le_rfl
  refine ⟨execution, hfair, monitorHandler_progresses hfair, history.length, ?_⟩
  rw [hhistory, hconfig]
  exact ⟨by decide, by decide, by decide, hgoes⟩

end Mcmp.Routines.MonitorThread
