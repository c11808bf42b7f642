import Mcmp.Routines.ExecutionPoolRuns

/-!
# Execution pools in fair executions

In the executions here the owner goes on whenever it is in one of its calls and does not wait for
the end of a thread, a thread goes on whenever it does not wait for a signal that has not come, and
each call of the handler returns.

A thread that a start has sent its signal to calls the handler, unless a destruction clears its bit
before (`mcmchExecutionPoolStart_runs`). A destruction frees the block exactly when every thread has
found its bit set before the destruction clears it (`mcmchExecutionPoolDestroy_frees_iff`): a thread
that has not never ends, and the destruction waits for it for ever.

The destruction is followed thread by thread. The stage of a thread, once its bit has been cleared
and its signal sent, can only get nearer to the end.
-/

set_option autoImplicit false
set_option relaxedAutoImplicit false

namespace Mcmp.Routines.ExecutionPool

open Foundation.ByteBits Foundation.Fairness Foundation.Interleaving Foundation.Signals

/-- The executions of a pool from its creation. -/
abbrev PoolExecution (pool : Pool) (memory : ByteMemory) (inherited : Bool) :=
  Execution (poolMachine pool).program anyStep (mcmchExecutionPoolCreate pool memory inherited)

/-- The parties that are obliged to go on. -/
def obliged : PoolParty → PoolConfig → Prop
  | .owner, config => config.shared.terminated = false ∧ ¬ OwnerAt config .ready ∧
      ¬ OwnerAt config .done ∧
      ∀ i, OwnerAt config (.joining i) → (config.shared.signal i).ended = true
  | .thread i, config => config.shared.terminated = false ∧ i < config.shared.linked ∧
      ¬ ThreadAt config i .ended ∧ ¬ ThreadAt config i .handling ∧
      (ThreadAt config i .waiting ∨ ThreadAt config i .parked →
        (config.shared.signal i).pending = true)

section Rules

variable {pool : Pool} {memory : ByteMemory} {inherited : Bool} {history : PoolHistory}
  {config : PoolConfig} {i j : ℕ} {execution : PoolExecution pool memory inherited}

/-- The process is terminated, or one of the threads has missed its bit. -/
def Failed (pool : Pool) (history : PoolHistory) (config : PoolConfig) : Prop :=
  config.shared.terminated = true ∨ ∃ i < pool.length, Missed i history

/-- Every call of the handler returns, unless the process is terminated. -/
def HandlersReturn (execution : PoolExecution pool memory inherited) : Prop :=
  ∀ i, execution.LeadsTo (fun _ config ↦ ThreadAt config i .handling)
    fun _ config ↦ ¬ ThreadAt config i .handling ∨ config.shared.terminated = true

/-- What every step of the owner and of the threads keeps holds from the moment on at which it
first holds. -/
theorem pool_stable {first : PoolHistory → PoolConfig → Prop}
    (howner : ∀ {history : PoolHistory} {config : PoolConfig} {stage stage' : OwnerStage}
      {event : PoolEvent} {state : PoolState}, PoolRun pool memory inherited history config →
      config.shared.terminated = false → first history config → OwnerAt config stage →
      OwnerStep pool config.shared stage event state stage' →
      first (history ++ [(.owner, event)]) (config.advance .owner state (.owner stage')))
    (hthread : ∀ {history : PoolHistory} {config : PoolConfig} {i : ℕ} {stage stage' : ThreadStage}
      {event : PoolEvent} {target : Target}, PoolRun pool memory inherited history config →
      config.shared.terminated = false → first history config → ThreadAt config i stage →
      ThreadStep pool config.shared i stage event target stage' →
      first (history ++ [(.thread i, event)])
        (config.advance (.thread i) (config.shared.setSignal i target) (.thread i stage')))
    {n m : ℕ} (hnm : n ≤ m) (hfirst : first (execution.history n) (execution.config n)) :
    first (execution.history m) (execution.config m) := by
  refine execution.stable ?_ hnm hfirst
  intro history config party event state actor hrun hfirst _ hprogram
  obtain ⟨hgoes, ⟨stage, stage', rfl, hat, rfl, hstep⟩ |
    ⟨i, stage, target, stage', rfl, hat, rfl, rfl, hstep⟩⟩ :=
    poolStep_of_program (housed_of_run hrun) hprogram
  · exact howner hrun hgoes hfirst hat hstep
  · exact hthread hrun hgoes hfirst hat hstep

/-- The rule of fair executions of a pool. -/
theorem pool_leadsTo (hfair : execution.Fair obliged)
    {first second : PoolHistory → PoolConfig → Prop} (helper : PoolParty) (rank : PoolConfig → ℕ)
    (hobliged : ∀ {history : PoolHistory} {config : PoolConfig},
      PoolRun pool memory inherited history config → first history config →
      ¬ second history config → obliged helper config)
    (howner : ∀ {history : PoolHistory} {config : PoolConfig} {stage stage' : OwnerStage}
      {event : PoolEvent} {state : PoolState}, PoolRun pool memory inherited history config →
      first history config → ¬ second history config → OwnerAt config stage →
      OwnerStep pool config.shared stage event state stage' →
      second (history ++ [(.owner, event)]) (config.advance .owner state (.owner stage')) ∨
        first (history ++ [(.owner, event)]) (config.advance .owner state (.owner stage')) ∧
          rank (config.advance .owner state (.owner stage')) ≤ rank config ∧
          (.owner = helper → rank (config.advance .owner state (.owner stage')) < rank config))
    (hthread : ∀ {history : PoolHistory} {config : PoolConfig} {i : ℕ} {stage stage' : ThreadStage}
      {event : PoolEvent} {target : Target}, PoolRun pool memory inherited history config →
      first history config → ¬ second history config → ThreadAt config i stage →
      ThreadStep pool config.shared i stage event target stage' →
      second (history ++ [(.thread i, event)])
          (config.advance (.thread i) (config.shared.setSignal i target) (.thread i stage')) ∨
        first (history ++ [(.thread i, event)])
            (config.advance (.thread i) (config.shared.setSignal i target) (.thread i stage')) ∧
          rank (config.advance (.thread i) (config.shared.setSignal i target) (.thread i stage')) ≤
            rank config ∧
          (.thread i = helper → rank (config.advance (.thread i)
            (config.shared.setSignal i target) (.thread i stage')) < rank config)) :
    execution.LeadsTo first second := by
  refine hfair.leadsTo helper rank (fun _ _ ↦ hobliged) ?_
  intro history config party event state actor hrun hfirst hsecond _ hprogram
  obtain ⟨hgoes, ⟨stage, stage', rfl, hat, rfl, hstep⟩ |
    ⟨i, stage, target, stage', rfl, hat, rfl, rfl, hstep⟩⟩ :=
    poolStep_of_program (housed_of_run hrun) hprogram
  · exact howner hrun hfirst hsecond hat hstep
  · exact hthread hrun hfirst hsecond hat hstep

/-- A rank of the stages of a thread, as a rank of the configurations. -/
def stageRank (i : ℕ) (rank : ThreadStage → ℕ) (config : PoolConfig) : ℕ :=
  match config.threads (.thread i) with
  | .thread _ stage => rank stage
  | _ => 0

theorem ThreadAt.stageRank_eq {stage : ThreadStage} (hat : ThreadAt config i stage)
    (rank : ThreadStage → ℕ) : stageRank i rank config = rank stage := by
  rw [ThreadAt] at hat
  rw [stageRank, hat]

/-- The rule of fair executions for one thread: its own steps lower a rank of its stages. -/
theorem thread_leadsTo (hfair : execution.Fair obliged)
    {first second : PoolHistory → PoolConfig → Prop} (i : ℕ) (rank : ThreadStage → ℕ)
    (hobliged : ∀ {history : PoolHistory} {config : PoolConfig},
      PoolRun pool memory inherited history config → first history config →
      ¬ second history config → obliged (.thread i) config)
    (howner : ∀ {history : PoolHistory} {config : PoolConfig} {stage stage' : OwnerStage}
      {event : PoolEvent} {state : PoolState}, PoolRun pool memory inherited history config →
      first history config → OwnerAt config stage →
      OwnerStep pool config.shared stage event state stage' →
      first (history ++ [(.owner, event)]) (config.advance .owner state (.owner stage')))
    (hthread : ∀ {history : PoolHistory} {config : PoolConfig} {j : ℕ} {stage stage' : ThreadStage}
      {event : PoolEvent} {target : Target}, PoolRun pool memory inherited history config →
      first history config → ThreadAt config j stage →
      ThreadStep pool config.shared j stage event target stage' → j ≠ i →
      first (history ++ [(.thread j, event)])
        (config.advance (.thread j) (config.shared.setSignal j target) (.thread j stage')))
    (hself : ∀ {history : PoolHistory} {config : PoolConfig} {stage stage' : ThreadStage}
      {event : PoolEvent} {target : Target}, PoolRun pool memory inherited history config →
      first history config → ¬ second history config → ThreadAt config i stage →
      ThreadStep pool config.shared i stage event target stage' →
      second (history ++ [(.thread i, event)])
          (config.advance (.thread i) (config.shared.setSignal i target) (.thread i stage')) ∨
        first (history ++ [(.thread i, event)])
            (config.advance (.thread i) (config.shared.setSignal i target) (.thread i stage')) ∧
          rank stage' < rank stage) :
    execution.LeadsTo first second := by
  refine pool_leadsTo hfair (.thread i) (stageRank i rank) hobliged ?_ ?_
  · intro history config stage stage' event state hrun hfirst _ hat hstep
    refine Or.inr ⟨howner hrun hfirst hat hstep, ?_, fun h ↦ by cases h⟩
    rw [stageRank, stageRank, Config.advance_threads_of_ne _ (by simp)]
  · intro history config j stage stage' event target hrun hfirst hsecond hat hstep
    by_cases hj : j = i
    · subst hj
      refine (hself hrun hfirst hsecond hat hstep).imp id fun ⟨hkept, hlower⟩ ↦ ?_
      rw [ThreadAt.stageRank_eq (threadAt_advance_self.mpr rfl) rank, hat.stageRank_eq rank]
      exact ⟨hkept, hlower.le, fun _ ↦ hlower⟩
    · refine Or.inr ⟨hthread hrun hfirst hat hstep hj, ?_, fun h ↦ absurd ?_ hj⟩
      · rw [stageRank, stageRank, Config.advance_threads_of_ne _ (by simpa [eq_comm] using hj)]
      · exact PoolParty.thread.inj h

/-- The rule of fair executions for the owner: its next step leads to the second property. -/
theorem owner_leadsTo (hfair : execution.Fair obliged)
    {first second : PoolHistory → PoolConfig → Prop}
    (hobliged : ∀ {history : PoolHistory} {config : PoolConfig},
      PoolRun pool memory inherited history config → first history config →
      ¬ second history config → obliged .owner config)
    (howner : ∀ {history : PoolHistory} {config : PoolConfig} {stage stage' : OwnerStage}
      {event : PoolEvent} {state : PoolState}, PoolRun pool memory inherited history config →
      first history config → ¬ second history config → OwnerAt config stage →
      OwnerStep pool config.shared stage event state stage' →
      second (history ++ [(.owner, event)]) (config.advance .owner state (.owner stage')))
    (hthread : ∀ {history : PoolHistory} {config : PoolConfig} {i : ℕ} {stage stage' : ThreadStage}
      {event : PoolEvent} {target : Target}, PoolRun pool memory inherited history config →
      first history config → ThreadAt config i stage →
      ThreadStep pool config.shared i stage event target stage' →
      first (history ++ [(.thread i, event)])
        (config.advance (.thread i) (config.shared.setSignal i target) (.thread i stage'))) :
    execution.LeadsTo first second := by
  refine pool_leadsTo hfair .owner (fun _ ↦ 0) hobliged ?_ ?_
  · intro history config stage stage' event state hrun hfirst hsecond hat hstep
    exact Or.inl (howner hrun hfirst hsecond hat hstep)
  · intro history config i stage stage' event target hrun hfirst _ hat hstep
    exact Or.inr ⟨hthread hrun hfirst hat hstep, le_rfl, fun h ↦ by cases h⟩

end Rules

/-! ### Signals that are not lost -/

section Signals

variable {pool : Pool} {memory : ByteMemory} {inherited : Bool} {history : PoolHistory}
  {config : PoolConfig} {i j : ℕ} {execution : PoolExecution pool memory inherited}

/-- A thread that has not ended has a signal pending behind one that has not terminated the
process. -/
theorem pending_kill {state : PoolState} (hgoes : (state.kill i).terminated = false)
    (hended : (state.signal i).ended = false) : ((state.kill i).signal i).pending = true := by
  rcases kill_cases state i with ⟨h, -⟩ | ⟨-, h⟩ | ⟨-, h⟩
  · simp [hended] at h
  · simp [h]
  · simp [h] at hgoes

/-- A signal to another thread changes nothing for this one, and a signal takes no other one
away. -/
theorem pending_kill_mono {state : PoolState} (hpending : (state.signal i).pending = true) :
    ((state.kill j).signal i).pending = true := by
  rcases kill_cases state j with ⟨-, h⟩ | ⟨-, h⟩ | ⟨-, h⟩
  · by_cases hij : i = j
    · subst hij
      simpa [h] using hpending
    · simpa [h, setSignal_signal_of_ne hij] using hpending
  · by_cases hij : i = j
    · subst hij
      simp [h]
    · simpa [h, setSignal_signal_of_ne hij] using hpending
  · simpa [h] using hpending

/-- The signals to a thread: `sent` is an event of the owner that sends one, and behind it the
thread does not go to a wait any more while the history is calm. Then the thread does not wait
without a pending signal behind that event in a calm history. -/
theorem pending_of_sent (sent : PoolEvent) (asleep : ThreadStage) (calm : PoolHistory → Prop)
    (hcalm : ∀ history entry, calm (history ++ [entry]) → calm history)
    (hasleep : asleep ≠ .ended)
    (hsent : ∀ {config : PoolConfig} {stage stage' : OwnerStage} {state : PoolState},
      OwnerStep pool config.shared stage sent state stage' → state = config.shared.kill i)
    (hawake : ∀ {history : PoolHistory} {config : PoolConfig} {stage : ThreadStage}
      {event : PoolEvent} {target : Target}, PoolRun pool memory inherited history config →
      (.owner, sent) ∈ history → calm history →
      ¬ ThreadStep pool config.shared i stage event target asleep)
    (hrun : PoolRun pool memory inherited history config) (hmem : (.owner, sent) ∈ history)
    (hquiet : calm history) (hgoes : config.shared.terminated = false)
    (hat : ThreadAt config i asleep) : (config.shared.signal i).pending = true := by
  refine pool_invariant (fun history config ↦ (.owner, sent) ∈ history → calm history →
    config.shared.terminated = false → ThreadAt config i asleep →
      (config.shared.signal i).pending = true) (by simp) ?_ ?_ hrun hmem hquiet hgoes hat
  · intro history config stage stage' event state hrun hgoes hpast _ hstep hmem hquiet hgoes' hat
    have hat' : ThreadAt config i asleep := by simpa using hat
    by_cases hevent : event = sent
    · subst hevent
      obtain rfl := hsent hstep
      refine pending_kill hgoes' ?_
      rw [← Bool.not_eq_true, ended_iff hrun, hat'.iff]
      exact hasleep
    · have hpending := hpast (by simpa [Ne.symm hevent] using hmem) (hcalm _ _ hquiet) hgoes hat'
      cases hstep with
      | started j | signalled j => exact pending_kill_mono hpending
      | _ => exact hpending
  · intro history config j stage stage' event target hrun hgoes hpast _ hstep hmem hquiet _ hat
    have hmem' : (.owner, sent) ∈ history := by simpa using hmem
    by_cases hij : i = j
    · subst hij
      obtain rfl := threadAt_advance_self.mp hat
      exact absurd hstep (hawake hrun hmem' (hcalm _ _ hquiet))
    · rw [Config.advance_shared, setSignal_signal_of_ne hij]
      exact hpast hmem' (hcalm _ _ hquiet) hgoes (by simpa [threadAt_advance_of_ne hij] using hat)

/-- The destruction has cleared the bit of a thread that it has sent its signal to. -/
theorem disabled_of_signalled (hrun : PoolRun pool memory inherited history config)
    (hsignalled : (.owner, .signalled i) ∈ history) :
    i < pool.length ∧ (.owner, .disabled (slotOf i)) ∈ history := by
  obtain ⟨stage, hat⟩ := (housed_of_run hrun).owner
  have hplaced := placed_of_run hrun hat
  have hnotified := (signalled_mem_iff hrun hat).mp hsignalled
  have hslot := slotOf_le i
  rw [disabled_mem_iff hrun hat]
  cases stage with
  | disabling k | signalling k | joining k =>
    have hk := hplaced.1
    simp only [notified, cleared] at hnotified ⊢
    omega
  | freeing | done => exact ⟨hnotified, hslot.trans_lt hnotified⟩
  | _ => simp [notified] at hnotified

/-- The bit of such a thread stays clear. -/
theorem not_enabled_of_signalled (hrun : PoolRun pool memory inherited history config)
    (hsignalled : (.owner, .signalled i) ∈ history) :
    pool.enabled config.shared.memory (slotOf i) = false := by
  obtain ⟨hi, hdisabled⟩ := disabled_of_signalled hrun hsignalled
  by_contra hbit
  exact (enabled_of_run hrun ((slotOf_le i).trans_lt hi) (by simpa using hbit)).2 hdisabled

/-- A thread does not wait for the end any more behind the signal of the destruction. -/
theorem pending_of_parked (hrun : PoolRun pool memory inherited history config)
    (hsignalled : (.owner, .signalled i) ∈ history) (hgoes : config.shared.terminated = false)
    (hat : ThreadAt config i .parked) : (config.shared.signal i).pending = true := by
  refine pending_of_sent (.signalled i) .parked (fun _ ↦ True) (fun _ _ _ ↦ trivial) (by simp)
    (fun hstep ↦ ?_) (fun hrun hmem _ hstep ↦ ?_) hrun hsignalled trivial hgoes hat
  · cases hstep
    rfl
  · cases hstep with
    | parks hbit => simp [not_enabled_of_signalled hrun hmem] at hbit

/-- A thread does not wait for its start any more behind the signal of the start, as long as no
destruction clears its bit. -/
theorem pending_of_waiting (hrun : PoolRun pool memory inherited history config)
    (hi : i < pool.length) (hstarted : (.owner, .started i) ∈ history)
    (hdisabled : (.owner, .disabled (slotOf i)) ∉ history)
    (hgoes : config.shared.terminated = false) (hat : ThreadAt config i .waiting) :
    (config.shared.signal i).pending = true := by
  refine pending_of_sent (.started i) .waiting
    (fun history ↦ (PoolParty.owner, PoolEvent.disabled (slotOf i)) ∉ history)
    (fun history entry h h' ↦ h (List.mem_append_left [entry] h')) (by simp) (fun hstep ↦ ?_)
    (fun hrun hmem hquiet hstep ↦ ?_) hrun hstarted hdisabled hgoes hat
  · cases hstep
    rfl
  · cases hstep with
    | awaits hbit =>
      simp [(enabled_of_started hrun hi hmem (slotOf_le i)).resolve_left hquiet] at hbit


end Signals

/-! ### The end of a thread -/

section Ends

variable {pool : Pool} {memory : ByteMemory} {inherited : Bool} {history : PoolHistory}
  {config : PoolConfig} {i j : ℕ} {execution : PoolExecution pool memory inherited}

/-- Behind the signal of the destruction a thread that has not missed its bit has found it set. -/
theorem passed_of_signalled (hrun : PoolRun pool memory inherited history config)
    (hsignalled : (.owner, .signalled i) ∈ history) (hmissed : ¬ Missed i history) :
    (.thread i, .awaited true) ∈ history := by
  obtain ⟨before, after, rfl⟩ :=
    List.append_of_mem (disabled_of_signalled hrun hsignalled).2
  by_contra hnot
  exact hmissed ⟨before, after, rfl, fun h ↦ hnot (List.mem_append_left _ h)⟩

/-- A thread that is not at its entry has been made. -/
theorem lt_linked {stage : ThreadStage} (hrun : PoolRun pool memory inherited history config)
    (hat : ThreadAt config i stage) (hstage : stage ≠ .entry) : i < config.shared.linked := by
  by_contra h
  exact hstage (hat.iff.mp (threadAt_entry hrun (not_lt.mp h)))

/-- What happened stays in the history. -/
theorem mem_concat {entry : PoolParty × PoolEvent} (hmem : entry ∈ history)
    (last : PoolParty × PoolEvent) : entry ∈ history ++ [last] :=
  List.mem_append_left _ hmem

theorem signalled_leadsTo_called (hfair : execution.Fair obliged) :
    execution.LeadsTo (fun history _ ↦ (.owner, .signalled i) ∈ history)
      fun history config ↦
        ((.owner, .signalled i) ∈ history ∧ (.thread i, .called) ∈ history) ∨
          Failed pool history config := by
  have hcalling : ∀ {history : PoolHistory} {config : PoolConfig},
      PoolRun pool memory inherited history config → (.owner, .signalled i) ∈ history →
      ¬(((.owner, .signalled i) ∈ history ∧ (.thread i, .called) ∈ history) ∨
        Failed pool history config) →
      config.shared.terminated = false ∧ ThreadAt config i .calling := by
    intro history config hrun hsignalled hsecond
    obtain ⟨hcalled, hfailed⟩ := not_or.mp hsecond
    obtain ⟨hgoes, hmissed⟩ := not_or.mp hfailed
    have hpassed := passed_of_signalled hrun hsignalled fun h ↦
      hmissed ⟨i, (disabled_of_signalled hrun hsignalled).1, h⟩
    obtain ⟨stage, hat⟩ := (housed_of_run hrun).thread i
    have htraced := traced_of_run hrun hat
    have hstage := htraced.passed.mp hpassed
    have hbegun : begun stage = 0 := by
      rw [← htraced.begun, List.count_eq_zero]
      exact fun h ↦ hcalled ⟨hsignalled, h⟩
    refine ⟨by simpa using hgoes, ?_⟩
    cases stage <;> simp [passed, begun] at hstage hbegun
    exact hat
  refine thread_leadsTo hfair i (fun _ ↦ 0) ?_ ?_ ?_ ?_
  · intro history config hrun hsignalled hsecond
    obtain ⟨hgoes, hat⟩ := hcalling hrun hsignalled hsecond
    exact ⟨hgoes, lt_linked hrun hat (by simp), by simp [hat.iff], by simp [hat.iff],
      by simp [hat.iff]⟩
  · exact fun _ hsignalled _ _ ↦ mem_concat hsignalled _
  · exact fun _ hsignalled _ _ _ ↦ mem_concat hsignalled _
  · intro history config stage stage' event target hrun hsignalled hsecond hat hstep
    obtain rfl := hat.iff.mp (hcalling hrun hsignalled hsecond).2
    cases hstep
    exact Or.inl (Or.inl ⟨by simpa using hsignalled, by simp⟩)

theorem called_leadsTo_returned (hreturn : HandlersReturn execution) :
    execution.LeadsTo
      (fun history _ ↦ (.owner, .signalled i) ∈ history ∧ (.thread i, .called) ∈ history)
      fun history config ↦
        ((.owner, .signalled i) ∈ history ∧ (.thread i, .returned) ∈ history) ∨
          Failed pool history config := by
  have hreturns : ∀ {history : PoolHistory} {config : PoolConfig},
      PoolRun pool memory inherited history config → (.thread i, .called) ∈ history →
      ¬ ThreadAt config i .handling → (.thread i, .returned) ∈ history := by
    intro history config hrun hcalled hnot
    obtain ⟨stage, hat⟩ := (housed_of_run hrun).thread i
    have htraced := traced_of_run hrun hat
    have hbegun : 0 < begun stage := by
      rw [← htraced.begun]
      exact List.count_pos_iff.mpr hcalled
    rw [← List.count_pos_iff, htraced.returns]
    cases stage with
    | handling => exact absurd hat hnot
    | leaving | parked | ended => exact Nat.one_pos
    | _ => simp [begun] at hbegun
  rintro n ⟨hsignalled, hcalled⟩
  by_cases hhandling : ThreadAt (execution.config n) i .handling
  · obtain ⟨m, hnm, hm⟩ := hreturn i n hhandling
    rcases hm with hnot | hterminated
    · have hlater : (.owner, .signalled i) ∈ execution.history m ∧
          (.thread i, .called) ∈ execution.history m :=
        @Execution.stable _ _ _ _ _ _ _ _ execution (fun history _ ↦
          (.owner, .signalled i) ∈ history ∧ (.thread i, .called) ∈ history)
          (fun _ _ _ _ _ _ _ h _ _ ↦ ⟨mem_concat h.1 _, mem_concat h.2 _⟩) n m hnm
          ⟨hsignalled, hcalled⟩
      exact ⟨m, hnm, Or.inl ⟨hlater.1, hreturns (execution.run m) hlater.2 hnot⟩⟩
    · exact ⟨m, hnm, Or.inr (Or.inl hterminated)⟩
  · exact ⟨n, le_rfl, Or.inl ⟨hsignalled, hreturns (execution.run n) hcalled hhandling⟩⟩

/-- The steps that a thread is at most away from its end. -/
def leaveRank : ThreadStage → ℕ
  | .parked => 2
  | .leaving => 1
  | _ => 0

theorem returned_leadsTo_ended (hfair : execution.Fair obliged) :
    execution.LeadsTo
      (fun history _ ↦ (.owner, .signalled i) ∈ history ∧ (.thread i, .returned) ∈ history)
      fun history config ↦ ThreadAt config i .ended ∨ Failed pool history config := by
  have hstages : ∀ {history : PoolHistory} {config : PoolConfig} {stage : ThreadStage},
      PoolRun pool memory inherited history config → (.thread i, .returned) ∈ history →
      ThreadAt config i stage → stage = .leaving ∨ stage = .parked ∨ stage = .ended := by
    intro history config stage hrun hreturned hat
    have hreturns : 0 < returns stage := by
      rw [← (traced_of_run hrun hat).returns]
      exact List.count_pos_iff.mpr hreturned
    cases stage <;> simp [returns] at hreturns ⊢
  refine thread_leadsTo hfair i leaveRank ?_ ?_ ?_ ?_
  · rintro history config hrun ⟨hsignalled, hreturned⟩ hsecond
    obtain ⟨hended, hfailed⟩ := not_or.mp hsecond
    have hgoes : config.shared.terminated = false := by simpa using (not_or.mp hfailed).1
    obtain ⟨stage, hat⟩ := (housed_of_run hrun).thread i
    refine ⟨hgoes, ?_, hended, ?_, ?_⟩
    · rcases hstages hrun hreturned hat with rfl | rfl | rfl <;>
        exact lt_linked hrun hat (by simp)
    · rcases hstages hrun hreturned hat with rfl | rfl | rfl <;> simp [hat.iff]
    · rintro (hwaiting | hparked)
      · rcases hstages hrun hreturned hwaiting with h | h | h <;> cases h
      · exact pending_of_parked hrun hsignalled hgoes hparked
  · exact fun _ h _ _ ↦ ⟨mem_concat h.1 _, mem_concat h.2 _⟩
  · exact fun _ h _ _ _ ↦ ⟨mem_concat h.1 _, mem_concat h.2 _⟩
  · rintro history config stage stage' event target hrun ⟨hsignalled, hreturned⟩ hsecond hat hstep
    have hkept := And.intro (mem_concat hsignalled (.thread i, event))
      (mem_concat hreturned (.thread i, event))
    rcases hstages hrun hreturned hat with rfl | rfl | rfl
    · cases hstep with
      | parks hbit => simp [not_enabled_of_signalled hrun hsignalled] at hbit
      | leaves => exact Or.inl (Or.inl (by simp))
    · cases hstep <;> exact Or.inr ⟨hkept, Nat.lt_succ_self _⟩
    · cases hstep

/-- A thread that the destruction has sent its signal to ends. -/
theorem signalled_leadsTo_ended (hfair : execution.Fair obliged)
    (hreturn : HandlersReturn execution) :
    execution.LeadsTo (fun history _ ↦ (.owner, .signalled i) ∈ history)
      fun history config ↦ ThreadAt config i .ended ∨ Failed pool history config :=
  ((signalled_leadsTo_called hfair).imp fun _ _ h ↦ h.imp id Or.inr).trans_or
    (((called_leadsTo_returned hreturn).imp fun _ _ h ↦ h.imp id Or.inr).trans_or
      (returned_leadsTo_ended hfair))

end Ends

/-! ### The calls of the owner -/

section Calls

variable {pool : Pool} {memory : ByteMemory} {inherited : Bool} {history : PoolHistory}
  {config : PoolConfig} {i j n : ℕ} {execution : PoolExecution pool memory inherited}

/-- The owner goes on from a stage at which it does not wait for anything. -/
theorem stage_leadsTo (hfair : execution.Fair obliged) {stage next : OwnerStage}
    (hbusy : stage ≠ .ready ∧ stage ≠ .done ∧ ∀ i, stage ≠ .joining i)
    (hnext : ∀ {state state' : PoolState} {event : PoolEvent} {stage' : OwnerStage},
      OwnerStep pool state stage event state' stage' → stage' = next) :
    execution.LeadsTo (fun _ config ↦ OwnerAt config stage)
      fun history config ↦ OwnerAt config next ∨ Failed pool history config := by
  refine owner_leadsTo hfair ?_ ?_ ?_
  · intro history config _ hat hsecond
    have hgoes := (not_or.mp (not_or.mp hsecond).2).1
    refine ⟨by simpa using hgoes, by simp [hat.iff, hbusy], by simp [hat.iff, hbusy], fun i h ↦ ?_⟩
    exact absurd (hat.iff.mp h) (hbusy.2.2 i)
  · intro history config stage' stage'' event state _ hat _ hat' hstep
    obtain rfl := hat.iff.mp hat'
    exact Or.inl (by simp [hnext hstep])
  · intro history config i stage' stage'' event target _ hat _ _
    simpa using hat

/-- A join returns. -/
theorem joining_leadsTo (hfair : execution.Fair obliged) (hreturn : HandlersReturn execution)
    (i : ℕ) :
    execution.LeadsTo (fun _ config ↦ OwnerAt config (.joining i)) fun history config ↦
      OwnerAt config (pool.disablingFrom (i + 1)) ∨ Failed pool history config := by
  have hended : execution.LeadsTo (fun _ config ↦ OwnerAt config (.joining i))
      fun history config ↦ ThreadAt config i .ended ∨ Failed pool history config := by
    intro n hat
    have hsent := (signalled_mem_iff (execution.run n) hat).mpr (Nat.lt_succ_self i)
    exact signalled_leadsTo_ended hfair hreturn n hsent
  have hjoined : execution.LeadsTo
      (fun _ config ↦ OwnerAt config (.joining i) ∧ ThreadAt config i .ended)
      fun history config ↦ OwnerAt config (pool.disablingFrom (i + 1)) ∨
        Failed pool history config := by
    refine owner_leadsTo hfair ?_ ?_ ?_
    · intro history config hrun ⟨hat, hended⟩ hsecond
      have hgoes := (not_or.mp (not_or.mp hsecond).2).1
      refine ⟨by simpa using hgoes, by simp [hat.iff], by simp [hat.iff], fun k h ↦ ?_⟩
      obtain rfl : i = k := by simpa using hat.iff.mp h
      exact (ended_iff hrun).mpr hended
    · intro history config stage stage' event state _ ⟨hat, _⟩ _ hat' hstep
      obtain rfl := hat.iff.mp hat'
      cases hstep
      exact Or.inl (by simp)
    · intro history config k stage stage' event target _ ⟨hat, hended⟩ hat' hstep
      refine ⟨by simpa using hat, ?_⟩
      by_cases hik : i = k
      · subst hik
        obtain rfl := hat'.iff.mp hended
        cases hstep
      · rwa [threadAt_advance_of_ne hik]
  have huntil : execution.LeadsTo (fun _ config ↦ OwnerAt config (.joining i))
      fun history config ↦ (OwnerAt config (.joining i) ∧
          (ThreadAt config i .ended ∨ Failed pool history config)) ∨
        OwnerAt config (pool.disablingFrom (i + 1)) := by
    refine Execution.LeadsTo.until ?_ hended
    intro history config party event state actor hrun hat _ hprogram
    obtain ⟨-, ⟨stage, stage', rfl, hat', rfl, hstep⟩ | ⟨k, _, _, _, rfl, -, -, rfl, -⟩⟩ :=
      poolStep_of_program (housed_of_run hrun) hprogram
    · obtain rfl := hat.iff.mp hat'
      cases hstep
      exact Or.inr (by simp)
    · exact Or.inl (by simpa using hat)
  refine (huntil.imp fun _ _ h ↦ ?_).trans_or hjoined
  rcases h with ⟨hat, hended | hfailed⟩ | hnext
  · exact Or.inl ⟨hat, hended⟩
  · exact Or.inr (Or.inr hfailed)
  · exact Or.inr (Or.inl hnext)

/-- The owner gets from a stage of the destruction to its end. -/
def Frees (execution : PoolExecution pool memory inherited) (stage : OwnerStage) : Prop :=
  execution.LeadsTo (fun _ config ↦ OwnerAt config stage)
    fun history config ↦ OwnerAt config .done ∨ Failed pool history config

theorem Frees.before {stage next : OwnerStage} (hnext : Frees execution next)
    (hleads : execution.LeadsTo (fun _ config ↦ OwnerAt config stage)
      fun history config ↦ OwnerAt config next ∨ Failed pool history config) :
    Frees execution stage :=
  (hleads.imp fun _ _ h ↦ h.imp id Or.inr).trans_or hnext

theorem frees_joining (hfair : execution.Fair obliged) (hreturn : HandlersReturn execution)
    (hnext : Frees execution (pool.disablingFrom (i + 1))) : Frees execution (.joining i) :=
  hnext.before (joining_leadsTo hfair hreturn i)

theorem frees_signalling (hfair : execution.Fair obliged) (hreturn : HandlersReturn execution)
    (hnext : Frees execution (pool.disablingFrom (i + 1))) : Frees execution (.signalling i) :=
  (frees_joining hfair hreturn hnext).before
    (stage_leadsTo hfair (by simp) fun hstep ↦ by cases hstep; rfl)

theorem frees_disabling (hfair : execution.Fair obliged) (hreturn : HandlersReturn execution)
    (hnext : Frees execution (pool.disablingFrom (i + 1))) : Frees execution (.disabling i) :=
  (frees_signalling hfair hreturn hnext).before
    (stage_leadsTo hfair (by simp) fun hstep ↦ by cases hstep; rfl)

theorem frees_freeing (hfair : execution.Fair obliged) : Frees execution .freeing :=
  stage_leadsTo hfair (by simp) fun hstep ↦ by cases hstep; rfl

/-- By induction on the number of threads that are left. -/
theorem frees_disablingFrom (hfair : execution.Fair obliged) (hreturn : HandlersReturn execution)
    {left : ℕ} (hleft : pool.length - i = left) : Frees execution (pool.disablingFrom i) := by
  induction left generalizing i with
  | zero =>
    rw [Pool.disablingFrom, if_neg (by omega)]
    exact frees_freeing hfair
  | succ left ih =>
    rw [Pool.disablingFrom, if_pos (by omega)]
    exact frees_disabling hfair hreturn (ih (by omega))

/-- The owner is in a destruction, or behind it. -/
def Destroying (stage : OwnerStage) : Prop :=
  stage = .freeing ∨ stage = .done ∨
    ∃ i, stage = .disabling i ∨ stage = .signalling i ∨ stage = .joining i

theorem destroyBegun_mem_iff {stage : OwnerStage}
    (hrun : PoolRun pool memory inherited history config) (hat : OwnerAt config stage) :
    (.owner, .destroyBegun) ∈ history ↔ Destroying stage := by
  have hfrom : ∀ i, ¬ Destroying (pool.linkingFrom i) ∧ ¬ Destroying (pool.enablingFrom i) ∧
      Destroying (pool.disablingFrom i) := by
    intro i
    unfold Pool.linkingFrom Pool.enablingFrom Pool.disablingFrom
    split_ifs <;> simp [Destroying]
  refine owner_mem_iff .destroyBegun Destroying (hfrom 0).1 (fun _ hstep ↦ ?_) hrun hat
  cases hstep with
  | linked | started | startBegun =>
    simp only [hfrom]
    simp [Destroying]
  | destroyBegun => simp [hfrom]
  | joined =>
    simp only [hfrom]
    simp [Destroying]
  | _ => simp [Destroying]

theorem destroying_leadsTo_done (hfair : execution.Fair obliged)
    (hreturn : HandlersReturn execution) :
    execution.LeadsTo (fun history _ ↦ (.owner, .destroyBegun) ∈ history)
      fun history config ↦ OwnerAt config .done ∨ Failed pool history config := by
  intro n hbegun
  obtain ⟨stage, hat⟩ := (housed_of_run (execution.run n)).owner
  have hnext (i : ℕ) : Frees execution (pool.disablingFrom (i + 1)) :=
    frees_disablingFrom hfair hreturn rfl
  rcases (destroyBegun_mem_iff (execution.run n) hat).mp hbegun with
    rfl | rfl | ⟨i, rfl | rfl | rfl⟩
  · exact frees_freeing hfair n hat
  · exact ⟨n, le_rfl, Or.inl hat⟩
  · exact frees_disabling hfair hreturn (hnext i) n hat
  · exact frees_signalling hfair hreturn (hnext i) n hat
  · exact frees_joining hfair hreturn (hnext i) n hat

/-- The process is not terminated when the block has been freed. -/
theorem not_terminated_of_freed (hrun : PoolRun pool memory inherited history config)
    (hfreed : (.owner, .freed) ∈ history) : config.shared.terminated = false := by
  refine pool_invariant (fun history config ↦ (.owner, .freed) ∈ history →
    config.shared.terminated = false) (by simp) ?_ ?_ hrun hfreed
  · intro history config stage stage' event state hrun hgoes _ hat hstep hfreed
    cases hstep with
    | started | signalled =>
      have hbefore : (.owner, .freed) ∈ history := by simpa using hfreed
      cases (freed_mem_iff hrun hat).mp hbefore
    | _ => exact hgoes
  · exact fun _ hgoes _ _ _ _ ↦ hgoes

/-- What happened has happened later on, and a thread that has missed its bit has missed it later
on. -/
theorem mem_stable {entry : PoolParty × PoolEvent} {m : ℕ} (hnm : n ≤ m)
    (hmem : entry ∈ execution.history n) : entry ∈ execution.history m :=
  @Execution.stable _ _ _ _ _ _ _ _ execution (fun history _ ↦ entry ∈ history)
    (fun _ _ _ _ _ _ _ h _ _ ↦ mem_concat h _) n m hnm hmem

theorem missed_stable {m : ℕ} (hnm : n ≤ m) (hmissed : Missed i (execution.history n)) :
    Missed i (execution.history m) :=
  @Execution.stable _ _ _ _ _ _ _ _ execution (fun history _ ↦ Missed i history)
    (fun _ _ _ _ _ _ _ h _ _ ↦ missed_concat.mpr (Or.inl h)) n m hnm hmissed

/-- Nobody moves when the process is terminated. -/
theorem terminated_stable {m : ℕ} (hnm : n ≤ m)
    (hterminated : (execution.config n).shared.terminated = true) :
    (execution.config m).shared.terminated = true := by
  refine @pool_stable _ _ _ execution (fun _ config ↦ config.shared.terminated = true) ?_ ?_ n m hnm
    hterminated
  · intro history config stage stage' event state _ hgoes hterminated _ _
    simp [hgoes] at hterminated
  · intro history config i stage stage' event target _ hgoes hterminated _ _
    simp [hgoes] at hterminated

/-- In a fair execution in which the handlers return, a destruction that has begun frees the block
exactly when the process is not terminated and every thread has found its bit set before the
destruction clears it. -/
theorem mcmchExecutionPoolDestroy_frees_iff (hfair : execution.Fair obliged)
    (hreturn : HandlersReturn execution)
    (hbegun : (.owner, .destroyBegun) ∈ execution.history n) :
    (∃ m, (.owner, .freed) ∈ execution.history m) ↔
      ∀ m, (execution.config m).shared.terminated = false ∧
        ∀ i < pool.length, ¬ Missed i (execution.history m) := by
  constructor
  · rintro ⟨k, hfreed⟩ m
    have hlater := mem_stable (Nat.le_max_left k m) hfreed
    refine ⟨?_, fun i hi hmissed ↦ ?_⟩
    · have hgoes := not_terminated_of_freed (execution.run _) hlater
      by_contra hterminated
      have hstill := terminated_stable (Nat.le_max_right k m) (by simpa using hterminated)
      rw [hgoes] at hstill
      cases hstill
    · obtain ⟨stage, hat⟩ := (housed_of_run (execution.run (max k m))).owner
      obtain rfl := (freed_mem_iff (execution.run _) hat).mp hlater
      have hended := threadAt_ended_of_finished (execution.run _) hat hi
      have hpassed := (traced_of_run (execution.run _) hended).passed.mpr rfl
      exact not_passed_of_missed (execution.run _)
        (missed_stable (Nat.le_max_right k m) hmissed) hpassed
  · intro hgood
    obtain ⟨m, -, hdone | hterminated | ⟨i, hi, hmissed⟩⟩ :=
      destroying_leadsTo_done hfair hreturn n hbegun
    · exact ⟨m, (freed_mem_iff (execution.run m) hdone).mpr rfl⟩
    · simp [(hgood m).1] at hterminated
    · exact absurd hmissed ((hgood m).2 i hi)

/-- The run of `exists_one_run` is the beginning of a fair execution. -/
theorem exists_one_execution :
    ∃ execution : PoolExecution onePool (fun _ ↦ 0#8) true, execution.Fair obliged ∧
      HandlersReturn execution ∧
      ∀ n, 17 ≤ n → execution.history n = oneHistory ++ [(.owner, .freed)] := by
  obtain ⟨config, hrun⟩ := exists_one_run
  obtain ⟨stage, howner⟩ := (housed_of_run hrun).owner
  obtain rfl := (freed_mem_iff hrun howner).mp (by simp)
  have hthread (i : ℕ) : ThreadAt config i .ended ∨ config.shared.linked ≤ i := by
    by_cases hi : i < onePool.length
    · exact Or.inl (threadAt_ended_of_finished hrun howner hi)
    · exact Or.inr ((linked_le hrun).trans (not_lt.mp hi))
  obtain ⟨execution, hfair, hrests⟩ := @exists_fair_execution _ _ _ _ _ _ _ _ _ _ hrun obliged
    fun party ↦ by
      cases party with
      | owner => exact fun h ↦ h.2.2.1 howner
      | thread i => exact fun h ↦ (hthread i).elim h.2.2.1 h.2.1.not_ge
  refine ⟨execution, hfair, fun i n _ ↦ ?_, fun n hn ↦ (hrests n hn).1⟩
  refine ⟨max n 17, le_max_left _ _, Or.inl ?_⟩
  rw [(hrests (max n 17) (le_max_right n 17)).2]
  rcases hthread i with hended | hmade
  · simp [hended.iff]
  · simp [(threadAt_entry hrun hmade).iff]

/-- A fair execution in which a pool of one thread is started and destroyed. -/
theorem mcmchExecutionPoolDestroy_frees_iff_one :
    ∃ execution : PoolExecution onePool (fun _ ↦ 0#8) true, execution.Fair obliged ∧
      HandlersReturn execution ∧ (.owner, .destroyBegun) ∈ execution.history 17 ∧
      (.owner, .freed) ∈ execution.history 17 ∧
      ∀ m, (execution.config m).shared.terminated = false ∧
        ∀ i < onePool.length, ¬ Missed i (execution.history m) := by
  obtain ⟨execution, hfair, hreturn, hrests⟩ := exists_one_execution
  have hbegun : (.owner, .destroyBegun) ∈ execution.history 17 := by
    rw [hrests 17 le_rfl]
    decide
  have hfreed : (.owner, .freed) ∈ execution.history 17 := by
    rw [hrests 17 le_rfl]
    decide
  exact ⟨execution, hfair, hreturn, hbegun, hfreed,
    (mcmchExecutionPoolDestroy_frees_iff hfair hreturn hbegun).mp ⟨17, hfreed⟩⟩

end Calls

/-! ### The start -/

section Starts

variable {pool : Pool} {memory : ByteMemory} {inherited : Bool} {history : PoolHistory}
  {config : PoolConfig} {i : ℕ} {execution : PoolExecution pool memory inherited}

/-- A thread that a start has sent its signal to has been made. -/
theorem lt_linked_of_started (hrun : PoolRun pool memory inherited history config)
    (hstarted : (.owner, .started i) ∈ history) : i < config.shared.linked := by
  refine pool_invariant (fun history config ↦ (.owner, .started i) ∈ history →
    i < config.shared.linked) (by simp) ?_ ?_ hrun hstarted
  · intro history config stage stage' event state hrun _ hpast hat hstep hstarted
    have hplaced := placed_of_run hrun hat
    cases hstep with
    | started j =>
      by_cases hj : j = i
      · subst hj
        simpa [hplaced.2] using hplaced.1
      · simpa using hpast (by simpa [Ne.symm hj] using hstarted)
    | linked j =>
      have hlinked : config.shared.linked = j := hplaced.2
      have hlt := hpast (by simpa using hstarted)
      simp only [Config.advance_shared]
      omega
    | _ => simpa using hpast (by simpa using hstarted)
  · exact fun _ _ hpast _ _ hstarted ↦ hpast (by simpa using hstarted)

/-- The steps that a thread is at most away from its call of the handler. -/
def callRank : ThreadStage → ℕ
  | .entry => 5
  | .blocking => 4
  | .waiting => 3
  | .awaiting => 2
  | .calling => 1
  | _ => 0

/-- In a fair execution a thread that a start has sent its signal to calls the handler, unless a
destruction clears its bit or the process is terminated. -/
theorem mcmchExecutionPoolStart_runs (hfair : execution.Fair obliged) (hi : i < pool.length) :
    execution.LeadsTo (fun history _ ↦ (.owner, .started i) ∈ history)
      fun history config ↦ (.thread i, .called) ∈ history ∨
        (.owner, .disabled (slotOf i)) ∈ history ∨ config.shared.terminated = true := by
  -- Before the call the thread has not begun one.
  have hstages : ∀ {history : PoolHistory} {config : PoolConfig} {stage : ThreadStage},
      PoolRun pool memory inherited history config → (.thread i, .called) ∉ history →
      ThreadAt config i stage → begun stage = 0 := by
    intro history config stage hrun hcalled hat
    rw [← (traced_of_run hrun hat).begun]
    exact List.count_eq_zero.mpr hcalled
  refine thread_leadsTo hfair i callRank ?_ ?_ ?_ ?_
  · intro history config hrun hstarted hsecond
    simp only [not_or] at hsecond
    obtain ⟨hcalled, hdisabled, hgoes⟩ := hsecond
    have hgoes : config.shared.terminated = false := by simpa using hgoes
    refine ⟨hgoes, lt_linked_of_started hrun hstarted, fun h ↦ ?_, fun h ↦ ?_, ?_⟩
    · cases hstages hrun hcalled h
    · cases hstages hrun hcalled h
    · rintro (hwaiting | hparked)
      · exact pending_of_waiting hrun hi hstarted hdisabled hgoes hwaiting
      · cases hstages hrun hcalled hparked
  · exact fun _ hstarted _ _ ↦ mem_concat hstarted _
  · exact fun _ hstarted _ _ _ ↦ mem_concat hstarted _
  · intro history config stage stage' event target hrun hstarted hsecond hat hstep
    simp only [not_or] at hsecond
    obtain ⟨hcalled, hdisabled, -⟩ := hsecond
    have hbegun := hstages hrun hcalled hat
    have hkept := mem_concat hstarted (.thread i, event)
    cases hstep with
    | awaits hbit =>
      simp [(enabled_of_started hrun hi hstarted (slotOf_le i)).resolve_left hdisabled] at hbit
    | refused hmade hslot => exact absurd (slotOf_lt hrun hmade) hslot.not_gt
    | called => exact Or.inl (Or.inl (by simp))
    | entered | blocked | passes | woken | failed =>
      exact Or.inr ⟨hkept, by simp [callRank]⟩
    | _ => simp [begun] at hbegun

/-- A fair execution in which a pool of one thread is started. -/
theorem mcmchExecutionPoolStart_runs_one :
    ∃ execution : PoolExecution onePool (fun _ ↦ 0#8) true, execution.Fair obliged ∧
      (.owner, .started 0) ∈ execution.history 17 ∧ (.thread 0, .called) ∈ execution.history 17 ∧
      execution.LeadsTo (fun history _ ↦ (.owner, .started 0) ∈ history)
        fun history config ↦ (.thread 0, .called) ∈ history ∨
          (.owner, .disabled (slotOf 0)) ∈ history ∨ config.shared.terminated = true := by
  obtain ⟨execution, hfair, -, hrests⟩ := exists_one_execution
  refine ⟨execution, hfair, ?_, ?_, mcmchExecutionPoolStart_runs hfair (by decide)⟩
  · rw [hrests 17 le_rfl]
    decide
  · rw [hrests 17 le_rfl]
    decide

end Starts

end Mcmp.Routines.ExecutionPool
