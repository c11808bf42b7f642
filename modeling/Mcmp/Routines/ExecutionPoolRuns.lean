import Mcmp.Routines.ExecutionPool

/-!
# The runs of an execution pool

What holds of a pool in every run. The owner is at one place of its loops, and its place tells which
bits have been set and cleared, which threads have got a signal, and which have been joined. The
history of a thread tells its stage.

Each thread calls the handler at most once, and not before a start has set the bit of its slot. A
destruction frees the block only behind the end of all threads, and only when each of them has
called the handler: a thread that has not found its bit set when the bit is cleared never ends
(`executionPool_runsOnce`).
-/

set_option autoImplicit false
set_option relaxedAutoImplicit false

namespace Mcmp.Routines.ExecutionPool

open Foundation.ByteBits Foundation.Fairness Foundation.Interleaving Foundation.Signals
  Foundation.WordMemory Utilities.Bitmap

/-! ### The bits -/

section Bits

variable {pool : Pool} {memory : ByteMemory} {j k : ℕ}

theorem Pool.enabled_eq_bit (hk : k < pool.length) :
    pool.enabled memory k = bit memory (8 * pool.bitmap + k) := by
  have hfits := pool.fits
  exact mcmpBitmapIsEnabledBit_natCast (by omega)

theorem Pool.enabled_enable (hj : j < pool.length) (hk : k < pool.length) :
    pool.enabled (mcmpBitmapEnableBit memory pool.bitmap j) k =
      (pool.enabled memory k || decide (k = j)) := by
  have hfits := pool.fits
  rw [enabled_eq_bit hk, enabled_eq_bit hk, mcmpBitmapEnableBit_natCast (by omega), bit_setBit]
  simp

theorem Pool.enabled_disable (hj : j < pool.length) (hk : k < pool.length) :
    pool.enabled (mcmpBitmapDisableBit memory pool.bitmap j) k =
      (pool.enabled memory k && !decide (k = j)) := by
  have hfits := pool.fits
  rw [enabled_eq_bit hk, enabled_eq_bit hk, mcmpBitmapDisableBit_natCast (by omega), bit_clearBit]
  simp

/-- The creation clears the bits of all threads. -/
theorem Pool.enabled_clean (hk : k < pool.length) :
    pool.enabled (mcmpBitmapCleanOrder memory pool.bitmap ((pool.length + 7) % 2 ^ 32 / 8)) k =
      false := by
  have hsize := pool.isSize
  rw [enabled_eq_bit hk, bit, mcmpBitmapCleanOrder, overwrite_inside (by omega) (by omega)]
  simp

/-- The slot of a thread is not beyond its index. -/
theorem slotOf_le (i : ℕ) : slotOf i ≤ i := Nat.mod_le _ _

end Bits

/-! ### The owner -/

section Owner

variable {pool : Pool} {memory : ByteMemory} {inherited : Bool} {history : PoolHistory}
  {config : PoolConfig} {i j k : ℕ} {stage stage' : OwnerStage} {event : PoolEvent}
  {state state' : PoolState}

/-- How many threads there are at a stage of the owner, and which indices it can be at. -/
def Placed (pool : Pool) (linked : ℕ) : OwnerStage → Prop
  | .linking i => i < pool.length ∧ linked = i
  | .enabling i => i < pool.length ∧ linked = pool.length
  | .starting i => i < pool.length ∧ linked = pool.length
  | .disabling i => i < pool.length ∧ linked = pool.length
  | .signalling i => i < pool.length ∧ linked = pool.length
  | .joining i => i < pool.length ∧ linked = pool.length
  | _ => linked = pool.length

/-- The bits below this one have been set since the start began. -/
def raised : OwnerStage → ℕ
  | .enabling i => i
  | .starting i => i + 1
  | _ => 0

/-- The bits below this one have been cleared by the destruction. -/
def cleared (pool : Pool) : OwnerStage → ℕ
  | .disabling i => i
  | .signalling i => i + 1
  | .joining i => i + 1
  | .freeing => pool.length
  | .done => pool.length
  | _ => 0

/-- The destruction has sent its signal to the threads below this one. -/
def notified (pool : Pool) : OwnerStage → ℕ
  | .disabling i => i
  | .signalling i => i
  | .joining i => i + 1
  | .freeing => pool.length
  | .done => pool.length
  | _ => 0

/-- The destruction has joined the threads below this one. -/
def finished (pool : Pool) : OwnerStage → ℕ
  | .disabling i => i
  | .signalling i => i
  | .joining i => i
  | .freeing => pool.length
  | .done => pool.length
  | _ => 0

theorem placed_linkingFrom (hi : i ≤ pool.length) : Placed pool i (pool.linkingFrom i) := by
  unfold Pool.linkingFrom
  split_ifs with h
  · exact ⟨h, rfl⟩
  · exact Nat.le_antisymm hi (by omega)

theorem placed_enablingFrom (i : ℕ) : Placed pool pool.length (pool.enablingFrom i) := by
  unfold Pool.enablingFrom
  split_ifs with h
  · exact ⟨h, rfl⟩
  · rfl

theorem placed_disablingFrom (i : ℕ) : Placed pool pool.length (pool.disablingFrom i) := by
  unfold Pool.disablingFrom
  split_ifs with h
  · exact ⟨h, rfl⟩
  · rfl

/-- A signal finds a thread that has ended, becomes pending, or terminates the process. -/
theorem kill_cases (state : PoolState) (i : ℕ) :
    ((state.signal i).ended = true ∧ state.kill i = state.setSignal i (state.signal i)) ∨
      ((state.signal i).ended = false ∧
        state.kill i = state.setSignal i { state.signal i with pending := true }) ∨
      ((state.signal i).ended = false ∧ state.kill i = { state with terminated := true }) := by
  rcases (state.signal i).kill_cases with ⟨hended, hkill⟩ | ⟨hended, -, hkill⟩ | ⟨hended, -, hkill⟩
  · exact Or.inl ⟨hended, by rw [PoolState.kill, hkill]⟩
  · exact Or.inr (Or.inl ⟨hended, by rw [PoolState.kill, hkill]⟩)
  · exact Or.inr (Or.inr ⟨hended, by rw [PoolState.kill, hkill]⟩)

@[simp] theorem kill_memory (state : PoolState) (i : ℕ) : (state.kill i).memory = state.memory := by
  rcases kill_cases state i with ⟨-, h⟩ | ⟨-, h⟩ | ⟨-, h⟩ <;> rw [h] <;> rfl

@[simp] theorem kill_linked (state : PoolState) (i : ℕ) : (state.kill i).linked = state.linked := by
  rcases kill_cases state i with ⟨-, h⟩ | ⟨-, h⟩ | ⟨-, h⟩ <;> rw [h] <;> rfl

@[simp] theorem kill_ended (state : PoolState) (i j : ℕ) :
    ((state.kill i).signal j).ended = (state.signal j).ended := by
  by_cases hj : j = i
  · subst hj
    rcases kill_cases state j with ⟨-, h⟩ | ⟨-, h⟩ | ⟨-, h⟩ <;> simp [h, PoolState.setSignal]
  · rcases kill_cases state i with ⟨-, h⟩ | ⟨-, h⟩ | ⟨-, h⟩ <;> simp [h, PoolState.setSignal, hj]

@[simp] theorem setSignal_memory (state : PoolState) (i : ℕ) (target : Target) :
    (state.setSignal i target).memory = state.memory :=
  rfl

@[simp] theorem setSignal_linked (state : PoolState) (i : ℕ) (target : Target) :
    (state.setSignal i target).linked = state.linked :=
  rfl

@[simp] theorem setSignal_signal_self (state : PoolState) (i : ℕ) (target : Target) :
    (state.setSignal i target).signal i = target :=
  Function.update_self _ _ _

theorem setSignal_signal_of_ne (hne : j ≠ i) (state : PoolState) (target : Target) :
    (state.setSignal i target).signal j = state.signal j :=
  Function.update_of_ne hne _ _

theorem placed_of_run (hrun : PoolRun pool memory inherited history config)
    (hat : OwnerAt config stage) : Placed pool config.shared.linked stage := by
  refine pool_invariant (fun _ config ↦ ∀ stage, OwnerAt config stage →
    Placed pool config.shared.linked stage) ?_ ?_ ?_ hrun stage hat
  · intro stage hat
    obtain rfl := Actor.owner.inj hat
    exact placed_linkingFrom (Nat.zero_le _)
  · intro history config stage stage' event state _ _ hpast hat hstep next hnext
    obtain rfl := ownerAt_advance_owner.mp hnext
    have hplaced := hpast stage hat
    cases hstep with
    | linked i => exact placed_linkingFrom hplaced.1
    | startBegun => exact hplaced.symm ▸ placed_enablingFrom 0
    | destroyBegun => exact hplaced.symm ▸ placed_disablingFrom 0
    | started i => simpa [hplaced.2] using placed_enablingFrom (i + 1)
    | joined i => simpa [hplaced.2] using placed_disablingFrom (i + 1)
    | signalled i => exact ⟨hplaced.1, by simpa using hplaced.2⟩
    | enabled | disabled | freed => exact hplaced
  · intro history config i stage stage' event target _ _ hpast _ _ next hnext
    exact hpast next (by simpa using hnext)

/-- An event of the owner has happened exactly when the owner has reached a stage behind it, when
each step of the owner reaches such a stage exactly by that event. -/
theorem owner_mem_iff (kind : PoolEvent) (reached : OwnerStage → Prop)
    (hstart : ¬ reached (pool.linkingFrom 0))
    (hstep : ∀ {state : PoolState} {stage stage' : OwnerStage} {event : PoolEvent}
      {state' : PoolState}, Placed pool state.linked stage →
      OwnerStep pool state stage event state' stage' →
      (reached stage' ↔ reached stage ∨ event = kind))
    (hrun : PoolRun pool memory inherited history config) (hat : OwnerAt config stage) :
    (.owner, kind) ∈ history ↔ reached stage := by
  refine pool_invariant (fun history config ↦ ∀ stage, OwnerAt config stage →
    ((.owner, kind) ∈ history ↔ reached stage)) ?_ ?_ ?_ hrun stage hat
  · intro stage hat
    obtain rfl := Actor.owner.inj hat
    simp [hstart]
  · intro history config stage stage' event state hrun _ hpast hat howner next hnext
    obtain rfl := ownerAt_advance_owner.mp hnext
    rw [hstep (placed_of_run hrun hat) howner, ← hpast stage hat]
    simp [eq_comm]
  · intro history config i stage stage' event target _ _ hpast _ _ next hnext
    rw [← hpast next (by simpa using hnext)]
    simp

theorem cleared_disablingFrom (hi : i ≤ pool.length) : cleared pool (pool.disablingFrom i) = i := by
  unfold Pool.disablingFrom
  split_ifs with h
  · rfl
  · exact Nat.le_antisymm (by simp only [cleared]; omega) hi

theorem notified_disablingFrom (hi : i ≤ pool.length) :
    notified pool (pool.disablingFrom i) = i := by
  unfold Pool.disablingFrom
  split_ifs with h
  · rfl
  · exact Nat.le_antisymm (by simp only [notified]; omega) hi

theorem finished_disablingFrom (hi : i ≤ pool.length) :
    finished pool (pool.disablingFrom i) = i := by
  unfold Pool.disablingFrom
  split_ifs with h
  · rfl
  · exact Nat.le_antisymm (by simp only [finished]; omega) hi

/-- Outside of a destruction nothing of it has happened. -/
theorem not_destroying_from (i : ℕ) :
    cleared pool (pool.linkingFrom i) = 0 ∧ cleared pool (pool.enablingFrom i) = 0 ∧
      notified pool (pool.linkingFrom i) = 0 ∧ notified pool (pool.enablingFrom i) = 0 ∧
      finished pool (pool.linkingFrom i) = 0 ∧ finished pool (pool.enablingFrom i) = 0 := by
  unfold Pool.linkingFrom Pool.enablingFrom
  split_ifs <;> simp [cleared, notified, finished]

/-- The bits are cleared in the order of their indices. -/
theorem disabled_mem_iff (hrun : PoolRun pool memory inherited history config)
    (hat : OwnerAt config stage) :
    (.owner, .disabled k) ∈ history ↔ k < cleared pool stage := by
  refine owner_mem_iff (.disabled k) (fun stage ↦ k < cleared pool stage)
    (by simp [not_destroying_from]) (fun hplaced hstep ↦ ?_) hrun hat
  cases hstep with
  | disabled i =>
    simp only [cleared, PoolEvent.disabled.injEq]
    omega
  | joined i =>
    rw [cleared_disablingFrom (Nat.succ_le_of_lt hplaced.1)]
    simp [cleared]
  | destroyBegun =>
    rw [cleared_disablingFrom (Nat.zero_le _)]
    simp [cleared]
  | linked | startBegun | started =>
    simp only [not_destroying_from]
    simp [cleared]
  | enabled | signalled | freed => simp [cleared]

theorem signalled_mem_iff (hrun : PoolRun pool memory inherited history config)
    (hat : OwnerAt config stage) :
    (.owner, .signalled k) ∈ history ↔ k < notified pool stage := by
  refine owner_mem_iff (.signalled k) (fun stage ↦ k < notified pool stage)
    (by simp [not_destroying_from]) (fun hplaced hstep ↦ ?_) hrun hat
  cases hstep with
  | signalled i =>
    simp only [notified, PoolEvent.signalled.injEq]
    omega
  | joined i =>
    rw [notified_disablingFrom (Nat.succ_le_of_lt hplaced.1)]
    simp [notified]
  | destroyBegun =>
    rw [notified_disablingFrom (Nat.zero_le _)]
    simp [notified]
  | linked | startBegun | started =>
    simp only [not_destroying_from]
    simp [notified]
  | enabled | disabled | freed => simp [notified]

theorem freed_mem_iff (hrun : PoolRun pool memory inherited history config)
    (hat : OwnerAt config stage) : (.owner, .freed) ∈ history ↔ stage = .done := by
  have hfrom : ∀ i, pool.linkingFrom i ≠ .done ∧ pool.enablingFrom i ≠ .done ∧
      pool.disablingFrom i ≠ .done := by
    intro i
    unfold Pool.linkingFrom Pool.enablingFrom Pool.disablingFrom
    split_ifs <;> simp
  refine owner_mem_iff .freed (fun stage ↦ stage = .done) (by simp [hfrom])
    (fun _ hstep ↦ ?_) hrun hat
  cases hstep <;> simp [hfrom]

/-! ### What the owner has done to the bits -/

/-- A bit that is set has been set by a start, and no destruction has cleared it. -/
theorem enabled_of_run (hrun : PoolRun pool memory inherited history config)
    (hk : k < pool.length) (hbit : pool.enabled config.shared.memory k = true) :
    (.owner, .enabled k) ∈ history ∧ (.owner, .disabled k) ∉ history := by
  refine pool_invariant (fun history config ↦ pool.enabled config.shared.memory k = true →
    (.owner, .enabled k) ∈ history ∧ (.owner, .disabled k) ∉ history) ?_ ?_ ?_ hrun hbit
  · intro hbit
    have hclean : pool.enabled (mcmchExecutionPoolCreate pool memory inherited).shared.memory k =
      false := Pool.enabled_clean hk
    simp [hclean] at hbit
  · intro history config stage stage' event state hrun _ hpast hat hstep hbit
    have hplaced := placed_of_run hrun hat
    cases hstep with
    | enabled i =>
      by_cases hki : k = i
      · subst hki
        refine ⟨by simp, ?_⟩
        have hnone : (.owner, .disabled k) ∉ history := by
          simp [disabled_mem_iff hrun hat, cleared]
        simpa using hnone
      · rw [Config.advance_shared, Pool.enabled_enable hplaced.1 hk] at hbit
        simpa [hki] using hpast (by simpa [hki] using hbit)
    | disabled i =>
      rw [Config.advance_shared, Pool.enabled_disable hplaced.1 hk] at hbit
      simp only [Bool.and_eq_true, Bool.not_eq_true', decide_eq_false_iff_not] at hbit
      simpa [hbit.2] using hpast hbit.1
    | _ => simpa using hpast (by simpa using hbit)
  · intro history config i stage stage' event target _ _ hpast _ _ hbit
    simpa using hpast (by simpa using hbit)

theorem raised_enablingFrom (i : ℕ) : raised (pool.enablingFrom i) ≤ i := by
  unfold Pool.enablingFrom
  split_ifs
  · exact le_rfl
  · exact Nat.zero_le _

/-- Outside of a start nothing of it has happened. -/
theorem raised_from (i : ℕ) :
    raised (pool.linkingFrom i) = 0 ∧ raised (pool.disablingFrom i) = 0 := by
  unfold Pool.linkingFrom Pool.disablingFrom
  split_ifs <;> simp [raised]

/-- A start sets all bits below the thread that it is at. -/
theorem raised_of_run (hrun : PoolRun pool memory inherited history config)
    (hat : OwnerAt config stage) (hk : k < raised stage) :
    pool.enabled config.shared.memory k = true := by
  refine pool_invariant (fun _ config ↦ ∀ stage, OwnerAt config stage → k < raised stage →
    pool.enabled config.shared.memory k = true) ?_ ?_ ?_ hrun stage hat hk
  · intro stage hat hk
    obtain rfl := Actor.owner.inj hat
    simp [raised_from] at hk
  · intro history config stage stage' event state hrun _ hpast hat hstep next hnext hk
    obtain rfl := ownerAt_advance_owner.mp hnext
    have hplaced := placed_of_run hrun hat
    have hkept := hpast stage hat
    cases hstep with
    | enabled i =>
      have hle : k ≤ i := Nat.le_of_lt_succ hk
      rw [Config.advance_shared, Pool.enabled_enable hplaced.1 (hle.trans_lt hplaced.1)]
      rcases hle.eq_or_lt with rfl | hlt
      · simp
      · simp [hkept hlt]
    | started i => simpa using hkept (hk.trans_le (raised_enablingFrom _))
    | startBegun => simpa using hk.trans_le (raised_enablingFrom 0)
    | linked | destroyBegun | joined => simp only [raised_from, Nat.not_lt_zero] at hk
    | disabled | signalled | freed => simp [raised] at hk
  · intro history config i stage stage' event target _ _ hpast _ _ next hnext hk
    exact hpast next (by simpa using hnext) hk

/-- Once a start has sent its signal to a thread, the bits up to it are set until a destruction
clears them. -/
theorem enabled_of_started (hrun : PoolRun pool memory inherited history config)
    (hi : i < pool.length) (hstarted : (.owner, .started i) ∈ history) (hk : k ≤ i) :
    (.owner, .disabled k) ∈ history ∨ pool.enabled config.shared.memory k = true := by
  refine pool_invariant (fun history config ↦ (.owner, .started i) ∈ history →
    (.owner, .disabled k) ∈ history ∨ pool.enabled config.shared.memory k = true)
    (by simp) ?_ ?_ hrun hstarted
  · intro history config stage stage' event state hrun _ hpast hat hstep hstarted
    have hplaced := placed_of_run hrun hat
    cases hstep with
    | started j =>
      by_cases hj : j = i
      · subst hj
        exact Or.inr (by simpa using raised_of_run hrun hat (Nat.lt_succ_of_le hk))
      · simpa using hpast (by simpa [Ne.symm hj] using hstarted)
    | enabled j =>
      rw [Config.advance_shared, Pool.enabled_enable hplaced.1 (hk.trans_lt hi)]
      rcases hpast (by simpa using hstarted) with h | h
      · exact Or.inl (by simp [h])
      · exact Or.inr (by simp [h])
    | disabled j =>
      rw [Config.advance_shared, Pool.enabled_disable hplaced.1 (hk.trans_lt hi)]
      rcases hpast (by simpa using hstarted) with h | h
      · exact Or.inl (by simp [h])
      · by_cases hkj : k = j
        · exact Or.inl (by simp [hkj])
        · exact Or.inr (by simp [h, hkj])
    | _ => simpa using hpast (by simpa using hstarted)
  · intro history config j stage stage' event target _ _ hpast _ _ hstarted
    simpa using hpast (by simpa using hstarted)

end Owner

/-! ### The threads -/

section Threads

variable {pool : Pool} {memory : ByteMemory} {inherited : Bool} {history : PoolHistory}
  {config : PoolConfig} {i j k : ℕ} {stage : OwnerStage} {at' : ThreadStage} {event : PoolEvent}
  {target : Target} {state : PoolState}

/-- A thread that has found its bit set. -/
def passed : ThreadStage → Bool
  | .calling => true
  | .handling => true
  | .leaving => true
  | .parked => true
  | .ended => true
  | _ => false

/-- The calls of the handler that have begun. -/
def begun : ThreadStage → ℕ
  | .handling => 1
  | .leaving => 1
  | .parked => 1
  | .ended => 1
  | _ => 0

/-- The calls of the handler that have returned. -/
def returns : ThreadStage → ℕ
  | .leaving => 1
  | .parked => 1
  | .ended => 1
  | _ => 0

theorem linked_le (hrun : PoolRun pool memory inherited history config) :
    config.shared.linked ≤ pool.length := by
  obtain ⟨stage, hat⟩ := (housed_of_run hrun).owner
  have hplaced := placed_of_run hrun hat
  cases stage with
  | linking => exact hplaced.2.trans_le hplaced.1.le
  | ready | freeing | done => exact hplaced.le
  | enabling | starting | disabling | signalling | joining => exact hplaced.2.le

/-- The check of the slot never fails. -/
theorem slotOf_lt (hrun : PoolRun pool memory inherited history config)
    (hi : i < config.shared.linked) : slotOf i < pool.length :=
  (slotOf_le i).trans_lt (hi.trans_le (linked_le hrun))

/-- The steps of a thread that has been made: it never refuses its slot. -/
theorem ThreadStep.ne_refused (hrun : PoolRun pool memory inherited history config)
    {stage stage' : ThreadStage}
    (hstep : ThreadStep pool config.shared i stage event target stage') : event ≠ .refused := by
  rintro rfl
  cases hstep with
  | refused hi hslot => exact absurd (slotOf_lt hrun hi) hslot.not_gt

/-- A thread that has ended is known to have. -/
theorem ended_iff (hrun : PoolRun pool memory inherited history config) :
    (config.shared.signal i).ended = true ↔ ThreadAt config i .ended := by
  refine pool_invariant (fun _ config ↦ (config.shared.signal i).ended = true ↔
    ThreadAt config i .ended) ?_ ?_ ?_ hrun
  · simp [mcmchExecutionPoolCreate, ThreadAt]
  · intro history config stage stage' event state _ _ hpast _ hstep
    cases hstep <;> simpa using hpast
  · intro history config j stage stage' event target _ _ hpast hat hstep
    by_cases hij : i = j
    · subst hij
      cases hstep with
      | refused | leaves => simp [Target.finish]
      | _ => simpa [Target.block, hat.iff] using hpast
    · simpa [setSignal_signal_of_ne hij, threadAt_advance_of_ne hij] using hpast

/-- A thread that has not been made is at its entry. -/
theorem threadAt_entry (hrun : PoolRun pool memory inherited history config)
    (hi : config.shared.linked ≤ i) : ThreadAt config i .entry := by
  refine pool_invariant (fun _ config ↦ config.shared.linked ≤ i → ThreadAt config i .entry)
    (fun _ ↦ rfl) ?_ ?_ hrun hi
  · intro history config stage stage' event state hrun _ hpast hat hstep hi
    have hplaced := placed_of_run hrun hat
    cases hstep with
    | linked j =>
      have hlinked : config.shared.linked = j := hplaced.2
      simp only [Config.advance_shared] at hi
      simpa using hpast (by omega)
    | _ => simpa using hpast (by simpa using hi)
  · intro history config j stage stage' event target _ _ hpast hat hstep hi
    have hentry := hpast (by simpa using hi)
    by_cases hij : i = j
    · subst hij
      obtain rfl := hat.iff.mp hentry
      have hnot : config.shared.linked ≤ i := by simpa using hi
      cases hstep with
      | entered h => exact absurd h hnot.not_gt
      | refused h => exact absurd h hnot.not_gt
    · rwa [threadAt_advance_of_ne hij]

/-- What the history tells of a thread. -/
structure Traced (history : PoolHistory) (i : ℕ) (stage : ThreadStage) : Prop where
  passed : (.thread i, .awaited true) ∈ history ↔ passed stage = true
  begun : history.count (.thread i, .called) = begun stage
  returns : history.count (.thread i, .returned) = returns stage

theorem traced_of_run (hrun : PoolRun pool memory inherited history config)
    (hat : ThreadAt config i at') : Traced history i at' := by
  refine pool_invariant (fun history config ↦ ∀ stage, ThreadAt config i stage →
    Traced history i stage) ?_ ?_ ?_ hrun at' hat
  · intro stage hat
    obtain rfl : ThreadStage.entry = stage := by simpa using Actor.thread.inj hat
    exact ⟨by simp [ExecutionPool.passed], by simp [ExecutionPool.begun],
      by simp [ExecutionPool.returns]⟩
  · intro history config stage stage' event state _ _ hpast _ _ next hnext
    obtain ⟨hpassed, hbegun, hover⟩ := hpast next (by simpa using hnext)
    refine ⟨?_, ?_, ?_⟩
    · simpa using hpassed
    · simpa [List.count_singleton] using hbegun
    · simpa [List.count_singleton] using hover
  · intro history config j stage stage' event target hrun _ hpast hat hstep next hnext
    by_cases hij : i = j
    · subst hij
      obtain rfl := threadAt_advance_self.mp hnext
      have hrefused := hstep.ne_refused hrun
      obtain ⟨hpassed, hbegun, hover⟩ := hpast stage hat
      cases hstep <;> refine ⟨?_, ?_, ?_⟩ <;>
        simp_all [ExecutionPool.passed, ExecutionPool.begun, ExecutionPool.returns]
    · obtain ⟨hpassed, hbegun, hover⟩ :=
        hpast next (by simpa [threadAt_advance_of_ne hij] using hnext)
      refine ⟨?_, ?_, ?_⟩
      · simpa [hij] using hpassed
      · simpa [List.count_singleton, Ne.symm hij] using hbegun
      · simpa [List.count_singleton, Ne.symm hij] using hover

/-- The owner goes on behind a join only when the thread has ended. -/
theorem threadAt_ended_of_finished (hrun : PoolRun pool memory inherited history config)
    (hat : OwnerAt config stage) (hk : k < finished pool stage) : ThreadAt config k .ended := by
  refine pool_invariant (fun _ config ↦ ∀ stage, OwnerAt config stage → k < finished pool stage →
    ThreadAt config k .ended) ?_ ?_ ?_ hrun stage hat hk
  · intro stage hat hk
    obtain rfl := Actor.owner.inj hat
    simp [not_destroying_from] at hk
  · intro history config stage stage' event state hrun _ hpast hat hstep next hnext hk
    obtain rfl := ownerAt_advance_owner.mp hnext
    have hplaced := placed_of_run hrun hat
    have hkept := hpast stage hat
    rw [threadAt_advance_owner]
    cases hstep with
    | joined i hended =>
      rw [finished_disablingFrom (Nat.succ_le_of_lt hplaced.1)] at hk
      rcases (Nat.le_of_lt_succ hk).eq_or_lt with rfl | hlt
      · exact (ended_iff hrun).mp hended
      · exact hkept hlt
    | destroyBegun =>
      rw [finished_disablingFrom (Nat.zero_le _)] at hk
      simp at hk
    | linked | startBegun | started => simp [not_destroying_from] at hk
    | enabled => simp [finished] at hk
    | disabled | signalled | freed => exact hkept hk
  · intro history config i stage stage' event target _ _ hpast hat hstep next hnext hk
    have hended := hpast next (by simpa using hnext) hk
    by_cases hki : k = i
    · subst hki
      obtain rfl := hat.iff.mp hended
      cases hstep
    · rwa [threadAt_advance_of_ne hki]

/-- A thread that has found its bit set found it so behind a start. -/
theorem enabled_of_passed (hrun : PoolRun pool memory inherited history config)
    (hpassed : (.thread i, .awaited true) ∈ history) :
    (.owner, .enabled (slotOf i)) ∈ history := by
  refine pool_invariant (fun history _ ↦ (.thread i, .awaited true) ∈ history →
    (.owner, .enabled (slotOf i)) ∈ history) (by simp) ?_ ?_ hrun hpassed
  · intro history config stage stage' event state _ _ hpast _ _ hpassed
    simpa using Or.inl (hpast (by simpa using hpassed))
  · intro history config j stage stage' event target hrun _ hpast hat hstep hpassed
    have hnext : (.thread i, .awaited true) ∈ history ∨ i = j ∧ event = .awaited true := by
      simpa [eq_comm] using hpassed
    rcases hnext with hbefore | ⟨rfl, rfl⟩
    · simpa using hpast hbefore
    · cases hstep with
      | passes hbit =>
        have hmade : i < config.shared.linked := by
          by_contra h
          cases hat.iff.mp (threadAt_entry hrun (not_lt.mp h))
        simpa using (enabled_of_run hrun (slotOf_lt hrun hmade) hbit).1

/-- The bit of the thread has been cleared before the thread found it set. -/
def Missed (i : ℕ) (history : PoolHistory) : Prop :=
  ∃ before after, history = before ++ (.owner, .disabled (slotOf i)) :: after ∧
    (.thread i, .awaited true) ∉ before

theorem missed_concat {party : PoolParty} :
    Missed i (history ++ [(party, event)]) ↔
      Missed i history ∨ (party = .owner ∧ event = .disabled (slotOf i)) ∧
        (.thread i, .awaited true) ∉ history := by
  constructor
  · rintro ⟨before, after, hhistory, hbefore⟩
    rcases split_concat hhistory with ⟨-, rfl, hlast⟩ | ⟨rest, -, rfl⟩
    · exact Or.inr ⟨Prod.mk.inj hlast.symm, hbefore⟩
    · exact Or.inl ⟨before, rest, rfl, hbefore⟩
  · rintro (⟨before, after, rfl, hbefore⟩ | ⟨⟨rfl, rfl⟩, hbefore⟩)
    · exact ⟨before, after ++ [(party, event)], by simp, hbefore⟩
    · exact ⟨history, [], rfl, hbefore⟩

/-- A thread that has missed its bit never finds it set. -/
theorem not_passed_of_missed (hrun : PoolRun pool memory inherited history config)
    (hmissed : Missed i history) : (.thread i, .awaited true) ∉ history := by
  refine pool_invariant (fun history _ ↦ Missed i history → (.thread i, .awaited true) ∉ history)
    (by simp) ?_ ?_ hrun hmissed
  · intro history config stage stage' event state _ _ hpast _ _ hmissed
    have hnot : (.thread i, .awaited true) ∉ history :=
      (missed_concat.mp hmissed).elim hpast And.right
    simpa using hnot
  · intro history config j stage stage' event target hrun _ hpast hat hstep hmissed
    have hbefore : Missed i history := by simpa using missed_concat.mp hmissed
    have hnot := hpast hbefore
    intro hpassed
    obtain ⟨rfl, rfl⟩ : i = j ∧ event = .awaited true := by simpa [hnot, eq_comm] using hpassed
    cases hstep with
    | passes hbit =>
      have hmade : i < config.shared.linked := by
        by_contra h
        cases hat.iff.mp (threadAt_entry hrun (not_lt.mp h))
      obtain ⟨before, after, rfl, -⟩ := hbefore
      exact (enabled_of_run hrun (slotOf_lt hrun hmade) hbit).2 (by simp)

/-- When the block has been freed, all threads have ended, and nobody makes a step any more. -/
theorem freed_last (hrun : PoolRun pool memory inherited history config)
    {before after : PoolHistory} (hhistory : history = before ++ (.owner, .freed) :: after) :
    after = [] := by
  refine pool_invariant (fun history _ ↦ ∀ before after,
    history = before ++ (.owner, .freed) :: after → after = []) (by simp) ?_ ?_ hrun _ _ hhistory
  · intro history config stage stage' event state hrun _ _ hat hstep before after hhistory
    rcases split_concat hhistory with ⟨hnil, -, -⟩ | ⟨rest, -, rfl⟩
    · exact hnil
    · obtain rfl := (freed_mem_iff hrun hat).mp (by simp)
      cases hstep
  · intro history config i stage stage' event target hrun _ _ hat hstep before after hhistory
    rcases split_concat hhistory with ⟨hnil, -, -⟩ | ⟨rest, -, rfl⟩
    · exact hnil
    · obtain ⟨owner, howner⟩ := (housed_of_run hrun).owner
      obtain rfl := (freed_mem_iff hrun howner).mp (by simp)
      by_cases hi : i < pool.length
      · obtain rfl := hat.iff.mp (threadAt_ended_of_finished hrun howner hi)
        cases hstep
      · have hmade : config.shared.linked ≤ i := (linked_le hrun).trans (not_lt.mp hi)
        obtain rfl := hat.iff.mp (threadAt_entry hrun hmade)
        cases hstep with
        | entered h => exact absurd h hmade.not_gt
        | refused h => exact absurd h hmade.not_gt

/-- A thread of a pool calls the handler at most once, and only behind a start that has set the bit
of its slot. When a destruction has freed the block, nobody makes a step any more, and every thread
has ended, has called the handler once and got back from it, and had found its bit set when the
destruction cleared it. -/
theorem executionPool_runsOnce (hrun : PoolRun pool memory inherited history config) :
    (∀ i, history.count (.thread i, .called) ≤ 1 ∧
      ∀ before after, history = before ++ (.thread i, .called) :: after →
        (.owner, .enabled (slotOf i)) ∈ before) ∧
      ∀ before after, history = before ++ (.owner, .freed) :: after → after = [] ∧
        ∀ i < pool.length, ThreadAt config i .ended ∧ history.count (.thread i, .called) = 1 ∧
          history.count (.thread i, .returned) = 1 ∧ ¬ Missed i history := by
  refine ⟨fun i ↦ ⟨?_, fun before after hhistory ↦ ?_⟩, fun before after hhistory ↦
    ⟨freed_last hrun hhistory, fun i hi ↦ ?_⟩⟩
  · obtain ⟨stage, hat⟩ := (housed_of_run hrun).thread i
    rw [(traced_of_run hrun hat).begun]
    cases stage <;> simp [begun]
  · subst hhistory
    obtain ⟨middle, state, actor, hpast, -, hprogram⟩ := hrun.cut
    obtain ⟨-, ⟨_, _, hparty, -⟩ | ⟨j, stage, target, stage', hparty, hat, -, -, hstep⟩⟩ :=
      poolStep_of_program (housed_of_run hpast) hprogram
    · cases hparty
    · obtain rfl := PoolParty.thread.inj hparty
      cases hstep
      exact enabled_of_passed hpast ((traced_of_run hpast hat).passed.mpr rfl)
  · obtain ⟨owner, howner⟩ := (housed_of_run hrun).owner
    obtain rfl := (freed_mem_iff hrun howner).mp (by simp [hhistory])
    have hended := threadAt_ended_of_finished hrun howner hi
    obtain ⟨hpassed, hbegun, hover⟩ := traced_of_run hrun hended
    exact ⟨hended, hbegun, hover, fun hmissed ↦
      not_passed_of_missed hrun hmissed (hpassed.mpr rfl)⟩

/-- A pool of one thread. -/
def onePool : Pool := ⟨64, 1, by decide, by decide⟩

/-- A pool of one thread is linked, started, and destroyed while the thread is in the handler. -/
def oneHistory : PoolHistory :=
  [(.owner, .linked 0), (.thread 0, .entered), (.thread 0, .blocked), (.thread 0, .awaited false),
    (.owner, .startBegun), (.owner, .enabled 0), (.owner, .started 0), (.thread 0, .woken),
    (.thread 0, .awaited true), (.thread 0, .called), (.owner, .destroyBegun),
    (.owner, .disabled 0), (.owner, .signalled 0), (.thread 0, .returned),
    (.thread 0, .left false), (.owner, .joined 0)]

theorem exists_one_run :
    ∃ config, PoolRun onePool (fun _ ↦ 0#8) true (oneHistory ++ [(.owner, .freed)]) config :=
  (exists_run_of_play (poolMachine onePool) anyStep
    (mcmchExecutionPoolCreate onePool (fun _ ↦ 0#8) true)
    [(.owner, .advance), (.thread 0, .advance), (.thread 0, .advance), (.thread 0, .advance),
      (.owner, .start), (.owner, .advance), (.owner, .advance), (.thread 0, .advance),
      (.thread 0, .advance), (.thread 0, .advance), (.owner, .destroy), (.owner, .advance),
      (.owner, .advance), (.thread 0, .returns), (.thread 0, .advance), (.owner, .advance),
      (.owner, .advance)] (fun _ ↦ ()) (oneHistory ++ [(.owner, .freed)]) () rfl).imp
    fun _ h ↦ h.1

/-- A pool of one thread that is started and destroyed. -/
theorem executionPool_runsOnce_one :
    ∃ history config, PoolRun onePool (fun _ ↦ 0#8) true history config ∧
      (.owner, .freed) ∈ history ∧ ThreadAt config 0 .ended ∧
      history.count (.thread 0, .called) = 1 := by
  obtain ⟨config, hrun⟩ := exists_one_run
  have hfreed := ((executionPool_runsOnce hrun).2 _ _ rfl).2 0 (by decide)
  exact ⟨_, config, hrun, by simp, hfreed.1, hfreed.2.1⟩

end Threads

end Mcmp.Routines.ExecutionPool
