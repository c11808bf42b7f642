import Mcmp.Routines.Worker

/-!
# The clean-up of a worker executor

A sub-monitor releases its bit after a run. When ten tries fail, because other bits of the byte keep
changing, it goes back to sleep with its bit set and asks the master for a clean-up with the flag
`failstry`. The clean-up pass releases the bits of the sub-monitors that have finished, and asks for
another pass when it fails itself.

A sub-monitor is in one of three phases: idle, in its run until it has set `finished`, or releasing
its bit (`MonitorStage.phase`). The invariant `Recoverable` says that a set bit outside of a run
belongs to a sub-monitor that has finished, and that an idle one will be found by the clean-up pass
that was asked for or that is under way (`Ahead`). It is kept by every step but one: the master
loads the bits before it reads `finished`, and clears `finished` of a sub-monitor that has run and
failed to release its bit in between. One signal is enough for that. No clean-up releases that bit
any more (`exists_leaked_monitor`).
-/

set_option autoImplicit false
set_option relaxedAutoImplicit false

namespace Mcmp.Routines.WorkerCleanup

open Foundation.ByteBits Foundation.Interleaving Utilities Utilities.BitmapScan Worker

/-! ### Phases of the sub-monitors -/

/-- What a sub-monitor is doing with its bit. -/
inductive Phase
  | idle
  | running
  | releasing
  deriving DecidableEq, Repr

/-- The phase of a sub-monitor at a stage. -/
def phase : MonitorStage → Phase
  | .waiting => .idle
  | .enable _ _ => .idle
  | .readTask => .running
  | .storeFinished => .running
  | .disable _ _ => .releasing
  | .setFailstry => .releasing

section Phases

variable (config : Config Party Executor WorkerThread)

/-- A sub-monitor is in a phase. -/
def InPhase (m : ℕ) (now : Phase) : Prop := ∃ stage, MonitorAt config m stage ∧ phase stage = now

variable {config}

theorem inPhase_iff {m : ℕ} {stage : MonitorStage} (hat : MonitorAt config m stage)
    (now : Phase) : InPhase config m now ↔ phase stage = now := by
  constructor
  · rintro ⟨stage', hat', hphase⟩
    rwa [hat.unique hat']
  · exact fun hphase ↦ ⟨stage, hat, hphase⟩

@[simp] theorem inPhase_advance_client (executor : Executor) (thread : WorkerThread) (m : ℕ)
    (now : Phase) : InPhase (config.advance .client executor thread) m now ↔
      InPhase config m now := by
  simp only [InPhase, monitorAt_advance_client]

@[simp] theorem inPhase_advance_master (executor : Executor) (thread : WorkerThread) (m : ℕ)
    (now : Phase) : InPhase (config.advance .master executor thread) m now ↔
      InPhase config m now := by
  simp only [InPhase, monitorAt_advance_master]

@[simp] theorem inPhase_advance_self (executor : Executor) (m : ℕ) (stage : MonitorStage)
    (now : Phase) : InPhase (config.advance (.monitor m) executor (.monitor m stage)) m now ↔
      phase stage = now := by
  simp only [InPhase, monitorAt_advance_self, exists_eq_left']

theorem inPhase_advance_of_ne (executor : Executor) (thread : WorkerThread) {m other : ℕ}
    (hne : other ≠ m) (now : Phase) :
    InPhase (config.advance (.monitor m) executor thread) other now ↔
      InPhase config other now := by
  simp only [InPhase, monitorAt_advance_of_ne _ _ _ hne]

end Phases

/-! ### The clean-up pass -/

/-- The master is in the clean-up pass. -/
def Cleaning : MasterStage → Prop
  | .scanOccupied _ => True
  | .cleanFinished _ => True
  | .clean _ _ _ => True
  | .storeFailstry => True
  | _ => False

/-- The clean-up pass has not gone past a sub-monitor, or is about to ask for another pass. -/
def Ahead (m : ℕ) : MasterStage → Prop
  | .scanOccupied state => state.position ≤ m
  | .cleanFinished k => k ≤ m
  | .clean k _ _ => k ≤ m
  | .storeFailstry => True
  | _ => False

theorem Ahead.cleaning {m : ℕ} {stage : MasterStage} (hahead : Ahead m stage) : Cleaning stage := by
  cases stage <;> first | exact trivial | exact hahead

/-- The bitmap has a bit for every sub-monitor. -/
def Sized (executor : Executor) : Prop := executor.length ≤ 8 * executor.bitmapLength

/-- A pass that comes to a byte position goes on to the sub-monitors past it. -/
theorem ahead_cleanAt_scanAt {executor : Executor} (hsized : Sized executor) {i m : ℕ}
    (hi : 8 * i ≤ m) (hm : m < executor.length) :
    Ahead m (cleanAt executor (scanAt executor.bitmapLength i)) := by
  have hinside : i < executor.bitmapLength := by
    rw [Sized] at hsized
    omega
  rw [scanAt, if_pos hinside]
  show 8 * i ≤ m
  exact hi

/-- A pass that starts at an index goes on to the sub-monitors from it on. -/
theorem ahead_cleanFrom {executor : Executor} (hsized : Sized executor) {offset m : ℕ}
    (hoffset : offset ≤ m) (hm : m < executor.length) : Ahead m (cleanFrom executor offset) := by
  have hinside : ¬ offset / 8 ≥ executor.bitmapLength := by
    rw [Sized] at hsized
    omega
  rw [cleanFrom, startScan, if_neg hinside]
  show offset ≤ m
  exact hoffset

/-- A load of the pass does not go past a set bit. -/
theorem ahead_cleanAt_scanStep {executor : Executor} (hsized : Sized executor) {state : ScanState}
    {m : ℕ} (hstate : state.position ≤ m) (hm : m < executor.length)
    (hset : bit executor.bitmap m = true) :
    Ahead m (cleanAt executor
      (scanStep occupied 32 executor.bitmapLength executor.bitmap state)) := by
  rcases scanStep_cases occupied (by decide : 8 ≤ 32) executor.bitmapLength executor.bitmap state
    with ⟨k, hstep, -, -, hclear⟩ | ⟨i, hstep, hclear⟩
  · have hk : k ≤ m := by
      by_contra hlt
      have hfalse : bit executor.bitmap m = false := hclear m hstate (not_le.mp hlt)
      exact Bool.false_ne_true (hfalse.symm.trans hset)
    rw [hstep, cleanAt, if_pos (lt_of_le_of_lt hk hm)]
    show k ≤ m
    exact hk
  · have hi : 8 * i ≤ m := by
      by_contra hlt
      have hfalse : bit executor.bitmap m = false := hclear m hstate (not_le.mp hlt)
      exact Bool.false_ne_true (hfalse.symm.trans hset)
    rw [hstep]
    exact ahead_cleanAt_scanAt hsized hi hm

/-! ### The invariant -/

/-- Every set bit outside of a run can be released: the sub-monitor has finished, and when it is
idle a clean-up was asked for or will still find it. -/
structure Recoverable (config : Config Party Executor WorkerThread) : Prop where
  sized : Sized config.shared
  failstry : config.shared.failstry = 0 ∨ config.shared.failstry = 1
  finished : ∀ m now, bit config.shared.bitmap m = true → InPhase config m now → now ≠ .running →
    config.shared.finished m = 1
  asked : ∀ m < config.shared.length, bit config.shared.bitmap m = true → InPhase config m .idle →
    config.shared.failstry = 1 ∨ ∃ stage, MasterAt config stage ∧ Ahead m stage

variable {config : Config Party Executor WorkerThread}

/-- The condition on the stores of `finished = 0`: the bit of the sub-monitor is clear, or it is in
a run and will set the flag again. -/
def AssignsReleased : Guard Party Executor WorkerThread WorkerEvent := fun _ config _ event ↦
  match event with
  | .assigned m => bit config.shared.bitmap m = false ∨ MonitorAt config m .readTask ∨
      MonitorAt config m .storeFinished
  | _ => True

instance (config : Config Party Executor WorkerThread) (m : ℕ) (stage : MonitorStage) :
    Decidable (MonitorAt config m stage) :=
  inferInstanceAs (Decidable (config.threads (.monitor m) = .monitor m stage))

instance (history : List (Party × WorkerEvent)) (config : Config Party Executor WorkerThread)
    (party : Party) (event : WorkerEvent) :
    Decidable (AssignsReleased history config party event) := by
  unfold AssignsReleased
  split <;> infer_instance

/-- A step of the master keeps the invariant when it sets no bit, clears no flag of a set bit
outside of a run, and stays ahead of the idle sub-monitors that it was ahead of or that a clean-up
was asked for. -/
theorem Recoverable.master (hrecoverable : Recoverable config) {executor : Executor}
    {stage stage' : MasterStage} (hat : MasterAt config stage)
    (hlength : executor.length = config.shared.length)
    (hbitmapLength : executor.bitmapLength = config.shared.bitmapLength)
    (hfailstry : executor.failstry = 0 ∨ executor.failstry = 1)
    (hbitmap : ∀ m, bit executor.bitmap m = true → bit config.shared.bitmap m = true)
    (hfinished : ∀ m now, bit config.shared.bitmap m = true → InPhase config m now →
      now ≠ .running → executor.finished m = config.shared.finished m)
    (hasked : ∀ m < config.shared.length, bit executor.bitmap m = true →
      config.shared.finished m = 1 → config.shared.failstry = 1 ∨ Ahead m stage →
      executor.failstry = 1 ∨ Ahead m stage') :
    Recoverable (config.advance .master executor (.master stage')) := by
  refine ⟨?_, hfailstry, fun m now hset hnow hrunning ↦ ?_, fun m hm hset hidle ↦ ?_⟩
  · rw [Config.advance_shared, Sized, hlength, hbitmapLength]
    exact hrecoverable.sized
  · rw [inPhase_advance_master] at hnow
    rw [Config.advance_shared, hfinished m now (hbitmap m hset) hnow hrunning]
    exact hrecoverable.finished m now (hbitmap m hset) hnow hrunning
  · rw [inPhase_advance_master] at hidle
    rw [Config.advance_shared, hlength] at hm
    have hflag := hrecoverable.finished m .idle (hbitmap m hset) hidle (by simp)
    have hold : config.shared.failstry = 1 ∨ Ahead m stage := by
      apply (hrecoverable.asked m hm (hbitmap m hset) hidle).imp_right
      rintro ⟨stage₀, hat₀, hahead⟩
      rwa [hat.unique hat₀]
    exact (hasked m hm hset hflag hold).imp_right fun hahead ↦ ⟨stage', by simp, hahead⟩

/-- A step of a sub-monitor keeps the invariant when it changes no other bit and flag, asks for a
clean-up if it changes `failstry`, and leaves its own bit recoverable. -/
theorem Recoverable.monitor (hrecoverable : Recoverable config) {executor : Executor} {m : ℕ}
    {stage' : MonitorStage} (hlength : executor.length = config.shared.length)
    (hbitmapLength : executor.bitmapLength = config.shared.bitmapLength)
    (hfailstry : executor.failstry = config.shared.failstry ∨ executor.failstry = 1)
    (hbitmap : ∀ k, k ≠ m → bit executor.bitmap k = bit config.shared.bitmap k)
    (hfinished : ∀ k, k ≠ m → executor.finished k = config.shared.finished k)
    (hself : bit executor.bitmap m = true → phase stage' ≠ .running → executor.finished m = 1)
    (hidle : m < config.shared.length → bit executor.bitmap m = true → phase stage' = .idle →
      executor.failstry = 1 ∨ ∃ stage, MasterAt config stage ∧ Ahead m stage) :
    Recoverable (config.advance (.monitor m) executor (.monitor m stage')) := by
  refine ⟨?_, ?_, fun k now hset hnow hrunning ↦ ?_, fun k hk hset hnow ↦ ?_⟩
  · rw [Config.advance_shared, Sized, hlength, hbitmapLength]
    exact hrecoverable.sized
  · rw [Config.advance_shared]
    rcases hfailstry with hsame | hone
    · rw [hsame]
      exact hrecoverable.failstry
    · exact Or.inr hone
  · rw [Config.advance_shared] at hset ⊢
    by_cases hsame : k = m
    · subst hsame
      rw [inPhase_advance_self] at hnow
      exact hself hset (by rwa [hnow])
    · rw [inPhase_advance_of_ne _ _ hsame] at hnow
      rw [hbitmap k hsame] at hset
      rw [hfinished k hsame]
      exact hrecoverable.finished k now hset hnow hrunning
  · rw [Config.advance_shared] at hk hset
    simp only [Config.advance_shared, masterAt_advance_monitor]
    rw [hlength] at hk
    by_cases hsame : k = m
    · subst hsame
      rw [inPhase_advance_self] at hnow
      exact hidle hk hset hnow
    · rw [inPhase_advance_of_ne _ _ hsame] at hnow
      rw [hbitmap k hsame] at hset
      rcases hrecoverable.asked k hk hset hnow with hone | hahead
      · exact Or.inl (hfailstry.elim (fun h ↦ h.trans hone) id)
      · exact Or.inr hahead

/-- The part of an executor that the invariant speaks of: sizes, `failstry`, bits and flags. -/
def cleanupPart (executor : Executor) : ℕ × ℕ × ℤ × ByteMemory × (ℕ → ℤ) :=
  (executor.length, executor.bitmapLength, executor.failstry, executor.bitmap, executor.finished)

theorem cleanupPart_eq {executor executor' : Executor}
    (hpart : cleanupPart executor = cleanupPart executor') :
    executor.length = executor'.length ∧ executor.bitmapLength = executor'.bitmapLength ∧
      executor.failstry = executor'.failstry ∧ executor.bitmap = executor'.bitmap ∧
      executor.finished = executor'.finished := by
  simpa only [cleanupPart, Prod.mk.injEq] using hpart

/-- A step of the master that changes no bit, flag and `failstry` keeps the invariant when it stays
ahead. -/
theorem Recoverable.master_quiet (hrecoverable : Recoverable config) {executor : Executor}
    {stage stage' : MasterStage} (hat : MasterAt config stage)
    (hpart : cleanupPart executor = cleanupPart config.shared)
    (hahead : ∀ m < config.shared.length, bit config.shared.bitmap m = true →
      config.shared.finished m = 1 → Ahead m stage → Ahead m stage') :
    Recoverable (config.advance .master executor (.master stage')) := by
  obtain ⟨hlength, hbitmapLength, hfailstry, hbitmap, hfinished⟩ := cleanupPart_eq hpart
  refine hrecoverable.master hat hlength hbitmapLength ?_ ?_ ?_ ?_
  · rw [hfailstry]
    exact hrecoverable.failstry
  · intro m hset
    rwa [hbitmap] at hset
  · intro m now _ _ _
    rw [hfinished]
  · intro m hm hset hflag hold
    rw [hbitmap] at hset
    rw [hfailstry]
    exact hold.imp_right (hahead m hm hset hflag)

/-- A step of a sub-monitor inside its phase keeps the invariant when it changes no bit, flag and
`failstry`. -/
theorem Recoverable.monitor_quiet (hrecoverable : Recoverable config) {executor : Executor} {m : ℕ}
    {stage stage' : MonitorStage} (hat : MonitorAt config m stage)
    (hpart : cleanupPart executor = cleanupPart config.shared)
    (hphase : phase stage' = phase stage) :
    Recoverable (config.advance (.monitor m) executor (.monitor m stage')) := by
  obtain ⟨hlength, hbitmapLength, hfailstry, hbitmap, hfinished⟩ := cleanupPart_eq hpart
  refine hrecoverable.monitor hlength hbitmapLength (Or.inl hfailstry) ?_ ?_ ?_ ?_
  · intro k _
    rw [hbitmap]
  · intro k _
    rw [hfinished]
  · intro hset hrunning
    rw [hbitmap] at hset
    rw [hfinished]
    exact hrecoverable.finished m (phase stage') hset ((inPhase_iff hat _).mpr hphase.symm) hrunning
  · intro hm hset hidle
    rw [hbitmap] at hset
    rw [hfailstry]
    exact hrecoverable.asked m hm hset ((inPhase_iff hat _).mpr (hphase.symm.trans hidle))

/-- The steps of the users keep the invariant. -/
theorem Recoverable.client (hrecoverable : Recoverable config) {executor : Executor}
    {thread : WorkerThread}
    (hpart : cleanupPart executor = cleanupPart config.shared) :
    Recoverable (config.advance .client executor thread) := by
  obtain ⟨hlength, hbitmapLength, hfailstry, hbitmap, hfinished⟩ := cleanupPart_eq hpart
  constructor
  · rw [Config.advance_shared, Sized, hlength, hbitmapLength]
    exact hrecoverable.sized
  · rw [Config.advance_shared, hfailstry]
    exact hrecoverable.failstry
  · intro m now hset hnow hrunning
    rw [Config.advance_shared, hbitmap] at hset
    rw [inPhase_advance_client] at hnow
    rw [Config.advance_shared, hfinished]
    exact hrecoverable.finished m now hset hnow hrunning
  · intro m hm hset hidle
    rw [Config.advance_shared, hlength] at hm
    rw [Config.advance_shared, hbitmap] at hset
    rw [inPhase_advance_client] at hidle
    simp only [Config.advance_shared, hfailstry, masterAt_advance_client]
    exact hrecoverable.asked m hm hset hidle

/-- Every step that meets the condition keeps the invariant. -/
theorem Recoverable.step (hrecoverable : Recoverable config)
    {history : List (Party × WorkerEvent)} {party : Party} {event : WorkerEvent}
    {executor : Executor} {thread : WorkerThread}
    (hguard : AssignsReleased history config party event)
    (hstep : WorkerStep config party event executor thread) :
    Recoverable (config.advance party executor thread) := by
  have hsized := hrecoverable.sized
  cases hstep with
  | refused idx => exact hrecoverable.client rfl
  | pushed idx => exact hrecoverable.client rfl
  | beat => exact hrecoverable.client rfl
  | masterWoken hat => exact hrecoverable.master_quiet hat rfl fun _ _ _ _ h ↦ h.elim
  | exchanged hat =>
    refine hrecoverable.master hat rfl rfl (Or.inl rfl) (fun _ h ↦ h) (fun _ _ _ _ _ ↦ rfl) ?_
    intro m hm _ _ hold
    rcases hold with hone | hahead
    · have hne : config.shared.failstry ≠ 0 := by rw [hone]; exact one_ne_zero
      rw [if_pos hne]
      exact Or.inr (ahead_cleanFrom hsized (Nat.zero_le m) hm)
    · exact hahead.elim
  | scannedOccupied state hat =>
    exact hrecoverable.master_quiet hat rfl fun m hm hset _ hahead ↦
      ahead_cleanAt_scanStep hsized hahead hm hset
  | cleanSkipped k hat hzero =>
    apply hrecoverable.master_quiet hat rfl
    intro m hm _ hflag hahead
    have hne : m ≠ k := by
      rintro rfl
      exact one_ne_zero (hflag.symm.trans hzero)
    have hle : k ≤ m := hahead
    exact ahead_cleanFrom hsized (by omega) hm
  | cleanStarted k hat _ => exact hrecoverable.master_quiet hat rfl fun _ _ _ _ hahead ↦ hahead
  | cleaning tries' stage' hat =>
    exact hrecoverable.master_quiet hat rfl fun _ _ _ _ hahead ↦ hahead
  | cleanFailed hat => exact hrecoverable.master_quiet hat rfl fun _ _ _ _ _ ↦ trivial
  | @cleaned k _ _ bitmap hat hbit =>
    have hcleared (m : ℕ) (hset : bit bitmap m = true) :
        m ≠ k ∧ bit config.shared.bitmap m = true := by
      rw [hbit] at hset
      split_ifs at hset with hsame
      exact ⟨hsame, hset⟩
    refine hrecoverable.master hat rfl rfl hrecoverable.failstry (fun m h ↦ (hcleared m h).2)
      (fun _ _ _ _ _ ↦ rfl) ?_
    intro m hm hset _ hold
    apply hold.imp_right
    intro hahead
    have hne : m ≠ k := (hcleared m hset).1
    have hle : k ≤ m := hahead
    exact ahead_cleanFrom hsized (by omega) hm
  | storedFailstry hat =>
    exact hrecoverable.master hat rfl rfl (Or.inr rfl) (fun _ h ↦ h) (fun _ _ _ _ _ ↦ rfl)
      fun _ _ _ _ _ ↦ Or.inl rfl
  | scannedAvaible state hat => exact hrecoverable.master_quiet hat rfl fun _ _ _ _ h ↦ h.elim
  | readUnfinished m hat _ => exact hrecoverable.master_quiet hat rfl fun _ _ _ _ h ↦ h.elim
  | readFinished m hat _ => exact hrecoverable.master_quiet hat rfl fun _ _ _ _ h ↦ h.elim
  | taken m idx hat _ => exact hrecoverable.master_quiet hat rfl fun _ _ _ _ h ↦ h.elim
  | takeFailed m hat => exact hrecoverable.master_quiet hat rfl fun _ _ _ _ h ↦ h.elim
  | assigned k hat =>
    refine hrecoverable.master hat rfl rfl hrecoverable.failstry (fun _ h ↦ h) ?_
      fun _ _ _ _ hold ↦ Or.inl (hold.elim id False.elim)
    intro m now hset hnow hrunning
    refine Function.update_of_ne (fun hsame ↦ ?_) _ _
    subst hsame
    -- The flag is cleared of a sub-monitor whose bit is clear or that is in a run.
    rcases hguard with hclear | hread | hstore
    · exact Bool.false_ne_true (hclear.symm.trans hset)
    · exact hrunning ((inPhase_iff hread now).mp hnow).symm
    · exact hrunning ((inPhase_iff hstore now).mp hnow).symm
  | pinged m hat => exact hrecoverable.master_quiet hat rfl fun _ _ _ _ h ↦ h.elim
  | woken m hat => exact hrecoverable.monitor_quiet hat rfl rfl
  | enabling tries' stage' hat => exact hrecoverable.monitor_quiet hat rfl rfl
  | enableFailed hat => exact hrecoverable.monitor_quiet hat rfl rfl
  | @enabled m _ _ bitmap hat hbit =>
    exact hrecoverable.monitor rfl rfl (Or.inl rfl) (fun k hk ↦ by rw [hbit, if_neg hk])
      (fun _ _ ↦ rfl) (fun _ hrunning ↦ absurd rfl hrunning) (fun _ _ hidle ↦ by cases hidle)
  | handled m hat => exact hrecoverable.monitor_quiet hat rfl rfl
  | finished m hat =>
    exact hrecoverable.monitor rfl rfl (Or.inl rfl) (fun _ _ ↦ rfl)
      (fun k hk ↦ Function.update_of_ne hk _ _) (fun _ _ ↦ Function.update_self _ _ _)
      (fun _ _ hidle ↦ by cases hidle)
  | disabling tries' stage' hat => exact hrecoverable.monitor_quiet hat rfl rfl
  | disableFailed hat => exact hrecoverable.monitor_quiet hat rfl rfl
  | @disabled m _ _ bitmap hat hbit =>
    have hclear : bit bitmap m = false := by rw [hbit, if_pos rfl]
    exact hrecoverable.monitor rfl rfl (Or.inl rfl) (fun k hk ↦ by rw [hbit, if_neg hk])
      (fun _ _ ↦ rfl) (fun hset ↦ absurd (hclear.symm.trans hset) Bool.false_ne_true)
      (fun _ hset ↦ absurd (hclear.symm.trans hset) Bool.false_ne_true)
  | setFailstry m hat =>
    have hone : (if config.shared.failstry = 0 then 1 else config.shared.failstry) = 1 := by
      rcases hrecoverable.failstry with hzero | hone
      · rw [if_pos hzero]
      · rw [hone, if_neg one_ne_zero]
    refine hrecoverable.monitor rfl rfl (Or.inr hone) (fun _ _ ↦ rfl) (fun _ _ ↦ rfl) ?_
      fun _ _ _ ↦ Or.inl hone
    intro hset _
    exact hrecoverable.finished m .releasing hset ((inPhase_iff hat _).mpr rfl) (by simp)

theorem recoverable_of_run {length : ℕ} {taskdata : ℕ → ℕ} {history : List (Party × WorkerEvent)}
    (hrun : WorkerRun AssignsReleased length taskdata history config) : Recoverable config := by
  refine worker_invariant (fun _ config ↦ Recoverable config) ?_ ?_ hrun
  · have hclear (m : ℕ) : bit (initially length taskdata).shared.bitmap m = false := bit_zero m
    refine ⟨?_, Or.inl rfl, fun m now hset ↦ ?_, fun m _ hset ↦ ?_⟩
    · show length ≤ 8 * ((length + 7) / 8)
      omega
    · exact absurd ((hclear m).symm.trans hset) Bool.false_ne_true
    · exact absurd ((hclear m).symm.trans hset) Bool.false_ne_true
  · intro history config party event executor thread hrecoverable hguard hstep
    exact hrecoverable.step hguard hstep

/-- In the runs in which the master clears the flag only of sub-monitors whose bit is clear or that
are in a run, an idle sub-monitor whose bit is set has finished, and a clean-up was asked for or is
under way. -/
theorem idle_monitor_recoverable {length : ℕ} {taskdata : ℕ → ℕ}
    {history : List (Party × WorkerEvent)}
    (hrun : WorkerRun AssignsReleased length taskdata history config) {m : ℕ} (hm : m < length)
    (hidle : MonitorAt config m .waiting) (hset : bit config.shared.bitmap m = true) :
    config.shared.finished m = 1 ∧
      (config.shared.failstry = 1 ∨ ∃ stage, MasterAt config stage ∧ Cleaning stage) := by
  have hrecoverable := recoverable_of_run hrun
  have hphase : InPhase config m .idle := (inPhase_iff hidle _).mpr rfl
  rw [← length_of_run hrun] at hm
  refine ⟨hrecoverable.finished m .idle hset hphase (by simp),
    (hrecoverable.asked m hm hset hphase).imp_right ?_⟩
  rintro ⟨stage, hat, hahead⟩
  exact ⟨stage, hat, hahead.cleaning⟩

/-! ### Schedules with a release that fails -/

/-- The master finds a sub-monitor free, takes an index for it and sends the signal. -/
def assignOne (idx : ℕ) : List (Party × WorkerCommand) :=
  goOn .master 2 ++ (.master, .take idx) :: goOn .master 2

/-- Two tries of the first sub-monitor to release its bit fail, because another one claims its own
bit during the first and releases it during the second. -/
def contention (m : ℕ) : List (Party × WorkerCommand) :=
  [goOn (.monitor 0) 1, goOn (.monitor m) 3, goOn (.monitor 0) 2, goOn (.monitor m) 4,
    goOn (.monitor 0) 1].flatten

/-- A beat that assigns the indices 1 to 6 to six sub-monitors. -/
def assignSix : List (Party × WorkerCommand) :=
  [(List.range 7).map fun idx ↦ (.client, .push (idx + 1)), [(.client, .beat)], goOn .master 2,
    assignOne 1, assignOne 2, assignOne 3, assignOne 4, assignOne 5, assignOne 6,
    goOn .master 1].flatten

/-- The first sub-monitor claims its bit, runs, fails ten times to release it, and asks for a
clean-up. -/
def failingRun : List (Party × WorkerCommand) :=
  [goOn (.monitor 0) 4, contention 1, contention 2, contention 3, contention 4, contention 5,
    goOn (.monitor 0) 1].flatten

/-- Six sub-monitors, and the first one fails to release its bit: it has finished and a clean-up was
asked for. -/
theorem idle_monitor_recoverable_six :
    ∃ history config, WorkerRun AssignsReleased 6 (fun _ ↦ 0) history config ∧
      MonitorAt config 0 .waiting ∧ bit config.shared.bitmap 0 = true ∧
      config.shared.finished 0 = 1 ∧
      (config.shared.failstry = 1 ∨ ∃ stage, MasterAt config stage ∧ Cleaning stage) := by
  obtain ⟨history, config, hrun, hview⟩ := exists_run_of_play_view workerMachine AssignsReleased
    (initially 6 fun _ ↦ 0) [assignSix, goOn (.monitor 0) 1, failingRun].flatten
    (fun _ config ↦ (config.threads (.monitor 0), bit config.shared.bitmap 0))
    (.monitor 0 .waiting, true) (by decide +kernel)
  obtain ⟨hidle, hset⟩ := Prod.mk.inj hview
  exact ⟨history, config, hrun, hidle, hset,
    idle_monitor_recoverable hrun (by decide) hidle hset⟩

/-- The master has loaded the bit of the first sub-monitor as clear, before the sub-monitor gets the
one signal that it was sent. It runs and fails to release its bit; then the master finds it finished
and clears its flag. It is idle with its bit set, and no clean-up takes it for finished. -/
theorem exists_leaked_monitor :
    ∃ history config, WorkerRun anyStep 6 (fun _ ↦ 0) history config ∧
      MonitorAt config 0 .waiting ∧ bit config.shared.bitmap 0 = true ∧
      config.shared.finished 0 = 0 := by
  obtain ⟨history, config, hrun, hview⟩ := exists_run_of_play_view workerMachine anyStep
    (initially 6 fun _ ↦ 0)
    [assignSix, [(.client, .beat)], goOn .master 3, goOn (.monitor 0) 1, failingRun,
      goOn .master 1, [(.master, .take 7)], goOn .master 1].flatten
    (fun _ config ↦ (config.threads (.monitor 0), bit config.shared.bitmap 0,
      config.shared.finished 0))
    (.monitor 0 .waiting, true, 0) (by decide +kernel)
  obtain ⟨hidle, hset, hflag⟩ := Prod.mk.inj hview |>.imp_right Prod.mk.inj
  exact ⟨history, config, hrun, hidle, hset, hflag⟩

end Mcmp.Routines.WorkerCleanup
