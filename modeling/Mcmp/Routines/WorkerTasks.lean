import Mcmp.Routines.Worker

/-!
# The tasks of a worker executor

Every index that the master takes from the queue is meant to reach the handler once. The flag
`finished` of a sub-monitor is the hand-over: the master takes an index for it when the flag is 1,
clears the flag and sends the signal, and the sub-monitor sets it after the handler. But a
sub-monitor decides to run from its bit alone. A signal that was sent twice, because the first one
had not been seen to start the run, wakes it again after the run, and it calls the handler for a
task that it has finished.

Only few steps matter here (`TaskStep`). When the handler is called only while the flag is 0, no
index is handled more often than it was taken (`handled_le_taken`). When a sub-monitor sets the flag
only after it has handled the task that it was assigned last, no task is overwritten before it was
handled (`handled_between_takes`). Without these conditions both fail, with one sub-monitor.
-/

set_option autoImplicit false
set_option relaxedAutoImplicit false

namespace Mcmp.Routines.WorkerTasks

open Foundation.Interleaving Utilities Utilities.BitmapScan Worker

/-! ### The steps that matter -/

/-- The master hands out a task at this stage. -/
def Handing : MasterStage → Prop
  | .take _ => True
  | .storeFinished _ => True
  | _ => False

theorem not_handing_assignAt (executor : Executor) (result : ScanResult) :
    ¬ Handing (assignAt executor result) := by
  cases result with
  | more state => exact not_false
  | found bitidx =>
    simp only [assignAt]
    split_ifs <;> exact not_false
  | missed => exact not_false

theorem not_handing_cleanAt (executor : Executor) (result : ScanResult) :
    ¬ Handing (cleanAt executor result) := by
  cases result with
  | more state => exact not_false
  | found bitidx =>
    simp only [cleanAt]
    split_ifs
    · exact not_false
    · exact not_handing_assignAt executor _
  | missed => exact not_handing_assignAt executor _

variable {config : Config Party Executor WorkerThread}

/-- A step as far as tasks are concerned: an index is taken, the flag is cleared, the handler is
called, the flag is set, or another step, which leaves flags and tasks as they are; the master comes
to a take only from a flag that is set. -/
inductive TaskStep (config : Config Party Executor WorkerThread) :
    Party → WorkerEvent → Executor → WorkerThread → Prop
  | taken (m idx : ℕ) {executor : Executor} : MasterAt config (.take m) →
      executor.finished = config.shared.finished →
      executor.taskdata = Function.update config.shared.taskdata m idx →
      TaskStep config .master (.taken m idx) executor (.master (.storeFinished m))
  | assigned (m : ℕ) {executor : Executor} : MasterAt config (.storeFinished m) →
      executor.finished = Function.update config.shared.finished m 0 →
      executor.taskdata = config.shared.taskdata →
      TaskStep config .master (.assigned m) executor (.master (.ping m))
  | handled (m : ℕ) : MonitorAt config m .readTask →
      TaskStep config (.monitor m) (.handled (config.shared.taskdata m)) config.shared
        (.monitor m .storeFinished)
  | finished (m : ℕ) {executor : Executor} : MonitorAt config m .storeFinished →
      executor.finished = Function.update config.shared.finished m 1 →
      executor.taskdata = config.shared.taskdata →
      TaskStep config (.monitor m) .finished executor (.monitor m (.disable 0 .load))
  | other {party : Party} {event : WorkerEvent} {executor : Executor} {thread : WorkerThread} :
      (∀ m idx, event ≠ .taken m idx) → (∀ idx, event ≠ .handled idx) →
      executor.finished = config.shared.finished → executor.taskdata = config.shared.taskdata →
      (∀ m, MasterAt (config.advance party executor thread) (.storeFinished m) ↔
        MasterAt config (.storeFinished m)) →
      (∀ m, MasterAt (config.advance party executor thread) (.take m) →
        MasterAt config (.take m) ∨ config.shared.finished m ≠ 0) →
      (∀ m, MonitorAt (config.advance party executor thread) m .storeFinished ↔
        MonitorAt config m .storeFinished) →
      TaskStep config party event executor thread

/-- A step of the master between stages at which it does not clear a flag. -/
theorem TaskStep.of_master {event : WorkerEvent} {executor : Executor} {stage stage' : MasterStage}
    (hat : MasterAt config stage) (htaken : ∀ m idx, event ≠ .taken m idx)
    (hhandled : ∀ idx, event ≠ .handled idx)
    (hfinished : executor.finished = config.shared.finished)
    (htaskdata : executor.taskdata = config.shared.taskdata)
    (hfrom : ∀ m, stage ≠ .storeFinished m)
    (hto : ¬ Handing stage' ∨ ∃ m, stage' = .take m ∧ config.shared.finished m ≠ 0) :
    TaskStep config .master event executor (.master stage') := by
  refine .other htaken hhandled hfinished htaskdata (fun m ↦ ?_) (fun m hm ↦ ?_) (fun m ↦ ?_)
  · rw [masterAt_advance_master]
    constructor
    · rintro rfl
      rcases hto with hto | ⟨_, hto, -⟩
      · exact absurd trivial hto
      · cases hto
    · intro hstore
      exact absurd (hat.unique hstore) (hfrom m)
  · rw [masterAt_advance_master] at hm
    subst hm
    rcases hto with hto | ⟨_, hto, hne⟩
    · exact absurd trivial hto
    · cases hto
      exact Or.inr hne
  · rw [monitorAt_advance_master]

/-- An internal step of the master to a stage at which it hands out no task. -/
theorem TaskStep.of_master_internal {executor : Executor} {stage stage' : MasterStage}
    (hat : MasterAt config stage) (hfinished : executor.finished = config.shared.finished)
    (htaskdata : executor.taskdata = config.shared.taskdata)
    (hfrom : ∀ m, stage ≠ .storeFinished m) (hto : ¬ Handing stage') :
    TaskStep config .master .internal executor (.master stage') :=
  .of_master hat (by simp) (by simp) hfinished htaskdata hfrom (Or.inl hto)

/-- An internal step of a sub-monitor between stages other than the one that sets its flag. -/
theorem TaskStep.of_monitor {m : ℕ} {executor : Executor} {stage stage' : MonitorStage}
    (hat : MonitorAt config m stage) (hfinished : executor.finished = config.shared.finished)
    (htaskdata : executor.taskdata = config.shared.taskdata) (hfrom : stage ≠ .storeFinished)
    (hto : stage' ≠ .storeFinished) :
    TaskStep config (.monitor m) .internal executor (.monitor m stage') := by
  refine .other (by simp) (by simp) hfinished htaskdata (fun other ↦ ?_) (fun other hother ↦ ?_)
    (fun other ↦ ?_)
  · rw [masterAt_advance_monitor]
  · rw [masterAt_advance_monitor] at hother
    exact Or.inl hother
  · by_cases hsame : other = m
    · subst hsame
      rw [monitorAt_advance_self]
      exact iff_of_false hto fun hstore ↦ hfrom (hat.unique hstore)
    · rw [monitorAt_advance_of_ne _ _ _ hsame]

/-- Every step is one of those. -/
theorem taskStep_of_step {party : Party} {event : WorkerEvent} {executor : Executor}
    {thread : WorkerThread} (hstep : WorkerStep config party event executor thread) :
    TaskStep config party event executor thread := by
  have hclient {event : WorkerEvent} {executor : Executor} (htaken : ∀ m idx, event ≠ .taken m idx)
      (hhandled : ∀ idx, event ≠ .handled idx)
      (hfinished : executor.finished = config.shared.finished)
      (htaskdata : executor.taskdata = config.shared.taskdata) :
      TaskStep config .client event executor .client :=
    .other htaken hhandled hfinished htaskdata (by simp) (fun m hm ↦ Or.inl (by simpa using hm))
      (by simp)
  cases hstep with
  | refused idx => exact hclient (by simp) (by simp) rfl rfl
  | pushed idx => exact hclient (by simp) (by simp) rfl rfl
  | beat => exact hclient (by simp) (by simp) rfl rfl
  | masterWoken hat => exact .of_master_internal hat rfl rfl (by simp) not_false
  | exchanged hat =>
    refine .of_master_internal hat rfl rfl (by simp) ?_
    split_ifs
    · exact not_handing_cleanAt _ _
    · exact not_handing_assignAt _ _
  | scannedOccupied state hat =>
    exact .of_master_internal hat rfl rfl (by simp) (not_handing_cleanAt _ _)
  | cleanSkipped m hat _ =>
    exact .of_master_internal hat rfl rfl (by simp) (not_handing_cleanAt _ _)
  | cleanStarted m hat _ => exact .of_master_internal hat rfl rfl (by simp) not_false
  | cleaning tries' stage' hat => exact .of_master_internal hat rfl rfl (by simp) not_false
  | cleanFailed hat => exact .of_master_internal hat rfl rfl (by simp) not_false
  | cleaned bitmap hat _ =>
    exact .of_master_internal hat rfl rfl (by simp) (not_handing_cleanAt _ _)
  | storedFailstry hat => exact .of_master_internal hat rfl rfl (by simp) (not_handing_assignAt _ _)
  | scannedAvaible state hat =>
    exact .of_master_internal hat rfl rfl (by simp) (not_handing_assignAt _ _)
  | readUnfinished m hat _ => exact .of_master_internal hat rfl rfl (by simp) not_false
  | readFinished m hat hne =>
    exact .of_master hat (by simp) (by simp) rfl rfl (by simp) (Or.inr ⟨m, rfl, hne⟩)
  | taken m idx hat _ => exact .taken m idx hat rfl rfl
  | takeFailed m hat =>
    exact .of_master hat (by simp) (by simp) rfl rfl (by simp) (Or.inl not_false)
  | assigned m hat => exact .assigned m hat rfl rfl
  | pinged m hat => exact .of_master_internal hat rfl rfl (by simp) (not_handing_assignAt _ _)
  | woken m hat => exact .of_monitor hat rfl rfl (by simp) (by simp)
  | enabling tries' stage' hat => exact .of_monitor hat rfl rfl (by simp) (by simp)
  | enableFailed hat => exact .of_monitor hat rfl rfl (by simp) (by simp)
  | enabled bitmap hat _ => exact .of_monitor hat rfl rfl (by simp) (by simp)
  | handled m hat => exact .handled m hat
  | finished m hat => exact .finished m hat rfl rfl
  | disabling tries' stage' hat => exact .of_monitor hat rfl rfl (by simp) (by simp)
  | disableFailed hat => exact .of_monitor hat rfl rfl (by simp) (by simp)
  | disabled bitmap hat _ => exact .of_monitor hat rfl rfl (by simp) (by simp)
  | setFailstry m hat => exact .of_monitor hat rfl rfl (by simp) (by simp)

/-! ### Histories of tasks -/

/-- An index is taken into the record of a sub-monitor. -/
def Taken (m idx : ℕ) (_ : Party) (event : WorkerEvent) : Prop := event = .taken m idx

/-- A sub-monitor calls the handler with an index. -/
def Handled (m idx : ℕ) (party : Party) (event : WorkerEvent) : Prop :=
  party = .monitor m ∧ event = .handled idx

instance (m idx : ℕ) (party : Party) (event : WorkerEvent) : Decidable (Taken m idx party event) :=
  inferInstanceAs (Decidable (event = .taken m idx))

instance (m idx : ℕ) (party : Party) (event : WorkerEvent) :
    Decidable (Handled m idx party event) :=
  inferInstanceAs (Decidable (party = .monitor m ∧ event = .handled idx))

/-- An index was taken for a sub-monitor that has not called the handler with it since. -/
def Outstanding (history : List (Party × WorkerEvent)) (m idx : ℕ) : Prop :=
  Since history (Taken m idx) (Handled m idx)

instance (history : List (Party × WorkerEvent)) (m idx : ℕ) :
    Decidable (Outstanding history m idx) :=
  inferInstanceAs (Decidable (Since history (Taken m idx) (Handled m idx)))

variable {history : List (Party × WorkerEvent)} {m idx : ℕ}

theorem outstanding_concat (party : Party) (event : WorkerEvent) :
    Outstanding (history ++ [(party, event)]) m idx ↔
      event = .taken m idx ∨
        Outstanding history m idx ∧ ¬ (party = .monitor m ∧ event = .handled idx) :=
  since_concat history party event _ _

/-- An event that takes nothing and handles nothing leaves every task as it is. -/
theorem outstanding_concat_other {party : Party} {event : WorkerEvent}
    (htaken : ∀ m idx, event ≠ .taken m idx) (hhandled : ∀ idx, event ≠ .handled idx) :
    Outstanding (history ++ [(party, event)]) m idx ↔ Outstanding history m idx := by
  rw [outstanding_concat]
  constructor
  · rintro (h | ⟨h, -⟩)
    · exact absurd h (htaken m idx)
    · exact h
  · exact fun h ↦ Or.inr ⟨h, fun hevent ↦ hhandled idx hevent.2⟩

/-- How often an index was taken for a sub-monitor. -/
def takenBy (history : List (Party × WorkerEvent)) (m idx : ℕ) : ℕ :=
  history.countP fun entry ↦ entry.2 = .taken m idx

/-- How often a sub-monitor has called the handler with an index. -/
def handledBy (history : List (Party × WorkerEvent)) (m idx : ℕ) : ℕ :=
  history.countP fun entry ↦ entry.1 = .monitor m ∧ entry.2 = .handled idx

theorem takenBy_concat (party : Party) (event : WorkerEvent) :
    takenBy (history ++ [(party, event)]) m idx =
      takenBy history m idx + if event = .taken m idx then 1 else 0 := by
  simp only [takenBy, List.countP_append, List.countP_singleton, decide_eq_true_eq]

theorem handledBy_concat (party : Party) (event : WorkerEvent) :
    handledBy (history ++ [(party, event)]) m idx =
      handledBy history m idx +
        if party = .monitor m ∧ event = .handled idx then 1 else 0 := by
  simp only [handledBy, List.countP_append, List.countP_singleton, decide_eq_true_eq]

/-- Calls of the handler that use up an outstanding task do not get ahead of the takes. -/
theorem counted_concat {party : Party} {event : WorkerEvent}
    (hcounted : handledBy history m idx + (if Outstanding history m idx then 1 else 0) ≤
      takenBy history m idx)
    (hhandled : party = .monitor m → event = .handled idx → Outstanding history m idx) :
    handledBy (history ++ [(party, event)]) m idx +
        (if Outstanding (history ++ [(party, event)]) m idx then 1 else 0) ≤
      takenBy (history ++ [(party, event)]) m idx := by
  rw [handledBy_concat, takenBy_concat]
  by_cases htaken : event = .taken m idx
  · have hother : ¬ (party = .monitor m ∧ event = .handled idx) := by simp [htaken]
    rw [if_pos htaken, if_neg hother]
    split_ifs <;> omega
  · rw [if_neg htaken]
    by_cases hcalled : party = .monitor m ∧ event = .handled idx
    · have hdone : ¬ Outstanding (history ++ [(party, event)]) m idx := by
        rw [outstanding_concat]
        rintro (h | ⟨-, h⟩)
        · exact htaken h
        · exact h hcalled
      rw [if_pos (hhandled hcalled.1 hcalled.2)] at hcounted
      rw [if_pos hcalled, if_neg hdone]
      exact hcounted
    · have hsame : Outstanding (history ++ [(party, event)]) m idx ↔ Outstanding history m idx := by
        rw [outstanding_concat, or_iff_right htaken, and_iff_left hcalled]
      rw [if_neg hcalled, Nat.add_zero, Nat.add_zero]
      simpa only [hsame] using hcounted

/-! ### No task is run twice -/

/-- The condition on the calls of the handler: the flag of the sub-monitor is 0. -/
def HandlesUnfinished : Guard Party Executor WorkerThread WorkerEvent :=
  fun _ config party event ↦
    match party, event with
    | .monitor m, .handled _ => config.shared.finished m = 0
    | _, _ => True

instance (history : List (Party × WorkerEvent)) (config : Config Party Executor WorkerThread)
    (party : Party) (event : WorkerEvent) :
    Decidable (HandlesUnfinished history config party event) := by
  unfold HandlesUnfinished
  split <;> infer_instance

/-- While the flag of a sub-monitor is 0, its task is outstanding or it is about to set the flag; so
a call of the handler uses up a task that was taken. -/
structure Accounted (history : List (Party × WorkerEvent))
    (config : Config Party Executor WorkerThread) : Prop where
  unfinished : ∀ m, config.shared.finished m = 0 →
    Outstanding history m (config.shared.taskdata m) ∨ MonitorAt config m .storeFinished
  assigning : ∀ m, MasterAt config (.storeFinished m) →
    Outstanding history m (config.shared.taskdata m)
  free : ∀ m, MasterAt config (.take m) ∨ MasterAt config (.storeFinished m) →
    config.shared.finished m ≠ 0
  counted : ∀ m idx, handledBy history m idx + (if Outstanding history m idx then 1 else 0) ≤
    takenBy history m idx

section Concat

variable {k idx : ℕ} {executor : Executor}

theorem Accounted.taken (haccounted : Accounted history config) (hat : MasterAt config (.take k))
    (hfinished : executor.finished = config.shared.finished)
    (htaskdata : executor.taskdata = Function.update config.shared.taskdata k idx) :
    Accounted (history ++ [(.master, .taken k idx)])
      (config.advance .master executor (.master (.storeFinished k))) := by
  have hparty (m : ℕ) : Party.master ≠ .monitor m := by simp
  constructor
  · intro m hm
    rw [Config.advance_shared, hfinished] at hm
    rw [Config.advance_shared, htaskdata, monitorAt_advance_master, outstanding_concat]
    by_cases hsame : m = k
    · subst hsame
      exact Or.inl (Or.inl (by rw [Function.update_self]))
    · rw [Function.update_of_ne hsame]
      exact (haccounted.unfinished m hm).imp_left fun h ↦ Or.inr ⟨h, fun h ↦ hparty m h.1⟩
  · intro m hm
    obtain rfl : k = m := by simpa using hm
    rw [Config.advance_shared, htaskdata, Function.update_self, outstanding_concat]
    exact Or.inl rfl
  · intro m hm
    obtain rfl : k = m := by simpa using hm
    rw [Config.advance_shared, hfinished]
    exact haccounted.free k (Or.inl hat)
  · exact fun m idx ↦ counted_concat (haccounted.counted m idx) fun h ↦ absurd h (hparty m)

theorem Accounted.assigned (haccounted : Accounted history config)
    (hat : MasterAt config (.storeFinished k))
    (hfinished : executor.finished = Function.update config.shared.finished k 0)
    (htaskdata : executor.taskdata = config.shared.taskdata) :
    Accounted (history ++ [(.master, .assigned k)])
      (config.advance .master executor (.master (.ping k))) := by
  have hquiet (m idx : ℕ) :
      Outstanding (history ++ [(.master, .assigned k)]) m idx ↔ Outstanding history m idx :=
    outstanding_concat_other (by simp) (by simp)
  constructor
  · intro m hm
    rw [Config.advance_shared, htaskdata, monitorAt_advance_master, hquiet]
    by_cases hsame : m = k
    · subst hsame
      exact Or.inl (haccounted.assigning m hat)
    · rw [Config.advance_shared, hfinished, Function.update_of_ne hsame] at hm
      exact haccounted.unfinished m hm
  · intro m hm
    simp at hm
  · intro m hm
    simp at hm
  · exact fun m idx ↦ counted_concat (haccounted.counted m idx) fun _ h ↦ by simp at h

/-- A call of the handler under a flag that is 0 runs a task that is outstanding. -/
theorem Accounted.handled (haccounted : Accounted history config)
    (hat : MonitorAt config k .readTask) (hguard : config.shared.finished k = 0) :
    Accounted (history ++ [(.monitor k, WorkerEvent.handled (config.shared.taskdata k))])
      (config.advance (.monitor k) config.shared (.monitor k .storeFinished)) := by
  -- The flag is 0 and the sub-monitor is not about to set it, so its task is outstanding.
  have htask : Outstanding history k (config.shared.taskdata k) := by
    rcases haccounted.unfinished k hguard with htask | hstore
    · exact htask
    · exact absurd (hat.unique hstore) (by simp)
  have hothers {m idx : ℕ} (hne : m ≠ k) :
      Outstanding (history ++ [(.monitor k, .handled (config.shared.taskdata k))]) m idx ↔
        Outstanding history m idx := by
    rw [outstanding_concat, or_iff_right (by simp), and_iff_left]
    rintro ⟨hparty, -⟩
    exact hne (Party.monitor.inj hparty).symm
  constructor
  · intro m hm
    by_cases hsame : m = k
    · subst hsame
      exact Or.inr (by simp)
    · rw [Config.advance_shared, hothers hsame, monitorAt_advance_of_ne _ _ _ hsame]
      exact haccounted.unfinished m hm
  · intro m hm
    rw [masterAt_advance_monitor] at hm
    by_cases hsame : m = k
    · subst hsame
      exact absurd hguard (haccounted.free m (Or.inr hm))
    · rw [Config.advance_shared, hothers hsame]
      exact haccounted.assigning m hm
  · intro m hm
    rw [masterAt_advance_monitor, masterAt_advance_monitor] at hm
    exact haccounted.free m hm
  · intro m idx
    apply counted_concat (haccounted.counted m idx)
    intro hparty hevent
    cases hparty
    cases hevent
    exact htask

theorem Accounted.finished (haccounted : Accounted history config)
    (hfinished : executor.finished = Function.update config.shared.finished k 1)
    (htaskdata : executor.taskdata = config.shared.taskdata) :
    Accounted (history ++ [(.monitor k, WorkerEvent.finished)])
      (config.advance (.monitor k) executor (.monitor k (.disable 0 .load))) := by
  have hquiet (m idx : ℕ) :
      Outstanding (history ++ [(.monitor k, .finished)]) m idx ↔ Outstanding history m idx :=
    outstanding_concat_other (by simp) (by simp)
  constructor
  · intro m hm
    rw [Config.advance_shared, hfinished] at hm
    by_cases hsame : m = k
    · subst hsame
      rw [Function.update_self] at hm
      exact absurd hm one_ne_zero
    · rw [Function.update_of_ne hsame] at hm
      rw [Config.advance_shared, htaskdata, hquiet, monitorAt_advance_of_ne _ _ _ hsame]
      exact haccounted.unfinished m hm
  · intro m hm
    rw [masterAt_advance_monitor] at hm
    rw [Config.advance_shared, htaskdata, hquiet]
    exact haccounted.assigning m hm
  · intro m hm
    rw [masterAt_advance_monitor, masterAt_advance_monitor] at hm
    rw [Config.advance_shared, hfinished]
    by_cases hsame : m = k
    · subst hsame
      rw [Function.update_self]
      exact one_ne_zero
    · rw [Function.update_of_ne hsame]
      exact haccounted.free m hm
  · exact fun m idx ↦ counted_concat (haccounted.counted m idx) fun _ h ↦ by simp at h

end Concat

theorem Accounted.concat {party : Party} {event : WorkerEvent} {executor : Executor}
    {thread : WorkerThread} (haccounted : Accounted history config)
    (hguard : HandlesUnfinished history config party event)
    (hstep : TaskStep config party event executor thread) :
    Accounted (history ++ [(party, event)]) (config.advance party executor thread) := by
  cases hstep with
  | taken k idx hat hfinished htaskdata => exact haccounted.taken hat hfinished htaskdata
  | assigned k hat hfinished htaskdata => exact haccounted.assigned hat hfinished htaskdata
  | handled k hat => exact haccounted.handled hat hguard
  | finished k _ hfinished htaskdata => exact haccounted.finished hfinished htaskdata
  | other htaken hhandled hfinished htaskdata hstore htake hmonitor =>
    constructor
    · intro m hm
      rw [Config.advance_shared, hfinished] at hm
      rw [Config.advance_shared, htaskdata, outstanding_concat_other htaken hhandled, hmonitor]
      exact haccounted.unfinished m hm
    · intro m hm
      rw [hstore] at hm
      rw [Config.advance_shared, htaskdata, outstanding_concat_other htaken hhandled]
      exact haccounted.assigning m hm
    · intro m hm
      rw [hstore] at hm
      rw [Config.advance_shared, hfinished]
      rcases hm with hm | hm
      · rcases htake m hm with hold | hne
        · exact haccounted.free m (Or.inl hold)
        · exact hne
      · exact haccounted.free m (Or.inr hm)
    · exact fun m idx ↦ counted_concat (haccounted.counted m idx) fun _ h ↦ absurd h (hhandled idx)

theorem accounted_of_run {length : ℕ} {taskdata : ℕ → ℕ}
    (hrun : WorkerRun HandlesUnfinished length taskdata history config) :
    Accounted history config := by
  refine worker_invariant Accounted ?_ ?_ hrun
  · constructor
    · intro m hm
      exact absurd hm one_ne_zero
    · intro m hm
      cases hm
    · rintro m (hm | hm)
      · cases hm
      · cases hm
    · intro m idx
      simp [takenBy, handledBy, Outstanding, not_since_nil]
  · intro history config party event executor thread haccounted hguard hstep
    exact haccounted.concat hguard (taskStep_of_step hstep)

/-- The handler is called with an index. -/
def handles (idx : ℕ) : Party × WorkerEvent → Bool
  | (.monitor _, .handled other) => other = idx
  | _ => false

/-- An index is taken. -/
def takes (idx : ℕ) : Party × WorkerEvent → Bool
  | (_, .taken _ other) => other = idx
  | _ => false

/-- The sub-monitor that an index is taken for. -/
def takenFor : Party × WorkerEvent → Party
  | (_, .taken m _) => .monitor m
  | _ => .client

theorem countP_handles_monitor (m idx : ℕ) :
    (history.countP fun entry ↦ handles idx entry && entry.1 = .monitor m) =
      handledBy history m idx := by
  apply List.countP_congr
  rintro ⟨party, event⟩ _
  cases party <;> cases event <;> simp [handles, and_comm]

theorem countP_takes_monitor (m idx : ℕ) :
    (history.countP fun entry ↦ takes idx entry && takenFor entry = .monitor m) =
      takenBy history m idx := by
  apply List.countP_congr
  rintro ⟨party, event⟩ _
  cases event <;> simp [takes, takenFor, and_comm]

/-- In the runs in which the handler is called only while the flag of the sub-monitor is 0, the
handler is called with an index at most as often as the index was taken. -/
theorem handled_le_taken {length : ℕ} {taskdata : ℕ → ℕ}
    (hrun : WorkerRun HandlesUnfinished length taskdata history config) (idx : ℕ) :
    history.countP (handles idx) ≤ history.countP (takes idx) := by
  have hcounted := (accounted_of_run hrun).counted
  apply countP_le_of_fibers Prod.fst takenFor
  intro party
  have hnone (hparty : ∀ m, party ≠ .monitor m) :
      (history.countP fun entry ↦ handles idx entry && entry.1 = party) = 0 := by
    apply List.countP_eq_zero.mpr
    rintro ⟨party', event⟩ _ hentry
    cases party' with
    | monitor m =>
      exact hparty m (of_decide_eq_true (Bool.and_eq_true_iff.mp hentry).2).symm
    | _ => simp [handles] at hentry
  cases party with
  | monitor m =>
    rw [countP_handles_monitor, countP_takes_monitor]
    exact (Nat.le_add_right _ _).trans (hcounted m idx)
  | client => simp [hnone]
  | master => simp [hnone]

/-- One sub-monitor, one task: it is taken and handled once. -/
theorem handled_le_taken_once :
    ∃ history config, WorkerRun HandlesUnfinished 1 (fun _ ↦ 0) history config ∧
      history.countP (handles 7) = 1 ∧ history.countP (handles 7) ≤ history.countP (takes 7) := by
  obtain ⟨history, config, hrun, hview⟩ := exists_run_of_play_view workerMachine HandlesUnfinished
    (initially 1 fun _ ↦ 0)
    [[(.client, .push 7)], takeFirst 7, goOn .master 3, goOn (.monitor 0) 7].flatten
    (fun history _ ↦ history.countP (handles 7)) 1 (by decide +kernel)
  exact ⟨history, config, hrun, hview, handled_le_taken hrun 7⟩

/-- The sub-monitor wakes up and a second beat sends it the signal again before it has claimed its
bit: it runs its one task twice. -/
theorem exists_handled_twice :
    ∃ history config, WorkerRun anyStep 1 (fun _ ↦ 0) history config ∧
      history.countP (takes 7) = 1 ∧ history.countP (handles 7) = 2 := by
  obtain ⟨history, config, hrun, hview⟩ := exists_run_of_play_view workerMachine anyStep
    (initially 1 fun _ ↦ 0)
    [[(.client, .push 7)], takeFirst 7, goOn .master 3, goOn (.monitor 0) 1, [(.client, .beat)],
      goOn .master 6, goOn (.monitor 0) 10].flatten
    (fun history _ ↦ (history.countP (takes 7), history.countP (handles 7))) (1, 2)
    (by decide +kernel)
  obtain ⟨htakes, hhandles⟩ := Prod.mk.inj hview
  exact ⟨history, config, hrun, htakes, hhandles⟩

/-! ### No task is lost -/

/-- The condition on the stores of `finished = 1`: the sub-monitor has handled the task in its
record since it was taken, or the master has not cleared the flag for it yet. -/
def FinishesHandled : Guard Party Executor WorkerThread WorkerEvent :=
  fun history config party event ↦
    match party, event with
    | .monitor m, .finished =>
      Outstanding history m (config.shared.taskdata m) → MasterAt config (.storeFinished m)
    | _, _ => True

instance (config : Config Party Executor WorkerThread) (stage : MasterStage) :
    Decidable (MasterAt config stage) :=
  inferInstanceAs (Decidable (config.threads .master = .master stage))

instance (history : List (Party × WorkerEvent)) (config : Config Party Executor WorkerThread)
    (party : Party) (event : WorkerEvent) :
    Decidable (FinishesHandled history config party event) := by
  unfold FinishesHandled
  split <;> infer_instance

/-- An outstanding task is in its record, and the flag is 0 or about to be cleared. -/
structure Kept (history : List (Party × WorkerEvent))
    (config : Config Party Executor WorkerThread) : Prop where
  owed : ∀ m idx, Outstanding history m idx → config.shared.taskdata m = idx ∧
    (config.shared.finished m = 0 ∨ MasterAt config (.storeFinished m))
  free : ∀ m, MasterAt config (.take m) → config.shared.finished m ≠ 0

/-- A take finds no outstanding task. -/
theorem Kept.not_outstanding (hkept : Kept history config) (hat : MasterAt config (.take m)) :
    ¬ Outstanding history m idx := by
  intro houtstanding
  rcases (hkept.owed m idx houtstanding).2 with hzero | hstore
  · exact hkept.free m hat hzero
  · exact absurd (hat.unique hstore) (by simp)

theorem Kept.concat {party : Party} {event : WorkerEvent} {executor : Executor}
    {thread : WorkerThread} (hkept : Kept history config)
    (hguard : FinishesHandled history config party event)
    (hstep : TaskStep config party event executor thread) :
    Kept (history ++ [(party, event)]) (config.advance party executor thread) := by
  cases hstep with
  | taken k a hat hfinished htaskdata =>
    constructor
    · intro m idx houtstanding
      rw [Config.advance_shared, htaskdata, hfinished, masterAt_advance_master]
      rcases (outstanding_concat _ _).mp houtstanding with htaken | ⟨hold, -⟩
      · cases htaken
        exact ⟨Function.update_self _ _ _, Or.inr rfl⟩
      · by_cases hsame : m = k
        · subst hsame
          exact absurd hold (hkept.not_outstanding hat)
        · rw [Function.update_of_ne hsame]
          refine (hkept.owed m idx hold).imp_right fun h ↦ h.imp_right fun hstore ↦ ?_
          exact absurd (hat.unique hstore) (by simp)
    · intro m hm
      simp at hm
  | assigned k hat hfinished htaskdata =>
    constructor
    · intro m idx houtstanding
      rw [outstanding_concat_other (by simp) (by simp)] at houtstanding
      obtain ⟨htask, hflag⟩ := hkept.owed m idx houtstanding
      rw [Config.advance_shared, htaskdata, hfinished]
      refine ⟨htask, Or.inl ?_⟩
      by_cases hsame : m = k
      · rw [hsame, Function.update_self]
      · rw [Function.update_of_ne hsame]
        rcases hflag with hzero | hstore
        · exact hzero
        · exact absurd (MasterStage.storeFinished.inj (hstore.unique hat)) hsame
    · intro m hm
      simp at hm
  | handled k hat =>
    constructor
    · intro m idx houtstanding
      rw [Config.advance_shared, masterAt_advance_monitor]
      rcases (outstanding_concat _ _).mp houtstanding with htaken | ⟨hold, -⟩
      · cases htaken
      · exact hkept.owed m idx hold
    · intro m hm
      rw [masterAt_advance_monitor] at hm
      exact hkept.free m hm
  | finished k hat hfinished htaskdata =>
    constructor
    · intro m idx houtstanding
      rw [outstanding_concat_other (by simp) (by simp)] at houtstanding
      obtain ⟨htask, hflag⟩ := hkept.owed m idx houtstanding
      rw [Config.advance_shared, htaskdata, hfinished, masterAt_advance_monitor]
      refine ⟨htask, ?_⟩
      by_cases hsame : m = k
      · subst hsame
        exact Or.inr (hguard (by rwa [htask]))
      · rw [Function.update_of_ne hsame]
        exact hflag
    · intro m hm
      rw [masterAt_advance_monitor] at hm
      rw [Config.advance_shared, hfinished]
      by_cases hsame : m = k
      · rw [hsame, Function.update_self]
        exact one_ne_zero
      · rw [Function.update_of_ne hsame]
        exact hkept.free m hm
  | other htaken hhandled hfinished htaskdata hstore htake hmonitor =>
    constructor
    · intro m idx houtstanding
      rw [outstanding_concat_other htaken hhandled] at houtstanding
      rw [Config.advance_shared, htaskdata, hfinished, hstore]
      exact hkept.owed m idx houtstanding
    · intro m hm
      rw [Config.advance_shared, hfinished]
      rcases htake m hm with hold | hne
      · exact hkept.free m hold
      · exact hne

theorem kept_of_run {length : ℕ} {taskdata : ℕ → ℕ}
    (hrun : WorkerRun FinishesHandled length taskdata history config) : Kept history config := by
  refine worker_invariant Kept ?_ ?_ hrun
  · constructor
    · intro m idx houtstanding
      exact absurd houtstanding (not_since_nil _ _)
    · intro m hm
      cases hm
  · intro history config party event executor thread hkept hguard hstep
    exact hkept.concat hguard (taskStep_of_step hstep)

/-- In the runs in which a sub-monitor sets its flag only after it has handled the task that it was
assigned last, an index that is taken for a sub-monitor is handled by it before the next one is
taken. -/
theorem handled_between_takes {length : ℕ} {taskdata : ℕ → ℕ}
    (hrun : WorkerRun FinishesHandled length taskdata history config) {m idx idx' : ℕ}
    {party party' : Party} {earlier between later : List (Party × WorkerEvent)}
    (hhistory : history =
      earlier ++ (party, WorkerEvent.taken m idx) :: between ++
        (party', WorkerEvent.taken m idx') :: later) :
    (.monitor m, .handled idx) ∈ between := by
  subst hhistory
  obtain ⟨middle, executor, thread, hpast, hguard, hprogram⟩ := hrun.cut
  have hstep := workerStep_of_program (housed_of_run hpast) hprogram
  obtain ⟨-, hat⟩ : party' = .master ∧ MasterAt middle (.take m) := by
    cases hstep with
    | taken _ _ hat _ => exact ⟨rfl, hat⟩
  by_contra hunhandled
  refine (kept_of_run hpast).not_outstanding hat
    ⟨earlier, party, .taken m idx, between, rfl, rfl, fun entry hentry hhandled ↦ hunhandled ?_⟩
  have hsame : entry = (.monitor m, .handled idx) := Prod.ext hhandled.1 hhandled.2
  rwa [hsame] at hentry

/-- Accesses of a thread that are no events of their own. -/
def quiet (party : Party) (steps : ℕ) : List (Party × WorkerEvent) :=
  List.replicate steps (party, .internal)

/-- What happens between the takes of the indices 7 and 8 by one sub-monitor that handles the first
of them. -/
def betweenTakes : List (Party × WorkerEvent) :=
  [[(.master, .assigned 0)], quiet .master 2, quiet (.monitor 0) 3,
    [(.monitor 0, .handled 7), (.monitor 0, .finished)], quiet (.monitor 0) 2, [(.client, .beat)],
    quiet .master 4].flatten

/-- One sub-monitor, two tasks: the first is handled before the second is taken. -/
theorem handled_between_takes_of_two :
    ∃ config, WorkerRun FinishesHandled 1 (fun _ ↦ 0)
        ([(.client, .pushed 7 .success), (.client, .pushed 8 .success), (.client, .beat)] ++
          quiet .master 4 ++ (Party.master, WorkerEvent.taken 0 7) :: betweenTakes ++
            (Party.master, WorkerEvent.taken 0 8) :: [])
        config ∧
      (.monitor 0, .handled 7) ∈ betweenTakes := by
  obtain ⟨config, hrun, -⟩ := exists_run_of_play workerMachine FinishesHandled
    (initially 1 fun _ ↦ 0)
    [[(.client, .push 7), (.client, .push 8)], takeFirst 7, goOn .master 3, goOn (.monitor 0) 7,
      takeFirst 8].flatten
    (fun _ ↦ ())
    ([(.client, .pushed 7 .success), (.client, .pushed 8 .success), (.client, .beat)] ++
      quiet .master 4 ++ (Party.master, WorkerEvent.taken 0 7) :: betweenTakes ++
        (Party.master, WorkerEvent.taken 0 8) :: [])
    () (by decide +kernel)
  exact ⟨config, hrun, handled_between_takes hrun rfl⟩

/-- One sub-monitor runs the task 7, is woken by the signal that was sent twice after the master has
found it free again, and runs the task 7 a second time. -/
def staleRun : List (Party × WorkerEvent) :=
  [[(.client, .pushed 7 .success), (.client, .beat)], quiet .master 4,
    [(.master, .taken 0 7), (.master, .assigned 0)], quiet .master 2, quiet (.monitor 0) 1,
    [(.client, .beat)], quiet .master 6, quiet (.monitor 0) 2,
    [(.monitor 0, .handled 7), (.monitor 0, .finished)], quiet (.monitor 0) 2,
    [(.client, .pushed 8 .success), (.client, .pushed 9 .success), (.client, .beat)],
    quiet .master 4, quiet (.monitor 0) 3, [(.monitor 0, .handled 7)]].flatten

/-- What happens between the takes of the indices 8 and 9 when the second run of the task 7 ends
after the first of them. -/
def overlappedTakes : List (Party × WorkerEvent) :=
  [[(.master, .assigned 0), (.monitor 0, .finished)], quiet (.monitor 0) 2, quiet .master 2,
    [(.client, .beat)], quiet .master 4].flatten

/-- The second run of the task 7 sets the flag after the master has cleared it for the task 8, and
the task 9 overwrites the task 8 before it is handled. -/
theorem exists_overwritten_task :
    ∃ config, WorkerRun anyStep 1 (fun _ ↦ 0)
        (staleRun ++ (Party.master, WorkerEvent.taken 0 8) :: overlappedTakes ++
          (Party.master, WorkerEvent.taken 0 9) :: [])
        config ∧
      (.monitor 0, .handled 8) ∉ overlappedTakes := by
  obtain ⟨config, hrun, -⟩ := exists_run_of_play workerMachine anyStep (initially 1 fun _ ↦ 0)
    [[(.client, .push 7)], takeFirst 7, goOn .master 3, goOn (.monitor 0) 1, [(.client, .beat)],
      goOn .master 6, goOn (.monitor 0) 6,
      [(.client, .push 8), (.client, .push 9), (.client, .beat)],
      goOn .master 4, goOn (.monitor 0) 4, [(.master, .take 8)], goOn .master 1,
      goOn (.monitor 0) 3, goOn .master 2, takeFirst 9].flatten
    (fun _ ↦ ())
    (staleRun ++ (Party.master, WorkerEvent.taken 0 8) :: overlappedTakes ++
      (Party.master, WorkerEvent.taken 0 9) :: [])
    () (by decide +kernel)
  exact ⟨config, hrun, by decide⟩

end Mcmp.Routines.WorkerTasks
