import Mcmp.Foundation.Interleaving
import Mcmp.Status

/-!
# The lock of the monitors

`mcmchMonitorLockAcquire`, `mcmchMonitorLockTryAcquire` and `mcmchMonitorLockRelease` of monitor.c,
called by any threads on one lock word. The word is zero, or the handle under which it was taken. A
thread acts under the value of its thread-local `mcmchmonitor`, which is the handle of its monitor,
and under that of the main monitor when it has none.

So the lock belongs to a handle and not to a thread, and all the threads that are not monitors act
as one. Whatever the threads do, one handle holds the lock at a time and only a thread that acts
under it gets a release through. The same is true of the threads themselves in exactly the runs in
which no thread outside the monitors makes a release while another one holds the lock
(`monitorLock_ownership`).

Both statements are instances of one argument. It is given a key of the threads, and it says that
the word tells which key holds the lock, as long as every release that succeeds is made under the
key that holds it (`Tells`).
-/

set_option autoImplicit false
set_option relaxedAutoImplicit false

namespace Mcmp.Routines.MonitorLock

open Foundation.Interleaving

/-! ### The calls -/

variable (main monitor lock : ℕ)

/-- The handle that a thread acts under, for the value of its `mcmchmonitor`. -/
def handle : ℕ := if monitor = 0 then main else monitor

/-- The compare-exchange of the lock word, with the word that it leaves. -/
def mcmchMonitorLockAcquire : Mcmpst × ℕ :=
  if lock = 0 then (.success, handle main monitor) else (.noavle, lock)

def mcmchMonitorLockRelease : Mcmpst × ℕ :=
  if lock = handle main monitor then (.success, 0) else (.noavle, lock)

/-- A call. -/
inductive LockCall
  | acquire
  | tryAcquire (ntries : ℕ)
  | release
  deriving DecidableEq, Repr

/-- A thread outside any call, or before the compare-exchange of one, after a number of failed
tries. -/
inductive LockStage
  | idle
  | running (call : LockCall) (tries : ℕ)
  deriving DecidableEq, Repr

/-- A thread with its `mcmchmonitor`. -/
structure MonitorThread where
  mcmchmonitor : ℕ
  stage : LockStage
  deriving DecidableEq, Repr

/-- The events: a call starts, its compare-exchange fails and it tries again, or it returns. -/
inductive MonitorLockEvent
  | called (call : LockCall)
  | retried
  | returned (call : LockCall) (status : Mcmpst)
  deriving DecidableEq, Repr

/-- The next step of `mcmchMonitorLockTryAcquire`. The pause before the next try has no effect on
the lock: it lets the other threads go on. -/
def mcmchMonitorLockTryAcquire (ntries tries : ℕ) : MonitorLockEvent × ℕ × LockStage :=
  let (status, lock) := mcmchMonitorLockAcquire main monitor lock
  if status = .success then (.returned (.tryAcquire ntries) .success, lock, .idle)
  else if tries < ntries then (.retried, lock, .running (.tryAcquire ntries) (tries + 1))
  else (.returned (.tryAcquire ntries) .noavle, lock, .idle)

/-- The next step of a call. -/
def callStep (tries : ℕ) : LockCall → MonitorLockEvent × ℕ × LockStage
  | .acquire =>
    let (status, lock) := mcmchMonitorLockAcquire main monitor lock
    (.returned .acquire status, lock, .idle)
  | .tryAcquire ntries => mcmchMonitorLockTryAcquire main monitor lock ntries tries
  | .release =>
    let (status, lock) := mcmchMonitorLockRelease main monitor lock
    (.returned .release status, lock, .idle)

/-- What a thread can be told to do: start a call when it is idle, or go on with the one it is
in. -/
inductive MonitorLockCommand
  | call (call : LockCall)
  | advance
  deriving DecidableEq, Repr

/-- The threads that use the lock. -/
def monitorLockMachine : Machine MonitorLockCommand ℕ MonitorThread MonitorLockEvent
  | .call call, lock, ⟨monitor, .idle⟩ =>
    some (.called call, lock, ⟨monitor, .running call 0⟩)
  | .advance, lock, ⟨monitor, .running call tries⟩ =>
    let (event, lock, stage) := callStep main monitor lock tries call
    some (event, lock, ⟨monitor, stage⟩)
  | _, _, _ => none

/-! ### The threads and their handles -/

/-- The handles of a set of threads. A handle is the address of a monitor, and the main monitor is
an object of its own. A thread that is not a monitor has the value zero. -/
structure Identities (ι : Type*) where
  main : ℕ
  mcmchmonitor : ι → ℕ
  main_ne_zero : main ≠ 0
  ne_main : ∀ thread, mcmchmonitor thread ≠ main
  own : ∀ thread other, mcmchmonitor thread ≠ 0 →
    mcmchmonitor thread = mcmchmonitor other → thread = other

section Threads

variable {ι : Type*} (identities : Identities ι)

/-- The handle that a thread acts under. -/
def Identities.handle (thread : ι) : ℕ :=
  MonitorLock.handle identities.main (identities.mcmchmonitor thread)

/-- The runs of the threads from a free lock. -/
abbrev MonitorLockRun [DecidableEq ι] :=
  Run (monitorLockMachine identities.main).program anyStep
    ⟨0, fun thread ↦ ⟨identities.mcmchmonitor thread, .idle⟩⟩

variable {identities}

theorem Identities.handle_ne_zero (thread : ι) : identities.handle thread ≠ 0 := by
  unfold Identities.handle MonitorLock.handle
  split
  case isTrue => exact identities.main_ne_zero
  case isFalse hne => exact hne

/-- Two threads act under one handle when neither is a monitor. -/
theorem Identities.handle_eq_iff {thread other : ι} :
    identities.handle thread = identities.handle other ↔ thread = other ∨
      identities.mcmchmonitor thread = 0 ∧ identities.mcmchmonitor other = 0 := by
  unfold Identities.handle MonitorLock.handle
  constructor
  · intro heq
    split at heq <;> split at heq
    case isTrue.isTrue hthread hother => exact Or.inr ⟨hthread, hother⟩
    case isTrue.isFalse => exact absurd heq.symm (identities.ne_main other)
    case isFalse.isTrue => exact absurd heq (identities.ne_main thread)
    case isFalse.isFalse hthread _ => exact Or.inl (identities.own _ _ hthread heq)
  · rintro (rfl | ⟨hthread, hother⟩)
    · rfl
    · rw [hthread, hother]

end Threads

/-! ### Who holds the lock -/

/-- A call has taken the lock. -/
def MonitorLockEvent.acquires : MonitorLockEvent → Bool
  | .returned .release _ => false
  | .returned _ status => status = .success
  | _ => false

section Ownership

variable {ι κ : Type*} (key : ι → κ) (history : List (ι × MonitorLockEvent))

/-- The threads of a key hold the lock: one of them has taken it, and no release of one of them has
succeeded since. -/
def Holds (k : κ) : Prop :=
  Since history (fun thread event ↦ key thread = k ∧ event.acquires = true)
    (fun thread event ↦ key thread = k ∧ event = .returned .release .success)

instance [DecidableEq κ] (k : κ) : Decidable (Holds key history k) :=
  inferInstanceAs (Decidable (Since history
    (fun thread event ↦ key thread = k ∧ event.acquires = true)
    (fun thread event ↦ key thread = k ∧ event = .returned .release .success)))

/-- What is expected of the lock, for a key of the threads: at most one key holds it at a time, and
a release under a key that does not hold it is refused and leaves the lock as it was. -/
structure Ownership [DecidableEq ι] (identities : Identities ι) : Prop where
  exclusive : ∀ before after, history = before ++ after → ∀ k k',
    Holds key before k → Holds key before k' → k = k'
  refused : ∀ before thread status after config shared own,
    history = before ++ (thread, MonitorLockEvent.returned .release status) :: after →
      ¬ Holds key before (key thread) → MonitorLockRun identities before config →
        (monitorLockMachine identities.main).program config.shared (config.threads thread)
          (.returned .release status) shared own →
        status = .noavle ∧ shared = config.shared

/-- No thread outside the monitors makes a release while another one holds the lock and it does not
itself. -/
def ReleasesApart (identities : Identities ι) : Prop :=
  ∀ before thread status after,
    history = before ++ (thread, MonitorLockEvent.returned .release status) :: after →
      identities.mcmchmonitor thread = 0 → ¬ Holds id before thread →
        ∀ other, identities.mcmchmonitor other = 0 → ¬ Holds id before other

/-- Every release that succeeds is made under a key that holds the lock. -/
def ReleasesOwn : Prop :=
  ∀ before entry after, history = before ++ entry :: after →
    entry.2 = .returned .release .success → Holds key before (key entry.1)

/-- The lock word tells which key holds the lock. -/
structure Tells (identities : Identities ι) (lock : ℕ) : Prop where
  free : lock = 0 → ∀ k, ¬ Holds key history k
  held : lock ≠ 0 → ∃ thread, identities.handle thread = lock ∧
    ∀ k, Holds key history k ↔ key thread = k

end Ownership

section Runs

variable {ι κ : Type*} {identities : Identities ι} {key : ι → κ}
  {history : List (ι × MonitorLockEvent)} {thread : ι} {event : MonitorLockEvent}
  {lock lock' : ℕ} {own own' : MonitorThread}

theorem holds_concat {k : κ} :
    Holds key (history ++ [(thread, event)]) k ↔
      (key thread = k ∧ event.acquires = true) ∨
        Holds key history k ∧ ¬ (key thread = k ∧ event = .returned .release .success) :=
  since_concat ..

/-- What a step can do: take the free lock, free it under the handle that is in it, be refused
because it is not, or nothing that counts. -/
theorem monitorLockStep_cases
    (hstep : (monitorLockMachine identities.main).program lock own event lock' own') :
    own'.mcmchmonitor = own.mcmchmonitor ∧
      ((event.acquires = true ∧ event ≠ .returned .release .success ∧ lock = 0 ∧
          lock' = handle identities.main own.mcmchmonitor) ∨
        (event = .returned .release .success ∧ lock = handle identities.main own.mcmchmonitor ∧
          lock' = 0) ∨
        (event = .returned .release .noavle ∧ lock ≠ handle identities.main own.mcmchmonitor ∧
          lock' = lock) ∨
        (event.acquires = false ∧ (∀ status, event ≠ .returned .release status) ∧
          lock' = lock)) := by
  obtain ⟨command, hcommand⟩ := hstep
  obtain ⟨monitor, stage⟩ := own
  cases command with
  | call call =>
    cases stage with
    | running _ _ => simp [monitorLockMachine] at hcommand
    | idle =>
      simp only [monitorLockMachine, Option.some.injEq, Prod.mk.injEq] at hcommand
      obtain ⟨rfl, rfl, rfl⟩ := hcommand
      exact ⟨rfl, Or.inr (Or.inr (Or.inr ⟨rfl, by simp, rfl⟩))⟩
  | advance =>
    cases stage with
    | idle => simp [monitorLockMachine] at hcommand
    | running call tries =>
      simp only [monitorLockMachine, Option.some.injEq, Prod.mk.injEq] at hcommand
      obtain ⟨rfl, rfl, rfl⟩ := hcommand
      refine ⟨rfl, ?_⟩
      cases call with
      | acquire =>
        by_cases hfree : lock = 0
        · simp [callStep, mcmchMonitorLockAcquire, hfree, MonitorLockEvent.acquires]
        · simp [callStep, mcmchMonitorLockAcquire, hfree, MonitorLockEvent.acquires]
      | tryAcquire ntries =>
        by_cases hfree : lock = 0
        · simp [callStep, mcmchMonitorLockTryAcquire, mcmchMonitorLockAcquire, hfree,
            MonitorLockEvent.acquires]
        · by_cases hmore : tries < ntries
          · simp [callStep, mcmchMonitorLockTryAcquire, mcmchMonitorLockAcquire, hfree, hmore,
              MonitorLockEvent.acquires]
          · simp [callStep, mcmchMonitorLockTryAcquire, mcmchMonitorLockAcquire, hfree, hmore,
              MonitorLockEvent.acquires]
      | release =>
        by_cases hown : lock = handle identities.main monitor
        · simp [callStep, mcmchMonitorLockRelease, hown]
        · simp [callStep, mcmchMonitorLockRelease, hown]

theorem Tells.congr {history' : List (ι × MonitorLockEvent)}
    (h : Tells key history identities lock)
    (hsame : ∀ k, Holds key history' k ↔ Holds key history k) :
    Tells key history' identities lock :=
  ⟨fun hzero k ↦ mt (hsame k).mp (h.free hzero k), fun hne ↦
    (h.held hne).imp fun _ hholder ↦ ⟨hholder.1, fun k ↦ (hsame k).trans (hholder.2 k)⟩⟩

/-- A step keeps the word in agreement with the holders, when a release that it makes is made under
a key that holds the lock. -/
theorem Tells.step (h : Tells key history identities lock)
    (hown : own.mcmchmonitor = identities.mcmchmonitor thread)
    (hreleases : event = .returned .release .success → Holds key history (key thread))
    (hstep : (monitorLockMachine identities.main).program lock own event lock' own') :
    Tells key (history ++ [(thread, event)]) identities lock' := by
  have hhandle : handle identities.main own.mcmchmonitor = identities.handle thread := by
    rw [hown, Identities.handle]
  obtain ⟨-, hcases⟩ := monitorLockStep_cases hstep
  rw [hhandle] at hcases
  rcases hcases with ⟨hacquires, hrelease, hfree, rfl⟩ | ⟨rfl, hlock, rfl⟩ | ⟨rfl, -, rfl⟩ |
    ⟨hacquires, hrelease, rfl⟩
  · refine ⟨fun hzero ↦ absurd hzero (Identities.handle_ne_zero thread), fun _ ↦ ⟨thread, rfl, ?_⟩⟩
    intro k
    rw [holds_concat]
    simp [hacquires, h.free hfree k]
  · refine ⟨fun _ k ↦ ?_, fun hne ↦ absurd rfl hne⟩
    have hne : lock ≠ 0 := hlock ▸ Identities.handle_ne_zero thread
    obtain ⟨holder, -, hholder⟩ := h.held hne
    have hkey := (hholder (key thread)).mp (hreleases rfl)
    rw [holds_concat, hholder k, hkey]
    simp [MonitorLockEvent.acquires]
  · have hsame (k : κ) : Holds key (history ++ [(thread, .returned .release .noavle)]) k ↔
        Holds key history k := by
      rw [holds_concat]
      simp [MonitorLockEvent.acquires]
    exact h.congr hsame
  · have hsame (k : κ) : Holds key (history ++ [(thread, event)]) k ↔ Holds key history k := by
      rw [holds_concat]
      simp [hacquires, hrelease .success]
    exact h.congr hsame

theorem tells_nil : Tells key [] identities 0 :=
  ⟨fun _ _ ↦ not_since_nil _ _, fun hne ↦ absurd rfl hne⟩

theorem releasesOwn_concat :
    ReleasesOwn key (history ++ [(thread, event)]) ↔ ReleasesOwn key history ∧
      (event = .returned .release .success → Holds key history (key thread)) :=
  forall_split_concat
    (fun before (entry : ι × MonitorLockEvent) ↦ entry.2 = .returned .release .success →
      Holds key before (key entry.1))
    history (thread, event)

variable [DecidableEq ι] {config : Config ι ℕ MonitorThread}

/-- A thread keeps its `mcmchmonitor`. -/
theorem mcmchmonitor_of_run (hrun : MonitorLockRun identities history config) (thread : ι) :
    (config.threads thread).mcmchmonitor = identities.mcmchmonitor thread := by
  induction hrun with
  | start => rfl
  | @step history config mover event shared own _ _ hstep ih =>
    by_cases hmover : thread = mover
    · subst hmover
      rw [Config.advance_threads_self, (monitorLockStep_cases hstep).1, ih]
    · rw [Config.advance_threads_of_ne _ hmover, ih]

theorem tells_of_run (hrun : MonitorLockRun identities history config)
    (hreleases : ReleasesOwn key history) : Tells key history identities config.shared := by
  induction hrun with
  | start => exact tells_nil
  | step hpast _ hstep ih =>
    obtain ⟨hreleases, hlast⟩ := releasesOwn_concat.mp hreleases
    exact (ih hreleases).step (mcmchmonitor_of_run hpast _) hlast hstep

/-- When every release that succeeds is made under a key that holds the lock, the lock is owned. -/
theorem ReleasesOwn.ownership (hreleases : ReleasesOwn key history)
    (hrun : MonitorLockRun identities history config) : Ownership key history identities := by
  have hbefore (before after : List (ι × MonitorLockEvent)) (hhistory : history = before ++ after) :
      ReleasesOwn key before := fun past entry later hsplit ↦
    hreleases past entry (later ++ after) (by simp [hhistory, hsplit])
  refine ⟨?_, ?_⟩
  · intro before after hhistory k k' hk hk'
    rw [hhistory] at hrun
    obtain ⟨middle, hpast⟩ := hrun.past
    have htells := tells_of_run hpast (hbefore before after hhistory)
    by_cases hfree : middle.shared = 0
    · exact absurd hk (htells.free hfree k)
    · obtain ⟨holder, -, hholder⟩ := htells.held hfree
      exact ((hholder k).mp hk).symm.trans ((hholder k').mp hk')
  · intro before thread status after config shared own hhistory hnot hpast hstep
    rcases (monitorLockStep_cases hstep).2 with ⟨hacquires, -⟩ | ⟨hevent, -⟩ | ⟨hevent, -, hsame⟩ |
      ⟨-, hrelease, -⟩
    · simp [MonitorLockEvent.acquires] at hacquires
    · exact absurd (hreleases before _ after hhistory hevent) hnot
    · simp only [MonitorLockEvent.returned.injEq, true_and] at hevent
      exact ⟨hevent, hsame⟩
    · exact absurd rfl (hrelease status)

/-- A handle is its own key: a release succeeds only under the handle that is in the lock. -/
theorem releasesOwn_handle (hrun : MonitorLockRun identities history config) :
    ReleasesOwn identities.handle history := by
  induction hrun with
  | start => intro before entry after hhistory; simp at hhistory
  | @step history config thread event shared own hpast _ hstep ih =>
    refine releasesOwn_concat.mpr ⟨ih, fun hevent ↦ ?_⟩
    subst hevent
    have htells := tells_of_run hpast ih
    rcases (monitorLockStep_cases hstep).2 with ⟨-, hne, -⟩ | ⟨-, hlock, -⟩ | ⟨hevent, -⟩ |
      ⟨-, hrelease, -⟩
    · exact absurd rfl hne
    · have hhandle : config.shared = identities.handle thread := by
        rw [hlock, mcmchmonitor_of_run hpast thread, Identities.handle]
      obtain ⟨holder, hholder, hholds⟩ :=
        htells.held (hhandle ▸ Identities.handle_ne_zero thread)
      exact (hholds _).mpr (hholder.trans hhandle)
    · simp at hevent
    · exact absurd rfl (hrelease .success)

/-- The word tells which thread holds the lock when the threads outside the monitors leave each
other's lock alone. -/
theorem releasesOwn_of_apart (hrun : MonitorLockRun identities history config)
    (hapart : ReleasesApart history identities) : ReleasesOwn id history := by
  induction hrun with
  | start => intro before entry after hhistory; simp at hhistory
  | @step history config thread event shared own hpast _ hstep ih =>
    have hapart' : ReleasesApart history identities := fun before thread' status after hhistory ↦
      hapart before thread' status (after ++ [(thread, event)]) (by simp [hhistory])
    have hown := ih hapart'
    refine releasesOwn_concat.mpr ⟨hown, fun hevent ↦ ?_⟩
    subst hevent
    have htells := tells_of_run hpast hown
    by_contra hnot
    rcases (monitorLockStep_cases hstep).2 with ⟨-, hne, -⟩ | ⟨-, hlock, -⟩ | ⟨hevent, -⟩ |
      ⟨-, hrelease, -⟩
    · exact absurd rfl hne
    · have hhandle : config.shared = identities.handle thread := by
        rw [hlock, mcmchmonitor_of_run hpast thread, Identities.handle]
      obtain ⟨holder, hholder, hholds⟩ :=
        htells.held (hhandle ▸ Identities.handle_ne_zero thread)
      rcases Identities.handle_eq_iff.mp (hholder.trans hhandle) with rfl | ⟨hother, hthread⟩
      · exact hnot ((hholds _).mpr rfl)
      · exact hapart history thread .success [] rfl hthread hnot holder hother
          ((hholds holder).mpr rfl)
    · simp at hevent
    · exact absurd rfl (hrelease .success)

/-- Threads that own the lock release it themselves. -/
theorem Ownership.releasesOwn (h : Ownership key history identities)
    (hrun : MonitorLockRun identities history config) : ReleasesOwn key history := by
  rintro before ⟨thread, event⟩ after hhistory hevent
  obtain rfl : event = .returned .release .success := hevent
  by_contra hnot
  rw [hhistory] at hrun
  obtain ⟨middle, shared, own, hpast, -, hstep⟩ := hrun.cut
  obtain ⟨hstatus, -⟩ := h.refused before thread .success after middle shared own hhistory hnot
    hpast hstep
  simp at hstatus

/-- A release by a thread outside the monitors succeeds while another one holds the lock. -/
theorem ReleasesOwn.apart (hreleases : ReleasesOwn id history)
    (hrun : MonitorLockRun identities history config) : ReleasesApart history identities := by
  intro before thread status after hhistory hthread hnot other hother hholds
  have hrun' := hrun
  rw [hhistory] at hrun'
  obtain ⟨middle, shared, own, hpast, -, hstep⟩ := hrun'.cut
  have htells : Tells id before identities middle.shared :=
    tells_of_run hpast fun past entry later hsplit ↦
      hreleases past entry (later ++ (thread, .returned .release status) :: after)
        (by simp [hhistory, hsplit])
  have htaken : middle.shared ≠ 0 := fun hfree ↦ htells.free hfree other hholds
  obtain ⟨holder, hholder, hkeys⟩ := htells.held htaken
  obtain rfl : holder = other := (hkeys other).mp hholds
  have hlock : middle.shared = identities.handle thread := by
    rw [← hholder, Identities.handle_eq_iff]
    exact Or.inr ⟨hother, hthread⟩
  rcases (monitorLockStep_cases hstep).2 with ⟨hacquires, -⟩ | ⟨hevent, -⟩ | ⟨-, hne, -⟩ |
    ⟨-, hrelease, -⟩
  · simp [MonitorLockEvent.acquires] at hacquires
  · exact hnot (hreleases before _ after hhistory hevent)
  · rw [mcmchmonitor_of_run hpast thread] at hne
    exact hne hlock
  · exact hrelease status rfl

/-- Ownership of the lock. In every run it belongs to the handles. It belongs to the threads in
exactly the runs in which no thread outside the monitors makes a release while another one holds the
lock. -/
theorem monitorLock_ownership (hrun : MonitorLockRun identities history config) :
    Ownership identities.handle history identities ∧
      (Ownership id history identities ↔ ReleasesApart history identities) := by
  refine ⟨(releasesOwn_handle hrun).ownership hrun, fun howned ↦ ?_, fun hapart ↦ ?_⟩
  · exact (howned.releasesOwn hrun).apart hrun
  · exact (releasesOwn_of_apart hrun hapart).ownership hrun

end Runs

/-- Two threads that are not monitors, and a monitor. -/
def twoOutside : Identities (Fin 3) where
  main := 64
  mcmchmonitor thread := if thread = 2 then 128 else 0
  main_ne_zero := by decide
  ne_main := by decide
  own := by decide

/-- A monitor takes the lock, another thread tries twice for it, the monitor releases it and the
other thread takes it. -/
theorem monitorLock_ownership_handover :
    ∃ history config, MonitorLockRun twoOutside history config ∧ config.shared = 64 ∧
      Ownership twoOutside.handle history twoOutside ∧ Ownership id history twoOutside := by
  obtain ⟨config, hrun, hlock⟩ := exists_run_of_play (monitorLockMachine twoOutside.main) anyStep
    ⟨0, fun thread ↦ ⟨twoOutside.mcmchmonitor thread, .idle⟩⟩
    [(2, .call .acquire), (2, .advance), (0, .call (.tryAcquire 5)), (0, .advance), (0, .advance),
      (2, .call .release), (2, .advance), (0, .advance)]
    Config.shared
    [(2, .called .acquire), (2, .returned .acquire .success), (0, .called (.tryAcquire 5)),
      (0, .retried), (0, .retried), (2, .called .release), (2, .returned .release .success),
      (0, .returned (.tryAcquire 5) .success)]
    64 (by decide +kernel)
  refine ⟨_, config, hrun, hlock, (monitorLock_ownership hrun).1,
    (monitorLock_ownership hrun).2.mpr ?_⟩
  intro before thread status after hhistory houtside
  have hmem : (thread, MonitorLockEvent.returned .release status) ∈
      before ++ (thread, MonitorLockEvent.returned .release status) :: after := by simp
  rw [← hhistory] at hmem
  simp only [List.mem_cons, Prod.mk.injEq, reduceCtorEq, MonitorLockEvent.returned.injEq, and_false,
    false_and, List.not_mem_nil, or_false, false_or] at hmem
  rw [hmem.1] at houtside
  exact absurd houtside (by decide)

/-- A thread that is not a monitor takes the lock, another one releases it and takes it too. -/
theorem not_ownership_twoOutside :
    ∃ history config, MonitorLockRun twoOutside history config ∧
      Holds id history 0 ∧ Holds id history 1 ∧ ¬ Ownership id history twoOutside := by
  obtain ⟨config, hrun, -⟩ := exists_run_of_play (monitorLockMachine twoOutside.main) anyStep
    ⟨0, fun thread ↦ ⟨twoOutside.mcmchmonitor thread, .idle⟩⟩
    [(0, .call .acquire), (0, .advance), (1, .call .release), (1, .advance), (1, .call .acquire),
      (1, .advance)]
    Config.shared
    [(0, .called .acquire), (0, .returned .acquire .success), (1, .called .release),
      (1, .returned .release .success), (1, .called .acquire), (1, .returned .acquire .success)]
    64 (by decide +kernel)
  refine ⟨_, config, hrun, by decide, by decide, fun howned ↦ ?_⟩
  have hsame := howned.exclusive _ [] (List.append_nil _).symm 0 1 (by decide) (by decide)
  exact absurd hsame (by decide)

end Mcmp.Routines.MonitorLock
