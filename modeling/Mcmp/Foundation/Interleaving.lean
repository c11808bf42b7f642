import Mathlib.Logic.Function.Basic
import Mathlib.Data.List.Infix
import Mathlib.Data.List.Perm.Subperm

/-!
# Interleaved runs of threads over a shared memory

A thread program is a relation between the shared memory and the state of the thread before a
step, an event, and the two after it. A system runs any family of threads `ι` by letting one thread
take one step at a time, in any order (`Run`). A run records its history, the events in the order
in which they happened together with the threads that made them, and a run may be restricted by a
guard, a condition on the history so far, the configuration and the event of the step about to be
taken.

`Run.invariant` is the induction rule: what holds of the empty history and is kept by one step
holds of every run. `Run.simulation` carries runs of one program over to runs of another one.
`Run.mono` weakens the guard and `Run.strengthen` replaces it by one that an invariant implies.
`Run.split` takes a run apart where its guard does not read the history.
`Since` is the past operator that the properties of histories are stated with: an event of one
kind happened and no event of another kind has happened after it.

A program that is given by a function is a `Machine`. `play` executes a schedule of it under a
decidable guard, and `run_of_play` turns the execution into a run. `play_observed` compares the
executions of one schedule from two configurations. `runAlone` lets a single thread go on until it
has nothing left to do, and `runCommands` gives it a list of commands.
-/

set_option autoImplicit false
set_option relaxedAutoImplicit false

namespace Mcmp.Foundation.Interleaving

variable {ι Shared Thread Event : Type*}

/-- A system of threads between two steps: the memory they share and the state of each thread. -/
structure Config (ι Shared Thread : Type*) where
  shared : Shared
  threads : ι → Thread

/-- The steps a thread can take, as a relation between the shared memory and the thread before the
step, the event of the step, and the shared memory and the thread after it. -/
abbrev Program (Shared Thread Event : Type*) := Shared → Thread → Event → Shared → Thread → Prop

/-- A condition on a step: it reads the history so far, the configuration before the step, the
thread that moves and the event of the step. -/
abbrev Guard (ι Shared Thread Event : Type*) :=
  List (ι × Event) → Config ι Shared Thread → ι → Event → Prop

/-- The guard that every step meets. -/
def anyStep : Guard ι Shared Thread Event := fun _ _ _ _ ↦ True

instance (history : List (ι × Event)) (config : Config ι Shared Thread) (thread : ι)
    (event : Event) : Decidable (anyStep history config thread event) :=
  inferInstanceAs (Decidable True)

section Runs

variable [DecidableEq ι]

/-- The configuration after one thread has moved. -/
def Config.advance (config : Config ι Shared Thread) (thread : ι) (shared : Shared)
    (own : Thread) : Config ι Shared Thread :=
  ⟨shared, Function.update config.threads thread own⟩

@[simp] theorem Config.advance_shared (config : Config ι Shared Thread) (thread : ι)
    (shared : Shared) (own : Thread) : (config.advance thread shared own).shared = shared :=
  rfl

@[simp] theorem Config.advance_threads_self (config : Config ι Shared Thread) (thread : ι)
    (shared : Shared) (own : Thread) :
    (config.advance thread shared own).threads thread = own :=
  Function.update_self _ _ _

@[simp] theorem Config.advance_threads_of_ne (config : Config ι Shared Thread)
    {thread other : ι} (hne : other ≠ thread) (shared : Shared) (own : Thread) :
    (config.advance thread shared own).threads other = config.threads other :=
  Function.update_of_ne hne _ _

@[simp] theorem Config.advance_same (config : Config ι Shared Thread) (thread : ι) :
    config.advance thread config.shared (config.threads thread) = config := by
  simp [Config.advance]

@[simp] theorem Config.advance_advance (config : Config ι Shared Thread) (thread : ι)
    (shared shared' : Shared) (own own' : Thread) :
    (config.advance thread shared own).advance thread shared' own' =
      config.advance thread shared' own' := by
  simp [Config.advance]

/-- The runs of a program from an initial configuration: the empty history, and one more step of
any thread that meets the guard. -/
inductive Run (program : Program Shared Thread Event) (guard : Guard ι Shared Thread Event)
    (initial : Config ι Shared Thread) : List (ι × Event) → Config ι Shared Thread → Prop
  | start : Run program guard initial [] initial
  | step {history : List (ι × Event)} {config : Config ι Shared Thread} {thread : ι}
      {event : Event} {shared : Shared} {own : Thread} :
      Run program guard initial history config →
      guard history config thread event →
      program config.shared (config.threads thread) event shared own →
      Run program guard initial (history ++ [(thread, event)])
        (config.advance thread shared own)

variable {program : Program Shared Thread Event} {guard : Guard ι Shared Thread Event}
  {initial : Config ι Shared Thread}

/-- The induction rule of runs. A predicate of the history and the configuration that holds at the
start and is kept by every step that meets the guard holds along every run. -/
theorem Run.invariant (property : List (ι × Event) → Config ι Shared Thread → Prop)
    (hstart : property [] initial)
    (hstep : ∀ history config thread event shared own,
      Run program guard initial history config → property history config →
      guard history config thread event →
      program config.shared (config.threads thread) event shared own →
      property (history ++ [(thread, event)]) (config.advance thread shared own))
    {history : List (ι × Event)} {config : Config ι Shared Thread}
    (hrun : Run program guard initial history config) : property history config := by
  induction hrun with
  | start => exact hstart
  | step hpast hguard hprogram ih => exact hstep _ _ _ _ _ _ hpast ih hguard hprogram

/-- A run that meets a guard meets every guard that an invariant of the run and the first guard
imply. -/
theorem Run.strengthen {stronger : Guard ι Shared Thread Event}
    (property : List (ι × Event) → Config ι Shared Thread → Prop)
    (hstart : property [] initial)
    (hstep : ∀ history config thread event shared own,
      Run program stronger initial history config → property history config →
      guard history config thread event →
      program config.shared (config.threads thread) event shared own →
      stronger history config thread event ∧
        property (history ++ [(thread, event)]) (config.advance thread shared own))
    {history : List (ι × Event)} {config : Config ι Shared Thread}
    (hrun : Run program guard initial history config) :
    Run program stronger initial history config ∧ property history config := by
  induction hrun with
  | start => exact ⟨.start, hstart⟩
  | step hpast hguard hprogram ih =>
    obtain ⟨hstronger, hproperty⟩ := hstep _ _ _ _ _ _ ih.1 ih.2 hguard hprogram
    exact ⟨.step ih.1 hstronger hprogram, hproperty⟩

/-- A run that meets a guard meets every weaker one. -/
theorem Run.mono {weaker : Guard ι Shared Thread Event}
    (hweaker : ∀ history config thread event, guard history config thread event →
      weaker history config thread event)
    {history : List (ι × Event)} {config : Config ι Shared Thread}
    (hrun : Run program guard initial history config) :
    Run program weaker initial history config := by
  induction hrun with
  | start => exact .start
  | step _ hguard hprogram ih => exact .step ih (hweaker _ _ _ _ hguard) hprogram

/-- A configuration seen through an abstraction of the memory and one of the threads. -/
def Config.view {Shared' Thread' : Type*} (viewShared : Shared → Shared')
    (viewThread : Thread → Thread') (config : Config ι Shared Thread) :
    Config ι Shared' Thread' :=
  ⟨viewShared config.shared, viewThread ∘ config.threads⟩

/-- Simulation. When every step of the runs of a program is, seen through two abstractions, a step
of a second program with the same event, a run of the first is seen as a run of the second. -/
theorem Run.simulation {Shared' Thread' : Type*} {program' : Program Shared' Thread' Event}
    {guard' : Guard ι Shared' Thread' Event} (viewShared : Shared → Shared')
    (viewThread : Thread → Thread')
    (hstep : ∀ history config thread event shared own,
      Run program guard initial history config →
      guard history config thread event →
      program config.shared (config.threads thread) event shared own →
      guard' history (config.view viewShared viewThread) thread event ∧
        program' (viewShared config.shared) (viewThread (config.threads thread)) event
          (viewShared shared) (viewThread own))
    {history : List (ι × Event)} {config : Config ι Shared Thread}
    (hrun : Run program guard initial history config) :
    Run program' guard' (initial.view viewShared viewThread) history
      (config.view viewShared viewThread) := by
  induction hrun with
  | start => exact .start
  | @step history config thread event shared own hpast hguard hprogram ih =>
    obtain ⟨hguard', hprogram'⟩ := hstep _ _ _ _ _ _ hpast hguard hprogram
    have hnext := Run.step ih hguard' hprogram'
    have hview : (config.view viewShared viewThread).advance thread (viewShared shared)
        (viewThread own) = (config.advance thread shared own).view viewShared viewThread := by
      simp only [Config.view, Config.advance, Function.comp_update]
    rwa [hview] at hnext

/-- The last event of a run is a step from the configuration of the run without it. -/
theorem Run.last {history : List (ι × Event)} {thread : ι} {event : Event}
    {config : Config ι Shared Thread}
    (hrun : Run program guard initial (history ++ [(thread, event)]) config) :
    ∃ middle shared own, Run program guard initial history middle ∧
      guard history middle thread event ∧
      program middle.shared (middle.threads thread) event shared own ∧
      config = middle.advance thread shared own := by
  generalize hhistory : history ++ [(thread, event)] = past at hrun
  cases hrun with
  | start => simp at hhistory
  | step hpast hguard hprogram =>
    obtain ⟨rfl, hlast⟩ := List.append_inj' hhistory rfl
    simp only [List.cons.injEq, Prod.mk.injEq, and_true] at hlast
    obtain ⟨rfl, rfl⟩ := hlast
    exact ⟨_, _, _, hpast, hguard, hprogram, rfl⟩

/-- The beginnings of a run are runs. -/
theorem Run.past {before after : List (ι × Event)} {config : Config ι Shared Thread}
    (hrun : Run program guard initial (before ++ after) config) :
    ∃ middle, Run program guard initial before middle := by
  induction after using List.reverseRecOn generalizing config with
  | nil =>
    rw [List.append_nil] at hrun
    exact ⟨config, hrun⟩
  | append_singleton after last ih =>
    rw [← List.append_assoc] at hrun
    obtain ⟨middle, _, _, hpast, -⟩ := hrun.last
    exact ih hpast

/-- A run can be cut at every event of its history: the part before the event is a run, and the
event is a step from its last configuration that meets the guard. -/
theorem Run.cut {before after : List (ι × Event)} {thread : ι} {event : Event}
    {config : Config ι Shared Thread}
    (hrun : Run program guard initial (before ++ (thread, event) :: after) config) :
    ∃ middle shared own, Run program guard initial before middle ∧
      guard before middle thread event ∧
      program middle.shared (middle.threads thread) event shared own := by
  have hsplit : before ++ (thread, event) :: after = before ++ [(thread, event)] ++ after := by simp
  rw [hsplit] at hrun
  obtain ⟨_, huntil⟩ := hrun.past
  obtain ⟨middle, shared, own, hpast, hguard, hprogram, -⟩ := huntil.last
  exact ⟨middle, shared, own, hpast, hguard, hprogram⟩

/-- Nothing happens in a run without events. -/
theorem Run.nil {config : Config ι Shared Thread} (hrun : Run program guard initial [] config) :
    config = initial := by
  generalize hhistory : ([] : List (ι × Event)) = history at hrun
  cases hrun with
  | start => rfl
  | step => simp at hhistory

/-- Where every step is allowed, what follows a part of a run is a run from where the part ends. -/
theorem Run.split {before after : List (ι × Event)} {config : Config ι Shared Thread}
    (hrun : Run program anyStep initial (before ++ after) config) :
    ∃ middle, Run program anyStep initial before middle ∧
      Run program anyStep middle after config := by
  induction after using List.reverseRecOn generalizing config with
  | nil =>
    rw [List.append_nil] at hrun
    exact ⟨config, hrun, .start⟩
  | append_singleton after last ih =>
    rw [← List.append_assoc] at hrun
    obtain ⟨until', shared, own, hpast, -, hprogram, rfl⟩ := hrun.last
    obtain ⟨middle, hbefore, hafter⟩ := ih hpast
    exact ⟨middle, hbefore, hafter.step trivial hprogram⟩

/-- A run of one event is a step. -/
theorem Run.single {thread : ι} {event : Event} {config : Config ι Shared Thread}
    (hrun : Run program guard initial [(thread, event)] config) :
    ∃ shared own, program initial.shared (initial.threads thread) event shared own ∧
      config = initial.advance thread shared own := by
  obtain ⟨middle, shared, own, hpast, -, hprogram, rfl⟩ := @Run.last _ _ _ _ _ _ _ _ [] _ _ _ hrun
  obtain rfl := hpast.nil
  exact ⟨shared, own, hprogram, rfl⟩

end Runs

/-! ### Properties of histories -/

/-- An event of the first kind happened, and none of the second kind has happened after it. -/
def Since (history : List (ι × Event)) (happened cancelled : ι → Event → Prop) : Prop :=
  ∃ before thread event after, history = before ++ (thread, event) :: after ∧
    happened thread event ∧ ∀ later ∈ after, ¬ cancelled later.1 later.2

/-- Nothing has happened in the empty history. -/
theorem not_since_nil (happened cancelled : ι → Event → Prop) :
    ¬ Since ([] : List (ι × Event)) happened cancelled := by
  rintro ⟨before, thread, event, after, hhistory, -⟩
  simp at hhistory

/-- An entry of a list with one more entry at its end is that one or an entry of the list. -/
theorem split_concat {Entry : Type*} {history before after : List Entry} {last entry : Entry}
    (hsplit : history ++ [last] = before ++ entry :: after) :
    (after = [] ∧ before = history ∧ entry = last) ∨
      ∃ rest, after = rest ++ [last] ∧ history = before ++ entry :: rest := by
  rcases List.eq_nil_or_concat after with rfl | ⟨rest, other, rfl⟩
  · obtain ⟨rfl, hentry⟩ := List.append_inj' hsplit rfl
    exact Or.inl ⟨rfl, rfl, (List.singleton_inj.mp hentry).symm⟩
  · rw [List.concat_eq_append, ← List.cons_append, ← List.append_assoc] at hsplit
    obtain ⟨rfl, hother⟩ := List.append_inj' hsplit rfl
    obtain rfl := List.singleton_inj.mp hother
    exact Or.inr ⟨rest, List.concat_eq_append, rfl⟩

/-- `Since` after one more event: the event is of the first kind, or the past was so already and
the event does not cancel it. -/
theorem since_concat (history : List (ι × Event)) (thread : ι) (event : Event)
    (happened cancelled : ι → Event → Prop) :
    Since (history ++ [(thread, event)]) happened cancelled ↔
      happened thread event ∨ Since history happened cancelled ∧ ¬ cancelled thread event := by
  constructor
  · rintro ⟨before, first, kind, after, hhistory, hhappened, hafter⟩
    rcases split_concat hhistory with ⟨-, -, hlast⟩ | ⟨after, rfl, rfl⟩
    · obtain ⟨rfl, rfl⟩ := Prod.mk.inj hlast
      exact Or.inl hhappened
    · refine Or.inr ⟨⟨before, first, kind, after, rfl, hhappened, fun later hlater ↦
        hafter later (by simp [hlater])⟩, hafter (thread, event) (by simp)⟩
  · rintro (hhappened | ⟨⟨before, first, kind, after, rfl, hhappened, hafter⟩, hkeep⟩)
    · exact ⟨history, thread, event, [], rfl, hhappened, by simp⟩
    · refine ⟨before, first, kind, after ++ [(thread, event)], by simp, hhappened, ?_⟩
      intro later hlater
      rcases List.mem_append.mp hlater with hold | hnew
      · exact hafter later hold
      · obtain rfl := List.mem_singleton.mp hnew
        exact hkeep

/-- What holds at every entry of a list with one more entry at its end. -/
theorem forall_split_concat {Entry : Type*} (property : List Entry → Entry → Prop)
    (history : List Entry) (last : Entry) :
    (∀ before entry after, history ++ [last] = before ++ entry :: after → property before entry) ↔
      (∀ before entry after, history = before ++ entry :: after → property before entry) ∧
        property history last := by
  constructor
  · intro h
    refine ⟨fun before entry after hhistory ↦ ?_, h history last [] rfl⟩
    exact h before entry (after ++ [last]) (by simp [hhistory])
  · rintro ⟨hpast, hlast⟩ before entry after hhistory
    rcases split_concat hhistory with ⟨-, rfl, rfl⟩ | ⟨rest, -, hpastSplit⟩
    · exact hlast
    · exact hpast before entry rest hpastSplit

/-- `Since` of a history with one more event at its front. -/
theorem since_cons (entry : ι × Event) (history : List (ι × Event))
    (happened cancelled : ι → Event → Prop) :
    Since (entry :: history) happened cancelled ↔
      (happened entry.1 entry.2 ∧ ∀ later ∈ history, ¬ cancelled later.1 later.2) ∨
        Since history happened cancelled := by
  constructor
  · rintro ⟨before, first, kind, after, hhistory, hhappened, hafter⟩
    cases before with
    | nil =>
      obtain ⟨rfl, rfl⟩ := List.cons.inj hhistory
      exact Or.inl ⟨hhappened, hafter⟩
    | cons _ before =>
      exact Or.inr ⟨before, first, kind, after, (List.cons.inj hhistory).2, hhappened, hafter⟩
  · rintro (⟨hhappened, hafter⟩ | ⟨before, first, kind, after, rfl, hhappened, hafter⟩)
    · exact ⟨[], entry.1, entry.2, history, rfl, hhappened, hafter⟩
    · exact ⟨entry :: before, first, kind, after, rfl, hhappened, hafter⟩

instance decidableSince (happened cancelled : ι → Event → Prop)
    [∀ thread event, Decidable (happened thread event)]
    [∀ thread event, Decidable (cancelled thread event)] :
    ∀ history : List (ι × Event), Decidable (Since history happened cancelled)
  | [] => isFalse (not_since_nil happened cancelled)
  | entry :: history =>
    have := decidableSince happened cancelled history
    decidable_of_iff _ (since_cons entry history happened cancelled).symm

/-- Two events of one kind in a history have a first and a second among them. -/
theorem exists_split_of_two_le_countP {Entry : Type*} {kind : Entry → Bool} {history : List Entry}
    (htwo : 2 ≤ history.countP kind) :
    ∃ earlier first between second later,
      history = earlier ++ first :: between ++ second :: later ∧ kind first = true ∧
        kind second = true := by
  induction history with
  | nil => simp at htwo
  | cons entry history ih =>
    by_cases hentry : kind entry = true
    · rw [List.countP_cons_of_pos hentry] at htwo
      obtain ⟨second, hmem, hsecond⟩ := List.countP_pos_iff.mp (by omega : 0 < history.countP kind)
      obtain ⟨between, later, rfl⟩ := List.append_of_mem hmem
      exact ⟨[], entry, between, second, later, rfl, hentry, hsecond⟩
    · rw [List.countP_cons_of_neg hentry] at htwo
      obtain ⟨earlier, first, between, second, later, rfl, hfirst, hsecond⟩ := ih htwo
      exact ⟨entry :: earlier, first, between, second, later, rfl, hfirst, hsecond⟩

/-- When the entries of one kind are at most as many as those of another kind for every key, they
are at most as many. -/
theorem countP_le_of_fibers {Entry Key : Type*} [DecidableEq Key] {first second : Entry → Bool}
    (key key' : Entry → Key) {history : List Entry}
    (hfibers : ∀ k, history.countP (fun entry ↦ first entry && key entry = k) ≤
      history.countP fun entry ↦ second entry && key' entry = k) :
    history.countP first ≤ history.countP second := by
  have hcount (kind : Entry → Bool) (key : Entry → Key) (k : Key) :
      ((history.filter kind).map key).count k =
        history.countP fun entry ↦ kind entry && key entry = k := by
    rw [List.count, List.countP_map, List.countP_filter]
    congr 1
    funext entry
    rw [Function.comp_apply, Bool.and_comm, beq_eq_decide]
  have hsubperm : ((history.filter first).map key).Subperm ((history.filter second).map key') := by
    rw [List.subperm_ext_iff]
    intro k _
    rw [hcount, hcount]
    exact hfibers k
  simpa [List.countP_eq_length_filter] using hsubperm.length_le

/-! ### Programs given by a function -/

/-- A program that is given by a function: what a thread does on a command, or `none` when the
command does not apply to it. -/
abbrev Machine (Command Shared Thread Event : Type*) :=
  Command → Shared → Thread → Option (Event × Shared × Thread)

variable {Command : Type*}

/-- The program of a machine, for any choice of commands. -/
def Machine.program (machine : Machine Command Shared Thread Event) :
    Program Shared Thread Event :=
  fun shared thread event shared' thread' ↦
    ∃ command, machine command shared thread = some (event, shared', thread')

section Execution

variable [DecidableEq ι] (machine : Machine Command Shared Thread Event)
  (guard : Guard ι Shared Thread Event)
  [∀ history config thread event, Decidable (guard history config thread event)]

/-- Executes a schedule, a list of threads and commands, after a history, and returns the history
and the configuration at its end, or `none` when a command does not apply or a step does not meet
the guard. -/
def play : List (ι × Command) → List (ι × Event) → Config ι Shared Thread →
    Option (List (ι × Event) × Config ι Shared Thread)
  | [], history, config => some (history, config)
  | (thread, command) :: schedule, history, config =>
    match machine command config.shared (config.threads thread) with
    | none => none
    | some (event, shared, own) =>
      if guard history config thread event then
        play schedule (history ++ [(thread, event)]) (config.advance thread shared own)
      else none

variable {machine guard}

/-- The execution of a schedule whose first step is known. -/
theorem play_cons {thread : ι} {command : Command} {schedule : List (ι × Command)}
    {history : List (ι × Event)} {config : Config ι Shared Thread} {event : Event}
    {shared : Shared} {own : Thread}
    (hstep : machine command config.shared (config.threads thread) = some (event, shared, own)) :
    play machine anyStep ((thread, command) :: schedule) history config =
      play machine anyStep schedule (history ++ [(thread, event)])
        (config.advance thread shared own) := by
  simp only [play, hstep]
  exact if_pos trivial

/-- The execution of a schedule continues a run. -/
theorem run_of_play {initial : Config ι Shared Thread} (schedule : List (ι × Command)) :
    ∀ {past : List (ι × Event)} {config : Config ι Shared Thread} {history : List (ι × Event)}
      {final : Config ι Shared Thread}, Run machine.program guard initial past config →
      play machine guard schedule past config = some (history, final) →
      Run machine.program guard initial history final := by
  induction schedule with
  | nil =>
    intro past config history final hrun hplay
    simp only [play, Option.some.injEq, Prod.mk.injEq] at hplay
    obtain ⟨rfl, rfl⟩ := hplay
    exact hrun
  | cons entry schedule ih =>
    intro past config history final hrun hplay
    obtain ⟨thread, command⟩ := entry
    simp only [play] at hplay
    cases hmachine : machine command config.shared (config.threads thread) with
    | none => simp [hmachine] at hplay
    | some result =>
      obtain ⟨event, shared, own⟩ := result
      simp only [hmachine] at hplay
      by_cases hguard : guard past config thread event
      · rw [if_pos hguard] at hplay
        exact ih (hrun.step hguard ⟨command, hmachine⟩) hplay
      · simp [hguard] at hplay

variable (machine guard)

/-- The execution of a schedule gives a run whose history and last configuration look as the
execution says. -/
theorem exists_run_of_play_view (initial : Config ι Shared Thread) (schedule : List (ι × Command))
    {View : Type*} (view : List (ι × Event) → Config ι Shared Thread → View) (value : View)
    (hplay : (play machine guard schedule [] initial).map (fun result ↦ view result.1 result.2) =
      some value) :
    ∃ history config, Run machine.program guard initial history config ∧
      view history config = value := by
  obtain ⟨⟨history, config⟩, hresult, hview⟩ := Option.map_eq_some_iff.mp hplay
  exact ⟨history, config, run_of_play schedule .start hresult, hview⟩

/-- The execution of a schedule gives a run with its history, whose last configuration looks as the
execution says. -/
theorem exists_run_of_play (initial : Config ι Shared Thread) (schedule : List (ι × Command))
    {View : Type*} (view : Config ι Shared Thread → View) (history : List (ι × Event))
    (value : View)
    (hplay : (play machine guard schedule [] initial).map
      (fun result ↦ (result.1, view result.2)) = some (history, value)) :
    ∃ config, Run machine.program guard initial history config ∧ view config = value := by
  obtain ⟨past, config, hrun, hview⟩ := exists_run_of_play_view machine guard initial schedule
    (fun history config ↦ (history, view config)) (history, value) hplay
  obtain ⟨rfl, rfl⟩ := Prod.mk.inj hview
  exact ⟨config, hrun, rfl⟩

end Execution

/-! ### Two executions of one schedule -/

section TwoRuns

variable {Observation : Type*} (observe : Event → Option Observation)

/-- What can be observed of a history, with the threads that did it. -/
def observed (history : List (ι × Event)) : List (ι × Observation) :=
  history.filterMap fun entry ↦ (observe entry.2).map fun observation ↦ (entry.1, observation)

theorem observed_concat (history : List (ι × Event)) (thread : ι) (event : Event) :
    observed observe (history ++ [(thread, event)]) = observed observe history ++
      ((observe event).map fun observation ↦ (thread, observation)).toList := by
  rw [observed, List.filterMap_append]
  cases hevent : observe event <;> simp [observed, hevent]

/-- Two steps look alike: what can be observed of them is the same, and the memories and threads
that they lead to are related. -/
structure Alike (sharedRel : Shared → Shared → Prop) (threadRel : Thread → Thread → Prop)
    (first second : Event × Shared × Thread) : Prop where
  event : observe first.1 = observe second.1
  shared : sharedRel first.2.1 second.2.1
  thread : threadRel first.2.2 second.2.2

/-- Steps of a part of a thread that look alike are steps of the whole thread that look alike. -/
theorem Alike.map {Part : Type*} {sharedRel : Shared → Shared → Prop} {partRel : Part → Part → Prop}
    {threadRel : Thread → Thread → Prop} {whole : Part → Thread}
    (hwhole : ∀ part part', partRel part part' → threadRel (whole part) (whole part'))
    {first second : Option (Event × Shared × Part)}
    (halike : Option.Rel (Alike observe sharedRel partRel) first second) :
    Option.Rel (Alike observe sharedRel threadRel)
      (first.map fun step ↦ (step.1, step.2.1, whole step.2.2))
      (second.map fun step ↦ (step.1, step.2.1, whole step.2.2)) := by
  cases halike with
  | none => exact .none
  | some halike => exact .some ⟨halike.event, halike.shared, hwhole _ _ halike.thread⟩

/-- The rule of two runs. When a command leads from related memories and threads to steps that look
alike, or applies in neither of them, a schedule is carried out from related configurations with the
same observations, or in neither of them. -/
theorem play_observed [DecidableEq ι] {machine : Machine Command Shared Thread Event}
    (sharedRel : Shared → Shared → Prop) (threadRel : Thread → Thread → Prop)
    (hstep : ∀ command shared shared' thread thread', sharedRel shared shared' →
      threadRel thread thread' → Option.Rel (Alike observe sharedRel threadRel)
        (machine command shared thread) (machine command shared' thread'))
    (schedule : List (ι × Command)) :
    ∀ {past past' : List (ι × Event)} {config config' : Config ι Shared Thread},
      observed observe past = observed observe past' → sharedRel config.shared config'.shared →
      (∀ thread, threadRel (config.threads thread) (config'.threads thread)) →
        (play machine anyStep schedule past config).map (fun result ↦ observed observe result.1) =
          (play machine anyStep schedule past' config').map
            fun result ↦ observed observe result.1 := by
  induction schedule with
  | nil =>
    intro past past' config config' hpast _ _
    simp only [play, Option.map_some, hpast]
  | cons entry schedule ih =>
    obtain ⟨thread, command⟩ := entry
    intro past past' config config' hpast hshared hthreads
    have hresults := hstep command _ _ _ _ hshared (hthreads thread)
    simp only [play]
    generalize machine command config.shared (config.threads thread) = result at hresults ⊢
    generalize machine command config'.shared (config'.threads thread) = result' at hresults ⊢
    cases hresults with
    | none => rfl
    | @some first second halike =>
      obtain ⟨event, shared, own⟩ := first
      obtain ⟨event', shared', own'⟩ := second
      simp only [if_pos (show anyStep past config thread event from trivial),
        if_pos (show anyStep past' config' thread event' from trivial)]
      apply ih
      · rw [observed_concat, observed_concat, hpast, halike.event]
      · exact halike.shared
      · intro other
        by_cases hother : other = thread
        · subst hother
          rw [Config.advance_threads_self, Config.advance_threads_self]
          exact halike.thread
        · rw [Config.advance_threads_of_ne _ hother, Config.advance_threads_of_ne _ hother]
          exact hthreads other

end TwoRuns

/-- Lets one thread go on with a command until it does not apply any more, for at most the given
number of steps, and returns the events of the steps, the memory and the thread at the end. -/
def runAlone (machine : Machine Command Shared Thread Event) (command : Command) :
    ℕ → Shared → Thread → List Event × Shared × Thread
  | 0, shared, thread => ([], shared, thread)
  | fuel + 1, shared, thread =>
    match machine command shared thread with
    | none => ([], shared, thread)
    | some (event, shared', thread') =>
      let rest := runAlone machine command fuel shared' thread'
      (event :: rest.1, rest.2)

/-- Gives one thread a list of commands, up to the first one that does not apply to it, and returns
the events of the steps, the memory and the thread at the end. -/
def runCommands (machine : Machine Command Shared Thread Event) :
    List Command → Shared → Thread → List Event × Shared × Thread
  | [], shared, thread => ([], shared, thread)
  | command :: commands, shared, thread =>
    match machine command shared thread with
    | none => ([], shared, thread)
    | some (event, shared', thread') =>
      let rest := runCommands machine commands shared' thread'
      (event :: rest.1, rest.2)

end Mcmp.Foundation.Interleaving
