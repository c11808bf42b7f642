import Mcmp.Foundation.Interleaving

/-!
# Fair executions

An execution of a system goes on for ever: between two moments one thread makes a step, or nothing
happens. At each moment it has made a run (`Execution.run`). It is fair to the threads that are
obliged to go on: a thread that is obliged to move from some moment on does move at a later one.

`Execution.Fair.leadsTo` is the rule by which something is shown to happen in every fair execution.
While it has not happened, one thread is obliged to move, its steps lower a rank, and no other step
raises it. Longer chains of such facts are put together with `Execution.LeadsTo.trans_or`.

Every run is the beginning of an execution in which nothing happens after it
(`exists_execution`). That execution is fair when nobody is obliged to go on at its end.
-/

set_option autoImplicit false
set_option relaxedAutoImplicit false

namespace Mcmp.Foundation.Fairness

open Interleaving

variable {ι Shared Thread Event : Type*} [DecidableEq ι]

/-- What happens between two moments: a thread makes a step that meets the guard, or nothing
happens. -/
inductive Moment (program : Program Shared Thread Event) (guard : Guard ι Shared Thread Event)
    (history : List (ι × Event)) (config : Config ι Shared Thread) :
    Option ι → List (ι × Event) → Config ι Shared Thread → Prop
  | rest : Moment program guard history config none history config
  | step {thread : ι} {event : Event} {shared : Shared} {own : Thread} :
      guard history config thread event →
      program config.shared (config.threads thread) event shared own →
      Moment program guard history config (some thread) (history ++ [(thread, event)])
        (config.advance thread shared own)

/-- An execution of a program from an initial configuration: at each moment the history so far, the
configuration, and the thread that moves next, if one does. -/
structure Execution (program : Program Shared Thread Event) (guard : Guard ι Shared Thread Event)
    (initial : Config ι Shared Thread) where
  history : ℕ → List (ι × Event)
  config : ℕ → Config ι Shared Thread
  mover : ℕ → Option ι
  history_zero : history 0 = []
  config_zero : config 0 = initial
  next : ∀ n, Moment program guard (history n) (config n) (mover n) (history (n + 1))
    (config (n + 1))

variable {program : Program Shared Thread Event} {guard : Guard ι Shared Thread Event}
  {initial : Config ι Shared Thread} {execution : Execution program guard initial}

namespace Execution

/-- Between two moments nothing happens, or the mover makes a step. -/
theorem moment_cases (execution : Execution program guard initial) (n : ℕ) :
    (execution.mover n = none ∧ execution.history (n + 1) = execution.history n ∧
        execution.config (n + 1) = execution.config n) ∨
      ∃ thread event shared own, execution.mover n = some thread ∧
        guard (execution.history n) (execution.config n) thread event ∧
        program (execution.config n).shared ((execution.config n).threads thread) event shared
          own ∧
        execution.history (n + 1) = execution.history n ++ [(thread, event)] ∧
        execution.config (n + 1) = (execution.config n).advance thread shared own := by
  have hnext := execution.next n
  generalize execution.mover n = mover, execution.history (n + 1) = history,
    execution.config (n + 1) = config at hnext ⊢
  cases hnext with
  | rest => exact Or.inl ⟨rfl, rfl, rfl⟩
  | step hguard hprogram => exact Or.inr ⟨_, _, _, _, rfl, hguard, hprogram, rfl, rfl⟩

/-- At each moment an execution has made a run. -/
theorem run (execution : Execution program guard initial) (n : ℕ) :
    Run program guard initial (execution.history n) (execution.config n) := by
  induction n with
  | zero =>
    rw [execution.history_zero, execution.config_zero]
    exact .start
  | succ n ih =>
    rcases execution.moment_cases n with ⟨-, hhistory, hconfig⟩ |
      ⟨thread, event, shared, own, -, hguard, hprogram, hhistory, hconfig⟩
    · rwa [hhistory, hconfig]
    · rw [hhistory, hconfig]
      exact .step ih hguard hprogram

/-- A thread that is obliged to move from some moment on moves at a later one. -/
def Fair (execution : Execution program guard initial)
    (obliged : ι → Config ι Shared Thread → Prop) : Prop :=
  ∀ thread n, (∀ m, n ≤ m → obliged thread (execution.config m)) →
    ∃ m, n ≤ m ∧ execution.mover m = some thread

/-- Whenever the first property holds, the second one holds then or later. -/
def LeadsTo (execution : Execution program guard initial)
    (first second : List (ι × Event) → Config ι Shared Thread → Prop) : Prop :=
  ∀ n, first (execution.history n) (execution.config n) →
    ∃ m, n ≤ m ∧ second (execution.history m) (execution.config m)

variable {first second third : List (ι × Event) → Config ι Shared Thread → Prop}

theorem LeadsTo.imp (hleads : execution.LeadsTo first second)
    (himp : ∀ history config, second history config → third history config) :
    execution.LeadsTo first third := by
  intro n hn
  obtain ⟨m, hnm, hm⟩ := hleads n hn
  exact ⟨m, hnm, himp _ _ hm⟩

/-- A chain of properties may be left for the last one at each link. -/
theorem LeadsTo.trans_or
    (hfirst : execution.LeadsTo first fun history config ↦
      second history config ∨ third history config)
    (hsecond : execution.LeadsTo second third) : execution.LeadsTo first third := by
  intro n hn
  obtain ⟨m, hnm, hm | hm⟩ := hfirst n hn
  · obtain ⟨k, hmk, hk⟩ := hsecond m hm
    exact ⟨k, hnm.trans hmk, hk⟩
  · exact ⟨m, hnm, hm⟩

/-- What every step keeps holds from the moment on at which it first holds. -/
theorem stable (hkept : ∀ history config thread event shared own,
      Run program guard initial history config → first history config →
      guard history config thread event →
      program config.shared (config.threads thread) event shared own →
      first (history ++ [(thread, event)]) (config.advance thread shared own))
    {n m : ℕ} (hnm : n ≤ m) (hfirst : first (execution.history n) (execution.config n)) :
    first (execution.history m) (execution.config m) := by
  induction m, hnm using Nat.le_induction with
  | base => exact hfirst
  | succ m _ ih =>
    rcases execution.moment_cases m with ⟨-, hhistory, hconfig⟩ |
      ⟨thread, event, shared, own, -, hguard, hprogram, hhistory, hconfig⟩
    · rwa [hhistory, hconfig]
    · rw [hhistory, hconfig]
      exact hkept _ _ _ _ _ _ (execution.run m) ih hguard hprogram

/-- A property that is left only for a third one still holds when the second one comes, or it has
been left by then. -/
theorem LeadsTo.until (hkept : ∀ history config thread event shared own,
      Run program guard initial history config → first history config →
      guard history config thread event →
      program config.shared (config.threads thread) event shared own →
      first (history ++ [(thread, event)]) (config.advance thread shared own) ∨
        third (history ++ [(thread, event)]) (config.advance thread shared own))
    (hleads : execution.LeadsTo first second) :
    execution.LeadsTo first fun history config ↦
      first history config ∧ second history config ∨ third history config := by
  intro n hn
  obtain ⟨m, hnm, hm⟩ := hleads n hn
  by_contra hnever
  push Not at hnever
  have hstays : ∀ k, n ≤ k → first (execution.history k) (execution.config k) := by
    intro k hnk
    induction k, hnk using Nat.le_induction with
    | base => exact hn
    | succ k hnk ih =>
      have hthird := (hnever (k + 1) (hnk.trans (Nat.le_succ k))).2
      rcases execution.moment_cases k with ⟨-, hhistory, hconfig⟩ |
        ⟨thread, event, shared, own, -, hguard, hprogram, hhistory, hconfig⟩
      · rwa [hhistory, hconfig]
      · rw [hhistory, hconfig] at hthird ⊢
        exact (hkept _ _ _ _ _ _ (execution.run k) ih hguard hprogram).resolve_right hthird
  exact (hnever m hnm).1 (hstays m hnm) hm

/-- The rule of fair executions. Before the second property holds, the helper is obliged to move,
each of its steps lowers the rank, and no step of another thread raises it. -/
theorem Fair.leadsTo {obliged : ι → Config ι Shared Thread → Prop} (hfair : execution.Fair obliged)
    (helper : ι) (rank : Config ι Shared Thread → ℕ)
    (hobliged : ∀ history config, Run program guard initial history config →
      first history config → ¬ second history config → obliged helper config)
    (hstep : ∀ history config thread event shared own,
      Run program guard initial history config → first history config →
      ¬ second history config → guard history config thread event →
      program config.shared (config.threads thread) event shared own →
      second (history ++ [(thread, event)]) (config.advance thread shared own) ∨
        first (history ++ [(thread, event)]) (config.advance thread shared own) ∧
          rank (config.advance thread shared own) ≤ rank config ∧
          (thread = helper → rank (config.advance thread shared own) < rank config)) :
    execution.LeadsTo first second := by
  intro n hn
  generalize hrank : rank (execution.config n) = r
  induction r using Nat.strongRecOn generalizing n with
  | ind r ih =>
    by_contra hnever
    have hnot : ∀ m, n ≤ m → ¬ second (execution.history m) (execution.config m) :=
      fun m hnm hm ↦ hnever ⟨m, hnm, hm⟩
    -- What one moment does while the second property has not come to hold.
    have hmoment : ∀ m, n ≤ m → first (execution.history m) (execution.config m) →
        first (execution.history (m + 1)) (execution.config (m + 1)) ∧
          rank (execution.config (m + 1)) ≤ rank (execution.config m) ∧
          (execution.mover m = some helper →
            rank (execution.config (m + 1)) < rank (execution.config m)) := by
      intro m hnm hfirst
      have hafter := hnot (m + 1) (hnm.trans (Nat.le_succ m))
      rcases execution.moment_cases m with ⟨hmover, hhistory, hconfig⟩ |
        ⟨thread, event, shared, own, hmover, hguard, hprogram, hhistory, hconfig⟩
      · rw [hmover, hhistory, hconfig]
        exact ⟨hfirst, le_rfl, fun h ↦ absurd h (by simp)⟩
      · rw [hhistory, hconfig] at hafter
        rw [hmover, hhistory, hconfig]
        obtain ⟨hkept, hle, hlt⟩ := (hstep _ _ _ _ _ _ (execution.run m) hfirst (hnot m hnm)
          hguard hprogram).resolve_left hafter
        exact ⟨hkept, hle, fun h ↦ hlt (Option.some.inj h)⟩
    have hkept : ∀ m, n ≤ m → first (execution.history m) (execution.config m) ∧
        rank (execution.config m) ≤ r := by
      intro m hnm
      induction m, hnm using Nat.le_induction with
      | base => exact ⟨hn, hrank.le⟩
      | succ m hnm ihm =>
        obtain ⟨hnext, hle, -⟩ := hmoment m hnm ihm.1
        exact ⟨hnext, hle.trans ihm.2⟩
    obtain ⟨m, hnm, hmover⟩ := hfair helper n fun m hnm ↦
      hobliged _ _ (execution.run m) (hkept m hnm).1 (hnot m hnm)
    obtain ⟨hnext, -, hlower⟩ := hmoment m hnm (hkept m hnm).1
    obtain ⟨k, hmk, hk⟩ := ih _ ((hlower hmover).trans_le (hkept m hnm).2) (m + 1) hnext rfl
    exact hnot k (hnm.trans ((Nat.le_succ m).trans hmk)) hk

end Execution

/-- Every run is the beginning of an execution in which nothing happens after it. -/
theorem exists_execution {history : List (ι × Event)} {config : Config ι Shared Thread}
    (hrun : Run program guard initial history config) :
    ∃ execution : Execution program guard initial, ∀ n, history.length ≤ n →
      execution.history n = history ∧ execution.config n = config := by
  induction hrun with
  | start =>
    exact ⟨⟨fun _ ↦ [], fun _ ↦ initial, fun _ ↦ none, rfl, rfl, fun _ ↦ .rest⟩,
      fun _ _ ↦ ⟨rfl, rfl⟩⟩
  | @step past config thread event shared own hpast hguard hprogram ih =>
    obtain ⟨execution, hrests⟩ := ih
    refine ⟨⟨fun n ↦ if n ≤ past.length then execution.history n else past ++ [(thread, event)],
      fun n ↦ if n ≤ past.length then execution.config n else config.advance thread shared own,
      fun n ↦ if n < past.length then execution.mover n else
        if n = past.length then some thread else none, ?_, ?_, fun n ↦ ?_⟩, fun n hn ↦ ?_⟩
    · simp [execution.history_zero]
    · simp [execution.config_zero]
    · rcases lt_trichotomy n past.length with hlt | rfl | hgt
      · simpa only [if_pos hlt.le, if_pos hlt, if_pos (Nat.succ_le_of_lt hlt)]
          using execution.next n
      · obtain ⟨hhistory, hconfig⟩ := hrests past.length le_rfl
        simp only [if_pos (le_refl _), if_neg (lt_irrefl _), if_true,
          if_neg (Nat.not_succ_le_self _), hhistory, hconfig]
        exact .step hguard hprogram
      · simp only [if_neg hgt.not_ge, if_neg hgt.not_gt, if_neg hgt.ne',
          if_neg (hgt.trans (Nat.lt_succ_self n)).not_ge]
        exact .rest
    · rw [List.length_append, List.length_singleton] at hn
      exact ⟨if_neg (by omega), if_neg (by omega)⟩

/-- A run that ends where nobody is obliged to go on is the beginning of a fair execution in which
nothing happens after it. -/
theorem exists_fair_execution {history : List (ι × Event)} {config : Config ι Shared Thread}
    (hrun : Run program guard initial history config)
    {obliged : ι → Config ι Shared Thread → Prop} (hquiet : ∀ thread, ¬ obliged thread config) :
    ∃ execution : Execution program guard initial, execution.Fair obliged ∧
      ∀ n, history.length ≤ n → execution.history n = history ∧ execution.config n = config := by
  obtain ⟨execution, hrests⟩ := exists_execution hrun
  refine ⟨execution, fun thread n hobliged ↦ ?_, hrests⟩
  have hlate := hobliged (max n history.length) (le_max_left _ _)
  rw [(hrests _ (le_max_right _ _)).2] at hlate
  exact absurd hlate (hquiet thread)

end Mcmp.Foundation.Fairness
