import Mathlib.Data.BitVec
import Mcmp.Routines.MonitorLock

/-!
# The back-off of the monitor lock

The loop of `mcmchMonitorLockTryAcquire` of monitor.c on its own. Whatever the attempts to take the
lock return, it stops after the first one that succeeds, or after `ntries + 1` that fail
(`mcmchMonitorLockTryAcquire_stops`). After an attempt that fails it pauses for
`((1 << (tries / 2)) - 1) % 1024` turns. The remainder keeps the pause short, but it is taken after
the shift, and nothing keeps the shift within the word: from the 129th failure on its count is 64 or
more, which the source language leaves open. `backOff_iff` says that this happens exactly when 128
tries are admitted and none of the first 129 attempts takes the lock.

The words are `size_t`. A shift count is used modulo 64, as the machine does it.
`tryAcquire_eq_iteration` says that the loop goes on and stops as the call in the machine of
`MonitorLock` does.
-/

set_option autoImplicit false
set_option relaxedAutoImplicit false

namespace Mcmp.Routines.MonitorBackOff

/-! ### The loop -/

/-- A pause after an attempt that failed: the count of the shift, and the turns to wait. -/
structure Pause where
  shift : ℕ
  delay : ℕ
  deriving DecidableEq, Repr

/-- The pause after the attempt of a number of tries. -/
def pauseAfter (tries : BitVec 64) : Pause :=
  let shift := (tries / 2#64).toNat
  ⟨shift, (((1#64 <<< (shift % 64)) - 1#64) % 1024#64).toNat⟩

/-- How an iteration ends, with a status to return or by going on, and the pause that it makes. -/
def iteration (outcome : Mcmpst) (ntries tries : BitVec 64) : Option Mcmpst × List Pause :=
  if outcome = .success then (some .success, [])
  else (if tries < ntries then none else some .noavle, [pauseAfter tries])

/-- The loop, for the outcomes of the attempts in their order, of which `calls` have been made. It
returns the status and the pauses, or nothing when the fuel runs out. -/
def mcmchMonitorLockTryAcquire (outcomes : ℕ → Mcmpst) (ntries : BitVec 64) :
    (fuel : ℕ) → (tries : BitVec 64) → (calls : ℕ) → Option (Mcmpst × List Pause)
  | 0, _, _ => none
  | fuel + 1, tries, calls =>
    match iteration (outcomes calls) ntries tries with
    | (some status, pauses) => some (status, pauses)
    | (none, pauses) =>
      (mcmchMonitorLockTryAcquire outcomes ntries fuel (tries + 1) (calls + 1)).map
        fun result ↦ (result.1, pauses ++ result.2)

/-! ### What the back-off has to do -/

variable (ntries : BitVec 64) (outcomes : ℕ → Mcmpst)

/-- The call stops after the first attempt that succeeds, or after `ntries + 1` attempts that fail,
with a pause after each attempt that fails. -/
structure Stops (status : Mcmpst) (pauses : List Pause) : Prop where
  failed : ∀ k < pauses.length, outcomes k ≠ .success
  stopped : (status = .success ∧ outcomes pauses.length = .success ∧
      pauses.length ≤ ntries.toNat) ∨
    (status = .noavle ∧ pauses.length = ntries.toNat + 1)

/-- Every shift is by less than the width of the word, and every pause is what the exact powers of
two give. -/
structure WellDefined (pauses : List Pause) : Prop where
  shift_lt : ∀ pause ∈ pauses, pause.shift < 64
  delay_eq : ∀ k pause, pauses[k]? = some pause → pause.delay = (2 ^ (k / 2) - 1) % 1024

/-- The call returns, it stops when it has to, and its pauses are well defined. -/
def BackOff : Prop :=
  ∃ status pauses,
    (∀ fuel, ntries.toNat < fuel →
      mcmchMonitorLockTryAcquire outcomes ntries fuel 0 0 = some (status, pauses)) ∧
    Stops ntries outcomes status pauses ∧ WellDefined pauses

/-! ### One iteration -/

section Loop

variable {ntries : BitVec 64} {outcomes : ℕ → Mcmpst}

/-- The iteration of the loop is the next step of the call among the other threads. -/
theorem tryAcquire_eq_iteration (main monitor lock : ℕ) (ntries tries : BitVec 64) :
    MonitorLock.mcmchMonitorLockTryAcquire main monitor lock ntries.toNat tries.toNat =
      match (iteration (MonitorLock.mcmchMonitorLockAcquire main monitor lock).1
        ntries tries).1 with
      | some status => (.returned (.tryAcquire ntries.toNat) status,
          (MonitorLock.mcmchMonitorLockAcquire main monitor lock).2, .idle)
      | none => (.retried, (MonitorLock.mcmchMonitorLockAcquire main monitor lock).2,
          .running (.tryAcquire ntries.toNat) (tries.toNat + 1)) := by
  unfold MonitorLock.mcmchMonitorLockTryAcquire iteration
  by_cases hsuccess : (MonitorLock.mcmchMonitorLockAcquire main monitor lock).1 = .success
  · simp [hsuccess]
  · by_cases hmore : tries < ntries
    · have hmore' : tries.toNat < ntries.toNat := hmore
      simp [hsuccess, hmore, hmore']
    · have hmore' : ¬ tries.toNat < ntries.toNat := hmore
      simp [hsuccess, hmore, hmore']

theorem shift_pauseAfter {n : ℕ} (hn : n < 2 ^ 64) :
    (pauseAfter (BitVec.ofNat 64 n)).shift = n / 2 := by
  rw [pauseAfter, BitVec.toNat_udiv, BitVec.toNat_ofNat, Nat.mod_eq_of_lt hn]
  rfl

/-- A pause whose shift stays in the word is what the exact power of two gives. -/
theorem delay_pauseAfter {n : ℕ} (hn : n < 128) :
    (pauseAfter (BitVec.ofNat 64 n)).delay = (2 ^ (n / 2) - 1) % 1024 := by
  have hshift : (BitVec.ofNat 64 n / 2#64).toNat = n / 2 := shift_pauseAfter (by omega)
  have hcount : n / 2 % 64 = n / 2 := Nat.mod_eq_of_lt (by omega)
  have hpos : 1 ≤ 2 ^ (n / 2) := Nat.one_le_two_pow
  have hfits : 2 ^ (n / 2) < 2 ^ 64 := Nat.pow_lt_pow_right (by decide) (by omega)
  have hpower : (1#64 <<< (n / 2)).toNat = 2 ^ (n / 2) := by
    have hone : (1#64).toNat = 1 := rfl
    rw [BitVec.toNat_shiftLeft, Nat.shiftLeft_eq, hone, Nat.one_mul, Nat.mod_eq_of_lt hfits]
  have hless : (1#64 <<< (n / 2) - 1#64).toNat = 2 ^ (n / 2) - 1 := by
    rw [BitVec.toNat_sub_of_le]
    · rw [hpower]
      rfl
    · rw [BitVec.le_def, hpower]
      exact hpos
  simp only [pauseAfter, hshift, hcount, BitVec.toNat_umod, hless]
  rfl

/-- The pauses after the first attempts. -/
def pausesUpTo (first count : ℕ) : List Pause :=
  (List.range' first count).map fun n ↦ pauseAfter (BitVec.ofNat 64 n)

theorem pausesUpTo_succ (first count : ℕ) :
    pausesUpTo first (count + 1) =
      pauseAfter (BitVec.ofNat 64 first) :: pausesUpTo (first + 1) count := by
  simp [pausesUpTo, List.range'_succ]

/-- The loop from a number of tries on, which is the number of calls made so far. -/
theorem loop_spec (outcomes : ℕ → Mcmpst) (remaining : ℕ) :
    ∀ tries, tries + remaining = ntries.toNat →
      ∃ status failures,
        (∀ fuel, remaining < fuel →
          mcmchMonitorLockTryAcquire outcomes ntries fuel (BitVec.ofNat 64 tries) tries =
            some (status, pausesUpTo tries failures)) ∧
        (∀ k < failures, outcomes (tries + k) ≠ .success) ∧
        ((status = .success ∧ outcomes (tries + failures) = .success ∧ failures ≤ remaining) ∨
          (status = .noavle ∧ failures = remaining + 1)) := by
  induction remaining with
  | zero =>
    intro tries htries
    have hmore : ¬ BitVec.ofNat 64 tries < ntries := by
      rw [BitVec.lt_def, BitVec.toNat_ofNat]
      omega
    by_cases hsuccess : outcomes tries = .success
    · refine ⟨.success, 0, fun fuel hfuel ↦ ?_, fun k hk ↦ absurd hk (Nat.not_lt_zero k),
        Or.inl ⟨rfl, hsuccess, le_rfl⟩⟩
      obtain ⟨fuel, rfl⟩ := Nat.exists_eq_add_of_lt hfuel
      simp [mcmchMonitorLockTryAcquire, iteration, hsuccess, pausesUpTo]
    · refine ⟨.noavle, 1, fun fuel hfuel ↦ ?_, fun k hk ↦ ?_, Or.inr ⟨rfl, rfl⟩⟩
      · obtain ⟨fuel, rfl⟩ := Nat.exists_eq_add_of_lt hfuel
        simp [mcmchMonitorLockTryAcquire, iteration, hsuccess, hmore, pausesUpTo]
      · obtain rfl : k = 0 := by omega
        exact hsuccess
  | succ remaining ih =>
    intro tries htries
    have hword := ntries.isLt
    have hmore : BitVec.ofNat 64 tries < ntries := by
      rw [BitVec.lt_def, BitVec.toNat_ofNat]
      omega
    by_cases hsuccess : outcomes tries = .success
    · refine ⟨.success, 0, fun fuel hfuel ↦ ?_, fun k hk ↦ absurd hk (Nat.not_lt_zero k),
        Or.inl ⟨rfl, hsuccess, Nat.zero_le _⟩⟩
      obtain ⟨fuel, rfl⟩ := Nat.exists_eq_add_of_lt hfuel
      simp [mcmchMonitorLockTryAcquire, iteration, hsuccess, pausesUpTo]
    · obtain ⟨status, failures, hloop, hfailed, hstopped⟩ := ih (tries + 1) (by omega)
      have hnext : BitVec.ofNat 64 tries + 1 = BitVec.ofNat 64 (tries + 1) :=
        (BitVec.ofNat_add tries 1).symm
      refine ⟨status, failures + 1, fun fuel hfuel ↦ ?_, fun k hk ↦ ?_, ?_⟩
      · obtain ⟨fuel, rfl⟩ : ∃ rest, fuel = rest + 1 := ⟨fuel - 1, by omega⟩
        simp only [mcmchMonitorLockTryAcquire, iteration, hsuccess, hmore, if_false, if_true, hnext,
          hloop fuel (by omega), Option.map_some, pausesUpTo_succ, List.singleton_append]
      · cases k with
        | zero => exact hsuccess
        | succ k =>
          have hnot := hfailed k (by omega)
          rwa [Nat.add_assoc, Nat.add_comm 1 k] at hnot
      · rcases hstopped with ⟨hstatus, hfound, hle⟩ | ⟨hstatus, hall⟩
        · refine Or.inl ⟨hstatus, ?_, by omega⟩
          rwa [Nat.add_assoc, Nat.add_comm 1 failures] at hfound
        · exact Or.inr ⟨hstatus, by omega⟩

/-- The call always returns and stops when it has to, with the pauses of its failures. -/
theorem mcmchMonitorLockTryAcquire_stops (ntries : BitVec 64) (outcomes : ℕ → Mcmpst) :
    ∃ status failures,
      (∀ fuel, ntries.toNat < fuel → mcmchMonitorLockTryAcquire outcomes ntries fuel 0 0 =
        some (status, pausesUpTo 0 failures)) ∧
      Stops ntries outcomes status (pausesUpTo 0 failures) := by
  obtain ⟨status, failures, hloop, hfailed, hstopped⟩ :=
    loop_spec outcomes ntries.toNat 0 (Nat.zero_add _)
  have hlength : (pausesUpTo 0 failures).length = failures := by simp [pausesUpTo]
  simp only [Nat.zero_add] at hfailed hstopped
  exact ⟨status, failures, hloop, by rwa [hlength], by rwa [hlength]⟩

/-- The pauses of a number of failures are well defined exactly when there are at most 128. -/
theorem wellDefined_iff {failures : ℕ} (hfailures : failures ≤ 2 ^ 64) :
    WellDefined (pausesUpTo 0 failures) ↔ failures ≤ 128 := by
  have hget : ∀ k, (pausesUpTo 0 failures)[k]? =
      if k < failures then some (pauseAfter (BitVec.ofNat 64 k)) else none := by
    intro k
    by_cases hk : k < failures
    · simp [pausesUpTo, hk]
    · simp [pausesUpTo, hk]
  constructor
  · intro hdefined
    by_contra hmany
    have hlast := hget 128
    rw [if_pos (by omega)] at hlast
    have hshift := hdefined.shift_lt _ (List.mem_of_getElem? hlast)
    rw [shift_pauseAfter (by decide)] at hshift
    exact absurd hshift (by decide)
  · intro hfew
    refine ⟨fun pause hmem ↦ ?_, fun k pause hpause ↦ ?_⟩
    · obtain ⟨n, hn, rfl⟩ := List.mem_map.mp hmem
      rw [List.mem_range'_1] at hn
      rw [shift_pauseAfter (by omega)]
      omega
    · rw [hget] at hpause
      split at hpause
      case isTrue hk =>
        obtain rfl := Option.some.inj hpause
        exact delay_pauseAfter (by omega)
      case isFalse => cases hpause

end Loop

/-- For every number of tries and every sequence of outcomes, the call stops when it has to and all
its shifts stay in the word, if and only if fewer than 128 tries are admitted or one of the first
129 attempts succeeds. -/
theorem backOff_iff (ntries : BitVec 64) (outcomes : ℕ → Mcmpst) :
    BackOff ntries outcomes ↔ ntries < 128#64 ∨ ∃ k ≤ 128, outcomes k = .success := by
  obtain ⟨status, failures, hruns, hstops⟩ := mcmchMonitorLockTryAcquire_stops ntries outcomes
  have hword := ntries.isLt
  have hlength : (pausesUpTo 0 failures).length = failures := by simp [pausesUpTo]
  obtain ⟨hfailed, hstopped⟩ := hstops
  rw [hlength] at hfailed hstopped
  have hcount : failures ≤ ntries.toNat + 1 := by
    rcases hstopped with ⟨-, -, hle⟩ | ⟨-, hall⟩
    · omega
    · omega
  have hdefined : BackOff ntries outcomes ↔ WellDefined (pausesUpTo 0 failures) := by
    constructor
    · rintro ⟨status', pauses, hruns', -, hdefined⟩
      have hsame := (hruns _ (Nat.lt_succ_self _)).symm.trans (hruns' _ (Nat.lt_succ_self _))
      obtain ⟨-, rfl⟩ := Prod.mk.inj (Option.some.inj hsame)
      exact hdefined
    · intro hdefined
      exact ⟨status, _, hruns, ⟨by rwa [hlength], by rwa [hlength]⟩, hdefined⟩
  have hfirst : ∀ k, outcomes k = .success → failures ≤ k := fun k hk ↦
    Nat.le_of_not_lt fun hlt ↦ hfailed k hlt hk
  rw [hdefined, wellDefined_iff (hcount.trans hword), BitVec.lt_def]
  constructor
  · intro hfew
    rcases hstopped with ⟨-, hfound, -⟩ | ⟨-, hall⟩
    · exact Or.inr ⟨failures, hfew, hfound⟩
    · exact Or.inl (show ntries.toNat < 128 by omega)
  · rintro (hsmall | ⟨k, hk, hfound⟩)
    · have hsmall' : ntries.toNat < 128 := hsmall
      omega
    · exact (hfirst k hfound).trans hk

/-- With 128 tries and a lock that stays taken the last shift is by the width of the word. -/
theorem not_backOff_128 : ¬ BackOff 128#64 fun _ ↦ .noavle := by
  rintro ⟨status, pauses, hruns, -, hdefined⟩
  have hlong : (mcmchMonitorLockTryAcquire (fun _ ↦ .noavle) 128#64 129 0 0).map
      (fun result ↦ result.2.any fun pause ↦ decide (64 ≤ pause.shift)) = some true := by
    decide +kernel
  rw [hruns 129 (by decide)] at hlong
  obtain ⟨pause, hmem, hshift⟩ := List.any_eq_true.mp (Option.some.inj hlong)
  exact absurd (hdefined.shift_lt pause hmem) (Nat.not_lt.mpr (of_decide_eq_true hshift))

end Mcmp.Routines.MonitorBackOff
