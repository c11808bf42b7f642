import Mathlib.Data.Int.Notation
import Mathlib.Data.Nat.Notation

/-!
# Loops driven by a scan

A table with a bitmap is walked by a loop of the form

  `for (b = next(0); goesOn(b); b = next(b + 1)) body(b)`

where `next` looks for the first index at or after its argument that is sought, and `body` may
change the very table that `next` reads, or leave the loop. `scanLoop` is that loop, with fuel for
its iterations and no result when the fuel runs out.

`Scans` says what is asked of `next`: it returns the first index below `n` that is sought in the
state it is called in, and a value that the loop does not go on with when there is none. From it
alone, a loop with more fuel than indices to go ends, and does what `sweep` does
(`scanLoop_eq_sweep`): it takes the indices one at a time, and runs the body on those that are
sought when their turn comes. A body that leaves the later indices as they are makes this a walk
over the indices that were sought at the start (`sweep_eq_visit`), each once and in increasing
order.
-/

set_option autoImplicit false
set_option relaxedAutoImplicit false

namespace Mcmp.Foundation.ScanLoop

universe u v

/-- How an iteration ends: in the state that the loop goes on from, or by leaving the loop with a
result. -/
inductive Outcome (σ : Type u) (ρ : Type v)
  | next (state : σ)
  | stop (state : σ) (result : ρ)

section Loops

variable {σ : Type u} {ρ : Type v}

/-- The loop from a cursor on. It ends with the state it leaves behind, and with the result of the
iteration that left it, if one did. -/
def scanLoop (next : σ → ℕ → ℤ) (goesOn : ℤ → Bool) (body : σ → ℕ → Outcome σ ρ) :
    (fuel : ℕ) → σ → ℕ → Option (σ × Option ρ)
  | 0, _, _ => none
  | fuel + 1, state, cursor =>
    let b := next state cursor
    if goesOn b then
      match body state b.toNat with
      | .next state' => scanLoop next goesOn body fuel state' (b.toNat + 1)
      | .stop state' result => some (state', some result)
    else some (state, none)

/-- The walk over `count` indices from a cursor on, one at a time: the body runs on those that are
sought when their turn comes. -/
def sweep (sought : σ → ℕ → Bool) (body : σ → ℕ → Outcome σ ρ) :
    (count : ℕ) → σ → ℕ → σ × Option ρ
  | 0, state, _ => (state, none)
  | count + 1, state, cursor =>
    if sought state cursor then
      match body state cursor with
      | .next state' => sweep sought body count state' (cursor + 1)
      | .stop state' result => (state', some result)
    else sweep sought body count state (cursor + 1)

/-- The walk over a list of indices that is fixed from the start. -/
def visit (body : σ → ℕ → Outcome σ ρ) : List ℕ → σ → σ × Option ρ
  | [], state => (state, none)
  | index :: indices, state =>
    match body state index with
    | .next state' => visit body indices state'
    | .stop state' result => (state', some result)

/-! ### What the scan has to do -/

/-- The scan returns the first index of `[cursor, n)` that is sought in the state, and the loop goes
on with it; when there is none the loop does not go on. -/
def Scans (next : σ → ℕ → ℤ) (goesOn : ℤ → Bool) (sought : σ → ℕ → Bool) (n : ℕ) : Prop :=
  ∀ state cursor,
    (goesOn (next state cursor) = false ∧ ∀ i, cursor ≤ i → i < n → sought state i = false) ∨
    ∃ k : ℕ, next state cursor = k ∧ goesOn k = true ∧ cursor ≤ k ∧ k < n ∧
      sought state k = true ∧ ∀ i, cursor ≤ i → i < k → sought state i = false

/-! ### The loop takes the indices one at a time -/

variable {next : σ → ℕ → ℤ} {goesOn : ℤ → Bool} {sought : σ → ℕ → Bool}
  {body : σ → ℕ → Outcome σ ρ}

theorem sweep_skip {state : σ} (skipped : ℕ) (count : ℕ) :
    ∀ cursor, (∀ i, cursor ≤ i → i < cursor + skipped → sought state i = false) →
      sweep sought body (skipped + count) state cursor =
        sweep sought body count state (cursor + skipped) := by
  induction skipped with
  | zero =>
    intro cursor _
    rw [Nat.zero_add, Nat.add_zero]
  | succ skipped ih =>
    intro cursor hnone
    have hhere : sought state cursor = false := hnone cursor (Nat.le_refl _) (by omega)
    have hlater : ∀ i, cursor + 1 ≤ i → i < cursor + 1 + skipped → sought state i = false := by
      intro i hle hlt
      exact hnone i (by omega) (by omega)
    calc sweep sought body (skipped + 1 + count) state cursor
        = sweep sought body (skipped + count) state (cursor + 1) := by
          rw [show skipped + 1 + count = skipped + count + 1 by omega]
          simp [sweep, hhere]
      _ = sweep sought body count state (cursor + 1 + skipped) := ih (cursor + 1) hlater
      _ = sweep sought body count state (cursor + (skipped + 1)) := by
          rw [show cursor + 1 + skipped = cursor + (skipped + 1) by omega]

/-- A loop with more fuel than indices to go ends, and takes them one at a time. -/
theorem scanLoop_eq_sweep {n : ℕ} (hscans : Scans next goesOn sought n) (fuel : ℕ) :
    ∀ state cursor, n - cursor < fuel →
      scanLoop next goesOn body fuel state cursor =
        some (sweep sought body (n - cursor) state cursor) := by
  induction fuel with
  | zero =>
    intro state cursor hfuel
    exact absurd hfuel (Nat.not_lt_zero _)
  | succ fuel ih =>
    intro state cursor hfuel
    rcases hscans state cursor with ⟨hmissed, hnone⟩ | ⟨k, hfound, hgo, hle, hlt, hsought, hnone⟩
    · have hskip := @sweep_skip σ ρ sought body state (n - cursor) 0 cursor
        (fun i hi hi' ↦ hnone i hi (by omega))
      rw [Nat.add_zero] at hskip
      rw [hskip]
      simp [scanLoop, sweep, hmissed]
    · have hskip := @sweep_skip σ ρ sought body state (k - cursor) (n - (k + 1) + 1) cursor
        (fun i hi hi' ↦ hnone i hi (by omega))
      rw [show k - cursor + (n - (k + 1) + 1) = n - cursor by omega,
        show cursor + (k - cursor) = k by omega] at hskip
      rw [hskip]
      cases hbody : body state k with
      | next state' =>
        have hrest := ih state' (k + 1) (by omega)
        simp [scanLoop, sweep, hfound, hgo, hsought, hbody, hrest]
      | stop state' result =>
        simp [scanLoop, sweep, hfound, hgo, hsought, hbody]

/-! ### Bodies that leave the later indices alone -/

/-- A body that goes on leaves what is sought after its index as it was. -/
def KeepsLater (sought : σ → ℕ → Bool) (body : σ → ℕ → Outcome σ ρ) (n : ℕ) : Prop :=
  ∀ state i state', i < n → body state i = .next state' →
    ∀ j, i < j → sought state' j = sought state j

/-- Under such a body the walk goes over what was sought at its start. -/
theorem sweep_eq_visit {n : ℕ} (hkeeps : KeepsLater sought body n) (count : ℕ) :
    ∀ state cursor, cursor + count ≤ n →
      sweep sought body count state cursor =
        visit body ((List.range' cursor count).filter (sought state)) state := by
  induction count with
  | zero =>
    intro state cursor _
    rfl
  | succ count ih =>
    intro state cursor hcount
    rw [List.range'_succ, List.filter_cons]
    cases hsought : sought state cursor with
    | false => simp [sweep, hsought, ih state (cursor + 1) (by omega)]
    | true =>
      cases hbody : body state cursor with
      | stop state' result => simp [sweep, visit, hsought, hbody]
      | next state' =>
        have hsame : (List.range' (cursor + 1) count).filter (sought state') =
            (List.range' (cursor + 1) count).filter (sought state) := by
          apply List.filter_congr
          intro j hj
          have hlater := (List.mem_range'_1.mp hj).1
          exact hkeeps state cursor state' (by omega) hbody j (by omega)
        simp [sweep, visit, hsought, hbody, ih state' (cursor + 1) (by omega), hsame]

/-- The whole loop under such a body. -/
theorem scanLoop_eq_visit {n : ℕ} (hscans : Scans next goesOn sought n)
    (hkeeps : KeepsLater sought body n) (state : σ) {fuel : ℕ} (hfuel : n < fuel) :
    scanLoop next goesOn body fuel state 0 =
      some (visit body ((List.range n).filter (sought state)) state) := by
  rw [scanLoop_eq_sweep hscans fuel state 0 (by omega), sweep_eq_visit hkeeps _ _ _ (by omega),
    List.range_eq_range', Nat.sub_zero]

/-! ### Two kinds of bodies -/

/-- A body that never leaves the loop is folded over the list. -/
theorem visit_next (step : σ → ℕ → σ) (indices : List ℕ) :
    ∀ state, visit (fun s i ↦ (.next (step s i) : Outcome σ ρ)) indices state =
      (indices.foldl step state, none) := by
  induction indices with
  | nil =>
    intro state
    rfl
  | cons index indices ih =>
    intro state
    exact ih (step state index)

/-- A body that changes nothing and leaves the loop at an index it accepts finds the first such
index. -/
theorem visit_search (accepts : σ → ℕ → Prop) [∀ state, DecidablePred (accepts state)]
    (result : ℕ → ρ) (state : σ) (indices : List ℕ) :
    visit (fun s i ↦ if accepts s i then .stop s (result i) else .next s) indices state =
      (state, (indices.find? fun i ↦ accepts state i).map result) := by
  induction indices with
  | nil => rfl
  | cons index indices ih =>
    rw [List.find?_cons]
    by_cases haccepts : accepts state index
    · simp [visit, haccepts]
    · simpa [visit, haccepts] using ih

end Loops

end Mcmp.Foundation.ScanLoop
