import Mcmp.Utilities.BitmapScan

/-!
# A scanner one load at a time

The scanners of atomicbitmap.c as a thread executes them while other threads change the bitmap: a
step is one load together with the computation up to the next one. A scan that is under way knows
only the position of its next load (`ScanState`); the width of the load follows from the position,
because the four loops of a scanner run from the widest to the narrowest and a position never moves
back (`chunkWidth`).

`mcmpAtomicBitmapNextBit_steps` says that these are the scanners: stepping through the contents that
the loads find returns the index that the scanner returns for them. `scanStep_cases` is what one
step does.
-/

set_option autoImplicit false
set_option relaxedAutoImplicit false

namespace Mcmp.Utilities.BitmapScan

open Foundation.ByteBits

/-! ### The steps -/

/-- Where a scan is before a load: at the byte of the offset, or at a byte past it. -/
inductive ScanState
  | first (offset : ℕ)
  | chunk (i : ℕ)
  deriving DecidableEq, Repr

/-- What a scan has come to: another load, or its end with an index or without one. -/
inductive ScanResult
  | more (state : ScanState)
  | found (index : ℕ)
  | missed
  deriving DecidableEq, Repr

/-- The value that a scanner returns, when it has returned. -/
def ScanResult.returned : ScanResult → Option ℤ
  | more _ => none
  | found index => some (bitidx index)
  | missed => some (-1)

/-- The width of the load at a byte position past the offset. -/
def chunkWidth (len i : ℕ) : ℕ :=
  if i + 8 < len then 8 else if i + 4 < len then 4 else if i + 2 < len then 2 else 1

/-- The register that a load of a width is promoted to. -/
def chunkRegister (width : ℕ) : ℕ := if width = 8 then 64 else 32

/-- A scan that has come to a byte position past the offset. -/
def scanAt (len i : ℕ) : ScanResult := if i < len then .more (.chunk i) else .missed

/-- A scan that starts at an offset. -/
def startScan (offset len : ℕ) : ScanResult :=
  if offset / 8 ≥ len then .missed else .more (.first offset)

/-- One load of a scan. -/
def scanStep (selection : Selection) (register len : ℕ) (bitmap : ByteMemory) :
    ScanState → ScanResult
  | .first offset =>
    let i := offset / 8
    let selected := selection.first (bitmap i) (offset % 8)
    if selected ≠ 0 then .found (i * 8 + (selected.setWidth register).ctz.toNat)
    else scanAt len (i + 1)
  | .chunk i =>
    let width := chunkWidth len i
    let selected := selection.chunk (chunkAt bitmap i width)
    if selected ≠ 0 then .found (i * 8 + (selected.setWidth (chunkRegister width)).ctz.toNat)
    else scanAt len (i + width)

section Steps

variable {selection : Selection} {contents : ℕ → ByteMemory} {register offset len : ℕ}

/-- A scan that comes to an end when its loads, from number `n` on, find some contents. -/
inductive Scans (selection : Selection) (register len : ℕ) (contents : ℕ → ByteMemory) :
    ℕ → ScanResult → ScanResult → Prop
  | found (n index : ℕ) : Scans selection register len contents n (.found index) (.found index)
  | missed (n : ℕ) : Scans selection register len contents n .missed .missed
  | load {n : ℕ} {state : ScanState} {final : ScanResult} :
      Scans selection register len contents (n + 1)
        (scanStep selection register len (contents n) state) final →
      Scans selection register len contents n (.more state) final

/-! ### The steps are those of the scanners -/

/-- A loop of a scanner is followed by the small steps: an index that it returns is found, and
where it stops the steps go on. -/
def Follows (selection : Selection) (register len : ℕ) (contents : ℕ → ByteMemory) (n : ℕ)
    (start : ScanResult) : Progress → Prop
  | .returned index _ => Scans selection register len contents n start (.found index)
  | .position i loads => ∀ final,
      Scans selection register len contents loads.length (scanAt len i) final →
      Scans selection register len contents n start final

theorem Follows.of_imp {n n' : ℕ} {start start' : ScanResult} {progress : Progress}
    (hprogress : Follows selection register len contents n' start' progress)
    (himp : ∀ final, Scans selection register len contents n' start' final →
      Scans selection register len contents n start final) :
    Follows selection register len contents n start progress := by
  cases progress with
  | returned index loads => exact himp _ hprogress
  | position i loads => exact fun final hfinal ↦ himp final (hprogress final hfinal)

/-- The next loop is followed from where the one before it stops. -/
theorem Follows.next {n : ℕ} {start : ScanResult} {progress : Progress}
    {loop : ℕ → List Load → Progress}
    (hprogress : Follows selection register len contents n start progress)
    (hloop : ∀ i loads, progress = .position i loads →
      Follows selection register len contents loads.length (scanAt len i) (loop i loads)) :
    Follows selection register len contents n start (progress.next loop) := by
  cases progress with
  | returned index loads => exact hprogress
  | position i loads => exact (hloop i loads rfl).of_imp hprogress

/-- The step at a chunk, for the width of its load. -/
theorem scanStep_chunk (selection : Selection) (register : ℕ) (bitmap : ByteMemory) {i width : ℕ}
    (hwidth : chunkWidth len i = width) :
    scanStep selection register len bitmap (.chunk i) =
      if selection.chunk (chunkAt bitmap i width) ≠ 0 then
        .found (i * 8 +
          ((selection.chunk (chunkAt bitmap i width)).setWidth (chunkRegister width)).ctz.toNat)
      else scanAt len (i + width) := by
  subst hwidth
  rfl

/-- A loop is followed where the width of a step is the width of the loop. -/
theorem chunkLoop_follows {width slack : ℕ} (fuel : ℕ) :
    ∀ {i : ℕ} {loads : List Load},
      (∀ j, i ≤ j → j + slack < len → chunkWidth len j = width) →
      Follows selection register len contents loads.length (scanAt len i)
        (chunkLoop selection contents len width slack (chunkRegister width) fuel i loads) := by
  induction fuel with
  | zero => exact fun _ final hfinal ↦ hfinal
  | succ fuel ih =>
    intro i loads hwidth
    by_cases hbound : i + slack < len
    · have hstate : scanAt len i = .more (.chunk i) := if_pos (by omega)
      have hstep := scanStep_chunk selection register (contents loads.length)
        (hwidth i le_rfl hbound)
      rw [hstate]
      by_cases hne : selection.chunk (chunkAt (contents loads.length) i width) ≠ 0
      · have hloop : chunkLoop selection contents len width slack (chunkRegister width) (fuel + 1) i
            loads = .returned (i * 8 + ((selection.chunk
              (chunkAt (contents loads.length) i width)).setWidth (chunkRegister width)).ctz.toNat)
              (loads ++ [⟨i, width⟩]) := by
          simp only [chunkLoop, if_pos hbound, if_pos hne]
        rw [hloop]
        apply Scans.load
        rw [hstep, if_pos hne]
        exact .found _ _
      · have hloop : chunkLoop selection contents len width slack (chunkRegister width) (fuel + 1) i
            loads = chunkLoop selection contents len width slack (chunkRegister width) fuel
              (i + width) (loads ++ [⟨i, width⟩]) := by
          simp only [chunkLoop, if_pos hbound, if_neg hne]
        rw [hloop]
        have hrest : Follows selection register len contents (loads ++ [(⟨i, width⟩ : Load)]).length
            (scanAt len (i + width)) (chunkLoop selection contents len width slack
              (chunkRegister width) fuel (i + width) (loads ++ [⟨i, width⟩])) :=
          ih fun j hj ↦ hwidth j (by omega)
        refine hrest.of_imp fun final hfinal ↦ .load ?_
        rw [hstep, if_neg hne]
        rwa [List.length_append] at hfinal
    · have hstop : chunkLoop selection contents len width slack (chunkRegister width) (fuel + 1) i
          loads = .position i loads := by
        simp only [chunkLoop, if_neg hbound]
      rw [hstop]
      exact fun final hfinal ↦ hfinal

/-- Loops that stop have stopped one after the other. -/
theorem position_of_next {progress : Progress} {loop : ℕ → List Load → Progress} {i : ℕ}
    {loads : List Load} (hstop : progress.next loop = .position i loads) :
    ∃ i' loads', loop i' loads' = .position i loads := by
  cases progress with
  | returned index loads' => cases hstop
  | position i' loads' => exact ⟨i', loads', hstop⟩

/-- The loops of a scanner are followed from a position past the offset. -/
theorem chunkLoops_follows (i : ℕ) (loads : List Load) :
    Follows selection register len contents loads.length (scanAt len i)
      (chunkLoops selection contents len i loads) := by
  have hlong : Follows selection register len contents loads.length (scanAt len i)
      (chunkLoop selection contents len 8 8 (chunkRegister 8) len i loads) :=
    chunkLoop_follows len fun j _ hj ↦ if_pos hj
  have hword : Follows selection register len contents loads.length (scanAt len i)
      ((chunkLoop selection contents len 8 8 (chunkRegister 8) len i loads).next
        (chunkLoop selection contents len 4 4 (chunkRegister 4) len)) := by
    refine hlong.next fun i₈ loads₈ hstop ↦ chunkLoop_follows len fun j hle hj ↦ ?_
    have hpast := len_le_of_chunkLoop_position (by omega) len (by omega) hstop
    rw [chunkWidth, if_neg (by omega), if_pos hj]
  have hshort : Follows selection register len contents loads.length (scanAt len i)
      (((chunkLoop selection contents len 8 8 (chunkRegister 8) len i loads).next
        (chunkLoop selection contents len 4 4 (chunkRegister 4) len)).next
        (chunkLoop selection contents len 2 2 (chunkRegister 2) len)) := by
    refine hword.next fun i₄ loads₄ hstop ↦ chunkLoop_follows len fun j hle hj ↦ ?_
    obtain ⟨_, _, hstop⟩ := position_of_next hstop
    have hpast := len_le_of_chunkLoop_position (by omega) len (by omega) hstop
    rw [chunkWidth, if_neg (by omega), if_neg (by omega), if_pos hj]
  apply hshort.next
  intro i₂ loads₂ hstop
  apply chunkLoop_follows len
  intro j hle hj
  obtain ⟨_, _, hstop⟩ := position_of_next hstop
  have hpast := len_le_of_chunkLoop_position (by omega) len (by omega) hstop
  rw [chunkWidth, if_neg (by omega), if_neg (by omega), if_neg (by omega)]

/-- Stepping through the contents that the loads find ends with what the scanner returns for
them. -/
theorem nextBit_steps (selection : Selection) (register : ℕ) (contents : ℕ → ByteMemory)
    (offset len : ℕ) :
    ∃ final, Scans selection register len contents 0 (startScan offset len) final ∧
      final.returned = some (nextBit selection register contents offset len).result := by
  by_cases hpast : offset / 8 ≥ len
  · have hstart : startScan offset len = .missed := if_pos hpast
    have hscan : nextBit selection register contents offset len = ⟨-1, []⟩ := by
      simp only [nextBit, if_pos hpast]
    rw [hstart, hscan]
    exact ⟨.missed, .missed 0, rfl⟩
  · have hstart : startScan offset len = .more (.first offset) := if_neg hpast
    rw [hstart]
    by_cases hne : selection.first (contents 0 (offset / 8)) (offset % 8) ≠ 0
    · have hstep : scanStep selection register len (contents 0) (.first offset) =
          .found (offset / 8 * 8 + ((selection.first (contents 0 (offset / 8))
            (offset % 8)).setWidth register).ctz.toNat) := by
        simp only [scanStep, if_pos hne]
      have hscan : (nextBit selection register contents offset len).result =
          bitidx (offset / 8 * 8 + ((selection.first (contents 0 (offset / 8))
            (offset % 8)).setWidth register).ctz.toNat) := by
        simp only [nextBit, if_neg hpast, if_pos hne]
      refine ⟨scanStep selection register len (contents 0) (.first offset), .load ?_, ?_⟩
      · rw [hstep]
        exact .found _ _
      · rw [hstep, hscan, ScanResult.returned]
    · have hstep : scanStep selection register len (contents 0) (.first offset) =
          scanAt len (offset / 8 + 1) := by
        simp only [scanStep, if_neg hne]
      have hloops : Follows selection register len contents 1 (scanAt len (offset / 8 + 1))
          (chunkLoops selection contents len (offset / 8 + 1) [⟨offset / 8, 1⟩]) :=
        chunkLoops_follows (offset / 8 + 1) [⟨offset / 8, 1⟩]
      cases hresult : chunkLoops selection contents len (offset / 8 + 1) [⟨offset / 8, 1⟩] with
      | returned index loads =>
        rw [hresult] at hloops
        have hscan : (nextBit selection register contents offset len).result = bitidx index := by
          simp only [nextBit, if_neg hpast, if_neg hne, hresult]
        refine ⟨.found index, .load ?_, ?_⟩
        · rw [hstep]
          exact hloops
        · rw [hscan, ScanResult.returned]
      | position stop loads =>
        rw [hresult] at hloops
        have hscan : (nextBit selection register contents offset len).result = -1 := by
          simp only [nextBit, if_neg hpast, if_neg hne, hresult]
        have hstop : scanAt len stop = .missed :=
          if_neg (not_lt.mpr (len_le_of_chunkLoops_position hresult))
        refine ⟨.missed, .load ?_, ?_⟩
        · rw [hstep]
          apply hloops .missed
          rw [hstop]
          exact .missed _
        · rw [hscan, ScanResult.returned]

/-- The steps are those of the two scanners of atomicbitmap.c, with their registers. -/
theorem mcmpAtomicBitmapNextBit_steps (contents : ℕ → ByteMemory) (offset len : ℕ) :
    (∃ final, Scans avaible 64 len contents 0 (startScan offset len) final ∧
        final.returned = some (mcmpAtomicBitmapNextAvaibleBit contents offset len).result) ∧
      ∃ final, Scans occupied 32 len contents 0 (startScan offset len) final ∧
        final.returned = some (mcmpAtomicBitmapNextOccupiedBit contents offset len).result :=
  ⟨nextBit_steps avaible 64 contents offset len, nextBit_steps occupied 32 contents offset len⟩

/-! ### What one step does -/

/-- The first bit that the next load of a scan is about. -/
def ScanState.position : ScanState → ℕ
  | first offset => offset
  | chunk i => 8 * i

/-- The byte behind the next load of a scan. -/
def ScanState.next (len : ℕ) : ScanState → ℕ
  | first offset => offset / 8 + 1
  | chunk i => i + chunkWidth len i

/-- A selected word that is not zero finds the first bit sought from the offset on. -/
theorem Selects.found {bitmap : ByteMemory} (width : ℕ) {word : BitVec (8 * width)}
    (hword : Selects selection bitmap offset (offset / 8) word) (hregister : 8 * width ≤ register)
    (hne : word ≠ 0) :
    ∃ k, offset / 8 * 8 + (word.setWidth register).ctz.toNat = k ∧ offset ≤ k ∧
      k < 8 * (offset / 8 + width) ∧ bit bitmap k = selection.sought ∧
      ∀ j, offset ≤ j → j < k → bit bitmap j = !selection.sought := by
  have hswept : Swept selection (fun _ ↦ bitmap) offset (offset / 8 + width) [] (offset / 8) :=
    swept_nil
  have hhit := hswept.hit_of_word le_rfl hregister hword hne
  refine ⟨_, rfl, hhit.lower, hhit.upper, ?_, fun j hoffset hj ↦ ?_⟩
  · obtain ⟨n, hread, -⟩ := hhit.once _ hhit.lower le_rfl
    exact hhit.found n hread
  · obtain ⟨n, hread, -⟩ := hhit.once j hoffset hj.le
    exact hhit.missed j hoffset hj n hread

/-- One load of a scan finds the first bit sought among those that it reads, or moves on behind
them. -/
theorem scanStep_next (selection : Selection) {register : ℕ} (hregister : 8 ≤ register) (len : ℕ)
    (bitmap : ByteMemory) (state : ScanState) :
    (∃ k, scanStep selection register len bitmap state = .found k ∧ state.position ≤ k ∧
        k < 8 * state.next len ∧ bit bitmap k = selection.sought ∧
        ∀ j, state.position ≤ j → j < k → bit bitmap j = !selection.sought) ∨
      scanStep selection register len bitmap state = scanAt len (state.next len) ∧
        ∀ j, state.position ≤ j → j < 8 * state.next len → bit bitmap j = !selection.sought := by
  cases state with
  | first offset =>
    have hselects : Selects selection bitmap offset (offset / 8)
        (selection.first (bitmap (offset / 8)) (offset % 8)) := selects_first bitmap
    by_cases hne : selection.first (bitmap (offset / 8)) (offset % 8) ≠ 0
    · obtain ⟨k, hk, hfound⟩ := Selects.found 1 hselects hregister hne
      refine Or.inl ⟨k, ?_, hfound⟩
      rw [← hk]
      simp only [scanStep, if_pos hne]
    · refine Or.inr ⟨?_, fun j hoffset hj ↦ ?_⟩
      · simp only [scanStep, if_neg hne, ScanState.next]
      · have hle : offset ≤ j := hoffset
        have hlt : j < 8 * (offset / 8 + 1) := hj
        exact hselects.missed (not_not.mp hne) hle (by omega) (by omega)
  | chunk i =>
    have hselects : Selects selection bitmap (8 * i) i
        (selection.chunk (chunkAt bitmap i (chunkWidth len i))) := selects_chunk bitmap le_rfl
    have hdiv : 8 * i / 8 = i := by omega
    by_cases hne : selection.chunk (chunkAt bitmap i (chunkWidth len i)) ≠ 0
    · have hwidth : 8 * chunkWidth len i ≤ chunkRegister (chunkWidth len i) := by
        unfold chunkWidth chunkRegister
        split_ifs <;> omega
      have hselects' : Selects selection bitmap (8 * i) (8 * i / 8)
          (selection.chunk (chunkAt bitmap i (chunkWidth len i))) := by
        rwa [hdiv]
      obtain ⟨k, hk, hlower, hupper, hfound⟩ := hselects'.found _ hwidth hne
      rw [hdiv] at hk hupper
      refine Or.inl ⟨k, ?_, hlower, hupper, hfound⟩
      rw [← hk]
      simp only [scanStep, if_pos hne]
    · refine Or.inr ⟨?_, fun j hoffset hj ↦ ?_⟩
      · simp only [scanStep, if_neg hne, ScanState.next]
      · have hlt : j < 8 * (i + chunkWidth len i) := hj
        exact hselects.missed (not_not.mp hne) hoffset hoffset (by omega)

/-- One load of a scan finds the first bit sought from its position on, or moves the position past
bits that were not sought when they were read. -/
theorem scanStep_cases (selection : Selection) {register : ℕ} (hregister : 8 ≤ register) (len : ℕ)
    (bitmap : ByteMemory) (state : ScanState) :
    (∃ k, scanStep selection register len bitmap state = .found k ∧ state.position ≤ k ∧
        bit bitmap k = selection.sought ∧
        ∀ j, state.position ≤ j → j < k → bit bitmap j = !selection.sought) ∨
      ∃ i, scanStep selection register len bitmap state = scanAt len i ∧
        ∀ j, state.position ≤ j → j < 8 * i → bit bitmap j = !selection.sought := by
  rcases scanStep_next selection hregister len bitmap state with
    ⟨k, hfound, hlower, -, hsought, hmissed⟩ | ⟨hscan, hmissed⟩
  · exact Or.inl ⟨k, hfound, hlower, hsought, hmissed⟩
  · exact Or.inr ⟨state.next len, hscan, hmissed⟩

/-- The next load of a scan reads bytes of the bitmap. -/
def ScanState.Within (len : ℕ) : ScanState → Prop
  | first offset => offset / 8 < len
  | chunk i => i < len

theorem ScanState.within_of_scanAt {i : ℕ} {state : ScanState}
    (hstate : scanAt len i = .more state) : state.Within len := by
  unfold scanAt at hstate
  split at hstate
  case isTrue hlt =>
    cases hstate
    exact hlt
  case isFalse => cases hstate

theorem ScanState.Within.next_le {state : ScanState} (hstate : state.Within len) :
    state.next len ≤ len := by
  cases state with
  | first offset => exact hstate
  | chunk i =>
    have hbyte : i < len := hstate
    have hnext : i + chunkWidth len i ≤ len := by
      unfold chunkWidth
      split_ifs <;> omega
    exact hnext

theorem scanAt_ne_found (len i k : ℕ) : scanAt len i ≠ .found k := by
  unfold scanAt
  split <;> simp

/-- A scan that reads bytes of the bitmap finds bits of the bitmap. -/
theorem ScanState.Within.found_lt {state : ScanState} (hstate : state.Within len)
    (hregister : 8 ≤ register) {bitmap : ByteMemory} {k : ℕ}
    (hfound : scanStep selection register len bitmap state = .found k) : k < 8 * len := by
  rcases scanStep_next selection hregister len bitmap state with
    ⟨k', hfound', -, hupper, -⟩ | ⟨hscan, -⟩
  · obtain rfl := ScanResult.found.inj (hfound'.symm.trans hfound)
    exact hupper.trans_le (Nat.mul_le_mul_left 8 hstate.next_le)
  · exact absurd (hscan.symm.trans hfound) (scanAt_ne_found _ _ _)

theorem ScanState.within_of_startScan {state : ScanState}
    (hstate : startScan offset len = .more state) : state.Within len := by
  unfold startScan at hstate
  split at hstate
  case isTrue => cases hstate
  case isFalse hlt =>
    cases hstate
    exact not_le.mp hlt

/-- The states behind a load read bytes of the bitmap. -/
theorem ScanState.within_of_scanStep {bitmap : ByteMemory} {state state' : ScanState}
    (hstep : scanStep selection register len bitmap state = .more state') : state'.Within len := by
  cases state with
  | first offset =>
    simp only [scanStep] at hstep
    split at hstep
    case isTrue => cases hstep
    case isFalse => exact within_of_scanAt hstep
  | chunk i =>
    simp only [scanStep] at hstep
    split at hstep
    case isTrue => cases hstep
    case isFalse => exact within_of_scanAt hstep

/-- A scan that reads bytes of the bitmap depends on these alone. -/
theorem ScanState.Within.scanStep_eq {state : ScanState} (hstate : state.Within len)
    {bitmap bitmap' : ByteMemory} (hsame : ∀ i < len, bitmap i = bitmap' i) :
    scanStep selection register len bitmap state =
      scanStep selection register len bitmap' state := by
  cases state with
  | first offset => rw [scanStep, scanStep, hsame (offset / 8) hstate]
  | chunk i =>
    have hnext : i + chunkWidth len i ≤ len := hstate.next_le
    have hchunk : chunkAt bitmap i (chunkWidth len i) = chunkAt bitmap' i (chunkWidth len i) :=
      chunkAt_congr _ fun j _ hj ↦ hsame j (hj.trans_le hnext)
    rw [scanStep, scanStep, hchunk]

/-! ### Bitmaps that agree below a length -/

/-- A scan has left the bits below a length. -/
def ScanResult.Beyond (length : ℕ) : ScanResult → Prop
  | more _ => False
  | found index => length ≤ index
  | missed => True

/-- The result of a load depends on the bits below the length alone, where the bitmap has no byte
behind the one with the last of them. -/
theorem scanStep_congr {length : ℕ} (hlen : len = (length + 7) / 8) (hregister : 8 ≤ register)
    {first second : ByteMemory} (hagree : ∀ j < length, bit first j = bit second j)
    (state : ScanState) :
    scanStep selection register len first state = scanStep selection register len second state ∨
      (scanStep selection register len first state).Beyond length ∧
        (scanStep selection register len second state).Beyond length := by
  have hfirst := scanStep_next selection hregister len first state
  have hsecond := scanStep_next selection hregister len second state
  have hlast : state.next len < len ∨ scanAt len (state.next len) = .missed := by
    rw [scanAt]
    by_cases hmore : state.next len < len
    · exact Or.inl hmore
    · exact Or.inr (if_neg hmore)
  rcases hfirst with ⟨k, hk, hlower, hupper, hsought, hmissed⟩ | ⟨hscan, hmissed⟩ <;>
    rcases hsecond with ⟨k', hk', hlower', hupper', hsought', hmissed'⟩ | ⟨hscan', hmissed'⟩
  · -- two bits found: they are the same one, or none of the two is below the length
    rw [hk, hk']
    by_cases hinside : k < length ∨ k' < length
    · left
      rcases Nat.lt_trichotomy k k' with hlt | heq | hlt
      · have hbit := hmissed' k hlower hlt
        rw [← hagree k (by omega), hsought] at hbit
        simp at hbit
      · rw [heq]
      · have hbit := hmissed k' hlower' hlt
        rw [hagree k' (by omega), hsought'] at hbit
        simp at hbit
    · rw [not_or] at hinside
      exact Or.inr ⟨not_lt.mp hinside.1, not_lt.mp hinside.2⟩
  · rw [hk, hscan']
    have hout : length ≤ k := by
      by_contra hinside
      have hbit := hmissed' k hlower hupper
      rw [← hagree k (not_le.mp hinside), hsought] at hbit
      simp at hbit
    rcases hlast with hmore | hend
    · omega
    · rw [hend]
      exact Or.inr ⟨hout, trivial⟩
  · rw [hscan, hk']
    have hout : length ≤ k' := by
      by_contra hinside
      have hbit := hmissed k' hlower' hupper'
      rw [hagree k' (not_le.mp hinside), hsought'] at hbit
      simp at hbit
    rcases hlast with hmore | hend
    · omega
    · rw [hend]
      exact Or.inr ⟨trivial, hout⟩
  · exact Or.inl (hscan.trans hscan'.symm)

end Steps

end Mcmp.Utilities.BitmapScan
