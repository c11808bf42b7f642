import Mcmp.Foundation.ScanLoop
import Mcmp.Utilities.BitmapScan

/-!
# Loops over the bits of a bitmap

The users of a bitmap walk it by calling a scanner again and again, from the bit behind the one that
they have just treated. This module gives such loops their meaning. The scanner is restarted in the
middle of a byte that the body may have changed, and at the end it is started at bit `8 * len`,
where no byte is left; `scans_occupied` and `scans_below` say that it does find the next bit there,
so that the rules of `Foundation.ScanLoop` apply.
-/

set_option autoImplicit false
set_option relaxedAutoImplicit false

namespace Mcmp.Utilities.BitmapLoop

open Foundation.ByteBits Foundation.ScanLoop BitmapScan

universe u v

variable {σ : Type u} {ρ : Type v}

/-- `for (b = mcmpBitmapNextOccupiedBit(bitmap, 0, len); b != -1;
b = mcmpBitmapNextOccupiedBit(bitmap, b + 1, len))`, with a body that may change the bitmap or leave
the loop. -/
def forOccupied (bitmap : σ → ByteMemory) (len : ℕ) (body : σ → ℕ → Outcome σ ρ) (fuel : ℕ)
    (state : σ) : Option (σ × Option ρ) :=
  scanLoop (fun state offset ↦ (mcmpBitmapNextOccupiedBit (bitmap state) offset len).result)
    (fun b ↦ b != -1) body fuel state 0

/-- The set bits of a bitmap of `len` bytes, in increasing order. -/
def occupiedBits (bitmap : ByteMemory) (len : ℕ) : List ℕ :=
  (List.range (8 * len)).filter (bit bitmap)

theorem mem_occupiedBits {bitmap : ByteMemory} {len i : ℕ} :
    i ∈ occupiedBits bitmap len ↔ i < 8 * len ∧ bit bitmap i = true := by
  rw [occupiedBits, List.mem_filter, List.mem_range]

variable {bitmap : σ → ByteMemory} {len fuel : ℕ}

theorem scans_occupied (bitmap : σ → ByteMemory) (hlen : 8 * len < 2 ^ 63) :
    Scans (fun state offset ↦ (mcmpBitmapNextOccupiedBit (bitmap state) offset len).result)
      (fun b ↦ b != -1) (fun state ↦ bit (bitmap state)) (8 * len) := by
  intro state offset
  rcases nextBit_cases occupied (bitmap state) offset (show 8 ≤ 32 by decide) hlen with
    ⟨hresult, hnone⟩ | ⟨k, hresult, hoffset, hlt, hset, hnone⟩
  · refine Or.inl ⟨?_, hnone⟩
    show ((mcmpBitmapNextOccupiedBit (bitmap state) offset len).result != -1) = false
    rw [mcmpBitmapNextOccupiedBit, hresult]
    rfl
  · refine Or.inr ⟨k, hresult, ?_, hoffset, hlt, hset, hnone⟩
    have hne : (k : ℤ) ≠ -1 := by omega
    simp [hne]

/-- A loop whose body leaves the later bits alone ends, and walks over the bits that were set at its
start. -/
theorem forOccupied_eq_visit {body : σ → ℕ → Outcome σ ρ} (hlen : 8 * len < 2 ^ 63)
    (hkeeps : KeepsLater (fun state ↦ bit (bitmap state)) body (8 * len))
    (hfuel : 8 * len < fuel) (state : σ) :
    forOccupied bitmap len body fuel state =
      some (visit body (occupiedBits (bitmap state) len) state) :=
  scanLoop_eq_visit (scans_occupied bitmap hlen) hkeeps state hfuel

/-- A loop that its body never leaves folds the body over the bits that were set at its start. -/
theorem forOccupied_next {step : σ → ℕ → σ} (hlen : 8 * len < 2 ^ 63)
    (hkeeps : ∀ state b i, b < 8 * len → b < i →
      bit (bitmap (step state b)) i = bit (bitmap state) i)
    (hfuel : 8 * len < fuel) (state : σ) :
    forOccupied bitmap len (fun s b ↦ (.next (step s b) : Outcome σ ρ)) fuel state =
      some ((occupiedBits (bitmap state) len).foldl step state, none) := by
  rw [forOccupied_eq_visit hlen _ hfuel, visit_next]
  intro state b state' hb hbody i hi
  obtain rfl := Outcome.next.inj hbody
  exact hkeeps state b i hb hi

/-! ### Loops that stop at a length -/

/-- The condition `b != -1 && b < length`, which compares as `size_t`. -/
def goesOnBelow (length : ℕ) (b : ℤ) : Bool := b != -1 && decide (b % 2 ^ 64 < length)

theorem goesOnBelow_natCast {length k : ℕ} (hk : k < 2 ^ 64) :
    goesOnBelow length k = decide (k < length) := by
  have hword : (k : ℤ) % 2 ^ 64 = k := by omega
  have hne : (k : ℤ) ≠ -1 := by omega
  rw [goesOnBelow, hword]
  simp [hne]

/-- `for (b = mcmpAtomicBitmapNextOccupiedBit(bitmap, 0, len); b != -1 && b < length;
b = mcmpAtomicBitmapNextOccupiedBit(bitmap, b + 1, len))`, while no other thread moves. -/
def forOccupiedBelow (bitmap : σ → ByteMemory) (len length : ℕ) (body : σ → ℕ → Outcome σ ρ)
    (fuel : ℕ) (state : σ) : Option (σ × Option ρ) :=
  scanLoop
    (fun state offset ↦ (mcmpAtomicBitmapNextOccupiedBit (fun _ ↦ bitmap state) offset len).result)
    (goesOnBelow length) body fuel state 0

/-- `for (b = mcmpAtomicBitmapNextAvaibleBit(bitmap, 0, len); b != -1 && b < length;
b = mcmpAtomicBitmapNextAvaibleBit(bitmap, b + 1, len))`, while no other thread moves. -/
def forAvaibleBelow (bitmap : σ → ByteMemory) (len length : ℕ) (body : σ → ℕ → Outcome σ ρ)
    (fuel : ℕ) (state : σ) : Option (σ × Option ρ) :=
  scanLoop
    (fun state offset ↦ (mcmpAtomicBitmapNextAvaibleBit (fun _ ↦ bitmap state) offset len).result)
    (goesOnBelow length) body fuel state 0

/-- A loop that stops at a length within the bitmap goes over the bits below the length. -/
theorem scans_below (selection : Selection) {register length : ℕ} (hregister : 8 ≤ register)
    (bitmap : σ → ByteMemory) (hlen : 8 * len < 2 ^ 63) (hlength : length ≤ 8 * len) :
    Scans (fun state offset ↦ (nextBit selection register (fun _ ↦ bitmap state) offset len).result)
      (goesOnBelow length) (fun state i ↦ bit (bitmap state) i == selection.sought) length := by
  intro state offset
  dsimp only
  rcases nextBit_cases selection (bitmap state) offset hregister hlen with
    ⟨hresult, hnone⟩ | ⟨k, hresult, hoffset, hlt, hsought, hnone⟩
  · rw [hresult]
    exact Or.inl ⟨rfl, fun i hi hi' ↦ by simp [hnone i hi (by omega)]⟩
  · have hgo : goesOnBelow length k = decide (k < length) := goesOnBelow_natCast (by omega)
    rw [hresult, hgo]
    by_cases hk : k < length
    · refine Or.inr ⟨k, rfl, by simp [hgo, hk], hoffset, hk, by simp [hsought], fun i hi hi' ↦ ?_⟩
      simp [hnone i hi hi']
    · refine Or.inl ⟨by simp [hk], fun i hi hi' ↦ ?_⟩
      simp [hnone i hi (by omega)]

end Mcmp.Utilities.BitmapLoop
