import Mathlib.Data.List.Nodup
import Mathlib.Data.List.Range

/-!
# Ranges of cells in a ring

A ring of `length` cells is walked from cell `tail` up to, and not including, cell `head`, wrapping
from the last cell to cell zero. `cells` is the list of the cells on the way, and is empty when head
and tail are the same cell, so a range holds at most `length - 1` cells.

The two ways a range changes are those of a queue: the head moves past its cell, which appends the
cell to the list (`cells_next_head`), and the tail moves past its cell, which is the first of the
list (`cells_eq_cons`). Wrapping is stated by comparison; `mod_eq_next` gives the remainder form.
-/

set_option autoImplicit false
set_option relaxedAutoImplicit false

namespace Mcmp.Foundation.CyclicRange

variable {length tail head i k : ℕ}

/-- The cell after cell `i`. -/
def next (length i : ℕ) : ℕ := if i + 1 = length then 0 else i + 1

/-- The number of cells from `tail` up to `head`. -/
def span (length tail head : ℕ) : ℕ :=
  if tail ≤ head then head - tail else head + length - tail

/-- The cell `k` steps after `tail`. -/
def cellAt (length tail k : ℕ) : ℕ :=
  if tail + k < length then tail + k else tail + k - length

/-- The cells from `tail` up to `head`, in order. -/
def cells (length tail head : ℕ) : List ℕ :=
  (List.range (span length tail head)).map (cellAt length tail)

theorem mod_eq_next (hi : i < length) : (i + 1) % length = next length i := by
  unfold next
  split_ifs with h
  · rw [h, Nat.mod_self]
  · exact Nat.mod_eq_of_lt (by omega)

/-- Different numbers that are less than one turn of the ring apart have different cells. -/
theorem mod_ne_mod {first second : ℕ} (hlt : first < second) (hturn : second < first + length) :
    first % length ≠ second % length := by
  intro hsame
  have hdvd : length ∣ second - first :=
    Nat.dvd_of_mod_eq_zero (Nat.sub_mod_eq_zero_of_mod_eq hsame.symm)
  have hle := Nat.le_of_dvd (by omega) hdvd
  omega

theorem next_lt (hi : i < length) : next length i < length := by
  unfold next
  split_ifs <;> omega

@[simp] theorem length_cells : (cells length tail head).length = span length tail head := by
  simp [cells]

theorem span_lt (htail : tail < length) (hhead : head < length) :
    span length tail head < length := by
  unfold span
  split_ifs <;> omega

/-- The head moves one cell further from the tail, unless it meets it. -/
theorem span_next_head (htail : tail < length)
    (hne : next length head ≠ tail) :
    span length tail (next length head) = span length tail head + 1 := by
  unfold next at hne ⊢
  unfold span
  split_ifs at hne ⊢ <;> omega

/-- The tail moves one cell closer to the head, unless it is there. -/
theorem span_next_tail (htail : tail < length) (hhead : head < length) (hne : head ≠ tail) :
    span length tail head = span length (next length tail) head + 1 := by
  unfold span next
  split_ifs <;> omega

/-- The head is just before the tail when the range has as many cells as it can. -/
theorem next_head_eq_tail_iff (htail : tail < length) (hhead : head < length) :
    next length head = tail ↔ span length tail head + 1 = length := by
  unfold span next
  split_ifs <;> omega

theorem cellAt_zero (htail : tail < length) : cellAt length tail 0 = tail := by
  simp [cellAt, htail]

theorem cellAt_succ (hk : k + 1 < length) :
    cellAt length tail (k + 1) = cellAt length (next length tail) k := by
  unfold cellAt next
  split_ifs <;> omega

theorem cellAt_span (htail : tail < length) (hhead : head < length) :
    cellAt length tail (span length tail head) = head := by
  unfold cellAt span
  split_ifs <;> omega

theorem cellAt_injective {other : ℕ} (hk : k < length) (hother : other < length)
    (hcell : cellAt length tail k = cellAt length tail other) : k = other := by
  unfold cellAt at hcell
  split_ifs at hcell <;> omega

/-! ### The list of cells -/

@[simp] theorem cells_self : cells length tail tail = [] := by
  simp [cells, span]

/-- The head moves past its cell, which is then the last one of the range. -/
theorem cells_next_head (htail : tail < length) (hhead : head < length)
    (hne : next length head ≠ tail) :
    cells length tail (next length head) = cells length tail head ++ [head] := by
  rw [cells, span_next_head htail hne, List.range_succ, List.map_append, List.map_singleton,
    cellAt_span htail hhead, cells]

/-- The first cell of a range that is not empty is the tail, and the rest is the range from the cell
after it. -/
theorem cells_eq_cons (htail : tail < length) (hhead : head < length) (hne : head ≠ tail) :
    cells length tail head = tail :: cells length (next length tail) head := by
  have hspan := span_next_tail htail hhead hne
  have hlt := span_lt htail hhead
  rw [cells, hspan, List.range_succ_eq_map, List.map_cons, cellAt_zero htail, List.map_map, cells]
  congr 1
  apply List.map_congr_left
  intro k hk
  have hk' := List.mem_range.mp hk
  exact cellAt_succ (by omega)

theorem lt_of_mem_cells (htail : tail < length) (hhead : head < length)
    (hmem : i ∈ cells length tail head) : i < length := by
  obtain ⟨k, hk, rfl⟩ := List.mem_map.mp hmem
  have hlt := span_lt htail hhead
  have hk' := List.mem_range.mp hk
  unfold cellAt
  split_ifs <;> omega

theorem nodup_cells (htail : tail < length) (hhead : head < length) :
    (cells length tail head).Nodup := by
  have hlt := span_lt htail hhead
  refine List.Nodup.map_on (fun k hk other hother hcell ↦ ?_) List.nodup_range
  have hk' := List.mem_range.mp hk
  have hother' := List.mem_range.mp hother
  exact cellAt_injective (by omega) (by omega) hcell

/-- The head is not in the range. -/
theorem head_notMem_cells (htail : tail < length) (hhead : head < length) :
    head ∉ cells length tail head := by
  intro hmem
  obtain ⟨k, hk, hcell⟩ := List.mem_map.mp hmem
  have hlt := span_lt htail hhead
  have hk' := List.mem_range.mp hk
  have hspan := cellAt_injective (by omega) hlt (hcell.trans (cellAt_span htail hhead).symm)
  omega

theorem tail_mem_cells (htail : tail < length) (hhead : head < length) (hne : head ≠ tail) :
    tail ∈ cells length tail head := by
  rw [cells_eq_cons htail hhead hne]
  exact List.mem_cons_self

theorem tail_notMem_cells_next (htail : tail < length) (hhead : head < length)
    (hne : head ≠ tail) : tail ∉ cells length (next length tail) head := by
  have hnodup := nodup_cells htail hhead
  rw [cells_eq_cons htail hhead hne] at hnodup
  exact (List.nodup_cons.mp hnodup).1

end Mcmp.Foundation.CyclicRange
