import Mathlib.Data.Set.Insert
import Mathlib.Order.BooleanAlgebra.Set
import Mathlib.Logic.Function.Basic

/-!
# Values with one holder each

Every holder has at most one value in its hands, and no value is in the hands of two holders. The
values that are held form a set, and `Exclusive` ties that set to the hands: a set kept in shared
memory, a bitmap say, is then known to be exactly the set of what the parties of a protocol hold.

A protocol step takes up a value that nobody holds (`Exclusive.acquire`), lets one go
(`Exclusive.release`), or hands one on (`Exclusive.pass`).
-/

set_option autoImplicit false
set_option relaxedAutoImplicit false

namespace Mcmp.Foundation.ExclusiveHolders

variable {Holder Value : Type*}

/-- The held values are the values of a set, and each of them has one holder. -/
structure Exclusive (holding : Holder → Option Value) (held : Set Value) : Prop where
  injective : ∀ {a b value}, holding a = some value → holding b = some value → a = b
  mem_iff : ∀ value, value ∈ held ↔ ∃ a, holding a = some value

namespace Exclusive

variable {holding : Holder → Option Value} {held : Set Value} {a b : Holder} {value : Value}

theorem mem (h : Exclusive holding held) (ha : holding a = some value) : value ∈ held :=
  (h.mem_iff value).mpr ⟨a, ha⟩

/-- When nobody holds anything the held set is empty. -/
theorem of_none (hnone : ∀ a, holding a = none) : Exclusive holding (∅ : Set Value) where
  injective ha := by simp [hnone] at ha
  mem_iff value := by simp [hnone]

theorem eq_empty_of_none (h : Exclusive holding held) (hnone : ∀ a, holding a = none) :
    held = ∅ := by
  apply Set.eq_empty_of_forall_notMem
  intro value hvalue
  obtain ⟨a, ha⟩ := (h.mem_iff value).mp hvalue
  simp [hnone] at ha

variable [DecidableEq Holder]

/-- A holder with empty hands takes up a value that nobody holds. -/
theorem acquire (h : Exclusive holding held) (ha : holding a = none) (hvalue : value ∉ held) :
    Exclusive (Function.update holding a (some value)) (insert value held) where
  injective {b c x} hb hc := by
    have hfree : ∀ b, holding b ≠ some value := fun b hb ↦ hvalue (h.mem hb)
    rcases eq_or_ne b a with rfl | hba <;> rcases eq_or_ne c b with rfl | hcb
    · rfl
    · rw [Function.update_self, Option.some.injEq] at hb
      rw [Function.update_of_ne hcb, ← hb] at hc
      exact absurd hc (hfree c)
    · rfl
    · rw [Function.update_of_ne hba] at hb
      rcases eq_or_ne c a with rfl | hca
      · rw [Function.update_self, Option.some.injEq] at hc
        exact absurd (hc ▸ hb) (hfree b)
      · rw [Function.update_of_ne hca] at hc
        exact h.injective hb hc
  mem_iff x := by
    rw [Set.mem_insert_iff, h.mem_iff]
    constructor
    · rintro (rfl | ⟨b, hb⟩)
      · exact ⟨a, Function.update_self _ _ _⟩
      · have hba : b ≠ a := fun hba ↦ by simp [hba, ha] at hb
        exact ⟨b, by rw [Function.update_of_ne hba, hb]⟩
    · rintro ⟨b, hb⟩
      rcases eq_or_ne b a with rfl | hba
      · rw [Function.update_self, Option.some.injEq] at hb
        exact Or.inl hb.symm
      · exact Or.inr ⟨b, by rwa [Function.update_of_ne hba] at hb⟩

/-- A holder lets its value go. -/
theorem release (h : Exclusive holding held) (ha : holding a = some value) :
    Exclusive (Function.update holding a none) (held \ {value}) where
  injective {b c x} hb hc := by
    have hkept : ∀ b, Function.update holding a none b = some x → holding b = some x := by
      intro b hb
      rcases eq_or_ne b a with rfl | hba
      · simp at hb
      · rwa [Function.update_of_ne hba] at hb
    exact h.injective (hkept b hb) (hkept c hc)
  mem_iff x := by
    rw [Set.mem_sdiff, Set.mem_singleton_iff, h.mem_iff]
    constructor
    · rintro ⟨⟨b, hb⟩, hne⟩
      have hba : b ≠ a := by
        rintro rfl
        exact hne (Option.some.inj (hb.symm.trans ha))
      exact ⟨b, by rw [Function.update_of_ne hba, hb]⟩
    · rintro ⟨b, hb⟩
      rcases eq_or_ne b a with rfl | hba
      · simp at hb
      · rw [Function.update_of_ne hba] at hb
        refine ⟨⟨b, hb⟩, ?_⟩
        rintro rfl
        exact hba (h.injective hb ha)

/-- A holder hands its value on to one with empty hands. -/
theorem pass (h : Exclusive holding held) (ha : holding a = some value) (hb : holding b = none) :
    Exclusive (Function.update (Function.update holding a none) b (some value)) held := by
  have hab : b ≠ a := by
    rintro rfl
    simp [hb] at ha
  have hreleased := h.release ha
  have hempty : Function.update holding a none b = none := by
    rw [Function.update_of_ne hab, hb]
  have hfree : value ∉ held \ {value} := by simp
  have hpassed := hreleased.acquire hempty hfree
  have hheld : insert value (held \ {value}) = held := by
    rw [Set.insert_sdiff_singleton, Set.insert_eq_of_mem (h.mem ha)]
  rwa [hheld] at hpassed

end Exclusive

end Mcmp.Foundation.ExclusiveHolders
