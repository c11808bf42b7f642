import Mathlib.Data.BitVec

/-!
# Flags in an `int`

`MCMPENV_SETFLAG`, `MCMPENV_CLEARFLAG` and `MCMPENV_HASFLAG` of mcmp.h: a word of 32 bits with one
bit for each flag. The first two read the word and write it back; where other threads write it too,
they are a load and a store.
-/

set_option autoImplicit false
set_option relaxedAutoImplicit false

namespace Mcmp.Utilities.EnvFlags

/-- `env | (1 << flag)`. -/
def setFlag (env : BitVec 32) (flag : ℕ) : BitVec 32 := env ||| 1#32 <<< flag

/-- `env & ~(1 << flag)`. -/
def clearFlag (env : BitVec 32) (flag : ℕ) : BitVec 32 := env &&& ~~~(1#32 <<< flag)

def hasFlag (env : BitVec 32) (flag : ℕ) : Bool := env &&& 1#32 <<< flag ≠ 0

variable (env : BitVec 32) {flag other : ℕ}

theorem hasFlag_eq_getLsbD (hflag : flag < 32) : hasFlag env flag = env.getLsbD flag := by
  rw [hasFlag, ← BitVec.twoPow_eq, BitVec.and_twoPow]
  cases env.getLsbD flag with
  | false => simp
  | true =>
    have hbit : (BitVec.twoPow 32 flag).getLsbD flag = true := by
      simp [hflag]
    have hne : BitVec.twoPow 32 flag ≠ 0 := by
      intro hzero
      rw [hzero] at hbit
      simp at hbit
    simpa using hne

theorem hasFlag_setFlag (hother : other < 32) :
    hasFlag (setFlag env flag) other = (hasFlag env other || decide (flag = other)) := by
  rw [hasFlag_eq_getLsbD _ hother, hasFlag_eq_getLsbD _ hother, setFlag, ← BitVec.twoPow_eq,
    BitVec.getLsbD_or, BitVec.getLsbD_twoPow]
  by_cases hsame : flag = other
  · simp [hsame, hother]
  · simp [hsame]

theorem hasFlag_clearFlag (hother : other < 32) :
    hasFlag (clearFlag env flag) other = (hasFlag env other && !decide (flag = other)) := by
  rw [hasFlag_eq_getLsbD _ hother, hasFlag_eq_getLsbD _ hother, clearFlag, ← BitVec.twoPow_eq,
    BitVec.getLsbD_and, BitVec.getLsbD_not, BitVec.getLsbD_twoPow]
  by_cases hsame : flag = other
  · simp [hsame, hother]
  · simp [hsame, hother]

end Mcmp.Utilities.EnvFlags
