import Mathlib.Data.Int.Notation
import Mathlib.Logic.Function.Basic

/-!
# Status codes

`mcmpst` of stat.h. The header defines the codes as distinct `int` constants, so an inductive type
with one constructor for each is the same data (`Mcmpst.code_injective`). The thread-local copy of
the last code that `MCMPST_RETURN` keeps is not modelled: every caller reads the code it was
returned.
-/

set_option autoImplicit false
set_option relaxedAutoImplicit false

namespace Mcmp

/-- The status codes `MCMPST_*`. -/
inductive Mcmpst
  | success
  | notImplemented
  | overflow
  | outOfMem
  | specific
  | notAbspath
  | invalign
  | noinitz
  | isempty
  | ovtimeout
  | critical
  | invop
  | alrop
  | noavle
  | ambnop
  | retryop
  deriving DecidableEq, Repr

/-- The value of a status code in the header. -/
def Mcmpst.code : Mcmpst → ℤ
  | success => 0
  | notImplemented => -1
  | overflow => -2
  | outOfMem => -3
  | specific => -4
  | notAbspath => -5
  | invalign => -6
  | noinitz => -7
  | isempty => -8
  | ovtimeout => -9
  | critical => -10
  | invop => -11
  | alrop => -12
  | noavle => -13
  | ambnop => -14
  | retryop => -15

/-- Comparing two codes by their values is comparing them. -/
theorem Mcmpst.code_injective : Function.Injective Mcmpst.code := by
  intro first second hcode
  cases first <;> cases second <;> first | rfl | exact absurd hcode (by decide)

end Mcmp
