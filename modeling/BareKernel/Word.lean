import Mathlib.Algebra.Group.Nat.Defs

/-! The machine word: addresses and `size_t` values are below `wordSize`. -/

namespace BareKernel

/-- The number of values of a `size_t`. -/
def wordSize : ℕ := 2 ^ 64

end BareKernel
