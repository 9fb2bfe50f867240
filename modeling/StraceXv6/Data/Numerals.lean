import Mathlib.Algebra.Ring.Nat

namespace StraceXv6.Data

/-! Numerals of the finite types: two processes, and the tables of buffers, inodes and
processes. -/

instance neZeroTwo : NeZero 2 := ⟨by decide⟩

instance neZeroThirty : NeZero 30 := ⟨by decide⟩

instance neZeroFifty : NeZero 50 := ⟨by decide⟩

instance neZeroSixtyFour : NeZero 64 := ⟨by decide⟩

end StraceXv6.Data
