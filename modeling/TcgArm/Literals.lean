import Mathlib.Algebra.NeZero

/-! Literals of the small finite types: jump slots and page slots, access sizes, core registers. -/

namespace TcgArm

instance neZero_two : @NeZero Nat Zero.ofOfNat0 2 := Nat.instNeZeroSucc

instance neZero_four : @NeZero Nat Zero.ofOfNat0 4 := Nat.instNeZeroSucc

instance neZero_sixteen : @NeZero Nat Zero.ofOfNat0 16 := Nat.instNeZeroSucc

end TcgArm
