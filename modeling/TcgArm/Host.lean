import Mathlib.Tactic

/-! The word size of the machine that runs the emulator. The build fixes it (`HOST_LONG_BITS`,
`TCG_TARGET_REG_BITS` and the width of `uintptr_t` agree); every model below is stated for both. -/

namespace TcgArm

/-- A host with 32-bit or with 64-bit registers and pointers. -/
inductive Host where
  | bits32
  | bits64
  deriving DecidableEq, Repr

/-- `HOST_LONG_BITS`, which is also `TCG_TARGET_REG_BITS`. -/
def Host.bits : Host → Nat
  | .bits32 => 32
  | .bits64 => 64

end TcgArm
