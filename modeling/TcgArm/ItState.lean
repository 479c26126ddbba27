import TcgArm.BitFields

/-! The IT state of the Thumb translator: `condexec_cond` and `condexec_mask` of the disassembly
context, which stand for the IT bits of the processor state while a block is translated. -/

namespace TcgArm

open BitVec

structure ItState where
  cond : BitVec 32
  mask : BitVec 32
  deriving DecidableEq, Repr

namespace ItState

def start (bits : BitVec 32) : ItState := ⟨bits >>> 4, (bits &&& 0xf) <<< 1⟩

/-- An `it` instruction. -/
def ifThen (insn : BitVec 32) : ItState := ⟨(insn >>> 4) &&& 0xe, insn &&& 0x1f⟩

def advance (s : ItState) : ItState :=
  if s.mask ≠ 0 then
    let cond := (s.cond &&& 0xe) ||| ((s.mask >>> 4) &&& 1)
    let mask := (s.mask <<< 1) &&& 0x1f
    if mask = 0 then ⟨0, mask⟩ else ⟨cond, mask⟩
  else s

def packed (s : ItState) : BitVec 32 := (s.cond <<< 4) ||| (s.mask >>> 1)

/-- Four bits of condition and five of mask. -/
structure Fits (s : ItState) : Prop where
  cond : s.cond.toNat < 2 ^ 4
  mask : s.mask.toNat < 2 ^ 5

theorem toNat_and_lt {x : BitVec 32} {m : BitVec 32} {k : Nat} (h : m.toNat < 2 ^ k) :
    (x &&& m).toNat < 2 ^ k := by
  rw [toNat_and]
  exact Nat.and_le_right.trans_lt h

theorem toNat_or_lt {x y : BitVec 32} {k : Nat} (hx : x.toNat < 2 ^ k) (hy : y.toNat < 2 ^ k) :
    (x ||| y).toNat < 2 ^ k := by
  rw [toNat_or]
  exact Nat.or_lt_two_pow hx hy

theorem start_fits {bits : BitVec 32} (h : bits.toNat < 2 ^ 8) : (start bits).Fits := by
  constructor
  · rw [start, toNat_ushiftRight, Nat.shiftRight_eq_div_pow]
    omega
  · have hlow : (bits &&& 0xf).toNat < 2 ^ 4 := toNat_and_lt (by decide)
    rw [start, toNat_shiftLeft, Nat.shiftLeft_eq]
    exact (Nat.mod_le _ _).trans_lt (by omega)

theorem ifThen_fits (insn : BitVec 32) : (ifThen insn).Fits :=
  ⟨toNat_and_lt (by decide), toNat_and_lt (by decide)⟩

variable {s : ItState}

theorem advance_fits (h : s.Fits) : s.advance.Fits := by
  rw [advance]
  split
  · have hcond : ((s.cond &&& 0xe) ||| ((s.mask >>> 4) &&& 1)).toNat < 2 ^ 4 :=
      toNat_or_lt (toNat_and_lt (by decide)) (toNat_and_lt (by decide))
    have hmask : ((s.mask <<< 1) &&& 0x1f).toNat < 2 ^ 5 := toNat_and_lt (by decide)
    dsimp only
    split
    · exact ⟨show (0 : BitVec 32).toNat < 2 ^ 4 by decide, hmask⟩
    · exact ⟨hcond, hmask⟩
  · exact h

theorem packed_lt (h : s.Fits) : s.packed.toNat < 2 ^ 8 := by
  obtain ⟨hcond, hmask⟩ := h
  refine toNat_or_lt ?_ ?_
  · rw [toNat_shiftLeft, Nat.shiftLeft_eq]
    exact (Nat.mod_le _ _).trans_lt (by omega)
  · rw [toNat_ushiftRight, Nat.shiftRight_eq_div_pow]
    omega

/-- An instruction as far as the IT state goes: `it` with its word, or any other. -/
abbrev Insn := Option (BitVec 32)

def step (s : ItState) (insn : Insn) : ItState := ((insn.map ifThen).getD s).advance

theorem step_fits (h : s.Fits) (insn : Insn) : (s.step insn).Fits := by
  cases insn with
  | none => exact advance_fits h
  | some insn => exact advance_fits (ifThen_fits insn)

def after (s : ItState) (insns : List Insn) : ItState := insns.foldl step s

theorem after_fits (h : s.Fits) (insns : List Insn) : (s.after insns).Fits := by
  induction insns generalizing s with
  | nil => exact h
  | cons insn insns ih => exact ih (step_fits h insn)

end ItState

end TcgArm
