import TcgArm.HalfMachine

/-! The builders of `tcg-op.c` and `tcg-op.h` for 64-bit operations on a 32-bit host: each emits
32-bit ops on the halves of its operands. A `TCGv_i64` is named by a number. -/

namespace TcgArm.Half

open Tcg SeqCode

def tcgGenMovI64 (ret arg : Nat) : List Instr :=
  tcgGenMovI32 (.low ret) (.low arg) ++ tcgGenMovI32 (.high ret) (.high arg)

def tcgGenMoviI64 (ret : Nat) (arg : BitVec 64) : List Instr :=
  tcgGenMoviI32 (.low ret) (lowHalf arg) ++ tcgGenMoviI32 (.high ret) (highHalf arg)

/-- `tcg_const_i64`: the constant is in the variable `free`. -/
def tcgConstI64 (free : Nat) (v : BitVec 64) : List Instr := tcgGenMoviI64 free v

def ldZeroI64 (kind : LoadKind) (ret : Nat) (arg2 : Temp) (offset : BitVec 32) : List Instr :=
  [.ld kind (.low ret) arg2 offset] ++ tcgGenMoviI32 (.high ret) 0

def ldSignI64 (kind : LoadKind) (free ret : Nat) (arg2 : Temp) (offset : BitVec 32) : List Instr :=
  [.ld kind (.low ret) arg2 offset] ++ tcgGenSariI32 free (.high ret) (.low ret) 31

def tcgGenLd8uI64 : Nat → Temp → BitVec 32 → List Instr := ldZeroI64 .u8

/-- The sign is taken of the old high half, not of the byte that was loaded. -/
def tcgGenLd8sI64 (free ret : Nat) (arg2 : Temp) (offset : BitVec 32) : List Instr :=
  [.ld .s8 (.low ret) arg2 offset] ++ tcgGenSariI32 free (.high ret) (.high ret) 31

def tcgGenLd16uI64 : Nat → Temp → BitVec 32 → List Instr := ldZeroI64 .u16

def tcgGenLd16sI64 : Nat → Nat → Temp → BitVec 32 → List Instr := ldSignI64 .s16

def tcgGenLd32uI64 : Nat → Temp → BitVec 32 → List Instr := ldZeroI64 .full

def tcgGenLd32sI64 : Nat → Nat → Temp → BitVec 32 → List Instr := ldSignI64 .full

def tcgGenLdI64 (tgt : Target) (ret : Nat) (arg2 : Temp) (offset : BitVec 32) : List Instr :=
  if tgt.bigEndian then
    [.ld .full (.high ret) arg2 offset] ++ [.ld .full (.low ret) arg2 (offset + 4)]
  else [.ld .full (.low ret) arg2 offset] ++ [.ld .full (.high ret) arg2 (offset + 4)]

def tcgGenSt8I64 (arg1 : Nat) (arg2 : Temp) (offset : BitVec 32) : List Instr :=
  [.st .b8 (.low arg1) arg2 offset]

def tcgGenSt16I64 (arg1 : Nat) (arg2 : Temp) (offset : BitVec 32) : List Instr :=
  [.st .b16 (.low arg1) arg2 offset]

def tcgGenSt32I64 (arg1 : Nat) (arg2 : Temp) (offset : BitVec 32) : List Instr :=
  [.st .full (.low arg1) arg2 offset]

def tcgGenStI64 (tgt : Target) (arg1 : Nat) (arg2 : Temp) (offset : BitVec 32) : List Instr :=
  if tgt.bigEndian then
    [.st .full (.high arg1) arg2 offset] ++ [.st .full (.low arg1) arg2 (offset + 4)]
  else [.st .full (.low arg1) arg2 offset] ++ [.st .full (.high arg1) arg2 (offset + 4)]

/-- One 32-bit operation for each half. -/
def eachHalfI64 (gen : Temp → Temp → Temp → List Instr) (ret arg1 arg2 : Nat) : List Instr :=
  gen (.low ret) (.low arg1) (.low arg2) ++ gen (.high ret) (.high arg1) (.high arg2)

def tcgGenAndI64 : Nat → Nat → Nat → List Instr := eachHalfI64 fun r a b => [.binary .and r a b]

def tcgGenOrI64 : Nat → Nat → Nat → List Instr := eachHalfI64 fun r a b => [.binary .or r a b]

def tcgGenXorI64 : Nat → Nat → Nat → List Instr := eachHalfI64 fun r a b => [.binary .xor r a b]

def tcgGenAndcI64 (tgt : Target) (free : Nat) : Nat → Nat → Nat → List Instr :=
  eachHalfI64 (tcgGenAndcI32 tgt free)

def tcgGenOrcI64 (tgt : Target) (free : Nat) : Nat → Nat → Nat → List Instr :=
  eachHalfI64 (tcgGenOrcI32 tgt free)

def tcgGenEqvI64 (tgt : Target) (free : Nat) : Nat → Nat → Nat → List Instr :=
  eachHalfI64 (tcgGenEqvI32 tgt free)

def tcgGenNandI64 (tgt : Target) (free : Nat) : Nat → Nat → Nat → List Instr :=
  eachHalfI64 (tcgGenNandI32 tgt free)

def tcgGenNorI64 (tgt : Target) (free : Nat) : Nat → Nat → Nat → List Instr :=
  eachHalfI64 (tcgGenNorI32 tgt free)

def tcgGenNotI64 (tgt : Target) (free ret arg : Nat) : List Instr :=
  tcgGenNotI32 tgt free (.low ret) (.low arg) ++ tcgGenNotI32 tgt free (.high ret) (.high arg)

/-- One 32-bit operation with a constant for each half. -/
def eachHalfConstI64 (gen : Temp → Temp → BitVec 32 → List Instr) (ret arg1 : Nat)
    (arg2 : BitVec 64) : List Instr :=
  gen (.low ret) (.low arg1) (lowHalf arg2) ++ gen (.high ret) (.high arg1) (highHalf arg2)

def tcgGenAndiI64 (tgt : Target) (free : Nat) : Nat → Nat → BitVec 64 → List Instr :=
  eachHalfConstI64 (tcgGenAndiI32 tgt free)

def tcgGenOriI64 (free : Nat) : Nat → Nat → BitVec 64 → List Instr :=
  eachHalfConstI64 (tcgGenOriI32 free)

def tcgGenXoriI64 (tgt : Target) (free : Nat) : Nat → Nat → BitVec 64 → List Instr :=
  eachHalfConstI64 (tcgGenXoriI32 tgt free)

/-- `tcg_gen_add2_i32` and `tcg_gen_sub2_i32`, which every 32-bit host has. -/
def doubleI64 (f : Double) (ret arg1 arg2 : Nat) : List Instr :=
  [.double f (.low ret) (.high ret) [.low arg1, .high arg1, .low arg2, .high arg2]]

def tcgGenAddI64 : Nat → Nat → Nat → List Instr := doubleI64 .add2

def tcgGenSubI64 : Nat → Nat → Nat → List Instr := doubleI64 .sub2

def tcgGenAddiI64 (free ret arg1 : Nat) (arg2 : BitVec 64) : List Instr :=
  if arg2 = 0 then tcgGenMovI64 ret arg1 else tcgConstI64 free arg2 ++ tcgGenAddI64 ret arg1 free

def tcgGenSubfiI64 (free ret : Nat) (arg1 : BitVec 64) (arg2 : Nat) : List Instr :=
  tcgConstI64 free arg1 ++ tcgGenSubI64 ret free arg2

def tcgGenSubiI64 (free ret arg1 : Nat) (arg2 : BitVec 64) : List Instr :=
  if arg2 = 0 then tcgGenMovI64 ret arg1 else tcgConstI64 free arg2 ++ tcgGenSubI64 ret arg1 free

def tcgGenNegI64 (free ret arg : Nat) : List Instr := tcgGenSubfiI64 free ret 0 arg

/-- The product of the low halves and the two mixed products, in a new variable. -/
def tcgGenMulI64 (tgt : Target) (free ret arg1 arg2 : Nat) : List Instr :=
  let t0 := free
  let t1 := Temp.single (free + 1)
  tcgGenMulu2I32 tgt (free + 2) (.low t0) (.high t0) (.low arg1) (.low arg2) ++
    [.binary .mul t1 (.low arg1) (.high arg2), .binary .add (.high t0) (.high t0) t1,
      .binary .mul t1 (.high arg1) (.low arg2), .binary .add (.high t0) (.high t0) t1] ++
    tcgGenMovI64 ret t0

def tcgGenMuliI64 (tgt : Target) (free ret arg1 : Nat) (arg2 : BitVec 64) : List Instr :=
  tcgConstI64 free arg2 ++ tcgGenMulI64 tgt (free + 1) ret arg1 free

def tcgGenShiftiI64 (free ret arg1 c : Nat) (right arith : Bool) : List Instr :=
  if c = 0 then
    tcgGenMovI32 (.low ret) (.low arg1) ++ tcgGenMovI32 (.high ret) (.high arg1)
  else if 32 ≤ c then
    if right then
      if arith then
        tcgGenSariI32 free (.low ret) (.high arg1) (c - 32) ++ tcgGenSariI32 free (.high ret) (.high arg1) 31
      else
        tcgGenShriI32 free (.low ret) (.high arg1) (c - 32) ++ tcgGenMoviI32 (.high ret) 0
    else
      tcgGenShliI32 free (.high ret) (.low arg1) (c - 32) ++ tcgGenMoviI32 (.low ret) 0
  else
    let t0 := Temp.single free
    let t1 := Temp.single (free + 1)
    if right then
      tcgGenShliI32 (free + 2) t0 (.high arg1) (32 - c) ++
        ((if arith then tcgGenSariI32 (free + 2) t1 (.high arg1) c
            else tcgGenShriI32 (free + 2) t1 (.high arg1) c) ++
          ((tcgGenShriI32 (free + 2) (.low ret) (.low arg1) c ++
              [.binary .or (.low ret) (.low ret) t0]) ++
            tcgGenMovI32 (.high ret) t1))
    else
      tcgGenShriI32 (free + 2) t0 (.low arg1) (32 - c) ++
        (tcgGenShliI32 (free + 2) t1 (.low arg1) c ++
          ((tcgGenShliI32 (free + 2) (.high ret) (.high arg1) c ++
              [.binary .or (.high ret) (.high ret) t0]) ++
            tcgGenMovI32 (.low ret) t1))

def tcgGenShliI64 (free ret arg1 arg2 : Nat) : List Instr :=
  tcgGenShiftiI64 free ret arg1 arg2 false false

def tcgGenShriI64 (free ret arg1 arg2 : Nat) : List Instr :=
  tcgGenShiftiI64 free ret arg1 arg2 true false

def tcgGenSariI64 (free ret arg1 arg2 : Nat) : List Instr :=
  tcgGenShiftiI64 free ret arg1 arg2 true true

def tcgGenRotliI64 (free ret arg1 arg2 : Nat) : List Instr :=
  if arg2 = 0 then tcgGenMovI64 ret arg1
  else
    tcgGenShliI64 (free + 2) free arg1 arg2 ++
      (tcgGenShriI64 (free + 2) (free + 1) arg1 (64 - arg2) ++ tcgGenOrI64 ret free (free + 1))

def tcgGenRotriI64 (free ret arg1 arg2 : Nat) : List Instr :=
  if arg2 = 0 then tcgGenMovI64 ret arg1 else tcgGenRotliI64 free ret arg1 (64 - arg2)

def tcgGenBrcondI64 (cond : TcgCond) (arg1 arg2 l : Nat) : List Instr :=
  match cond with
  | .always => [.br l]
  | .never => []
  | .test c => [.brcond2 c (.low arg1) (.high arg1) (.low arg2) (.high arg2) l]

def tcgGenBrcondiI64 (free : Nat) (cond : TcgCond) (arg1 : Nat) (arg2 : BitVec 64) (l : Nat) :
    List Instr :=
  match cond with
  | .always => [.br l]
  | .never => []
  | .test _ => tcgConstI64 free arg2 ++ tcgGenBrcondI64 cond arg1 free l

def tcgGenSetcondI64 (cond : TcgCond) (ret arg1 arg2 : Nat) : List Instr :=
  match cond with
  | .always => tcgGenMoviI64 ret 1
  | .never => tcgGenMoviI64 ret 0
  | .test c =>
    [.setcond2 c (.low ret) (.low arg1) (.high arg1) (.low arg2) (.high arg2)] ++ tcgGenMoviI32 (.high ret) 0

def tcgGenSetcondiI64 (free : Nat) (cond : TcgCond) (ret arg1 : Nat) (arg2 : BitVec 64) :
    List Instr :=
  tcgConstI64 free arg2 ++ tcgGenSetcondI64 cond ret arg1 free

def tcgGenMovcondI64 (tgt : Target) (free : Nat) (cond : TcgCond) (ret c1 c2 v1 v2 : Nat) :
    List Instr :=
  match cond with
  | .always => tcgGenMovI64 ret v1
  | .never => tcgGenMovI64 ret v2
  | .test c =>
    let t0 := Temp.single free
    let t1 := Temp.single (free + 1)
    [.setcond2 c t0 (.low c1) (.high c1) (.low c2) (.high c2)] ++ (if tgt.hasMovcond then
        tcgGenMoviI32 t1 0 ++
          (tcgGenMovcondI32 tgt (free + 2) (.test .ne) (.low ret) t0 t1 (.low v1) (.low v2) ++
            tcgGenMovcondI32 tgt (free + 2) (.test .ne) (.high ret) t0 t1 (.high v1) (.high v2))
      else
        tcgGenNegI32 tgt (free + 2) t0 t0 ++
          (([.binary .and t1 (.low v1) t0] ++
              (tcgGenAndcI32 tgt (free + 2) (.low ret) (.low v2) t0 ++
                [.binary .or (.low ret) (.low ret) t1])) ++
            ([.binary .and t1 (.high v1) t0] ++
              (tcgGenAndcI32 tgt (free + 2) (.high ret) (.high v2) t0 ++
                [.binary .or (.high ret) (.high ret) t1]))))

def tcgGenDepositI64 (tgt : Target) (free ret arg1 arg2 ofs len : Nat) : List Instr :=
  if ofs = 0 ∧ len = 64 then tcgGenMovI64 ret arg2
  else if 32 ≤ ofs then
    tcgGenDepositI32 tgt free (.high ret) (.high arg1) (.low arg2) (ofs - 32) len ++
      tcgGenMovI32 (.low ret) (.low arg1)
  else if ofs + len ≤ 32 then
    tcgGenDepositI32 tgt free (.low ret) (.low arg1) (.low arg2) ofs len ++
      tcgGenMovI32 (.high ret) (.high arg1)
  else
    let mask : BitVec 64 := 1#64 <<< len - 1#64
    (if ofs + len < 64 then
        tcgGenAndiI64 tgt (free + 1) free arg2 mask ++ tcgGenShliI64 (free + 1) free free ofs
      else tcgGenShliI64 (free + 1) free arg2 ofs) ++
    (tcgGenAndiI64 tgt (free + 1) ret arg1 (~~~ (mask <<< ofs)) ++ tcgGenOrI64 ret ret free)

def extSignI64 (gen : Temp → Temp → List Instr) (free ret : Nat) (arg : Temp) : List Instr :=
  gen (.low ret) arg ++ tcgGenSariI32 free (.high ret) (.low ret) 31

def extZeroI64 (gen : Temp → Temp → List Instr) (ret : Nat) (arg : Temp) : List Instr :=
  gen (.low ret) arg ++ tcgGenMoviI32 (.high ret) 0

def tcgGenExt8sI64 (tgt : Target) (free ret arg : Nat) : List Instr :=
  extSignI64 (tcgGenExt8sI32 tgt free) free ret (.low arg)

def tcgGenExt16sI64 (tgt : Target) (free ret arg : Nat) : List Instr :=
  extSignI64 (tcgGenExt16sI32 tgt free) free ret (.low arg)

def tcgGenExt32sI64 (free ret arg : Nat) : List Instr := extSignI64 tcgGenMovI32 free ret (.low arg)

def tcgGenExt8uI64 (tgt : Target) (free ret arg : Nat) : List Instr :=
  extZeroI64 (tcgGenExt8uI32 tgt free) ret (.low arg)

def tcgGenExt16uI64 (tgt : Target) (free ret arg : Nat) : List Instr :=
  extZeroI64 (tcgGenExt16uI32 tgt free) ret (.low arg)

def tcgGenExt32uI64 (ret arg : Nat) : List Instr := extZeroI64 tcgGenMovI32 ret (.low arg)

def tcgGenExtrlI64I32 (ret : Temp) (arg : Nat) : List Instr := tcgGenMovI32 ret (.low arg)

def tcgGenExtrhI64I32 (ret : Temp) (arg : Nat) : List Instr := tcgGenMovI32 ret (.high arg)

def tcgGenExtuI32I64 (ret : Nat) (arg : Temp) : List Instr := extZeroI64 tcgGenMovI32 ret arg

def tcgGenExtI32I64 (free ret : Nat) (arg : Temp) : List Instr := extSignI64 tcgGenMovI32 free ret arg

def tcgGenConcatI32I64 (dest : Nat) (low high : Temp) : List Instr :=
  tcgGenMovI32 (.low dest) low ++ tcgGenMovI32 (.high dest) high

def tcgGenConcat32I64 (tgt : Target) (free ret lo hi : Nat) : List Instr :=
  tcgGenDepositI64 tgt free ret lo hi 32 32

def tcgGenExtrI64I32 (lo hi : Temp) (arg : Nat) : List Instr :=
  tcgGenMovI32 lo (.low arg) ++ tcgGenMovI32 hi (.high arg)

def tcgGenExtr32I64 (free lo hi arg : Nat) : List Instr :=
  tcgGenExt32uI64 lo arg ++ tcgGenShriI64 free hi arg 32

def tcgCanonicalizeMemop (op : GuestOp) (is64 st : Bool) : GuestOp :=
  let op := if op.size = 0 then { op with bswap := false } else op
  let op := if op.size = 2 ∧ !is64 then { op with sign := false } else op
  if st then { op with sign := false } else op

def tcgGenQemuLdI32 (val addr : Temp) (memop : GuestOp) : List Instr :=
  [.qemuLdI32 (tcgCanonicalizeMemop memop false false) val addr]

def tcgGenQemuStI32 (val addr : Temp) (memop : GuestOp) : List Instr :=
  [.qemuStI32 (tcgCanonicalizeMemop memop false true) val addr]

def tcgGenQemuLdI64 (free val : Nat) (addr : Temp) (memop : GuestOp) : List Instr :=
  if memop.size < 3 then
    tcgGenQemuLdI32 (.low val) addr memop ++
      (if memop.sign then tcgGenSariI32 free (.high val) (.low val) 31
        else tcgGenMoviI32 (.high val) 0)
  else [.qemuLdI64 (tcgCanonicalizeMemop memop true false) (.low val) (.high val) addr]

def tcgGenQemuStI64 (val : Nat) (addr : Temp) (memop : GuestOp) : List Instr :=
  if memop.size < 3 then tcgGenQemuStI32 (.low val) addr memop
  else [.qemuStI64 (tcgCanonicalizeMemop memop true true) (.low val) (.high val) addr]

end TcgArm.Half
