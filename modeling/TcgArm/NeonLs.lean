import TcgArm.ByteMemory

/-! The NEON element and structure loads and stores (`disas_neon_ls_insn`): which words are refused,
and the ops emitted for the others, over the temporaries of the function. The ops run on the core
registers, the D registers and the guest's memory, with data in either byte order. -/

namespace TcgArm.NeonLs

open ByteMemory

abbrev Word := BitVec 32

/-- The variables of the function that hold temporaries; `scratch` is the one of the functions that
replicate an element, `base` and `index` are those of the write-back. -/
inductive Temp
  | addr | tmp | tmp2 | scratch | base | index
  deriving DecidableEq

/-- The ops that `disas_neon_ls_insn` and the functions it calls emit. Loads and stores use the
address in `addr`; a size is the logarithm of a number of bytes. -/
inductive Op
  | loadRegVar (t : Temp) (reg : Nat)
  | storeReg (reg : Nat) (t : Temp)
  | mov (t u : Temp)
  | addi (t : Temp) (imm : Nat)
  | add (t u : Temp)
  | shli (t u : Temp) (n : Nat)
  | shri (t u : Temp) (n : Nat)
  | or (t u v : Temp)
  | ext8u (t : Temp)
  | ext16u (t : Temp)
  | deposit (t u v : Temp) (ofs len : Nat)
  | ld (size : Nat) (t : Temp)
  | st (size : Nat) (t : Temp)
  | ld64
  | st64
  | neonLoadReg (t : Temp) (reg pass : Nat)
  | neonStoreReg (reg pass : Nat) (t : Temp)
  | neonLoadReg64 (reg : Nat)
  | neonStoreReg64 (reg : Nat)
  deriving DecidableEq

/-- What the translator knows: the features and access checks of the CPU, `s->pc`, and the data
byte order. -/
structure Context where
  fpExcpEl : Nat
  vfpEnabled : Bool
  vfp3 : Bool
  thumb : Bool
  pc : Word
  beData : Bool

/-- The outcome of `disas_neon_ls_insn`: the word is undefined, a trap to an exception level is
generated, or ops are. -/
inductive Outcome
  | undef
  | trap
  | emit (ops : List Op)
  deriving DecidableEq

/-- `(insn >> lo) & (2 ^ len - 1)`. -/
def field (insn : Word) (lo len : Nat) : Nat := (insn.extractLsb' lo len).toNat

theorem field_lt (insn : Word) (lo len : Nat) : field insn lo len < 2 ^ len := (insn.extractLsb' lo len).isLt

/-- `VFP_DREG_D`; without the upper registers a word that names one is undefined. -/
def vfpDregD (ctx : Context) (insn : Word) : Option Nat :=
  if ctx.vfp3 then some (field insn 22 1 * 16 + field insn 12 4)
  else if field insn 22 1 = 1 then none else some (field insn 12 4)

/-- `neon_ls_element_type`: the number of registers, the interleave and the spacing. -/
def neonLsElementType : Nat → Nat × Nat × Nat
  | 0 => (4, 4, 1)
  | 1 => (4, 4, 2)
  | 2 => (4, 1, 1)
  | 3 => (4, 2, 1)
  | 4 => (3, 3, 1)
  | 5 => (3, 3, 2)
  | 6 => (3, 1, 1)
  | 7 => (1, 1, 1)
  | 8 => (2, 2, 1)
  | 9 => (2, 2, 2)
  | _ => (2, 1, 1)

/-- The ops for one half of a register, for elements smaller than a register. -/
def transferPass (load : Bool) (size rd pass stride : Nat) : List Op :=
  match size, load with
  | 2, true => [.ld 2 .tmp, .neonStoreReg rd pass .tmp, .addi .addr stride]
  | 2, false => [.neonLoadReg .tmp rd pass, .st 2 .tmp, .addi .addr stride]
  | 1, true => [.ld 1 .tmp, .addi .addr stride, .ld 1 .tmp2, .addi .addr stride,
      .shli .tmp2 .tmp2 16, .or .tmp .tmp .tmp2, .neonStoreReg rd pass .tmp]
  | 1, false => [.neonLoadReg .tmp rd pass, .shri .tmp2 .tmp 16, .st 1 .tmp, .addi .addr stride,
      .st 1 .tmp2, .addi .addr stride]
  | _, true =>
    ((List.range 4).flatMap fun n =>
      if n = 0 then [.ld 0 .tmp2, .addi .addr stride]
      else [.ld 0 .tmp, .addi .addr stride, .shli .tmp .tmp (n * 8), .or .tmp2 .tmp2 .tmp]) ++
    [.neonStoreReg rd pass .tmp2]
  | _, false => .neonLoadReg .tmp2 rd pass :: (List.range 4).flatMap fun n =>
    [if n = 0 then .mov .tmp .tmp2 else .shri .tmp .tmp2 (n * 8), .st 0 .tmp, .addi .addr stride]

def transferReg (load : Bool) (size rd stride : Nat) : List Op :=
  if size = 3 then
    (if load then [.ld64, .neonStoreReg64 rd] else [.neonLoadReg64 rd, .st64]) ++ [.addi .addr stride]
  else (List.range 2).flatMap fun pass => transferPass load size rd pass stride

def resetAddr (nregs interleave size rn reg : Nat) : List Op :=
  if interleave > 2 ∨ (interleave = 2 ∧ nregs = 2) then
    [.loadRegVar .addr rn, .addi .addr (2 ^ size * reg)]
  else if interleave = 2 ∧ nregs = 4 ∧ reg = 2 then
    [.loadRegVar .addr rn, .addi .addr (2 ^ size)]
  else []

def multipleOps (load : Bool) (nregs interleave spacing size rn rd : Nat) : List Op :=
  .loadRegVar .addr rn :: (List.range nregs).flatMap fun reg =>
    resetAddr nregs interleave size rn reg ++
      transferReg load size (rd + spacing * reg) (2 ^ size * interleave)

def multiple (load : Bool) (insn : Word) (rn rd : Nat) : Option (List Op × Nat) :=
  let op := field insn 8 4
  let size := field insn 6 2
  let (nregs, interleave, spacing) := neonLsElementType op
  if op > 10 then none
  else if op / 4 = 1 ∧ field insn 5 1 = 1 then none
  else if op / 4 = 2 ∧ field insn 4 2 = 3 then none
  else if size = 3 ∧ interleave ||| spacing ≠ 1 then none
  else some (multipleOps load nregs interleave spacing size rn rd, nregs * 8)

/-- `gen_load_and_replicate`. -/
def loadAndReplicate (size : Nat) : List Op :=
  .ld size .tmp :: match size with
    | 0 => [.ext8u .tmp, .shli .scratch .tmp 8, .or .tmp .tmp .scratch, .shli .scratch .tmp 16,
        .or .tmp .tmp .scratch]
    | 1 => [.ext16u .tmp, .shli .scratch .tmp 16, .or .tmp .tmp .scratch]
    | _ => []

def storeBoth (rd : Nat) : List Op := [.neonStoreReg rd 0 .tmp, .neonStoreReg rd 1 .tmp]

def allLanesOps (nregs size rn rd : Nat) (bit5 : Bool) : List Op :=
  .loadRegVar .addr rn ::
    if nregs = 1 then
      loadAndReplicate size ++ storeBoth rd ++ if bit5 then storeBoth (rd + 1) else []
    else (List.range nregs).flatMap fun reg =>
      loadAndReplicate size ++ storeBoth (rd + (if bit5 then 2 else 1) * reg) ++ [.addi .addr (2 ^ size)]

def allLanesSize (insn : Word) : Nat := if field insn 6 2 = 3 then 2 else field insn 6 2

def allLanes (load : Bool) (insn : Word) (rn rd : Nat) : Option (List Op × Nat) :=
  let a := field insn 4 1
  let nregs := field insn 8 2 + 1
  let size := allLanesSize insn
  if load = false then none
  else if field insn 6 2 = 3 ∧ (nregs ≠ 4 ∨ a = 0) then none
  else if nregs = 1 ∧ a = 1 ∧ size = 0 then none
  else if nregs = 3 ∧ a = 1 then none
  else some (allLanesOps nregs size rn rd (field insn 5 1 = 1), 2 ^ size * nregs)

/-- The bit position of the element in its half of the register, and the distance of the
registers. -/
def singleShiftStride (insn : Word) (size : Nat) : Nat × Nat :=
  match size with
  | 0 => (field insn 5 2 * 8, 1)
  | 1 => (field insn 6 1 * 16, if field insn 5 1 = 1 then 2 else 1)
  | _ => (0, if field insn 6 1 = 1 then 2 else 1)

def singleUndef (nregs size idx : Nat) : Bool :=
  match nregs with
  | 1 => idx &&& 2 ^ size ≠ 0 ∨ (size = 2 ∧ (idx &&& 3 = 1 ∨ idx &&& 3 = 2))
  | 3 => idx &&& 1 ≠ 0 ∨ (size = 2 ∧ idx &&& 2 ≠ 0)
  | 2 => size = 2 ∧ idx &&& 2 ≠ 0
  | _ => size = 2 ∧ idx &&& 3 = 3

def singleReg (load : Bool) (size rd pass shift : Nat) : List Op :=
  if load then
    .ld size .tmp :: (if size = 2 then []
      else [.neonLoadReg .tmp2 rd pass, .deposit .tmp .tmp2 .tmp shift (if size = 0 then 8 else 16)]) ++
      [.neonStoreReg rd pass .tmp]
  else
    .neonLoadReg .tmp rd pass :: (if shift = 0 then [] else [.shri .tmp .tmp shift]) ++ [.st size .tmp]

def singleOps (load : Bool) (nregs size rn rd pass shift stride : Nat) : List Op :=
  .loadRegVar .addr rn :: (List.range nregs).flatMap fun reg =>
    singleReg load size (rd + stride * reg) pass shift ++ [.addi .addr (2 ^ size)]

def single (load : Bool) (insn : Word) (rn rd : Nat) : Option (List Op × Nat) :=
  let size := field insn 10 2
  let idx := field insn 4 4
  let pass := field insn 7 1
  let (shift, stride) := singleShiftStride insn size
  let nregs := field insn 8 2 + 1
  if singleUndef nregs size idx then none
  else if rd + stride * (nregs - 1) > 31 then none
  else some (singleOps load nregs size rn rd pass shift stride, nregs * 2 ^ size)

def transfer (insn : Word) (rn rd : Nat) : Option (List Op × Nat) :=
  let load : Bool := field insn 21 1 = 1
  if field insn 23 1 = 0 then multiple load insn rn rd
  else if field insn 10 2 = 3 then allLanes load insn rn rd
  else single load insn rn rd

def writeBack (rn rm stride : Nat) : List Op :=
  if rm = 15 then []
  else .loadRegVar .base rn ::
    (if rm = 13 then [.addi .base stride] else [.loadRegVar .index rm, .add .base .index]) ++
    [.storeReg rn .base]

def disasNeonLsInsn (ctx : Context) (insn : Word) : Outcome :=
  if ctx.fpExcpEl ≠ 0 then .trap
  else if ctx.vfpEnabled = false then .undef
  else
    let rn := field insn 16 4
    let rm := field insn 0 4
    match (vfpDregD ctx insn).bind (transfer insn rn) with
    | none => .undef
    | some (ops, stride) => .emit (ops ++ writeBack rn rm stride)

def Op.dreg : Op → Option Nat
  | .neonLoadReg _ reg _ | .neonStoreReg reg _ _ | .neonLoadReg64 reg | .neonStoreReg64 reg =>
    some reg
  | _ => none

end TcgArm.NeonLs
