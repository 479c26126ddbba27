import TcgArm.TbStore

/-! The part of `CPUARMState` that `exec` loads from the caller's context and writes back to it
(`tcg-arm.c`, `target-arm/helper.c`, `target-arm/cpu.h`), for the user-mode 32-bit CPU model `any`:
no EL2, EL3 or AArch64. -/

namespace TcgArm.Cpu

open Tb (Store)

inductive RoundingMode
  | nearestEven
  | down
  | up
  | toZero
  deriving DecidableEq

/-- `float_status`, without the fields that are constant after reset. -/
structure FloatStatus where
  roundingMode : RoundingMode
  flushToZero : Bool
  flushInputsToZero : Bool
  defaultNanMode : Bool
  exceptionFlags : BitVec 8

/-- `CPUARMState`. The flags that the source documents as single bits or short fields of the CPSR
have that width; `fpscr` and `fpexc` are `vfp.xregs[ARM_VFP_FPSCR]` and
`vfp.xregs[ARM_VFP_FPEXC]`. -/
structure Env where
  regs : Fin 16 → BitVec 32
  uncachedCpsr : BitVec 32
  cf : BitVec 1
  vf : BitVec 32
  nf : BitVec 32
  zf : BitVec 32
  qf : BitVec 1
  ge : BitVec 4
  thumb : BitVec 1
  condexecBits : BitVec 8
  daif : BitVec 32
  vfpRegs : Fin 32 → BitVec 64
  fpscr : BitVec 32
  fpexc : BitVec 32
  vecLen : BitVec 3
  vecStride : BitVec 2
  fpStatus : FloatStatus
  standardFpStatus : FloatStatus

/-- The system registers that the key of a block depends on. Guest code runs with user access rights
and does not change them. -/
structure Cp15 where
  sctlrEl1 : BitVec 64
  cpacrEl1 : BitVec 64
  cptrEl2 : BitVec 64
  cptrEl3 : BitVec 64
  c15Cpar : BitVec 32

def cpsrM : BitVec 32 := 0x0000001f#32
def cpsrT : BitVec 32 := 0x00000020#32
def cpsrE : BitVec 32 := 0x00000200#32
def cpsrAif : BitVec 32 := 0x000001c0#32
def cpsrIt27 : BitVec 32 := 0x0000fc00#32
def cpsrGe : BitVec 32 := 0x000f0000#32
def cpsrIt01 : BitVec 32 := 0x06000000#32
def cpsrQ : BitVec 32 := 0x08000000#32
def cpsrNzcv : BitVec 32 := 0xf0000000#32

/-- `CACHED_CPSR_BITS`. -/
def cachedCpsrBits : BitVec 32 :=
  cpsrT ||| cpsrAif ||| cpsrGe ||| (cpsrIt01 ||| cpsrIt27) ||| cpsrQ ||| cpsrNzcv

/-- `CPSR_USER`. -/
def cpsrUser : BitVec 32 := cpsrNzcv ||| cpsrQ ||| cpsrGe

def cpsrRead (env : Env) : BitVec 32 :=
  let zf : BitVec 32 := if env.zf = 0 then 1 else 0
  let condexec : BitVec 32 := env.condexecBits.setWidth 32
  env.uncachedCpsr ||| (env.nf &&& 0x80000000#32) ||| (zf <<< 30) |||
    (env.cf.setWidth 32 <<< 29) ||| ((env.vf &&& 0x80000000#32) >>> 3) |||
    (env.qf.setWidth 32 <<< 27) ||| (env.thumb.setWidth 32 <<< 5) |||
    ((condexec &&& 3#32) <<< 25) ||| ((condexec &&& 0xfc#32) <<< 8) |||
    (env.ge.setWidth 32 <<< 16) ||| (env.daif &&& cpsrAif)

/-- The two parts of the `IT` state that `cpsr_write` assigns one after the other. -/
def writtenCondexec (bits : BitVec 8) (val mask : BitVec 32) : BitVec 8 :=
  let bits := if mask &&& cpsrIt01 ≠ 0 then
    (bits &&& 0xfc#8) ||| (val.extractLsb' 25 2).setWidth 8 else bits
  if mask &&& cpsrIt27 ≠ 0 then (bits &&& 3#8) ||| ((val >>> 8).setWidth 8 &&& 0xfc#8) else bits

/-- `cpsr_write`. The parts of it that look at the mode bits or at the security state are for writes
other than `CPSRWriteRaw` with mode bits in the mask, and for CPUs with EL3. -/
def cpsrWrite (env : Env) (val mask : BitVec 32) : Env :=
  { env with
    zf := if mask &&& cpsrNzcv ≠ 0 then ~~~ val &&& 0x40000000#32 else env.zf
    nf := if mask &&& cpsrNzcv ≠ 0 then val else env.nf
    cf := if mask &&& cpsrNzcv ≠ 0 then val.extractLsb' 29 1 else env.cf
    vf := if mask &&& cpsrNzcv ≠ 0 then (val <<< 3) &&& 0x80000000#32 else env.vf
    qf := if mask &&& cpsrQ ≠ 0 then val.extractLsb' 27 1 else env.qf
    thumb := if mask &&& cpsrT ≠ 0 then val.extractLsb' 5 1 else env.thumb
    condexecBits := writtenCondexec env.condexecBits val mask
    ge := if mask &&& cpsrGe ≠ 0 then val.extractLsb' 16 4 else env.ge
    daif := (env.daif &&& ~~~ (cpsrAif &&& mask)) ||| (val &&& cpsrAif &&& mask)
    uncachedCpsr := (env.uncachedCpsr &&& ~~~ (mask &&& ~~~ cachedCpsrBits)) |||
      (val &&& (mask &&& ~~~ cachedCpsrBits)) }

/-- The bits of the FPSCR that `vfp.xregs` keeps; vector length and stride are kept apart. -/
def fpscrKept : BitVec 32 := 0xffc8ffff#32

def bitFor {w : Nat} (set : Bool) (bit : BitVec w) : BitVec w := if set then bit else 0

/-- `vfp_exceptbits_from_host`; the bits are invalid, division by zero, overflow, underflow or
flushed output, inexact and flushed input. -/
def vfpExceptbitsFromHost (hostBits : BitVec 8) : BitVec 32 :=
  bitFor (hostBits.getLsbD 0) 1#32 ||| bitFor (hostBits.getLsbD 2) 2#32 |||
    bitFor (hostBits.getLsbD 3) 4#32 ||| bitFor (hostBits.getLsbD 4 || hostBits.getLsbD 7) 8#32 |||
    bitFor (hostBits.getLsbD 5) 0x10#32 ||| bitFor (hostBits.getLsbD 6) 0x80#32

def vfpExceptbitsToHost (targetBits : BitVec 32) : BitVec 8 :=
  bitFor (targetBits.getLsbD 0) 1#8 ||| bitFor (targetBits.getLsbD 1) 4#8 |||
    bitFor (targetBits.getLsbD 2) 8#8 ||| bitFor (targetBits.getLsbD 3) 16#8 |||
    bitFor (targetBits.getLsbD 4) 32#8 ||| bitFor (targetBits.getLsbD 7) 64#8

def vfpGetFpscr (env : Env) : BitVec 32 :=
  (env.fpscr &&& fpscrKept) ||| (env.vecLen.setWidth 32 <<< 16) |||
    (env.vecStride.setWidth 32 <<< 20) |||
    vfpExceptbitsFromHost (env.fpStatus.exceptionFlags ||| env.standardFpStatus.exceptionFlags)

/-- The rounding mode that the field `RMode` of the FPSCR stands for. -/
def roundingOf (fpscr : BitVec 32) : RoundingMode :=
  match fpscr.extractLsb' 22 2 with
  | 0#2 => .nearestEven
  | 1#2 => .up
  | 2#2 => .down
  | _ => .toZero

/-- `vfp_set_fpscr`: rounding mode, flush-to-zero and default-NaN mode are set only when their field
differs from the one stored before. -/
def vfpSetFpscr (env : Env) (val : BitVec 32) : Env :=
  let changed := env.fpscr ^^^ val
  let status := env.fpStatus
  let status := if changed &&& 0x00c00000#32 ≠ 0 then
    { status with roundingMode := roundingOf val } else status
  let status := if changed &&& 0x01000000#32 ≠ 0 then
    { status with flushToZero := val.getLsbD 24, flushInputsToZero := val.getLsbD 24 } else status
  let status := if changed &&& 0x02000000#32 ≠ 0 then
    { status with defaultNanMode := val.getLsbD 25 } else status
  { env with
    fpscr := val &&& fpscrKept
    vecLen := val.extractLsb' 16 3
    vecStride := val.extractLsb' 20 2
    fpStatus := { status with exceptionFlags := vfpExceptbitsToHost val }
    standardFpStatus := { env.standardFpStatus with exceptionFlags := 0 } }

def armCurrentEl (env : Env) : BitVec 32 :=
  match env.uncachedCpsr &&& cpsrM with
  | 0x10#32 => 0
  | 0x1a#32 => 2
  | 0x16#32 => 3
  | _ => 1

def armSctlrB (cp15 : Cp15) : Bool := cp15.sctlrEl1.getLsbD 7

def armCpuDataIsBigEndian (cp15 : Cp15) (env : Env) : Bool :=
  armSctlrB cp15 || env.uncachedCpsr &&& cpsrE ≠ 0

def fpExceptionEl (cp15 : Cp15) (env : Env) : BitVec 32 :=
  let curEl := armCurrentEl env
  let rest : BitVec 32 :=
    if curEl ≤ 2 ∧ cp15.cptrEl2.getLsbD 10 then 2
    else if cp15.cptrEl3.getLsbD 10 then 3
    else 0
  match cp15.cpacrEl1.extractLsb' 20 2 with
  | 3#2 => rest
  | 1#2 => if curEl = 0 then 1 else rest
  | _ => if curEl = 0 ∨ curEl = 1 then 1 else if curEl = 3 then 3 else rest

/-- `cpu_get_tb_cpu_state`. -/
def cpuGetTbCpuState (cp15 : Cp15) (env : Env) : Store.Key where
  pc := env.regs 15
  csBase := 0
  flags :=
    env.thumb.setWidth 32 ||| (env.vecLen.setWidth 32 <<< 1) |||
      (env.vecStride.setWidth 32 <<< 4) ||| (env.condexecBits.setWidth 32 <<< 8) |||
      bitFor (armSctlrB cp15) 0x00010000#32 ||| 0x00080000#32 |||
      bitFor (env.fpexc.getLsbD 30) 0x00000080#32 |||
      ((cp15.c15Cpar &&& 3#32) <<< 17) ||| (armCurrentEl env <<< 28) |||
      bitFor (armCpuDataIsBigEndian cp15 env) 0x00100000#32 ||| (fpExceptionEl cp15 env <<< 24)

/-- The writes to `CPUARMState` by the code of user-mode instructions: registers, condition flags,
execution state, `MSR` and `SETEND`, `VMSR FPSCR`, the flags of a VFP comparison, the saturation
bit of the NEON helpers, and exceptions raised by floating point operations. -/
inductive Effect
  | setReg (i : Fin 16) (v : BitVec 32)
  | setVfpReg (i : Fin 32) (v : BitVec 64)
  | setNzcv (nf zf vf : BitVec 32) (cf : BitVec 1)
  | setQf
  | setGe (ge : BitVec 4)
  | setThumb (thumb : BitVec 1)
  | setCondexec (bits : BitVec 8)
  | msr (val mask : BitVec 32)
  | setend
  | vmsr (val : BitVec 32)
  | vfpCmp (flags : BitVec 4)
  | setQc
  | raise (flags : BitVec 8)
  | raiseStandard (flags : BitVec 8)

def Effect.apply (env : Env) : Effect → Env
  | .setReg i v => { env with regs := Function.update env.regs i v }
  | .setVfpReg i v => { env with vfpRegs := Function.update env.vfpRegs i v }
  | .setNzcv nf zf vf cf => { env with nf := nf, zf := zf, vf := vf, cf := cf }
  | .setQf => { env with qf := 1 }
  | .setGe ge => { env with ge := ge }
  | .setThumb thumb => { env with thumb := thumb }
  | .setCondexec bits => { env with condexecBits := bits }
  | .msr val mask => cpsrWrite env val (mask &&& cpsrUser)
  | .setend => { env with uncachedCpsr := env.uncachedCpsr ^^^ cpsrE }
  | .vmsr val => vfpSetFpscr env val
  | .vfpCmp flags =>
    { env with fpscr := (flags.setWidth 32 <<< 28) ||| (env.fpscr &&& 0x0fffffff#32) }
  | .setQc => { env with fpscr := env.fpscr ||| cpsrQ }
  | .raise flags =>
    let status := env.fpStatus
    { env with fpStatus := { status with exceptionFlags := status.exceptionFlags ||| flags } }
  | .raiseStandard flags =>
    let status := env.standardFpStatus
    { env with
      standardFpStatus := { status with exceptionFlags := status.exceptionFlags ||| flags } }

/-- The arguments of `exec`. -/
structure Context where
  regs : Fin 16 → BitVec 32
  fpregs : Fin 32 → BitVec 64
  cpsr : BitVec 32
  fpscr : BitVec 32
  fpexc : BitVec 32

def fpscrMask : BitVec 32 := 0xF7F7009F#32

def fpexcMask : BitVec 32 := 0xE0000000#32

/-- The beginning of `exec`. The masked value of the FPEXC that it computes first is not used. -/
def loadContext (env : Env) (ctx : Context) : Env :=
  let env := cpsrWrite env ctx.cpsr 0xFFFFFFFF#32
  let env := vfpSetFpscr env ctx.fpscr
  let env := { env with fpexc := env.fpexc ||| (ctx.fpexc &&& fpexcMask) }
  { env with regs := ctx.regs, vfpRegs := ctx.fpregs }

/-- The end of `exec`; the mask for the CPSR has all bits. -/
def storeContext (env : Env) (ctx : Context) : Context where
  regs := env.regs
  fpregs := env.vfpRegs
  cpsr := cpsrRead env
  fpscr := (ctx.fpscr &&& ~~~ fpscrMask) ||| (vfpGetFpscr env &&& fpscrMask)
  fpexc := (ctx.fpexc &&& ~~~ fpexcMask) ||| (env.fpexc &&& fpexcMask)

/-- `cpu_reset` in user mode. -/
def resetEnv : Env where
  regs := fun _ => 0
  uncachedCpsr := 0x10#32
  cf := 0
  vf := 0
  nf := 0
  zf := 0
  qf := 0
  ge := 0
  thumb := 0
  condexecBits := 0
  daif := 0
  vfpRegs := fun _ => 0
  fpscr := 0
  fpexc := 0x40000000#32
  vecLen := 0
  vecStride := 0
  fpStatus := ⟨.nearestEven, false, false, false, 0⟩
  standardFpStatus := ⟨.nearestEven, true, true, true, 0⟩

end TcgArm.Cpu
