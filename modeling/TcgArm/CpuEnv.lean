import TcgArm.ItState
import TcgArm.Literals

/-! The processor state behind the flags of a translation block (`CPUARMState`), the questions that
the translator asks of it, and the functions that write the fields which are packed into the flags. -/

namespace TcgArm.CpuEnv

abbrev Word := BitVec 32

abbrev Long := BitVec 64

/-- `CONFIG_USER_ONLY`. -/
structure Build where
  userOnly : Bool
  deriving DecidableEq, Repr

/-- The features that are asked for. -/
structure Features where
  m : Bool
  v6 : Bool
  v7 : Bool
  v8 : Bool
  el2 : Bool
  el3 : Bool
  aarch64 : Bool
  deriving DecidableEq, Repr

/-- System registers. `sctlr_ns` and `sctlr_s` are `sctlr_el[1]` and `sctlr_el[3]`. -/
structure Cp15 where
  sctlrEl : BitVec 2 → Long
  scrEl3 : Long
  hcrEl2 : Long
  cpacrEl1 : Long
  cptrEl2 : Long
  cptrEl3 : Long
  mdscrEl1 : Long
  mdcrEl2 : Long
  mdcrEl3 : Long
  sder : Long
  c15Cpar : Word

inductive RoundingMode where
  | nearestEven
  | up
  | down
  | toZero
  deriving DecidableEq, Repr

structure FloatStatus where
  rounding : RoundingMode
  flushToZero : Bool
  flushInputsToZero : Bool
  defaultNan : Bool
  /-- Invalid, division by zero, overflow, underflow, inexact and input denormal. -/
  exceptionFlags : BitVec 6
  deriving DecidableEq, Repr

structure Vfp where
  fpscr : Word
  fpexc : Word
  vecLen : Word
  vecStride : Word
  fpStatus : FloatStatus
  standardFlags : BitVec 6

/-- The registers that a change of mode exchanges. -/
structure Banks where
  usrRegs : Fin 5 → Word
  fiqRegs : Fin 5 → Word
  r13 : Fin 8 → Word
  r14 : Fin 8 → Word
  spsr : Fin 8 → Word

structure Env where
  features : Features
  aarch64 : Bool
  pstate : Word
  pc : Long
  regs : Fin 16 → Word
  uncachedCpsr : Word
  spsr : Word
  banks : Banks
  cf : Word
  vf : Word
  nf : Word
  zf : Word
  qf : Word
  ge : Word
  thumb : Word
  condexecBits : Word
  daif : Long
  cp15 : Cp15
  v7mControl : Word
  v7mException : Word
  vfp : Vfp

inductive Mode where
  | usr
  | fiq
  | irq
  | svc
  | mon
  | abt
  | hyp
  | und
  | sys
  deriving DecidableEq, Repr

/-- `ARM_CPU_MODE_*`. -/
def Mode.ofBits : Word → Option Mode
  | 0x10 => some .usr
  | 0x11 => some .fiq
  | 0x12 => some .irq
  | 0x13 => some .svc
  | 0x16 => some .mon
  | 0x17 => some .abt
  | 0x1a => some .hyp
  | 0x1b => some .und
  | 0x1f => some .sys
  | _ => none

def cpsrM : Word := 0x1f

def Env.mode (env : Env) : Option Mode := Mode.ofBits (env.uncachedCpsr &&& cpsrM)

section Levels

variable (b : Build) (env : Env)

def armIsSecureBelowEl3 : Bool :=
  if b.userOnly then false
  else if env.features.el3 then !env.cp15.scrEl3.getLsbD 0
  else false

def armIsEl3OrMon : Bool :=
  env.features.el3 && (if env.aarch64 then env.pstate.extractLsb' 2 2 == 3 else env.mode == some .mon)

def armIsSecure : Bool :=
  if b.userOnly then false else armIsEl3OrMon env || armIsSecureBelowEl3 b env

/-- `arm_el_is_aa64` for level 3, then 2, then 1. -/
def armEl3IsAa64 : Bool := env.features.aarch64

def armEl2IsAa64 : Bool :=
  armEl3IsAa64 env && (!env.features.el3 || env.cp15.scrEl3.getLsbD 10)

def armEl1IsAa64 : Bool :=
  armEl2IsAa64 env && (!(env.features.el2 && !armIsSecureBelowEl3 b env) || env.cp15.hcrEl2.getLsbD 31)

def accessSecureReg : Bool :=
  env.features.el3 && !armEl3IsAa64 env && !env.cp15.scrEl3.getLsbD 0

def armCurrentEl : BitVec 2 :=
  if env.features.m then
    BitVec.setWidth 2 (BitVec.ofBool (!(env.v7mException == 0 && env.v7mControl.getLsbD 0)))
  else if env.aarch64 then env.pstate.extractLsb' 2 2
  else match env.mode with
    | some .usr => 0
    | some .hyp => 2
    | some .mon => 3
    | _ => if armIsSecure b env && !armEl3IsAa64 env then 3 else 1

/-- `ARMMMUIdx`: the level, with secure levels 0 and 1 after the others. -/
def cpuMmuIndex : BitVec 3 :=
  let el := (armCurrentEl b env).setWidth 3
  if el < 2 ∧ armIsSecureBelowEl3 b env then 4 + el else el

def armDebugTargetEl : BitVec 2 :=
  let secure := armIsSecure b env
  let routeToEl2 := env.features.el2 && !secure && (env.cp15.hcrEl2.getLsbD 27 || env.cp15.mdcrEl2.getLsbD 8)
  if routeToEl2 then 2
  else if env.features.el3 && !armEl3IsAa64 env && secure then 3
  else 1

def aa64GenerateDebugExceptions : Bool :=
  if armIsSecure b env && (env.cp15.mdcrEl3.getLsbD 16 || armCurrentEl b env == 3) then false
  else if armCurrentEl b env == armDebugTargetEl b env &&
      (!env.cp15.mdscrEl1.getLsbD 13 || env.daif.getLsbD 9) then false
  else true

def aa32GenerateDebugExceptions : Bool :=
  let el := armCurrentEl b env
  if el == 0 && armEl1IsAa64 b env then aa64GenerateDebugExceptions b env
  else if armIsSecure b env then
    if el == 0 && env.cp15.sder.getLsbD 0 then true
    else env.cp15.mdcrEl3.extractLsb' 14 2 != 2
  else el != 2

def armGenerateDebugExceptions : Bool :=
  if env.aarch64 then aa64GenerateDebugExceptions b env else aa32GenerateDebugExceptions b env

def armElIsAa64 (el : BitVec 2) : Bool :=
  if el = 3 then armEl3IsAa64 env else if el = 2 then armEl2IsAa64 env else armEl1IsAa64 b env

def armSinglestepActive : Bool :=
  env.cp15.mdscrEl1.getLsbD 0 && armElIsAa64 b env (armDebugTargetEl b env) &&
    armGenerateDebugExceptions b env

def armSctlrB : Bool := (b.userOnly || !env.features.v7) && (env.cp15.sctlrEl 1).getLsbD 7

def armCpuDataIsBigEndian : Bool :=
  if !env.aarch64 then (b.userOnly && armSctlrB b env) || env.uncachedCpsr.getLsbD 9
  else
    let curEl := armCurrentEl b env
    if curEl = 0 then (env.cp15.sctlrEl 1).getLsbD 24 else (env.cp15.sctlrEl curEl).getLsbD 25

/-- The level that an exception for disabled floating point goes to, or 0. -/
def fpExceptionEl : BitVec 2 :=
  let curEl := armCurrentEl b env
  let traps : BitVec 2 :=
    if curEl ≤ 2 ∧ env.cp15.cptrEl2.getLsbD 10 ∧ !armIsSecureBelowEl3 b env then 2
    else if env.cp15.cptrEl3.getLsbD 10 then 3
    else 0
  if !env.features.v6 then 0
  else match env.cp15.cpacrEl1.extractLsb' 20 2 with
    | 1 => if curEl = 0 then 1 else traps
    | 3 => traps
    | _ =>
      if curEl = 0 ∨ curEl = 1 then (if armIsSecure b env && !armEl3IsAa64 env then 3 else 1)
      else if curEl = 3 ∧ !env.aarch64 then 3
      else traps

end Levels

inductive CPSRWriteType where
  | byInstr
  | exceptionReturn
  | raw
  | byGDBStub
  deriving DecidableEq, Repr

def cpsrT : Word := 1 <<< 5

def cpsrF : Word := 1 <<< 6

def cpsrA : Word := 1 <<< 8

def cpsrIT27 : Word := 0xfc00

def cpsrGE : Word := 0xf <<< 16

def cpsrIL : Word := 1 <<< 20

def cpsrIT01 : Word := 3 <<< 25

def cpsrQ : Word := 1 <<< 27

def cpsrZ : Word := 1 <<< 30

def cpsrNZCV : Word := 0xf <<< 28

def cpsrAIF : Word := 7 <<< 6

def cachedCpsrBits : Word := cpsrT ||| cpsrAIF ||| cpsrGE ||| (cpsrIT01 ||| cpsrIT27) ||| cpsrQ |||
  cpsrNZCV

section Cached

variable (env : Env) (val mask : Word)

def writeNZCV : Env :=
  if mask &&& cpsrNZCV ≠ 0 then
    { env with zf := ~~~ val &&& cpsrZ, nf := val, cf := (val >>> 29) &&& 1
               vf := (val <<< 3) &&& 0x80000000 }
  else env

def writeQ : Env :=
  if mask &&& cpsrQ ≠ 0 then { env with qf := if val &&& cpsrQ ≠ 0 then 1 else 0 } else env

def writeT : Env :=
  if mask &&& cpsrT ≠ 0 then { env with thumb := if val &&& cpsrT ≠ 0 then 1 else 0 } else env

def writeIT01 : Env :=
  if mask &&& cpsrIT01 ≠ 0 then
    { env with condexecBits := (env.condexecBits &&& ~~~ (3 : Word)) ||| ((val >>> 25) &&& 3) }
  else env

def writeIT27 : Env :=
  if mask &&& cpsrIT27 ≠ 0 then
    { env with condexecBits := (env.condexecBits &&& 3) ||| ((val >>> 8) &&& 0xfc) }
  else env

def writeGE : Env :=
  if mask &&& cpsrGE ≠ 0 then { env with ge := (val >>> 16) &&& 0xf } else env

def writeCached : Env :=
  writeGE (writeIT27 (writeIT01 (writeT (writeQ (writeNZCV env val mask) val mask) val mask) val mask)
    val mask) val mask

end Cached

/-- `A32_BANKED_CURRENT_REG_GET(env, sctlr)`. -/
def bankedSctlr (b : Build) (env : Env) : Long :=
  if armIsSecure b env && !armEl3IsAa64 env then env.cp15.sctlrEl 3 else env.cp15.sctlrEl 1

/-- The mask without the interrupt bits that non-secure software may not change. -/
def daifMask (b : Build) (env : Env) (val mask : Word) (type : CPSRWriteType) : Word :=
  if type ≠ .raw ∧ !env.features.v8 ∧ env.features.el3 ∧ !env.features.el2 ∧ !armIsSecure b env then
    let changed := (env.daif.setWidth 32 ^^^ val) &&& mask
    let mask := if changed &&& cpsrA ≠ 0 ∧ !env.cp15.scrEl3.getLsbD 5 then mask &&& ~~~ cpsrA else mask
    if changed &&& cpsrF ≠ 0 then
      let mask := if !env.cp15.scrEl3.getLsbD 4 then mask &&& ~~~ cpsrF else mask
      if (bankedSctlr b env).getLsbD 27 ∧ val &&& cpsrF ≠ 0 then mask &&& ~~~ cpsrF else mask
    else mask
  else mask

def badModeSwitch (b : Build) (env : Env) (mode : Word) (type : CPSRWriteType) : Bool :=
  if type = .byInstr ∧ (env.mode = some .hyp ∨ Mode.ofBits mode = some .hyp) then true
  else match Mode.ofBits mode with
    | some .usr => false
    | some .hyp => !env.features.el2 || decide (armCurrentEl b env < 2) || armIsSecure b env
    | some .mon => decide (armCurrentEl b env < 3)
    | some _ => type == .byInstr && env.cp15.hcrEl2.getLsbD 27 && env.mode == some .mon &&
        !armIsSecureBelowEl3 b env
    | none => true

def bankNumber : Mode → Fin 8
  | .usr | .sys => 0
  | .svc => 1
  | .abt => 2
  | .und => 3
  | .irq => 4
  | .fiq => 5
  | .hyp => 6
  | .mon => 7

/-- Registers 8 to 12. -/
def highRegs (regs : Fin 16 → Word) : Fin 5 → Word := fun i => regs ⟨i + 8, by omega⟩

def withHighRegs (regs : Fin 16 → Word) (high : Fin 5 → Word) : Fin 16 → Word := fun r =>
  if h : 8 ≤ r.val ∧ r.val < 13 then high ⟨r.val - 8, by omega⟩ else regs r

/-- Exchange the banked registers. In user mode there is no other mode to switch to. -/
def switchMode (b : Build) (env : Env) (mode : Word) : Option Env :=
  if b.userOnly then (if Mode.ofBits mode = some .usr then some env else none)
  else if mode = env.uncachedCpsr &&& cpsrM then some env
  else (Mode.ofBits mode).bind fun new => env.mode.map fun old =>
    let env := if old = .fiq then
        { env with banks := { env.banks with fiqRegs := highRegs env.regs }
                   regs := withHighRegs env.regs env.banks.usrRegs }
      else if new = .fiq then
        { env with banks := { env.banks with usrRegs := highRegs env.regs }
                   regs := withHighRegs env.regs env.banks.fiqRegs }
      else env
    let env := { env with banks := { env.banks with
      r13 := Function.update env.banks.r13 (bankNumber old) (env.regs 13)
      r14 := Function.update env.banks.r14 (bankNumber old) (env.regs 14)
      spsr := Function.update env.banks.spsr (bankNumber old) env.spsr } }
    { env with
      regs := Function.update (Function.update env.regs 13 (env.banks.r13 (bankNumber new))) 14
        (env.banks.r14 (bankNumber new))
      spsr := env.banks.spsr (bankNumber new) }

def writeMode (b : Build) (env : Env) (val mask : Word) (type : CPSRWriteType) :
    Option (Env × Word × Word) :=
  if type ≠ .raw ∧ (env.uncachedCpsr ^^^ val) &&& mask &&& cpsrM ≠ 0 then
    if env.mode = some .usr then some (env, val, mask &&& ~~~ cpsrM)
    else if badModeSwitch b env (val &&& cpsrM) type then
      if type ≠ .byGDBStub ∧ env.features.v8 then
        some (env, val ||| cpsrIL, (mask &&& ~~~ cpsrM) ||| cpsrIL)
      else some (env, val, mask &&& ~~~ cpsrM)
    else (switchMode b env (val &&& cpsrM)).map fun env => (env, val, mask)
  else some (env, val, mask)

/-- `none` where the source aborts. -/
def cpsrWrite (b : Build) (env : Env) (val mask : Word) (type : CPSRWriteType) : Option Env :=
  let env := writeCached env val mask
  let mask := daifMask b env val mask type
  let env := { env with
    daif := (env.daif &&& (~~~ (cpsrAIF &&& mask)).setWidth 64) ||| (val &&& cpsrAIF &&& mask).setWidth 64 }
  (writeMode b env val mask type).map fun (env, val, mask) =>
    let mask := mask &&& ~~~ cachedCpsrBits
    { env with uncachedCpsr := (env.uncachedCpsr &&& ~~~ mask) ||| (val &&& mask) }

def roundingOf : BitVec 2 → RoundingMode
  | 0 => .nearestEven
  | 1 => .up
  | 2 => .down
  | _ => .toZero

def vfpExceptbitsToHost (bits : Word) : BitVec 6 := bits.extractLsb' 7 1 ++ bits.extractLsb' 0 5

def vfpSetFpscr (env : Env) (val : Word) : Env :=
  let changed := env.vfp.fpscr ^^^ val
  let status := env.vfp.fpStatus
  let status := if changed.extractLsb' 22 2 ≠ 0 then
      { status with rounding := roundingOf (val.extractLsb' 22 2) }
    else status
  let status := if changed.getLsbD 24 then
      { status with flushToZero := val.getLsbD 24, flushInputsToZero := val.getLsbD 24 }
    else status
  let status := if changed.getLsbD 25 then { status with defaultNan := val.getLsbD 25 } else status
  { env with vfp := { env.vfp with
      fpscr := val &&& 0xffc8ffff
      vecLen := (val >>> 16) &&& 7
      vecStride := (val >>> 20) &&& 3
      fpStatus := { status with exceptionFlags := vfpExceptbitsToHost val }
      standardFlags := 0 } }

end TcgArm.CpuEnv
