import TcgArm.CpuEnv
import TcgArm.Transition

/-! The flags of a translation block (`ARM_TBFLAG_*`): what `cpu_get_tb_cpu_state` packs into them,
what `gen_intermediate_code` takes out, and that between the two nothing of an AArch32 state is
lost. -/

namespace TcgArm.CpuEnv

open BitVec ItState

def flagBit (c : Bool) (shift : Nat) : Word := if c then (1 : Word) <<< shift else 0

structure TbState where
  pc : Word
  csBase : Word
  flags : Word
  deriving DecidableEq, Repr

def vfpEnabled (b : Build) (env : Env) : Bool := env.vfp.fpexc.getLsbD 30 || armEl1IsAa64 b env

/-- The flags of an AArch32 state only. -/
def aarch32Flags (b : Build) (env : Env) : Word :=
  (env.thumb <<< 0) ||| (env.vfp.vecLen <<< 1) ||| (env.vfp.vecStride <<< 4) |||
    (env.condexecBits <<< 8) ||| flagBit (armSctlrB b env) 16 |||
    flagBit (!accessSecureReg env) 19 ||| flagBit (vfpEnabled b env) 7 |||
    placed (env.cp15.c15Cpar.extractLsb' 0 2) 17

/-- `PSTATE.SS` is bit 21 of either status register. -/
def pstateSs (env : Env) : Bool :=
  if env.aarch64 then env.pstate.getLsbD 21 else env.uncachedCpsr.getLsbD 21

def cpuGetTbCpuState (b : Build) (env : Env) : TbState :=
  let flags := if env.aarch64 then (1 : Word) <<< 31 else aarch32Flags b env
  let flags := flags ||| placed (cpuMmuIndex b env) 28
  let flags := flags ||| flagBit (armSinglestepActive b env) 27 |||
    flagBit (armSinglestepActive b env && pstateSs env) 26
  let flags := flags ||| flagBit (armCpuDataIsBigEndian b env) 20
  { pc := if env.aarch64 then env.pc.setWidth 32 else env.regs 15
    csBase := 0
    flags := flags ||| placed (fpExceptionEl b env) 24 }

def tbflag (flags : Word) (shift len : Nat) : Word :=
  (flags &&& BitVec.ofNat 32 ((2 ^ len - 1) <<< shift)) >>> shift

/-- The part of `DisasContext` that a block starts from. -/
structure DisasContext where
  pc : Word
  secureRoutedToEl3 : Bool
  thumb : Word
  sctlrB : Word
  beData : Bool
  it : ItState
  mmuIdx : Word
  currentEl : Word
  user : Bool
  ns : Word
  fpExcpEl : Word
  vfpEnabled : Word
  vecLen : Word
  vecStride : Word
  c15Cpar : Word
  features : Features
  ssActive : Word
  pstateSs : Word
  deriving DecidableEq

/-- The start of `gen_intermediate_code`, of an AArch32 block. -/
def startContext (b : Build) (features : Features) (tb : TbState) : DisasContext :=
  let f := tb.flags
  let currentEl := tbflag f 28 3 &&& 3
  { pc := tb.pc
    secureRoutedToEl3 := features.el3 && !features.aarch64
    thumb := tbflag f 0 1
    sctlrB := tbflag f 16 1
    beData := decide (tbflag f 20 1 ≠ 0)
    it := ⟨tbflag f 8 8 >>> 4, (tbflag f 8 8 &&& 0xf) <<< 1⟩
    mmuIdx := tbflag f 28 3
    currentEl := currentEl
    user := b.userOnly || decide (currentEl = 0)
    ns := tbflag f 19 1
    fpExcpEl := tbflag f 24 2
    vfpEnabled := tbflag f 7 1
    vecLen := tbflag f 1 3
    vecStride := tbflag f 4 2
    c15Cpar := tbflag f 17 2
    features := features
    ssActive := tbflag f 27 1
    pstateSs := tbflag f 26 1 }

def trueContext (b : Build) (env : Env) : DisasContext where
  pc := env.regs 15
  secureRoutedToEl3 := env.features.el3 && !armEl3IsAa64 env
  thumb := env.thumb
  sctlrB := (BitVec.ofBool (armSctlrB b env)).setWidth 32
  beData := armCpuDataIsBigEndian b env
  it := ItState.start env.condexecBits
  mmuIdx := (cpuMmuIndex b env).setWidth 32
  currentEl := (armCurrentEl b env).setWidth 32
  user := b.userOnly || decide (armCurrentEl b env = 0)
  ns := (BitVec.ofBool (!accessSecureReg env)).setWidth 32
  fpExcpEl := (fpExceptionEl b env).setWidth 32
  vfpEnabled := (BitVec.ofBool (vfpEnabled b env)).setWidth 32
  vecLen := env.vfp.vecLen
  vecStride := env.vfp.vecStride
  c15Cpar := (env.cp15.c15Cpar.extractLsb' 0 2).setWidth 32
  features := env.features
  ssActive := (BitVec.ofBool (armSinglestepActive b env)).setWidth 32
  pstateSs := (BitVec.ofBool (armSinglestepActive b env && pstateSs env)).setWidth 32

/-- The packed fields have no more bits than the flags have room for. -/
structure InRange (env : Env) : Prop where
  thumb : env.thumb.toNat < 2 ^ 1
  vecLen : env.vfp.vecLen.toNat < 2 ^ 3
  vecStride : env.vfp.vecStride.toNat < 2 ^ 2
  condexec : env.condexecBits.toNat < 2 ^ 8

theorem flagBit_eq (c : Bool) (shift : Nat) : flagBit c shift = placed (ofBool c) shift := by
  cases c <;> simp [flagBit, placed]

theorem tbflag_eq (flags : Word) {shift len : Nat} (h : shift + len ≤ 32) :
    tbflag flags shift len = (flags.extractLsb' shift len).setWidth 32 := field_shifted flags h

section Pack

variable {b : Build} {env : Env}

/-- The flags as a word of fields that lie side by side. -/
theorem flags_eq (hrange : InRange env) (h32 : env.aarch64 = false) :
    (cpuGetTbCpuState b env).flags =
      placed (env.thumb.setWidth 1) 0 ||| placed (env.vfp.vecLen.setWidth 3) 1 |||
        placed (env.vfp.vecStride.setWidth 2) 4 ||| placed (env.condexecBits.setWidth 8) 8 |||
        placed (ofBool (armSctlrB b env)) 16 |||
        placed (ofBool (!accessSecureReg env)) 19 |||
        placed (ofBool (vfpEnabled b env)) 7 |||
        placed (env.cp15.c15Cpar.extractLsb' 0 2) 17 ||| placed (cpuMmuIndex b env) 28 |||
        placed (ofBool (armSinglestepActive b env)) 27 |||
        placed (ofBool (armSinglestepActive b env && pstateSs env)) 26 |||
        placed (ofBool (armCpuDataIsBigEndian b env)) 20 |||
        placed (fpExceptionEl b env) 24 := by
  simp only [cpuGetTbCpuState, h32, Bool.false_eq_true, if_false, aarch32Flags,
    shiftLeft_of_lt hrange.thumb, shiftLeft_of_lt hrange.vecLen, shiftLeft_of_lt hrange.vecStride,
    shiftLeft_of_lt hrange.condexec, flagBit_eq, BitVec.or_assoc]

theorem setWidth_back {x : Word} {k : Nat} (h : x.toNat < 2 ^ k) : (x.setWidth k).setWidth 32 = x := by
  apply eq_of_toNat_eq
  rw [toNat_setWidth, toNat_setWidth, Nat.mod_eq_of_lt h, Nat.mod_eq_of_lt x.isLt]

theorem mmuIndex_level : (cpuMmuIndex b env).setWidth 32 &&& 3#32 = (armCurrentEl b env).setWidth 32 := by
  rw [cpuMmuIndex]
  generalize armCurrentEl b env = el
  generalize armIsSecureBelowEl3 b env = secure
  revert el
  cases secure <;> decide

theorem startContext_eq (hrange : InRange env) (h32 : env.aarch64 = false) :
    startContext b env.features (cpuGetTbCpuState b env) = trueContext b env := by
  have hpc : (cpuGetTbCpuState b env).pc = env.regs 15 := by
    simp only [cpuGetTbCpuState, h32, Bool.false_eq_true, if_false]
  simp (disch := omega) only [startContext, trueContext, tbflag_eq, hpc, flags_eq hrange h32,
    extractLsb'_or, extract_placed, extract_elsewhere, ofNat_eq_ofNat, or_zero,
    zero_or, setWidth_back hrange.thumb, setWidth_back hrange.vecLen,
    setWidth_back hrange.vecStride, setWidth_back hrange.condexec, start]
  have hendian : ∀ c : Bool, decide ((ofBool c).setWidth 32 ≠ 0#32) = c := by decide
  have hlevel : ∀ el : BitVec 2, decide (el.setWidth 32 = 0#32) = decide (el = 0#2) := by decide
  rw [mmuIndex_level, hendian, hlevel, armEl3IsAa64]

end Pack

/-- The ways in which the fields behind the flags change. Translated Thumb code stores the IT bits of
its context when it leaves a block, and an exception in the middle of a block restores those of the
instruction. -/
inductive Write where
  | cpsr (val mask : Word) (type : CPSRWriteType)
  | fpscr (val : Word)
  | fpexc (val : Word)
  | leaveBlock (insns : List ItState.Insn)
  | restoreState (insns : List ItState.Insn)
  | branchExchange (dest : Word)
  | registers (regs : Fin 16 → Word)
  | system (cp15 : Cp15)

def exec (b : Build) (env : Env) : Write → Option Env
  | .cpsr val mask type => cpsrWrite b env val mask type
  | .fpscr val => some (vfpSetFpscr env val)
  | .fpexc val => some { env with vfp := { env.vfp with fpexc := val } }
  | .leaveBlock insns =>
    let it := (ItState.start env.condexecBits).after insns
    some { env with condexecBits := if it.mask ≠ 0 then it.packed else 0 }
  | .restoreState insns =>
    some { env with condexecBits := ((ItState.start env.condexecBits).after insns).packed }
  | .branchExchange dest =>
    some { env with regs := Function.update env.regs 15 (dest &&& ~~~ (1 : Word)), thumb := dest &&& 1 }
  | .registers regs => some { env with regs := regs }
  | .system cp15 => some { env with cp15 := cp15 }

/-- The packed fields after a reset. -/
structure AtReset (env : Env) : Prop where
  thumb : env.thumb = 0 ∨ env.thumb = 1
  vecLen : env.vfp.vecLen = 0
  vecStride : env.vfp.vecStride = 0
  condexec : env.condexecBits = 0

/-- A state of an AArch32 processor that some sequence of writes leads to. -/
def Reachable (b : Build) (env : Env) : Prop :=
  env.aarch64 = false ∧ ∃ start writes, AtReset start ∧ Transition.execAll (exec b) start writes = some env

section Writers

variable {b : Build} {env env' : Env}

theorem AtReset.inRange (h : AtReset env) : InRange env := by
  obtain ⟨hthumb, hlen, hstride, hcond⟩ := h
  refine ⟨?_, by rw [hlen]; decide, by rw [hstride]; decide, by rw [hcond]; decide⟩
  rcases hthumb with h | h <;> rw [h] <;> decide

/-- The packed fields are the same. -/
structure SamePacked (env env' : Env) : Prop where
  thumb : env'.thumb = env.thumb
  condexec : env'.condexecBits = env.condexecBits
  vfp : env'.vfp = env.vfp

theorem InRange.same (h : InRange env) (hsame : SamePacked env env') : InRange env' := by
  obtain ⟨hthumb, hcond, hvfp⟩ := hsame
  exact ⟨hthumb ▸ h.thumb, hvfp ▸ h.vecLen, hvfp ▸ h.vecStride, hcond ▸ h.condexec⟩

theorem switchMode_same {mode : Word} (h : switchMode b env mode = some env') : SamePacked env env' := by
  rw [switchMode] at h
  split at h
  · split at h
    · cases h
      exact ⟨rfl, rfl, rfl⟩
    · exact absurd h (by simp)
  split at h
  · cases h
    exact ⟨rfl, rfl, rfl⟩
  · obtain ⟨new, _, h⟩ := Option.bind_eq_some_iff.mp h
    obtain ⟨old, _, h⟩ := Option.map_eq_some_iff.mp h
    subst h
    dsimp only
    split
    · exact ⟨rfl, rfl, rfl⟩
    · split <;> exact ⟨rfl, rfl, rfl⟩

theorem writeMode_same {val mask : Word} {type : CPSRWriteType} {rest : Word × Word}
    (h : writeMode b env val mask type = some (env', rest)) : SamePacked env env' := by
  have hrefl : SamePacked env env := ⟨rfl, rfl, rfl⟩
  rw [writeMode] at h
  split at h
  · split at h
    · cases h
      exact hrefl
    split at h
    · split at h <;> (cases h; exact hrefl)
    · obtain ⟨env1, hswitch, h⟩ := Option.map_eq_some_iff.mp h
      cases h
      exact switchMode_same hswitch
  · cases h
    exact hrefl

theorem toNat_and_lt_left {x m : Word} {k : Nat} (h : x.toNat < 2 ^ k) : (x &&& m).toNat < 2 ^ k := by
  rw [toNat_and]
  exact Nat.and_le_left.trans_lt h

section

variable (h : InRange env)
include h

theorem writeT_inRange (val mask : Word) : InRange (writeT env val mask) := by
  rw [writeT]
  split
  · refine ⟨?_, h.vecLen, h.vecStride, h.condexec⟩
    dsimp only
    split <;> decide
  · exact h

theorem writeIT01_inRange (val mask : Word) : InRange (writeIT01 env val mask) := by
  rw [writeIT01]
  split
  · exact ⟨h.thumb, h.vecLen, h.vecStride, toNat_or_lt (toNat_and_lt_left h.condexec)
      (toNat_and_lt (by decide))⟩
  · exact h

theorem writeIT27_inRange (val mask : Word) : InRange (writeIT27 env val mask) := by
  rw [writeIT27]
  split
  · exact ⟨h.thumb, h.vecLen, h.vecStride, toNat_or_lt (toNat_and_lt_left h.condexec)
      (toNat_and_lt (by decide))⟩
  · exact h

theorem writeCached_inRange (val mask : Word) : InRange (writeCached env val mask) := by
  have hflags : SamePacked env (writeQ (writeNZCV env val mask) val mask) := by
    rw [writeQ, writeNZCV]
    split <;> split <;> exact ⟨rfl, rfl, rfl⟩
  have hge : ∀ env, SamePacked env (writeGE env val mask) := by
    intro env
    rw [writeGE]
    split <;> exact ⟨rfl, rfl, rfl⟩
  exact (writeIT27_inRange (writeIT01_inRange (writeT_inRange (h.same hflags) val mask) val mask) val
    mask).same (hge _)

theorem cpsrWrite_inRange {val mask : Word} {type : CPSRWriteType}
    (hwrite : cpsrWrite b env val mask type = some env') : InRange env' := by
  obtain ⟨⟨env1, rest⟩, hmode, hend⟩ := Option.map_eq_some_iff.mp hwrite
  have hcached := writeCached_inRange h val mask
  have hsame := writeMode_same hmode
  subst hend
  exact (hcached.same ⟨hsame.thumb, hsame.condexec, hsame.vfp⟩).same ⟨rfl, rfl, rfl⟩

theorem exec_inRange {write : Write} (hexec : exec b env write = some env') :
    InRange env' := by
  have hafter : ∀ insns, ((start env.condexecBits).after insns).packed.toNat < 2 ^ 8 :=
    fun insns => packed_lt (after_fits (start_fits h.condexec) insns)
  cases write with
  | cpsr val mask type => exact cpsrWrite_inRange h hexec
  | fpscr val =>
    cases hexec
    exact ⟨h.thumb, toNat_and_lt (by decide), toNat_and_lt (by decide), h.condexec⟩
  | fpexc | registers | system =>
    cases hexec
    exact ⟨h.thumb, h.vecLen, h.vecStride, h.condexec⟩
  | leaveBlock insns =>
    cases hexec
    refine ⟨h.thumb, h.vecLen, h.vecStride, ?_⟩
    dsimp only
    split
    · exact hafter insns
    · decide
  | restoreState insns =>
    cases hexec
    exact ⟨h.thumb, h.vecLen, h.vecStride, hafter insns⟩
  | branchExchange dest =>
    cases hexec
    exact ⟨toNat_and_lt (by decide), h.vecLen, h.vecStride, h.condexec⟩

end

theorem Reachable.inRange (h : Reachable b env) : InRange env := by
  obtain ⟨_, start, writes, hreset, hrun⟩ := h
  exact (Transition.run_of_execAll hrun).invariant InRange (fun _ _ _ h hexec => exec_inRange h hexec)
    hreset.inRange

end Writers

/-- States that look the same to the block lookup are translated from the same context, and it is the
true one of each. -/
theorem same_flags_same_context (b : Build) {env env' : Env} (h : Reachable b env) (h' : Reachable b env')
    (hfeatures : env.features = env'.features) (htb : cpuGetTbCpuState b env = cpuGetTbCpuState b env') :
    startContext b env.features (cpuGetTbCpuState b env) =
        startContext b env'.features (cpuGetTbCpuState b env') ∧
      startContext b env.features (cpuGetTbCpuState b env) = trueContext b env ∧
      startContext b env'.features (cpuGetTbCpuState b env') = trueContext b env' :=
  ⟨by rw [htb, hfeatures], startContext_eq h.inRange h.1, startContext_eq h'.inRange h'.1⟩

/-- `arm_cpu_reset` of a 32-bit processor in user mode, without IWMMXT and XScale. -/
def armCpuReset (features : Features) : Env where
  features := features
  aarch64 := false
  pstate := 0
  pc := 0
  regs := fun _ => 0
  uncachedCpsr := 0x10
  spsr := 0
  banks := ⟨fun _ => 0, fun _ => 0, fun _ => 0, fun _ => 0, fun _ => 0⟩
  cf := 0
  vf := 0
  nf := 0
  zf := 0
  qf := 0
  ge := 0
  thumb := 0
  condexecBits := 0
  daif := 0
  cp15 := ⟨fun _ => 0, 0, 0, 0xf00000, 0, 0, 0, 0, 0, 0, 0⟩
  v7mControl := 0
  v7mException := 0
  vfp := ⟨0, 1 <<< 30, 0, 0, ⟨.nearestEven, false, false, false, 0⟩, 0⟩

/-- Vectors of four with stride two, a return to the middle of an IT block, and something in `r0`. -/
def vectorWrites (r0 : Word) : List Write :=
  [.fpscr 0x00130000, .cpsr 0x0000ac30 0xfc20 .byInstr, .registers (Function.update (fun _ => 0) 0 r0)]

def vectorState (r0 : Word) : Env :=
  let reset := armCpuReset ⟨false, true, true, false, false, false, false⟩
  (Transition.execAll (exec ⟨true⟩) reset (vectorWrites r0)).getD reset

theorem vectorState_reachable (r0 : Word) : Reachable ⟨true⟩ (vectorState r0) :=
  ⟨rfl, _, vectorWrites r0, (⟨.inl rfl, rfl, rfl, rfl⟩ : AtReset (armCpuReset
    ⟨false, true, true, false, false, false, false⟩)), rfl⟩

theorem same_flags_same_context_vectors :
    (vectorState 1).regs ≠ (vectorState 2).regs ∧
      startContext ⟨true⟩ (vectorState 1).features (cpuGetTbCpuState ⟨true⟩ (vectorState 1)) =
        startContext ⟨true⟩ (vectorState 2).features (cpuGetTbCpuState ⟨true⟩ (vectorState 2)) :=
  ⟨fun h => absurd (congrFun h 0) (by decide),
    (same_flags_same_context ⟨true⟩ (vectorState_reachable 1) (vectorState_reachable 2) rfl (by decide)).1⟩

end TcgArm.CpuEnv
