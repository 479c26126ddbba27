import TcgArm.CpuContext

/-! What a call of `exec` sees of the pooled CPU it runs on. The caller's context determines all the
state that guest code can see, whatever earlier calls left in the CPU; only the FPEXC collects bits
of all callers. How many blocks a call executes depends on which blocks are already translated, and a
block runs as it was translated, whatever the guest's memory holds by then. -/

namespace TcgArm.Cpu

open Function
open Tb (Store)
open Transition BitVec

theorem getLsbD_bitFor {w : Nat} (set : Bool) (bit : BitVec w) (i : Nat) :
    (bitFor set bit).getLsbD i = (set && bit.getLsbD i) := by
  unfold bitFor
  split <;> simp_all

theorem getLsbD_eq_of_xor_and {a b mask : BitVec 32} (h : (a ^^^ b) &&& mask = 0) {i : Nat}
    (hi : mask.getLsbD i = true) : a.getLsbD i = b.getLsbD i := by
  have hbit := congrArg (·.getLsbD i) h
  simpa [hi] using hbit

theorem and_signBit (x : BitVec 32) : x &&& 0x80000000#32 = bitFor x.msb 0x80000000#32 := by
  apply eq_of_getLsbD_eq
  intro i hi
  rw [getLsbD_bitFor, getLsbD_and, msb_eq_getLsbD_last]
  interval_cases i <;> simp

theorem vfpExceptbitsFromHost_or (a b : BitVec 8) :
    vfpExceptbitsFromHost (a ||| b) = vfpExceptbitsFromHost a ||| vfpExceptbitsFromHost b := by
  have hsplit : ∀ (x y : Bool) (bit : BitVec 32), bitFor (x || y) bit = bitFor x bit ||| bitFor y bit := by
    intro x y bit
    cases x <;> cases y <;> simp [bitFor]
  simp only [vfpExceptbitsFromHost, getLsbD_or, hsplit]
  ac_rfl

theorem vfpGetFpscr_vfpSetFpscr (env : Env) (val : BitVec 32) : vfpGetFpscr (vfpSetFpscr env val) = val := by
  apply eq_of_getLsbD_eq
  intro i hi
  simp only [vfpGetFpscr, vfpSetFpscr, fpscrKept, getLsbD_or, getLsbD_and,
    getLsbD_shiftLeft, getLsbD_setWidth, getLsbD_extractLsb',
    vfpExceptbitsFromHost, vfpExceptbitsToHost, getLsbD_bitFor]
  interval_cases i <;> simp

theorem roundingOf_congr {a b : BitVec 32} (h22 : a.getLsbD 22 = b.getLsbD 22)
    (h23 : a.getLsbD 23 = b.getLsbD 23) : roundingOf a = roundingOf b := by
  have hfield : a.extractLsb' 22 2 = b.extractLsb' 22 2 := by
    apply eq_of_getLsbD_eq
    intro i hi
    rw [getLsbD_extractLsb', getLsbD_extractLsb']
    interval_cases i
    · simpa using h22
    · simpa using h23
  rw [roundingOf, roundingOf, hfield]

/-- The status word of floating point operations follows the FPSCR. -/
structure FloatStatus.Follows (status : FloatStatus) (fpscr : BitVec 32) : Prop where
  roundingMode : status.roundingMode = roundingOf fpscr
  flushToZero : status.flushToZero = fpscr.getLsbD 24
  flushInputsToZero : status.flushInputsToZero = fpscr.getLsbD 24
  defaultNanMode : status.defaultNanMode = fpscr.getLsbD 25

theorem FloatStatus.Follows.congr {status : FloatStatus} {a b : BitVec 32}
    (h : status.Follows a) (hbits : ∀ i, 22 ≤ i → i ≤ 25 → a.getLsbD i = b.getLsbD i)
    (flags : BitVec 8) : { status with exceptionFlags := flags : FloatStatus }.Follows b :=
  ⟨h.roundingMode.trans (roundingOf_congr (hbits 22 (by omega) (by omega))
    (hbits 23 (by omega) (by omega))), h.flushToZero.trans (hbits 24 (by omega) (by omega)),
    h.flushInputsToZero.trans (hbits 24 (by omega) (by omega)),
    h.defaultNanMode.trans (hbits 25 (by omega) (by omega))⟩

structure Env.Sound (env : Env) : Prop where
  uncached : env.uncachedCpsr &&& cachedCpsrBits = 0
  follows : env.fpStatus.Follows env.fpscr
  enabled : env.fpexc.getLsbD 30 = true

theorem sound_reset : resetEnv.Sound := ⟨by decide, ⟨by decide, by decide, by decide, by decide⟩, by decide⟩

variable {env e e' : Env}

/-- A field that the write does not change is right afterwards only if it was right before. -/
theorem follows_vfpSetFpscr_iff (env : Env) (val : BitVec 32) :
    (vfpSetFpscr env val).fpStatus.Follows val ↔
      ((env.fpscr ^^^ val) &&& 0x00c00000#32 = 0 → env.fpStatus.roundingMode = roundingOf val) ∧
      ((env.fpscr ^^^ val) &&& 0x01000000#32 = 0 → env.fpStatus.flushToZero = val.getLsbD 24 ∧
        env.fpStatus.flushInputsToZero = val.getLsbD 24) ∧
      ((env.fpscr ^^^ val) &&& 0x02000000#32 = 0 → env.fpStatus.defaultNanMode = val.getLsbD 25) := by
  have hfollows : ∀ status : FloatStatus, status.Follows val ↔
      status.roundingMode = roundingOf val ∧ (status.flushToZero = val.getLsbD 24 ∧
        status.flushInputsToZero = val.getLsbD 24) ∧ status.defaultNanMode = val.getLsbD 25 :=
    fun status => ⟨fun h => ⟨h.1, ⟨h.2, h.3⟩, h.4⟩, fun h => ⟨h.1, h.2.1.1, h.2.1.2, h.2.2⟩⟩
  rw [hfollows, vfpSetFpscr]
  by_cases hround : (env.fpscr ^^^ val) &&& 0x00c00000#32 = 0#32 <;>
    by_cases hflush : (env.fpscr ^^^ val) &&& 0x01000000#32 = 0#32 <;>
    by_cases hnan : (env.fpscr ^^^ val) &&& 0x02000000#32 = 0#32 <;>
    simp [hround, hflush, hnan]

theorem follows_vfpSetFpscr (h : env.fpStatus.Follows env.fpscr) (val : BitVec 32) :
    (vfpSetFpscr env val).fpStatus.Follows val := by
  have hsame : ∀ {mask : BitVec 32}, (env.fpscr ^^^ val) &&& mask = 0 → ∀ i,
      mask.getLsbD i = true → env.fpscr.getLsbD i = val.getLsbD i := fun hmask _ hi =>
    getLsbD_eq_of_xor_and hmask hi
  refine (follows_vfpSetFpscr_iff env val).mpr ⟨fun hround => ?_, fun hflush => ?_, fun hnan => ?_⟩
  · exact h.roundingMode.trans (roundingOf_congr (hsame hround 22 (by decide)) (hsame hround 23 (by decide)))
  · have hbit := hsame hflush 24 (by decide)
    exact ⟨h.flushToZero.trans hbit, h.flushInputsToZero.trans hbit⟩
  · exact h.defaultNanMode.trans (hsame hnan 25 (by decide))

theorem getLsbD_and_fpscrKept (val : BitVec 32) {i : Nat} (hlow : 22 ≤ i) (hhigh : i ≤ 25) :
    (val &&& fpscrKept).getLsbD i = val.getLsbD i := by
  rw [fpscrKept, getLsbD_and]
  interval_cases i <;> simp

theorem sound_vfpSetFpscr (h : env.Sound) (val : BitVec 32) : (vfpSetFpscr env val).Sound := by
  refine ⟨h.uncached, ?_, h.enabled⟩
  exact (follows_vfpSetFpscr h.follows val).congr
    (fun i hlow hhigh => (getLsbD_and_fpscrKept val hlow hhigh).symm) _

theorem uncached_cpsrWrite (h : env.uncachedCpsr &&& cachedCpsrBits = 0) (val mask : BitVec 32) :
    (cpsrWrite env val mask).uncachedCpsr &&& cachedCpsrBits = 0 := by
  apply eq_of_getLsbD_eq
  intro i hi
  have hbit := congrArg (·.getLsbD i) h
  simp only [cpsrWrite, getLsbD_and, getLsbD_or, getLsbD_not, hi] at hbit ⊢
  cases hcached : cachedCpsrBits.getLsbD i with
  | false => simp
  | true =>
    rw [hcached] at hbit
    simpa using hbit

theorem sound_cpsrWrite (h : env.Sound) (val mask : BitVec 32) : (cpsrWrite env val mask).Sound :=
  ⟨uncached_cpsrWrite h.uncached val mask, h.follows, h.enabled⟩

theorem sound_loadContext (h : env.Sound) (ctx : Context) : (loadContext env ctx).Sound := by
  have h' := sound_vfpSetFpscr (sound_cpsrWrite h ctx.cpsr 0xFFFFFFFF#32) ctx.fpscr
  refine ⟨h'.uncached, h'.follows, ?_⟩
  simp only [loadContext, getLsbD_or]
  rw [h'.enabled, Bool.true_or]

theorem sound_apply (h : env.Sound) (e : Effect) : (e.apply env).Sound := by
  cases e with
  | setReg | setVfpReg | setNzcv | setQf | setGe | setThumb | setCondexec | raiseStandard =>
    exact ⟨h.uncached, h.follows, h.enabled⟩
  | msr val mask => exact sound_cpsrWrite h val (mask &&& cpsrUser)
  | setend =>
    refine ⟨?_, h.follows, h.enabled⟩
    change (env.uncachedCpsr ^^^ cpsrE) &&& cachedCpsrBits = 0
    apply eq_of_getLsbD_eq
    intro i hi
    have hbit := congrArg (·.getLsbD i) h.uncached
    have hE := congrArg (·.getLsbD i) (show cpsrE &&& cachedCpsrBits = 0 by decide)
    simp only [getLsbD_and, getLsbD_xor, Bool.and_xor_distrib_right] at hbit hE ⊢
    rw [hbit, hE]
    simp
  | vmsr val => exact sound_vfpSetFpscr h val
  | vfpCmp flags =>
    have hbits : ∀ i, 22 ≤ i → i ≤ 25 → env.fpscr.getLsbD i =
        ((flags.setWidth 32 <<< 28) ||| (env.fpscr &&& 0x0fffffff#32)).getLsbD i := by
      intro i hlow hhigh
      rw [getLsbD_or, getLsbD_and, getLsbD_shiftLeft]
      interval_cases i <;> simp
    exact ⟨h.uncached, h.follows.congr hbits _, h.enabled⟩
  | setQc =>
    have hbits : ∀ i, 22 ≤ i → i ≤ 25 → env.fpscr.getLsbD i = (env.fpscr ||| cpsrQ).getLsbD i := by
      intro i hlow hhigh
      rw [getLsbD_or, cpsrQ]
      interval_cases i <;> simp
    exact ⟨h.uncached, h.follows.congr hbits _, h.enabled⟩
  | raise flags => exact ⟨h.uncached, h.follows.congr (fun _ _ _ => rfl) _, h.enabled⟩

/-- The state that guest code, and the lookup of its blocks, can depend on. -/
structure View where
  regs : Fin 16 → BitVec 32
  vfpRegs : Fin 32 → BitVec 64
  cpsr : BitVec 32
  fpscr : BitVec 32
  roundingMode : RoundingMode
  flushToZero : Bool
  flushInputsToZero : Bool
  defaultNanMode : Bool
  vecLen : BitVec 3
  vecStride : BitVec 2
  key : Store.Key

def Env.view (cp15 : Cp15) (env : Env) : View where
  regs := env.regs
  vfpRegs := env.vfpRegs
  cpsr := cpsrRead env
  fpscr := vfpGetFpscr env
  roundingMode := env.fpStatus.roundingMode
  flushToZero := env.fpStatus.flushToZero
  flushInputsToZero := env.fpStatus.flushInputsToZero
  defaultNanMode := env.fpStatus.defaultNanMode
  vecLen := env.vecLen
  vecStride := env.vecStride
  key := cpuGetTbCpuState cp15 env

/-- Two states that differ at most in bits no code looks at: the low bits of the words that stand
for condition flags, the place where an exception flag is kept, and the FPEXC. -/
structure Same (e e' : Env) : Prop where
  regs : e.regs = e'.regs
  vfpRegs : e.vfpRegs = e'.vfpRegs
  uncachedCpsr : e.uncachedCpsr = e'.uncachedCpsr
  nf : e.nf.msb = e'.nf.msb
  zf : e.zf = 0 ↔ e'.zf = 0
  cf : e.cf = e'.cf
  vf : e.vf.msb = e'.vf.msb
  qf : e.qf = e'.qf
  ge : e.ge = e'.ge
  thumb : e.thumb = e'.thumb
  condexecBits : e.condexecBits = e'.condexecBits
  daif : e.daif &&& cpsrAif = e'.daif &&& cpsrAif
  vecLen : e.vecLen = e'.vecLen
  vecStride : e.vecStride = e'.vecStride
  fpscr : vfpGetFpscr e = vfpGetFpscr e'

theorem getLsbD_vfpGetFpscr (env : Env) {i : Nat} (hlow : 22 ≤ i) (hhigh : i ≤ 25) :
    (vfpGetFpscr env).getLsbD i = env.fpscr.getLsbD i := by
  simp only [vfpGetFpscr, fpscrKept, getLsbD_or, getLsbD_and,
    getLsbD_shiftLeft, getLsbD_setWidth, vfpExceptbitsFromHost, getLsbD_bitFor]
  interval_cases i <;> simp

theorem Env.Sound.follows_get (h : env.Sound) : env.fpStatus.Follows (vfpGetFpscr env) :=
  h.follows.congr (fun _ hlow hhigh => (getLsbD_vfpGetFpscr env hlow hhigh).symm) env.fpStatus.exceptionFlags

theorem Same.cpsrRead (h : Same e e') : cpsrRead e = cpsrRead e' := by
  have hzf : (if e.zf = 0 then 1 else 0 : BitVec 32) = if e'.zf = 0 then 1 else 0 := if_congr h.zf rfl rfl
  simp only [Cpu.cpsrRead]
  rw [h.uncachedCpsr, and_signBit e.nf, and_signBit e'.nf, h.nf, hzf, h.cf, and_signBit e.vf,
    and_signBit e'.vf, h.vf, h.qf, h.thumb, h.condexecBits, h.ge, h.daif]

theorem Same.view {cp15 : Cp15} (h : Same e e') (he : e.Sound) (he' : e'.Sound) :
    e.view cp15 = e'.view cp15 := by
  have hfollows := he.follows_get
  have hfollows' := he'.follows_get
  rw [h.fpscr] at hfollows
  have hel : armCurrentEl e = armCurrentEl e' := by
    rw [armCurrentEl, armCurrentEl, h.uncachedCpsr]
  have hfpEl : fpExceptionEl cp15 e = fpExceptionEl cp15 e' := by
    simp only [fpExceptionEl, hel]
  have hkey : cpuGetTbCpuState cp15 e = cpuGetTbCpuState cp15 e' := by
    simp only [cpuGetTbCpuState, armCpuDataIsBigEndian, hel, hfpEl, h.regs, h.thumb, h.vecLen,
      h.vecStride, h.condexecBits, h.uncachedCpsr, he.enabled, he'.enabled]
  simp only [Env.view, View.mk.injEq]
  refine ⟨h.regs, h.vfpRegs, h.cpsrRead, h.fpscr, ?_, ?_, ?_, ?_, h.vecLen, h.vecStride, hkey⟩
  · rw [hfollows.roundingMode, hfollows'.roundingMode]
  · rw [hfollows.flushToZero, hfollows'.flushToZero]
  · rw [hfollows.flushInputsToZero, hfollows'.flushInputsToZero]
  · rw [hfollows.defaultNanMode, hfollows'.defaultNanMode]

/-- A CPSR write does the same to states that code cannot tell apart. -/
theorem same_cpsrWrite (h : Same e e') (val mask : BitVec 32) :
    Same (cpsrWrite e val mask) (cpsrWrite e' val mask) := by
  constructor
  case regs => exact h.regs
  case vfpRegs => exact h.vfpRegs
  case uncachedCpsr => simp only [cpsrWrite, h.uncachedCpsr]
  case nf =>
    simp only [cpsrWrite]
    split
    · rfl
    · exact h.nf
  case zf =>
    simp only [cpsrWrite]
    split
    · rfl
    · exact h.zf
  case cf => simp only [cpsrWrite, h.cf]
  case vf =>
    simp only [cpsrWrite]
    split
    · rfl
    · exact h.vf
  case qf => simp only [cpsrWrite, h.qf]
  case ge => simp only [cpsrWrite, h.ge]
  case thumb => simp only [cpsrWrite, h.thumb]
  case condexecBits => simp only [cpsrWrite, h.condexecBits]
  case daif =>
    have hdaif : ∀ daif : BitVec 32,
        ((daif &&& ~~~ (cpsrAif &&& mask)) ||| (val &&& cpsrAif &&& mask)) &&& cpsrAif =
          ((daif &&& cpsrAif) &&& ~~~ (cpsrAif &&& mask)) ||| (val &&& cpsrAif &&& mask) := by
      intro daif
      apply eq_of_getLsbD_eq
      intro i hi
      simp only [getLsbD_and, getLsbD_or]
      cases cpsrAif.getLsbD i <;> simp
    simp only [cpsrWrite]
    rw [hdaif, hdaif, h.daif]
  case vecLen => exact h.vecLen
  case vecStride => exact h.vecStride
  case fpscr => exact h.fpscr

/-- With the whole mask nothing is left of the old `IT` state. -/
theorem writtenCondexec_all (bits : BitVec 8) (val : BitVec 32) :
    writtenCondexec bits val 0xFFFFFFFF#32 =
      (val.extractLsb' 25 2).setWidth 8 ||| ((val >>> 8).setWidth 8 &&& 0xfc#8) := by
  simp only [writtenCondexec]
  rw [if_pos (by decide), if_pos (by decide)]
  apply eq_of_getLsbD_eq
  intro i hi
  simp only [getLsbD_or, getLsbD_and, getLsbD_setWidth, getLsbD_extractLsb']
  interval_cases i <;> simp

theorem uncachedCpsr_loadContext (h : env.Sound) (ctx : Context) :
    (loadContext env ctx).uncachedCpsr = ctx.cpsr &&& ~~~ cachedCpsrBits := by
  change (env.uncachedCpsr &&& ~~~ (0xFFFFFFFF#32 &&& ~~~ cachedCpsrBits)) |||
    (ctx.cpsr &&& (0xFFFFFFFF#32 &&& ~~~ cachedCpsrBits)) = _
  rw [show (0xFFFFFFFF#32 &&& ~~~ cachedCpsrBits) = ~~~ cachedCpsrBits by decide, BitVec.not_not, h.uncached]
  exact BitVec.zero_or

section

variable (env : Env)

theorem daif_loadContext (ctx : Context) :
    (loadContext env ctx).daif &&& cpsrAif = ctx.cpsr &&& cpsrAif := by
  change ((env.daif &&& ~~~ (cpsrAif &&& 0xFFFFFFFF#32)) |||
    (ctx.cpsr &&& cpsrAif &&& 0xFFFFFFFF#32)) &&& cpsrAif = _
  apply eq_of_getLsbD_eq
  intro i hi
  simp only [getLsbD_and, getLsbD_or, cpsrAif]
  interval_cases i <;> simp

theorem vfpGetFpscr_loadContext (ctx : Context) : vfpGetFpscr (loadContext env ctx) = ctx.fpscr :=
  vfpGetFpscr_vfpSetFpscr (cpsrWrite env ctx.cpsr 0xFFFFFFFF#32) ctx.fpscr

/-- Whatever was left in the CPUs, loading a context gives states that code cannot tell apart. -/
theorem same_loadContext (he : e.Sound) (he' : e'.Sound) (ctx : Context) :
    Same (loadContext e ctx) (loadContext e' ctx) where
  regs := rfl
  vfpRegs := rfl
  uncachedCpsr := by rw [uncachedCpsr_loadContext he, uncachedCpsr_loadContext he']
  nf := rfl
  zf := Iff.rfl
  cf := rfl
  vf := rfl
  qf := rfl
  ge := rfl
  thumb := rfl
  condexecBits := (writtenCondexec_all _ _).trans (writtenCondexec_all _ _).symm
  daif := by rw [daif_loadContext, daif_loadContext]
  vecLen := rfl
  vecStride := rfl
  fpscr := by rw [vfpGetFpscr_loadContext, vfpGetFpscr_loadContext]

theorem vfpGetFpscr_vfpCmp (flags : BitVec 4) :
    vfpGetFpscr ((Effect.vfpCmp flags).apply env) =
      (flags.setWidth 32 <<< 28) ||| (vfpGetFpscr env &&& 0x0fffffff#32) := by
  apply eq_of_getLsbD_eq
  intro i hi
  simp only [Effect.apply, vfpGetFpscr, fpscrKept, getLsbD_or, getLsbD_and,
    getLsbD_shiftLeft, getLsbD_setWidth, vfpExceptbitsFromHost, getLsbD_bitFor]
  interval_cases i <;> simp

theorem vfpGetFpscr_setQc : vfpGetFpscr (Effect.setQc.apply env) = vfpGetFpscr env ||| cpsrQ := by
  have hkept : (env.fpscr ||| cpsrQ) &&& fpscrKept = (env.fpscr &&& fpscrKept) ||| cpsrQ := by
    apply eq_of_getLsbD_eq
    intro i hi
    simp only [getLsbD_and, getLsbD_or, cpsrQ, fpscrKept]
    interval_cases i <;> simp
  change ((env.fpscr ||| cpsrQ) &&& fpscrKept) ||| _ ||| _ ||| _ = _
  have hmove : ∀ a b c d q : BitVec 32, (a ||| q) ||| b ||| c ||| d = (a ||| b ||| c ||| d) ||| q := by
    intro a b c d q
    ac_rfl
  rw [hkept]
  exact hmove ..

theorem vfpGetFpscr_raise (flags : BitVec 8) :
    vfpGetFpscr ((Effect.raise flags).apply env) = vfpGetFpscr env ||| vfpExceptbitsFromHost flags := by
  change _ ||| vfpExceptbitsFromHost ((env.fpStatus.exceptionFlags ||| flags) |||
    env.standardFpStatus.exceptionFlags) = _
  rw [vfpGetFpscr, vfpExceptbitsFromHost_or, vfpExceptbitsFromHost_or, vfpExceptbitsFromHost_or,
    BitVec.or_assoc (vfpExceptbitsFromHost _), BitVec.or_comm (vfpExceptbitsFromHost flags),
    ← BitVec.or_assoc, ← BitVec.or_assoc, ← BitVec.or_assoc]
  rfl

theorem vfpGetFpscr_raiseStandard (flags : BitVec 8) :
    vfpGetFpscr ((Effect.raiseStandard flags).apply env) =
      vfpGetFpscr env ||| vfpExceptbitsFromHost flags := by
  change _ ||| vfpExceptbitsFromHost (env.fpStatus.exceptionFlags |||
    (env.standardFpStatus.exceptionFlags ||| flags)) = _
  rw [vfpGetFpscr, vfpExceptbitsFromHost_or, vfpExceptbitsFromHost_or, vfpExceptbitsFromHost_or,
    ← BitVec.or_assoc, ← BitVec.or_assoc, ← BitVec.or_assoc]
  rfl

end

theorem Same.set_fpscr {d d' : Env} (h : Same e e') (hd : d = { e with
      fpscr := d.fpscr, fpStatus := d.fpStatus, standardFpStatus := d.standardFpStatus })
    (hd' : d' = { e' with
      fpscr := d'.fpscr, fpStatus := d'.fpStatus, standardFpStatus := d'.standardFpStatus })
    (hget : vfpGetFpscr d = vfpGetFpscr d') : Same d d' := by
  rw [hd, hd'] at hget ⊢
  exact { h with fpscr := hget }

theorem same_apply (h : Same e e') (effect : Effect) : Same (effect.apply e) (effect.apply e') := by
  cases effect with
  | setReg i v =>
    refine { h with regs := ?_ }
    change update e.regs i v = update e'.regs i v
    rw [h.regs]
  | setVfpReg i v =>
    refine { h with vfpRegs := ?_ }
    change update e.vfpRegs i v = update e'.vfpRegs i v
    rw [h.vfpRegs]
  | setNzcv nf zf vf cf => exact { h with nf := rfl, zf := Iff.rfl, vf := rfl, cf := rfl }
  | setQf => exact { h with qf := rfl }
  | setGe ge => exact { h with ge := rfl }
  | setThumb thumb => exact { h with thumb := rfl }
  | setCondexec bits => exact { h with condexecBits := rfl }
  | msr val mask => exact same_cpsrWrite h val (mask &&& cpsrUser)
  | setend =>
    refine { h with uncachedCpsr := ?_ }
    change e.uncachedCpsr ^^^ cpsrE = e'.uncachedCpsr ^^^ cpsrE
    rw [h.uncachedCpsr]
  | vmsr val =>
    refine { h with vecLen := rfl, vecStride := rfl, fpscr := ?_ }
    exact (vfpGetFpscr_vfpSetFpscr e val).trans (vfpGetFpscr_vfpSetFpscr e' val).symm
  | vfpCmp flags =>
    refine h.set_fpscr rfl rfl ?_
    rw [vfpGetFpscr_vfpCmp, vfpGetFpscr_vfpCmp, h.fpscr]
  | setQc =>
    refine h.set_fpscr rfl rfl ?_
    rw [vfpGetFpscr_setQc, vfpGetFpscr_setQc, h.fpscr]
  | raise flags =>
    refine h.set_fpscr rfl rfl ?_
    rw [vfpGetFpscr_raise, vfpGetFpscr_raise, h.fpscr]
  | raiseStandard flags =>
    refine h.set_fpscr rfl rfl ?_
    rw [vfpGetFpscr_raiseStandard, vfpGetFpscr_raiseStandard, h.fpscr]

variable {μ : Type} {cp15 : Cp15}

/-- The code of a block: from what it sees of the CPU and from memory it computes its writes to the
CPU state and the memory it leaves. Code that accesses the system registers which user mode can write
(`TPIDRURW`, `TEEHBR`) is not of this form: `exec` neither loads nor stores them. -/
abbrev Block (μ : Type) := View → μ → List Effect × μ

def runBlock (cp15 : Cp15) (block : Block μ) (s : Env × μ) : Env × μ :=
  let (effects, mem) := block (s.1.view cp15) s.2
  (effects.foldl Effect.apply s.1, mem)

/-- Two CPUs with the same memory that code cannot tell apart. -/
structure Twin (s s' : Env × μ) : Prop where
  same : Same s.1 s'.1
  sound : s.1.Sound
  sound' : s'.1.Sound
  mem : s.2 = s'.2

theorem sound_foldl (h : env.Sound) (effects : List Effect) : (effects.foldl Effect.apply env).Sound := by
  induction effects generalizing env with
  | nil => exact h
  | cons e effects ih => exact ih (sound_apply h e)

theorem same_foldl (h : Same e e') (effects : List Effect) :
    Same (effects.foldl Effect.apply e) (effects.foldl Effect.apply e') := by
  induction effects generalizing e e' with
  | nil => exact h
  | cons effect effects ih => exact ih (same_apply h effect)

variable {s s' : Env × μ}

theorem Twin.runBlock (h : Twin s s') (cp15 : Cp15) (block : Block μ) :
    Twin (runBlock cp15 block s) (runBlock cp15 block s') := by
  have hview : s.1.view cp15 = s'.1.view cp15 := h.same.view h.sound h.sound'
  simp only [Cpu.runBlock]
  rw [← hview, ← h.mem]
  exact ⟨same_foldl h.same _, sound_foldl h.sound _, sound_foldl h.sound' _, rfl⟩

theorem Twin.key (h : Twin s s') (cp15 : Cp15) : cpuGetTbCpuState cp15 s.1 = cpuGetTbCpuState cp15 s'.1 :=
  congrArg View.key (h.same.view h.sound h.sound')

/-- The parts of a context that `exec` returns from the guest-visible state. -/
structure Context.SameGuest (c c' : Context) : Prop where
  regs : c.regs = c'.regs
  fpregs : c.fpregs = c'.fpregs
  cpsr : c.cpsr = c'.cpsr
  fpscr : c.fpscr = c'.fpscr

theorem Same.storeContext (h : Same e e') (ctx : Context) :
    (storeContext e ctx).SameGuest (storeContext e' ctx) :=
  ⟨h.regs, h.vfpRegs, h.cpsrRead, by simp only [Cpu.storeContext, h.fpscr]⟩

/-- The CPUs of the pool, and the translated blocks with their code. -/
structure Pool (μ : Type) where
  cpus : Fin 2 → Env
  translated : Store.Key → Option (Block μ)

/-- A call of `exec`: the CPU that is free, the caller's context, memory, the code in it, what
chaining, invalidation and flushes leave of the code of each block until the next call, and a bound
on the number of blocks executed. -/
structure Call (μ : Type) where
  cpu : Fin 2
  ctx : Context
  mem : μ
  code : Store.Key → Block μ
  kept : Store.Key → Block μ → Option (Block μ)
  bound : Nat

/-- What a call returns, with the number of blocks it has executed. -/
structure Outcome (μ : Type) where
  ctx : Context
  mem : μ
  blocks : Nat

/-- The loop of `exec`: it goes on as long as the next block is already translated. -/
def execLoop (cp15 : Cp15) (code : Store.Key → Block μ) (cached : Store.Key → Bool) :
    Nat → Env × μ → Option (Nat × (Env × μ))
  | 0, _ => none
  | fuel + 1, s =>
    let s := runBlock cp15 (code (cpuGetTbCpuState cp15 s.1)) s
    if cached (cpuGetTbCpuState cp15 s.1) then
      (execLoop cp15 code cached fuel s).map fun r => (r.1 + 1, r.2)
    else some (1, s)

/-- `exec`; its first `tb_find_fast` translates the block it starts with, unless it is translated. -/
def Pool.exec (cp15 : Cp15) (pool : Pool μ) (call : Call μ) : Option (Outcome μ × Pool μ) :=
  let env := loadContext (pool.cpus call.cpu) call.ctx
  let first := cpuGetTbCpuState cp15 env
  let cached := fun key => key = first || (pool.translated key).isSome
  let code := fun key => (pool.translated key).getD (call.code key)
  (execLoop cp15 code cached call.bound (env, call.mem)).map fun r =>
    (⟨storeContext r.2.1 call.ctx, r.2.2, r.1⟩, ⟨Function.update pool.cpus call.cpu r.2.1,
      fun key => if cached key then call.kept key (code key) else none⟩)

/-- The pool after `init_tcg_arm`. -/
def Pool.initial : Pool μ := ⟨fun _ => resetEnv, fun _ => none⟩

def PoolStep (cp15 : Cp15) (pool : Pool μ) (call : Call μ) (pool' : Pool μ) : Prop :=
  ∃ outcome, pool.exec cp15 call = some (outcome, pool')

/-- Every translated block runs as the code in memory does. -/
def Pool.Coherent (pool : Pool μ) (code : Store.Key → Block μ) : Prop :=
  ∀ key block, pool.translated key = some block → block = code key

variable {code : Store.Key → Block μ} {cached : Store.Key → Bool} {fuel n : Nat}

theorem execLoop_spec (h : s.1.Sound) (hrun : execLoop cp15 code cached fuel s = some (n, s')) :
    s'.1.Sound ∧ 0 < n := by
  induction fuel generalizing s n with
  | zero => cases hrun
  | succ fuel ih =>
    have hblock : (runBlock cp15 (code (cpuGetTbCpuState cp15 s.1)) s).1.Sound := sound_foldl h _
    simp only [execLoop] at hrun
    split at hrun
    · obtain ⟨⟨k, s1⟩, hrest, heq⟩ := Option.map_eq_some_iff.mp hrun
      cases heq
      exact ⟨(ih hblock hrest).1, Nat.succ_pos k⟩
    · cases hrun
      exact ⟨hblock, Nat.one_pos⟩

theorem Pool.Coherent.code_eq {pool : Pool μ} (h : pool.Coherent code) :
    (fun key => (pool.translated key).getD (code key)) = code := by
  funext key
  cases hblock : pool.translated key with
  | none => rfl
  | some block => exact h key block hblock

theorem sound_pool {calls : List (Call μ)} {pool : Pool μ}
    (hrun : Run (PoolStep cp15) Pool.initial calls pool) (cpu : Fin 2) : (pool.cpus cpu).Sound := by
  refine hrun.invariant (fun pool => ∀ cpu, (pool.cpus cpu).Sound) ?_ (fun _ => sound_reset) cpu
  intro pool call pool' h hstep cpu
  obtain ⟨outcome, hexec⟩ := hstep
  obtain ⟨⟨n, s'⟩, hloop, heq⟩ := Option.map_eq_some_iff.mp hexec
  cases heq
  simp only [update_apply]
  split
  · exact (execLoop_spec (sound_loadContext (h call.cpu) call.ctx) hloop).1
  · exact h cpu

/-- Two loops that execute the same number of blocks, or have the same blocks translated, end
alike. -/
theorem twin_execLoop {cached' : Store.Key → Bool} {fuel fuel' n n' : Nat} {r r' : Env × μ}
    (h : Twin s s') (hrun : execLoop cp15 code cached fuel s = some (n, r))
    (hrun' : execLoop cp15 code cached' fuel' s' = some (n', r'))
    (heq : n = n' ∨ cached = cached') : n = n' ∧ Twin r r' := by
  induction fuel generalizing s s' fuel' n n' with
  | zero => cases hrun
  | succ fuel ih =>
    cases fuel' with
    | zero => cases hrun'
    | succ fuel' =>
      have hblock := h.runBlock cp15 (code (cpuGetTbCpuState cp15 s.1))
      simp only [execLoop, ← h.key cp15] at hrun hrun'
      rw [← hblock.key cp15] at hrun'
      split at hrun <;> rename_i hcached <;> split at hrun' <;> rename_i hcached'
      · obtain ⟨⟨k, t⟩, hrest, hmk⟩ := Option.map_eq_some_iff.mp hrun
        obtain ⟨⟨k', t'⟩, hrest', hmk'⟩ := Option.map_eq_some_iff.mp hrun'
        cases hmk
        cases hmk'
        obtain ⟨hn, htwin⟩ := ih hblock hrest hrest' (heq.imp_left Nat.succ.inj)
        exact ⟨congrArg Nat.succ hn, htwin⟩
      · -- one goes on and the other does not
        obtain ⟨⟨k, t⟩, hrest, hmk⟩ := Option.map_eq_some_iff.mp hrun
        cases hmk
        cases hrun'
        have hpos := (execLoop_spec hblock.sound hrest).2
        rcases heq with hn | rfl
        · omega
        · exact absurd hcached hcached'
      · obtain ⟨⟨k', t'⟩, hrest', hmk'⟩ := Option.map_eq_some_iff.mp hrun'
        cases hmk'
        cases hrun
        have hpos := (execLoop_spec hblock.sound' hrest').2
        rcases heq with hn | rfl
        · omega
        · exact absurd hcached' hcached
      · cases hrun
        cases hrun'
        exact ⟨rfl, hblock⟩

/-- The system registers after reset; user mode enables the floating point coprocessors. -/
def resetCp15 : Cp15 := ⟨0, 0x00f00000#64, 0, 0, 0⟩

def advance : Store.Key → Block Unit := fun _ view mem =>
  ([.setReg 15 (view.regs 15 + 4)], mem)

def contextAt (pc fpexc : BitVec 32) : Context :=
  ⟨fun i => if i = 15 then pc else 0, fun _ => 0, 0x10#32, 0, fpexc⟩

def callAt (pc fpexc : BitVec 32) : Call Unit :=
  ⟨0, contextAt pc fpexc, (), advance, fun _ block => some block, 4⟩

end TcgArm.Cpu
