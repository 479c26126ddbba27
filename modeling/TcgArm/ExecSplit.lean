import TcgArm.ExecContext

/-! Splitting a guest run into several calls of `exec`. The context written back at the end of a call
and loaded by the next one restores the guest-visible state up to the FPSCR bits outside the mask of
the write-back, among them the cumulative saturation bit QC, which keep the value the caller
passed. -/

namespace TcgArm.Cpu

open BitVec List

variable {μ : Type} {cp15 : Cp15}

def cachedBit (env : Env) (i : Nat) : Bool :=
  if i = 31 then env.nf.msb
  else if i = 30 then decide (env.zf = 0)
  else if i = 29 then env.cf.getLsbD 0
  else if i = 28 then env.vf.msb
  else if i = 27 then env.qf.getLsbD 0
  else if 25 ≤ i then env.condexecBits.getLsbD (i - 25)
  else if 16 ≤ i then env.ge.getLsbD (i - 16)
  else if 10 ≤ i then env.condexecBits.getLsbD (i - 8)
  else if i = 5 then env.thumb.getLsbD 0
  else env.daif.getLsbD i

variable {env : Env} {ctx : Context} {x y mask : BitVec 32}

section

variable (h : env.Sound)
include h

theorem getLsbD_cpsrRead {i : Nat} (hi : i < 32) :
    (cpsrRead env).getLsbD i =
      if cachedCpsrBits.getLsbD i then cachedBit env i else env.uncachedCpsr.getLsbD i := by
  have hu : cachedCpsrBits.getLsbD i = true → env.uncachedCpsr.getLsbD i = false := by
    intro hcached
    have hbit := congrArg (·.getLsbD i) h.uncached
    simpa [hcached] using hbit
  have hz : ∀ j, (if env.zf = 0 then 1 else 0 : BitVec 32).getLsbD j =
      (decide (env.zf = 0) && decide (j = 0)) := by
    intro j
    split <;> simp_all [getLsbD_one]
  rw [show cachedCpsrBits = 0xfe0ffde0#32 by decide] at hu ⊢
  simp only [cpsrRead, getLsbD_or, getLsbD_and, getLsbD_shiftLeft,
    getLsbD_ushiftRight, getLsbD_setWidth, cpsrAif, hz]
  interval_cases i <;> simp_all [cachedBit, msb_eq_getLsbD_last]

theorem uncached_cpsrRead : cpsrRead env &&& ~~~ cachedCpsrBits = env.uncachedCpsr := by
  apply eq_of_getLsbD_eq
  intro i hi
  have hbit := congrArg (·.getLsbD i) h.uncached
  simp only [getLsbD_and, getLsbD_not, hi, getLsbD_cpsrRead h hi] at hbit ⊢
  cases hcached : cachedCpsrBits.getLsbD i with
  | false => simp
  | true =>
    rw [hcached] at hbit
    simpa using hbit.symm

theorem extractLsb'_cpsrRead {start w : Nat} {field : BitVec w}
    (hcached : ∀ i < w, cachedCpsrBits.getLsbD (start + i) = true ∧
      cachedBit env (start + i) = field.getLsbD i) (hw : start + w ≤ 32) :
    (cpsrRead env).extractLsb' start w = field := by
  apply eq_of_getLsbD_eq
  intro i hi
  obtain ⟨hbit, hfield⟩ := hcached i hi
  rw [getLsbD_extractLsb', getLsbD_cpsrRead h (by omega), if_pos hbit, hfield]
  simp [hi]

theorem condexec_cpsrRead :
    ((cpsrRead env).extractLsb' 25 2).setWidth 8 |||
      (((cpsrRead env) >>> 8).setWidth 8 &&& 0xfc#8) = env.condexecBits := by
  have hlow : (cpsrRead env).extractLsb' 25 2 = env.condexecBits.extractLsb' 0 2 := by
    refine extractLsb'_cpsrRead h (fun i hi => ⟨?_, ?_⟩) (by omega)
    · interval_cases i <;> decide
    · rw [getLsbD_extractLsb']
      interval_cases i <;> simp [cachedBit]
  have hhigh : ∀ i, 10 ≤ i → i < 16 → (cpsrRead env).getLsbD i = env.condexecBits.getLsbD (i - 8) := by
    intro i hlow hhigh
    rw [getLsbD_cpsrRead h (by omega)]
    interval_cases i <;> simp [cachedBit, show cachedCpsrBits = 0xfe0ffde0#32 by decide]
  rw [hlow]
  apply eq_of_getLsbD_eq
  intro i hi
  simp only [getLsbD_or, getLsbD_and, getLsbD_setWidth, getLsbD_ushiftRight, getLsbD_extractLsb']
  rcases Nat.lt_or_ge i 2 with hlt | hge
  · interval_cases i <;> simp
  · rw [hhigh (8 + i) (by omega) (by omega)]
    interval_cases i <;> simp

theorem daif_cpsrRead : cpsrRead env &&& cpsrAif = env.daif &&& cpsrAif := by
  apply eq_of_getLsbD_eq
  intro i hi
  rw [getLsbD_and, getLsbD_and, getLsbD_cpsrRead h hi, cpsrAif, show cachedCpsrBits = 0xfe0ffde0#32 by decide]
  interval_cases i <;> simp [cachedBit]

end

/-- The vector length and stride are read back from the FPSCR. -/
theorem vec_vfpGetFpscr (env : Env) : (vfpGetFpscr env).extractLsb' 16 3 = env.vecLen ∧
    (vfpGetFpscr env).extractLsb' 20 2 = env.vecStride := by
  constructor
  all_goals
    apply eq_of_getLsbD_eq
    intro i hi
    simp only [vfpGetFpscr, fpscrKept, getLsbD_or, getLsbD_and,
      getLsbD_shiftLeft, getLsbD_setWidth, vfpExceptbitsFromHost, getLsbD_bitFor,
      getLsbD_extractLsb']
    interval_cases i <;> simp

theorem not_and_bit30_eq_zero (val : BitVec 32) : ~~~ val &&& 0x40000000#32 = 0 ↔ val.getLsbD 30 = true := by
  constructor
  · intro h
    have hbit := congrArg (·.getLsbD 30) h
    simpa using hbit
  · intro h
    apply eq_of_getLsbD_eq
    intro i hi
    rw [getLsbD_and, getLsbD_not]
    interval_cases i <;> simp_all

theorem msb_shiftLeft_three (val : BitVec 32) : ((val <<< 3) &&& 0x80000000#32).msb = val.getLsbD 28 := by
  simp [msb_eq_getLsbD_last]

/-- Loading a context that shows the guest-visible part of a state restores it. -/
theorem same_reload {e s : Env} (he : e.Sound) (hs : s.Sound) (hregs : ctx.regs = s.regs)
    (hfpregs : ctx.fpregs = s.vfpRegs) (hcpsr : ctx.cpsr = cpsrRead s)
    (hfpscr : ctx.fpscr = vfpGetFpscr s) : Same (loadContext e ctx) s where
  regs := hregs
  vfpRegs := hfpregs
  uncachedCpsr := by rw [uncachedCpsr_loadContext he, hcpsr, uncached_cpsrRead hs]
  nf := by
    change ctx.cpsr.msb = s.nf.msb
    rw [hcpsr, msb_eq_getLsbD_last, getLsbD_cpsrRead hs (by omega)]
    rfl
  zf := by
    change ~~~ ctx.cpsr &&& 0x40000000#32 = 0 ↔ s.zf = 0
    rw [not_and_bit30_eq_zero, hcpsr, getLsbD_cpsrRead hs (by omega)]
    exact decide_eq_true_iff
  cf := by
    change ctx.cpsr.extractLsb' 29 1 = s.cf
    rw [hcpsr]
    exact extractLsb'_cpsrRead hs (fun i hi => by interval_cases i; exact ⟨by decide, rfl⟩) (by omega)
  vf := by
    change ((ctx.cpsr <<< 3) &&& 0x80000000#32).msb = s.vf.msb
    rw [msb_shiftLeft_three, hcpsr, getLsbD_cpsrRead hs (by omega)]
    rfl
  qf := by
    change ctx.cpsr.extractLsb' 27 1 = s.qf
    rw [hcpsr]
    exact extractLsb'_cpsrRead hs (fun i hi => by interval_cases i; exact ⟨by decide, rfl⟩) (by omega)
  ge := by
    change ctx.cpsr.extractLsb' 16 4 = s.ge
    rw [hcpsr]
    exact extractLsb'_cpsrRead hs (fun i hi => by interval_cases i <;> exact ⟨by decide, rfl⟩) (by omega)
  thumb := by
    change ctx.cpsr.extractLsb' 5 1 = s.thumb
    rw [hcpsr]
    exact extractLsb'_cpsrRead hs (fun i hi => by interval_cases i; exact ⟨by decide, rfl⟩) (by omega)
  condexecBits := by
    change writtenCondexec e.condexecBits ctx.cpsr 0xFFFFFFFF#32 = s.condexecBits
    rw [writtenCondexec_all, hcpsr, condexec_cpsrRead hs]
  daif := by rw [daif_loadContext, hcpsr, daif_cpsrRead hs]
  vecLen := by
    change ctx.fpscr.extractLsb' 16 3 = s.vecLen
    rw [hfpscr, (vec_vfpGetFpscr s).1]
  vecStride := by
    change ctx.fpscr.extractLsb' 20 2 = s.vecStride
    rw [hfpscr, (vec_vfpGetFpscr s).2]
  fpscr := by rw [vfpGetFpscr_loadContext, hfpscr]

def runBlocks (cp15 : Cp15) (blocks : List (Block μ)) (s : Env × μ) : Env × μ :=
  blocks.foldl (fun s block => runBlock cp15 block s) s

theorem runBlocks_append (first rest : List (Block μ)) (s : Env × μ) :
    runBlocks cp15 (first ++ rest) s = runBlocks cp15 rest (runBlocks cp15 first s) :=
  foldl_append ..

theorem sound_runBlocks {s : Env × μ} (h : s.1.Sound) (cp15 : Cp15) (blocks : List (Block μ)) :
    (runBlocks cp15 blocks s).1.Sound := by
  induction blocks generalizing s with
  | nil => exact h
  | cons block blocks ih =>
    have hblock : (runBlock cp15 block s).1.Sound := sound_foldl h _
    exact ih hblock

theorem Twin.runBlocks {s s' : Env × μ} (h : Twin s s') (cp15 : Cp15) (blocks : List (Block μ)) :
    Twin (runBlocks cp15 blocks s) (runBlocks cp15 blocks s') := by
  induction blocks generalizing s s' with
  | nil => exact h
  | cons block blocks ih => exact ih (h.runBlock cp15 block)

/-- A call of `exec` on a CPU, given the blocks it executes. -/
def execBlocks (cp15 : Cp15) (env : Env) (blocks : List (Block μ)) (ctx : Context) (mem : μ) :
    Context × μ :=
  let s := runBlocks cp15 blocks (loadContext env ctx, mem)
  (storeContext s.1 ctx, s.2)

def fpscrAfter (cp15 : Cp15) (env : Env) (blocks : List (Block μ)) (ctx : Context) (mem : μ) :
    BitVec 32 :=
  vfpGetFpscr (runBlocks cp15 blocks (loadContext env ctx, mem)).1

/-- Calls one after the other, each with the context the one before has returned. -/
def execCalls (cp15 : Cp15) : List (Env × List (Block μ)) → Context → μ → Context × μ
  | [], ctx, mem => (ctx, mem)
  | (env, blocks) :: calls, ctx, mem =>
    let r := execBlocks cp15 env blocks ctx mem
    execCalls cp15 calls r.1 r.2

/-- The FPSCR bits that `exec` does not write back are those of the caller. -/
def RestKept (cp15 : Cp15) (env : Env) (blocks : List (Block μ)) (ctx : Context) (mem : μ) : Prop :=
  fpscrAfter cp15 env blocks ctx mem &&& ~~~ fpscrMask = ctx.fpscr &&& ~~~ fpscrMask

def SplitsKept (cp15 : Cp15) : List (Env × List (Block μ)) → Context → μ → Prop
  | [], _, _ => True
  | [_], _, _ => True
  | (env, blocks) :: call :: calls, ctx, mem =>
    RestKept cp15 env blocks ctx mem ∧
      SplitsKept cp15 (call :: calls) (execBlocks cp15 env blocks ctx mem).1
        (execBlocks cp15 env blocks ctx mem).2

theorem masked_eq (h : x &&& ~~~ mask = y &&& ~~~ mask) :
    (y &&& ~~~ mask) ||| (x &&& mask) = x := by
  rw [← h]
  apply eq_of_getLsbD_eq
  intro i hi
  simp only [getLsbD_or, getLsbD_and, getLsbD_not, hi]
  cases x.getLsbD i <;> cases mask.getLsbD i <;> rfl

theorem and_of_masked_eq (h : (y &&& ~~~ mask) ||| (x &&& mask) = x) :
    x &&& ~~~ mask = y &&& ~~~ mask := by
  apply eq_of_getLsbD_eq
  intro i hi
  have hbit := congrArg (·.getLsbD i) h
  simp only [getLsbD_or, getLsbD_and, getLsbD_not, hi] at hbit ⊢
  revert hbit
  cases x.getLsbD i <;> cases y.getLsbD i <;> cases mask.getLsbD i <;> decide

theorem twin_reload {env env' : Env} (h : env.Sound) (h' : env'.Sound) {blocks : List (Block μ)}
    {mem : μ} (hkept : RestKept cp15 env blocks ctx mem) :
    Twin (loadContext env' (execBlocks cp15 env blocks ctx mem).1,
      (execBlocks cp15 env blocks ctx mem).2) (runBlocks cp15 blocks (loadContext env ctx, mem)) := by
  have hload : (loadContext env ctx, mem).1.Sound := sound_loadContext h ctx
  have hs := sound_runBlocks hload cp15 blocks
  exact ⟨same_reload h' hs rfl rfl rfl (masked_eq hkept), sound_loadContext h' _, hs, rfl⟩

theorem fpscr_storeContext (env : Env) (ctx : Context) :
    (storeContext env ctx).fpscr &&& ~~~ fpscrMask = ctx.fpscr &&& ~~~ fpscrMask := by
  change ((ctx.fpscr &&& ~~~ fpscrMask) ||| (vfpGetFpscr env &&& fpscrMask)) &&& ~~~ fpscrMask = _
  apply eq_of_getLsbD_eq
  intro i hi
  simp only [getLsbD_or, getLsbD_and, getLsbD_not, hi]
  cases fpscrMask.getLsbD i <;> simp

theorem sameGuest_of_rest {e e' : Env} (h : Same e e') {ctx ctx' : Context}
    (hrest : ctx.fpscr &&& ~~~ fpscrMask = ctx'.fpscr &&& ~~~ fpscrMask) :
    (storeContext e ctx).SameGuest (storeContext e' ctx') := by
  obtain ⟨hregs, hfpregs, hcpsr, -⟩ := h.storeContext ctx
  refine ⟨hregs, hfpregs, hcpsr, ?_⟩
  simp only [storeContext, hrest, h.fpscr]

theorem Context.SameGuest.trans {c1 c2 c3 : Context} (h : c1.SameGuest c2)
    (h' : c2.SameGuest c3) : c1.SameGuest c3 :=
  ⟨h.regs.trans h'.regs, h.fpregs.trans h'.fpregs, h.cpsr.trans h'.cpsr, h.fpscr.trans h'.fpscr⟩

/-- A clean split: the second call ends as the code goes on in one call, on whatever CPUs. -/
theorem execBlocks_split {env env1 env2 : Env} (h : env.Sound) (h1 : env1.Sound) (h2 : env2.Sound)
    {first : List (Block μ)} {mem : μ} (hkept : RestKept cp15 env1 first ctx mem) (rest : List (Block μ)) :
    (execBlocks cp15 env2 rest (execBlocks cp15 env1 first ctx mem).1
        (execBlocks cp15 env1 first ctx mem).2).1.SameGuest
      (execBlocks cp15 env (first ++ rest) ctx mem).1 ∧
    (execBlocks cp15 env2 rest (execBlocks cp15 env1 first ctx mem).1
        (execBlocks cp15 env1 first ctx mem).2).2 =
      (execBlocks cp15 env (first ++ rest) ctx mem).2 := by
  have hload : Twin (loadContext env1 ctx, mem) (loadContext env ctx, mem) :=
    ⟨same_loadContext h1 h ctx, sound_loadContext h1 ctx, sound_loadContext h ctx, rfl⟩
  have hsecond := (twin_reload h1 h2 hkept).runBlocks cp15 rest
  have hwhole := (hload.runBlocks cp15 first).runBlocks cp15 rest
  simp only [execBlocks, runBlocks_append] at hsecond ⊢
  refine ⟨?_, hsecond.mem.trans hwhole.mem⟩
  exact (sameGuest_of_rest hsecond.same (fpscr_storeContext _ ctx)).trans (hwhole.same.storeContext ctx)

/-- Calls with clean splits end as one call does. -/
theorem execCalls_joined {calls : List (Env × List (Block μ))} (hne : calls ≠ [])
    (hcalls : ∀ call ∈ calls, call.1.Sound) (h : env.Sound) {mem : μ}
    (hkept : SplitsKept cp15 calls ctx mem) :
    (execCalls cp15 calls ctx mem).1.SameGuest
        (execBlocks cp15 env (calls.flatMap Prod.snd) ctx mem).1 ∧
      (execCalls cp15 calls ctx mem).2 = (execBlocks cp15 env (calls.flatMap Prod.snd) ctx mem).2 := by
  induction calls generalizing ctx mem env with
  | nil => exact absurd rfl hne
  | cons call calls ih =>
    have hcall := hcalls call mem_cons_self
    cases calls with
    | nil =>
      have hload : Twin (loadContext call.1 ctx, mem) (loadContext env ctx, mem) :=
        ⟨same_loadContext hcall h ctx, sound_loadContext hcall ctx, sound_loadContext h ctx, rfl⟩
      have hrun := hload.runBlocks cp15 call.2
      simp only [execCalls, execBlocks, flatMap_cons, flatMap_nil, append_nil]
      exact ⟨hrun.same.storeContext ctx, hrun.mem⟩
    | cons next calls =>
      obtain ⟨hfirst, hrest⟩ := hkept
      obtain ⟨hctx, hmem⟩ := ih (cons_ne_nil _ _)
        (fun c hc => hcalls c (mem_cons_of_mem _ hc)) hcall hrest
      obtain ⟨hctx', hmem'⟩ := execBlocks_split h hcall hcall hfirst ((next :: calls).flatMap Prod.snd)
      rw [flatMap_cons]
      exact ⟨hctx.trans hctx', hmem.trans hmem'⟩

/-- A block that moves the FPSCR to a register, as `VMRS` does. -/
def vmrs : Block μ := fun view mem => ([.setReg 0 view.fpscr], mem)

def oneEffect (effect : Effect) : Block Unit := fun _ mem => ([effect], mem)

end TcgArm.Cpu
