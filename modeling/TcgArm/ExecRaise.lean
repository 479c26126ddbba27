import TcgArm.CpuPool

/-! Guest exceptions in `exec`. A helper that raises one records it in the CPU and leaves by
`siglongjmp (cpu->jmp_env, 1)` (`op_helper.c`, `cpu-exec-common.c`), which goes to the frame that
last called `sigsetjmp` on this buffer. Between `pre_cpu_exec` and `post_cpu_exec` the calling thread
is in an RCU read section. -/

namespace TcgArm.Pool

open Transition Option Function

def excpUdef : Nat := 1

def excpSwi : Nat := 2

def excpBkpt : Nat := 7

def excpExceptionExit : Nat := 8

def excpKernelTrap : Nat := 9

def excpStrex : Nat := 10

def excpSemihost : Nat := 16

def excpInterrupt : Nat := 0x10000

def excpHlt : Nat := 0x10001

def excpDebug : Nat := 0x10002

def excpHalted : Nat := 0x10003

def excpYield : Nat := 0x10004

def excpIsInternal (excp : Nat) : Bool :=
  excp = excpInterrupt ∨ excp = excpHlt ∨ excp = excpDebug ∨ excp = excpHalted ∨
    excp = excpExceptionExit ∨ excp = excpKernelTrap ∨ excp = excpSemihost ∨ excp = excpStrex

/-- The fields of a CPU that raising writes: `exception_index`, `exception.syndrome`,
`exception.target_el` and `halted`. -/
structure CpuException where
  exceptionIndex : Int
  syndrome : BitVec 32
  targetEl : BitVec 32
  halted : Bool

/-- The helpers that raise: `exception_with_syndrome`, `exception_internal`, `wfi` and `yield`. -/
inductive Raise
  | withSyndrome (excp : Nat) (syndrome targetEl : BitVec 32)
  | internal (excp : Nat)
  | wfi
  | yield

/-- What a helper records, unless its assertion on the exception number fails. -/
def Raise.record (c : CpuException) : Raise → Option CpuException
  | .withSyndrome excp syndrome targetEl =>
    if excpIsInternal excp then none
    else some { c with exceptionIndex := excp, syndrome := syndrome, targetEl := targetEl }
  | .internal excp => if excpIsInternal excp then some { c with exceptionIndex := excp } else none
  | .wfi => some { c with exceptionIndex := excpHlt, halted := true }
  | .yield => some { c with exceptionIndex := excpYield }

def syndromeClass (ec : BitVec 32) (is16bit : Bool) : BitVec 32 :=
  (ec <<< 26) ||| (if is16bit then 0 else 1 <<< 25)

def synUncategorized : BitVec 32 := syndromeClass 0x00 false

def synAa32Svc (imm16 : BitVec 32) (is16bit : Bool) : BitVec 32 :=
  syndromeClass 0x11 is16bit ||| (imm16 &&& 0xffff)

def synAa32Bkpt (imm16 : BitVec 32) (is16bit : Bool) : BitVec 32 :=
  syndromeClass 0x38 is16bit ||| (imm16 &&& 0xffff)

def synFpAccessTrap (cv cond : BitVec 32) (is16bit : Bool) : BitVec 32 :=
  syndromeClass 0x07 is16bit ||| (cv <<< 24) ||| (cond <<< 20)

/-- `default_exception_el` of user mode. -/
def defaultExceptionEl : BitVec 32 := 1

/-- Guest code that ends in an exception: an undefined word (also a VFP or NEON one while `FPEXC`
disables them), a VFP or NEON word whose access traps, a supervisor call, `BKPT`, a store exclusive,
an address in the kernel page, a breakpoint of the debugger, and the hints. -/
inductive GuestTrap
  | undefined
  | fpAccess (fpExcpEl : BitVec 32)
  | supervisorCall (imm : BitVec 32) (thumb : Bool)
  | bkpt (imm : BitVec 32) (thumb : Bool)
  | storeExclusive
  | kernelPage
  | breakpoint
  | waitForInterrupt
  | yieldHint

def GuestTrap.raise : GuestTrap → Raise
  | .undefined => .withSyndrome excpUdef synUncategorized defaultExceptionEl
  | .fpAccess fpExcpEl => .withSyndrome excpUdef (synFpAccessTrap 1 0xe false) fpExcpEl
  | .supervisorCall imm thumb => .withSyndrome excpSwi (synAa32Svc imm thumb) defaultExceptionEl
  | .bkpt imm thumb => .withSyndrome excpBkpt (synAa32Bkpt imm thumb) defaultExceptionEl
  | .storeExclusive => .internal excpStrex
  | .kernelPage => .internal excpKernelTrap
  | .breakpoint => .internal excpDebug
  | .waitForInterrupt => .wfi
  | .yieldHint => .yield

/-- The calls of `exec` with their control: `frame` numbers the calls of a thread, `jmpEnv` is the
frame in which `sigsetjmp` was last called for a CPU, and `jumped` is the frame a thread has gone to
by `siglongjmp`, where a buffer that was never set leads nowhere. -/
structure Control (Θ : Type) where
  calls : Calls Θ
  frame : Θ → Nat
  rcuDepth : Θ → Nat
  jmpEnv : Nat → Option (Θ × Nat)
  exception : Nat → CpuException
  jumped : Θ → Option (Option (Θ × Nat))

/-- A thread calls `exec`, takes a step in it, has an exception raised in a block it executes, or
reaches the end of its block loop. -/
inductive ControlLabel (Θ : Type)
  | call (t : Θ)
  | step (t : Θ)
  | raise (t : Θ) (trap : GuestTrap)
  | finish (t : Θ)

namespace Control

variable {Θ : Type} [DecidableEq Θ]

def initial : Control Θ :=
  ⟨Calls.initial, fun _ => 0, fun _ => 0, fun _ => none, fun _ => ⟨-1, 0, 0, false⟩, fun _ => none⟩

section Steps

variable (n : Nat) (envPtr : Nat → Bool) (s : Control Θ) (t : Θ)

/-- The depth of the read section after a step: `pre_cpu_exec` follows the check of the CPU state. -/
def enterDepth : Nat :=
  match s.calls.phase t with
  | .acquired cpuid => if envPtr cpuid then s.rcuDepth t + 1 else s.rcuDepth t
  | _ => s.rcuDepth t

/-- `cpu_loop_exit`. -/
def siglongjmp (cpuid : Nat) : Control Θ :=
  { s with jumped := update s.jumped t (some (s.jmpEnv cpuid)) }

/-- The steps of the calls. No step of `exec` calls `sigsetjmp`, and there is no code of `exec` at
which a thread that has jumped goes on. -/
def exec : ControlLabel Θ → Option (Control Θ)
  | .call t =>
    if s.jumped t = none then
      (s.calls.exec n envPtr (.call t)).map fun calls =>
        { s with calls := calls, frame := update s.frame t (s.frame t + 1) }
    else none
  | .step t =>
    if s.jumped t = none then
      (s.calls.exec n envPtr (.step t)).map fun calls =>
        { s with
          calls := calls
          rcuDepth := update s.rcuDepth t (s.enterDepth envPtr t) }
    else none
  | .raise t trap =>
    match s.jumped t, s.calls.phase t with
    | none, .running cpuid =>
      (trap.raise.record (s.exception cpuid)).map fun c =>
        { s with exception := update s.exception cpuid c }.siglongjmp t cpuid
    | _, _ => none
  | .finish t =>
    -- `rcu_read_unlock` asserts that the thread is in a read section
    if s.jumped t = none ∧ s.rcuDepth t ≠ 0 then
      (s.calls.exec n envPtr (.finish t)).map fun calls =>
        { s with
          calls := calls
          rcuDepth := update s.rcuDepth t (s.rcuDepth t - 1) }
    else none

end Steps

end Control

variable {Θ : Type} [DecidableEq Θ] {n : Nat} {envPtr : Nat → Bool} {s s' : Control Θ}

/-- The state after the steps of a run in which no call of `exec` has been made before. -/
def controlAfter (n : Nat) (envPtr : Nat → Bool) (labels : List (ControlLabel Θ)) :
    Option (Control Θ) :=
  execAll (Control.exec n envPtr) Control.initial labels

/-- Whenever an exception is raised in a run, the jump goes to a handler that the same call has
established, and the call can go on to release its CPU and its read section and return. -/
def RaisesHandled (n : Nat) (envPtr : Nat → Bool) (labels : List (ControlLabel Θ)) : Prop :=
  ∀ pre t trap s cpuid, pre ++ [.raise t trap] <+: labels → controlAfter n envPtr pre = some s →
    s.calls.phase t = .running cpuid →
      s.jmpEnv cpuid = some (t, s.frame t) ∧
      ∃ more s', .call t ∉ more ∧ controlAfter n envPtr (pre ++ .raise t trap :: more) = some s' ∧
        ¬ s'.calls.InFlight t ∧ s'.rcuDepth t = 0 ∧ s'.calls.localCpuLock cpuid = false

def Label.thread : Label Θ → Θ
  | .call t | .step t | .finish t => t

variable {calls' calls : Calls Θ} {t : Θ}

variable {cpuid : Nat} {label : Label Θ}

omit [DecidableEq Θ] in
theorem Calls.Uses.of_running (h : calls.phase t = .running cpuid) : calls.Uses t cpuid := by
  rw [Calls.Uses, h]
  rfl

theorem Move.phase_other {u : Θ} (h : Move n envPtr calls label calls') (hu : u ≠ label.thread) :
    calls'.phase u = calls.phase u := by
  cases h with
  | start _ | taken _ _ _ | busy _ _ _ | restart _ _ | enter _ _ | leak _ _ =>
    exact update_of_ne hu ..
  | work _ => rfl
  | finish _ =>
    refine (update_of_ne hu ..).trans ?_
    unfold Calls.releaseCpu
    split <;> rfl

def Phase.depth : Phase → Nat
  | .idle | .scanning _ | .acquired _ => 0
  | .running _ => 1

/-- What holds along every run: the pool is sound, no buffer has been set, a thread is in a read
section just between `pre_cpu_exec` and `post_cpu_exec`, and a thread that has jumped was executing
blocks. -/
structure Control.Inv (n : Nat) (s : Control Θ) : Prop where
  pool : Pool.Inv n s.calls
  unset : ∀ cpuid, s.jmpEnv cpuid = none
  depth : ∀ t, s.rcuDepth t = (s.calls.phase t).depth
  running : ∀ t, s.jumped t ≠ none → ∃ cpuid, s.calls.phase t = .running cpuid

omit [DecidableEq Θ] in
theorem Control.Inv.initial : Control.Inv n (Control.initial : Control Θ) :=
  ⟨Pool.Inv.initial, fun _ => rfl, fun _ => rfl, fun _ h => absurd rfl h⟩

/-- A step of the pool by a thread that has not jumped. -/
theorem Control.Inv.pool_step {depth : Nat} (h : s.Inv n) (frame : Θ → Nat)
    (hmove : Move n envPtr s.calls label calls') (hjumped : s.jumped label.thread = none)
    (hdepth : depth = (calls'.phase label.thread).depth) :
    Control.Inv n { s with
      calls := calls', frame := frame
      rcuDepth := update s.rcuDepth label.thread depth } := by
  refine ⟨h.pool.move hmove, h.unset, fun u => ?_, fun u hu => ?_⟩
  · by_cases hut : u = label.thread
    · subst hut
      exact (update_self ..).trans hdepth
    · refine (update_of_ne hut ..).trans ?_
      rw [hmove.phase_other hut]
      exact h.depth u
  · have hut : u ≠ label.thread := by
      rintro rfl
      exact hu hjumped
    rw [hmove.phase_other hut]
    exact h.running u hu

theorem depth_call (h : Move n envPtr calls (.call t) calls') :
    (calls'.phase t).depth = (calls.phase t).depth := by
  cases h with
  | start hphase => simp [hphase, Phase.depth]

theorem depth_finish (h : Move n envPtr calls (.finish t) calls') :
    (calls'.phase t).depth = (calls.phase t).depth - 1 := by
  cases h with
  | finish hphase => simp [hphase, Phase.depth]

open Control

theorem Control.Inv.depth_step (h : s.Inv n) (hmove : Move n envPtr s.calls (.step t) calls') :
    s.enterDepth envPtr t = (calls'.phase t).depth := by
  have hdepth := h.depth t
  cases hmove with
  | taken hphase _ _ | busy hphase _ _ | restart hphase _ | work hphase =>
    rw [hphase] at hdepth
    simp [enterDepth, hphase, hdepth, Phase.depth]
  | enter hphase henv | leak hphase henv =>
    rw [hphase] at hdepth
    simp [enterDepth, hphase, henv, hdepth, Phase.depth]

variable {label : ControlLabel Θ}

theorem Control.Inv.step (h : s.Inv n) (hstep : s.exec n envPtr label = some s') : s'.Inv n := by
  cases label with
  | call t =>
    simp only [exec] at hstep
    split_ifs at hstep with hjumped
    obtain ⟨calls', hcalls, rfl⟩ := map_eq_some_iff.mp hstep
    have hmove := move_of_exec hcalls
    have hsame : update s.rcuDepth t (s.rcuDepth t) = s.rcuDepth := update_eq_self ..
    have h' := h.pool_step (update s.frame t (s.frame t + 1)) hmove hjumped
      ((h.depth t).trans (depth_call hmove).symm)
    rwa [show Label.thread (.call t) = t from rfl, hsame] at h'
  | step t =>
    simp only [exec] at hstep
    split_ifs at hstep with hjumped
    obtain ⟨calls', hcalls, rfl⟩ := map_eq_some_iff.mp hstep
    have hmove := move_of_exec hcalls
    exact h.pool_step s.frame hmove hjumped (h.depth_step hmove)
  | raise t trap =>
    simp only [exec] at hstep
    split at hstep
    · rename_i cpuid _ hphase
      obtain ⟨c, -, rfl⟩ := map_eq_some_iff.mp hstep
      refine ⟨h.pool, h.unset, h.depth, fun u hu => ?_⟩
      by_cases hut : u = t
      · subst hut
        exact ⟨cpuid, hphase⟩
      · refine h.running u fun hnone => hu ?_
        exact (update_of_ne hut ..).trans hnone
    · cases hstep
  | finish t =>
    simp only [exec] at hstep
    split_ifs at hstep with hcond
    obtain ⟨calls', hcalls, rfl⟩ := map_eq_some_iff.mp hstep
    have hmove := move_of_exec hcalls
    refine h.pool_step s.frame hmove hcond.1 ?_
    rw [h.depth t]
    exact (depth_finish hmove).symm

theorem control_inv_after {labels : List (ControlLabel Θ)}
    (h : controlAfter n envPtr labels = some s) : s.Inv n :=
  (run_of_execAll h).invariant (Control.Inv n) (fun _ _ _ h hstep => h.step hstep) Control.Inv.initial

/-- Where a thread has jumped to, and from where. -/
structure Gone (s : Control Θ) (t : Θ) (cpuid : Nat) : Prop where
  jumped : s.jumped t ≠ none
  phase : s.calls.phase t = .running cpuid

/-- A thread that has jumped takes no more steps. -/
theorem Gone.step (h : Gone s t cpuid) (hstep : s.exec n envPtr label = some s') :
    Gone s' t cpuid := by
  have hmoved : ∀ {poolLabel : Label Θ} {calls' : Calls Θ},
      s.calls.exec n envPtr poolLabel = some calls' → s.jumped poolLabel.thread = none →
      calls'.phase t = .running cpuid := by
    intro poolLabel calls' hcalls hnone
    have hother : t ≠ poolLabel.thread := by
      rintro rfl
      exact h.jumped hnone
    rw [(move_of_exec hcalls).phase_other hother, h.phase]
  cases label with
  | call u | step u =>
    simp only [exec] at hstep
    split_ifs at hstep with hnone
    obtain ⟨calls', hcalls, rfl⟩ := map_eq_some_iff.mp hstep
    exact ⟨h.jumped, hmoved hcalls hnone⟩
  | raise u trap =>
    simp only [exec] at hstep
    split at hstep
    · rename_i hnone _
      obtain ⟨c, -, rfl⟩ := map_eq_some_iff.mp hstep
      have hother : t ≠ u := by
        rintro rfl
        exact h.jumped hnone
      refine ⟨fun heq => h.jumped ?_, h.phase⟩
      exact (update_of_ne hother ..).symm.trans heq
    · cases hstep
  | finish u =>
    simp only [exec] at hstep
    split_ifs at hstep with hcond
    obtain ⟨calls', hcalls, rfl⟩ := map_eq_some_iff.mp hstep
    exact ⟨h.jumped, hmoved hcalls hcond.1⟩

theorem Gone.run {t : Θ} {cpuid : Nat} {labels : List (ControlLabel Θ)} (h : Gone s t cpuid)
    (hrun : execAll (Control.exec n envPtr) s labels = some s') : Gone s' t cpuid :=
  (run_of_execAll hrun).invariant (fun s => Gone s t cpuid) (fun _ _ _ h hstep => h.step hstep) h

variable {trap : GuestTrap}

theorem raise_gone (hinv : s.Inv n) (hstep : s.exec n envPtr (.raise t trap) = some s') :
    ∃ cpuid, Gone s' t cpuid ∧ s.calls.phase t = .running cpuid ∧ s'.jumped t = some none := by
  simp only [exec] at hstep
  split at hstep
  · rename_i cpuid _ hphase
    obtain ⟨c, -, rfl⟩ := map_eq_some_iff.mp hstep
    have hjump : ({ s with exception := update s.exception cpuid c }.siglongjmp t
        cpuid).jumped t = some none := by
      simp [siglongjmp, hinv.unset cpuid]
    exact ⟨cpuid, ⟨by rw [hjump]; simp, hphase⟩, hphase, hjump⟩
  · cases hstep

theorem raise_keeps_cpu {pre more : List (ControlLabel Θ)}
    (hrun : controlAfter n envPtr (pre ++ .raise t trap :: more) = some s) :
    ∃ cpuid, s.calls.Uses t cpuid ∧ s.calls.localCpuLock cpuid = true ∧ s.rcuDepth t = 1 := by
  have hinv := control_inv_after hrun
  rw [controlAfter, execAll_append] at hrun
  obtain ⟨s0, hpre, hrun⟩ := bind_eq_some_iff.mp hrun
  obtain ⟨s1, hraise, hmore⟩ := bind_eq_some_iff.mp hrun
  obtain ⟨cpuid, hgone, -, -⟩ := raise_gone (control_inv_after hpre) hraise
  have hphase := (hgone.run hmore).phase
  have huses : s.calls.Uses t cpuid := .of_running hphase
  refine ⟨cpuid, huses, hinv.pool.locked t cpuid huses, ?_⟩
  rw [hinv.depth, hphase]
  rfl

/-- The exceptions of a run are handled just when it has none: `exec` establishes no handler, and a
call in which an exception is raised never returns. -/
theorem raises_handled_iff {labels : List (ControlLabel Θ)} (hrun : controlAfter n envPtr labels = some s) :
    RaisesHandled n envPtr labels ↔ ∀ t trap, .raise t trap ∉ labels := by
  constructor
  · intro h t trap hmem
    obtain ⟨pre, post, rfl⟩ := List.append_of_mem hmem
    rw [controlAfter, execAll_append] at hrun
    obtain ⟨s₀, hpre, hrun⟩ := bind_eq_some_iff.mp hrun
    obtain ⟨s₁, hraise, -⟩ := bind_eq_some_iff.mp hrun
    obtain ⟨cpuid, -, hphase, -⟩ := raise_gone (control_inv_after hpre) hraise
    have hprefix : pre ++ [.raise t trap] <+: pre ++ .raise t trap :: post := ⟨post, by simp⟩
    obtain ⟨hhandler, -⟩ := h pre t trap s₀ cpuid hprefix hpre hphase
    rw [(control_inv_after hpre).unset] at hhandler
    cases hhandler
  · intro h pre t trap s₀ cpuid hpre
    exact absurd (hpre.subset (by simp)) (h t trap)

def quietCall : List (ControlLabel (Fin 1)) := [.call 0, .step 0, .step 0, .step 0, .finish 0]

theorem raises_handled_iff_quiet_call : ∃ s, controlAfter nCpus (fun _ => true) quietCall = some s ∧
    s.calls.phase 0 = .idle ∧ s.rcuDepth 0 = 0 ∧
    RaisesHandled nCpus (fun _ => true) quietCall := by
  obtain ⟨s, hs⟩ : ∃ s, controlAfter nCpus (fun _ => true) quietCall = some s := ⟨_, rfl⟩
  refine ⟨s, hs, ?_, ?_, (raises_handled_iff hs).mpr (by simp [quietCall])⟩
  · cases hs
    rfl
  · cases hs
    rfl

def enteredCall : List (ControlLabel (Fin 1)) := [.call 0, .step 0, .step 0]

/-- A supervisor call: the jump buffer of the CPU was never set, and in every continuation the call
has not returned, its CPU is locked and its read section is open. -/
theorem supervisor_call_unhandled :
    (∃ s, controlAfter nCpus (fun _ => true)
        (enteredCall ++ [.raise 0 (.supervisorCall 0 false)]) = some s ∧
      s.jumped 0 = some none ∧ (s.exception 0).exceptionIndex = excpSwi) ∧
    ¬ RaisesHandled nCpus (fun _ => true) (enteredCall ++ [.raise 0 (.supervisorCall 0 false)]) ∧
    ∀ more s, controlAfter nCpus (fun _ => true)
        (enteredCall ++ .raise 0 (.supervisorCall 0 false) :: more) = some s →
      s.calls.InFlight 0 ∧ s.rcuDepth 0 = 1 ∧ ∃ cpuid, s.calls.localCpuLock cpuid = true := by
  refine ⟨⟨_, rfl, rfl, rfl⟩, fun h => ?_, fun more s hrun => ?_⟩
  · obtain ⟨hhandler, -⟩ := h enteredCall 0 _ _ 0 (List.prefix_refl _) rfl rfl
    cases hhandler
  · obtain ⟨cpuid, huses, hlock, hdepth⟩ := raise_keeps_cpu hrun
    refine ⟨fun hidle => ?_, hdepth, cpuid, hlock⟩
    rw [Calls.Uses, hidle] at huses
    cases huses

end TcgArm.Pool
