import TcgArm.ThumbIt

/-! Translated Thumb code against the architecture: what the IT bits are whenever a block is left. -/

namespace TcgArm.Thumb

open BitVec ItState List Nat

open TcgArm (ItState)

/-- The IT bits are eight, and not some condition without a mask, which is reserved. -/
structure ValidIt (bits : Word) : Prop where
  byte : bits.toNat < 256
  mask : bits &&& 0xf = 0 → bits = 0

instance (bits : Word) : Decidable (ValidIt bits) :=
  decidable_of_iff (bits.toNat < 256 ∧ (bits &&& 0xf = 0 → bits = 0))
    ⟨fun h => ⟨h.1, h.2⟩, fun h => ⟨h.1, h.2⟩⟩

variable {P : Word → Prop}

theorem forall_byte (h : ∀ x : BitVec 8, P (x.setWidth 32)) {bits : Word}
    (hbits : bits.toNat < 256) : P bits := by
  have hback : (bits.setWidth 8).setWidth 32 = bits := by
    apply eq_of_toNat_eq
    rw [toNat_setWidth, toNat_setWidth, mod_eq_of_lt hbits, mod_eq_of_lt bits.isLt]
  exact hback ▸ h (bits.setWidth 8)

variable {bits : Word}

theorem start_packed (h : bits.toNat < 256) : (start bits).packed = bits :=
  @forall_byte (fun bits => (start bits).packed = bits) (by decide +kernel) bits h

theorem start_mask (h : bits.toNat < 256) : (start bits).mask ≠ 0 ↔ inItBlock bits :=
  @forall_byte (fun bits => (start bits).mask ≠ 0 ↔ inItBlock bits) (by decide +kernel) bits h

theorem start_advance (h : ValidIt bits) : (start bits).advance = start (itAdvance bits) :=
  @forall_byte (fun bits => ValidIt bits →
    (start bits).advance = start (itAdvance bits)) (by decide +kernel) bits h.byte h

theorem validIt_advance (h : ValidIt bits) : ValidIt (itAdvance bits) :=
  @forall_byte (fun bits => ValidIt bits → ValidIt (itAdvance bits)) (by decide +kernel) bits h.byte h

theorem start_cond_lt (h : bits.toNat < 256) : (start bits).cond.toNat < 16 :=
  @forall_byte (fun bits => (start bits).cond.toNat < 16) (by decide +kernel) bits h

theorem low_byte (insn : Word) : (insn &&& 0xff).toNat < 256 := by
  rw [toNat_and]
  exact Nat.and_le_right.trans_lt (by decide)

variable {insn : Word}

theorem validIt_ifThen (h : insn &&& 0xf ≠ 0) : ValidIt (insn &&& 0xff) := by
  refine ⟨low_byte insn, fun hzero => absurd ?_ h⟩
  rw [BitVec.and_assoc] at hzero
  exact hzero

theorem ifThen_low (insn : Word) : ifThen insn = ifThen (insn &&& 0xff) := by
  have hcond : (insn >>> 4) &&& (0xe : Word) = ((insn &&& 0xff) >>> 4) &&& (0xe : Word) := by
    rw [ushiftRight_and_distrib, BitVec.and_assoc]
    rfl
  have hmask : insn &&& 0x1f = (insn &&& 0xff) &&& 0x1f := by
    rw [BitVec.and_assoc]
    rfl
  rw [ifThen, ifThen, hcond, hmask]

theorem ifThen_advance (h : insn &&& 0xf ≠ 0) :
    (ifThen insn).advance = start (insn &&& 0xff) := by
  rw [ifThen_low]
  exact @forall_byte (fun bits => ValidIt bits → bits ≠ 0 →
    (ifThen bits).advance = start bits) (by decide +kernel) _ (low_byte insn)
    (validIt_ifThen h) fun hzero => h (by
      have hlow : insn &&& 0xf = (insn &&& 0xff) &&& 0xf := by
        rw [BitVec.and_assoc]
        rfl
      rw [hlow, hzero]
      rfl)

theorem forall_code (h : ∀ x : BitVec 4, P (x.setWidth 32)) {cc : Word} (hcc : cc.toNat < 16) : P cc := by
  have hback : (cc.setWidth 4).setWidth 32 = cc := by
    apply eq_of_toNat_eq
    rw [toNat_setWidth, toNat_setWidth, mod_eq_of_lt hcc, mod_eq_of_lt cc.isLt]
  exact hback ▸ h (cc.setWidth 4)

theorem slt_zero (x : Word) : x.slt 0 = x.msb := by
  rw [slt_eq_decide, msb_eq_toInt]
  rfl

theorem sign_mask (x : Word) : x.sshiftRight 31 = if x.msb then allOnes 32 else 0 := by
  have hbit : ∀ i < 32, (x.sshiftRight 31).getLsbD i = x.msb := by
    intro i hi
    have hle : ¬ 32 ≤ i := by omega
    rw [getLsbD_sshiftRight, decide_eq_false hle]
    by_cases hzero : i = 0
    · subst hzero
      rw [if_pos (by decide), msb_eq_getLsbD_last]
      rfl
    · rw [if_neg (by omega)]
      rfl
  apply eq_of_getLsbD_eq
  intro i hi
  rw [hbit i hi]
  split
  · rename_i hmsb
    rw [hmsb, getLsbD_allOnes, decide_eq_true hi]
  · rename_i hmsb
    rw [Bool.not_eq_true] at hmsb
    rw [hmsb]
    exact getLsbD_zero.symm

theorem ones_and (x : Word) : 4294967295#32 &&& x = x := allOnes_and

theorem and_ones (x : Word) : x &&& 4294967295#32 = x := and_allOnes

theorem armTestCc_flip {cond : Word} (hcond : cond.toNat < 14) (f : Flags) :
    armTestCc (cond ^^^ 1) f = !conditionHolds cond f := by
  have hcases : cond = 0 ∨ cond = 1 ∨ cond = 2 ∨ cond = 3 ∨ cond = 4 ∨ cond = 5 ∨ cond = 6 ∨ cond = 7 ∨
      cond = 8 ∨ cond = 9 ∨ cond = 10 ∨ cond = 11 ∨ cond = 12 ∨ cond = 13 :=
    @forall_code (fun cond => cond.toNat < 14 → cond = 0 ∨ cond = 1 ∨ cond = 2 ∨ cond = 3 ∨ cond = 4 ∨
      cond = 5 ∨ cond = 6 ∨ cond = 7 ∨ cond = 8 ∨ cond = 9 ∨ cond = 10 ∨ cond = 11 ∨ cond = 12 ∨
      cond = 13) (by decide) cond (by omega) hcond
  obtain ⟨nf, zf, cf, vf⟩ := f
  rcases hcases with rfl | rfl | rfl | rfl | rfl | rfl | rfl | rfl | rfl | rfl | rfl | rfl | rfl | rfl
  all_goals
    simp only [armTestCc, testCc, conditionHolds, slt_zero, sign_mask, msb_xor]
    cases cf <;> cases hn : nf.msb <;> cases hv : vf.msb <;> cases hz : zf == 0 <;>
      simp_all [ones_and, and_ones]

section Pieces

variable {σ : Type} {g : Guest σ}

variable {l : Nat}

theorem run_skip {ops : List Op} (hops : ∀ op ∈ ops, op ≠ .label l) (rest : List Op) (d : Word)
    (cpu : Cpu σ) : run g (some l) (ops ++ rest) d cpu = run g (some l) rest d cpu := by
  induction ops with
  | nil => rfl
  | cons op ops ih =>
    rw [List.cons_append, run, if_neg (hops op List.mem_cons_self)]
    exact ih fun op hop => hops op (List.mem_cons_of_mem _ hop)

theorem run_label (rest : List Op) (d : Word) (cpu : Cpu σ) :
    run g (some l) (.label l :: rest) d cpu = run g none rest d cpu := by
  rw [run, if_pos rfl]

theorem run_genSetCondexec (it : ItState) (rest : List Op) (d : Word) (cpu : Cpu σ) :
    run g none (genSetCondexec it ++ rest) d cpu =
      run g none rest d { cpu with bits := if it.mask ≠ 0 then it.packed else cpu.bits } := by
  rw [genSetCondexec]
  split <;> rfl

theorem run_settled (cpu : Cpu σ) (hvalid : ValidIt bits)
    (hclear : ¬ inItBlock bits → cpu.bits = 0) (rest : List Op) (d : Word) :
    run g none (genSetCondexec (start bits) ++ rest) d cpu = run g none rest d { cpu with bits := bits } := by
  rw [run_genSetCondexec]
  by_cases hin : inItBlock bits
  · rw [if_pos ((start_mask hvalid.byte).mpr hin), start_packed hvalid.byte]
  · have hmask : ¬ (start bits).mask ≠ 0 := fun h => hin ((start_mask hvalid.byte).mp h)
    have hzero : bits = 0 := hvalid.mask (not_not.mp hin)
    rw [if_neg hmask, hclear hin, hzero]

theorem genSetCondexec_noLabel {it : ItState} {op : Op} (h : op ∈ genSetCondexec it) :
    op ≠ .label l := by
  rw [genSetCondexec] at h
  split at h
  · rw [mem_singleton.mp h]
    exact Op.noConfusion
  · exact absurd h (by simp)

end Pieces

/-- The context and the state at an instruction of a block that can be relied on. Most of this is
unpredictable in the architecture; what is not are helpers and exceptions of the emulator that find
the IT bits cleared. -/
structure Fine {σ : Type} (g : Guest σ) (cfg : Config) (dc : Dc) (s : σ) : Prop where
  cond : dc.it.mask ≠ 0 → dc.it.cond ≠ 0xf
  inner : dc.it.mask ≠ 0 → (∀ insn, g.kind dc.pc ≠ .ifThen insn) ∧ g.kind dc.pc ≠ .branchIf
  last : dc.it.mask ≠ 0 → g.kind dc.pc = .direct ∨ g.kind dc.pc = .eret → dc.it.advance.mask = 0
  granted : dc.it.mask ≠ 0 → g.kind dc.pc = .monitor ∨ g.kind dc.pc = .wait → g.refused dc.pc s = false
  waits : cfg.stepping = true → g.kind dc.pc = .wait → g.refused dc.pc s = false
  marked : cfg.kernelPage dc.pc = true ∨
      (cfg.ssActive = true ∧ cfg.pstateSs = false ∧ cfg.breakpoint dc.pc = none) → dc.it.mask = 0

def syncs {σ : Type} (g : Guest σ) (cfg : Config) (dc : Dc) : Bool :=
  decide (dc.it.mask ≠ 0) && ((match g.kind dc.pc with
      | .synced _ => true
      | _ => false) || cfg.breakpoint dc.pc == some true)

/-- The instructions of a block, from one on, are fine, and an IT block does not end after its bits
were written back in it. -/
def Clean {σ : Type} (g : Guest σ) (cfg : Config) : Nat → Dc → Bool → Cpu σ → Prop
  | n, dc, dirty, arch =>
    Fine g cfg dc arch.s ∧
    (dirty || syncs g cfg dc → (translateInsn g cfg dc).2.1.it.mask ≠ 0) ∧
    match n with
    | 0 => True
    | n + 1 => (translateInsn g cfg dc).2.2 = false → continues cfg (translateInsn g cfg dc).2.1 →
        ∀ arch', archStep g arch = .next arch' →
          Clean g cfg n (translateInsn g cfg dc).2.1 (dirty || syncs g cfg dc) arch'

section Instruction

variable {σ : Type} {g : Guest σ} {cfg : Config}

def afterInsn (g : Guest σ) (cfg : Config) (dc : Dc) (pc : Word) : Dc :=
  { (genInsn g cfg dc pc).2 with it := (genInsn g cfg dc pc).2.it.advance }

section

variable {bits : Word} (dc : Dc) (cpu : Cpu σ) (hit : dc.it = ItState.start bits) (hvalid : ValidIt bits)
  (hclear : ¬ inItBlock bits → cpu.bits = 0) (tail : List Op) (d : Word)
include hit hvalid hclear

theorem run_exit_update (hjmp : dc.isJmp = .next ∨ dc.isJmp = .update) :
    run g none (genSetCondexec dc.it ++ blockExit cfg dc ++ tail) d cpu =
      some (.next ⟨dc.pc, bits, cpu.s⟩) := by
  have hexit : blockExit cfg dc = [.setPc dc.pc, .leave] := by
    rw [blockExit]
    rcases hjmp with h | h <;> rw [h] <;> split <;> rfl
  rw [hit, hexit, List.append_assoc, run_settled cpu hvalid hclear]
  rfl

theorem run_exit_jump (hjmp : dc.isJmp = .jump ∨ dc.isJmp = .yield) :
    run g none (genSetCondexec dc.it ++ blockExit cfg dc ++ tail) d cpu =
      some (.next ⟨cpu.pc, bits, cpu.s⟩) := by
  have hexit : blockExit cfg dc = [.leave] := by
    rw [blockExit]
    rcases hjmp with h | h <;> rw [h] <;> split <;> rfl
  rw [hit, hexit, List.append_assoc, run_settled cpu hvalid hclear]
  rfl

theorem run_exit_raise (hjmp : dc.isJmp = .svc ∨ dc.isJmp = .monitor) :
    run g none (genSetCondexec dc.it ++ blockExit cfg dc ++ tail) d cpu = some (.exception bits cpu.s) := by
  have hexit : blockExit cfg dc = [.raise] := by
    rw [blockExit]
    rcases hjmp with h | h <;> rw [h] <;> split <;> rfl
  rw [hit, hexit, List.append_assoc, run_settled cpu hvalid hclear]
  rfl

end

theorem reaches_work {arch cpu : Cpu σ} {next : σ → Cpu σ} {rest : List Op} (hs : cpu.s = arch.s)
    (hstep : archStep g arch = match g.work arch.pc arch.s with
      | .ok s => .next (next s)
      | .error s => .exception arch.bits s)
    (hrun : ∀ s, run g none rest arch.bits { cpu with s := s } = some (.next (next s))) :
    ∃ o, run g none (.work arch.pc :: rest) arch.bits cpu = some o ∧ Reaches g arch o := by
  rw [run, hs]
  cases hwork : g.work arch.pc arch.s with
  | ok s =>
    rw [hwork] at hstep
    exact ⟨_, hrun s, .step hstep (.here _)⟩
  | error s =>
    rw [hwork] at hstep
    exact ⟨_, rfl, .raise hstep⟩

variable {arch cpu : Cpu σ} {dc : Dc}

/-- An instruction that is executed as the last one of its block. -/
structure Last (g : Guest σ) (cfg : Config) (dc : Dc) (arch cpu : Cpu σ) : Prop where
  it : dc.it = ItState.start arch.bits
  pc : dc.pc = arch.pc + g.length arch.pc
  valid : ValidIt arch.bits
  same : cpu.s = arch.s
  isJmp : dc.isJmp = .next ∨ dc.isJmp = .update
  fine : Fine g cfg { dc with pc := arch.pc } arch.s
  clear : ¬ inItBlock arch.bits → cpu.bits = 0
  after : ¬ inItBlock (itAdvance arch.bits) → cpu.bits = 0
  passes : conditionPassed g arch.bits arch.s = true

/-- What the code of the instruction and the end of the block do is a step of the architecture. -/
def EndsRight (g : Guest σ) (cfg : Config) (dc : Dc) (arch cpu : Cpu σ) (tail : List Op) : Prop :=
  ∃ o, run g none ((genInsn g cfg dc arch.pc).1 ++ (genSetCondexec (afterInsn g cfg dc arch.pc).it ++
      blockExit cfg (afterInsn g cfg dc arch.pc) ++ tail)) arch.bits cpu = some o ∧ Reaches g arch o

namespace Last

variable (h : Last g cfg dc arch cpu) (tail : List Op)

include h

theorem step : archStep g arch = archExec g arch := if_pos h.passes

theorem advance : dc.it.advance = start (itAdvance arch.bits) := by
  rw [h.it, start_advance h.valid]

theorem valid_after : ValidIt (itAdvance arch.bits) := validIt_advance h.valid

theorem inside : dc.it.mask ≠ 0 ↔ inItBlock arch.bits := by rw [h.it, start_mask h.valid.byte]

theorem following (s : σ) : (⟨dc.pc, itAdvance arch.bits, s⟩ : Cpu σ) = arch.following g s := by
  rw [h.pc, Cpu.following]

/-- Branches are last in their IT block, if they are in one. -/
theorem ended (hlast : g.kind arch.pc = .direct ∨ g.kind arch.pc = .eret) : dc.it.advance.mask = 0 := by
  by_cases hin : inItBlock arch.bits
  · exact h.fine.last (h.inside.mpr hin) hlast
  · rw [h.advance, h.valid.mask (not_not.mp hin)]
    decide

/-- What may be refused is not in an IT block when it is. -/
theorem outside (hkind : g.kind arch.pc = .monitor ∨ g.kind arch.pc = .wait)
    (hrefused : g.refused arch.pc arch.s = true) : ¬ inItBlock arch.bits := fun hin => by
  rw [h.fine.granted (h.inside.mpr hin) hkind] at hrefused
  exact absurd hrefused (by decide)

theorem right_ifThen {insn : Word} (hkind : g.kind arch.pc = .ifThen insn) :
    EndsRight g cfg dc arch cpu tail := by
  have hstep := h.step
  simp only [archExec, hkind] at hstep
  have hmask := g.ifThen_mask _ _ hkind
  have hout : ¬ inItBlock arch.bits := fun hin => (h.fine.inner (h.inside.mpr hin)).1 insn hkind
  simp only [EndsRight, genInsn, afterInsn, hkind, nil_append]
  refine ⟨_, ?_, .step hstep (.here _)⟩
  rw [← h.pc, ← h.same]
  exact run_exit_update { dc with it := (ifThen insn).advance } cpu (ifThen_advance hmask)
    (validIt_ifThen hmask) (fun _ => h.clear hout) tail arch.bits h.isJmp

theorem right_synced {ends : Bool} (hkind : g.kind arch.pc = .synced ends)
    (hsync : inItBlock arch.bits → inItBlock (itAdvance arch.bits)) :
    EndsRight g cfg dc arch cpu tail := by
  have hstep := h.step
  simp only [archExec, hkind] at hstep
  have hjmp : (afterInsn g cfg dc arch.pc).isJmp = .next ∨ (afterInsn g cfg dc arch.pc).isJmp = .update := by
    cases ends <;> simp [afterInsn, genInsn, hkind, h.isJmp]
  have hit : (afterInsn g cfg dc arch.pc).it = start (itAdvance arch.bits) := by
    cases ends <;> simp [afterInsn, genInsn, hkind, h.advance]
  have hpc : (afterInsn g cfg dc arch.pc).pc = dc.pc := by
    cases ends <;> simp [afterInsn, genInsn, hkind]
  have hbits : ¬ inItBlock (itAdvance arch.bits) → arch.bits = 0 := fun hnot =>
    h.valid.mask (not_not.mp fun hin => hnot (hsync hin))
  simp only [EndsRight, genInsn, hkind]
  rw [h.it, List.append_assoc, run_settled cpu h.valid h.clear]
  simp only [List.cons_append, nil_append, run, h.same]
  by_cases hrefused : g.refused arch.pc arch.s = true
  · rw [if_pos hrefused] at hstep ⊢
    exact ⟨_, rfl, .raise hstep⟩
  · rw [if_neg hrefused] at hstep ⊢
    refine @reaches_work σ g arch ⟨arch.pc, arch.bits, arch.s⟩ _ _ rfl hstep fun s => ?_
    rw [← h.following s, ← hpc]
    exact run_exit_update _ ⟨arch.pc, arch.bits, s⟩ hit h.valid_after hbits tail arch.bits hjmp

theorem right_direct (hkind : g.kind arch.pc = .direct) : EndsRight g cfg dc arch cpu tail := by
  have hstep := h.step
  simp only [archExec, hkind] at hstep
  simp only [EndsRight, genInsn, afterInsn, hkind, genJmp]
  split
  · refine reaches_work h.same hstep fun s => ?_
    exact run_exit_jump { dc with it := dc.it.advance, isJmp := .jump } ⟨g.dest arch.pc s, cpu.bits, s⟩
      h.advance h.valid_after h.after tail arch.bits (.inl rfl)
  · have hout : ¬ inItBlock (itAdvance arch.bits) := by
      rw [← start_mask h.valid_after.byte, ← h.advance]
      exact not_not.mpr (h.ended (.inl hkind))
    have hbits : itAdvance arch.bits = cpu.bits := by
      rw [h.after hout, h.valid_after.mask (not_not.mp hout)]
    refine reaches_work h.same hstep fun s => ?_
    rw [hbits]
    rfl

theorem right_monitor (hkind : g.kind arch.pc = .monitor) : EndsRight g cfg dc arch cpu tail := by
  have hstep := h.step
  simp only [archExec, hkind] at hstep
  have hraise := @run_exit_raise σ g cfg _ { dc with it := dc.it.advance, isJmp := .monitor }
    ⟨dc.pc, cpu.bits, arch.s⟩ h.advance h.valid_after h.after tail arch.bits (.inr rfl)
  simp only [EndsRight, genInsn, afterInsn, hkind, List.cons_append, nil_append, run, h.same]
  by_cases hrefused : g.refused arch.pc arch.s = true
  · have hout := h.outside (.inl hkind) hrefused
    rw [if_pos hrefused] at hstep ⊢
    rw [h.clear hout, ← h.valid.mask (not_not.mp hout)]
    exact ⟨_, rfl, .raise hstep⟩
  · rw [if_neg hrefused] at hstep ⊢
    exact ⟨_, hraise, .raise hstep⟩

theorem right_wait (hkind : g.kind arch.pc = .wait) : EndsRight g cfg dc arch cpu tail := by
  have hstep := h.step
  simp only [archExec, hkind] at hstep
  simp only [EndsRight, genInsn, afterInsn, hkind, List.cons_append, nil_append, run]
  rw [h.advance, List.append_assoc, run_settled ⟨dc.pc, cpu.bits, cpu.s⟩ h.valid_after h.after, blockExit]
  by_cases hrefused : g.refused arch.pc arch.s = true
  · have hstill : ¬ cfg.stepping = true := fun hstepping => by
      rw [h.fine.waits hstepping hkind] at hrefused
      exact absurd hrefused (by decide)
    have hzero : arch.bits = 0 := h.valid.mask (not_not.mp (h.outside (.inr hkind) hrefused))
    rw [if_pos hrefused] at hstep
    rw [if_neg hstill]
    refine ⟨_, ?_, .raise hstep⟩
    simp only [List.cons_append, run, h.same, if_pos hrefused, hzero]
    rfl
  · rw [if_neg hrefused] at hstep
    refine ⟨_, ?_, .step hstep (.here _)⟩
    rw [← h.following, ← h.same]
    split
    · rfl
    · simp only [List.cons_append, run, h.same, if_neg hrefused]

end Last

/-- An instruction that is executed, with the end of the block after it. -/
theorem run_last (h : Last g cfg dc arch cpu)
    (hsync : ∀ ends, g.kind arch.pc = .synced ends → inItBlock arch.bits →
      inItBlock (itAdvance arch.bits)) (hbranch : g.kind arch.pc ≠ .branchIf) (tail : List Op) :
    EndsRight g cfg dc arch cpu tail := by
  have hstep := h.step
  cases hkind : g.kind arch.pc
  case ifThen insn => exact h.right_ifThen tail hkind
  case synced ends => exact h.right_synced tail hkind (hsync ends hkind)
  case direct => exact h.right_direct tail hkind
  case branchIf => exact absurd hkind hbranch
  case monitor => exact h.right_monitor tail hkind
  case wait => exact h.right_wait tail hkind
  all_goals
    simp only [archExec, hkind] at hstep
    simp only [EndsRight, genInsn, afterInsn, hkind, List.cons_append, nil_append]
  case plain =>
    refine reaches_work h.same hstep fun s => ?_
    rw [← h.following s]
    exact run_exit_update { dc with it := dc.it.advance } ⟨cpu.pc, cpu.bits, s⟩ h.advance h.valid_after
      h.after tail arch.bits h.isJmp
  case update =>
    refine reaches_work h.same hstep fun s => ?_
    rw [← h.following s]
    exact run_exit_update { dc with it := dc.it.advance, isJmp := .update } ⟨cpu.pc, cpu.bits, s⟩
      h.advance h.valid_after h.after tail arch.bits (.inr rfl)
  case jump =>
    refine reaches_work h.same hstep fun s => ?_
    exact run_exit_jump { dc with it := dc.it.advance, isJmp := .jump } ⟨g.dest arch.pc s, cpu.bits, s⟩
      h.advance h.valid_after h.after tail arch.bits (.inl rfl)
  case eret =>
    refine reaches_work h.same hstep fun s => ?_
    rw [List.append_assoc, run, run_genSetCondexec, if_neg (not_not.mpr (h.ended (.inr hkind))), blockExit]
    split <;> rfl
  case trap =>
    refine ⟨_, ?_, .raise hstep⟩
    rw [h.it, List.append_assoc, run_settled cpu h.valid h.clear, ← h.same]
    rfl
  case exclusive =>
    refine ⟨_, ?_, .stop arch⟩
    rw [h.it, List.append_assoc, run_settled cpu h.valid h.clear, ← h.same]
    rfl
  case svc =>
    refine ⟨_, ?_, .raise hstep⟩
    rw [← h.same]
    exact run_exit_raise { dc with it := dc.it.advance, isJmp := .svc } ⟨dc.pc, cpu.bits, cpu.s⟩
      h.advance h.valid_after h.after tail arch.bits (.inl rfl)
  case yield =>
    refine ⟨_, ?_, .step hstep (.here _)⟩
    rw [← h.following, ← h.same]
    exact run_exit_jump { dc with it := dc.it.advance, isJmp := .yield } ⟨dc.pc, cpu.bits, cpu.s⟩
      h.advance h.valid_after h.after tail arch.bits (.inr rfl)

theorem genInsn_noLabel {dc : Dc} {pc : Word} {l : Nat} {op : Op}
    (h : op ∈ (genInsn g cfg dc pc).1) : op ≠ .label l := by
  cases hkind : g.kind pc <;> simp only [genInsn, hkind, genJmp] at h
  case synced | trap | exclusive =>
    rcases mem_append.mp h with h | h
    · exact genSetCondexec_noLabel h
    · simp only [mem_cons, not_mem_nil, or_false] at h
      aesop
  all_goals
    repeat' split at h
    all_goals simp only [mem_cons, not_mem_nil, or_false] at h
    all_goals aesop

variable {l : Nat} {pc : Word} {dc' : Dc}

theorem blockExit_noLabel {op : Op} (h : op ∈ blockExit cfg dc) : op ≠ .label l := by
  rw [blockExit] at h
  split at h <;> split at h <;> simp only [mem_cons, not_mem_nil, or_false] at h <;> aesop

theorem run_skipped (hlabel : dc.condjmp = some l) (hit : dc.it = start bits)
    (hvalid : ValidIt bits) (cpu : Cpu σ) (hclear : ¬ inItBlock bits → cpu.bits = 0) (d : Word) :
    run g (some l) (blockEnd cfg dc) d cpu = some (.next ⟨dc.pc, bits, cpu.s⟩) := by
  rw [blockEnd, hlabel, List.append_assoc, run_skip fun op hop => genSetCondexec_noLabel hop,
    run_skip fun op hop => blockExit_noLabel hop]
  dsimp only
  rw [List.cons_append, run_label, hit, run_settled cpu hvalid hclear]
  rfl

/-- A conditional branch, which is not in an IT block. -/
theorem run_branchIf (hit : dc.it = start arch.bits)
    (hpc : dc.pc = arch.pc + g.length arch.pc) (hvalid : ValidIt arch.bits) (hs : cpu.s = arch.s)
    (hbranch : g.kind arch.pc = .branchIf) (hout : ¬ inItBlock arch.bits) (hclear : cpu.bits = 0) :
    ∃ o, run g none ((genInsn g cfg dc arch.pc).1 ++ blockEnd cfg (afterInsn g cfg dc arch.pc))
        arch.bits cpu = some o ∧ Reaches g arch o := by
  have hzero : arch.bits = 0 := hvalid.mask (not_not.mp hout)
  have hstep : archStep g arch = archExec g arch := if_pos (if_neg hout)
  have hadv : dc.it.advance = start (itAdvance arch.bits) := by rw [hit, start_advance hvalid]
  have hstill : itAdvance arch.bits = 0 := by
    rw [hzero]
    decide
  simp only [archExec, hbranch] at hstep
  have hlabel : (afterInsn g cfg dc arch.pc).condjmp = some dc.labels := by
    simp only [afterInsn, genInsn, hbranch, genJmp]
    split <;> rfl
  have hit' : (afterInsn g cfg dc arch.pc).it = start (itAdvance arch.bits) := by
    simp only [afterInsn, genInsn, hbranch, genJmp]
    split <;> exact hadv
  have hpc' : (afterInsn g cfg dc arch.pc).pc = dc.pc := by
    simp only [afterInsn, genInsn, hbranch, genJmp]
    split <;> rfl
  have hops : (genInsn g cfg dc arch.pc).1 = .testTaken arch.pc dc.labels :: (genJmp cfg dc arch.pc).1 := by
    simp only [genInsn, hbranch, genJmp]
    split <;> rfl
  have hskip : ∀ op ∈ (genJmp cfg dc arch.pc).1, op ≠ .label dc.labels := by
    intro op hop
    exact @genInsn_noLabel σ g cfg dc arch.pc dc.labels op (hops ▸ mem_cons_of_mem _ hop)
  rw [hops, List.cons_append, run, hs]
  by_cases htaken : g.taken arch.pc arch.s = true
  · rw [if_pos htaken] at hstep ⊢
    refine ⟨_, ?_, .step hstep (.here _)⟩
    by_cases hstepping : cfg.stepping = true
    · have hjmp : (afterInsn g cfg dc arch.pc).isJmp = .jump := by
        simp only [afterInsn, genInsn, hbranch, genJmp, if_pos hstepping]
      rw [genJmp, if_pos hstepping, ← hs]
      exact run_exit_jump _ ⟨g.dest arch.pc cpu.s, cpu.bits, cpu.s⟩ hit'
        (validIt_advance hvalid) (fun _ => hclear) _ arch.bits (.inl hjmp)
    · rw [genJmp, if_neg hstepping, hstill, ← hclear, ← hs]
      rfl
  · rw [if_neg htaken] at hstep ⊢
    refine ⟨_, ?_, .step hstep (.here _)⟩
    rw [run_skip hskip, run_skipped hlabel hit' (validIt_advance hvalid) cpu fun _ => hclear, hpc', hpc, hs,
      Cpu.following]

theorem afterInsn_pc (dc : Dc) (pc : Word) : (afterInsn g cfg dc pc).pc = dc.pc := by
  cases hkind : g.kind pc <;> simp only [afterInsn, genInsn, hkind, genJmp] <;> split <;> rfl

theorem afterInsn_condjmp (h : g.kind pc ≠ .branchIf) :
    (afterInsn g cfg dc pc).condjmp = dc.condjmp := by
  cases hkind : g.kind pc <;> simp only [afterInsn, genInsn, hkind, genJmp]
  case branchIf => exact absurd hkind h
  all_goals split <;> rfl

theorem afterInsn_it (h : ∀ insn, g.kind pc ≠ .ifThen insn) :
    (afterInsn g cfg dc pc).it = dc.it.advance := by
  cases hkind : g.kind pc <;> simp only [afterInsn, genInsn, hkind, genJmp]
  case ifThen insn => exact absurd hkind (h insn)
  all_goals split <;> rfl

theorem Fine.congr {s : σ} (h : Fine g cfg dc s) (hpc : dc'.pc = dc.pc) (hit : dc'.it = dc.it) :
    Fine g cfg dc' s := by
  obtain ⟨h1, h2, h3, h4, h5, h6⟩ := h
  rw [← hpc] at h2 h3 h4 h5 h6
  rw [← hit] at h1 h2 h3 h4 h6
  exact ⟨h1, h2, h3, h4, h5, h6⟩

/-- The context that the instruction is generated in: behind it, and with the label of the test. -/
def testedDc (g : Guest σ) (dc : Dc) : Dc := { (genItTest dc).2 with pc := dc.pc + g.length dc.pc }

theorem disasThumbInsn_eq (dc : Dc) : disasThumbInsn g cfg dc =
    ((genItTest dc).1 ++ (genInsn g cfg (testedDc g dc) dc.pc).1, afterInsn g cfg (testedDc g dc) dc.pc) :=
  rfl

theorem testedDc_it (g : Guest σ) (dc : Dc) : (testedDc g dc).it = dc.it := by
  rw [testedDc, genItTest]
  split <;> rfl

theorem testedDc_isJmp (g : Guest σ) (dc : Dc) : (testedDc g dc).isJmp = dc.isJmp := by
  rw [testedDc, genItTest]
  split <;> rfl

/-- What the test of the IT condition does: nothing if the condition holds, a jump to the label that
is noted otherwise. -/
theorem run_itTest (hit : dc.it = start bits) (hvalid : ValidIt bits)
    (hcond : dc.it.mask ≠ 0 → dc.it.cond ≠ 0xf) (cpu : Cpu σ) (rest : List Op) (d : Word) :
    (conditionPassed g bits cpu.s = true ∧
        run g none ((genItTest dc).1 ++ rest) d cpu = run g none rest d cpu) ∨
      (conditionPassed g bits cpu.s = false ∧ dc.it.mask ≠ 0 ∧
        (testedDc g dc).condjmp = some dc.labels ∧
        run g none ((genItTest dc).1 ++ rest) d cpu = run g (some dc.labels) rest d cpu) := by
  have hin : dc.it.mask ≠ 0 ↔ inItBlock bits := by rw [hit, start_mask hvalid.byte]
  have hcode : dc.it.cond = bits >>> 4 := by rw [hit, start]
  rw [testedDc, genItTest]
  by_cases htest : dc.it.mask ≠ 0 ∧ dc.it.cond ≠ 0xe
  · have hlt : dc.it.cond.toNat < 14 := by
      have hbound : dc.it.cond.toNat < 16 := hit ▸ start_cond_lt hvalid.byte
      have h14 : dc.it.cond.toNat ≠ 14 := fun h => htest.2 (eq_of_toNat_eq h)
      have h15 : dc.it.cond.toNat ≠ 15 := fun h => hcond htest.1 (eq_of_toNat_eq h)
      omega
    have hpassed : conditionPassed g bits cpu.s = conditionHolds dc.it.cond (g.flags cpu.s) := by
      rw [conditionPassed, if_pos (hin.mp htest.1), hcode]
    rw [if_pos htest, hpassed]
    simp only [singleton_append, run, armTestCc_flip hlt]
    cases conditionHolds dc.it.cond (g.flags cpu.s) with
    | true => exact .inl ⟨by simp, by simp⟩
    | false => exact .inr ⟨by simp, htest.1, by simp, by simp⟩
  · rw [if_neg htest]
    refine .inl ⟨?_, rfl⟩
    rw [conditionPassed]
    split
    · rename_i hblock
      have halways : bits >>> 4 = 0xe := by
        rw [← hcode]
        exact not_not.mp fun h => htest ⟨hin.mpr hblock, h⟩
      rw [halways]
      rfl
    · rfl

/-- An instruction whose condition does not hold. -/
theorem skipped (hit : dc.it = start arch.bits) (hvalid : ValidIt arch.bits)
    (hfail : conditionPassed g arch.bits arch.s = false) (hkind : ∀ insn, g.kind arch.pc ≠ .ifThen insn) :
    (afterInsn g cfg (testedDc g dc) arch.pc).it = start (itAdvance arch.bits) ∧
      archStep g arch = .next (arch.following g arch.s) := by
  rw [afterInsn_it hkind, testedDc_it, hit, start_advance hvalid, archStep, hfail]
  exact ⟨rfl, rfl⟩

/-- An instruction with the end of its block. -/
theorem disas_ends (hpc : dc.pc = arch.pc)
    (hit : dc.it = start arch.bits) (hvalid : ValidIt arch.bits) (hs : cpu.s = arch.s)
    (hjmp : dc.isJmp = .next ∨ dc.isJmp = .update) (hfine : Fine g cfg dc arch.s)
    (hclear : ¬ inItBlock arch.bits → cpu.bits = 0)
    (hafter : ¬ inItBlock (itAdvance arch.bits) → cpu.bits = 0)
    (hsync : ∀ ends, g.kind arch.pc = .synced ends → inItBlock arch.bits → inItBlock (itAdvance arch.bits)) :
    ∃ o, run g none ((disasThumbInsn g cfg dc).1 ++ blockEnd cfg (disasThumbInsn g cfg dc).2) arch.bits
        cpu = some o ∧ Reaches g arch o := by
  have hin : dc.it.mask ≠ 0 ↔ inItBlock arch.bits := by rw [hit, start_mask hvalid.byte]
  have hit' : (testedDc g dc).it = start arch.bits := by rw [testedDc_it, hit]
  have hpc' : (testedDc g dc).pc = arch.pc + g.length arch.pc := by rw [testedDc, hpc]
  have hfine' : Fine g cfg { testedDc g dc with pc := arch.pc } arch.s :=
    hfine.congr hpc.symm (testedDc_it g dc)
  simp only [disasThumbInsn_eq, List.append_assoc]
  rw [hpc]
  rcases run_itTest hit hvalid hfine.cond cpu ((genInsn g cfg (testedDc g dc) arch.pc).1 ++
      blockEnd cfg (afterInsn g cfg (testedDc g dc) arch.pc)) arch.bits with
    ⟨hpass, hrun⟩ | ⟨hfail, hmask, hlabel, hrun⟩
  · rw [hs] at hpass
    rw [hrun]
    by_cases hbranch : g.kind arch.pc = .branchIf
    · have hout : ¬ inItBlock arch.bits := fun h => (hfine.inner (hin.mpr h)).2 (hpc ▸ hbranch)
      exact run_branchIf hit' hpc' hvalid hs hbranch hout (hclear hout)
    · exact run_last ⟨hit', hpc', hvalid, hs, testedDc_isJmp g dc ▸ hjmp, hfine', hclear, hafter, hpass⟩
        hsync hbranch _
  · have hinner := hfine.inner hmask
    rw [hpc] at hinner
    obtain ⟨hadv, hstep⟩ := skipped hit hvalid (hs ▸ hfail) hinner.1
    refine ⟨_, ?_, .step hstep (.here _)⟩
    rw [hrun, run_skip fun op hop => genInsn_noLabel hop,
      run_skipped ((afterInsn_condjmp hinner.2).trans hlabel) hadv (validIt_advance hvalid) cpu hafter,
      afterInsn_pc, hpc', hs, Cpu.following]

/-- After an instruction that the block goes on behind, label included, the architecture has taken one
step, unless a fault has ended the run. The bits in the state change only if they are written back. -/
def GoesOn (g : Guest σ) (dc' : Dc) (arch cpu : Cpu σ) (ops rest : List Op) : Prop :=
  (∃ o, run g none (ops ++ rest) arch.bits cpu = some o ∧ Reaches g arch o) ∨
    ∃ arch' cpu', archStep g arch = .next arch' ∧
      run g none (ops ++ rest) arch.bits cpu = run g none rest arch.bits cpu' ∧
      dc'.pc = arch'.pc ∧ dc'.it = ItState.start arch'.bits ∧ ValidIt arch'.bits ∧ cpu'.s = arch'.s ∧
      (cpu'.bits = cpu.bits ∨ inItBlock arch.bits ∧ ∃ ends, g.kind arch.pc = .synced ends)

theorem goesOn_work {arch cpu : Cpu σ} {rest : List Op} (hs : cpu.s = arch.s)
    (hstep : archStep g arch = match g.work arch.pc arch.s with
      | .ok s => .next (arch.following g s)
      | .error s => .exception arch.bits s)
    (hpc : dc'.pc = arch.pc + g.length arch.pc) (hit : dc'.it = start (itAdvance arch.bits))
    (hvalid : ValidIt arch.bits) : GoesOn g dc' arch cpu [.work arch.pc] rest := by
  rw [GoesOn, singleton_append, run, hs]
  cases hwork : g.work arch.pc arch.s with
  | ok s =>
    rw [hwork] at hstep
    exact .inr ⟨_, ⟨cpu.pc, cpu.bits, s⟩, hstep, rfl, hpc, hit, validIt_advance hvalid, rfl, .inl rfl⟩
  | error s =>
    rw [hwork] at hstep
    exact .inl ⟨_, rfl, .raise hstep⟩

/-- An instruction that is executed, and that the block goes on behind. -/
theorem insn_goesOn (hit : dc.it = start arch.bits) (hpc : dc.pc = arch.pc + g.length arch.pc)
    (hvalid : ValidIt arch.bits) (hs : cpu.s = arch.s) (hclear : ¬ inItBlock arch.bits → cpu.bits = 0)
    (hnext : (afterInsn g cfg dc arch.pc).isJmp = .next) (hpass : conditionPassed g arch.bits arch.s = true)
    (rest : List Op) :
    GoesOn g (afterInsn g cfg dc arch.pc) arch cpu (genInsn g cfg dc arch.pc).1 rest := by
  have hstep : archStep g arch = archExec g arch := if_pos hpass
  have hadv : dc.it.advance = start (itAdvance arch.bits) := by rw [hit, start_advance hvalid]
  cases hkind : g.kind arch.pc with
  | plain =>
    simp only [archExec, hkind] at hstep
    simp only [genInsn, afterInsn, hkind]
    exact goesOn_work hs hstep hpc hadv hvalid
  | ifThen insn =>
    simp only [archExec, hkind] at hstep
    have hmask := g.ifThen_mask _ _ hkind
    simp only [genInsn, afterInsn, hkind]
    exact .inr ⟨_, cpu, hstep, rfl, hpc, ifThen_advance hmask, validIt_ifThen hmask, hs, .inl rfl⟩
  | synced ends =>
    simp only [archExec, hkind] at hstep
    have hit' : (afterInsn g cfg dc arch.pc).it = start (itAdvance arch.bits) := by
      rw [afterInsn_it (by simp [hkind]), hadv]
    simp only [genInsn, hkind, GoesOn]
    rw [hit, List.append_assoc, run_settled cpu hvalid hclear]
    simp only [List.cons_append, nil_append, run, hs]
    by_cases hrefused : g.refused arch.pc arch.s = true
    · rw [if_pos hrefused] at hstep ⊢
      exact .inl ⟨_, rfl, .raise hstep⟩
    · rw [if_neg hrefused] at hstep ⊢
      have hgo := @goesOn_work σ g (afterInsn g cfg dc arch.pc) arch ⟨arch.pc, arch.bits, arch.s⟩ rest rfl
        hstep ((afterInsn_pc _ _).trans hpc) hit' hvalid
      rcases hgo with hdone | ⟨arch', cpu', hnext', hrun, hpc', hit', hvalid', hs', hbits⟩
      · exact .inl hdone
      · refine .inr ⟨arch', cpu', hnext', hrun, hpc', hit', hvalid', hs', ?_⟩
        by_cases hblock : inItBlock arch.bits
        · exact .inr ⟨hblock, ends, rfl⟩
        · have hzero : arch.bits = cpu.bits := by
            rw [hclear hblock, hvalid.mask (not_not.mp hblock)]
          exact .inl ((hbits.resolve_right fun h => hblock h.1).trans hzero)
  | update | trap | jump | eret | exclusive | svc | monitor | wait | yield =>
    simp [afterInsn, genInsn, hkind] at hnext
  | direct | branchIf =>
    simp only [afterInsn, genInsn, hkind, genJmp] at hnext
    split at hnext <;> simp at hnext

theorem placeLabel_pc (dc : Dc) : (placeLabel dc).2.pc = dc.pc := by
  rw [placeLabel]
  split <;> rfl

theorem placeLabel_it (dc : Dc) : (placeLabel dc).2.it = dc.it := by
  rw [placeLabel]
  split <;> rfl

theorem placeLabel_isJmp (dc : Dc) : (placeLabel dc).2.isJmp = dc.isJmp := by
  rw [placeLabel]
  split <;> rfl

theorem placeLabel_ends (h : dc.isJmp ≠ .next) : placeLabel dc = ([], dc) := by
  rw [placeLabel]
  split
  · rename_i hnext
    exact absurd hnext h
  · rfl

theorem placeLabel_next (hlabel : dc.condjmp = some l) (h : dc.isJmp = .next) :
    (placeLabel dc).1 = [.label l] := by
  rw [placeLabel, hlabel, h]

theorem run_placeLabel (dc : Dc) (rest : List Op) (d : Word) (cpu : Cpu σ) :
    run g none ((placeLabel dc).1 ++ rest) d cpu = run g none rest d cpu := by
  rw [placeLabel]
  split <;> rfl

/-- An instruction, executed or not, that the block goes on behind. -/
theorem disas_goesOn (hpc : dc.pc = arch.pc) (hit : dc.it = start arch.bits)
    (hvalid : ValidIt arch.bits) (hs : cpu.s = arch.s) (hfine : Fine g cfg dc arch.s)
    (hclear : ¬ inItBlock arch.bits → cpu.bits = 0)
    (hnext : (disasThumbInsn g cfg dc).2.isJmp = .next) (rest : List Op) :
    GoesOn g (placeLabel (disasThumbInsn g cfg dc).2).2 arch cpu
      ((disasThumbInsn g cfg dc).1 ++ (placeLabel (disasThumbInsn g cfg dc).2).1) rest := by
  have hit' : (testedDc g dc).it = start arch.bits := by rw [testedDc_it, hit]
  have hpc' : (testedDc g dc).pc = arch.pc + g.length arch.pc := by rw [testedDc, hpc]
  rw [disasThumbInsn_eq, hpc] at hnext ⊢
  rw [GoesOn, placeLabel_pc, placeLabel_it]
  dsimp only at hnext ⊢
  simp only [List.append_assoc]
  rcases run_itTest hit hvalid hfine.cond cpu ((genInsn g cfg (testedDc g dc) arch.pc).1 ++
      ((placeLabel (afterInsn g cfg (testedDc g dc) arch.pc)).1 ++ rest)) arch.bits with
    ⟨hpass, hrun⟩ | ⟨hfail, hmask, hlabel, hrun⟩
  · rw [hs] at hpass
    rw [hrun]
    have hgo := insn_goesOn hit' hpc' hvalid hs hclear hnext hpass
      ((placeLabel (afterInsn g cfg (testedDc g dc) arch.pc)).1 ++ rest)
    simp only [GoesOn, run_placeLabel] at hgo
    exact hgo
  · have hinner := hfine.inner hmask
    rw [hpc] at hinner
    obtain ⟨hadv, hstep⟩ := skipped hit hvalid (hs ▸ hfail) hinner.1
    refine .inr ⟨_, cpu, hstep, ?_, (afterInsn_pc _ _).trans hpc', hadv, validIt_advance hvalid, hs, .inl rfl⟩
    rw [hrun, run_skip fun op hop => genInsn_noLabel hop,
      placeLabel_next ((afterInsn_condjmp hinner.2).trans hlabel) hnext]
    exact run_label rest arch.bits cpu

end Instruction

end TcgArm.Thumb
