import TcgArm.NeonLs

/-! The D registers that a NEON load or store uses. The formats walk through the registers with their
own number and distance; only the one for single elements checks that the last one exists. -/

namespace TcgArm.NeonLs

open List

def dregs (ops : List Op) : List Nat := ops.filterMap Op.dreg

@[simp]
theorem dregs_append (first second : List Op) : dregs (first ++ second) = dregs first ++ dregs second :=
  filterMap_append

variable {ops : List Op}

theorem forall_dregs_iff {bound : Nat} :
    (∀ op ∈ ops, ∀ reg, op.dreg = some reg → reg ≤ bound) ↔ ∀ r ∈ dregs ops, r ≤ bound := by
  simp only [dregs, mem_filterMap]
  exact ⟨fun h r ⟨op, hop, hreg⟩ => h op hop r hreg, fun h op hop r hreg => h r ⟨op, hop, hreg⟩⟩

theorem mem_dregs_flatMap {f : Nat → List Op} {l : List Nat} {r : Nat} :
    r ∈ dregs (l.flatMap f) ↔ ∃ k ∈ l, r ∈ dregs (f k) := by
  rw [dregs, filterMap_flatMap, mem_flatMap]
  rfl

variable {rd size : Nat} {load : Bool}

theorem mem_dregs_transferPass {pass stride r : Nat} :
    r ∈ dregs (transferPass load size rd pass stride) ↔ r = rd := by
  unfold transferPass
  split <;> simp [dregs, Op.dreg, range_succ, eq_comm]

theorem mem_dregs_transferReg {stride r : Nat} : r ∈ dregs (transferReg load size rd stride) ↔ r = rd := by
  unfold transferReg
  split_ifs with hsize hload
  · simp [dregs, Op.dreg, eq_comm]
  · simp [dregs, Op.dreg]
  · rw [mem_dregs_flatMap]
    simp only [mem_dregs_transferPass, mem_range]
    exact ⟨fun ⟨_, _, h⟩ => h, fun h => ⟨0, by decide, h⟩⟩

theorem dregs_resetAddr (nregs interleave size rn reg : Nat) :
    dregs (resetAddr nregs interleave size rn reg) = [] := by
  unfold resetAddr
  split_ifs <;> rfl

theorem mem_dregs_multipleOps {nregs interleave spacing rn r : Nat} :
    r ∈ dregs (multipleOps load nregs interleave spacing size rn rd) ↔ ∃ k < nregs, r = rd + spacing * k := by
  rw [multipleOps, dregs, filterMap_cons_none rfl, ← dregs, mem_dregs_flatMap]
  simp only [dregs_append, dregs_resetAddr, nil_append, mem_dregs_transferReg, mem_range]

theorem dregs_loadAndReplicate (size : Nat) : dregs (loadAndReplicate size) = [] := by
  unfold loadAndReplicate
  split <;> rfl

theorem dregs_storeBoth (rd : Nat) : dregs (storeBoth rd) = [rd, rd] := rfl

theorem dregs_addi (t : Temp) (imm : Nat) : dregs [.addi t imm] = [] := rfl

theorem mem_dregs_allLanesOps {nregs rn r : Nat} {bit5 : Bool} :
    r ∈ dregs (allLanesOps nregs size rn rd bit5) ↔ if nregs = 1 then r = rd ∨ bit5 = true ∧ r = rd + 1
      else ∃ k < nregs, r = rd + (if bit5 then 2 else 1) * k := by
  rw [allLanesOps, dregs, filterMap_cons_none rfl, ← dregs]
  by_cases hone : nregs = 1
  · rw [if_pos hone, if_pos hone]
    cases bit5
    · simp [dregs_loadAndReplicate, dregs_storeBoth]
    · simp [dregs_loadAndReplicate, dregs_storeBoth]
  · rw [if_neg hone, if_neg hone, mem_dregs_flatMap]
    simp [dregs_loadAndReplicate, dregs_storeBoth, dregs_addi]

theorem mem_dregs_singleReg {pass shift r : Nat} :
    r ∈ dregs (singleReg load size rd pass shift) ↔ r = rd := by
  unfold singleReg
  split_ifs <;> simp [dregs, Op.dreg, eq_comm]

theorem mem_dregs_singleOps {nregs rn pass shift stride r : Nat} :
    r ∈ dregs (singleOps load nregs size rn rd pass shift stride) ↔ ∃ k < nregs, r = rd + stride * k := by
  rw [singleOps, dregs, filterMap_cons_none rfl, ← dregs, mem_dregs_flatMap]
  simp only [dregs_append, dregs_addi, append_nil, mem_dregs_singleReg, mem_range]

theorem dregs_writeBack (rn rm stride : Nat) : dregs (writeBack rn rm stride) = [] := by
  unfold writeBack
  split_ifs <;> rfl

theorem forall_reg_le_iff {n d bound : Nat} (hn : 0 < n) :
    (∀ r, (∃ k < n, r = rd + d * k) → r ≤ bound) ↔ rd + d * (n - 1) ≤ bound := by
  constructor
  · intro h
    exact h _ ⟨n - 1, by omega, rfl⟩
  · rintro h r ⟨k, hk, rfl⟩
    exact (Nat.add_le_add_left (Nat.mul_le_mul_left d (by omega)) rd).trans h

theorem nregs_pos (op : Nat) : 0 < (neonLsElementType op).1 := by
  unfold neonLsElementType
  split <;> decide

section

variable {load : Bool} {insn : Word} {rn rd stride : Nat} {ops : List Op}

def lastOfMultiple (insn : Word) (rd : Nat) : Nat :=
  let (nregs, _, spacing) := neonLsElementType (field insn 8 4)
  rd + spacing * (nregs - 1)

theorem multiple_regs_iff (h : multiple load insn rn rd = some (ops, stride)) (bound : Nat) :
    (∀ r ∈ dregs ops, r ≤ bound) ↔ lastOfMultiple insn rd ≤ bound := by
  simp only [multiple] at h
  split_ifs at h
  obtain ⟨rfl, -⟩ := Prod.mk.inj (Option.some.inj h)
  simp only [mem_dregs_multipleOps]
  exact forall_reg_le_iff (nregs_pos _)

def lastOfAllLanes (insn : Word) (rd : Nat) : Nat :=
  if field insn 8 2 = 0 then rd + field insn 5 1
  else rd + (if field insn 5 1 = 1 then 2 else 1) * field insn 8 2

theorem allLanes_regs_iff (h : allLanes load insn rn rd = some (ops, stride)) (bound : Nat) :
    (∀ r ∈ dregs ops, r ≤ bound) ↔ lastOfAllLanes insn rd ≤ bound := by
  simp only [allLanes] at h
  split_ifs at h
  obtain ⟨rfl, -⟩ := Prod.mk.inj (Option.some.inj h)
  unfold lastOfAllLanes
  simp only [mem_dregs_allLanesOps, decide_eq_true_eq, Nat.add_eq_right]
  have hbit := field_lt insn 5 1
  by_cases hone : field insn 8 2 = 0
  · simp only [if_pos hone]
    constructor
    · intro hreg
      rcases Nat.eq_zero_or_pos (field insn 5 1) with hzero | hpos
      · rw [hzero]
        exact hreg rd (.inl rfl)
      · have hset : field insn 5 1 = 1 := by omega
        rw [hset]
        exact hreg (rd + 1) (.inr ⟨hset, rfl⟩)
    · rintro hle r (rfl | ⟨hset, rfl⟩) <;> omega
  · simp only [if_neg hone]
    exact forall_reg_le_iff (Nat.succ_pos _)

theorem single_regs_le (h : single load insn rn rd = some (ops, stride)) : ∀ r ∈ dregs ops, r ≤ 31 := by
  simp only [single] at h
  split_ifs at h with hundef hlast
  obtain ⟨rfl, -⟩ := Prod.mk.inj (Option.some.inj h)
  simp only [mem_dregs_singleOps]
  exact (forall_reg_le_iff (Nat.succ_pos _)).mpr (Nat.not_lt.mp hlast)

end

/-- The registers a word names exist: the last one of multiple structures and of an element to all
lanes is at most D31. -/
def RegistersExist (insn : Word) (rd : Nat) : Prop :=
  if field insn 23 1 = 0 then lastOfMultiple insn rd ≤ 31
  else if field insn 10 2 = 3 then lastOfAllLanes insn rd ≤ 31
  else True

theorem transfer_regs_iff {insn : Word} {rn stride : Nat} (h : transfer insn rn rd = some (ops, stride)) :
    (∀ r ∈ dregs ops, r ≤ 31) ↔ RegistersExist insn rd := by
  unfold transfer at h
  unfold RegistersExist
  by_cases hmultiple : field insn 23 1 = 0
  · rw [if_pos hmultiple] at h ⊢
    exact multiple_regs_iff h 31
  rw [if_neg hmultiple] at h ⊢
  by_cases hall : field insn 10 2 = 3
  · rw [if_pos hall] at h ⊢
    exact allLanes_regs_iff h 31
  · rw [if_neg hall] at h ⊢
    exact iff_true_intro (single_regs_le h)

/-- An accepted word has a first register, and its ops are those of the transfer with the
write-back. -/
theorem disasNeonLsInsn_emit {ctx : Context} {insn : Word} (h : disasNeonLsInsn ctx insn = .emit ops) :
    ∃ rd moved stride, vfpDregD ctx insn = some rd ∧
      transfer insn (field insn 16 4) rd = some (moved, stride) ∧
      ops = moved ++ writeBack (field insn 16 4) (field insn 0 4) stride := by
  unfold disasNeonLsInsn at h
  split_ifs at h
  rcases hrd : vfpDregD ctx insn with _ | rd
  · rw [hrd] at h
    exact absurd h (by simp)
  · simp only [hrd, Option.bind_some] at h
    rcases hmoved : transfer insn (field insn 16 4) rd with _ | ⟨moved, stride⟩
    · rw [hmoved] at h
      exact absurd h (by simp)
    · rw [hmoved] at h
      exact ⟨rd, moved, stride, rfl, hmoved, (Outcome.emit.inj h).symm⟩

/-- Every D register that an accepted word reads or writes is one of D0 to D31 exactly when the
registers it names exist: those of multiple structures and of an element to all lanes are not
checked. -/
theorem neon_ls_registers_iff (ctx : Context) (insn : Word) :
    (∀ ops, disasNeonLsInsn ctx insn = .emit ops → ∀ op ∈ ops, ∀ reg, op.dreg = some reg → reg ≤ 31) ↔
    ∀ ops rd, disasNeonLsInsn ctx insn = .emit ops → vfpDregD ctx insn = some rd →
      RegistersExist insn rd := by
  simp only [forall_dregs_iff]
  constructor
  · intro h ops rd hops hrd
    obtain ⟨rd', moved, stride, hrd', hmoved, rfl⟩ := disasNeonLsInsn_emit hops
    obtain rfl : rd' = rd := Option.some.inj (hrd'.symm.trans hrd)
    refine (transfer_regs_iff hmoved).mp fun r hr => h _ hops r ?_
    rw [dregs_append]
    exact mem_append_left _ hr
  · intro h ops hops
    obtain ⟨rd, moved, stride, hrd, hmoved, rfl⟩ := disasNeonLsInsn_emit hops
    rw [dregs_append, dregs_writeBack, append_nil]
    exact (transfer_regs_iff hmoved).mpr (h _ rd hops hrd)

/-- `vld4.8 {d31, d32, d33, d34}, [r0]` and `vld2.8 {d31[], d32[]}, [r0]` are accepted and write
registers past D31. -/
theorem neon_ls_registers_past_end :
    (∃ ops, disasNeonLsInsn ⟨0, true, true, false, 0, false⟩ 0xf460f00f#32 = .emit ops ∧
      ∃ op ∈ ops, op.dreg = some 34) ∧
    ∃ ops, disasNeonLsInsn ⟨0, true, true, false, 0, false⟩ 0xf4e0fd0f#32 = .emit ops ∧
      ∃ op ∈ ops, op.dreg = some 32 := by
  refine ⟨⟨_, rfl, ?_⟩, _, rfl, ?_⟩ <;> decide

end TcgArm.NeonLs
