import Mathlib.Tactic

/-! How the ARM decoder of the translator (`disas_arm_insn`) distributes instruction words over its
branches, and the copy of its tests in `is_arm_neon`, by which `exec` decides how many instructions
to put in a block. -/

namespace TcgArm.Arm

/-- The features and the state that the decoder looks at. An architecture level comes with the
levels before it. -/
structure DisasFeatures where
  m : Bool
  v5 : Bool
  v5te : Bool
  v6 : Bool
  v6k : Bool
  v6t2 : Bool
  v7 : Bool
  v7mp : Bool
  neon : Bool
  vfp : Bool
  iwmmxt : Bool
  /-- Bit 1 of `c15_cpar`. -/
  cpar1 : Bool
  isUser : Bool
  v5_of_v6 : v6 = true → v5 = true

/-- The places to which the decoder takes a word. -/
inductive Handler
  | illegalOp
  | neonData
  | neonLs
  | vfp
  | pld
  | pli
  | memoryHint
  | setend
  | clrex
  | barrier
  | isb
  | srs
  | rfe
  | blxImmediate
  | iwmmxt
  | cps
  | mov16
  | nopHint
  | psrImmediate
  | miscellaneous
  | dataProcessing
  | multiplyOrExtraLdst
  | media
  | ldst
  | ldstMultiple
  | branch
  | coproc
  | swi
  deriving DecidableEq

/-- The handlers of `disas_neon_data_insn`, `disas_neon_ls_insn` and `disas_vfp_insn`. -/
def Handler.isNeonOrVfp : Handler → Bool
  | .neonData | .neonLs | .vfp => true
  | _ => false

variable (f : DisasFeatures) (insn : BitVec 32)

/-- `ARCH (x)`. -/
def arch (feature : Bool) (handler : Handler) : Handler :=
  if feature then handler else .illegalOp

/-- The unconditional space after the tests for NEON and VFP. The branches for coprocessor transfers
do nothing and fall through to `illegal_op`. -/
def disasUnconditionalRest : Handler :=
  if insn &&& 0x0f30f000#32 = 0x0510f000#32 ∨ insn &&& 0x0f30f010#32 = 0x0710f000#32 then
    if insn &&& (1#32 <<< 22) = 0 then arch f.v7mp (arch f.v5te .pld) else arch f.v5te .pld
  else if insn &&& 0x0f70f000#32 = 0x0450f000#32 ∨ insn &&& 0x0f70f010#32 = 0x0650f000#32 then
    arch f.v7 .pli
  else if insn &&& 0x0f700000#32 = 0x04100000#32 ∨ insn &&& 0x0f700010#32 = 0x06100000#32 then
    arch f.v7mp .memoryHint
  else if insn &&& 0x0ffffdff#32 = 0x01010000#32 then arch f.v6 .setend
  else if insn &&& 0x0fffff00#32 = 0x057ff000#32 then
    if (insn >>> 4) &&& 0xf#32 = 1#32 then arch f.v6k .clrex
    else if (insn >>> 4) &&& 0xf#32 = 4#32 ∨ (insn >>> 4) &&& 0xf#32 = 5#32 then arch f.v7 .barrier
    else if (insn >>> 4) &&& 0xf#32 = 6#32 then .isb
    else .illegalOp
  else if insn &&& 0x0e5fffe0#32 = 0x084d0500#32 then arch f.v6 .srs
  else if insn &&& 0x0e50ffe0#32 = 0x08100a00#32 then
    if f.isUser then .illegalOp else arch f.v6 .rfe
  else if insn &&& 0x0e000000#32 = 0x0a000000#32 then .blxImmediate
  else if insn &&& 0x0e000f00#32 = 0x0c000100#32 then
    if f.iwmmxt ∧ f.cpar1 then .iwmmxt else .illegalOp
  else if insn &&& 0x0fe00000#32 = 0x0c400000#32 then arch f.v5te .illegalOp
  else if insn &&& 0x0f000010#32 = 0x0e000010#32 then .illegalOp
  else if insn &&& 0x0ff10020#32 = 0x01000000#32 then .cps
  else .illegalOp

/-- The unconditional space, where the condition field is `0xf`. -/
def disasUnconditional : Handler :=
  if (insn >>> 25) &&& 7#32 = 1#32 then arch f.neon .neonData
  else if insn &&& 0x0f100000#32 = 0x04000000#32 then arch f.neon .neonLs
  else if insn &&& 0x0f000e10#32 = 0x0e000a00#32 then .vfp
  else disasUnconditionalRest f insn

/-- The switch over `op1` at the end of the decoder. -/
def disasOther : Handler :=
  let op1 := (insn >>> 24) &&& 0xf#32
  if op1 = 0#32 ∨ op1 = 1#32 then .multiplyOrExtraLdst
  else if op1 = 4#32 ∨ op1 = 5#32 then .ldst
  else if op1 = 6#32 ∨ op1 = 7#32 then
    if insn &&& (1#32 <<< 4) ≠ 0 then arch f.v6 .media else .ldst
  else if op1 = 8#32 ∨ op1 = 9#32 then .ldstMultiple
  else if op1 = 0xa#32 ∨ op1 = 0xb#32 then .branch
  else if op1 = 0xc#32 ∨ op1 = 0xd#32 ∨ op1 = 0xe#32 then
    if (insn >>> 8) &&& 0xe#32 = 10#32 then .vfp else .coproc
  else if op1 = 0xf#32 then .swi
  else .illegalOp

def disasConditional : Handler :=
  if insn &&& 0x0f900000#32 = 0x03000000#32 then
    if insn &&& (1#32 <<< 21) = 0 then arch f.v6t2 .mov16
    else if (insn >>> 12) &&& 0xf#32 ≠ 0xf#32 then .illegalOp
    else if (insn >>> 16) &&& 0xf#32 = 0 then .nopHint
    else .psrImmediate
  else if insn &&& 0x0f900000#32 = 0x01000000#32 ∧ insn &&& 0x00000090#32 ≠ 0x00000090#32 then
    .miscellaneous
  else if insn &&& 0x0e000000#32 = 0 ∧ insn &&& 0x00000090#32 ≠ 0x90#32 ∨
      insn &&& 0x0e000000#32 = 1#32 <<< 25 then .dataProcessing
  else disasOther f insn

/-- `disas_arm_insn`, up to the choice of the branch. -/
def disasArmInsn : Handler :=
  if f.m then .illegalOp
  else if insn >>> 28 = 0xf#32 then arch f.v5 (disasUnconditional f insn)
  else disasConditional f insn

/-- `is_arm_neon`. The tests of the unconditional space do not return, so the tests that follow are
made for every word. -/
def isArmNeon : Bool :=
  let handleInsn :=
    insn >>> 28 = 0xf#32 ∧
      ((insn >>> 25) &&& 7#32 = 1#32 ∨ insn &&& 0x0f100000#32 = 0x04000000#32 ∨
        insn &&& 0x0f000e10#32 = 0x0e000a00#32)
  if insn &&& 0x0f900000#32 = 0x03000000#32 then handleInsn
  else if insn &&& 0x0f900000#32 = 0x01000000#32 ∧ insn &&& 0x00000090#32 ≠ 0x00000090#32 then
    handleInsn
  else if insn &&& 0x0e000000#32 = 0 ∧ insn &&& 0x00000090#32 ≠ 0x90#32 ∨
      insn &&& 0x0e000000#32 = 1#32 <<< 25 then handleInsn
  else
    let op1 := (insn >>> 24) &&& 0xf#32
    if op1 = 0xc#32 ∨ op1 = 0xd#32 ∨ op1 = 0xe#32 then
      handleInsn ∨ (insn >>> 8) &&& 0xe#32 = 10#32
    else handleInsn

/-- The words of the unconditional space that look like VFP words with a condition. -/
def LooksConditional (insn : BitVec 32) : Prop :=
  insn >>> 28 = 0xf#32 ∧
    ((insn >>> 24) &&& 0xf#32 = 0xc#32 ∨ (insn >>> 24) &&& 0xf#32 = 0xd#32 ∨
      (insn >>> 24) &&& 0xf#32 = 0xe#32) ∧
    (insn >>> 8) &&& 0xe#32 = 10#32 ∧ insn &&& 0x0f000e10#32 ≠ 0x0e000a00#32

instance (insn : BitVec 32) : Decidable (LooksConditional insn) :=
  inferInstanceAs (Decidable (_ ∧ _))

section Tests

variable {insn}

theorem mask_disjoint {m m' v v' bit : BitVec 32} (h : insn &&& m = v) (h' : insn &&& m' = v')
    (hm : bit &&& m = bit) (hm' : bit &&& m' = bit) (hne : bit &&& v ≠ bit &&& v') : False := by
  apply hne
  rw [← h, ← h', BitVec.and_comm insn m, BitVec.and_comm insn m', ← BitVec.and_assoc,
    ← BitVec.and_assoc, hm, hm']

theorem and_shiftLeft_of_field {s : Nat} {m v : BitVec 32} (h : (insn >>> s) &&& m = v) :
    insn &&& (m <<< s) = v <<< s := by
  rw [← h]
  apply BitVec.eq_of_getLsbD_eq
  intro i hi
  by_cases his : i < s
  · simp [his]
  · simp [his, hi, show s + (i - s) = i by omega]

theorem coproc_disjoint {m v : BitVec 32}
    (hop : (insn >>> 24) &&& 0xf#32 = 0xc#32 ∨ (insn >>> 24) &&& 0xf#32 = 0xd#32 ∨
      (insn >>> 24) &&& 0xf#32 = 0xe#32) (h : insn &&& m = v) (hm : 0x08000000#32 &&& m = 0x08000000#32)
    (hv : 0x08000000#32 &&& v = 0) : False := by
  rcases hop with hop | hop | hop
  all_goals
    refine mask_disjoint h (and_shiftLeft_of_field hop) hm (by decide) ?_
    rw [hv]
    decide

theorem isNeonOrVfp_ite {c : Prop} [Decidable c] {a b : Handler} (ha : a.isNeonOrVfp = false)
    (hb : b.isNeonOrVfp = false) : (if c then a else b).isNeonOrVfp = false := by
  split_ifs
  · exact ha
  · exact hb

theorem isNeonOrVfp_arch {feature : Bool} {a : Handler} (ha : a.isNeonOrVfp = false) :
    (arch feature a).isNeonOrVfp = false :=
  isNeonOrVfp_ite ha rfl

theorem disasUnconditionalRest_isNeonOrVfp : (disasUnconditionalRest f insn).isNeonOrVfp = false := by
  unfold disasUnconditionalRest
  repeat' first
    | apply isNeonOrVfp_ite
    | apply isNeonOrVfp_arch
  all_goals rfl

theorem disasUnconditional_isNeonOrVfp (hneon : f.neon = true) :
    (disasUnconditional f insn).isNeonOrVfp = true ↔
      (insn >>> 25) &&& 7#32 = 1#32 ∨ insn &&& 0x0f100000#32 = 0x04000000#32 ∨
        insn &&& 0x0f000e10#32 = 0x0e000a00#32 := by
  unfold disasUnconditional
  split_ifs with hdata hls hvfp
  · simp [arch, hneon, Handler.isNeonOrVfp, hdata]
  · simp [arch, hneon, Handler.isNeonOrVfp, hls]
  · simp [Handler.isNeonOrVfp, hvfp]
  · simp only [disasUnconditionalRest_isNeonOrVfp, hdata, hls, hvfp, or_self, Bool.false_eq_true]

theorem disasOther_isNeonOrVfp :
    (disasOther f insn).isNeonOrVfp = true ↔
      ((insn >>> 24) &&& 0xf#32 = 0xc#32 ∨ (insn >>> 24) &&& 0xf#32 = 0xd#32 ∨
        (insn >>> 24) &&& 0xf#32 = 0xe#32) ∧ (insn >>> 8) &&& 0xe#32 = 10#32 := by
  simp only [disasOther]
  generalize (insn >>> 24) &&& 0xf#32 = op1
  by_cases hop : op1 = 0xc#32 ∨ op1 = 0xd#32 ∨ op1 = 0xe#32
  · have hchain : ∀ {a b c d e : Handler}, (if op1 = 0#32 ∨ op1 = 1#32 then a
        else if op1 = 4#32 ∨ op1 = 5#32 then b else if op1 = 6#32 ∨ op1 = 7#32 then c
        else if op1 = 8#32 ∨ op1 = 9#32 then d else if op1 = 0xa#32 ∨ op1 = 0xb#32 then e
        else if op1 = 0xc#32 ∨ op1 = 0xd#32 ∨ op1 = 0xe#32 then
          if (insn >>> 8) &&& 0xe#32 = 10#32 then Handler.vfp else .coproc
        else if op1 = 0xf#32 then .swi else .illegalOp) =
          if (insn >>> 8) &&& 0xe#32 = 10#32 then Handler.vfp else .coproc := by
      rcases hop with rfl | rfl | rfl <;> intros <;> rfl
    rw [hchain]
    split_ifs with hcp <;> simp [Handler.isNeonOrVfp, hop, hcp]
  · simp only [hop, if_false, false_and, iff_false, Bool.not_eq_true, arch]
    split_ifs <;> rfl

theorem tests_of_coproc
    (hop : (insn >>> 24) &&& 0xf#32 = 0xc#32 ∨ (insn >>> 24) &&& 0xf#32 = 0xd#32 ∨
      (insn >>> 24) &&& 0xf#32 = 0xe#32) :
    ¬ insn &&& 0x0f900000#32 = 0x03000000#32 ∧
      ¬ (insn &&& 0x0f900000#32 = 0x01000000#32 ∧ insn &&& 0x00000090#32 ≠ 0x00000090#32) ∧
      ¬ (insn &&& 0x0e000000#32 = 0 ∧ insn &&& 0x00000090#32 ≠ 0x90#32 ∨
        insn &&& 0x0e000000#32 = 1#32 <<< 25) := by
  refine ⟨fun h => coproc_disjoint hop h (by decide) (by decide),
    fun h => coproc_disjoint hop h.1 (by decide) (by decide), ?_⟩
  rintro (h | h)
  · exact coproc_disjoint hop h.1 (by decide) (by decide)
  · exact coproc_disjoint hop h (by decide) (by decide)

theorem disasConditional_isNeonOrVfp :
    (disasConditional f insn).isNeonOrVfp = true ↔
      ((insn >>> 24) &&& 0xf#32 = 0xc#32 ∨ (insn >>> 24) &&& 0xf#32 = 0xd#32 ∨
        (insn >>> 24) &&& 0xf#32 = 0xe#32) ∧ (insn >>> 8) &&& 0xe#32 = 10#32 := by
  constructor
  · intro h
    unfold disasConditional at h
    split at h
    · rw [isNeonOrVfp_ite (isNeonOrVfp_arch rfl) (isNeonOrVfp_ite rfl (isNeonOrVfp_ite rfl rfl))] at h
      cases h
    · split at h
      · cases h
      · split at h
        · cases h
        · exact (disasOther_isNeonOrVfp f).mp h
  · intro h
    obtain ⟨himm, hmisc, hdata⟩ := tests_of_coproc h.1
    rw [disasConditional, if_neg himm, if_neg hmisc, if_neg hdata]
    exact (disasOther_isNeonOrVfp f).mpr h

theorem isArmNeon_eq_true :
    isArmNeon insn = true ↔ (insn >>> 28 = 0xf#32 ∧
        ((insn >>> 25) &&& 7#32 = 1#32 ∨ insn &&& 0x0f100000#32 = 0x04000000#32 ∨
          insn &&& 0x0f000e10#32 = 0x0e000a00#32)) ∨
      (((insn >>> 24) &&& 0xf#32 = 0xc#32 ∨ (insn >>> 24) &&& 0xf#32 = 0xd#32 ∨
        (insn >>> 24) &&& 0xf#32 = 0xe#32) ∧ (insn >>> 8) &&& 0xe#32 = 10#32) := by
  by_cases hop : (insn >>> 24) &&& 0xf#32 = 0xc#32 ∨ (insn >>> 24) &&& 0xf#32 = 0xd#32 ∨
      (insn >>> 24) &&& 0xf#32 = 0xe#32
  · obtain ⟨himm, hmisc, hdata⟩ := tests_of_coproc hop
    simp only [isArmNeon, if_neg himm, if_neg hmisc, if_neg hdata, hop, if_true, true_and, decide_eq_true_eq]
  · simp only [isArmNeon, hop, if_false, ite_self, decide_eq_true_eq, false_and, or_false]

end Tests

/-- On a CPU with ARM mode, NEON and the unconditional space, the classifier agrees with the decoder
on a word unless the word is in the unconditional space and only looks like a VFP word with a
condition. -/
theorem isArmNeon_agrees_iff (hm : f.m = false) (hv6 : f.v6 = true) (hneon : f.neon = true) :
    (isArmNeon insn = true ↔ (disasArmInsn f insn).isNeonOrVfp = true) ↔ ¬ LooksConditional insn := by
  have hv5 := f.v5_of_v6 hv6
  rw [isArmNeon_eq_true, disasArmInsn, if_neg (by simp [hm])]
  by_cases hcond : insn >>> 28 = 0xf#32
  · rw [if_pos hcond, arch, if_pos hv5, disasUnconditional_isNeonOrVfp f hneon]
    simp only [LooksConditional, hcond, true_and]
    constructor
    · rintro hagree ⟨hop, hcp, hvfp⟩
      rcases hagree.mp (Or.inr ⟨hop, hcp⟩) with h | h | h
      · exact coproc_disjoint hop (and_shiftLeft_of_field h) (by decide) (by decide)
      · exact coproc_disjoint hop h (by decide) (by decide)
      · exact hvfp h
    · intro hlooks
      refine ⟨?_, Or.inl⟩
      rintro (h | ⟨hop, hcp⟩)
      · exact h
      · exact Or.inr (Or.inr (by_contra fun hvfp => hlooks ⟨hop, hcp, hvfp⟩))
  · rw [if_neg hcond, disasConditional_isNeonOrVfp]
    simp [LooksConditional, hcond]

/-- The CPU `any`, as far as the decoder looks at it. -/
def anyCpu : DisasFeatures :=
  ⟨false, true, true, true, true, true, true, true, true, true, false, false, true, fun _ => rfl⟩

/-- `VADD.I8 d0, d0, d0`, an undefined word of the unconditional space and `VADD.F32 s0, s0, s0`. -/
theorem isArmNeon_agrees_iff_samples :
    ((isArmNeon 0xf2000800 = true ↔ (disasArmInsn anyCpu 0xf2000800).isNeonOrVfp = true) ∧
      (isArmNeon 0xffffffff = true ↔ (disasArmInsn anyCpu 0xffffffff).isNeonOrVfp = true)) ∧
      (isArmNeon 0xee300a00 = true ↔ (disasArmInsn anyCpu 0xee300a00).isNeonOrVfp = true) :=
  ⟨⟨(isArmNeon_agrees_iff anyCpu _ rfl rfl rfl).mpr (by decide),
    (isArmNeon_agrees_iff anyCpu _ rfl rfl rfl).mpr (by decide)⟩,
    (isArmNeon_agrees_iff anyCpu _ rfl rfl rfl).mpr (by decide)⟩

/-- `STC2 p10, c0, [r0]` is undefined for the decoder and counted as NEON. -/
theorem stc2_counted_as_neon : isArmNeon 0xfc000a00 = true ∧ disasArmInsn anyCpu 0xfc000a00 = .illegalOp := by
  decide

end TcgArm.Arm
