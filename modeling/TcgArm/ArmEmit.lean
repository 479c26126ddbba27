import TcgArm.ArmHost
import TcgArm.BitFields

/-! The instruction emitters of the ARM backend (`tcg/arm/tcg-target.inc.c`): the words they put
together from condition, opcode, registers and immediate, and the instruction that each word is. -/

namespace TcgArm.ArmHost

open BitVec List
open BitVec (ofNat)

/-- `ARMInsn`, for data processing: the operation with `TO_CPSR` for comparisons. -/
def arithOpc (op : AluOp) : Word := placed op.bits 21 ||| placed (BitVec.ofBool op.compares) 20

def tcgOutDatImm (cond : CondCode) (opc : AluOp) (rd rn : Reg) (im : Word) : Word :=
  placed cond.bits 28 ||| ((1 : Word) <<< 25) ||| arithOpc opc ||| placed rn 16 ||| placed rd 12 ||| im

/-- `SHIFT_IMM_LSL` to `SHIFT_IMM_ROR`. -/
def shiftImmBits (kind : ShiftKind) (im : BitVec 5) : Word := placed im 7 ||| placed kind.bits 5

def tcgOutDatReg (cond : CondCode) (opc : AluOp) (rd rn rm : Reg) (shift : Word) : Word :=
  placed cond.bits 28 ||| arithOpc opc ||| placed rn 16 ||| placed rd 12 ||| shift ||| placed rm 0

def tcgOutMovReg (cond : CondCode) (rd rm : Reg) : List Word :=
  if rd = rm then [] else [tcgOutDatReg cond .mov rd 0 rm (shiftImmBits .lsl 0)]

def tcgOutMovw (cond : CondCode) (rd : Reg) (arg : Word) : Word :=
  placed cond.bits 28 ||| (0x03000000 : Word) ||| placed rd 12 |||
    ((arg <<< 4) &&& (0x000f0000 : Word)) ||| (arg &&& (0xfff : Word))

def tcgOutMovt (cond : CondCode) (rd : Reg) (arg : Word) : Word :=
  placed cond.bits 28 ||| (0x03400000 : Word) ||| placed rd 12 |||
    ((arg >>> 12) &&& (0x000f0000 : Word)) ||| ((arg >>> 16) &&& (0xfff : Word))

def extendOpc : ExtendKind → Word
  | .sxtb => 0x06af0070
  | .sxth => 0x06bf0070
  | .uxth => 0x06ff0070
  | .rev => 0x06bf0f30
  | .rev16 => 0x06bf0fb0
  | .revsh => 0x06ff0fb0

def tcgOutExtend (kind : ExtendKind) (cond : CondCode) (rd rn : Reg) : Word :=
  extendOpc kind ||| placed cond.bits 28 ||| placed rd 12 ||| placed rn 0

def tcgOutBx (cond : CondCode) (rn : Reg) : Word :=
  placed cond.bits 28 ||| 0x012fff10 ||| placed rn 0

/-- The word of a branch whose offset field is `imm24`. -/
def branchWord (cond : CondCode) (imm24 : BitVec 24) : Word :=
  placed cond.bits 28 ||| 0x0a000000 ||| placed imm24 0

def tcgOutB (cond : CondCode) (offset : Word) : Word :=
  branchWord cond (((offset - 8).sshiftRight 2).setWidth 24)

/-- Memory instructions, `INSN_LDR_IMM` and so on: access kind, direction and form of the offset. -/
def memOpc : Bool → AccessKind → Bool → Word
  | true, .word, true => 0x04100000
  | true, .word, false => 0x06100000
  | false, .word, true => 0x04000000
  | false, .word, false => 0x06000000
  | true, .half, true => 0x005000b0
  | true, .half, false => 0x001000b0
  | true, .shalf, true => 0x005000f0
  | true, .shalf, false => 0x001000f0
  | false, .half, true | false, .shalf, true => 0x004000b0
  | false, .half, false | false, .shalf, false => 0x000000b0
  | true, .byte, true => 0x04500000
  | true, .byte, false => 0x06500000
  | true, .sbyte, true => 0x005000d0
  | true, .sbyte, false => 0x001000d0
  | false, .byte, true | false, .sbyte, true => 0x04400000
  | false, .byte, false | false, .sbyte, false => 0x06400000
  | true, .double, true => 0x004000d0
  | true, .double, false => 0x000000d0
  | false, .double, true => 0x004000f0
  | false, .double, false => 0x000000f0

def tcgOutMemopR (cond : CondCode) (opc : Word) (rt rn rm : Reg) (u p w : Bool) : Word :=
  placed cond.bits 28 ||| opc ||| placed (BitVec.ofBool u) 23 ||| placed (BitVec.ofBool p) 24 |||
    placed (BitVec.ofBool w) 21 ||| placed rn 16 ||| placed rt 12 ||| placed rm 0

def tcgOutMemop8 (cond : CondCode) (opc : Word) (rt rn : Reg) (imm8 : Int) (p w : Bool) : Word :=
  let im : Word := BitVec.ofNat 32 imm8.natAbs
  placed cond.bits 28 ||| opc ||| placed (BitVec.ofBool (decide (0 ≤ imm8))) 23 |||
    placed (BitVec.ofBool p) 24 ||| placed (BitVec.ofBool w) 21 ||| placed rn 16 |||
    placed rt 12 ||| ((im &&& 0xf0) <<< 4) ||| (im &&& 0xf)

def tcgOutMemop12 (cond : CondCode) (opc : Word) (rt rn : Reg) (imm12 : Int) (p w : Bool) : Word :=
  placed cond.bits 28 ||| opc ||| placed (BitVec.ofBool (decide (0 ≤ imm12))) 23 |||
    placed (BitVec.ofBool p) 24 ||| placed (BitVec.ofBool w) 21 ||| placed rn 16 |||
    placed rt 12 ||| BitVec.ofNat 32 imm12.natAbs

/-- The word is the instruction, under the condition. -/
structure Encodes (w : Word) (cond : CondCode) (insn : Insn) : Prop where
  cond : w.extractLsb' 28 4 = cond.bits
  insn : decode w = some insn

theorem Encodes.exec_eq {w : Word} {cond : CondCode} {insn : Insn} (h : Encodes w cond insn)
    (t : Target) (pc : Word) (s : State) :
    exec t pc w s = if cond.passes s.flags then s.perform t pc insn else some (.fall s) := by
  simp [exec, h.cond, h.insn]

/-- The code runs to its end, and leaves `s'`, wherever it lies. -/
def Falls (t : Target) (code : List Word) (s s' : State) : Prop :=
  ∀ pc, run t pc code s = some (.fall s')

section Runs

variable {t : Target} {s s' s1 : State} {code rest : List Word}

theorem Falls.nil : Falls t [] s s := fun _ => rfl

theorem Falls.cons {w : Word} (h : ∀ pc, exec t pc w s = some (.fall s1))
    (hrest : Falls t code s1 s') : Falls t (w :: code) s s' := fun pc => by
  rw [run, h pc]
  exact hrest (pc + 4)

theorem run_append (pc : Word) (s : State) :
    run t pc (code ++ rest) s = (run t pc code s).bind fun
      | .fall s => run t (pc + ofNat 32 (4 * code.length)) rest s
      | .jump dest s => some (.jump dest s) := by
  induction code generalizing pc s with
  | nil => simp [run]
  | cons w code ih =>
    have hpc : pc + ofNat 32 (4 * (w :: code).length) = pc + 4 + ofNat 32 (4 * code.length) := by
      rw [length_cons, Nat.mul_succ, Nat.add_comm, ofNat_add, ← BitVec.add_assoc]
      rfl
    rw [List.cons_append, run, run, hpc, Option.bind_assoc]
    congr 1
    funext next
    cases next with
    | fall s1 => exact ih (pc + 4) s1
    | jump dest s1 => rfl

theorem Falls.run_append (h : Falls t code s s1) (pc : Word) :
    run t pc (code ++ rest) s = run t (pc + ofNat 32 (4 * code.length)) rest s1 := by
  rw [ArmHost.run_append, h pc]
  rfl

theorem Falls.append (h : Falls t code s s1) (hrest : Falls t rest s1 s') :
    Falls t (code ++ rest) s s' := fun pc => by
  rw [h.run_append]
  exact hrest _

def Conditional (cond : CondCode) (code : List Word) : Prop :=
  ∀ w ∈ code, ∃ insn, Encodes w cond insn

theorem Conditional.falls {cond : CondCode} (h : Conditional cond code)
    (hfail : cond.passes s.flags = false) : Falls t code s s := by
  induction code with
  | nil => exact Falls.nil
  | cons w code ih =>
    obtain ⟨insn, hw⟩ := h w mem_cons_self
    refine Falls.cons (fun pc => ?_) (ih fun w' hw' => h w' (mem_cons_of_mem _ hw'))
    rw [hw.exec_eq, hfail]
    rfl

end Runs

section Words

variable {cond : CondCode} {load : Bool} {kind : AccessKind}

@[simp] theorem ofBool_beq_one (b : Bool) : (ofBool b == 1#1) = b := by
  cases b <;> rfl

theorem encodes_tcgOutDatImm (opc : AluOp) (rd rn : Reg) (imm12 : BitVec 12) :
    Encodes (tcgOutDatImm cond opc rd rn (placed imm12 0)) cond
      (.alu opc opc.compares rd rn (.imm imm12)) := by
  constructor <;>
    simp (disch := omega) [decode, tcgOutDatImm, arithOpc, decodeDataImm, bit, extractLsb'_or,
      extract_placed, extract_elsewhere]

theorem encodes_tcgOutDatReg (opc : AluOp) (rd rn rm : Reg) (kind : ShiftKind) (im : BitVec 5) :
    Encodes (tcgOutDatReg cond opc rd rn rm (shiftImmBits kind im)) cond
      (.alu opc opc.compares rd rn (.reg rm kind im)) := by
  constructor <;>
    simp (disch := omega) [decode, tcgOutDatReg, shiftImmBits, arithOpc, decodeDataReg, bit,
      extractLsb'_or, extract_placed, extract_elsewhere]

theorem encodes_tcgOutExtend (kind : ExtendKind) (rd rn : Reg) :
    Encodes (tcgOutExtend kind cond rd rn) cond (.extend kind rd rn) := by
  cases kind <;> constructor <;>
    simp (disch := omega) [decode, tcgOutExtend, extendOpc, decodeMedia, bit, extractLsb'_or,
      extract_placed, extract_elsewhere]

theorem encodes_tcgOutBx (rn : Reg) : Encodes (tcgOutBx cond rn) cond (.branchExchange rn) := by
  constructor <;>
    simp (disch := omega) [decode, tcgOutBx, bit, extractLsb'_or, extract_placed, extract_elsewhere]

theorem encodes_branchWord (imm24 : BitVec 24) :
    Encodes (branchWord cond imm24) cond (.branch ((imm24 ++ (0 : BitVec 2)).signExtend 32)) := by
  constructor <;>
    simp (disch := omega) [decode, branchWord, extractLsb'_or, extract_placed, extract_elsewhere]

theorem extractLsb_shiftLeft (x : Word) {a lo len : Nat} (h : a ≤ lo) (hin : lo + len ≤ 32) :
    (x <<< a).extractLsb' lo len = x.extractLsb' (lo - a) len := by
  apply eq_of_getLsbD_eq
  intro i hi
  rw [getLsbD_extractLsb', getLsbD_shiftLeft, getLsbD_extractLsb']
  have hsub : lo + i - a = lo - a + i := by omega
  have hbound : lo + i < 32 := by omega
  have hnot : ¬ lo + i < a := by omega
  simp [hi, hsub, hbound, hnot]

theorem extractLsb_ushiftRight (x : Word) (a lo len : Nat) :
    (x >>> a).extractLsb' lo len = x.extractLsb' (a + lo) len := by
  apply eq_of_getLsbD_eq
  intro i hi
  rw [getLsbD_extractLsb', getLsbD_ushiftRight, getLsbD_extractLsb', Nat.add_assoc]

/-- The 16-bit immediate of `movw` and `movt` is split over two fields. -/
theorem split_imm16 (x : Word) (a : Nat) :
    x.extractLsb' (a + 12) 4 ++ x.extractLsb' a 12 = x.extractLsb' a 16 := by
  apply eq_of_getLsbD_eq
  intro i hi
  rw [getLsbD_append, getLsbD_extractLsb', getLsbD_extractLsb', getLsbD_extractLsb']
  by_cases hlow : i < 12
  · simp [hlow, hi]
  · have hsub : i - 12 < 4 := by omega
    have hadd : a + 12 + (i - 12) = a + i := by omega
    simp [hlow, hi, hsub, hadd]

theorem encodes_tcgOutMovw (rd : Reg) (arg : Word) :
    Encodes (tcgOutMovw cond rd arg) cond (.movw rd (arg.extractLsb' 0 16)) := by
  have hhigh : (arg <<< 4) &&& 0x000f0000 = placed (arg.extractLsb' 12 4) 16 := by
    rw [← extractLsb_shiftLeft arg (show 4 ≤ 16 by omega) (by omega)]
    exact @and_fieldMask (arg <<< 4) 16 4 (by omega)
  have hlow : arg &&& 0xfff = placed (arg.extractLsb' 0 12) 0 := @and_fieldMask arg 0 12 (by omega)
  rw [tcgOutMovw, hhigh, hlow, ← split_imm16 arg 0]
  constructor <;>
    simp (disch := omega) [decode, decodeDataImm, AluOp.ofBits, AluOp.compares, bit,
      extractLsb'_or, extract_placed, extract_elsewhere]

theorem encodes_tcgOutMovt (rd : Reg) (arg : Word) :
    Encodes (tcgOutMovt cond rd arg) cond (.movt rd (arg.extractLsb' 16 16)) := by
  have hhigh : (arg >>> 12) &&& 0x000f0000 = placed (arg.extractLsb' 28 4) 16 := by
    rw [show 28 = 12 + 16 from rfl, ← extractLsb_ushiftRight]
    exact @and_fieldMask (arg >>> 12) 16 4 (by omega)
  have hlow : (arg >>> 16) &&& 0xfff = placed (arg.extractLsb' 16 12) 0 := by
    rw [show 16 = 16 + 0 from rfl, ← extractLsb_ushiftRight]
    exact @and_fieldMask (arg >>> 16) 0 12 (by omega)
  rw [tcgOutMovt, hhigh, hlow, ← split_imm16 arg 16]
  constructor <;>
    simp (disch := omega) [decode, decodeDataImm, AluOp.ofBits, AluOp.compares, bit,
      extractLsb'_or, extract_placed, extract_elsewhere]

/-- The sizes that have an instruction of their own; stores do not have a signed one. -/
def AccessKind.Stored : AccessKind → Prop
  | .sbyte | .shalf => False
  | _ => True

def transferOf (load : Bool) (kind : AccessKind) (rt rn : Reg) (offset : Offset) (u w : Bool) : Insn :=
  .transfer ⟨load, kind, rt, rn, offset, u, w⟩

theorem encodes_tcgOutMemopR (h : load ∨ kind.Stored) (rt rn rm : Reg) (u w : Bool) :
    Encodes (tcgOutMemopR cond (memOpc load kind false) rt rn rm u true w) cond
      (transferOf load kind rt rn (.reg rm) u w) := by
  cases load <;> cases kind <;> simp [AccessKind.Stored] at h <;> constructor <;>
    simp (disch := omega) [decode, tcgOutMemopR, memOpc, transferOf, decodeWordByte, decodeExtra,
      extraKind, bit, extractLsb'_or, extract_placed, extract_elsewhere]

/-- The accesses with a 12-bit offset. -/
def AccessKind.Wide : AccessKind → Prop
  | .word | .byte => True
  | _ => False

theorem encodes_tcgOutMemop12 (h : kind.Wide) (rt rn : Reg)
    {imm12 : Int} (himm : imm12.natAbs < 4096) (w : Bool) :
    Encodes (tcgOutMemop12 cond (memOpc load kind true) rt rn imm12 true w) cond
      (transferOf load kind rt rn (.imm (ofNat 32 imm12.natAbs)) (decide (0 ≤ imm12)) w) := by
  have hplaced : ofNat 32 imm12.natAbs = placed (ofNat 12 imm12.natAbs) 0 := by
    apply eq_of_toNat_eq
    rw [placed, shiftLeft_zero, toNat_setWidth, toNat_ofNat, toNat_ofNat,
      Nat.mod_eq_of_lt (show imm12.natAbs < 2 ^ 12 by omega)]
  have hback : (ofNat 12 imm12.natAbs).setWidth 32 = placed (ofNat 12 imm12.natAbs) 0 :=
    (shiftLeft_zero _).symm
  rw [tcgOutMemop12, hplaced, transferOf]
  cases load <;> cases kind <;> simp [AccessKind.Wide] at h <;> constructor <;>
    simp (disch := omega) [decode, memOpc, decodeWordByte, bit, extractLsb'_or,
      extract_placed, extract_elsewhere, hback]

/-- The accesses with an 8-bit offset. -/
def AccessKind.Narrow : AccessKind → Prop
  | .word | .byte => False
  | _ => True

theorem encodes_tcgOutMemop8 (h : kind.Narrow)
    (hload : load ∨ kind.Stored) (rt rn : Reg) {imm8 : Int} (himm : imm8.natAbs < 256) (w : Bool) :
    Encodes (tcgOutMemop8 cond (memOpc load kind true) rt rn imm8 true w) cond
      (transferOf load kind rt rn (.imm (ofNat 32 imm8.natAbs)) (decide (0 ≤ imm8)) w) := by
  have hhigh : (ofNat 32 imm8.natAbs &&& (0xf0 : Word)) <<< 4 =
      placed ((ofNat 32 imm8.natAbs).extractLsb' 4 4) 8 := by
    rw [show (0xf0 : Word) = ofNat 32 ((2 ^ 4 - 1) <<< 4) from rfl,
      and_fieldMask _ (by omega), placed, ← shiftLeft_add, placed]
  have hlow : ofNat 32 imm8.natAbs &&& (0xf : Word) = placed ((ofNat 32 imm8.natAbs).extractLsb' 0 4) 0 :=
    @and_fieldMask (ofNat 32 imm8.natAbs) 0 4 (by omega)
  have hback : ((ofNat 32 imm8.natAbs).extractLsb' 4 4 ++
      (ofNat 32 imm8.natAbs).extractLsb' 0 4).setWidth 32 = ofNat 32 imm8.natAbs := by
    apply eq_of_getLsbD_eq
    intro i hi
    rw [getLsbD_setWidth, getLsbD_append, getLsbD_extractLsb', getLsbD_extractLsb']
    by_cases hlow : i < 4
    · simp [hlow, hi]
    · by_cases hmid : i < 8
      · have hsub : i - 4 < 4 := by omega
        have hadd : 4 + (i - 4) = i := by omega
        simp [hlow, hi, hsub, hadd]
      · have hsub : ¬ i - 4 < 4 := by omega
        have hbig : imm8.natAbs < 2 ^ i := by
          calc imm8.natAbs < 2 ^ 8 := himm
            _ ≤ 2 ^ i := Nat.pow_le_pow_right (by decide) (by omega)
        have hzero : imm8.natAbs.testBit i = false := Nat.testBit_lt_two_pow hbig
        simp [hlow, hsub, getLsbD_ofNat, hzero]
  rw [tcgOutMemop8, hhigh, hlow]
  cases load <;> cases kind <;> simp [AccessKind.Narrow, AccessKind.Stored] at h hload <;>
    constructor <;>
    simp (disch := omega) [decode, memOpc, transferOf, decodeExtra, extraKind, bit,
      extractLsb'_or, extract_placed, extract_elsewhere, hback]

end Words

end TcgArm.ArmHost
