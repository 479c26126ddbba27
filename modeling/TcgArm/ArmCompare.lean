import TcgArm.ArmConst
import TcgArm.TcgSemantics

/-! Double-word comparisons on an ARM host: `brcond2_i32` and `setcond2_i32` compare the high words
and, where these are equal, the low words, and then use one condition for both. For the signed
conditions that takes the low words to be signed as well. -/

namespace TcgArm.ArmHost

open AluOp BitVec Bool CondCode Falls Option State Tcg
open BitVec (ofNat sle slt ule ult)

/-- The flags of `cmp`. -/
def cmpFlags (x y : Word) : Flags := (addWithCarry x (~~~ y) true).2

def tcgCondToArmCond : Cond → CondCode
  | .eq => .eq
  | .ne => .ne
  | .lt => .lt
  | .ge => .ge
  | .le => .le
  | .gt => .gt
  | .ltu => .cc
  | .geu => .cs
  | .leu => .ls
  | .gtu => .hi

def tcgUnsignedCond : Cond → Cond
  | .lt => .ltu
  | .ge => .geu
  | .le => .leu
  | .gt => .gtu
  | c => c

theorem add_not_one (x y : Word) : x + ~~~ y + 1 = x - y := by
  rw [BitVec.sub_eq_add_neg, neg_eq_not_add, BitVec.add_assoc]
  rfl

theorem sub_eq_zero_iff (x y : Word) : x - y = 0 ↔ x = y := by
  constructor
  · intro h
    calc x = x - y + y := (BitVec.sub_add_cancel x y).symm
      _ = y := by rw [h]; exact BitVec.zero_add y
  · rintro rfl
    exact BitVec.sub_self x

theorem toInt_not_word (y : Word) : (~~~ y).toInt = -1 - y.toInt := by
  rw [toInt_eq_toNat_cond, toInt_eq_toNat_cond, toNat_not]
  split <;> split <;> omega

theorem toInt_neg_word {y : Word} (h : y ≠ 0x80000000) : (-y).toInt = -y.toInt := by
  have hne : y.toNat ≠ 2 ^ 31 := fun heq => h (eq_of_toNat_eq heq)
  rw [toInt_eq_toNat_cond, toInt_eq_toNat_cond, toNat_neg]
  split <;> split <;> omega

theorem toInt_sub_cases (x y : Word) : (x - y).toInt = x.toInt - y.toInt ∨
    (x - y).toInt = x.toInt - y.toInt - 2 ^ 32 ∨ (x - y).toInt = x.toInt - y.toInt + 2 ^ 32 := by
  rw [toInt_eq_toNat_cond, toInt_eq_toNat_cond, toInt_eq_toNat_cond, toNat_sub]
  split <;> split <;> split <;> omega

theorem cmpFlags_z (x y : Word) : (cmpFlags x y).z = (x == y) := by
  simp only [cmpFlags, addWithCarry, if_true, add_not_one]
  rw [Bool.eq_iff_iff, beq_iff_eq, beq_iff_eq, sub_eq_zero_iff]

theorem cmpFlags_c (x y : Word) : (cmpFlags x y).c = y.ule x := by
  simp only [cmpFlags, addWithCarry, toNat_not, toNat_true, ule]
  congr 1
  apply propext
  omega

theorem cmpFlags_lt (x y : Word) : ((cmpFlags x y).n != (cmpFlags x y).v) = x.slt y := by
  simp only [cmpFlags, addWithCarry, if_true, add_not_one, toInt_not_word, toNat_true]
  rw [msb_eq_toInt, slt]
  have hx1 := @toInt_lt 32 x
  have hx2 := le_toInt x
  have hy1 := @toInt_lt 32 y
  have hy2 := le_toInt y
  have hr1 := @toInt_lt 32 (x - y)
  have hr2 := le_toInt (x - y)
  have hr := toInt_sub_cases x y
  generalize (x - y).toInt = r at *
  generalize x.toInt = a at *
  generalize y.toInt = b at *
  by_cases hneg : r < 0 <;> by_cases hover : a + (-1 - b) + (1 : Nat) = r <;>
    simp only [hneg, hover, bne, decide_true, decide_false, ne_eq, not_true_eq_false, not_false_eq_true] <;>
    simp <;> omega

/-- The condition codes read the flags of `cmp` as the conditions they stand for. -/
theorem passes_cmpFlags (c : Cond) (x y : Word) :
    (tcgCondToArmCond c).passes (cmpFlags x y) = evalCond c x y := by
  have heqNat : (x == y) = decide (x.toNat = y.toNat) := by
    rw [Bool.eq_iff_iff, beq_iff_eq, decide_eq_true_eq, toNat_inj]
  have heqInt : (x == y) = decide (x.toInt = y.toInt) := by
    rw [Bool.eq_iff_iff, beq_iff_eq, decide_eq_true_eq, toInt_inj]
  have hge : ((cmpFlags x y).n == (cmpFlags x y).v) = !x.slt y := by
    rw [← cmpFlags_lt]
    simp [bne]
  cases c
  case eq => exact cmpFlags_z x y
  case lt => exact cmpFlags_lt x y
  case geu => exact cmpFlags_c x y
  all_goals simp only [tcgCondToArmCond, passes, evalCond]
  case ne => rw [cmpFlags_z, bne]
  case ge =>
    simp only [hge, slt, sle]
    by_cases h : x.toInt < y.toInt
    · simp [h]
    · simp [h, not_lt.mp h]
  case le =>
    simp only [cmpFlags_lt, cmpFlags_z, heqInt, slt, sle]
    rw [← decide_or, decide_eq_decide]
    omega
  case gt =>
    simp only [hge, cmpFlags_z, heqInt, slt]
    rw [← decide_not, ← decide_not, ← decide_and, decide_eq_decide]
    omega
  case ltu =>
    simp only [cmpFlags_c, ule, ult]
    rw [← decide_not, decide_eq_decide]
    omega
  case leu =>
    simp only [cmpFlags_c, cmpFlags_z, heqNat, ule]
    rw [← decide_not, ← decide_or, decide_eq_decide]
    omega
  case gtu =>
    simp only [cmpFlags_c, cmpFlags_z, heqNat, ule, ult]
    rw [← decide_not, ← decide_and, decide_eq_decide]
    omega

/-- `cmn` of the negated operand compares as `cmp` does, except with 0 and the least word. -/
theorem cmnFlags_neg {x y : Word} (hzero : y ≠ 0) (hmin : y ≠ 0x80000000) :
    (addWithCarry x (-y) false).2 = cmpFlags x y := by
  have hsum : x + -y + 0 = x + ~~~ y + 1 := by
    rw [add_not_one, BitVec.sub_eq_add_neg]
    exact BitVec.add_zero _
  have hpos : y.toNat ≠ 0 := fun heq => hzero (eq_of_toNat_eq heq)
  simp only [cmpFlags, addWithCarry, if_true, false_eq_true, if_false, hsum, toNat_true,
    toNat_false, toInt_neg_word hmin, toInt_not_word]
  congr 1
  · rw [decide_eq_decide, toNat_neg, toNat_not]
    omega
  · rw [decide_eq_decide]
    omega

/-- An operand: a register or a constant. -/
inductive Arg where
  | reg (r : Reg)
  | const (v : Word)
  deriving DecidableEq, Repr

/-- What the constraint `rIN` allows. The program counter is never allocated. -/
def Arg.AllowedRIN : Arg → Prop
  | .reg r => r ≠ tcgRegPc
  | .const v => (encodeImm v).isSome ∨ (encodeImm (-v)).isSome

def Arg.value (s : State) : Arg → Word
  | .reg r => s.regs r
  | .const v => v

/-- `opc | TO_CPSR`: the instruction sets the flags as well. -/
def toCpsr (setFlags : Bool) (w : Word) : Word := w ||| placed (BitVec.ofBool setFlags) 20

def tcgOutDatRIN (cond : CondCode) (opc opneg : AluOp) (dst lhs : Reg) : Arg → Option Word
  | .const rhs =>
    match encodeImm rhs with
    | some rot => some (tcgOutDatImm cond opc dst lhs (immField rhs rot))
    | none => (encodeImm (-rhs)).map fun rot =>
      tcgOutDatImm cond opneg dst lhs (immField (-rhs) rot)
  | .reg rhs => some (tcgOutDatReg cond opc dst lhs rhs (shiftImmBits .lsl 0))

/-- A label: already placed, or placed later at the given address, when the branch to it, of which
`old` is what the code buffer held before, is patched. -/
inductive Label where
  | known (addr : Word)
  | pending (addr old : Word)

def Label.addr : Label → Word
  | .known addr => addr
  | .pending addr _ => addr

def deposit32 (value : Word) (start length : Nat) (fieldval : Word) : Word :=
  let mask : Word := (BitVec.allOnes 32 >>> (32 - length)) <<< start
  (value &&& ~~~ mask) ||| ((fieldval <<< start) &&& mask)

def tcgOutBNoaddr (cond : CondCode) (old : Word) : Word :=
  deposit32 old 24 8 (placed cond.bits 4 ||| 0x0a)

def relocPc24 (codePtr target insn : Word) : Word :=
  (insn &&& ~~~ 0xffffff) ||| (((target - codePtr - 8).sshiftRight 2) &&& 0xffffff)

/-- A jump to an address. A Thumb address below level 5 aborts. -/
def tcgOutGoto (t : Target) (cond : CondCode) (codePtr addr : Word) : Option (List Word) :=
  let disp := addr - codePtr
  if addr &&& 1 = 0 ∧ (disp - 8).toInt < 0x01fffffd ∧ (disp - 8).toInt > -0x01fffffd then
    some [tcgOutB cond disp]
  else
    (tcgOutMovi32 t cond tcgRegTmp addr).bind fun code =>
      if t.useArmv5t then some (code ++ [tcgOutBx cond tcgRegTmp])
      else if addr &&& 1 ≠ 0 then none
      else some (code ++ tcgOutMovReg cond tcgRegPc tcgRegTmp)

def tcgOutGotoLabel (t : Target) (cond : CondCode) (codePtr : Word) : Label → Option (List Word)
  | .known addr => tcgOutGoto t cond codePtr addr
  | .pending addr old => some [relocPc24 codePtr addr (tcgOutBNoaddr cond old)]

def compareTwice (al ah : Reg) (bl bh : Arg) : Option (List Word) :=
  (tcgOutDatRIN .al .cmp .cmn 0 ah bh).bind fun high =>
    (tcgOutDatRIN .eq .cmp .cmn 0 al bl).map fun low => [high, low]

/-- `brcond2_i32`. -/
def tcgOutBrcond2 (t : Target) (codePtr : Word) (al ah : Reg) (bl bh : Arg) (c : Cond) (l : Label) :
    Option (List Word) :=
  (compareTwice al ah bl bh).bind fun code =>
    (tcgOutGotoLabel t (tcgCondToArmCond c) (codePtr + BitVec.ofNat 32 (4 * code.length)) l).map
      fun branch => code ++ branch

/-- `setcond2_i32`. -/
def tcgOutSetcond2 (rd al ah : Reg) (bl bh : Arg) (c : Cond) : Option (List Word) :=
  (compareTwice al ah bl bh).map fun code =>
    code ++ [tcgOutDatImm (tcgCondToArmCond c) .mov rd 0 1,
      tcgOutDatImm (tcgCondToArmCond (tcgInvertCond c)) .mov rd 0 0]

section Effect

variable {cond : CondCode} {op partner : AluOp} {dst lhs : Reg} {v : Word} {rhs : Arg}

section

variable (setFlags : Bool)

theorem encodes_toCpsr_imm (imm12 : BitVec 12) :
    Encodes (toCpsr setFlags (tcgOutDatImm cond op dst lhs (placed imm12 0))) cond
      (.alu op (op.compares || setFlags) dst lhs (.imm imm12)) := by
  constructor <;>
    simp (disch := omega) [decode, toCpsr, tcgOutDatImm, arithOpc, decodeDataImm, bit,
      extractLsb'_or, extract_placed, extract_elsewhere]
  cases op.compares <;> cases setFlags <;> simp

theorem encodes_toCpsr_reg (rm : Reg) :
    Encodes (toCpsr setFlags (tcgOutDatReg cond op dst lhs rm (shiftImmBits .lsl 0))) cond
      (.alu op (op.compares || setFlags) dst lhs (.reg rm .lsl 0)) := by
  constructor <;>
    simp (disch := omega) [decode, toCpsr, tcgOutDatReg, shiftImmBits, arithOpc, decodeDataReg, bit,
      extractLsb'_or, extract_placed, extract_elsewhere]
  cases op.compares <;> cases setFlags <;> simp

@[simp] theorem toCpsr_false (w : Word) : toCpsr false w = w := by
  simp [toCpsr, placed]

/-- The word has the effect of the operation on a register and an operand. -/
def Acts (cond : CondCode) (op : AluOp) (setFlags : Bool) (dst lhs : Reg) (rhs : Arg) (w : Word) :
    Prop :=
  ∀ (t : Target) (s : State) (pc : Word), exec t pc w s =
    if cond.passes s.flags then s.compute op setFlags dst (s.regs lhs) (rhs.value s)
    else some (.fall s)

theorem acts_imm {u : Word} {rot : Nat} (hlhs : lhs ≠ tcgRegPc) (setFlags : Bool)
    (hrot : encodeImm u = some rot)
    (hsame : ∀ (s : State) x, s.compute partner (partner.compares || setFlags) dst x u =
      s.compute op (op.compares || setFlags) dst x v) :
    Acts cond op (op.compares || setFlags) dst lhs (.const v)
      (toCpsr setFlags (tcgOutDatImm cond partner dst lhs (immField u rot))) := by
  intro t s pc
  obtain ⟨heven, hlt, hfit⟩ := encodeImm_spec hrot
  rw [immField_eq heven hlt hfit, (encodes_toCpsr_imm _ _).exec_eq, perform, alu,
    State.operand, expandImm_immParts heven hlt hfit, hsame, State.read, if_neg hlhs, Arg.value]

theorem acts_reg {rm : Reg} (hlhs : lhs ≠ tcgRegPc) (hrm : rm ≠ tcgRegPc) (setFlags : Bool) :
    Acts cond op (op.compares || setFlags) dst lhs (.reg rm)
      (toCpsr setFlags (tcgOutDatReg cond op dst lhs rm (shiftImmBits .lsl 0))) := by
  intro t s pc
  have hshift : shiftImm s.flags.c (s.regs rm) .lsl 0 = s.regs rm := shiftLeft_zero _
  rw [(encodes_toCpsr_reg _ _).exec_eq, State.perform, State.alu, State.operand, State.read,
    State.read, if_neg hlhs, if_neg hrm, hshift, Arg.value]

theorem addWithCarry_neg {x y : Word} (hzero : y ≠ 0) (hmin : y ≠ 0x80000000) :
    addWithCarry x (-y) false = addWithCarry x (~~~ y) true := by
  refine Prod.ext ?_ (cmnFlags_neg hzero hmin)
  change x + -y + 0 = x + ~~~ y + 1
  rw [add_not_one, BitVec.sub_eq_add_neg]
  exact BitVec.add_zero _

def Negates (op partner : AluOp) : Prop :=
  ∀ (s : State) (setFlags : Bool) (dst : Reg) (x v : Word), v ≠ 0 → v ≠ 0x80000000 →
    s.compute partner (partner.compares || setFlags) dst x (-v) =
      s.compute op (op.compares || setFlags) dst x v

theorem negates_cmp_cmn : Negates .cmp .cmn := fun s setFlags dst x v hzero hmin => by
  simp only [compute, logical, arith, addWithCarry_neg hzero hmin, compares]

/-- A constant that fits, or that `flip` makes fit for the partner. -/
theorem exists_imm {flip : Word → Word} (setFlags : Bool) (hlhs : lhs ≠ tcgRegPc)
    (hfit : (encodeImm v).isSome ∨ (encodeImm (flip v)).isSome) (hsame : encodeImm v = none → ∀ (s : State) x,
      s.compute partner (partner.compares || setFlags) dst x (flip v) =
        s.compute op (op.compares || setFlags) dst x v) :
    ∃ w, (match encodeImm v with
      | some rot => some (tcgOutDatImm cond op dst lhs (immField v rot))
      | none => (encodeImm (flip v)).map fun rot =>
        tcgOutDatImm cond partner dst lhs (immField (flip v) rot)) = some w ∧
      Acts cond op (op.compares || setFlags) dst lhs (.const v) (toCpsr setFlags w) := by
  cases hrot : encodeImm v with
  | some rot => exact ⟨_, rfl, acts_imm hlhs setFlags hrot fun _ _ => rfl⟩
  | none =>
    obtain ⟨rot, hrot'⟩ := Option.isSome_iff_exists.mp (hfit.resolve_left (by simp [hrot]))
    rw [hrot']
    exact ⟨_, rfl, acts_imm hlhs setFlags hrot' (hsame hrot)⟩

theorem exists_rIN (hpair : Negates op partner) (hlhs : lhs ≠ tcgRegPc) (hrhs : rhs.AllowedRIN) :
    ∃ w, tcgOutDatRIN cond op partner dst lhs rhs = some w ∧
      Acts cond op (op.compares || setFlags) dst lhs rhs (toCpsr setFlags w) := by
  cases rhs with
  | reg r => exact ⟨_, rfl, acts_reg hlhs hrhs setFlags⟩
  | const v =>
    refine exists_imm setFlags hlhs hrhs fun hrot s x => hpair s setFlags dst x v ?_ ?_
    -- The constants whose negation has other flags fit an immediate themselves.
    all_goals
      rintro rfl
      exact absurd hrot (by decide)

end

end Effect

section Code

variable {t : Target} {s : State}

section

variable (cond : CondCode)

/-- A comparison under a condition. -/
theorem exists_compare {lhs : Reg} {rhs : Arg} (hlhs : lhs ≠ tcgRegPc) (hrhs : rhs.AllowedRIN) :
    ∃ w, tcgOutDatRIN cond .cmp .cmn 0 lhs rhs = some w ∧ ∀ (t : Target) (s : State) (pc : Word),
      exec t pc w s = some (.fall (if cond.passes s.flags then
        { s with flags := cmpFlags (s.regs lhs) (rhs.value s) } else s)) := by
  obtain ⟨w, hw, hacts⟩ := @exists_rIN cond _ _ 0 _ _ false negates_cmp_cmn hlhs hrhs
  refine ⟨w, hw, fun t s pc => ?_⟩
  rw [← toCpsr_false w, hacts]
  split <;> rfl

def highThenLow (c : Cond) (al ah bl bh : Word) : Bool :=
  if ah = bh then evalCond c al bl else evalCond c ah bh

theorem exists_compareTwice {al ah : Reg} {bl bh : Arg} (hal : al ≠ tcgRegPc) (hah : ah ≠ tcgRegPc)
    (hbl : bl.AllowedRIN) (hbh : bh.AllowedRIN) :
    ∃ code, compareTwice al ah bl bh = some code ∧ code.length = 2 ∧ ∀ (t : Target) (s : State), ∃ flags,
      Falls t code s { s with flags := flags } ∧ ∀ c, (tcgCondToArmCond c).passes flags =
        highThenLow c (s.regs al) (s.regs ah) (bl.value s) (bh.value s) := by
  obtain ⟨high, hhigh, hexecHigh⟩ := exists_compare .al hah hbh
  obtain ⟨low, hlow, hexecLow⟩ := exists_compare .eq hal hbl
  refine ⟨[high, low], by rw [compareTwice, hhigh, bind_some, hlow]; rfl, rfl, fun t s => ?_⟩
  by_cases heq : s.regs ah = bh.value s
  · refine ⟨cmpFlags (s.regs al) (bl.value s), cons (hexecHigh t s) (cons (fun pc => ?_) nil), fun c => ?_⟩
    · rw [hexecLow]
      have hz : passes .eq (cmpFlags (s.regs ah) (bh.value s)) = true := by
        simp [passes, cmpFlags_z, heq]
      cases bl <;> simp [passes, cmpFlags_z, heq, Arg.value] at hz ⊢
    · rw [passes_cmpFlags, highThenLow, if_pos heq]
  · refine ⟨cmpFlags (s.regs ah) (bh.value s), cons (hexecHigh t s) (cons (fun pc => ?_) nil), fun c => ?_⟩
    · rw [hexecLow]
      simp [passes, cmpFlags_z, heq]
    · rw [passes_cmpFlags, highThenLow, if_neg heq]

/-- A distance that is a multiple of four and fits 26 bits is what the offset field stands for. -/
theorem signExtend_offset {x : Word} (halign : x.toNat % 4 = 0) (hlow : -2 ^ 25 ≤ x.toInt)
    (hhigh : x.toInt < 2 ^ 25) :
    (((x.sshiftRight 2).setWidth 24 : BitVec 24) ++ (0 : BitVec 2)).signExtend 32 = x := by
  have hdvd : x.toInt % 4 = 0 := by
    rw [toInt_eq_toNat_cond]
    split <;> omega
  have hfield : ((x.sshiftRight 2).setWidth 24 : BitVec 24).toInt = x.toInt / 4 := by
    have hquarter : (x.sshiftRight 2).toInt = x.toInt / 4 := by
      rw [toInt_sshiftRight, Int.shiftRight_eq_div_pow]
      rfl
    have hwhole : ((x.sshiftRight 2).toNat : Int).bmod (2 ^ 24) = (x.sshiftRight 2).toInt.bmod (2 ^ 24) := by
      rw [toInt_eq_toNat_bmod, Int.bmod_bmod_of_dvd (Nat.pow_dvd_pow 2 (by omega))]
    rw [toInt_setWidth, hwhole, hquarter]
    apply Int.bmod_eq_of_le
    · omega
    · omega
  have happend : (((x.sshiftRight 2).setWidth 24 : BitVec 24) ++ (0 : BitVec 2)).toInt = x.toInt := by
    rw [toInt_append, hfield]
    simp
    omega
  rw [signExtend, happend, ofInt_toInt]

theorem getLsbD_offsetMask (i : Nat) : (0xffffff : Word).getLsbD i = decide (i < 24) := by
  have h := @getLsbD_fieldMask 0 24 (by omega) i
  rw [show (0xffffff : Word) = ofNat 32 ((2 ^ 24 - 1) <<< 0) by decide, h]
  simp

theorem and_offsetMask (x : Word) : x &&& (0xffffff : Word) = placed (x.setWidth 24 : BitVec 24) 0 := by
  apply eq_of_getLsbD_eq
  intro i hi
  rw [getLsbD_and, getLsbD_offsetMask, getLsbD_placed, getLsbD_setWidth]
  simp [hi, Bool.and_comm]

/-- The upper byte of a branch, as `tcg_out_b_noaddr` deposits it. -/
theorem branch_byte :
    (placed cond.bits 4 ||| 0x0a) <<< 24 = placed cond.bits 28 ||| 0x0a000000 := by
  rw [shiftLeft_or_distrib, placed, ← shiftLeft_add, placed]
  congr 1

theorem tcgOutBNoaddr_high (old : Word) :
    tcgOutBNoaddr cond old &&& ~~~ 0xffffff = placed cond.bits 28 ||| 0x0a000000 := by
  have hmask : (allOnes 32 >>> (32 - 8)) <<< 24 = ~~~ (0xffffff : Word) := by decide
  rw [tcgOutBNoaddr, deposit32, hmask, ← branch_byte]
  apply eq_of_getLsbD_eq
  intro i hi
  simp only [getLsbD_and, getLsbD_or, getLsbD_not, getLsbD_offsetMask, getLsbD_shiftLeft]
  by_cases hin : i < 24
  · simp [hin]
  · simp [hin, hi]

theorem relocPc24_eq (codePtr target old : Word) :
    relocPc24 codePtr target (tcgOutBNoaddr cond old) =
      branchWord cond (((target - codePtr - 8).sshiftRight 2).setWidth 24) := by
  rw [relocPc24, tcgOutBNoaddr_high, and_offsetMask, branchWord]

end

/-- Where a label may lie: at an instruction, and for a branch that is patched later within its
reach, as labels of one block are. -/
def Label.Reachable (codePtr : Word) : Label → Prop
  | .known addr => addr.toNat % 4 = 0
  | .pending addr _ => addr.toNat % 4 = 0 ∧ -2 ^ 25 ≤ (addr - codePtr - 8).toInt ∧
      (addr - codePtr - 8).toInt < 2 ^ 25

def SameButTmp (s s' : State) : Prop :=
  (∀ r, r ≠ tcgRegTmp → s'.regs r = s.regs r) ∧ s'.flags = s.flags ∧ s'.mem = s.mem

/-- The code jumps to `dest` when the condition holds, and otherwise does nothing. -/
structure Jumps (t : Target) (cond : CondCode) (codePtr : Word) (code : List Word) (dest : Word) :
    Prop where
  taken : ∀ s, cond.passes s.flags → ∃ s', run t codePtr code s = some (.jump dest s') ∧ SameButTmp s s'
  passed : ∀ s, cond.passes s.flags = false → run t codePtr code s = some (.fall s)

variable {cond : CondCode} {codePtr dest : Word}

theorem jumps_branchWord (hptr : codePtr.toNat % 4 = 0) (hdest : dest.toNat % 4 = 0)
    (hlow : -2 ^ 25 ≤ (dest - codePtr - 8).toInt) (hhigh : (dest - codePtr - 8).toInt < 2 ^ 25) :
    Jumps t cond codePtr [branchWord cond (((dest - codePtr - 8).sshiftRight 2).setWidth 24)]
      dest := by
  have halign : (dest - codePtr - 8).toNat % 4 = 0 := by
    rw [toNat_sub, toNat_sub, show (8 : Word).toNat = 8 from rfl]
    omega
  have hoffset := signExtend_offset halign hlow hhigh
  have hsum : codePtr + 8 + (dest - codePtr - 8) = dest := by
    rw [BitVec.sub_sub, BitVec.add_comm, BitVec.sub_add_cancel]
  refine ⟨fun s hpass => ⟨s, ?_, fun _ _ => rfl, rfl, rfl⟩, fun s hfail => ?_⟩
  · rw [run, (encodes_branchWord _).exec_eq, if_pos hpass, perform, hoffset, hsum]
    rfl
  · rw [run, (encodes_branchWord _).exec_eq, hfail]
    rfl

theorem jumps_far {w : Word} {code : List Word} {insn : Insn} (hcond : Conditional cond code)
    (hload : ∀ s : State, cond.passes s.flags → Falls t code s (s.set tcgRegTmp dest))
    (hw : Encodes w cond insn) (hjump : ∀ (s : State) (pc : Word), (s.set tcgRegTmp dest).perform t pc insn =
      some (.jump dest (s.set tcgRegTmp dest))) :
    Jumps t cond codePtr (code ++ [w]) dest := by
  refine ⟨fun s hpass => ⟨s.set tcgRegTmp dest, ?_, fun r hr => ?_, rfl, rfl⟩, fun s hfail => ?_⟩
  · have hpass' : cond.passes (s.set tcgRegTmp dest).flags = true := hpass
    rw [(hload s hpass).run_append, run, hw.exec_eq, if_pos hpass', hjump]
    rfl
  · simp [State.set, hr]
  · rw [(hcond.falls hfail).run_append, run, hw.exec_eq, hfail]
    rfl

section

variable (t : Target)

theorem exists_tcgOutGoto (cond : CondCode) (hptr : codePtr.toNat % 4 = 0) (hdest : dest.toNat % 4 = 0) :
    ∃ code, tcgOutGoto t cond codePtr dest = some code ∧ Jumps t cond codePtr code dest := by
  have heven : dest &&& 1 = 0 := by
    apply eq_of_toNat_eq
    rw [toNat_and, show (1 : Word).toNat = 1 from rfl, Nat.and_one_is_mod]
    exact (by omega : dest.toNat % 2 = 0)
  simp only [tcgOutGoto]
  split
  · rename_i hnear
    refine ⟨_, rfl, ?_⟩
    rw [tcgOutB]
    exact jumps_branchWord hptr hdest (by omega) (by omega)
  · obtain ⟨code, hcode, hcond, hload⟩ := exists_tcgOutMovi32 t cond (show tcgRegTmp ≠ tcgRegPc by
      decide) dest
    rw [hcode, bind_some]
    split
    · rename_i hv5
      refine ⟨_, rfl, jumps_far hcond hload (encodes_tcgOutBx _) fun s pc => ?_⟩
      rw [perform, if_pos ⟨hv5, by decide⟩, set_regs]
    · rw [if_neg (by simpa using heven)]
      refine ⟨_, rfl, ?_⟩
      rw [tcgOutMovReg, if_neg (by decide)]
      refine jumps_far hcond hload (encodes_tcgOutDatReg _ _ _ _ _ _) fun s pc => ?_
      have hread : (s.set tcgRegTmp dest).read pc tcgRegTmp = dest := by
        simp [State.read, show tcgRegTmp ≠ tcgRegPc by decide]
      simp [State.perform, State.alu, State.compute, AluOp.logical, AluOp.compares, State.operand, shiftImm,
        hread, State.put]

theorem exists_tcgOutGotoLabel (cond : CondCode) {l : Label}
    (hptr : codePtr.toNat % 4 = 0) (hl : l.Reachable codePtr) :
    ∃ code, tcgOutGotoLabel t cond codePtr l = some code ∧ Jumps t cond codePtr code l.addr := by
  cases l with
  | known addr => exact exists_tcgOutGoto t cond hptr hl
  | pending addr old =>
    obtain ⟨hdest, hlow, hhigh⟩ := hl
    refine ⟨_, rfl, ?_⟩
    rw [relocPc24_eq]
    exact jumps_branchWord hptr hdest hlow hhigh

/-- The low words are compared as they should be: the condition is not a signed order, or the high
words decide, or the low words have the same top bit. -/
def LowWordsAgree (c : Cond) (al ah bl bh : Word) : Prop :=
  tcgUnsignedCond c = c ∨ ah ≠ bh ∨ al.msb = bl.msb

instance (c : Cond) (al ah bl bh : Word) : Decidable (LowWordsAgree c al ah bl bh) :=
  inferInstanceAs (Decidable (_ ∨ _ ∨ _))

theorem toNat_double (h l : Word) : (h ++ l).toNat = 2 ^ 32 * h.toNat + l.toNat := by
  rw [toNat_append, ← Nat.shiftLeft_add_eq_or_of_lt l.isLt, Nat.shiftLeft_eq, Nat.mul_comm]

theorem toInt_double (h l : Word) : (h ++ l).toInt = 2 ^ 32 * h.toInt + l.toNat := by
  rw [toInt_append]
  rfl

/-- A double-word comparison is one of the high words, or an unsigned one of the low words. -/
theorem evalCond_append (c : Cond) (al ah bl bh : Word) :
    evalCond c (ah ++ al) (bh ++ bl) =
      if ah = bh then evalCond (tcgUnsignedCond c) al bl else evalCond c ah bh := by
  split
  · rename_i heq
    subst heq
    have hbeq : (ah ++ al == ah ++ bl) = (al == bl) := by
      rw [Bool.eq_iff_iff, beq_iff_eq, beq_iff_eq, ← toNat_inj, ← toNat_inj, toNat_double, toNat_double]
      omega
    cases c
    case eq => exact hbeq
    case ne => exact congrArg not hbeq
    all_goals
      simp only [evalCond, tcgUnsignedCond, slt, sle, ult, ule,
        toInt_double, toNat_double, decide_eq_decide]
      omega
  · rename_i hne
    have hnat : ah.toNat ≠ bh.toNat := fun heq => hne (eq_of_toNat_eq heq)
    have hint : ah.toInt ≠ bh.toInt := fun heq => hne (eq_of_toInt_eq heq)
    have hbeq : (ah ++ al == bh ++ bl) = (ah == bh) := by
      rw [Bool.eq_iff_iff, beq_iff_eq, beq_iff_eq, ← toNat_inj, ← toNat_inj, toNat_double, toNat_double]
      omega
    cases c
    case eq => exact hbeq
    case ne => exact congrArg not hbeq
    all_goals
      simp only [evalCond, slt, sle, ult, ule, toInt_double,
        toNat_double, decide_eq_decide]
      omega

/-- Signed and unsigned orders of words are the same exactly when their top bits are. -/
theorem evalCond_eq_unsigned_iff {c : Cond} (h : tcgUnsignedCond c ≠ c) (x y : Word) :
    evalCond c x y = evalCond (tcgUnsignedCond c) x y ↔ x.msb = y.msb := by
  have hslt : ∀ x y : Word, x.slt y = x.ult y ↔ x.msb = y.msb := fun x y => by
    rw [slt_eq_ult]
    cases x.msb <;> cases y.msb <;> cases x.ult y <;> decide
  have hsle : ∀ x y : Word, x.sle y = x.ule y ↔ y.msb = x.msb := fun x y => by
    rw [sle_eq_not_slt, ule_eq_not_ult, ← hslt]
    cases y.slt x <;> cases y.ult x <;> decide
  cases c <;> simp only [tcgUnsignedCond, ne_eq, not_true_eq_false] at h
  · exact hslt x y
  · exact hsle y x
  · rw [eq_comm (a := x.msb)]
    exact hsle x y
  · rw [eq_comm (a := x.msb)]
    exact hslt y x

theorem highThenLow_eq_iff (c : Cond) (al ah bl bh : Word) :
    highThenLow c al ah bl bh = evalCond c (ah ++ al) (bh ++ bl) ↔ LowWordsAgree c al ah bl bh := by
  rw [evalCond_append, highThenLow, LowWordsAgree]
  by_cases heq : ah = bh
  · rw [if_pos heq, if_pos heq]
    by_cases hc : tcgUnsignedCond c = c
    · simp [hc]
    · rw [evalCond_eq_unsigned_iff hc]
      simp [hc, heq]
  · simp [heq]

/-- Control goes to `dest` if `holds`, and else to the next instruction. -/
def BranchesIf (holds : Bool) (dest : Word) (s : State) (next : Next) : Prop :=
  (holds = true ∧ ∃ s', next = .jump dest s' ∧ s'.mem = s.mem ∧ ∀ r, r ≠ tcgRegTmp → s'.regs r = s.regs r) ∨
  (holds = false ∧ ∃ s', next = .fall s' ∧ s'.mem = s.mem ∧ s'.regs = s.regs)

theorem exists_brcond2 (c : Cond) {codePtr : Word} {al ah : Reg} {bl bh : Arg} {l : Label}
    (hal : al ≠ tcgRegPc) (hah : ah ≠ tcgRegPc) (hbl : bl.AllowedRIN) (hbh : bh.AllowedRIN)
    (hptr : codePtr.toNat % 4 = 0) (hl : l.Reachable (codePtr + 8)) (s : State) :
    ∃ code next, tcgOutBrcond2 t codePtr al ah bl bh c l = some code ∧ run t codePtr code s = some next ∧
      BranchesIf (highThenLow c (s.regs al) (s.regs ah) (bl.value s) (bh.value s)) l.addr s next := by
  obtain ⟨code, hcode, hlength, hcompare⟩ := exists_compareTwice hal hah hbl hbh
  obtain ⟨flags, hfalls, hpasses⟩ := hcompare t s
  have hend : codePtr + ofNat 32 (4 * code.length) = codePtr + 8 := by
    rw [hlength]
    rfl
  have hptr' : (codePtr + 8).toNat % 4 = 0 := by
    rw [toNat_add, show (8 : Word).toNat = 8 from rfl]
    omega
  obtain ⟨branch, hbranch, hjumps⟩ := exists_tcgOutGotoLabel t (tcgCondToArmCond c) hptr' hl
  have hemit : tcgOutBrcond2 t codePtr al ah bl bh c l = some (code ++ branch) := by
    rw [tcgOutBrcond2, hcode, bind_some, hend, hbranch]
    rfl
  have hrun : run t codePtr (code ++ branch) s = run t (codePtr + 8) branch { s with flags := flags } := by
    rw [hfalls.run_append, hend]
  cases hholds : highThenLow c (s.regs al) (s.regs ah) (bl.value s) (bh.value s) with
  | true =>
    obtain ⟨s', hjump, hregs, -, hmem⟩ := hjumps.taken { s with flags := flags } (by rw [hpasses, hholds])
    exact ⟨_, _, hemit, hrun.trans hjump, .inl ⟨rfl, s', rfl, hmem, hregs⟩⟩
  | false =>
    have hfall := hjumps.passed { s with flags := flags } (by rw [hpasses, hholds])
    exact ⟨_, _, hemit, hrun.trans hfall, .inr ⟨rfl, _, rfl, rfl, rfl⟩⟩

theorem exists_setcond2 (c : Cond) {rd al ah : Reg} {bl bh : Arg} (hrd : rd ≠ tcgRegPc)
    (hal : al ≠ tcgRegPc) (hah : ah ≠ tcgRegPc) (hbl : bl.AllowedRIN) (hbh : bh.AllowedRIN) (s : State) :
    ∃ code flags, tcgOutSetcond2 rd al ah bl bh c = some code ∧
      Falls t code s (State.set { s with flags := flags } rd
        (if highThenLow c (s.regs al) (s.regs ah) (bl.value s) (bh.value s) then 1 else 0)) := by
  obtain ⟨code, hcode, -, hcompare⟩ := exists_compareTwice hal hah hbl hbh
  obtain ⟨flags, hfalls, hpasses⟩ := hcompare t s
  have hmov : ∀ (cond : CondCode) (b : BitVec 12) (s : State), expandImm b = b.setWidth 32 →
      ∀ pc, exec t pc (tcgOutDatImm cond .mov rd 0 (placed b 0)) s =
        some (.fall (if cond.passes s.flags then s.set rd (b.setWidth 32) else s)) := by
    intro cond b s hb pc
    rw [(encodes_tcgOutDatImm _ _ _ _).exec_eq]
    by_cases hpass : cond.passes s.flags = true
    · simp [hpass, perform, alu, compute, logical, compares, operand, hb, put_eq hrd]
    · simp [hpass]
  have hinvert : (tcgCondToArmCond (tcgInvertCond c)).passes flags = !(tcgCondToArmCond c).passes flags := by
    cases c <;> simp [tcgCondToArmCond, tcgInvertCond, passes, bne]
  refine ⟨_, flags, by rw [tcgOutSetcond2, hcode]; rfl, hfalls.append ?_⟩
  refine cons (hmov _ 1 _ (by decide)) (cons (hmov _ 0 _ (by decide)) ?_)
  rw [← hpasses]
  cases hpass : (tcgCondToArmCond c).passes flags <;> rw [hpass] at hinvert <;>
    simpa [hpass, hinvert] using Falls.nil

end

/-- **Double-word comparisons.** The code of `brcond2_i32` branches exactly when the double-word
comparison holds, and that of `setcond2_i32` leaves its truth value, if and only if the low words
are compared as they should be. -/
theorem double_compare_right_iff (t : Target) (c : Cond) {al ah : Reg} {bl bh : Arg} (hal : al ≠ tcgRegPc)
    (hah : ah ≠ tcgRegPc) (hbl : bl.AllowedRIN) (hbh : bh.AllowedRIN) (s : State) :
    (∀ (codePtr : Word) (l : Label), codePtr.toNat % 4 = 0 → l.Reachable (codePtr + 8) →
      ∃ code next, tcgOutBrcond2 t codePtr al ah bl bh c l = some code ∧
        run t codePtr code s = some next ∧
        (BranchesIf (evalCond c (s.regs ah ++ s.regs al) (bh.value s ++ bl.value s)) l.addr s next ↔
          LowWordsAgree c (s.regs al) (s.regs ah) (bl.value s) (bh.value s))) ∧
    ∀ (codePtr : Word) (rd : Reg), rd ≠ tcgRegPc →
      ∃ code s', tcgOutSetcond2 rd al ah bl bh c = some code ∧
        run t codePtr code s = some (.fall s') ∧ s'.mem = s.mem ∧
        (∀ r, r ≠ rd → s'.regs r = s.regs r) ∧
        (s'.regs rd = (if evalCond c (s.regs ah ++ s.regs al) (bh.value s ++ bl.value s) then 1
          else 0) ↔ LowWordsAgree c (s.regs al) (s.regs ah) (bl.value s) (bh.value s)) := by
  rw [← highThenLow_eq_iff]
  generalize evalCond c (s.regs ah ++ s.regs al) (bh.value s ++ bl.value s) = right
  refine ⟨fun codePtr l hptr hl => ?_, fun codePtr rd hrd => ?_⟩
  · obtain ⟨code, next, hcode, hrun, hnext⟩ := exists_brcond2 t c hal hah hbl hbh hptr hl s
    refine ⟨code, next, hcode, hrun, fun hright => ?_, fun heq => heq ▸ hnext⟩
    rcases hnext with ⟨hholds, s₁, rfl, -⟩ | ⟨hholds, s₁, rfl, -⟩ <;>
      rcases hright with ⟨hright, s₂, heq, -⟩ | ⟨hright, s₂, heq, -⟩ <;>
      first | exact hholds.trans hright.symm | cases heq
  · obtain ⟨code, flags, hcode, hfalls⟩ := exists_setcond2 t c hrd hal hah hbl hbh s
    refine ⟨code, _, hcode, hfalls codePtr, rfl, fun r hr => by simp [State.set, hr], ?_⟩
    rw [State.set_regs]
    generalize highThenLow c (s.regs al) (s.regs ah) (bl.value s) (bh.value s) = left
    cases left <;> cases right <;> decide

/-- A state with the operands of a double-word comparison in registers 4 to 7. -/
def compareState (al ah bl bh : Word) : State where
  regs r := if r = 4 then al else if r = 5 then ah else if r = 6 then bl else if r = 7 then bh else 0
  flags := ⟨false, false, false, false⟩
  mem _ := 0

theorem double_compare_right_iff_unsigned :
    LowWordsAgree .ltu 1 5 0x80000000 5 ∧
    ∃ code next, tcgOutBrcond2 ⟨7, true, false⟩ 0x1000 4 5 (.reg 6) (.reg 7) .ltu (.known 0x2000) =
        some code ∧
      run ⟨7, true, false⟩ 0x1000 code (compareState 1 5 0x80000000 5) = some next ∧
      BranchesIf true 0x2000 (compareState 1 5 0x80000000 5) next := by
  have hagree : LowWordsAgree .ltu 1 5 0x80000000 5 := by decide
  obtain ⟨code, next, hcode, hrun, hiff⟩ := (@double_compare_right_iff ⟨7, true, false⟩ .ltu 4 5
    (.reg 6) (.reg 7) (by decide) (by decide) (by decide : (6 : Reg) ≠ 15)
    (by decide : (7 : Reg) ≠ 15) (compareState 1 5 0x80000000 5)).1 0x1000 (.known 0x2000)
    (by decide) (by decide : (0x2000 : Word).toNat % 4 = 0)
  exact ⟨hagree, code, next, hcode, hrun, hiff.mpr hagree⟩

/-- 0x80000000 is not below 1, but the branch is taken. -/
theorem signed_low_words_compared :
    evalCond .lt ((0 : Word) ++ (0x80000000 : Word)) ((0 : Word) ++ (1 : Word)) = false ∧
    ∃ code s', tcgOutBrcond2 ⟨7, true, false⟩ 0x1000 4 5 (.reg 6) (.reg 7) .lt (.known 0x2000) =
        some code ∧
      run ⟨7, true, false⟩ 0x1000 code (compareState 0x80000000 0 1 0) = some (.jump 0x2000 s') := by
  refine ⟨by decide, ?_⟩
  obtain ⟨code, next, hcode, hrun, hnext⟩ := @exists_brcond2 ⟨7, true, false⟩ .lt 0x1000 4 5
    (.reg 6) (.reg 7) (.known 0x2000) (by decide) (by decide) (by decide : (6 : Reg) ≠ 15)
    (by decide : (7 : Reg) ≠ 15) (by decide) (by decide : (0x2000 : Word).toNat % 4 = 0)
    (compareState 0x80000000 0 1 0)
  rcases hnext with ⟨-, s', rfl, -⟩ | ⟨hholds, -⟩
  · exact ⟨code, s', hcode, hrun⟩
  · exact absurd hholds (by decide)

end Code

end TcgArm.ArmHost
