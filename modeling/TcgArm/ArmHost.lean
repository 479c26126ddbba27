import TcgArm.ByteMemory

/-! The ARM processor as a host: the instructions that the ARM backend emits, how their words are
decoded, and what they do to registers, flags and memory. Data is little-endian and may lie at any
address. What the architecture leaves unpredictable, and what the backend never emits, has no meaning
here. -/

namespace TcgArm.ArmHost

open ByteMemory

abbrev Word := BitVec 32

/-- `TCGReg`. -/
abbrev Reg := BitVec 4

def tcgRegR0 : Reg := 0

def tcgRegTmp : Reg := 12

def tcgRegPc : Reg := 15

/-- The register may hold an operand: it is neither the program counter nor the backend's own. -/
def Allocated (r : Reg) : Prop := r ≠ tcgRegPc ∧ r ≠ tcgRegTmp

instance (r : Reg) : Decidable (Allocated r) := inferInstanceAs (Decidable (_ ∧ _))

/-- The processor: its architecture level, whether `bx` is there below level 6, and whether the
emulator runs with `CONFIG_SOFTMMU`. -/
structure Target where
  arch : Nat
  v5t : Bool
  softmmu : Bool

def Target.useArmv5t (t : Target) : Bool := t.v5t || decide (6 ≤ t.arch)

def Target.useArmv6 (t : Target) : Bool := decide (6 ≤ t.arch)

def Target.useArmv7 (t : Target) : Bool := decide (7 ≤ t.arch)

structure Flags where
  n : Bool
  z : Bool
  c : Bool
  v : Bool
  deriving DecidableEq, Repr

structure State where
  regs : Reg → Word
  flags : Flags
  mem : Mem 32

/-- The value of a register in an instruction at `pc`. -/
def State.read (s : State) (pc : Word) (r : Reg) : Word := if r = tcgRegPc then pc + 8 else s.regs r

def State.set (s : State) (r : Reg) (v : Word) : State := { s with regs := Function.update s.regs r v }

/-- How an instruction ends. -/
inductive Next where
  | fall (s : State)
  | jump (dest : Word) (s : State)

/-- `arm_cond_code_e`. -/
inductive CondCode where
  | eq
  | ne
  | cs
  | cc
  | mi
  | pl
  | vs
  | vc
  | hi
  | ls
  | ge
  | lt
  | gt
  | le
  | al
  deriving DecidableEq, Repr

def CondCode.bits : CondCode → BitVec 4
  | .eq => 0
  | .ne => 1
  | .cs => 2
  | .cc => 3
  | .mi => 4
  | .pl => 5
  | .vs => 6
  | .vc => 7
  | .hi => 8
  | .ls => 9
  | .ge => 10
  | .lt => 11
  | .gt => 12
  | .le => 13
  | .al => 14

/-- The condition of a word; `0xf` is not one. -/
def CondCode.ofBits : BitVec 4 → Option CondCode
  | 0 => some .eq
  | 1 => some .ne
  | 2 => some .cs
  | 3 => some .cc
  | 4 => some .mi
  | 5 => some .pl
  | 6 => some .vs
  | 7 => some .vc
  | 8 => some .hi
  | 9 => some .ls
  | 10 => some .ge
  | 11 => some .lt
  | 12 => some .gt
  | 13 => some .le
  | 14 => some .al
  | _ => none

@[simp] theorem CondCode.ofBits_bits (c : CondCode) : ofBits c.bits = some c := by
  cases c <;> rfl

def CondCode.passes : CondCode → Flags → Bool
  | .eq, f => f.z
  | .ne, f => !f.z
  | .cs, f => f.c
  | .cc, f => !f.c
  | .mi, f => f.n
  | .pl, f => !f.n
  | .vs, f => f.v
  | .vc, f => !f.v
  | .hi, f => f.c && !f.z
  | .ls, f => !f.c || f.z
  | .ge, f => f.n == f.v
  | .lt, f => f.n != f.v
  | .gt, f => !f.z && (f.n == f.v)
  | .le, f => f.z || (f.n != f.v)
  | .al, _ => true

inductive AluOp where
  | and
  | eor
  | sub
  | rsb
  | add
  | adc
  | sbc
  | rsc
  | tst
  | teq
  | cmp
  | cmn
  | orr
  | mov
  | bic
  | mvn
  deriving DecidableEq, Repr

def AluOp.ofBits : BitVec 4 → AluOp
  | 0 => .and
  | 1 => .eor
  | 2 => .sub
  | 3 => .rsb
  | 4 => .add
  | 5 => .adc
  | 6 => .sbc
  | 7 => .rsc
  | 8 => .tst
  | 9 => .teq
  | 10 => .cmp
  | 11 => .cmn
  | 12 => .orr
  | 13 => .mov
  | 14 => .bic
  | _ => .mvn

def AluOp.bits : AluOp → BitVec 4
  | .and => 0
  | .eor => 1
  | .sub => 2
  | .rsb => 3
  | .add => 4
  | .adc => 5
  | .sbc => 6
  | .rsc => 7
  | .tst => 8
  | .teq => 9
  | .cmp => 10
  | .cmn => 11
  | .orr => 12
  | .mov => 13
  | .bic => 14
  | .mvn => 15

@[simp] theorem AluOp.ofBits_bits (op : AluOp) : ofBits op.bits = op := by
  cases op <;> rfl

def AluOp.compares : AluOp → Bool
  | .tst | .teq | .cmp | .cmn => true
  | _ => false

inductive ShiftKind where
  | lsl
  | lsr
  | asr
  | ror
  deriving DecidableEq, Repr

def ShiftKind.ofBits : BitVec 2 → ShiftKind
  | 0 => .lsl
  | 1 => .lsr
  | 2 => .asr
  | _ => .ror

def ShiftKind.bits : ShiftKind → BitVec 2
  | .lsl => 0
  | .lsr => 1
  | .asr => 2
  | .ror => 3

@[simp] theorem ShiftKind.ofBits_bits (kind : ShiftKind) : ofBits kind.bits = kind := by
  cases kind <;> rfl

/-- The second operand of a data-processing instruction. -/
inductive Operand where
  /-- An 8-bit value and a rotation. -/
  | imm (imm12 : BitVec 12)
  | reg (rm : Reg) (kind : ShiftKind) (amount : BitVec 5)
  deriving DecidableEq, Repr

inductive ExtendKind where
  | sxtb
  | sxth
  | uxth
  | rev
  | rev16
  | revsh
  deriving DecidableEq, Repr

inductive AccessKind where
  | word
  | byte
  | half
  | sbyte
  | shalf
  | double
  deriving DecidableEq, Repr

/-- The offset of a memory access. -/
inductive Offset where
  | imm (val : Word)
  | reg (rm : Reg)
  deriving DecidableEq, Repr

/-- A load or store at base plus or minus offset, with or without writing the address back to the
base. -/
structure Transfer where
  load : Bool
  kind : AccessKind
  rt : Reg
  rn : Reg
  offset : Offset
  add : Bool
  writeback : Bool
  deriving DecidableEq, Repr

inductive Insn where
  | alu (op : AluOp) (setFlags : Bool) (rd rn : Reg) (operand : Operand)
  | movw (rd : Reg) (imm : BitVec 16)
  | movt (rd : Reg) (imm : BitVec 16)
  | extend (kind : ExtendKind) (rd rm : Reg)
  | transfer (t : Transfer)
  | branch (offset : Word)
  | branchExchange (rm : Reg)
  deriving DecidableEq, Repr

section Decode

variable (w : Word)

def bit (i : Nat) : Bool := w.extractLsb' i 1 == 1

/-- Data processing with an immediate. The comparisons without flags are other instructions. -/
def decodeDataImm : Option Insn :=
  let op := AluOp.ofBits (w.extractLsb' 21 4)
  if op.compares ∧ bit w 20 = false then
    match op with
    | .tst => some (.movw (w.extractLsb' 12 4) (w.extractLsb' 16 4 ++ w.extractLsb' 0 12))
    | .cmp => some (.movt (w.extractLsb' 12 4) (w.extractLsb' 16 4 ++ w.extractLsb' 0 12))
    | _ => none
  else
    some (.alu op (bit w 20) (w.extractLsb' 12 4) (w.extractLsb' 16 4) (.imm (w.extractLsb' 0 12)))

def decodeDataReg : Option Insn :=
  let op := AluOp.ofBits (w.extractLsb' 21 4)
  if op.compares ∧ bit w 20 = false then none
  else
    some (.alu op (bit w 20) (w.extractLsb' 12 4) (w.extractLsb' 16 4)
      (.reg (w.extractLsb' 0 4) (ShiftKind.ofBits (w.extractLsb' 5 2)) (w.extractLsb' 7 5)))

def decodeWordByte : Option Insn :=
  if bit w 24 = false ∨ bit w 25 ∧ w.extractLsb' 4 8 ≠ 0 then none
  else
    some (.transfer
      { load := bit w 20
        kind := if bit w 22 then .byte else .word
        rt := w.extractLsb' 12 4
        rn := w.extractLsb' 16 4
        offset := if bit w 25 then .reg (w.extractLsb' 0 4)
          else .imm ((w.extractLsb' 0 12).setWidth 32)
        add := bit w 23
        writeback := bit w 21 })

/-- The kind of an access of the extra loads and stores, and whether it is a load. -/
def extraKind (load : Bool) : BitVec 2 → Option (Bool × AccessKind)
  | 1 => some (load, .half)
  | 2 => some (if load then (true, .sbyte) else (true, .double))
  | 3 => some (if load then (true, .shalf) else (false, .double))
  | _ => none

/-- Loads and stores of halfwords, signed bytes and doublewords, with the address formed first. -/
def decodeExtra : Option Insn :=
  if bit w 24 = false ∨ bit w 22 = false ∧ w.extractLsb' 8 4 ≠ 0 then none
  else
    (extraKind (bit w 20) (w.extractLsb' 5 2)).map fun (load, kind) =>
      .transfer
        { load := load
          kind := kind
          rt := w.extractLsb' 12 4
          rn := w.extractLsb' 16 4
          offset := if bit w 22 then .imm ((w.extractLsb' 8 4 ++ w.extractLsb' 0 4).setWidth 32)
            else .reg (w.extractLsb' 0 4)
          add := bit w 23
          writeback := bit w 21 }

def decodeMedia : Option Insn :=
  let kind : Option ExtendKind :=
    if w.extractLsb' 16 12 = 0x6af ∧ w.extractLsb' 4 8 = 0x07 then some .sxtb
    else if w.extractLsb' 16 12 = 0x6bf ∧ w.extractLsb' 4 8 = 0x07 then some .sxth
    else if w.extractLsb' 16 12 = 0x6ff ∧ w.extractLsb' 4 8 = 0x07 then some .uxth
    else if w.extractLsb' 16 12 = 0x6bf ∧ w.extractLsb' 4 8 = 0xf3 then some .rev
    else if w.extractLsb' 16 12 = 0x6bf ∧ w.extractLsb' 4 8 = 0xfb then some .rev16
    else if w.extractLsb' 16 12 = 0x6ff ∧ w.extractLsb' 4 8 = 0xfb then some .revsh
    else none
  kind.map fun kind => .extend kind (w.extractLsb' 12 4) (w.extractLsb' 0 4)

def decode : Option Insn :=
  if w.extractLsb' 25 3 = 1 then decodeDataImm w
  else if w.extractLsb' 25 3 = 0 then
    if bit w 4 = false then decodeDataReg w
    else if bit w 7 then decodeExtra w
    else if w.extractLsb' 4 24 = 0x12fff1 then some (.branchExchange (w.extractLsb' 0 4))
    else none
  else if w.extractLsb' 25 3 = 2 then decodeWordByte w
  else if w.extractLsb' 25 3 = 3 then if bit w 4 then decodeMedia w else decodeWordByte w
  else if w.extractLsb' 24 4 = 10 then
    some (.branch ((w.extractLsb' 0 24 ++ (0 : BitVec 2)).signExtend 32))
  else none

end Decode

def addWithCarry (x y : Word) (carry : Bool) : Word × Flags :=
  let r := x + y + (if carry then 1 else 0)
  (r, { n := r.msb
        z := r == 0
        c := decide (2 ^ 32 ≤ x.toNat + y.toNat + carry.toNat)
        v := decide (x.toInt + y.toInt + carry.toNat ≠ r.toInt) })

def shiftImm (carry : Bool) (x : Word) (kind : ShiftKind) (amount : BitVec 5) : Word :=
  match kind with
  | .lsl => x <<< amount.toNat
  | .lsr => x >>> (if amount = 0 then 32 else amount.toNat)
  | .asr => x.sshiftRight (if amount = 0 then 32 else amount.toNat)
  | .ror => if amount = 0 then BitVec.ofBool carry ++ x.extractLsb' 1 31
      else x.rotateRight amount.toNat

def expandImm (imm12 : BitVec 12) : Word :=
  ((imm12.extractLsb' 0 8).setWidth 32).rotateRight (2 * (imm12.extractLsb' 8 4).toNat)

def State.operand (s : State) (pc : Word) : Operand → Word
  | .imm imm12 => expandImm imm12
  | .reg rm kind amount => shiftImm s.flags.c (s.read pc rm) kind amount

def AluOp.logical (x y : Word) : AluOp → Option Word
  | .and | .tst => some (x &&& y)
  | .eor | .teq => some (x ^^^ y)
  | .orr => some (x ||| y)
  | .mov => some y
  | .bic => some (x &&& ~~~ y)
  | .mvn => some (~~~ y)
  | _ => none

def AluOp.arith (carry : Bool) (x y : Word) : AluOp → Option (Word × Flags)
  | .sub | .cmp => some (addWithCarry x (~~~ y) true)
  | .rsb => some (addWithCarry (~~~ x) y true)
  | .add | .cmn => some (addWithCarry x y false)
  | .adc => some (addWithCarry x y carry)
  | .sbc => some (addWithCarry x (~~~ y) carry)
  | .rsc => some (addWithCarry (~~~ x) y carry)
  | _ => none

def State.put (s : State) (rd : Reg) (v : Word) : Next :=
  if rd = tcgRegPc then .jump v s else .fall (s.set rd v)

def State.compute (s : State) (op : AluOp) (setFlags : Bool) (rd : Reg) (x y : Word) : Option Next :=
  match op.logical x y, op.arith s.flags.c x y with
  | some r, _ => if setFlags then none else some (s.put rd r)
  | none, some (r, flags) =>
    if op.compares then some (.fall { s with flags := flags })
    else if setFlags then
      if rd = tcgRegPc then none else some (.fall { s.set rd r with flags := flags })
    else some (s.put rd r)
  | none, none => none

def State.alu (s : State) (pc : Word) (op : AluOp) (setFlags : Bool) (rd rn : Reg)
    (operand : Operand) : Option Next :=
  s.compute op setFlags rd (s.read pc rn) (s.operand pc operand)

def reverseBytes (x : Word) : Word :=
  x.extractLsb' 0 8 ++ x.extractLsb' 8 8 ++ x.extractLsb' 16 8 ++ x.extractLsb' 24 8

def ExtendKind.apply (x : Word) : ExtendKind → Word
  | .sxtb => (x.setWidth 8).signExtend 32
  | .sxth => (x.setWidth 16).signExtend 32
  | .uxth => (x.setWidth 16).setWidth 32
  | .rev => reverseBytes x
  | .rev16 => x.extractLsb' 16 8 ++ x.extractLsb' 24 8 ++ x.extractLsb' 0 8 ++ x.extractLsb' 8 8
  | .revsh => (x.extractLsb' 0 8 ++ x.extractLsb' 8 8).signExtend 32

def loadLe (k : Nat) (a : Word) (m : Mem 32) : Word := (load false k a m).setWidth 32

def storeLe (k : Nat) (a : Word) (v : Word) (m : Mem 32) : Mem 32 :=
  store false k a (v.setWidth 64) m

def AccessKind.fetch (a : Word) (m : Mem 32) : AccessKind → Word
  | .word | .double => loadLe 4 a m
  | .byte => loadLe 1 a m
  | .half => loadLe 2 a m
  | .sbyte => ((loadLe 1 a m).setWidth 8).signExtend 32
  | .shalf => ((loadLe 2 a m).setWidth 16).signExtend 32

def AccessKind.bytes : AccessKind → Nat
  | .word | .double => 4
  | .byte | .sbyte => 1
  | .half | .shalf => 2

def Offset.Uses (r : Reg) : Offset → Prop
  | .imm _ => False
  | .reg rm => rm = r

instance (r : Reg) : DecidablePred (Offset.Uses r)
  | .imm _ => inferInstanceAs (Decidable False)
  | .reg rm => inferInstanceAs (Decidable (rm = r))

/-- The register combinations for which the architecture defines the transfer. -/
def Transfer.Defined (arch : Nat) (t : Transfer) : Prop :=
  t.rt ≠ tcgRegPc ∧ ¬ t.offset.Uses tcgRegPc ∧
  (t.writeback → t.rn ≠ tcgRegPc ∧ t.rn ≠ t.rt ∧ (arch < 6 → ¬ t.offset.Uses t.rn)) ∧
  (t.kind = .double → t.rt.extractLsb' 0 1 = 0 ∧ t.rt + 1 ≠ tcgRegPc ∧
    (t.load → ¬ t.offset.Uses t.rt ∧ ¬ t.offset.Uses (t.rt + 1)) ∧
    (t.writeback → t.rn ≠ t.rt + 1))

instance (arch : Nat) (t : Transfer) : Decidable (t.Defined arch) := by
  unfold Transfer.Defined
  infer_instance

def State.address (s : State) (pc : Word) (t : Transfer) : Word :=
  let offset := match t.offset with
    | .imm val => val
    | .reg rm => s.read pc rm
  if t.add then s.read pc t.rn + offset else s.read pc t.rn - offset

def State.transfer (s : State) (arch : Nat) (pc : Word) (t : Transfer) : Option Next :=
  if t.Defined arch then
    let a := s.address pc t
    let s' := if t.writeback then s.set t.rn a else s
    some (.fall (match t.load, t.kind with
      | true, .double => (s'.set t.rt (loadLe 4 a s.mem)).set (t.rt + 1) (loadLe 4 (a + 4) s.mem)
      | true, kind => s'.set t.rt (kind.fetch a s.mem)
      | false, .double =>
        { s' with mem := storeLe 4 (a + 4) (s.regs (t.rt + 1)) (storeLe 4 a (s.regs t.rt) s.mem) }
      | false, kind => { s' with mem := storeLe kind.bytes a (s.regs t.rt) s.mem }))
  else none

def State.perform (s : State) (t : Target) (pc : Word) : Insn → Option Next
  | .alu op setFlags rd rn operand => s.alu pc op setFlags rd rn operand
  | .movw rd imm =>
    if t.useArmv7 ∧ rd ≠ tcgRegPc then some (.fall (s.set rd (imm.setWidth 32))) else none
  | .movt rd imm =>
    if t.useArmv7 ∧ rd ≠ tcgRegPc then
      some (.fall (s.set rd (imm ++ (s.regs rd).setWidth 16)))
    else none
  | .extend kind rd rm =>
    if t.useArmv6 ∧ rd ≠ tcgRegPc ∧ rm ≠ tcgRegPc then
      some (.fall (s.set rd (kind.apply (s.regs rm))))
    else none
  | .transfer x => s.transfer t.arch pc x
  | .branch offset => some (.jump (pc + 8 + offset) s)
  | .branchExchange rm => if t.useArmv5t ∧ rm ≠ tcgRegPc then some (.jump (s.regs rm) s) else none

/-- The instruction with word `w` at `pc`. -/
def exec (t : Target) (pc w : Word) (s : State) : Option Next :=
  (CondCode.ofBits (w.extractLsb' 28 4)).bind fun cond => (decode w).bind fun insn =>
    if cond.passes s.flags then s.perform t pc insn else some (.fall s)

/-- The code at `pc`, up to its end or a jump. -/
def run (t : Target) : Word → List Word → State → Option Next
  | _, [], s => some (.fall s)
  | pc, w :: code, s => (exec t pc w s).bind fun
      | .fall s => run t (pc + 4) code s
      | .jump dest s => some (.jump dest s)

end TcgArm.ArmHost
