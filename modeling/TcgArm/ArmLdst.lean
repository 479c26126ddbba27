import TcgArm.ArmBytes
import TcgArm.ArmConst

/-! Guest memory accesses on an ARM host. `tcg_out_qemu_ld_direct` and `tcg_out_qemu_st_direct` have
the guest address in a register, the index variants add a base register to it: the scratch register
in user mode, a register from the TLB lookup otherwise. -/

namespace TcgArm.ArmHost

open ByteMemory AccessKind Falls State

/-- `opc & MO_SSIZE`. -/
inductive MemSize where
  | ub
  | sb
  | uw
  | sw
  | ul
  | sl
  | q
  deriving DecidableEq, Repr

/-- A `TCGMemOp`: size and sign, and `MO_BSWAP`, which on a little-endian host is set for big-endian
data. -/
structure HostMemOp where
  size : MemSize
  bswap : Bool
  deriving DecidableEq, Repr

def HostMemOp.bytes (op : HostMemOp) : Nat :=
  match op.size with
  | .ub | .sb => 1
  | .uw | .sw => 2
  | .ul | .sl => 4
  | .q => 8

def HostMemOp.extend (op : HostMemOp) (v : BitVec 64) : BitVec 64 :=
  match op.size with
  | .sb => ((v.setWidth 8).signExtend 32).setWidth 64
  | .sw => ((v.setWidth 16).signExtend 32).setWidth 64
  | _ => v

def HostMemOp.loaded (op : HostMemOp) (a : Word) (m : Mem 32) : BitVec 64 :=
  op.extend (load op.bswap op.bytes a m)

def HostMemOp.value (op : HostMemOp) (s : State) (datalo datahi : Reg) : BitVec 64 :=
  if op.size = .q then s.regs datahi ++ s.regs datalo else (s.regs datalo).setWidth 64

section Emitters

variable (cond : CondCode) (rt rn rm : Reg)

def tcgOutLd32R : Word := tcgOutMemopR cond (memOpc true .word false) rt rn rm true true false

def tcgOutSt32R : Word := tcgOutMemopR cond (memOpc false .word false) rt rn rm true true false

def tcgOutLdrdR : Word := tcgOutMemopR cond (memOpc true .double false) rt rn rm true true false

def tcgOutStrdR : Word := tcgOutMemopR cond (memOpc false .double false) rt rn rm true true false

def tcgOutLd32Rwb : Word := tcgOutMemopR cond (memOpc true .word false) rt rn rm true true true

def tcgOutSt32Rwb : Word := tcgOutMemopR cond (memOpc false .word false) rt rn rm true true true

def tcgOutLd16uR : Word := tcgOutMemopR cond (memOpc true .half false) rt rn rm true true false

def tcgOutSt16R : Word := tcgOutMemopR cond (memOpc false .half false) rt rn rm true true false

def tcgOutLd16sR : Word := tcgOutMemopR cond (memOpc true .shalf false) rt rn rm true true false

def tcgOutLd8R : Word := tcgOutMemopR cond (memOpc true .byte false) rt rn rm true true false

def tcgOutSt8R : Word := tcgOutMemopR cond (memOpc false .byte false) rt rn rm true true false

def tcgOutLd8sR : Word := tcgOutMemopR cond (memOpc true .sbyte false) rt rn rm true true false

variable (imm : Int)

def tcgOutLd32At : Word := tcgOutMemop12 cond (memOpc true .word true) rt rn imm true false

def tcgOutSt32At : Word := tcgOutMemop12 cond (memOpc false .word true) rt rn imm true false

def tcgOutLd8At : Word := tcgOutMemop12 cond (memOpc true .byte true) rt rn imm true false

def tcgOutSt8At : Word := tcgOutMemop12 cond (memOpc false .byte true) rt rn imm true false

def tcgOutLdrdAt : Word := tcgOutMemop8 cond (memOpc true .double true) rt rn imm true false

def tcgOutStrdAt : Word := tcgOutMemop8 cond (memOpc false .double true) rt rn imm true false

def tcgOutLd16uAt : Word := tcgOutMemop8 cond (memOpc true .half true) rt rn imm true false

def tcgOutSt16At : Word := tcgOutMemop8 cond (memOpc false .half true) rt rn imm true false

def tcgOutLd16sAt : Word := tcgOutMemop8 cond (memOpc true .shalf true) rt rn imm true false

def tcgOutLd8sAt : Word := tcgOutMemop8 cond (memOpc true .sbyte true) rt rn imm true false

end Emitters

section Swaps

variable (t : Target) (cond : CondCode) (rd rn : Reg)

def tcgOutBswap16s : List Word :=
  if t.useArmv6 then [tcgOutExtend .revsh cond rd rn]
  else
    [tcgOutDatReg cond .mov tcgRegTmp 0 rn (shiftImmBits .lsl 24),
      tcgOutDatReg cond .mov tcgRegTmp 0 tcgRegTmp (shiftImmBits .asr 16),
      tcgOutDatReg cond .orr rd tcgRegTmp rn (shiftImmBits .lsr 8)]

def tcgOutBswap16 : List Word :=
  if t.useArmv6 then [tcgOutExtend .rev16 cond rd rn]
  else
    [tcgOutDatReg cond .mov tcgRegTmp 0 rn (shiftImmBits .lsl 24),
      tcgOutDatReg cond .mov tcgRegTmp 0 tcgRegTmp (shiftImmBits .lsr 16),
      tcgOutDatReg cond .orr rd tcgRegTmp rn (shiftImmBits .lsr 8)]

def tcgOutBswap16st : List Word :=
  if t.useArmv6 then [tcgOutExtend .rev16 cond rd rn]
  else
    [tcgOutDatReg cond .mov tcgRegTmp 0 rn (shiftImmBits .lsr 8),
      tcgOutDatImm cond .and tcgRegTmp tcgRegTmp 0xff,
      tcgOutDatReg cond .orr rd tcgRegTmp rn (shiftImmBits .lsl 8)]

def tcgOutBswap32 : List Word :=
  if t.useArmv6 then [tcgOutExtend .rev cond rd rn]
  else
    [tcgOutDatReg cond .eor tcgRegTmp rn rn (shiftImmBits .ror 16),
      tcgOutDatImm cond .bic tcgRegTmp tcgRegTmp (0xff ||| 0x800),
      tcgOutDatReg cond .mov rd 0 rn (shiftImmBits .ror 8),
      tcgOutDatReg cond .eor rd rd tcgRegTmp (shiftImmBits .lsr 8)]

end Swaps

/-- The pair of registers that `ldrd` and `strd` take. They are left out in user mode, where data may
be unaligned. -/
def Paired (t : Target) (dl dh : Reg) : Prop :=
  t.softmmu = true ∧ t.useArmv6 = true ∧ dl &&& 1 = 0 ∧ dh = dl + 1

instance (t : Target) (dl dh : Reg) : Decidable (Paired t dl dh) :=
  inferInstanceAs (Decidable (_ ∧ _))

def ifSwap (bswap : Bool) (code : List Word) : List Word := if bswap then code else []

def tcgOutQemuLdIndex (t : Target) (op : HostMemOp) (datalo datahi addrlo addend : Reg) :
    List Word :=
  match op.size with
  | .ub => [tcgOutLd8R .al datalo addrlo addend]
  | .sb => [tcgOutLd8sR .al datalo addrlo addend]
  | .uw =>
    tcgOutLd16uR .al datalo addrlo addend :: ifSwap op.bswap (tcgOutBswap16 t .al datalo datalo)
  | .sw =>
    if op.bswap then
      tcgOutLd16uR .al datalo addrlo addend :: tcgOutBswap16s t .al datalo datalo
    else [tcgOutLd16sR .al datalo addrlo addend]
  | .ul | .sl =>
    tcgOutLd32R .al datalo addrlo addend :: ifSwap op.bswap (tcgOutBswap32 t .al datalo datalo)
  | .q =>
    let dl := if op.bswap then datahi else datalo
    let dh := if op.bswap then datalo else datahi
    (if Paired t dl dh then [tcgOutLdrdR .al dl addrlo addend]
      else if dl ≠ addend then
        [tcgOutLd32Rwb .al dl addend addrlo, tcgOutLd32At .al dh addend 4]
      else
        [tcgOutDatReg .al .add tcgRegTmp addend addrlo (shiftImmBits .lsl 0),
          tcgOutLd32At .al dl tcgRegTmp 0, tcgOutLd32At .al dh tcgRegTmp 4]) ++
    ifSwap op.bswap (tcgOutBswap32 t .al dl dl ++ tcgOutBswap32 t .al dh dh)

def tcgOutQemuLdDirect (t : Target) (op : HostMemOp) (datalo datahi addrlo : Reg) : List Word :=
  match op.size with
  | .ub => [tcgOutLd8At .al datalo addrlo 0]
  | .sb => [tcgOutLd8sAt .al datalo addrlo 0]
  | .uw =>
    tcgOutLd16uAt .al datalo addrlo 0 :: ifSwap op.bswap (tcgOutBswap16 t .al datalo datalo)
  | .sw =>
    if op.bswap then tcgOutLd16uAt .al datalo addrlo 0 :: tcgOutBswap16s t .al datalo datalo
    else [tcgOutLd16sAt .al datalo addrlo 0]
  | .ul | .sl =>
    tcgOutLd32At .al datalo addrlo 0 :: ifSwap op.bswap (tcgOutBswap32 t .al datalo datalo)
  | .q =>
    let dl := if op.bswap then datahi else datalo
    let dh := if op.bswap then datalo else datahi
    (if Paired t dl dh then [tcgOutLdrdAt .al dl addrlo 0]
      else if dl = addrlo then
        [tcgOutLd32At .al dh addrlo (if op.bswap then 0 else 4),
          tcgOutLd32At .al dl addrlo (if op.bswap then 4 else 0)]
      else
        [tcgOutLd32At .al dl addrlo (if op.bswap then 4 else 0),
          tcgOutLd32At .al dh addrlo (if op.bswap then 0 else 4)]) ++
    ifSwap op.bswap (tcgOutBswap32 t .al dl dl ++ tcgOutBswap32 t .al dh dh)

def tcgOutQemuStIndex (t : Target) (cond : CondCode) (op : HostMemOp)
    (datalo datahi addrlo addend : Reg) : List Word :=
  match op.size with
  | .ub | .sb => [tcgOutSt8R cond datalo addrlo addend]
  | .uw | .sw =>
    if op.bswap then
      tcgOutBswap16st t cond tcgRegR0 datalo ++ [tcgOutSt16R cond tcgRegR0 addrlo addend]
    else [tcgOutSt16R cond datalo addrlo addend]
  | .ul | .sl =>
    if op.bswap then
      tcgOutBswap32 t cond tcgRegR0 datalo ++ [tcgOutSt32R cond tcgRegR0 addrlo addend]
    else [tcgOutSt32R cond datalo addrlo addend]
  | .q =>
    if op.bswap then
      tcgOutBswap32 t cond tcgRegR0 datahi ++ [tcgOutSt32Rwb cond tcgRegR0 addend addrlo] ++
        (tcgOutBswap32 t cond tcgRegR0 datalo ++ [tcgOutSt32At cond tcgRegR0 addend 4])
    else if Paired t datalo datahi then [tcgOutStrdR cond datalo addrlo addend]
    else [tcgOutSt32Rwb cond datalo addend addrlo, tcgOutSt32At cond datahi addend 4]

def tcgOutQemuStDirect (t : Target) (op : HostMemOp) (datalo datahi addrlo : Reg) : List Word :=
  match op.size with
  | .ub | .sb => [tcgOutSt8At .al datalo addrlo 0]
  | .uw | .sw =>
    if op.bswap then
      tcgOutBswap16st t .al tcgRegR0 datalo ++ [tcgOutSt16At .al tcgRegR0 addrlo 0]
    else [tcgOutSt16At .al datalo addrlo 0]
  | .ul | .sl =>
    if op.bswap then
      tcgOutBswap32 t .al tcgRegR0 datalo ++ [tcgOutSt32At .al tcgRegR0 addrlo 0]
    else [tcgOutSt32At .al datalo addrlo 0]
  | .q =>
    if op.bswap then
      tcgOutBswap32 t .al tcgRegR0 datahi ++ [tcgOutSt32At .al tcgRegR0 addrlo 0] ++
        (tcgOutBswap32 t .al tcgRegR0 datalo ++ [tcgOutSt32At .al tcgRegR0 addrlo 4])
    else if Paired t datalo datahi then [tcgOutStrdAt .al datalo addrlo 0]
    else [tcgOutSt32At .al datalo addrlo 0, tcgOutSt32At .al datahi addrlo 4]

@[simp] theorem State.set_mem (s : State) (r : Reg) (v : Word) : (s.set r v).mem = s.mem := rfl

theorem State.set_regs_of_ne (s : State) {r r' : Reg} (v : Word) (h : r' ≠ r) :
    (s.set r v).regs r' = s.regs r' := by
  simp [set, h]

theorem State.read_of_ne (s : State) (pc : Word) {r : Reg} (h : r ≠ tcgRegPc) :
    s.read pc r = s.regs r := if_neg h

def Offset.value (s : State) : Offset → Word
  | .imm val => val
  | .reg rm => s.regs rm

section Access

variable {t : Target} {cond : CondCode} {w : Word} {kind : AccessKind} {rt rn : Reg}
  {offset : Offset} {s : State}

theorem address_eq {load writeback : Bool} (hrn : rn ≠ tcgRegPc) (hoff : ¬ offset.Uses tcgRegPc)
    (s : State) (pc : Word) :
    s.address pc ⟨load, kind, rt, rn, offset, true, writeback⟩ = s.regs rn + offset.value s := by
  cases offset with
  | imm val => simp [address, read_of_ne _ _ hrn, Offset.value]
  | reg rm => simp [address, read_of_ne _ _ hrn, read_of_ne _ _ hoff, Offset.value]

theorem exec_load (h : Encodes w cond (transferOf true kind rt rn offset true false))
    (hpass : cond.passes s.flags = true) (hkind : kind ≠ .double) (hrt : rt ≠ tcgRegPc)
    (hrn : rn ≠ tcgRegPc) (hoff : ¬ offset.Uses tcgRegPc) (pc : Word) :
    exec t pc w s = some (.fall (s.set rt (kind.fetch (s.regs rn + offset.value s) s.mem))) := by
  have hdef : Transfer.Defined t.arch ⟨true, kind, rt, rn, offset, true, false⟩ :=
    ⟨hrt, hoff, by simp, fun hd => absurd hd hkind⟩
  rw [h.exec_eq, if_pos hpass, transferOf, perform, transfer, if_pos hdef, address_eq hrn hoff]
  cases kind <;> first | rfl | exact absurd rfl hkind

theorem exec_store (h : Encodes w cond (transferOf false kind rt rn offset true false))
    (hpass : cond.passes s.flags = true) (hkind : kind ≠ .double) (hrt : rt ≠ tcgRegPc)
    (hrn : rn ≠ tcgRegPc) (hoff : ¬ offset.Uses tcgRegPc) (pc : Word) :
    exec t pc w s = some (.fall { s with
      mem := storeLe kind.bytes (s.regs rn + offset.value s) (s.regs rt) s.mem }) := by
  have hdef : Transfer.Defined t.arch ⟨false, kind, rt, rn, offset, true, false⟩ :=
    ⟨hrt, hoff, by simp, fun hd => absurd hd hkind⟩
  rw [h.exec_eq, if_pos hpass, transferOf, perform, transfer, if_pos hdef, address_eq hrn hoff]
  cases kind <;> first | rfl | exact absurd rfl hkind

variable {dl dh rm : Reg}

theorem exec_load_writeback (h : Encodes w cond (transferOf true .word rt rn (.reg rm) true true))
    (hpass : cond.passes s.flags = true) (hrt : rt ≠ tcgRegPc) (hrn : rn ≠ tcgRegPc)
    (hrm : rm ≠ tcgRegPc) (hdata : rn ≠ rt) (hindex : rm ≠ rn) (pc : Word) :
    exec t pc w s = some (.fall ((s.set rn (s.regs rn + s.regs rm)).set rt
      (loadLe 4 (s.regs rn + s.regs rm) s.mem))) := by
  have hdef : Transfer.Defined t.arch ⟨true, .word, rt, rn, .reg rm, true, true⟩ :=
    ⟨hrt, hrm, fun _ => ⟨hrn, hdata, fun _ => hindex⟩, by simp⟩
  rw [h.exec_eq, if_pos hpass, transferOf, perform, transfer, if_pos hdef,
    address_eq hrn (show ¬ Offset.Uses tcgRegPc (.reg rm) from hrm)]
  rfl

theorem exec_store_writeback
    (h : Encodes w cond (transferOf false .word rt rn (.reg rm) true true))
    (hpass : cond.passes s.flags = true) (hrt : rt ≠ tcgRegPc) (hrn : rn ≠ tcgRegPc)
    (hrm : rm ≠ tcgRegPc) (hdata : rn ≠ rt) (hindex : rm ≠ rn) (pc : Word) :
    exec t pc w s = some (.fall { s.set rn (s.regs rn + s.regs rm) with
      mem := storeLe 4 (s.regs rn + s.regs rm) (s.regs rt) s.mem }) := by
  have hdef : Transfer.Defined t.arch ⟨false, .word, rt, rn, .reg rm, true, true⟩ :=
    ⟨hrt, hrm, fun _ => ⟨hrn, hdata, fun _ => hindex⟩, by simp⟩
  rw [h.exec_eq, if_pos hpass, transferOf, perform, transfer, if_pos hdef,
    address_eq hrn (show ¬ Offset.Uses tcgRegPc (.reg rm) from hrm)]
  rfl

theorem Paired.even (h : Paired t dl dh) : dl.extractLsb' 0 1 = 0 := by
  have heven : dl &&& 1 = 0 := h.2.2.1
  revert heven
  exact (by decide : ∀ r : Reg, r &&& 1 = 0 → r.extractLsb' 0 1 = 0) dl

theorem exec_load_double (h : Encodes w cond (transferOf true .double dl rn offset true false))
    (hpass : cond.passes s.flags = true) (hpair : Paired t dl dh) (hdl : dl ≠ tcgRegPc)
    (hdh : dh ≠ tcgRegPc) (hrn : rn ≠ tcgRegPc) (hoff : ¬ offset.Uses tcgRegPc)
    (hlow : ¬ offset.Uses dl) (hhigh : ¬ offset.Uses dh) (pc : Word) :
    exec t pc w s = some (.fall ((s.set dl (loadLe 4 (s.regs rn + offset.value s) s.mem)).set dh
      (loadLe 4 (s.regs rn + offset.value s + 4) s.mem))) := by
  have hnext : dh = dl + 1 := hpair.2.2.2
  subst hnext
  have hdef : Transfer.Defined t.arch ⟨true, .double, dl, rn, offset, true, false⟩ :=
    ⟨hdl, hoff, by simp, fun _ => ⟨hpair.even, hdh, fun _ => ⟨hlow, hhigh⟩, by simp⟩⟩
  rw [h.exec_eq, if_pos hpass, transferOf, perform, transfer, if_pos hdef, address_eq hrn hoff]
  rfl

theorem exec_load_double_none
    (h : Encodes w cond (transferOf true .double dl rn (.reg rm) true false))
    (hpass : cond.passes s.flags = true) (hpair : Paired t dl dh) (hrm : rm = dl ∨ rm = dh)
    (pc : Word) : exec t pc w s = none := by
  have hnext : dh = dl + 1 := hpair.2.2.2
  subst hnext
  have hdef : ¬ Transfer.Defined t.arch ⟨true, .double, dl, rn, .reg rm, true, false⟩ :=
    fun hdef => hrm.elim ((hdef.2.2.2 rfl).2.2.1 rfl).1 ((hdef.2.2.2 rfl).2.2.1 rfl).2
  rw [h.exec_eq, if_pos hpass, transferOf, perform, transfer, if_neg hdef]

theorem exec_store_double (h : Encodes w cond (transferOf false .double dl rn offset true false))
    (hpass : cond.passes s.flags = true) (hpair : Paired t dl dh) (hdl : dl ≠ tcgRegPc)
    (hdh : dh ≠ tcgRegPc) (hrn : rn ≠ tcgRegPc) (hoff : ¬ offset.Uses tcgRegPc) (pc : Word) :
    exec t pc w s = some (.fall { s with
      mem := store false 8 (s.regs rn + offset.value s) (s.regs dh ++ s.regs dl) s.mem }) := by
  have hnext : dh = dl + 1 := hpair.2.2.2
  subst hnext
  have hdef : Transfer.Defined t.arch ⟨false, .double, dl, rn, offset, true, false⟩ :=
    ⟨hdl, hoff, by simp, fun _ => ⟨hpair.even, hdh, by simp, by simp⟩⟩
  rw [h.exec_eq, if_pos hpass, transferOf, perform, transfer, if_pos hdef, address_eq hrn hoff, ← store_eight]
  rfl

end Access

section Swapping

variable {t : Target} {cond : CondCode} {rd rn : Reg} {s : State}

variable {v : Word} {op : AluOp}

theorem exec_dat_reg {rm : Reg} {kind : ShiftKind} {im : BitVec 5}
    (hpass : cond.passes s.flags = true) (hcmp : op.compares = false) (hrd : rd ≠ tcgRegPc)
    (hrn : rn ≠ tcgRegPc) (hrm : rm ≠ tcgRegPc)
    (hv : op.logical (s.regs rn) (shiftImm s.flags.c (s.regs rm) kind im) = some v) (pc : Word) :
    exec t pc (tcgOutDatReg cond op rd rn rm (shiftImmBits kind im)) s = some (.fall (s.set rd v)) := by
  rw [(encodes_tcgOutDatReg op rd rn rm kind im).exec_eq, if_pos hpass, perform, alu, compute]
  simp only [operand, read_of_ne _ _ hrn, read_of_ne _ _ hrm, hv, hcmp,
    Bool.false_eq_true, if_false, put_eq hrd]

theorem exec_dat_imm (imm12 : BitVec 12) (hpass : cond.passes s.flags = true)
    (hcmp : op.compares = false) (hrd : rd ≠ tcgRegPc) (hrn : rn ≠ tcgRegPc)
    (hv : op.logical (s.regs rn) (expandImm imm12) = some v) (pc : Word) :
    exec t pc (tcgOutDatImm cond op rd rn (placed imm12 0)) s = some (.fall (s.set rd v)) := by
  rw [(encodes_tcgOutDatImm op rd rn imm12).exec_eq, if_pos hpass, perform, alu, compute]
  simp only [operand, read_of_ne _ _ hrn, hv, hcmp, Bool.false_eq_true, if_false, put_eq hrd]

theorem exec_extend {kind : ExtendKind} (hpass : cond.passes s.flags = true)
    (hv6 : t.useArmv6 = true) (hrd : rd ≠ tcgRegPc) (hrn : rn ≠ tcgRegPc) (pc : Word) :
    exec t pc (tcgOutExtend kind cond rd rn) s = some (.fall (s.set rd (kind.apply (s.regs rn)))) := by
  rw [(encodes_tcgOutExtend kind rd rn).exec_eq, if_pos hpass, perform, if_pos ⟨hv6, hrd, hrn⟩]

/-- The code leaves the value in `rd`. Before ARMv6 it goes through the scratch register. -/
def Leaves (t : Target) (code : List Word) (s : State) (rd : Reg) (v : Word) : Prop :=
  ∃ x, (t.useArmv6 = true → x = s.regs tcgRegTmp) ∧ Falls t code s ((s.set tcgRegTmp x).set rd v)

theorem leaves_one {w : Word} (h : ∀ pc, exec t pc w s = some (.fall (s.set rd v))) :
    Leaves t [w] s rd v := by
  have hsame : s.set tcgRegTmp (s.regs tcgRegTmp) = s := by simp [State.set]
  refine ⟨s.regs tcgRegTmp, fun _ => rfl, ?_⟩
  rw [hsame]
  exact cons h nil

theorem leaves_cons {w x : Word} {code : List Word} (hrd : rd ≠ tcgRegTmp)
    (h : ∀ pc, exec t pc w s = some (.fall (s.set rd x))) (hrest : Leaves t code (s.set rd x) rd v) :
    Leaves t (w :: code) s rd v := by
  obtain ⟨y, hy, hfalls⟩ := hrest
  refine ⟨y, fun hv6 => (hy hv6).trans (s.set_regs_of_ne x hrd.symm), cons h ?_⟩
  have hcomm : ((s.set rd x).set tcgRegTmp y).set rd v = (s.set tcgRegTmp y).set rd v := by
    simp only [State.set, Function.update_comm hrd, Function.update_idem]
  rwa [← hcomm]

theorem leaves_extend (kind : ExtendKind) (hpass : cond.passes s.flags = true)
    (hv6 : t.useArmv6 = true) (hrd : rd ≠ tcgRegPc) (hrn : rn ≠ tcgRegPc) :
    Leaves t [tcgOutExtend kind cond rd rn] s rd (kind.apply (s.regs rn)) :=
  leaves_one (exec_extend hpass hv6 hrd hrn)

theorem falls_bswap32_rotations (hpass : cond.passes s.flags = true) (hrd : rd ≠ tcgRegPc)
    (hrn : rn ≠ tcgRegPc) (hrdTmp : rd ≠ tcgRegTmp) (hrnTmp : rn ≠ tcgRegTmp) (hv6 : ¬ t.useArmv6 = true) :
    Falls t (tcgOutBswap32 t cond rd rn) s
      ((s.set tcgRegTmp ((s.regs rn ^^^ (s.regs rn).rotateRight 16) &&& ~~~ (0x00ff0000 : Word))).set
        rd (swapBytes 4 (s.regs rn))) := by
  have hmask : expandImm 0x8ff = 0x00ff0000 := by decide
  rw [tcgOutBswap32, if_neg hv6]
  refine cons (exec_dat_reg hpass rfl (by decide) hrn hrn rfl) ?_
  refine cons (exec_dat_imm 0x8ff hpass rfl (by decide) (by decide) rfl) ?_
  refine cons (exec_dat_reg hpass rfl hrd (by decide) hrn rfl) ?_
  refine cons (exec_dat_reg hpass rfl hrd hrd (by decide) rfl) ?_
  convert nil using 1
  simp only [shiftImm, set_set, set_regs, set_regs_of_ne _ _ hrnTmp, set_regs_of_ne _ _ hrdTmp.symm, hmask]
  exact congrArg _ (reverse_by_rotations (s.regs rn)).symm

theorem leaves_bswap32 (hpass : cond.passes s.flags = true) (hrd : rd ≠ tcgRegPc)
    (hrn : rn ≠ tcgRegPc) (hrdTmp : rd ≠ tcgRegTmp) (hrnTmp : rn ≠ tcgRegTmp) :
    Leaves t (tcgOutBswap32 t cond rd rn) s rd (swapBytes 4 (s.regs rn)) := by
  by_cases hv6 : t.useArmv6 = true
  · rw [tcgOutBswap32, if_pos hv6, ← reverseBytes_eq]
    exact leaves_extend .rev hpass hv6 hrd hrn
  · exact ⟨_, fun h => absurd h hv6, falls_bswap32_rotations hpass hrd hrn hrdTmp hrnTmp hv6⟩

def Half (x : Word) : Prop := ∀ i, 16 ≤ i → x.getLsbD i = false

section

variable (hpass : cond.passes s.flags = true) (hrd : rd ≠ tcgRegPc) (hrn : rn ≠ tcgRegPc)
    (hrnTmp : rn ≠ tcgRegTmp)
include hpass hrd hrn hrnTmp

theorem leaves_bswap16 (hhalf : Half (s.regs rn)) :
    Leaves t (tcgOutBswap16 t cond rd rn) s rd (swapBytes 2 (s.regs rn)) := by
  rw [tcgOutBswap16]
  split
  · rename_i hv6
    rw [← rev16_of_half hhalf]
    exact leaves_extend .rev16 hpass hv6 hrd hrn
  · rename_i hv6
    refine ⟨(s.regs rn <<< 24) >>> 16, fun h => absurd h hv6, ?_⟩
    refine cons (exec_dat_reg hpass rfl (by decide) (by decide) hrn rfl) ?_
    refine cons (exec_dat_reg hpass rfl (by decide) (by decide) (by decide) rfl) ?_
    refine cons (exec_dat_reg hpass rfl hrd (by decide) hrn rfl) ?_
    convert nil using 1
    simp only [shiftImm, set_set, set_regs, set_regs_of_ne _ _ hrnTmp]
    exact congrArg _ (swap_half_by_shifts hhalf).symm

theorem leaves_bswap16s (hhalf : Half (s.regs rn)) :
    Leaves t (tcgOutBswap16s t cond rd rn) s rd (((swapBytes 2 (s.regs rn)).setWidth 16).signExtend 32) := by
  rw [tcgOutBswap16s]
  split
  · rename_i hv6
    rw [← revsh_eq]
    exact leaves_extend .revsh hpass hv6 hrd hrn
  · rename_i hv6
    refine ⟨(s.regs rn <<< 24).sshiftRight 16, fun h => absurd h hv6, ?_⟩
    refine cons (exec_dat_reg hpass rfl (by decide) (by decide) hrn rfl) ?_
    refine cons (exec_dat_reg hpass rfl (by decide) (by decide) (by decide) rfl) ?_
    refine cons (exec_dat_reg hpass rfl hrd (by decide) hrn rfl) ?_
    convert nil using 1
    simp only [shiftImm, set_set, set_regs, set_regs_of_ne _ _ hrnTmp]
    exact congrArg _ (swap_signed_half_by_shifts hhalf).symm

theorem falls_bswap16st_shifts (hv6 : ¬ t.useArmv6 = true) :
    Falls t (tcgOutBswap16st t cond rd rn) s
      ((s.set tcgRegTmp ((s.regs rn >>> 8) &&& (0xff : Word))).set rd
        (((s.regs rn >>> 8) &&& (0xff : Word)) ||| (s.regs rn <<< 8))) := by
  have hmask : expandImm 0xff = 0xff := by decide
  rw [tcgOutBswap16st, if_neg hv6]
  refine cons (exec_dat_reg hpass rfl (by decide) (by decide) hrn rfl) ?_
  refine cons (exec_dat_imm 0xff hpass rfl (by decide) (by decide) rfl) ?_
  refine cons (exec_dat_reg hpass rfl hrd (by decide) hrn rfl) ?_
  convert nil using 1
  simp only [shiftImm, set_set, set_regs, set_regs_of_ne _ _ hrnTmp, hmask]
  rfl

theorem leaves_bswap16st :
    ∃ v, Leaves t (tcgOutBswap16st t cond rd rn) s rd v ∧
      ∀ j < 16, v.getLsbD j = (swapBytes 2 (s.regs rn)).getLsbD j := by
  by_cases hv6 : t.useArmv6 = true
  · rw [tcgOutBswap16st, if_pos hv6]
    exact ⟨_, leaves_extend .rev16 hpass hv6 hrd hrn, fun j => getLsbD_rev16 _⟩
  · exact ⟨_, ⟨_, fun h => absurd h hv6, falls_bswap16st_shifts hpass hrd hrn hrnTmp hv6⟩,
      fun j => getLsbD_swap_store _⟩

end

end Swapping

theorem load_narrow (big : Bool) {k : Nat} (hk : k ≤ 4) (a : Word) (m : Mem 32) :
    ((load big k a m).setWidth 32).setWidth 64 = load big k a m := by
  apply BitVec.eq_of_getLsbD_eq
  intro j hj
  rw [BitVec.getLsbD_setWidth, BitVec.getLsbD_setWidth, getLsbD_load]
  by_cases hlow : j < 8 * k
  · have hword : j < 32 := by omega
    simp [hj, hword]
  · simp [hlow]

theorem load_one (big : Bool) (a : Word) (m : Mem 32) : load big 1 a m = load false 1 a m := by
  cases big with
  | false => rfl
  | true => simp [load, gather, position]

theorem half_loadLe (a : Word) (m : Mem 32) : Half (loadLe 2 a m) := by
  intro i hi
  by_cases hword : i < 32
  · have hnot : ¬ i < 8 * 2 := by omega
    rw [getLsbD_loadLe 2 a m hword]
    simp [hnot]
  · exact BitVec.getLsbD_of_ge _ _ (by omega)

def LoadsRight (t : Target) (op : HostMemOp) (code : List Word) (s : State) (a : Word)
    (datalo datahi : Reg) : Prop :=
  ∃ s', Falls t code s s' ∧ op.value s' datalo datahi = op.loaded a s.mem

def loadOne (t : Target) (op : HostMemOp) (datalo : Reg) (word : AccessKind → Word) : List Word :=
  match op.size with
  | .ub => [word .byte]
  | .sb => [word .sbyte]
  | .uw => word .half :: ifSwap op.bswap (tcgOutBswap16 t .al datalo datalo)
  | .sw => if op.bswap then word .half :: tcgOutBswap16s t .al datalo datalo else [word .shalf]
  | _ => word .word :: ifSwap op.bswap (tcgOutBswap32 t .al datalo datalo)

section Loads

variable {t : Target} {op : HostMemOp} {datalo datahi : Reg} {s : State} {a : Word}

section

variable {word : AccessKind → Word} (hq : op.size ≠ .q) (hpc : datalo ≠ tcgRegPc)
    (htmp : datalo ≠ tcgRegTmp) (hword : ∀ kind, kind ≠ .double → ∀ pc,
      exec t pc (word kind) s = some (.fall (s.set datalo (kind.fetch a s.mem))))
include hq hpc htmp hword

theorem leaves_loadOne :
    ∃ v, Leaves t (loadOne t op datalo word) s datalo v ∧ v.setWidth 64 = op.loaded a s.mem := by
  have hin : Half ((s.set datalo (loadLe 2 a s.mem)).regs datalo) := by
    rw [set_regs]
    exact half_loadLe a s.mem
  obtain ⟨size, bswap⟩ := op
  cases size <;> cases bswap
  case q.false | q.true => exact absurd rfl hq
  case ub.false | ub.true =>
    refine ⟨_, leaves_one (hword .byte (by decide)), ?_⟩
    simp only [HostMemOp.loaded, HostMemOp.extend, HostMemOp.bytes, load_one true]
    exact load_narrow false (by omega) a s.mem
  case sb.false | sb.true =>
    refine ⟨_, leaves_one (hword .sbyte (by decide)), ?_⟩
    simp [HostMemOp.loaded, HostMemOp.extend, HostMemOp.bytes, load_one true, fetch, loadLe]
  case uw.false =>
    exact ⟨_, leaves_one (hword .half (by decide)), load_narrow false (by omega) a s.mem⟩
  case uw.true =>
    refine ⟨_, leaves_cons htmp (hword .half (by decide)) (leaves_bswap16 rfl hpc hpc htmp hin), ?_⟩
    rw [set_regs, fetch, swapBytes_loadLe (by omega)]
    exact load_narrow true (by omega) a s.mem
  case sw.false =>
    refine ⟨_, leaves_one (hword .shalf (by decide)), ?_⟩
    simp [HostMemOp.loaded, HostMemOp.extend, HostMemOp.bytes, fetch, loadLe]
  case sw.true =>
    refine ⟨_, leaves_cons htmp (hword .half (by decide)) (leaves_bswap16s rfl hpc hpc htmp hin), ?_⟩
    rw [set_regs, fetch, swapBytes_loadLe (by omega)]
    simp [HostMemOp.loaded, HostMemOp.extend, HostMemOp.bytes]
  case ul.false | sl.false =>
    exact ⟨_, leaves_one (hword .word (by decide)), load_narrow false (by omega) a s.mem⟩
  case ul.true | sl.true =>
    refine ⟨_, leaves_cons htmp (hword .word (by decide)) (leaves_bswap32 rfl hpc hpc htmp htmp), ?_⟩
    rw [set_regs, fetch, swapBytes_loadLe (by omega)]
    exact load_narrow true (by omega) a s.mem

theorem loadsRight_one : LoadsRight t op (loadOne t op datalo word) s a datalo datahi := by
  obtain ⟨v, ⟨x, _, hfalls⟩, hv⟩ := leaves_loadOne hq hpc htmp hword
  refine ⟨_, hfalls, ?_⟩
  rw [HostMemOp.value, if_neg hq, set_regs, hv]

end

theorem passes_al (flags : Flags) : CondCode.al.passes flags = true := rfl

theorem falls_swap_pair {dl dh : Reg} (hdl : dl ≠ tcgRegPc) (hdlTmp : dl ≠ tcgRegTmp)
    (hdh : dh ≠ tcgRegPc) (hdhTmp : dh ≠ tcgRegTmp) (hne : dl ≠ dh) (s : State) :
    ∃ s', Falls t (tcgOutBswap32 t .al dl dl ++ tcgOutBswap32 t .al dh dh) s s' ∧
      s'.regs dl = swapBytes 4 (s.regs dl) ∧ s'.regs dh = swapBytes 4 (s.regs dh) := by
  obtain ⟨x, _, hlow⟩ := leaves_bswap32 (passes_al s.flags) hdl hdl hdlTmp hdlTmp
  set s1 := (s.set tcgRegTmp x).set dl (swapBytes 4 (s.regs dl)) with hs1
  obtain ⟨y, _, hhigh⟩ := leaves_bswap32 (passes_al s1.flags) hdh hdh hdhTmp hdhTmp
  refine ⟨_, hlow.append hhigh, ?_, ?_⟩
  · rw [set_regs_of_ne _ _ hne, set_regs_of_ne _ _ hdlTmp, hs1, set_regs]
  · rw [set_regs, hs1, set_regs_of_ne _ _ hne.symm, set_regs_of_ne _ _ hdhTmp]

theorem exec_ld32At {rt rn : Reg} {imm : Int} (h0 : 0 ≤ imm) (h1 : imm < 4096) (hrt : rt ≠ tcgRegPc)
    (hrn : rn ≠ tcgRegPc) (s : State) (pc : Word) :
    exec t pc (tcgOutLd32At .al rt rn imm) s =
      some (.fall (s.set rt (loadLe 4 (s.regs rn + BitVec.ofNat 32 imm.natAbs) s.mem))) := by
  have henc := @encodes_tcgOutMemop12 .al true .word trivial rt rn imm (by omega) false
  rw [decide_eq_true h0] at henc
  exact exec_load henc (passes_al s.flags) (by decide) hrt hrn id pc

theorem falls_two_loads {dl dh rn : Reg} {low high : Int} (hlow : 0 ≤ low ∧ low < 4096)
    (hhigh : 0 ≤ high ∧ high < 4096) (hdl : dl ≠ tcgRegPc) (hdh : dh ≠ tcgRegPc)
    (hrn : rn ≠ tcgRegPc) (hne : dl ≠ dh) (s : State) (hkept : dl ≠ rn) :
    ∃ s', Falls t [tcgOutLd32At .al dl rn low, tcgOutLd32At .al dh rn high] s s' ∧
      s'.regs dl = loadLe 4 (s.regs rn + BitVec.ofNat 32 low.natAbs) s.mem ∧
      s'.regs dh = loadLe 4 (s.regs rn + BitVec.ofNat 32 high.natAbs) s.mem := by
  refine ⟨_, cons (exec_ld32At hlow.1 hlow.2 hdl hrn s)
    (cons (exec_ld32At hhigh.1 hhigh.2 hdh hrn _) nil), ?_, ?_⟩
  · rw [set_regs_of_ne _ _ hne, set_regs]
  · rw [set_regs, set_regs_of_ne _ _ hkept.symm, set_mem]

variable {bswap : Bool}

theorem value_pair {s' : State} (hlow : s'.regs (if bswap then datahi else datalo) =
      if bswap then swapBytes 4 (loadLe 4 a s.mem) else loadLe 4 a s.mem)
    (hhigh : s'.regs (if bswap then datalo else datahi) =
      if bswap then swapBytes 4 (loadLe 4 (a + 4) s.mem) else loadLe 4 (a + 4) s.mem) :
    HostMemOp.value ⟨.q, bswap⟩ s' datalo datahi = HostMemOp.loaded ⟨.q, bswap⟩ a s.mem := by
  cases bswap with
  | false =>
    rw [HostMemOp.value, if_pos rfl]
    exact (congrArg₂ (· ++ ·) hhigh hlow).trans (load_eight a s.mem).symm
  | true =>
    rw [HostMemOp.value, if_pos rfl]
    exact (congrArg₂ (· ++ ·) hlow hhigh).trans (load_eight_big a s.mem).symm

/-- Two words in the data registers, the first one in the half that the byte order says, and their
bytes swapped if need be. -/
theorem loadsRight_pair {code : List Word} {s1 : State}
    (hlo : datalo ≠ tcgRegPc ∧ datalo ≠ tcgRegTmp) (hhi : datahi ≠ tcgRegPc ∧ datahi ≠ tcgRegTmp)
    (hne : datalo ≠ datahi) (hcode : Falls t code s s1)
    (hlow : s1.regs (if bswap then datahi else datalo) = loadLe 4 a s.mem)
    (hhigh : s1.regs (if bswap then datalo else datahi) = loadLe 4 (a + 4) s.mem) :
    LoadsRight t ⟨.q, bswap⟩ (code ++ ifSwap bswap
      (tcgOutBswap32 t .al (if bswap then datahi else datalo) (if bswap then datahi else datalo) ++
        tcgOutBswap32 t .al (if bswap then datalo else datahi) (if bswap then datalo else datahi)))
      s a datalo datahi := by
  cases bswap with
  | false => exact ⟨s1, hcode.append nil, value_pair hlow hhigh⟩
  | true =>
    obtain ⟨s', hfalls, hfirst, hsecond⟩ := falls_swap_pair hhi.1 hhi.2 hlo.1 hlo.2 hne.symm s1
    refine ⟨s', hcode.append hfalls, value_pair ?_ ?_⟩
    · exact hfirst.trans (congrArg _ hlow)
    · exact hsecond.trans (congrArg _ hhigh)

theorem exec_add {rd rn rm : Reg} (hrd : rd ≠ tcgRegPc) (hrn : rn ≠ tcgRegPc) (hrm : rm ≠ tcgRegPc)
    (s : State) (pc : Word) :
    exec t pc (tcgOutDatReg .al .add rd rn rm (shiftImmBits .lsl 0)) s =
      some (.fall (s.set rd (s.regs rn + s.regs rm))) := by
  rw [(encodes_tcgOutDatReg .add rd rn rm .lsl 0).exec_eq, if_pos (passes_al s.flags), perform, alu, compute]
  simp [AluOp.logical, AluOp.arith, AluOp.compares, operand, read_of_ne _ _ hrn,
    read_of_ne _ _ hrm, shiftImm, addWithCarry, put_eq hrd]

variable {dl dh addrlo addend : Reg}

theorem falls_index_pair (hdl : dl ≠ tcgRegPc ∧ dl ≠ tcgRegTmp) (hdh : dh ≠ tcgRegPc)
    (hne : dl ≠ dh) (haddr : addrlo ≠ tcgRegPc) (hbase : addend ≠ tcgRegPc) (hdiff : addrlo ≠ addend)
    (hok : Paired t dl dh → addend ≠ dl ∧ addend ≠ dh) (s : State) :
    ∃ s1, Falls t
        (if Paired t dl dh then [tcgOutLdrdR .al dl addrlo addend]
          else if dl ≠ addend then
            [tcgOutLd32Rwb .al dl addend addrlo, tcgOutLd32At .al dh addend 4]
          else
            [tcgOutDatReg .al .add tcgRegTmp addend addrlo (shiftImmBits .lsl 0),
              tcgOutLd32At .al dl tcgRegTmp 0, tcgOutLd32At .al dh tcgRegTmp 4]) s s1 ∧
      s1.regs dl = loadLe 4 (s.regs addrlo + s.regs addend) s.mem ∧
      s1.regs dh = loadLe 4 (s.regs addrlo + s.regs addend + 4) s.mem := by
  split
  · rename_i hpair
    obtain ⟨hlow, hhigh⟩ := hok hpair
    refine ⟨_, cons (exec_load_double (encodes_tcgOutMemopR (.inl rfl) dl addrlo addend true
      false) (passes_al s.flags) hpair hdl.1 hdh haddr hbase hlow hhigh) nil, ?_, ?_⟩
    · rw [set_regs_of_ne _ _ hne, set_regs, Offset.value]
    · rw [set_regs, Offset.value]
  split
  · rename_i hkept
    refine ⟨_, cons (exec_load_writeback (encodes_tcgOutMemopR (.inl rfl) dl addend addrlo true
      true) (passes_al s.flags) hdl.1 hbase haddr hkept.symm hdiff)
      (cons (exec_ld32At (by decide) (by decide) hdh hbase _) nil), ?_, ?_⟩
    · rw [set_regs_of_ne _ _ hne, set_regs, BitVec.add_comm]
    · rw [set_regs, set_regs_of_ne _ _ hkept.symm, set_regs, BitVec.add_comm (s.regs addend)]
      rfl
  · obtain ⟨s1, hfalls, hlow, hhigh⟩ := @falls_two_loads t dl dh tcgRegTmp 0 4 (by decide) (by decide)
      hdl.1 hdh (by decide) hne (s.set tcgRegTmp (s.regs addend + s.regs addrlo)) hdl.2
    refine ⟨s1, cons (exec_add (by decide) hbase haddr s) hfalls, ?_, ?_⟩
    · rw [hlow, set_regs, BitVec.add_comm (s.regs addend)]
      simp
    · rw [hhigh, set_regs, BitVec.add_comm (s.regs addend)]
      rfl

/-- The words at two offsets, each in its register. -/
theorem falls_direct_pair {low high : Int} (hlow : 0 ≤ low ∧ low < 4096) (hhigh : 0 ≤ high ∧ high < 4096)
    (hdl : dl ≠ tcgRegPc) (hdh : dh ≠ tcgRegPc) (haddr : addrlo ≠ tcgRegPc) (hne : dl ≠ dh) (s : State) :
    ∃ s1, Falls t
        (if dl = addrlo then [tcgOutLd32At .al dh addrlo high, tcgOutLd32At .al dl addrlo low]
          else [tcgOutLd32At .al dl addrlo low, tcgOutLd32At .al dh addrlo high]) s s1 ∧
      s1.regs dl = loadLe 4 (s.regs addrlo + BitVec.ofNat 32 low.natAbs) s.mem ∧
      s1.regs dh = loadLe 4 (s.regs addrlo + BitVec.ofNat 32 high.natAbs) s.mem := by
  split
  · rename_i heq
    obtain ⟨s1, hfalls, hfirst, hsecond⟩ :=
      @falls_two_loads t dh dl addrlo high low hhigh hlow hdh hdl haddr hne.symm s (heq ▸ hne.symm)
    exact ⟨s1, hfalls, hsecond, hfirst⟩
  · rename_i hkept
    exact falls_two_loads hlow hhigh hdl hdh haddr hne s hkept

end Loads

end TcgArm.ArmHost
