import Mathlib.Logic.Function.Iterate
import Mathlib.Tactic.Common

/-! Short vectors of the VFP data-processing instructions: how `disas_vfp_insn` reads the registers
from the word, sets up the length and the steps, and walks the elements. An element operation is
recorded by its destination and by what the operand temporaries F0 and F1 hold when it is
applied. -/

namespace TcgArm.VfpVector

open List

structure Features where
  vfp3 : Bool
  vfp4 : Bool
  fp16 : Bool
  v8 : Bool

def vfpSreg (insn : BitVec 32) (bigbit smallbit : Nat) : BitVec 5 :=
  insn.extractLsb' bigbit 4 ++ insn.extractLsb' smallbit 1

def vfpDreg (vfp3 : Bool) (insn : BitVec 32) (bigbit smallbit : Nat) : Option (BitVec 5) :=
  if vfp3 then some (insn.extractLsb' smallbit 1 ++ insn.extractLsb' bigbit 4)
  else if insn.getLsbD smallbit then none
  else some (0#1 ++ insn.extractLsb' bigbit 4)

/-- Opcode and registers of a data-processing word; for opcode 15, `rn` is the extension opcode. -/
structure Regs where
  op : Nat
  rd : Nat
  rn : Nat
  rm : Nat

def isDp (insn : BitVec 32) : Bool := insn &&& 0xf00 = 0xb00

def decode (f : Features) (insn : BitVec 32) : Option Regs := do
  let op := ((insn >>> 20 &&& 8) ||| (insn >>> 19 &&& 6) ||| (insn >>> 6 &&& 1)).toNat
  if isDp insn then
    let rn ← (if op = 15 then some (vfpSreg insn 16 7) else vfpDreg f.vfp3 insn 16 7)
    let rd ← (if op = 15 ∧ (rn = 15 ∨ rn &&& 0x1c = 0x18 ∨ rn &&& 0x1e = 6) then
        some (vfpSreg insn 12 22) else vfpDreg f.vfp3 insn 12 22)
    let rm ← (if op = 15 ∧ (rn &&& 0x1c = 0x10 ∨ rn &&& 0x14 = 0x14 ∨ rn &&& 0x1e = 4) then
        some (vfpSreg insn 0 5) else vfpDreg f.vfp3 insn 0 5)
    return ⟨op, rd.toNat, rn.toNat, rm.toNat⟩
  else
    let rn := vfpSreg insn 16 7
    let rd ← (if op = 15 ∧ rn = 15 then vfpDreg f.vfp3 insn 12 22
      else some (vfpSreg insn 12 22))
    return ⟨op, rd.toNat, rn.toNat, (vfpSreg insn 0 5).toNat⟩

def defined (f : Features) (dp : Bool) (r : Regs) : Bool :=
  if r.op = 15 then
    if r.rn < 4 then true
    else if r.rn < 8 then f.fp16 && (!dp || f.v8)
    else if r.rn < 18 || (24 ≤ r.rn && r.rn < 28) then true
    else 20 ≤ r.rn && f.vfp3
  else if r.op = 9 then false
  else if r.op = 14 then f.vfp3
  else r.op < 10 || f.vfp4

structure Setup where
  veclen : Nat
  bankMask : Nat
  deltaD : Nat
  deltaM : Nat

def setup (dp : Bool) (vecLen vecStride : Nat) (r : Regs) : Setup :=
  let veclen := if r.op = 15 ∧ 3 < r.rn then 0 else vecLen
  if 0 < veclen then
    let bankMask := if dp then 0xc else 0x18
    if r.rd &&& bankMask = 0 then ⟨0, bankMask, 0, 0⟩
    else
      let deltaD := if dp then vecStride / 2 + 1 else vecStride + 1
      ⟨veclen, bankMask, deltaD, if r.rm &&& bankMask = 0 then 0 else deltaD⟩
  else ⟨0, 0, 0, 0⟩

/-- What a temporary holds: a register's value, a constant or nothing that is read, or what the
element operation before left in it. -/
inductive Src
  | reg (r : Nat)
  | const
  | result
  deriving DecidableEq

structure Element where
  dest : Nat
  f0 : Src
  f1 : Src
  deriving DecidableEq

def loads (r : Regs) : Src × Src :=
  if r.op = 15 then
    if r.rn = 8 ∨ r.rn = 9 then (.reg r.rd, .reg r.rm)
    else if r.rn = 10 ∨ r.rn = 11 ∨ 20 ≤ r.rn ∧ (r.rn < 24 ∨ 28 ≤ r.rn) then (.reg r.rd, .const)
    else (.reg r.rm, .const)
  else (.reg r.rn, .reg r.rm)

def nextReg (bankMask delta r : Nat) : Nat :=
  ((r + delta) &&& (bankMask - 1)) ||| (r &&& bankMask)

/-- VMLA, VMLS, VNMLS and VNMLA leave the product, or its negation, in F1. -/
def f1After (op : Nat) (f1 : Src) : Src :=
  if op < 4 then .result else f1

@[simp] theorem f1After_f1After (op : Nat) (f1 : Src) :
    f1After op (f1After op f1) = f1After op f1 := by
  by_cases hop : op < 4 <;> simp [f1After, hop]

/-- The operation applied; the constant of opcode 14 takes nothing from F0 and F1. -/
def calculation (op rd : Nat) (f0 f1 : Src) : Element :=
  if op = 14 then ⟨rd, .const, .const⟩ else ⟨rd, f0, f1⟩

def oneMany (v : Setup) (f0 f1 : Src) : Nat → Nat → List Element
  | 0, _ => []
  | veclen + 1, rd =>
    let rd := nextReg v.bankMask v.deltaD rd
    ⟨rd, f0, f1⟩ :: oneMany v f0 f1 veclen rd

def elements (v : Setup) (op : Nat) : Nat → Nat → Nat → Nat → Src → Src → List Element
  | 0, rd, _, _, f0, f1 => [calculation op rd f0 f1]
  | veclen + 1, rd, rn, rm, f0, f1 =>
    calculation op rd f0 f1 ::
      if op = 15 ∧ v.deltaM = 0 then oneMany v f0 f1 (veclen + 1) rd
      else
        let rd := nextReg v.bankMask v.deltaD rd
        if op = 15 then
          let rm := nextReg v.bankMask v.deltaM rm
          elements v op veclen rd rn rm (.reg rm) f1
        else
          let rn := nextReg v.bankMask v.deltaD rn
          if v.deltaM = 0 then elements v op veclen rd rn rm (.reg rn) (f1After op f1)
          else
            let rm := nextReg v.bankMask v.deltaM rm
            elements v op veclen rd rn rm (.reg rn) (.reg rm)

/-- The element operations generated for a word; none when the word is undefined. -/
def disasVfpInsn (f : Features) (vecLen vecStride : Nat) (insn : BitVec 32) :
    Option (List Element) := do
  let r ← decode f insn
  if defined f (isDp insn) r then
    let v := setup (isDp insn) vecLen vecStride r
    return elements v r.op v.veclen r.rd r.rn r.rm (loads r).1 (loads r).2
  else none

/-- The two strides the architecture has, with their encoding in FPSCR. -/
inductive Stride
  | one
  | two

def Stride.field : Stride → Nat
  | .one => 0
  | .two => 3

def Stride.regs : Stride → Nat
  | .one => 1
  | .two => 2

def bankSize (dp : Bool) : Nat := if dp then 4 else 8

/-- Registers s0–s7, d0–d3 and d16–d19 are scalars. -/
def scalarBank (dp : Bool) (r : Nat) : Bool := if dp then r % 16 < 4 else r < 8

/-- Register of element `i` of the vector that starts at `r`, in the bank of `r`. -/
def archReg (dp : Bool) (stride : Stride) (r i : Nat) : Nat :=
  r / bankSize dp * bankSize dp + (r % bankSize dp + i * stride.regs) % bankSize dp

/-- Element `i` of the architecture's definition; a second operand in a scalar bank stays. -/
def archElement (dp : Bool) (stride : Stride) (r : Regs) (i : Nat) : Element :=
  let m := if scalarBank dp r.rm then r.rm else archReg dp stride r.rm i
  calculation r.op (archReg dp stride r.rd i)
    (.reg (if r.op = 15 then m else archReg dp stride r.rn i))
    (if r.op = 15 then .const else .reg m)

/-- Vector operations: arithmetic, copies and roots whose destination is in a vector bank. -/
def Vector (dp : Bool) (len : Nat) (r : Regs) : Prop :=
  0 < len ∧ ¬ (r.op = 15 ∧ 3 < r.rn) ∧ scalarBank dp r.rd = false

instance (dp : Bool) (len : Nat) (r : Regs) : Decidable (Vector dp len r) :=
  inferInstanceAs (Decidable (_ ∧ _ ∧ _))

/-- The element operations the architecture applies; a word that is no vector operation is one
operation on the registers it names. -/
def archElements (dp : Bool) (len : Nat) (stride : Stride) (r : Regs) : List Element :=
  if Vector dp len r then (List.range (len + 1)).map (archElement dp stride r)
  else [calculation r.op r.rd (loads r).1 (loads r).2]

/-- A vector of `len + 1` registers from `r` that the walk follows: of doubles, one below d16 that
does not run past d7; of singles, one of stride one that does not run past s15. -/
def WalkRight (dp : Bool) (stride : Stride) (len r : Nat) : Prop :=
  if dp then r < 16 ∧ (r / 4 = 1 → r + len * stride.regs < 8)
  else stride.regs = 1 ∧ (r / 8 = 1 → r + len < 16)

instance (dp : Bool) (stride : Stride) (len r : Nat) : Decidable (WalkRight dp stride len r) :=
  inferInstanceAs (Decidable (if dp then _ else _))

/-- The words whose elements come out right: each vector is followed, and a scalar second operand
is not one of a multiplication that accumulates. -/
def Followed (dp : Bool) (len : Nat) (stride : Stride) (r : Regs) : Prop :=
  WalkRight dp stride len r.rd ∧ (r.op ≠ 14 → (r.op ≠ 15 → WalkRight dp stride len r.rn) ∧
    if scalarBank dp r.rm then 4 ≤ r.op else WalkRight dp stride len r.rm)

section Walk

variable (v : Setup) (op : Nat)

def visit (rd rn rm : Nat) (f0 f1 : Src) : Nat → Element
  | 0 => calculation op rd f0 f1
  | i + 1 =>
    let d := (nextReg v.bankMask v.deltaD)^[i + 1] rd
    let m := (nextReg v.bankMask v.deltaM)^[i + 1] rm
    if op = 15 then ⟨d, if v.deltaM = 0 then f0 else .reg m, f1⟩
    else calculation op d (.reg ((nextReg v.bankMask v.deltaD)^[i + 1] rn))
      (if v.deltaM = 0 then f1After op f1 else .reg m)

theorem oneMany_eq (f0 f1 : Src) (n rd : Nat) : oneMany v f0 f1 n rd =
    (range n).map fun i => ⟨(nextReg v.bankMask v.deltaD)^[i + 1] rd, f0, f1⟩ := by
  induction n generalizing rd with
  | zero => rfl
  | succ n ih =>
    rw [oneMany, ih, range_succ_eq_map, map_cons, map_map]
    rfl

theorem elements_eq (n rd rn rm : Nat) (f0 f1 : Src) :
    elements v op n rd rn rm f0 f1 = (range (n + 1)).map (visit v op rd rn rm f0 f1) := by
  induction n generalizing rd rn rm f0 f1 with
  | zero => rfl
  | succ n ih =>
    rw [range_succ_eq_map, map_cons, map_map, elements]
    congr 1
    by_cases hop : op = 15
    · by_cases hm : v.deltaM = 0
      · rw [if_pos ⟨hop, hm⟩, oneMany_eq]
        simp [visit, hop, hm, Function.comp_def]
      · rw [if_neg (by simp [hm]), if_pos hop, ih]
        refine map_congr_left fun i _ => ?_
        cases i <;> simp [visit, hop, hm, calculation]
    · rw [if_neg (by simp [hop]), if_neg hop]
      split <;> rename_i hm <;> rw [ih] <;> refine map_congr_left fun i _ => ?_ <;>
        cases i <;> simp [visit, hop, hm]

end Walk

theorem walk_iff : ∀ (dp : Bool) (stride : Stride), ∀ r < 32, ∀ len < 8, 0 < len →
    ((∀ i < len + 1, (nextReg (if dp then 0xc else 0x18)
      (if dp then stride.field / 2 + 1 else stride.field + 1))^[i] r = archReg dp stride r i) ↔
      WalkRight dp stride len r) := by
  intro dp stride
  cases dp <;> cases stride <;> decide +kernel

theorem and_bankMask : ∀ (dp : Bool), ∀ r < 32,
    (r &&& (if dp then 0xc else 0x18) = 0 ↔ scalarBank dp r = true) := by
  decide

variable {r : Regs}

theorem visit_eq (v : Setup) (hext : ¬ (r.op = 15 ∧ 3 < r.rn)) (i : Nat) :
    let m := if v.deltaM = 0 then r.rm else (nextReg v.bankMask v.deltaM)^[i] r.rm
    visit v r.op r.rd r.rn r.rm (loads r).1 (loads r).2 i =
      calculation r.op ((nextReg v.bankMask v.deltaD)^[i] r.rd)
        (.reg (if r.op = 15 then m else (nextReg v.bankMask v.deltaD)^[i] r.rn))
        (if r.op = 15 then .const
          else if v.deltaM = 0 ∧ 0 < i then f1After r.op (.reg m) else .reg m) := by
  by_cases h15 : r.op = 15
  · have hrn : r.rn ≤ 3 := by omega
    have hloads : loads r = (.reg r.rm, .const) := by
      rw [loads, if_pos h15, if_neg (by omega), if_neg (by omega)]
    cases i <;> by_cases hm : v.deltaM = 0 <;> simp [visit, hloads, h15, hm, calculation]
  · cases i <;> by_cases hm : v.deltaM = 0 <;> simp [visit, loads, h15, hm]

variable {dp : Bool} {len : Nat}

theorem visits_iff {stride : Stride} (hlen : 0 < len) (hlen8 : len < 8) (hd : r.rd < 32)
    (hn : r.rn < 32) (hm : r.rm < 32) (hext : ¬ (r.op = 15 ∧ 3 < r.rn)) (v : Setup)
    (hmask : v.bankMask = if dp then 0xc else 0x18)
    (hdelta : v.deltaD = if dp then stride.field / 2 + 1 else stride.field + 1)
    (hdeltaM : v.deltaM = if scalarBank dp r.rm then 0 else v.deltaD) :
    (∀ i < len + 1, visit v r.op r.rd r.rn r.rm (loads r).1 (loads r).2 i =
      archElement dp stride r i) ↔ Followed dp len stride r := by
  have hpos : v.deltaD ≠ 0 := by rw [hdelta]; split <;> omega
  have walk : ∀ x < 32, (∀ i < len + 1, (nextReg v.bankMask v.deltaD)^[i] x =
      archReg dp stride x i) ↔ WalkRight dp stride len x := fun x hx => by
    rw [hmask, hdelta, walk_iff dp stride x hx len hlen8 hlen]
  rw [Followed, ← walk _ hd, ← walk _ hn, ← walk _ hm]
  simp only [visit_eq v hext, archElement, Nat.lt_add_one_iff]
  by_cases h14 : r.op = 14
  · simp [h14, calculation]
  by_cases hs : scalarBank dp r.rm = true
  · rw [if_pos hs] at hdeltaM
    by_cases h15 : r.op = 15
    · simp [hs, h15, calculation, hdeltaM]
    · -- the second element already finds the product in F1
      have hf1 : (∀ i ≤ len, 0 < i → f1After r.op (.reg r.rm) = .reg r.rm) ↔ 4 ≤ r.op := by
        constructor
        · intro h
          simpa [f1After] using h 1 (by omega) (by omega)
        · intro h i _ _
          exact if_neg (by omega)
      simp [hs, h14, h15, calculation, hdeltaM, forall_and, hf1]
  · rw [if_neg hs] at hdeltaM
    by_cases h15 : r.op = 15
    · simp [hs, h15, calculation, hdeltaM, hpos, forall_and]
    · simp [hs, h14, h15, calculation, hdeltaM, hpos, forall_and]

theorem decode_lt {f : Features} {insn : BitVec 32} (h : decode f insn = some r) :
    r.rd < 32 ∧ r.rn < 32 ∧ r.rm < 32 := by
  simp only [decode, Option.bind_eq_bind, Option.pure_def] at h
  split at h <;> simp only [Option.bind_eq_some_iff, Option.some.injEq] at h
  · obtain ⟨rn, -, rd, -, rm, -, rfl⟩ := h
    exact ⟨rd.isLt, rn.isLt, rm.isLt⟩
  · obtain ⟨rd, -, rfl⟩ := h
    exact ⟨rd.isLt, BitVec.isLt _, BitVec.isLt _⟩

theorem setup_of_vector (stride : Nat) (hv : Vector dp len r) (hd : r.rd < 32) (hm : r.rm < 32) :
    let delta := if dp then stride / 2 + 1 else stride + 1
    setup dp len stride r = ⟨len, if dp then 0xc else 0x18, delta,
      if scalarBank dp r.rm then 0 else delta⟩ := by
  have hrd : ¬ r.rd &&& (if dp then 0xc else 0x18) = 0 := by
    rw [and_bankMask _ _ hd, hv.2.2]
    simp
  simp only [setup, if_neg hv.2.1, if_pos hv.1, if_neg hrd, and_bankMask _ _ hm]

theorem setup_of_not_vector (stride : Nat) (hv : ¬ Vector dp len r) (hd : r.rd < 32) :
    (setup dp len stride r).veclen = 0 := by
  simp only [setup, and_bankMask _ _ hd]
  by_cases hext : r.op = 15 ∧ 3 < r.rn
  · simp [hext]
  · by_cases hlen : 0 < len
    · have hrd : scalarBank dp r.rd = true := by
        by_contra hrd
        exact hv ⟨hlen, hext, by simpa using hrd⟩
      simp [hext, hlen, hrd]
    · simp [hext, hlen]

/-- The elements of an accepted word are those of the architecture exactly when the walk follows
each of its vectors and no scalar is lost to an accumulating multiplication. -/
theorem short_vector_elements (f : Features) (len : Fin 8) (stride : Stride) (insn : BitVec 32)
    (r : Regs) (hdecode : decode f insn = some r) (hdefined : defined f (isDp insn) r = true) :
    disasVfpInsn f len stride.field insn = some (archElements (isDp insn) len stride r) ↔
      (Vector (isDp insn) len r → Followed (isDp insn) len stride r) := by
  obtain ⟨hd, hn, hm⟩ := decode_lt hdecode
  simp only [disasVfpInsn, hdecode, Option.bind_eq_bind, Option.bind_some, hdefined, if_true,
    Option.pure_def, Option.some.injEq, archElements]
  by_cases hv : Vector (isDp insn) len r
  · rw [if_pos hv, setup_of_vector _ hv hd hm, elements_eq, List.map_inj_left]
    simp only [List.mem_range, hv, true_imp_iff]
    exact visits_iff hv.1 len.isLt hd hn hm hv.2.1 _ rfl rfl rfl
  · rw [if_neg hv, setup_of_not_vector _ hv hd]
    simp [elements, hv]

def everyFeature : Features := ⟨true, true, true, true⟩

/-- `vadd.f64 d11, d11, d11` with two elements of stride one wraps to d8. -/
theorem short_vector_elements_vadd_d11 :
    Followed true 1 .one ⟨6, 11, 11, 11⟩ ∧ disasVfpInsn everyFeature 1 0 0xee3bbb0b =
      some [⟨11, .reg 11, .reg 11⟩, ⟨8, .reg 8, .reg 8⟩] :=
  have h : Followed true 1 .one ⟨6, 11, 11, 11⟩ := by simp [Followed, scalarBank]; decide
  ⟨h, (short_vector_elements everyFeature 1 .one 0xee3bbb0b ⟨6, 11, 11, 11⟩ rfl rfl).mpr fun _ => h⟩

/-- `vadd.f64 d7, d7, d7` steps from d7 to d12, in another bank, where the architecture wraps to
d4; `vadd.f32 s8, s8, s8` of stride two steps by four; and `vmla.f32 s8, s8, s0` multiplies its
second element by the first product. -/
theorem vadd_d7_leaves_bank :
    disasVfpInsn everyFeature 1 0 0xee377b07 =
        some [⟨7, .reg 7, .reg 7⟩, ⟨12, .reg 12, .reg 12⟩] ∧
      archElements true 1 .one ⟨6, 7, 7, 7⟩ = [⟨7, .reg 7, .reg 7⟩, ⟨4, .reg 4, .reg 4⟩] ∧
      disasVfpInsn everyFeature 1 3 0xee344a04 = some [⟨8, .reg 8, .reg 8⟩, ⟨12, .reg 12, .reg 12⟩] ∧
      disasVfpInsn everyFeature 1 0 0xee044a00 = some [⟨8, .reg 8, .reg 0⟩, ⟨9, .reg 9, .result⟩] := by
  decide +kernel

end TcgArm.VfpVector
