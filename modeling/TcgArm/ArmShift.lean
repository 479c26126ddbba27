import TcgArm.ArmFlags

/-! The shifter operand: the ops of `gen_arm_shift_im` and `gen_arm_shift_reg` and the helpers that
set the carry, against the shifts with carry of the architecture. -/

namespace TcgArm.Alu

open BitVec Function Nat
open Thumb (Word)

inductive Shift where
  | lsl
  | lsr
  | asr
  | ror
  deriving DecidableEq

def Shift.apply : Shift → Word → Nat → Word
  | lsl => (· <<< ·)
  | lsr => (· >>> ·)
  | asr => sshiftRight
  | ror => rotateRight

section Ops

-- What an op gives for an amount over 31 is left open.
variable (junk : Word)

@[simp] def tcgGenShifti (op : Shift) (ret arg : Var) (n : Nat) : Vars → Vars :=
  tcgGenOp1 (fun x => if n < 32 then op.apply x n else junk) ret arg

@[simp] def tcgGenShift (op : Shift) : Var → Var → Var → Vars → Vars :=
  tcgGenOp2 fun x n => if n.toNat < 32 then op.apply x n.toNat else junk

@[simp] def tcgGenAndi (ret arg : Var) (c : Word) : Vars → Vars := tcgGenOp1 (· &&& c) ret arg

@[simp] def tcgGenMovcondGtu (ret c1 c2 v1 v2 : Var) (s : Vars) : Vars :=
  update s ret (if s c2 < s c1 then s v1 else s v2)

def shifterOutIm (var : Var) (shift : Nat) (s : Vars) : Vars :=
  if shift = 0 then tcgGenAndi .cf var 1#32 s
  else
    let s := tcgGenShifti junk .lsr .cf var shift s
    if shift ≠ 31 then tcgGenAndi .cf .cf 1#32 s else s

@[simp] def genArmShiftIm (var : Var) (op : Shift) (shift : Nat) (flags : Bool) (s : Vars) : Vars :=
  match op with
  | .lsl =>
    if shift ≠ 0 then
      let s := if flags then shifterOutIm junk var (32 - shift) s else s
      tcgGenShifti junk .lsl var var shift s
    else s
  | .lsr =>
    if shift = 0 then
      let s := if flags then tcgGenShifti junk .lsr .cf var 31 s else s
      tcgGenMovi var 0 s
    else
      let s := if flags then shifterOutIm junk var (shift - 1) s else s
      tcgGenShifti junk .lsr var var shift s
  | .asr =>
    let shift := if shift = 0 then 32 else shift
    let s := if flags then shifterOutIm junk var (shift - 1) s else s
    let shift := if shift = 32 then 31 else shift
    tcgGenShifti junk .asr var var shift s
  | .ror =>
    if shift ≠ 0 then
      let s := if flags then shifterOutIm junk var (shift - 1) s else s
      tcgGenShifti junk .ror var var shift s
    else
      let tmp := .scratch 0
      let s := tcgGenShifti junk .lsl tmp .cf 31 s
      let s := if flags then shifterOutIm junk var 0 s else s
      let s := tcgGenShifti junk .lsr var var 1 s
      tcgGenOp2 (· ||| ·) var var tmp s

/-- `gen_shl` and `gen_shr`. -/
@[simp] def genShift (op : Shift) (dest t0 t1 : Var) (s : Vars) : Vars :=
  let s := tcgGenAndi (.scratch 1) t1 0xff#32 s
  let s := tcgGenMovi (.scratch 2) 0 s
  let s := tcgGenMovi (.scratch 3) 0x1f#32 s
  let s := tcgGenMovcondGtu (.scratch 2) (.scratch 1) (.scratch 3) (.scratch 2) t0 s
  let s := tcgGenAndi (.scratch 1) (.scratch 1) 0x1f#32 s
  tcgGenShift junk op dest (.scratch 2) (.scratch 1) s

@[simp] def genSar (dest t0 t1 : Var) (s : Vars) : Vars :=
  let s := tcgGenAndi (.scratch 1) t1 0xff#32 s
  let s := tcgGenMovi (.scratch 2) 0x1f#32 s
  let s := tcgGenMovcondGtu (.scratch 1) (.scratch 1) (.scratch 2) (.scratch 2) (.scratch 1) s
  tcgGenShift junk .asr dest t0 (.scratch 1) s

/-- `helper_shl_cc`: the carry after it and the result, like those below. -/
def helperShlCc (cf x i : Word) : Word × Word :=
  let shift := (i &&& 0xff#32).toNat
  if 32 ≤ shift then (if shift = 32 then x &&& 1#32 else 0, 0)
  else if shift ≠ 0 then ((x >>> (32 - shift)) &&& 1#32, x <<< shift)
  else (cf, x)

def helperShrCc (cf x i : Word) : Word × Word :=
  let shift := (i &&& 0xff#32).toNat
  if 32 ≤ shift then (if shift = 32 then (x >>> 31) &&& 1#32 else 0, 0)
  else if shift ≠ 0 then ((x >>> (shift - 1)) &&& 1#32, x >>> shift)
  else (cf, x)

def helperSarCc (cf x i : Word) : Word × Word :=
  let shift := (i &&& 0xff#32).toNat
  if 32 ≤ shift then ((x >>> 31) &&& 1#32, x.sshiftRight 31)
  else if shift ≠ 0 then ((x >>> (shift - 1)) &&& 1#32, x.sshiftRight shift)
  else (cf, x)

def helperRorCc (cf x i : Word) : Word × Word :=
  let shift1 := i &&& 0xff#32
  let shift := (shift1 &&& 0x1f#32).toNat
  if shift = 0 then (if shift1 ≠ 0#32 then (x >>> 31) &&& 1#32 else cf, x)
  else ((x >>> (shift - 1)) &&& 1#32, x >>> shift ||| x <<< (32 - shift))

def Shift.helper : Shift → Word → Word → Word → Word × Word
  | lsl => helperShlCc
  | lsr => helperShrCc
  | asr => helperSarCc
  | ror => helperRorCc

def genArmShiftReg (var : Var) (op : Shift) (shift : Var) (flags : Bool) (s : Vars) : Vars :=
  if flags then
    let (cf, x) := op.helper (s .cf) (s var) (s shift)
    update (update s .cf cf) var x
  else match op with
    | .lsl | .lsr => genShift junk op var var shift s
    | .asr => genSar junk var var shift s
    | .ror => tcgGenShift junk .ror var var shift (tcgGenAndi shift shift 0x1f#32 s)

end Ops

/-- The last bit shifted out. -/
def Shift.carryOut (x : Word) (n : Nat) : Shift → Bool
  | lsl => (x.toNat <<< n).testBit 32
  | lsr => x.getLsbD (n - 1)
  | asr => (x.sshiftRight (n - 1)).getLsbD 0
  | ror => (x.rotateRight n).msb

/-- `Shift_C` for an amount. -/
def shiftC (op : Shift) (x : Word) (n : Nat) (carry : Bool) : Word × Bool :=
  if n = 0 then (x, carry) else (op.apply x n, op.carryOut x n)

/-- `DecodeImmShift`: the amount, or none for a rotation with the carry. -/
def decodeImmShift : Shift → Nat → Option Nat
  | .lsr, 0 | .asr, 0 => some 32
  | .ror, 0 => none
  | _, n => some n

def shiftIm (op : Shift) (x : Word) (imm : Nat) (carry : Bool) : Word × Bool :=
  match decodeImmShift op imm with
  | some n => shiftC op x n carry
  | none => ((BitVec.cons carry x).extractLsb' 1 32, x.getLsbD 0)

def flag (b : Bool) : Word := if b then 1 else 0

/-- The variable holds the result; the carry is that of the shift only where flags are asked for. -/
def Shifted (s : Vars) (v : Nat) (flags carry : Bool) (r : Word × Bool) : Prop :=
  s (.temp v) = r.1 ∧ s .cf = flag (if flags then r.2 else carry)

section

variable (x : Word)

theorem shiftRight_and_one (k : Nat) : (x >>> k) &&& 1#32 = flag (x.getLsbD k) := by
  ext i hi
  cases hbit : x.getLsbD k <;> cases i <;> simp_all [flag]

theorem toNat_low_byte (i : Word) : (i &&& 0xff#32).toNat = i.toNat % 256 :=
  and_two_pow_sub_one_eq_mod i.toNat 8

theorem toNat_and_31 (i : Word) : (i &&& 0x1f#32).toNat = i.toNat % 32 :=
  and_two_pow_sub_one_eq_mod i.toNat 5

theorem sshiftRight_of_le {n : Nat} (hn : 31 ≤ n) : x.sshiftRight n = x.sshiftRight 31 := by
  have hmsb : x[31] = x.msb := by rw [msb_eq_getLsbD_last, getLsbD_eq_getElem]
  ext i hi
  rw [getElem_sshiftRight, getElem_sshiftRight]
  split <;> split
  · congr 1
    omega
  · omega
  · obtain rfl : i = 0 := by omega
    exact hmsb.symm
  · rfl

theorem getLsbD_sshiftRight_zero (k : Nat) :
    (x.sshiftRight k).getLsbD 0 = x.getLsbD (min k 31) := by
  by_cases hk : k < 32
  · rw [min_eq_left (by omega), getLsbD_sshiftRight]
    simp [hk]
  · rw [min_eq_right (by omega), sshiftRight_of_le x (by omega), getLsbD_sshiftRight]
    rfl

theorem msb_rotated (n : Nat) : (x.rotateRight n).msb = x.getLsbD ((n + 31) % 32) := by
  rw [msb_rotateRight, getMsbD_eq_getLsbD, decide_eq_true (mod_lt _ (by decide)), Bool.true_and]
  congr 1
  omega

theorem rotateRight_mod (n : Nat) : x.rotateRight (n % 32) = x.rotateRight n := by
  rw [rotateRight_def, rotateRight_def, mod_mod]

end

open Shift

theorem helper_right (op : Shift) (carry : Bool) (x i : Word) :
    let r := shiftC op x (i.toNat % 256) carry
    op.helper (flag carry) x i = (flag r.2, r.1) := by
  have hbyte := toNat_low_byte i
  have hne : i &&& 0xff#32 = 0#32 ↔ i.toNat % 256 = 0 := by rw [← hbyte, ← toNat_inj, toNat_zero]
  by_cases hzero : i.toNat % 256 = 0
  · cases op <;> simp [helper, helperShlCc, helperShrCc, helperSarCc, helperRorCc, shiftC,
      toNat_and_31, hbyte, hne, hzero, -toNat_and]
  simp only [shiftC, if_neg hzero]
  cases op <;> simp only [helper, helperShlCc, helperShrCc, helperSarCc, helperRorCc,
    apply, carryOut, toNat_and_31, hbyte, hne, ne_eq, hzero,
    testBit_shiftLeft, shiftRight_and_one, not_false_eq_true, if_true]
  all_goals generalize i.toNat % 256 = n at *
  case lsl =>
    rcases Nat.lt_trichotomy n 32 with hn | rfl | hn
    · rw [if_neg (by omega), decide_eq_true (by omega)]
      rfl
    · rw [if_pos (by omega), if_pos rfl, shiftLeft_eq_zero (by omega)]
      exact congrArg (·, 0) (shiftRight_and_one x 0)
    · rw [if_pos (by omega), if_neg (by omega), shiftLeft_eq_zero (by omega), decide_eq_false (by omega)]
      rfl
  case lsr =>
    split_ifs with hle heq
    · rw [heq, ushiftRight_eq_zero (by omega)]
      rfl
    · rw [getLsbD_of_ge x (n - 1) (by omega), ushiftRight_eq_zero hle]
      rfl
    · rfl
  case asr =>
    rw [getLsbD_sshiftRight_zero]
    split_ifs with hle
    · rw [min_eq_right (by omega), sshiftRight_of_le x (n := n) (by omega)]
    · rw [min_eq_left (by omega)]
  case ror =>
    rw [msb_rotated]
    split_ifs with hmod
    · rw [← rotateRight_mod x n, hmod, show (n + 31) % 32 = 31 by omega, rotateRight_def]
      simp
    · rw [rotateRight_def, show (n + 31) % 32 = n % 32 - 1 by omega]

theorem shiftC_fst (op : Shift) (x : Word) (n : Nat) (carry : Bool) :
    (shiftC op x n carry).1 = op.apply x n := by
  by_cases hzero : n = 0
  · cases op <;> simp [shiftC, hzero, apply, rotateRight_def]
  · simp [shiftC, hzero]

section

variable (junk : Word)

theorem plain_right (op : Shift) {v a : Nat} (hne : v ≠ a) (s : Vars) :
    let s' := genArmShiftReg junk (.temp v) op (.temp a) false s
    s' (.temp v) = op.apply (s (.temp v)) ((s (.temp a)).toNat % 256) ∧ s' .cf = s .cf := by
  have hmod : (s (.temp a)).toNat % 32 < 32 := mod_lt _ (by decide)
  have hbyte := toNat_low_byte (s (.temp a))
  have hror : (s (.temp v)).rotateRight (s (.temp a)).toNat =
      (s (.temp v)).rotateRight ((s (.temp a)).toNat % 256) := by
    rw [← rotateRight_mod, ← rotateRight_mod _ (_ % 256), mod_mod_of_dvd _ (by decide)]
  by_cases hlarge : 31 < (s (.temp a)).toNat % 256
  · cases op <;> simp [genArmShiftReg, hbyte, toNat_and_31, lt_def, -toNat_and, hne, hmod,
      apply, hlarge, hror]
    · exact (shiftLeft_eq_zero hlarge).symm
    · exact (ushiftRight_eq_zero hlarge).symm
    · exact (sshiftRight_of_le _ hlarge.le).symm
  · have hsmall : (s (.temp a)).toNat % 32 = (s (.temp a)).toNat % 256 := by omega
    cases op <;> simp [genArmShiftReg, hbyte, toNat_and_31, lt_def, -toNat_and, hne, apply, hlarge, hsmall]
    all_goals omega

theorem ushiftRight_31 (x : Word) : x >>> 31 = flag (x.getLsbD 31) := by
  rw [← shiftRight_and_one, ← toNat_inj, toNat_and, toNat_ushiftRight, shiftRight_eq_div_pow]
  exact (and_two_pow_sub_one_of_lt_two_pow (n := 1) (by omega)).symm

theorem shifterOutIm_eq (v : Var) {k : Nat} (hk : k < 32) (s : Vars) :
    shifterOutIm junk v k s = update s .cf (flag ((s v).getLsbD k)) := by
  by_cases hlast : k = 31
  · simp [shifterOutIm, hlast, apply, ushiftRight_31]
  · rw [← shiftRight_and_one]
    by_cases hzero : k = 0
    · simp [shifterOutIm, hzero]
    · simp [shifterOutIm, hzero, hlast, hk, apply]

theorem rrx_eq (x : Word) (carry : Bool) :
    x >>> 1 ||| flag carry <<< 31 = (cons carry x).extractLsb' 1 32 := by
  ext i hi
  by_cases hlast : i = 31
  · subst hlast
    cases carry <;> simp [flag, getElem_cons]
  · have hlt : i < 31 := by omega
    have hne : 1 + i ≠ 32 := by omega
    simp [getLsbD_cons, hlt, hne]

theorem im_right (op : Shift) {carry : Bool} {imm : Nat} (himm : imm < 32) (v : Nat)
    {s : Vars} (hcf : s .cf = flag carry) (flags : Bool) :
    Shifted (genArmShiftIm junk (.temp v) op imm flags s) v flags carry
      (shiftIm op (s (.temp v)) imm carry) := by
  by_cases hzero : imm = 0
  · have hsar := sshiftRight_of_le (s (.temp v)) (n := 32) (by decide)
    have hshr := @ushiftRight_eq_zero 32 (s (.temp v)) 32 le_rfl
    cases op <;> cases flags <;> simp [Shifted, hzero, shiftIm, decodeImmShift, shiftC, hcf, apply,
      carryOut, shifterOutIm_eq, ushiftRight_31, rrx_eq, hsar, hshr, -getLsbD_eq_getElem,
      getLsbD_sshiftRight_zero]
  · have hlow : 32 - imm < 32 := by omega
    have hprev : imm - 1 < 32 := by omega
    have hne : imm ≠ 32 := by omega
    have hmin : imm - 1 ≤ 31 := by omega
    have hrot : (imm + 31) % 32 = imm - 1 := by omega
    cases op <;> cases flags <;> simp [Shifted, hzero, shiftIm, decodeImmShift, shiftC, hcf, himm, hne,
      shifterOutIm_eq, hlow, hprev, carryOut, -getLsbD_eq_getElem, getLsbD_sshiftRight_zero,
      hmin, -msb_rotateRight, msb_rotated, hrot, himm.le, testBit_toNat]

theorem reg_right (op : Shift) {carry : Bool} {v a : Nat} (hne : v ≠ a) {s : Vars}
    (hcf : s .cf = flag carry) (flags : Bool) :
    Shifted (genArmShiftReg junk (.temp v) op (.temp a) flags s) v flags carry
      (shiftC op (s (.temp v)) ((s (.temp a)).toNat % 256) carry) := by
  cases flags with
  | false =>
    obtain ⟨hplain, hkept⟩ := plain_right junk op hne s
    exact ⟨by rw [hplain, shiftC_fst], by rw [hkept, hcf]; rfl⟩
  | true =>
    have hhelper := helper_right op carry (s (.temp v)) (s (.temp a))
    simp [Shifted, genArmShiftReg, hcf, hhelper]

end

/-- Immediate and register shifts give the architecture's result, and its carry when flags are asked
for; an immediate amount does what the same amount does in a register. -/
theorem shifter_right (junk : Word) (op : Shift) (s : Vars) (carry flags : Bool) {var shift : Nat}
    (hne : var ≠ shift) :
    let s := update s .cf (flag carry)
    let x := s (.temp var)
    let n := (s (.temp shift)).toNat % 256
    let reg := genArmShiftReg junk (.temp var) op (.temp shift) flags s
    Shifted reg var flags carry (shiftC op x n carry) ∧
      ∀ imm : Fin 32,
        let im := genArmShiftIm junk (.temp var) op imm flags s
        Shifted im var flags carry (shiftIm op x imm carry) ∧
          (decodeImmShift op imm = some n → im (.temp var) = reg (.temp var) ∧ im .cf = reg .cf) := by
  intro s x n reg
  have hcf : s .cf = flag carry := update_self ..
  have hreg := reg_right junk op hne hcf flags
  refine ⟨hreg, fun imm => ?_⟩
  have him := im_right junk op imm.isLt var hcf flags
  refine ⟨him, fun hdecode => ?_⟩
  rw [shiftIm, hdecode] at him
  exact ⟨him.1.trans hreg.1.symm, him.2.trans hreg.2.symm⟩

theorem shifter_right_rotate :
    Shifted (genArmShiftReg 0 (.temp 0) .ror (.temp 1) true (update (fun _ => 1) .cf (flag false))) 0
      true false (0x80000000, true) :=
  (@shifter_right 0 .ror (fun _ => 1) false true 0 1 (by decide)).1

end TcgArm.Alu
