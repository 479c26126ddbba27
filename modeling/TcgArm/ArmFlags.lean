import TcgArm.ThumbItRight

/-! Arithmetic that sets the flags: the ops of `gen_add_CC` and its like on the variables of a
translation, against the exact sum or difference, through the conditions of `arm_test_cc`. -/

namespace TcgArm.Alu

open BitVec Function
open Thumb (Word Flags testCc armTestCc conditionHolds)

/-- The flags of `CPUARMState`, the variables that instructions use, and temporaries of a builder. -/
inductive Var where
  | nf
  | zf
  | cf
  | vf
  | temp (n : Nat)
  | scratch (n : Nat)
  deriving DecidableEq

abbrev Vars := Var → Word

@[simp] def tcgGenOp1 (f : Word → Word) (ret arg : Var) (s : Vars) : Vars := update s ret (f (s arg))

@[simp] def tcgGenMov : Var → Var → Vars → Vars := tcgGenOp1 id

@[simp] def tcgGenMovi (ret : Var) (c : Word) (s : Vars) : Vars := update s ret c

@[simp] def tcgGenOp2 (f : Word → Word → Word) (ret arg1 arg2 : Var) (s : Vars) : Vars :=
  update s ret (f (s arg1) (s arg2))

@[simp] def tcgGenXor : Var → Var → Var → Vars → Vars := tcgGenOp2 (· ^^^ ·)

@[simp] def tcgGenAndc : Var → Var → Var → Vars → Vars := tcgGenOp2 fun a b => a &&& ~~~ b

/-- The two halves of a 64-bit value. -/
@[simp] def tcgGenExtr (low high : Var) (v : BitVec 64) (s : Vars) : Vars :=
  update (update s low (v.setWidth 32)) high (v.extractLsb' 32 32)

@[simp] def tcgGenAdd2 (rl rh al ah bl bh : Var) (s : Vars) : Vars :=
  tcgGenExtr rl rh ((s ah ++ s al) + (s bh ++ s bl)) s

/-- What follows the sum: `tmp` is the temporary of the builder. -/
@[simp] def genSumFlags (tmp dest t0 t1 : Var) (s : Vars) : Vars :=
  let s := tcgGenMov .zf .nf s
  let s := tcgGenXor .vf .nf t0 s
  let s := tcgGenXor tmp t0 t1 s
  let s := tcgGenAndc .vf .vf tmp s
  tcgGenMov dest .nf s

@[simp] def genAddCC (dest t0 t1 : Var) (s : Vars) : Vars :=
  let tmp := .scratch 0
  let s := tcgGenMovi tmp 0 s
  let s := tcgGenAdd2 .nf .cf t0 tmp t1 tmp s
  genSumFlags tmp dest t0 t1 s

@[simp] def genAdcCC (hasAdd2 : Bool) (dest t0 t1 : Var) (s : Vars) : Vars :=
  let tmp := .scratch 0
  let s := if hasAdd2 then
      let s := tcgGenMovi tmp 0 s
      let s := tcgGenAdd2 .nf .cf t0 tmp .cf tmp s
      tcgGenAdd2 .nf .cf .nf .cf t1 tmp s
    else
      let q0 := (s t0).setWidth 64
      let q1 := (s t1).setWidth 64
      let q0 := q0 + q1
      let q1 := (s .cf).setWidth 64
      tcgGenExtr .nf .cf (q0 + q1) s
  genSumFlags tmp dest t0 t1 s

@[simp] def genSubCC (dest t0 t1 : Var) (s : Vars) : Vars :=
  let tmp := .scratch 0
  let s := tcgGenOp2 (· - ·) .nf t0 t1 s
  let s := tcgGenMov .zf .nf s
  let s := tcgGenOp2 (fun a b => if b ≤ a then 1 else 0) .cf t0 t1 s
  let s := tcgGenXor .vf .nf t0 s
  let s := tcgGenXor tmp t0 t1 s
  let s := tcgGenOp2 (· &&& ·) .vf .vf tmp s
  tcgGenMov dest .nf s

@[simp] def genSbcCC (hasAdd2 : Bool) (dest t0 t1 : Var) (s : Vars) : Vars :=
  let tmp := .scratch 1
  let s := tcgGenOp1 (~~~ ·) tmp t1 s
  genAdcCC hasAdd2 dest t0 tmp s

inductive Arith where
  | add
  | adc (hasAdd2 : Bool)
  | sub
  | sbc (hasAdd2 : Bool)

def Arith.gen : Arith → Var → Var → Var → Vars → Vars
  | add => genAddCC
  | adc hasAdd2 => genAdcCC hasAdd2
  | sub => genSubCC
  | sbc hasAdd2 => genSbcCC hasAdd2

/-- The sum or difference of two numbers, with a carry, or without a borrow, if `c` is 1. -/
def Arith.exact (x y c : Int) : Arith → Int
  | add => x + y
  | adc _ => x + y + c
  | sub => x - y
  | sbc _ => x - y - (1 - c)

def Arith.carries (u : Int) : Arith → Prop
  | add | adc _ => 2 ^ 32 ≤ u
  | sub | sbc _ => 0 ≤ u

/-- The relations that the even condition codes stand for: `w` is the word of the result and `i` the
exact one for the signed operands. -/
def relation (carries : Prop) (w i : Int) : Nat → Prop
  | 0 => w = 0
  | 1 => carries
  | 2 => 2 ^ 31 ≤ w
  | 3 => i < -2 ^ 31 ∨ 2 ^ 31 ≤ i
  | 4 => carries ∧ w ≠ 0
  | 5 => 0 ≤ i
  | _ => 0 < i

def flagsOf (s : Vars) : Flags := ⟨s .nf, s .zf, s .cf != 0, s .vf⟩

theorem armTestCc_eq (cc : Fin 14) (f : Flags) :
    armTestCc (.ofNat 32 cc) f = conditionHolds (.ofNat 32 cc) f := by
  have hflip := @Thumb.armTestCc_flip (.ofNat 32 cc ^^^ 1) (by revert cc; decide) f
  revert hflip
  fin_cases cc <;> simp [conditionHolds]

theorem testCc_complement (cc : Fin 14) (nf zf cf vf : Word) :
    testCc (.ofNat 32 cc ^^^ 1) nf zf cf vf = !testCc (.ofNat 32 cc) nf zf cf vf := by
  fin_cases cc <;> simp [testCc]

/-- A carry word that is zero or one tests as the flag it stands for. -/
theorem testCc_eq {s : Vars} (hcf : (s .cf).toNat ≤ 1) (cc : Word) :
    testCc cc (s .nf) (s .zf) (s .cf) (s .vf) = armTestCc cc (flagsOf s) := by
  have hword : s .cf = if s .cf != 0 then 1 else 0 := by
    apply eq_of_toNat_eq
    split
    · simp_all [← toNat_inj]
      omega
    · simp_all
  rw [armTestCc, flagsOf, ← hword]

theorem msb_word (x : Word) : x.msb = decide (2 ^ 31 ≤ x.toNat) := msb_eq_decide x

theorem toInt_word (x : Word) :
    x.toInt = if 2 ^ 31 ≤ x.toNat then (x.toNat - 2 ^ 32 : Int) else (x.toNat : Int) := by
  rw [toInt_eq_msb_cond, msb_word]
  simp

/-- The overflow of a sum, by the signs of the operands and of the result. -/
theorem sum_overflow {x y r : Word} {c : Nat} (hc : c ≤ 1) (hr : r.toNat = (x.toNat + y.toNat + c) % 2 ^ 32) :
    ((r ^^^ x) &&& ~~~ (x ^^^ y)).msb = true ↔
      x.toInt + y.toInt + c < -2 ^ 31 ∨ 2 ^ 31 ≤ x.toInt + y.toInt + c := by
  rw [msb_and, msb_xor, msb_not, msb_xor, toInt_word, toInt_word, msb_word, msb_word, msb_word, hr]
  by_cases hxs : 2 ^ 31 ≤ x.toNat <;> by_cases hys : 2 ^ 31 ≤ y.toNat <;>
    by_cases hrs : 2 ^ 31 ≤ (x.toNat + y.toNat + c) % 2 ^ 32 <;>
    simp only [hxs, hys, hrs, if_true, if_false, decide_true, decide_false, Bool.xor_self,
      Bool.xor_true, Bool.xor_false, Bool.not_true, Bool.not_false, Bool.and_true, Bool.and_false,
      Nat.reduceLT, true_iff, false_iff, reduceCtorEq] <;>
    omega

theorem toNat_concat (high low : Word) : (high ++ low).toNat = 2 ^ 32 * high.toNat + low.toNat := by
  rw [toNat_append, ← Nat.shiftLeft_add_eq_or_of_lt low.isLt, Nat.shiftLeft_eq, Nat.mul_comm]

/-- The words of the flags after a sum of two words and a carry. -/
structure IsSum (x y : Word) (c : Nat) (s : Vars) : Prop where
  pair : (s .nf).toNat + 2 ^ 32 * (s .cf).toNat = x.toNat + y.toNat + c
  zf : s .zf = s .nf
  vf : s .vf = (s .nf ^^^ x) &&& ~~~ (x ^^^ y)

/-- Every builder adds: a difference is the sum with the complement and a carry. -/
def Arith.addend (y : Word) : Arith → Word
  | add | adc _ => y
  | sub | sbc _ => ~~~ y

def Arith.carryIn (c : Nat) : Arith → Nat
  | add => 0
  | adc _ | sbc _ => c
  | sub => 1

theorem genAdcCC_isSum (hasAdd2 : Bool) (d n : Nat) {t1 : Var} {s : Vars} (hc : (s .cf).toNat ≤ 1)
    (ht : t1 ≠ .nf ∧ t1 ≠ .zf ∧ t1 ≠ .cf ∧ t1 ≠ .vf ∧ t1 ≠ .scratch 0) :
    IsSum (s (.temp n)) (s t1) (s .cf).toNat (genAdcCC hasAdd2 (.temp d) (.temp n) t1 s) := by
  constructor
  · cases hasAdd2 <;> simp [ht, toNat_concat, -toNat_append] <;> omega
  · cases hasAdd2 <;> simp [ht]
  · cases hasAdd2 <;> simp [ht]

theorem Arith.isSum (a : Arith) (d n m : Nat) {s : Vars} (hc : (s .cf).toNat ≤ 1) :
    IsSum (s (.temp n)) (a.addend (s (.temp m))) (a.carryIn (s .cf).toNat)
      (a.gen (.temp d) (.temp n) (.temp m) s) := by
  cases a with
  | add =>
    constructor
    · simp [gen, addend, carryIn, toNat_concat, -toNat_append]
      omega
    · simp [gen]
    · simp [gen, addend]
  | adc b => exact genAdcCC_isSum b d n hc (by simp)
  | sub =>
    constructor
    · simp [gen, addend, carryIn, BitVec.le_def]
      split <;> simp <;> omega
    · simp [gen]
    · simp [gen, addend, not_xor_right]
  | sbc b =>
    have hsum := @genAdcCC_isSum b d n (.scratch 1) (update s (.scratch 1) (~~~ s (.temp m)))
      (by simpa using hc) (by simp)
    simpa [gen, addend, carryIn] using hsum

theorem Arith.gen_dest (a : Arith) (d n m : Nat) (s : Vars) :
    a.gen (.temp d) (.temp n) (.temp m) s (.temp d) = a.gen (.temp d) (.temp n) (.temp m) s .nf := by
  cases a <;> simp [gen]

theorem Arith.exact_eq (a : Arith) (x y : Word) (c : Nat) :
    let v : Int := x.toNat + (a.addend y).toNat + a.carryIn c
    a.exact x.toNat y.toNat c % 2 ^ 32 = v % 2 ^ 32 ∧ (a.carries (a.exact x.toNat y.toNat c) ↔ 2 ^ 32 ≤ v) ∧
      a.exact x.toInt y.toInt c = x.toInt + (a.addend y).toInt + a.carryIn c := by
  have hnot : (~~~ y).toInt = -1 - y.toInt := by
    rw [toInt_word, toInt_word, toNat_not]
    split <;> split <;> omega
  cases a <;> simp [exact, carries, addend, carryIn, hnot] <;> omega

theorem IsSum.conditions {x y : Word} {c : Nat} {s : Vars} (hsum : IsSum x y c s) (hc : c ≤ 1) (cc : Fin 14) :
    let v : Int := x.toNat + y.toNat + c
    let r := relation (2 ^ 32 ≤ v) (v % 2 ^ 32) (x.toInt + y.toInt + c) (cc / 2)
    testCc (.ofNat 32 cc) (s .nf) (s .zf) (s .cf) (s .vf) = true ↔ if cc.val % 2 = 0 then r else ¬ r := by
  intro v
  have hpair := hsum.pair
  have hword : ((s .nf).toNat : Int) = v % 2 ^ 32 := by omega
  have hz : s .nf = 0#32 ↔ v % 2 ^ 32 = 0 := by
    rw [← toNat_inj, ← hword]
    exact Int.natCast_eq_zero.symm
  have hcf : s .cf = 0#32 ↔ ¬ 2 ^ 32 ≤ v := by
    rw [← toNat_inj]
    exact ⟨fun hzero => by simp at hzero; omega, fun hlt => by simp; omega⟩
  have hn : (s .nf).msb = true ↔ 2 ^ 31 ≤ v % 2 ^ 32 := by
    rw [msb_word, decide_eq_true_eq]
    omega
  have hv := sum_overflow (x := x) (y := y) (r := s .nf) hc (by omega)
  rw [← hsum.vf] at hv
  have hsame : (v - (x.toInt + y.toInt + c)) % 2 ^ 32 = 0 ∧
      -2 ^ 32 ≤ x.toInt + y.toInt + c ∧ x.toInt + y.toInt + c < 2 ^ 32 := by
    rw [toInt_word, toInt_word]
    split <;> split <;> omega
  generalize x.toInt + y.toInt + c = i at *
  have hge : (s .nf).msb = (s .vf).msb ↔ 0 ≤ i := by
    rw [Bool.eq_iff_iff, hn, hv]
    omega
  have hgt : 0 ≤ i ∧ ¬ v % 2 ^ 32 = 0 ↔ 0 < i := by omega
  rw [testCc_eq (by omega), armTestCc_eq]
  generalize v % 2 ^ 32 = w at *
  fin_cases cc <;>
    simp [conditionHolds, flagsOf, relation, hsum.zf, hz, hcf, hn, hv, hge, hgt, ← Bool.not_eq_true]
  all_goals omega

/-- After a flag-setting sum or difference every condition is the relation of the exact results,
opposite conditions are complements, and the relations of a difference are orders. -/
theorem conditions_exact (a : Arith) (s : Vars) (carry : Bool) (dest t0 t1 : Nat) :
    let s := update s .cf (if carry then 1 else 0)
    let s' := a.gen (.temp dest) (.temp t0) (.temp t1) s
    let u := a.exact (s (.temp t0)).toNat (s (.temp t1)).toNat carry.toNat
    let i := a.exact (s (.temp t0)).toInt (s (.temp t1)).toInt carry.toNat
    ((s' (.temp dest)).toNat : Int) = u % 2 ^ 32 ∧
      (∀ cc : Fin 14,
        let r := relation (a.carries u) (u % 2 ^ 32) i (cc / 2)
        testCc (.ofNat 32 cc) (s' .nf) (s' .zf) (s' .cf) (s' .vf) = true ↔
          if cc.val % 2 = 0 then r else ¬ r) ∧
      (∀ (cc : Fin 14) nf zf cf vf,
        testCc (.ofNat 32 cc ^^^ 1) nf zf cf vf = !testCc (.ofNat 32 cc) nf zf cf vf) ∧
      ∀ x y : Word,
        let u := Arith.sub.exact x.toNat y.toNat 0
        let r := relation (Arith.sub.carries u) (u % 2 ^ 32) (Arith.sub.exact x.toInt y.toInt 0)
        (r 0 ↔ x = y) ∧ (r 1 ↔ y ≤ x) ∧ (r 4 ↔ y < x) ∧ (r 5 ↔ y.sle x) ∧ (r 6 ↔ y.slt x) := by
  intro s s' u i
  have hcarry : (s .cf).toNat = carry.toNat := by cases carry <;> simp [s]
  have hc : (s .cf).toNat ≤ 1 := by cases carry <;> simp [s]
  have hsum := a.isSum dest t0 t1 hc
  have hin : a.carryIn (s .cf).toNat ≤ 1 := by cases a <;> simp [Arith.carryIn, hc]
  obtain ⟨hword, hcarries, hexact⟩ := a.exact_eq (s (.temp t0)) (s (.temp t1)) (s .cf).toNat
  rw [hcarry] at hword hcarries hexact hsum hin
  refine ⟨?_, fun cc => ?_, testCc_complement, fun x y => ?_⟩
  · have hpair := hsum.pair
    simp only [s', u, a.gen_dest, hword]
    omega
  · have hcond := hsum.conditions hin cc
    simpa only [u, i, hword, hcarries, hexact] using hcond
  · have hx := x.isLt
    rw [← toNat_inj, BitVec.le_def, BitVec.lt_def, sle_iff_toInt_le, slt_iff_toInt_lt]
    simp only [relation, Arith.exact, Arith.carries]
    omega

end TcgArm.Alu
