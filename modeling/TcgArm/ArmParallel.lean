import Mathlib.Tactic

/-! The parallel additions and subtractions of `op_addsub.h` in their six families, and the selection
by the GE bits. -/

namespace TcgArm.Parallel

open BitVec Nat

abbrev Word := BitVec 32

/-- The prefixes of the instantiations. -/
inductive Family where
  | q
  | uq
  | s
  | u
  | sh
  | uh

inductive Op where
  | add
  | sub

variable {w : Nat}

/-- An operand shifted down and truncated to the type of a lane. -/
def laneOf (w n : Nat) (x : Word) : BitVec w := (x >>> (w * n)).setWidth w

def addSat (a b : BitVec w) : BitVec w :=
  let res := a + b
  if (res ^^^ a).msb && !(a ^^^ b).msb then if a.msb then intMin w else intMax w else res

def subSat (a b : BitVec w) : BitVec w :=
  let res := a - b
  if (res ^^^ a).msb && (a ^^^ b).msb then if a.msb then intMin w else intMax w else res

def addUsat (a b : BitVec w) : BitVec w :=
  let res := a + b
  if res < a then allOnes w else res

def subUsat (a b : BitVec w) : BitVec w := if b < a then a - b else 0

def Op.wide : Op → Word → Word → Word
  | add => (· + ·)
  | sub => (· - ·)

/-- `ADD16`, `SUB16`, `ADD8` and `SUB8` of a family: the result and whether GE bits are set,
never without `ARITH_GE`. -/
def Family.lane (f : Family) (op : Op) (a b : BitVec w) : BitVec w × Bool :=
  let sums := op.wide (a.signExtend 32) (b.signExtend 32)
  let sum := op.wide (a.setWidth 32) (b.setWidth 32)
  match f, op with
  | q, .add => (addSat a b, false)
  | q, .sub => (subSat a b, false)
  | uq, .add => (addUsat a b, false)
  | uq, .sub => (subUsat a b, false)
  | s, _ => (sums.setWidth w, !sums.slt 0)
  | u, .add => (sum.setWidth w, sum >>> w == 1#32)
  | u, .sub => (sum.setWidth w, sum >>> w == 0#32)
  | sh, _ => ((sums.sshiftRight 1).setWidth w, false)
  | uh, _ => ((sum >>> 1).setWidth w, false)

/-- `RESULT` and the setting of `ge` for the lane `n`. -/
def put (n : Nat) (r : BitVec w × Bool) (acc : Word × Word) : Word × Word :=
  (acc.1 ||| r.1.setWidth 32 <<< (n * w),
    if r.2 then acc.2 ||| (if w = 16 then 3#32 <<< (n * 2) else 1#32 <<< n) else acc.2)

/-- The lanes one after the other; the second operand of the lane `n` is the lane `other n`. -/
def lanes (w : Nat) (op : Nat → Op) (other : Nat → Nat) (f : Family) (a b : Word) : Word × Word :=
  (List.range (32 / w)).foldl
    (fun acc n => put n (f.lane (op n) (laneOf w n a) (laneOf w (other n) b)) acc) (0, 0)

def add16 : Family → Word → Word → Word × Word := lanes 16 (fun _ => .add) id

def add8 : Family → Word → Word → Word × Word := lanes 8 (fun _ => .add) id

def sub16 : Family → Word → Word → Word × Word := lanes 16 (fun _ => .sub) id

def sub8 : Family → Word → Word → Word × Word := lanes 8 (fun _ => .sub) id

def subaddx : Family → Word → Word → Word × Word :=
  lanes 16 (fun n => if n = 0 then .add else .sub) (1 - ·)

def addsubx : Family → Word → Word → Word × Word :=
  lanes 16 (fun n => if n = 0 then .sub else .add) (1 - ·)

def selMask (g0 g1 g2 g3 : Bool) : Word :=
  let mask := 0#32
  let mask := if g0 then mask ||| 0xff#32 else mask
  let mask := if g1 then mask ||| 0xff00#32 else mask
  let mask := if g2 then mask ||| 0xff0000#32 else mask
  if g3 then mask ||| 0xff000000#32 else mask

def selFlags (flags a b : Word) : Word :=
  let mask := selMask (flags.getLsbD 0) (flags.getLsbD 1) (flags.getLsbD 2) (flags.getLsbD 3)
  (a &&& mask) ||| (b &&& ~~~ mask)

def Op.exact : Op → Int → Int → Int
  | add => (· + ·)
  | sub => (· - ·)

def Family.value (v : BitVec w) : Family → Int
  | q | s | sh => v.toInt
  | uq | u | uh => v.toNat

/-- What a family makes of the exact result: clamped, reduced or halved. -/
def Family.named (w : Nat) (e : Int) : Family → Int
  | q => max (-2 ^ (w - 1)) (min e (2 ^ (w - 1) - 1))
  | uq => max 0 (min e (2 ^ w - 1))
  | s | u => e
  | sh | uh => e / 2

def Family.sets (w : Nat) (e : Int) : Family → Op → Prop
  | u, .add => 2 ^ w ≤ e
  | s, _ | u, .sub => 0 ≤ e
  | _, _ => False

/-- The lane `n` of a result and its GE bits, one for each byte. -/
def LaneRight (f : Family) (op : Op) (n : Nat) (r : Word × Word) (x y : BitVec w) : Prop :=
  let e := op.exact (f.value x) (f.value y)
  laneOf w n r.1 = .ofInt w (f.named w e) ∧
    ∀ k < w / 8, (r.2.getLsbD (n * (w / 8) + k) = true ↔ f.sets w e op)

theorem ofInt_difference (x y : Int) : BitVec.ofInt w (x - y) = .ofInt w x - .ofInt w y := by
  rw [Int.sub_eq_add_neg, ofInt_add, ofInt_neg, BitVec.sub_eq_add_neg]

theorem wide_eq (op : Op) (x y : Int) :
    op.wide (.ofInt 32 x) (.ofInt 32 y) = .ofInt 32 (op.exact x y) := by
  cases op
  · exact (ofInt_add x y).symm
  · exact (ofInt_difference x y).symm

section

variable (hw : w = 8 ∨ w = 16)
include hw

/-- The tests of signs find the results out of range, and the first operand then has their sign. -/
theorem saturated {a : BitVec w} {e : Int}
    (hsign : 2 ^ (w - 1) ≤ e ∨ e < -2 ^ (w - 1) → (a.toInt < 0 ↔ e < 0)) :
    (if decide (e ≥ 2 ^ (w - 1)) || decide (e < -2 ^ (w - 1)) then
      if a.msb then intMin w else intMax w else .ofInt w e) = .ofInt w (Family.q.named w e) := by
  have hmin : intMin w = .ofInt w (-2 ^ (w - 1)) := by rcases hw with rfl | rfl <;> rfl
  have hmax : intMax w = .ofInt w (2 ^ (w - 1) - 1) := by rcases hw with rfl | rfl <;> rfl
  have hpos : (0 : Int) < 2 ^ (w - 1) := by positivity
  simp only [Bool.or_eq_true, decide_eq_true_eq, msb_eq_toInt, Family.named, hmin, hmax]
  split_ifs <;> congr 1 <;> omega

theorem setWidth_sshiftRight (x : Word) :
    (x.sshiftRight 1).setWidth w = (x >>> 1).setWidth w := by
  ext i hi
  have hlt : 1 + i < 32 := by omega
  simp [getLsbD_sshiftRight, hlt]
  omega

theorem lane_right (f : Family) (op : Op) (a b : BitVec w) :
    let e := op.exact (f.value a) (f.value b)
    (f.lane op a b).1 = .ofInt w (f.named w e) ∧ ((f.lane op a b).2 = true ↔ f.sets w e op) := by
  have hs : ∀ v : BitVec w, v.signExtend 32 = .ofInt 32 v.toInt := fun _ => rfl
  have hu : ∀ v : BitVec w, v.setWidth 32 = .ofInt 32 v.toNat := fun v => by
    rw [ofInt_natCast, ofNat_toNat]
  have hreduced : ∀ e : Int, (BitVec.ofInt 32 e).setWidth w = .ofInt w e := fun e => eq_of_toNat_eq (by
    rcases hw with rfl | rfl <;> simp only [toNat_setWidth, toNat_ofInt] <;> omega)
  have hhalved : ∀ e : Int, ((BitVec.ofInt 32 e) >>> 1).setWidth w = .ofInt w (e / 2) := fun e =>
    eq_of_toNat_eq (by rcases hw with rfl | rfl <;>
      simp only [toNat_setWidth, toNat_ofInt, toNat_ushiftRight, shiftRight_eq_div_pow] <;> omega)
  have hai := a.toInt_lt
  have hal := a.le_toInt
  have hbi := b.toInt_lt
  have hbl := b.le_toInt
  simp only [Family.lane, hs, hu, wide_eq, Family.value, Family.named, Family.sets, Op.exact]
  cases f with
  | q =>
    refine ⟨?_, by cases op <;> simp⟩
    cases op
    · have hsum : a + b = .ofInt w (a.toInt + b.toInt) := by rw [ofInt_add, ofInt_toInt, ofInt_toInt]
      have hover : ((a + b ^^^ a).msb && !(a ^^^ b).msb) = a.saddOverflow b := by
        rw [saddOverflow_eq, msb_xor, msb_xor]
        cases a.msb <;> cases b.msb <;> cases (a + b).msb <;> rfl
      simp only [addSat, hover]
      rw [saddOverflow, hsum]
      refine saturated hw ?_
      omega
    · have hsum : a - b = .ofInt w (a.toInt - b.toInt) := by
        rw [ofInt_difference, ofInt_toInt, ofInt_toInt]
      have hover : ((a - b ^^^ a).msb && (a ^^^ b).msb) = a.ssubOverflow b := by
        rw [ssubOverflow_eq, msb_xor, msb_xor]
        cases a.msb <;> cases b.msb <;> cases (a - b).msb <;> rfl
      simp only [subSat, hover]
      rw [ssubOverflow, hsum]
      refine saturated hw ?_
      omega
  | uq =>
    refine ⟨eq_of_toNat_eq ?_, by cases op <;> simp⟩
    rw [toNat_ofInt]
    cases op
    · simp only [addUsat, lt_def, toNat_add]
      rcases hw with rfl | rfl <;> split <;> simp only [toNat_add, toNat_allOnes] <;> omega
    · simp only [subUsat, lt_def]
      rcases hw with rfl | rfl <;> split <;> simp only [toNat_sub, ofNat_eq_ofNat, toNat_zero] <;> omega
  | s =>
    refine ⟨hreduced _, ?_⟩
    rw [Bool.not_eq_true', ← Bool.not_eq_true, ofNat_eq_ofNat, slt_zero_eq_msb, msb_eq_decide,
      decide_eq_true_eq, toNat_ofInt]
    rcases hw with rfl | rfl <;> cases op <;> simp only <;> omega
  | u =>
    cases op
    all_goals
      refine ⟨hreduced _, ?_⟩
      rw [beq_iff_eq, ← toNat_inj, toNat_ushiftRight, toNat_ofInt, shiftRight_eq_div_pow]
      rcases hw with rfl | rfl <;> simp only [toNat_ofNat] <;> omega
  | sh => exact ⟨(setWidth_sshiftRight hw _).trans (hhalved _), by cases op <;> simp⟩
  | uh => exact ⟨hhalved _, by cases op <;> simp⟩

theorem foldl_put (r : Nat → BitVec w × Bool) {n : Nat} (hn : n < 32 / w) :
    let x := (List.range (32 / w)).foldl (fun acc n => put n (r n) acc) (0, 0)
    laneOf w n x.1 = (r n).1 ∧ ∀ k < w / 8, x.2.getLsbD (n * (w / 8) + k) = (r n).2 := by
  constructor
  · ext i hi
    rcases hw with rfl | rfl <;> interval_cases n <;> interval_cases i <;>
      simp [List.range_succ, put, laneOf]
  · rcases hw with rfl | rfl <;> interval_cases n
    all_goals
      simp only [Nat.reduceDiv, List.range_succ, List.range_zero, List.nil_append, List.cons_append,
        List.foldl_cons, List.foldl_nil, put]
      generalize (r 0).2 = g0, (r 1).2 = g1, (r 2).2 = g2, (r 3).2 = g3
      revert g0 g1 g2 g3
      decide

theorem lanes_right (op : Nat → Op) (other : Nat → Nat) (f : Family) (a b : Word) (n : Fin (32 / w)) :
    LaneRight f (op n) n (lanes w op other f a b) (laneOf w n a) (laneOf w (other n) b) := by
  obtain ⟨hres, hge⟩ := lane_right hw f (op n) (laneOf w n a) (laneOf w (other n) b)
  obtain ⟨hlane, hbits⟩ :=
    foldl_put hw (fun n => f.lane (op n) (laneOf w n a) (laneOf w (other n) b)) n.isLt
  exact ⟨hlane.trans hres, fun k hk => by rw [← hge, ← hbits k hk]; rfl⟩

end

theorem getLsbD_selMask : ∀ (g0 g1 g2 g3 : Bool) (i : Fin 32),
    (selMask g0 g1 g2 g3).getLsbD i = [g0, g1, g2, g3].getD (i / 8) false := by
  decide +kernel

theorem laneOf_selFlags (flags a b : Word) (n : Fin 4) :
    laneOf 8 n (selFlags flags a b) = if flags.getLsbD n then laneOf 8 n a else laneOf 8 n b := by
  apply eq_of_getLsbD_eq
  intro i hi
  have hbit := getLsbD_selMask (flags.getLsbD 0) (flags.getLsbD 1) (flags.getLsbD 2) (flags.getLsbD 3)
    ⟨8 * n + i, by omega⟩
  have hlane : [flags.getLsbD 0, flags.getLsbD 1, flags.getLsbD 2, flags.getLsbD 3].getD
      ((8 * n + i) / 8) false = flags.getLsbD n := by
    rw [mul_add_div (by decide), div_eq_of_lt hi]
    fin_cases n <;> rfl
  have hlt : 8 * n + i < 32 := by omega
  rw [hlane] at hbit
  cases hflag : flags.getLsbD n <;>
    simp [laneOf, selFlags, hbit, hflag, hlt, hi, -getLsbD_eq_getElem]

/-- Every lane of every helper is the exact result as its family names it, with the GE bits to it,
and selection by the bits of an unsigned difference gives the larger bytes. -/
theorem parallel_right (f : Family) (a b : Word) :
    (∀ n : Fin 2, LaneRight f .add n (add16 f a b) (laneOf 16 n a) (laneOf 16 n b) ∧
      LaneRight f .sub n (sub16 f a b) (laneOf 16 n a) (laneOf 16 n b) ∧
      LaneRight f (if n.val = 0 then .add else .sub) n (subaddx f a b) (laneOf 16 n a)
        (laneOf 16 (1 - n) b) ∧
      LaneRight f (if n.val = 0 then .sub else .add) n (addsubx f a b) (laneOf 16 n a)
        (laneOf 16 (1 - n) b)) ∧
    ∀ n : Fin 4, LaneRight f .add n (add8 f a b) (laneOf 8 n a) (laneOf 8 n b) ∧
      LaneRight f .sub n (sub8 f a b) (laneOf 8 n a) (laneOf 8 n b) ∧
      (laneOf 8 n (selFlags (sub8 .u a b).2 a b)).toNat =
        max (laneOf 8 n a).toNat (laneOf 8 n b).toNat := by
  have hhalves := @lanes_right 16 (.inr rfl)
  have hbytes := @lanes_right 8 (.inl rfl)
  refine ⟨fun n => ⟨hhalves _ id f a b n, hhalves _ id f a b n, hhalves _ _ f a b n,
    hhalves _ _ f a b n⟩, fun n => ⟨hbytes _ id f a b n, hbytes _ id f a b n, ?_⟩⟩
  have hge := (hbytes (fun _ => .sub) id .u a b n).2 0 (by decide)
  simp only [Family.sets, Op.exact, Family.value, Nat.reduceDiv, Nat.mul_one, Nat.add_zero, id] at hge
  rw [sub8, laneOf_selFlags]
  by_cases hle : (laneOf 8 n b).toNat ≤ (laneOf 8 n a).toNat
  · rw [if_pos (hge.mpr (by omega)), max_eq_left hle]
  · rw [if_neg (mt hge.mp (by omega)), max_eq_right (by omega)]

end TcgArm.Parallel
