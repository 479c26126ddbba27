import TcgArm.BitScan
import TcgArm.SeqCode
import TcgArm.TcgSemantics

/-! The 32-bit ops that the front end emits on a 32-bit host, what they do, and the builders of
`tcg-op.c` for 32-bit operations, which fall back on other ops where the host lacks one. -/

namespace TcgArm.Half

open BitVec Nat SeqCode Tcg
open BitVec (ofNat)

/-- A temporary of a 32-bit host, as `TCGv_i32` names it. A 64-bit variable is two temporaries that
are allocated together; `low` and `high` are `TCGV_LOW` and `TCGV_HIGH` of it. -/
inductive Temp where
  | single (n : Nat)
  | low (n : Nat)
  | high (n : Nat)
  deriving DecidableEq, Repr

def Temp.name : Temp → Nat
  | single n | low n | high n => n

/-- `TCGCond`. -/
inductive TcgCond where
  | always
  | never
  | test (c : Cond)
  deriving DecidableEq, Repr

/-- What the `TCG_TARGET_HAS_*` macros tell of a 32-bit host, which has one of `mulu2_i32` and
`muluh_i32`, and its byte order. -/
structure Target where
  hasUnary : Unary → Bool
  hasBinary : Binary → Bool
  hasMovcond : Bool
  hasDeposit : Nat → Nat → Bool
  hasMulu2 : Bool
  bigEndian : Bool

/-- `TCGMemOp` with the MMU index: size exponent, `MO_SIGN`, `MO_BSWAP` and the rest. -/
structure GuestOp where
  size : Fin 4
  sign : Bool
  bswap : Bool
  rest : Nat
  deriving DecidableEq, Repr

/-- An emitted op with its operands. -/
inductive Instr where
  | mov (ret arg : Temp)
  | movi (ret : Temp) (val : BitVec 32)
  | unary (f : Unary) (ret arg : Temp)
  | binary (f : Binary) (ret arg1 arg2 : Temp)
  | double (f : Double) (rl rh : Temp) (args : List Temp)
  | deposit (ret arg1 arg2 : Temp) (ofs len : Nat)
  | setcond (cond : Cond) (ret arg1 arg2 : Temp)
  | movcond (cond : Cond) (ret c1 c2 v1 v2 : Temp)
  | setcond2 (cond : Cond) (ret al ah bl bh : Temp)
  | br (l : Nat)
  | brcond2 (cond : Cond) (al ah bl bh : Temp) (l : Nat)
  | ld (kind : LoadKind) (ret base : Temp) (offset : BitVec 32)
  | st (kind : StoreKind) (arg base : Temp) (offset : BitVec 32)
  | qemuLdI32 (memop : GuestOp) (val addr : Temp)
  | qemuLdI64 (memop : GuestOp) (lo hi addr : Temp)
  | qemuStI32 (memop : GuestOp) (val addr : Temp)
  | qemuStI64 (memop : GuestOp) (lo hi addr : Temp)
  deriving DecidableEq, Repr

/-- The temporaries, host memory, guest memory, and the label of a branch that was taken. -/
structure Mach where
  val : Temp → BitVec 32
  mem : BitVec 32 → BitVec 8
  guest : BitVec 32 → BitVec 8
  target : Option Nat

def Mach.set (s : Mach) (t : Temp) (v : BitVec 32) : Mach :=
  { s with val := Function.update s.val t v }

@[simp] theorem Mach.set_val (s : Mach) (t u : Temp) (v : BitVec 32) :
    (s.set t v).val u = if u = t then v else s.val u := by
  simp [Mach.set, Function.update_apply]

@[simp] theorem Mach.set_mem (s : Mach) (t : Temp) (v : BitVec 32) : (s.set t v).mem = s.mem := rfl

def loadBytes (m : BitVec 32 → BitVec 8) (a : BitVec 32) : Nat → List (BitVec 8)
  | 0 => []
  | n + 1 => m a :: loadBytes m (a + 1) n

def storeBytes (m : BitVec 32 → BitVec 8) (a : BitVec 32) : List (BitVec 8) → BitVec 32 → BitVec 8
  | [] => m
  | b :: bs => storeBytes (Function.update m a b) (a + 1) bs

def ofBytes (big : Bool) (bs : List (BitVec 8)) : Nat :=
  Nat.ofDigits 256 ((if big then bs.reverse else bs).map BitVec.toNat)

/-- The low `n` bytes of a word in the given order. -/
def toBytes {w : Nat} (big : Bool) (n : Nat) (v : BitVec w) : List (BitVec 8) :=
  let bs := (List.range n).map fun i => v.extractLsb' (8 * i) 8
  if big then bs.reverse else bs

/-- The low `bits` bits of a number, extended to a word. -/
def extendTo (w bits : Nat) (signed : Bool) (v : Nat) : BitVec w :=
  if signed then (BitVec.ofNat bits v).signExtend w else (BitVec.ofNat bits v).setWidth w

def loadSigned : LoadKind → Bool
  | .s8 | .s16 => true
  | .u8 | .u16 | .full => false

def GuestOp.bytes (memop : GuestOp) : Nat := 2 ^ memop.size.val

def GuestOp.bigEndian (tgt : Target) (memop : GuestOp) : Bool := tgt.bigEndian != memop.bswap

def guestLoad (tgt : Target) (w : Nat) (memop : GuestOp) (g : BitVec 32 → BitVec 8)
    (a : BitVec 32) : BitVec w :=
  extendTo w (8 * memop.bytes) memop.sign (ofBytes (memop.bigEndian tgt) (loadBytes g a memop.bytes))

def guestStore {w : Nat} (tgt : Target) (memop : GuestOp) (g : BitVec 32 → BitVec 8)
    (a : BitVec 32) (v : BitVec w) : BitVec 32 → BitVec 8 :=
  storeBytes g a (toBytes (memop.bigEndian tgt) memop.bytes v)

def lowHalf (r : BitVec 64) : BitVec 32 := r.extractLsb' 0 32

def highHalf (r : BitVec 64) : BitVec 32 := r.extractLsb' 32 32

/-- What an op does; a shift by 32 or more has no meaning. -/
def exec (tgt : Target) : Instr → Mach → Option Mach
  | .mov ret arg, s => some (s.set ret (s.val arg))
  | .movi ret v, s => some (s.set ret v)
  | .unary f ret arg, s => (evalUnary f (s.val arg)).map (s.set ret)
  | .binary f ret a b, s => (evalBinary f (s.val a) (s.val b)).map (s.set ret)
  | .double f rl rh args, s =>
    match evalDouble f (args.map s.val) with
    | some [l, h] => some ((s.set rl l).set rh h)
    | _ => none
  | .deposit ret a b ofs len, s => some (s.set ret (evalDeposit ofs len (s.val a) (s.val b)))
  | .setcond c ret a b, s => some (s.set ret (evalSetcond c (s.val a) (s.val b)))
  | .movcond c ret c1 c2 v1 v2, s =>
    some (s.set ret (if evalCond c (s.val c1) (s.val c2) then s.val v1 else s.val v2))
  | .setcond2 c ret al ah bl bh, s =>
    some (s.set ret (if evalCond c (s.val ah ++ s.val al) (s.val bh ++ s.val bl) then 1 else 0))
  | .br l, s => some { s with target := some l }
  | .brcond2 c al ah bl bh l, s =>
    some (if evalCond c (s.val ah ++ s.val al) (s.val bh ++ s.val bl) then
      { s with target := some l } else s)
  | .ld kind ret base offset, s =>
    some (s.set ret (extendTo 32 (8 * kind.bytes .w32) (loadSigned kind)
      (ofBytes tgt.bigEndian (loadBytes s.mem (s.val base + offset) (kind.bytes .w32)))))
  | .st kind arg base offset, s =>
    let bs := toBytes tgt.bigEndian (kind.bytes .w32) (s.val arg)
    some { s with mem := storeBytes s.mem (s.val base + offset) bs }
  | .qemuLdI32 memop v addr, s => some (s.set v (guestLoad tgt 32 memop s.guest (s.val addr)))
  | .qemuLdI64 memop lo hi addr, s =>
    let r := guestLoad tgt 64 memop s.guest (s.val addr)
    some ((s.set lo (lowHalf r)).set hi (highHalf r))
  | .qemuStI32 memop v addr, s =>
    some { s with guest := guestStore tgt memop s.guest (s.val addr) (s.val v) }
  | .qemuStI64 memop lo hi addr, s =>
    some { s with guest := guestStore tgt memop s.guest (s.val addr) (s.val hi ++ s.val lo) }

/-- The temporaries named below `free` and everything else agree. -/
structure Same (free : Nat) (s s' : Mach) : Prop where
  val : ∀ t : Temp, t.name < free → s'.val t = s.val t
  mem : s'.mem = s.mem
  guest : s'.guest = s.guest
  target : s'.target = s.target

theorem Same.refl (free : Nat) (s : Mach) : Same free s s := ⟨fun _ _ => rfl, rfl, rfl, rfl⟩

theorem Same.of_le {free free' : Nat} {s s' : Mach} (h : Same free' s s') (hle : free ≤ free') :
    Same free s s' := ⟨fun t ht => h.val t (by omega), h.mem, h.guest, h.target⟩

/-- The code leaves `v` in `ret` and keeps every other temporary in use. -/
def Sets (tgt : Target) (free : Nat) (code : List Instr) (s : Mach) (ret : Temp) (v : BitVec 32) :
    Prop := Ends (exec tgt) code (Same free (s.set ret v)) s

variable {tgt : Target} {free : Nat} {s s' : Mach} {ret arg arg1 arg2 : Temp} {v : BitVec 32}

theorem Same.val_set (h : Same free (s.set ret v) s') {t : Temp} (ht : t.name < free) :
    s'.val t = if t = ret then v else s.val t := by
  rw [h.val t ht, Mach.set_val]

theorem sets_of_exec {i : Instr} (h : exec tgt i s = some (s.set ret v)) :
    Sets tgt free [i] s ret v := ends_single h (Same.refl free _)

variable {v' : BitVec 32} {n ofs len : Nat} {c : BitVec 32}

variable {code code' : List Instr}

theorem Sets.of_eq (h : Sets tgt free code s ret v) (hv : v = v') : Sets tgt free code s ret v' := hv ▸ h

theorem Same.trans {s'' : Mach} (h : Same free s s') (h' : Same free s' s'') : Same free s s'' :=
  ⟨fun t ht => (h'.val t ht).trans (h.val t ht), h'.mem.trans h.mem, h'.guest.trans h.guest,
    h'.target.trans h.target⟩

theorem Same.set (h : Same free s s') (t : Temp) (u : BitVec 32) : Same free (s.set t u) (s'.set t u) :=
  ⟨fun t' ht => by rw [Mach.set_val, Mach.set_val, h.val t' ht], h.mem, h.guest, h.target⟩

theorem ne_single_free {t : Temp} (ht : t.name < free) : t ≠ .single free := by
  rintro rfl
  exact absurd ht (lt_irrefl free)

theorem Same.of_set_free (h : Same (free + 1) (s.set (.single free) v) s') : Same free s s' := by
  refine ⟨fun t ht => ?_, h.mem, h.guest, h.target⟩
  rw [h.val_set (by omega), if_neg (ne_single_free ht)]

theorem Mach.set_set (s : Mach) (t : Temp) (u v : BitVec 32) : (s.set t u).set t v = s.set t v := by
  simp only [Mach.set, Function.update_idem]

theorem Sets.scratch (h : Sets tgt (free + 1) code s (.single free) v)
    (h' : ∀ s1, Same (free + 1) (s.set (.single free) v) s1 → Sets tgt (free + 1) code' s1 ret v') :
    Sets tgt free (code ++ code') s ret v' :=
  h.append fun s1 e1 => (h' s1 e1).mono fun _ e2 =>
    (e1.of_set_free.set ret v').trans (e2.of_le (le_succ free))

theorem Sets.again (h : Sets tgt free code s ret v)
    (h' : ∀ s1, Same free (s.set ret v) s1 → Sets tgt free code' s1 ret v') :
    Sets tgt free (code ++ code') s ret v' := by
  refine h.append fun s1 e1 => (h' s1 e1).mono fun s2 e2 => ?_
  have hset := e1.set ret v'
  rw [Mach.set_set] at hset
  exact hset.trans e2

def tcgGenMovI32 (ret arg : Temp) : List Instr := if ret = arg then [] else [.mov ret arg]

def tcgGenMoviI32 (ret : Temp) (v : BitVec 32) : List Instr := [.movi ret v]

/-- `tcg_const_i32`: the constant is in the temporary `free`. -/
def tcgConstI32 (free : Nat) (v : BitVec 32) : List Instr := tcgGenMoviI32 (.single free) v

/-- An operation with a constant operand that the host has as an op of two temporaries. -/
def withConstI32 (free : Nat) (f : Binary) (ret arg1 : Temp) (arg2 : BitVec 32) : List Instr :=
  tcgConstI32 free arg2 ++ [.binary f ret arg1 (.single free)]

def tcgGenSubfiI32 (tgt : Target) (free : Nat) (ret : Temp) (arg1 : BitVec 32) (arg2 : Temp) :
    List Instr :=
  if arg1 = 0 ∧ tgt.hasUnary .neg then [.unary .neg ret arg2]
  else tcgConstI32 free arg1 ++ [.binary .sub ret (.single free) arg2]

def tcgGenNegI32 (tgt : Target) (free : Nat) (ret arg : Temp) : List Instr :=
  if tgt.hasUnary .neg then [.unary .neg ret arg] else tcgGenSubfiI32 tgt free ret 0 arg

def tcgGenAndiI32 (tgt : Target) (free : Nat) (ret arg1 : Temp) (arg2 : BitVec 32) : List Instr :=
  if arg2 = 0 then tcgGenMoviI32 ret 0
  else if arg2 = 0xffffffff then tcgGenMovI32 ret arg1
  else if arg2 = 0xff ∧ tgt.hasUnary .ext8u then [.unary .ext8u ret arg1]
  else if arg2 = 0xffff ∧ tgt.hasUnary .ext16u then [.unary .ext16u ret arg1]
  else withConstI32 free .and ret arg1 arg2

def tcgGenOriI32 (free : Nat) (ret arg1 : Temp) (arg2 : BitVec 32) : List Instr :=
  if arg2 = -1 then tcgGenMoviI32 ret (-1)
  else if arg2 = 0 then tcgGenMovI32 ret arg1
  else withConstI32 free .or ret arg1 arg2

def tcgGenXoriI32 (tgt : Target) (free : Nat) (ret arg1 : Temp) (arg2 : BitVec 32) : List Instr :=
  if arg2 = 0 then tcgGenMovI32 ret arg1
  else if arg2 = -1 ∧ tgt.hasUnary .not then [.unary .not ret arg1]
  else withConstI32 free .xor ret arg1 arg2

def tcgGenNotI32 (tgt : Target) (free : Nat) (ret arg : Temp) : List Instr :=
  if tgt.hasUnary .not then [.unary .not ret arg] else tcgGenXoriI32 tgt free ret arg (-1)

def shiftConstI32 (f : Binary) (free : Nat) (ret arg1 : Temp) (arg2 : Nat) : List Instr :=
  if arg2 = 0 then tcgGenMovI32 ret arg1 else withConstI32 free f ret arg1 (BitVec.ofNat 32 arg2)

def tcgGenShliI32 (free : Nat) (ret arg1 : Temp) (arg2 : Nat) : List Instr :=
  shiftConstI32 .shl free ret arg1 arg2

def tcgGenShriI32 (free : Nat) (ret arg1 : Temp) (arg2 : Nat) : List Instr :=
  shiftConstI32 .shr free ret arg1 arg2

def tcgGenSariI32 (free : Nat) (ret arg1 : Temp) (arg2 : Nat) : List Instr :=
  shiftConstI32 .sar free ret arg1 arg2

/-- Where the host lacks `f`: `g` of the first operand and the complement of the second. -/
def viaNotI32 (f g : Binary) (tgt : Target) (free : Nat) (ret arg1 arg2 : Temp) : List Instr :=
  if tgt.hasBinary f then [.binary f ret arg1 arg2]
  else tcgGenNotI32 tgt (free + 1) (.single free) arg2 ++ [.binary g ret arg1 (.single free)]

def tcgGenAndcI32 : Target → Nat → Temp → Temp → Temp → List Instr := viaNotI32 .andc .and

def tcgGenOrcI32 : Target → Nat → Temp → Temp → Temp → List Instr := viaNotI32 .orc .or

/-- Where the host lacks `f`: the complement of `g`. -/
def thenNotI32 (f g : Binary) (tgt : Target) (free : Nat) (ret arg1 arg2 : Temp) : List Instr :=
  if tgt.hasBinary f then [.binary f ret arg1 arg2]
  else [.binary g ret arg1 arg2] ++ tcgGenNotI32 tgt free ret ret

def tcgGenEqvI32 : Target → Nat → Temp → Temp → Temp → List Instr := thenNotI32 .eqv .xor

def tcgGenNandI32 : Target → Nat → Temp → Temp → Temp → List Instr := thenNotI32 .nand .and

def tcgGenNorI32 : Target → Nat → Temp → Temp → Temp → List Instr := thenNotI32 .nor .or

def extSignI32 (f : Unary) (c : Nat) (tgt : Target) (free : Nat) (ret arg : Temp) : List Instr :=
  if tgt.hasUnary f then [.unary f ret arg]
  else tcgGenShliI32 free ret arg c ++ tcgGenSariI32 free ret ret c

def tcgGenExt8sI32 : Target → Nat → Temp → Temp → List Instr := extSignI32 .ext8s 24

def tcgGenExt16sI32 : Target → Nat → Temp → Temp → List Instr := extSignI32 .ext16s 16

def extZeroI32 (f : Unary) (mask : BitVec 32) (tgt : Target) (free : Nat) (ret arg : Temp) :
    List Instr :=
  if tgt.hasUnary f then [.unary f ret arg] else tcgGenAndiI32 tgt free ret arg mask

def tcgGenExt8uI32 : Target → Nat → Temp → Temp → List Instr := extZeroI32 .ext8u 0xff

def tcgGenExt16uI32 : Target → Nat → Temp → Temp → List Instr := extZeroI32 .ext16u 0xffff

def tcgGenDepositI32 (tgt : Target) (free : Nat) (ret arg1 arg2 : Temp) (ofs len : Nat) :
    List Instr :=
  if ofs = 0 ∧ len = 32 then tcgGenMovI32 ret arg2
  else if tgt.hasDeposit ofs len then [.deposit ret arg1 arg2 ofs len]
  else
    let mask : BitVec 32 := 1#32 <<< len - 1#32
    let t1 := Temp.single free
    (if ofs + len < 32 then
        tcgGenAndiI32 tgt (free + 1) t1 arg2 mask ++ tcgGenShliI32 (free + 1) t1 t1 ofs
      else tcgGenShliI32 (free + 1) t1 arg2 ofs) ++
    (tcgGenAndiI32 tgt (free + 1) ret arg1 (~~~ (mask <<< ofs)) ++ [.binary .or ret ret t1])

def tcgGenSetcondI32 (cond : TcgCond) (ret arg1 arg2 : Temp) : List Instr :=
  match cond with
  | .always => tcgGenMoviI32 ret 1
  | .never => tcgGenMoviI32 ret 0
  | .test c => [.setcond c ret arg1 arg2]

def tcgGenMovcondI32 (tgt : Target) (free : Nat) (cond : TcgCond) (ret c1 c2 v1 v2 : Temp) :
    List Instr :=
  match cond with
  | .always => tcgGenMovI32 ret v1
  | .never => tcgGenMovI32 ret v2
  | .test c =>
    if tgt.hasMovcond then [.movcond c ret c1 c2 v1 v2]
    else
      let t0 := Temp.single free
      let t1 := Temp.single (free + 1)
      tcgGenSetcondI32 cond t0 c1 c2 ++ tcgGenNegI32 tgt (free + 2) t0 t0 ++
        [.binary .and t1 v1 t0] ++ tcgGenAndcI32 tgt (free + 2) ret v2 t0 ++
        [.binary .or ret ret t1]

def tcgGenMulu2I32 (tgt : Target) (free : Nat) (rl rh arg1 arg2 : Temp) : List Instr :=
  if tgt.hasMulu2 then [.double .mulu2 rl rh [arg1, arg2]]
  else
    [.binary .mul (.single free) arg1 arg2] ++
      ([.binary .muluh rh arg1 arg2] ++ tcgGenMovI32 rl (.single free))

theorem and_mask (x : BitVec n) (k : Nat) : x &&& ofNat n (2 ^ k - 1) = (x.setWidth k).setWidth n := by
  apply eq_of_getLsbD_eq
  intro i hi
  simp only [getLsbD_and, getLsbD_setWidth, getLsbD_ofNat,
    testBit_two_pow_sub_one, hi, decide_true, Bool.true_and]
  rw [Bool.and_comm]

theorem shl_sar (x : BitVec n) {k : Nat} (hk0 : 0 < k) (hk : k ≤ n) :
    (x <<< (n - k)).sshiftRight (n - k) = (x.setWidth k).signExtend n := by
  apply eq_of_getLsbD_eq
  intro i hi
  simp only [getLsbD_sshiftRight, getLsbD_signExtend, getLsbD_shiftLeft,
    getLsbD_setWidth, msb_eq_getLsbD_last]
  by_cases hik : i < k
  · simp [hik, hi, show n - k + i < n by omega, show ¬ n ≤ i by omega]
  · simp [hik, hi, show ¬ n - k + i < n by omega, show ¬ n ≤ i by omega, show k - 1 < k by omega,
      show 0 < n by omega, show ¬ n - 1 < n - k by omega, show n - 1 - (n - k) = k - 1 by omega]

theorem getLsbD_one_shl_sub_one (hlen : len < n) (i : Nat) :
    (1#n <<< len - 1#n).getLsbD i = decide (i < len) := by
  rw [BitScan.getLsbD_low]
  by_cases hi : i < len
  · simp [hi, show i < n by omega]
  · simp [hi]

theorem getLsbD_evalDeposit (h : ofs + len ≤ n) (x y : BitVec n) {i : Nat} (hi : i < n) :
    (evalDeposit ofs len x y).getLsbD i =
      if ofs ≤ i ∧ i < ofs + len then y.getLsbD (i - ofs) else x.getLsbD i := by
  have hmask : ((allOnes n >>> (n - len)) <<< ofs).getLsbD i = decide (ofs ≤ i ∧ i < ofs + len) := by
    simp only [getLsbD_shiftLeft, getLsbD_ushiftRight, getLsbD_allOnes, hi, decide_true, Bool.true_and]
    by_cases h1 : ofs ≤ i <;> by_cases h2 : i < ofs + len <;> simp [h1, h2] <;> omega
  simp only [evalDeposit, getLsbD_or, getLsbD_and, getLsbD_not, hmask, hi,
    decide_true, Bool.true_and, getLsbD_shiftLeft]
  split_ifs with hin
  · simp [hin, show ¬ i < ofs by omega]
  · simp [hin]

/-- The bits of `x` outside the field, with `z` in the field, where `z` is `y` moved there. -/
theorem deposit_by_mask (h : ofs + len ≤ n) (hlen : len < n) (x y z : BitVec n)
    (hz : ∀ i < n, z.getLsbD i = (decide (ofs ≤ i ∧ i < ofs + len) && y.getLsbD (i - ofs))) :
    x &&& ~~~ ((1#n <<< len - 1#n) <<< ofs) ||| z = evalDeposit ofs len x y := by
  apply eq_of_getLsbD_eq
  intro i hi
  rw [getLsbD_evalDeposit h x y hi, getLsbD_or, getLsbD_and, getLsbD_not,
    getLsbD_shiftLeft, getLsbD_one_shl_sub_one hlen, hz i hi]
  by_cases h1 : ofs ≤ i
  · by_cases h2 : i < ofs + len
    · simp [h1, h2, hi, show ¬ i < ofs by omega, show i - ofs < len by omega]
    · simp [h2, hi, show ¬ i - ofs < len by omega]
  · simp [h1, hi, show i < ofs by omega]

theorem deposit_inside (h : ofs + len < n) (x y : BitVec n) :
    x &&& ~~~ ((1#n <<< len - 1#n) <<< ofs) ||| (y &&& (1#n <<< len - 1#n)) <<< ofs =
      evalDeposit ofs len x y := by
  refine deposit_by_mask h.le (by omega) x y _ fun i hi => ?_
  rw [getLsbD_shiftLeft, getLsbD_and, getLsbD_one_shl_sub_one (by omega)]
  by_cases h1 : ofs ≤ i
  · simp [h1, hi, show ¬ i < ofs by omega, show i - ofs < len ↔ i < ofs + len by omega, Bool.and_comm]
  · simp [h1, show i < ofs by omega]

theorem deposit_top (h : ofs + len = n) (hlen : len < n) (x y : BitVec n) :
    x &&& ~~~ ((1#n <<< len - 1#n) <<< ofs) ||| y <<< ofs = evalDeposit ofs len x y := by
  refine deposit_by_mask h.le hlen x y _ fun i hi => ?_
  rw [getLsbD_shiftLeft]
  by_cases h1 : ofs ≤ i
  · simp [h1, hi, show ¬ i < ofs by omega, show i < ofs + len by omega]
  · simp [h1, show i < ofs by omega]

theorem evalDeposit_full (x y : BitVec n) : evalDeposit 0 n x y = y := by
  apply eq_of_getLsbD_eq
  intro i hi
  rw [getLsbD_evalDeposit (by omega) x y hi, if_pos (by omega), Nat.sub_zero]

theorem name_free : (Temp.single free).name < free + 1 := lt_succ_self free

theorem sets_mov : Sets tgt free (tcgGenMovI32 ret arg) s ret (s.val arg) := by
  unfold tcgGenMovI32
  split_ifs with h
  · subst h
    refine ends_nil ⟨fun t _ => ?_, rfl, rfl, rfl⟩
    rw [Mach.set_val]
    split_ifs with ht
    · rw [ht]
    · rfl
  · exact sets_of_exec rfl

theorem sets_movi : Sets tgt free (tcgGenMoviI32 ret v) s ret v := sets_of_exec rfl

theorem sets_unary {f : Unary} (h : evalUnary f (s.val arg) = some v) :
    Sets tgt free [.unary f ret arg] s ret v := sets_of_exec (by simp [exec, h])

variable {f : Binary}

theorem sets_binary (h : evalBinary f (s.val arg1) (s.val arg2) = some v) :
    Sets tgt free [.binary f ret arg1 arg2] s ret v := sets_of_exec (by simp [exec, h])

theorem sets_withConst (h1 : arg1.name < free) (h : evalBinary f (s.val arg1) c = some v) :
    Sets tgt free (withConstI32 free f ret arg1 c) s ret v := by
  refine sets_movi.scratch fun s1 e1 => sets_binary ?_
  rw [e1.val_set (by omega), e1.val_set name_free, if_neg (ne_single_free h1), if_pos rfl, h]

theorem sets_subfi (h2 : arg2.name < free) :
    Sets tgt free (tcgGenSubfiI32 tgt free ret c arg2) s ret (c - s.val arg2) := by
  unfold tcgGenSubfiI32
  split_ifs with h
  · exact sets_unary (by simp [evalUnary, h.1])
  · refine sets_movi.scratch fun s1 e1 => sets_binary ?_
    rw [e1.val_set name_free, e1.val_set (by omega), if_pos rfl, if_neg (ne_single_free h2)]
    rfl

theorem sets_neg (h1 : arg.name < free) :
    Sets tgt free (tcgGenNegI32 tgt free ret arg) s ret (-s.val arg) := by
  unfold tcgGenNegI32
  split_ifs with h
  · exact sets_unary rfl
  · exact (sets_subfi h1).of_eq (by simp)

section

variable (h1 : arg1.name < free)
include h1

theorem sets_andi :
    Sets tgt free (tcgGenAndiI32 tgt free ret arg1 c) s ret (s.val arg1 &&& c) := by
  unfold tcgGenAndiI32
  split_ifs with h₁ h₂ h3 h4
  · exact sets_movi.of_eq (by simp [h₁])
  · refine sets_mov.of_eq ?_
    rw [h₂, show (0xffffffff : BitVec 32) = allOnes 32 from rfl, and_allOnes]
  · exact (sets_unary rfl).of_eq (by rw [h3.1]; exact (and_mask (s.val arg1) 8).symm)
  · exact (sets_unary rfl).of_eq (by rw [h4.1]; exact (and_mask (s.val arg1) 16).symm)
  · exact sets_withConst h1 rfl

theorem sets_ori :
    Sets tgt free (tcgGenOriI32 free ret arg1 c) s ret (s.val arg1 ||| c) := by
  unfold tcgGenOriI32
  split_ifs with h₁ h₂
  · refine sets_movi.of_eq ?_
    rw [h₁, show (-1 : BitVec 32) = allOnes 32 from rfl, or_allOnes]
  · exact sets_mov.of_eq (by simp [h₂])
  · exact sets_withConst h1 rfl

theorem sets_xori :
    Sets tgt free (tcgGenXoriI32 tgt free ret arg1 c) s ret (s.val arg1 ^^^ c) := by
  unfold tcgGenXoriI32
  split_ifs with h₁ h₂
  · exact sets_mov.of_eq (by simp [h₁])
  · refine (sets_unary rfl).of_eq ?_
    rw [h₂.1, show (-1 : BitVec 32) = allOnes 32 from rfl, xor_allOnes]
  · exact sets_withConst h1 rfl

end

theorem sets_not (h1 : arg.name < free) :
    Sets tgt free (tcgGenNotI32 tgt free ret arg) s ret (~~~ s.val arg) := by
  unfold tcgGenNotI32
  split_ifs with h
  · exact sets_unary rfl
  · refine (sets_xori h1).of_eq ?_
    rw [show (-1 : BitVec 32) = allOnes 32 from rfl, xor_allOnes]

theorem sets_shiftConst {g : BitVec 32 → Nat → BitVec 32} {c : Nat}
    (hf : ∀ x y : BitVec 32, evalBinary f x y = shiftBy g x y) (h0 : ∀ x, g x 0 = x)
    (h1 : arg1.name < free) (hc : c < 32) :
    Sets tgt free (shiftConstI32 f free ret arg1 c) s ret (g (s.val arg1) c) := by
  unfold shiftConstI32
  split_ifs with h
  · exact sets_mov.of_eq (by rw [h, h0])
  · refine sets_withConst h1 ?_
    have hcount : (ofNat 32 c).toNat = c := by
      rw [toNat_ofNat]
      exact mod_eq_of_lt (by omega)
    rw [hf, shiftBy, hcount, if_pos hc]

variable {c : Nat} {g : Binary}

theorem sets_shli (h1 : arg1.name < free) (hc : c < 32) :
    Sets tgt free (tcgGenShliI32 free ret arg1 c) s ret (s.val arg1 <<< c) :=
  sets_shiftConst (fun _ _ => rfl) (fun _ => shiftLeft_zero _) h1 hc

theorem sets_shri (h1 : arg1.name < free) (hc : c < 32) :
    Sets tgt free (tcgGenShriI32 free ret arg1 c) s ret (s.val arg1 >>> c) :=
  sets_shiftConst (fun _ _ => rfl) (fun _ => ushiftRight_zero _) h1 hc

theorem sets_sari (h1 : arg1.name < free) (hc : c < 32) :
    Sets tgt free (tcgGenSariI32 free ret arg1 c) s ret ((s.val arg1).sshiftRight c) :=
  sets_shiftConst (fun _ _ => rfl) (fun _ => sshiftRight_zero) h1 hc

theorem sets_viaNot {x y : BitVec 32} (hx : s.val arg1 = x) (hy : s.val arg2 = y)
    (h1 : arg1.name < free) (h2 : arg2.name < free) (hf : evalBinary f x y = some v)
    (hg : evalBinary g x (~~~ y) = some v) :
    Sets tgt free (viaNotI32 f g tgt free ret arg1 arg2) s ret v := by
  unfold viaNotI32
  split_ifs with h
  · exact sets_binary (by rw [hx, hy, hf])
  · refine (sets_not (by omega)).scratch fun s1 e1 => sets_binary ?_
    rw [e1.val_set (by omega), e1.val_set name_free, if_neg (ne_single_free h1), if_pos rfl, hx, hy, hg]

theorem sets_thenNot {w : BitVec 32} (hret : ret.name < free)
    (hf : evalBinary f (s.val arg1) (s.val arg2) = some (~~~ w))
    (hg : evalBinary g (s.val arg1) (s.val arg2) = some w) :
    Sets tgt free (thenNotI32 f g tgt free ret arg1 arg2) s ret (~~~ w) := by
  unfold thenNotI32
  split_ifs with h
  · exact sets_binary hf
  · refine (sets_binary hg).again fun s1 e1 => (sets_not hret).of_eq ?_
    rw [e1.val_set hret, if_pos rfl]

theorem sets_extSign {f : Unary} {k : Nat} (hk0 : 0 < k) (hk : k < 32) (hret : ret.name < free)
    (h1 : arg.name < free) (hf : ∀ x : BitVec 32, evalUnary f x = some ((x.setWidth k).signExtend 32)) :
    Sets tgt free (extSignI32 f (32 - k) tgt free ret arg) s ret
      (((s.val arg).setWidth k).signExtend 32) := by
  unfold extSignI32
  split_ifs with h
  · exact sets_unary (hf _)
  · refine (sets_shli h1 (by omega)).again fun s1 e1 => (sets_sari hret (by omega)).of_eq ?_
    rw [e1.val_set hret, if_pos rfl, shl_sar _ hk0 hk.le]

theorem sets_extZero {f : Unary} {k : Nat} (h1 : arg.name < free)
    (hf : ∀ x : BitVec 32, evalUnary f x = some ((x.setWidth k).setWidth 32)) :
    Sets tgt free (extZeroI32 f (ofNat 32 (2 ^ k - 1)) tgt free ret arg) s ret
      (((s.val arg).setWidth k).setWidth 32) := by
  unfold extZeroI32
  split_ifs with h
  · exact sets_unary (hf _)
  · exact (sets_andi h1).of_eq (and_mask _ k)

theorem Sets.insert {m z : BitVec 32} (hret : ret.name < free) (h1 : arg1.name < free)
    (h : Sets tgt (free + 1) code s (.single free) z) :
    Sets tgt free (code ++ (tcgGenAndiI32 tgt (free + 1) ret arg1 m ++
      [.binary .or ret ret (.single free)])) s ret (s.val arg1 &&& m ||| z) := by
  refine h.scratch fun s1 e1 => (sets_andi (by omega)).again fun s2 e2 => sets_binary ?_
  rw [e2.val_set (by omega), e2.val_set name_free, if_pos rfl, if_neg (ne_single_free hret).symm,
    e1.val_set (by omega), e1.val_set name_free, if_neg (ne_single_free h1), if_pos rfl]
  rfl

theorem sets_deposit (hofs : ofs < 32) (h : ofs + len ≤ 32) (hret : ret.name < free)
    (h1 : arg1.name < free) (h2 : arg2.name < free) :
    Sets tgt free (tcgGenDepositI32 tgt free ret arg1 arg2 ofs len) s ret
      (evalDeposit ofs len (s.val arg1) (s.val arg2)) := by
  unfold tcgGenDepositI32
  split_ifs with hfull hhas hin
  · obtain ⟨rfl, rfl⟩ := hfull
    exact sets_mov.of_eq (evalDeposit_full _ _).symm
  · exact sets_of_exec rfl
  · refine (Sets.insert hret h1 ((sets_andi (by omega)).again fun s1 e1 =>
      (sets_shli name_free hofs).of_eq ?_)).of_eq (deposit_inside hin _ _)
    rw [e1.val_set name_free, if_pos rfl]
  · exact (Sets.insert hret h1 (sets_shli (by omega) hofs)).of_eq (deposit_top (by omega) (by omega) _ _)

end TcgArm.Half
