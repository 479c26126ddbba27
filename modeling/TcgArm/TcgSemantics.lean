import TcgArm.TcgOps
import TcgArm.Transition

/-! The meaning of op lists. Temporaries hold words or nothing; an op reads its inputs, acts on its
surroundings (host memory, guest memory, helpers) and writes its outputs. What is left undefined (a
temporary read before it is written, a shift by the word size or more, a division that overflows)
has no meaning here: such a step does not exist. -/

namespace TcgArm.Tcg

section Arithmetic

variable {n : Nat}

def evalCond : Cond → BitVec n → BitVec n → Bool
  | .eq, x, y => x == y
  | .ne, x, y => x != y
  | .lt, x, y => x.slt y
  | .ge, x, y => y.sle x
  | .le, x, y => x.sle y
  | .gt, x, y => y.slt x
  | .ltu, x, y => x.ult y
  | .geu, x, y => y.ule x
  | .leu, x, y => x.ule y
  | .gtu, x, y => y.ult x

/-- The low `k` bytes of `x` in reverse order. -/
def byteSwap (k : Nat) (x : BitVec n) : BitVec n :=
  (List.range k).foldl (fun acc i => acc <<< 8 ||| ((x >>> (8 * i)).setWidth 8).setWidth n) 0

/-- A byte swap of `k` bytes takes the bytes above to be zero. -/
def swapLow (k : Nat) (x : BitVec n) : Option (BitVec n) :=
  if x.toNat < 2 ^ (8 * k) then some (byteSwap k x) else none

def evalUnary : Unary → BitVec n → Option (BitVec n)
  | .not, x => some (~~~ x)
  | .neg, x => some (-x)
  | .ext8s, x => some ((x.setWidth 8).signExtend n)
  | .ext16s, x => some ((x.setWidth 16).signExtend n)
  | .ext8u, x => some ((x.setWidth 8).setWidth n)
  | .ext16u, x => some ((x.setWidth 16).setWidth n)
  | .bswap16, x => swapLow 2 x
  | .bswap32, x => swapLow 4 x

def evalUnary64 : Unary64 → Word → Word
  | .ext32s, x => (x.setWidth 32).signExtend 64
  | .ext32u, x => (x.setWidth 32).setWidth 64
  | .bswap64, x => byteSwap 8 x

def evalConvert : Convert → Word → Word
  | .ext_i32_i64, x => (x.setWidth 32).signExtend 64
  | .extu_i32_i64, x => (x.setWidth 32).setWidth 64
  | .extrl_i64_i32, x => (x.setWidth 32).setWidth 64
  | .extrh_i64_i32, x => x >>> 32

/-- The shift or rotation `f` by a count below the word size. -/
def shiftBy (f : BitVec n → Nat → BitVec n) (x count : BitVec n) : Option (BitVec n) :=
  if count.toNat < n then some (f x count.toNat) else none

def highHalf (r : BitVec (n + n)) : BitVec n := (r >>> n).setWidth n

/-- A signed division that is defined: the divisor is not zero and the quotient fits. -/
def signedDiv (f : BitVec n → BitVec n → BitVec n) (x y : BitVec n) : Option (BitVec n) :=
  if y = 0 ∨ (x = BitVec.intMin n ∧ y = -1) then none else some (f x y)

def unsignedDiv (f : BitVec n → BitVec n → BitVec n) (x y : BitVec n) : Option (BitVec n) :=
  if y = 0 then none else some (f x y)

def evalBinary : Binary → BitVec n → BitVec n → Option (BitVec n)
  | .add, x, y => some (x + y)
  | .sub, x, y => some (x - y)
  | .mul, x, y => some (x * y)
  | .and, x, y => some (x &&& y)
  | .or, x, y => some (x ||| y)
  | .xor, x, y => some (x ^^^ y)
  | .shl, x, y => shiftBy (fun x k => x <<< k) x y
  | .shr, x, y => shiftBy (fun x k => x >>> k) x y
  | .sar, x, y => shiftBy BitVec.sshiftRight x y
  | .rotl, x, y => shiftBy BitVec.rotateLeft x y
  | .rotr, x, y => shiftBy BitVec.rotateRight x y
  | .andc, x, y => some (x &&& ~~~ y)
  | .orc, x, y => some (x ||| ~~~ y)
  | .eqv, x, y => some (~~~ (x ^^^ y))
  | .nand, x, y => some (~~~ (x &&& y))
  | .nor, x, y => some (~~~ (x ||| y))
  | .muluh, x, y => some (highHalf (x.setWidth (n + n) * y.setWidth (n + n)))
  | .mulsh, x, y => some (highHalf (x.signExtend (n + n) * y.signExtend (n + n)))
  | .div, x, y => signedDiv BitVec.sdiv x y
  | .divu, x, y => unsignedDiv BitVec.udiv x y
  | .rem, x, y => signedDiv BitVec.srem x y
  | .remu, x, y => unsignedDiv BitVec.umod x y

def halves (r : BitVec (n + n)) : List (BitVec n) := [r.setWidth n, highHalf r]

/-- Quotient and remainder of a double word by a word, where the quotient fits a word. -/
def divide (extend : BitVec n → BitVec (n + n)) (q r : BitVec (n + n)) (d : BitVec n) :
    Option (List (BitVec n)) :=
  if d = 0 ∨ extend (q.setWidth n) ≠ q then none else some [q.setWidth n, r.setWidth n]

def evalDouble : Double → List (BitVec n) → Option (List (BitVec n))
  | .add2, [al, ah, bl, bh] => some (halves ((ah ++ al) + (bh ++ bl)))
  | .sub2, [al, ah, bl, bh] => some (halves ((ah ++ al) - (bh ++ bl)))
  | .mulu2, [x, y] => some (halves (x.setWidth (n + n) * y.setWidth (n + n)))
  | .muls2, [x, y] => some (halves (x.signExtend (n + n) * y.signExtend (n + n)))
  | .div2, [lo, hi, d] =>
    divide (·.signExtend (n + n)) ((hi ++ lo).sdiv (d.signExtend (n + n)))
      ((hi ++ lo).srem (d.signExtend (n + n))) d
  | .divu2, [lo, hi, d] =>
    divide (·.setWidth (n + n)) ((hi ++ lo).udiv (d.setWidth (n + n)))
      ((hi ++ lo).umod (d.setWidth (n + n))) d
  | _, _ => none

/-- `x` with the low `len` bits of `y` at position `ofs`. -/
def evalDeposit (ofs len : Nat) (x y : BitVec n) : BitVec n :=
  (x &&& ~~~ ((BitVec.allOnes n >>> (n - len)) <<< ofs)) |||
    ((y <<< ofs) &&& ((BitVec.allOnes n >>> (n - len)) <<< ofs))

def evalSetcond (c : Cond) (x y : BitVec n) : BitVec n := if evalCond c x y then 1 else 0

end Arithmetic

def Opcode.eval : Opcode → List Word → Option (List Word)
  | .mov w, [x] => some [w.norm x]
  | .movi w v, [] => some [w.norm v]
  | .setcond w c, [x, y] =>
    some [(evalSetcond c (x.setWidth w.bits) (y.setWidth w.bits)).setWidth 64]
  | .movcond w c, [x, y, v₁, v₂] =>
    some [w.norm (if evalCond c (x.setWidth w.bits) (y.setWidth w.bits) then v₁ else v₂)]
  | .unary w f, [x] => (evalUnary f (x.setWidth w.bits)).map fun r => [r.setWidth 64]
  | .unary64 f, [x] => some [evalUnary64 f x]
  | .convert f, [x] => some [evalConvert f x]
  | .binary w f, [x, y] =>
    (evalBinary f (x.setWidth w.bits) (y.setWidth w.bits)).map fun r => [r.setWidth 64]
  | .double w f, xs => (evalDouble f (xs.map (·.setWidth w.bits))).map (·.map (·.setWidth 64))
  | .deposit w ofs len, [x, y] =>
    some [(evalDeposit ofs len (x.setWidth w.bits) (y.setWidth w.bits)).setWidth 64]
  | .setcond2 c, [al, ah, bl, bh] =>
    some [(evalSetcond c (ah.setWidth 32 ++ al.setWidth 32) (bh.setWidth 32 ++ bl.setWidth 32)).setWidth 64]
  | _, _ => none

abbrev Globals (n : Nat) := Fin n → Option Word

/-- Every value of `g` is a value of `g'`. -/
def Within {n : Nat} (g g' : Globals n) : Prop := ∀ t v, g t = some v → g' t = some v

/-- What a helper leaves: results, the globals, the rest of the machine; or it raises an exception
and does not return. -/
structure Reply (n : Nat) (W : Type) where
  results : List Word
  globals : Globals n
  world : W
  raised : Bool

structure Reply.Within {n : Nat} {W : Type} (r r' : Reply n W) : Prop where
  results : r'.results = r.results
  globals : Tcg.Within r.globals r'.globals
  world : r'.world = r.world
  raised : r'.raised = r.raised

/-- Everything around the op list. A helper that does well without the value of a global does the
same when the global has a value. -/
structure Env (n : Nat) (W : Type) where
  helper : Nat → List Word → Globals n → W → Option (Reply n W)
  /-- A read of host memory of the given number of bytes. -/
  load : Nat → Word → W → Option Word
  store : Nat → Word → Word → W → Option W
  /-- A guest access yields no value when it raises an exception. -/
  guestLoad : MemOp → Word → W → Option (W × Option Word)
  guestStore : MemOp → Word → Word → W → Option (W × Bool)
  /-- The jump of `goto_tb` is patched. -/
  chained : Nat → W → Bool
  helper_mono : ∀ {func args g g' w r}, Within g g' → helper func args g w = some r →
    ∃ r', helper func args g' w = some r' ∧ r.Within r'

/-- What an observer of the running code sees. -/
inductive Event where
  | call (func : Nat) (args : List Word)
  | load (bytes : Nat) (addr : Word)
  | store (bytes : Nat) (addr val : Word)
  | guestLoad (memop : MemOp) (addr : Word)
  | guestStore (memop : MemOp) (addr val : Word)
  | branch (label : Nat)
  deriving DecidableEq, Repr

/-- How the code of a block is left. -/
inductive Exit where
  | exitTb (val : Word)
  | gotoTb (slot : Nat)
  | exception
  deriving DecidableEq, Repr

/-- What an op does once its inputs are read. -/
inductive Action (n : Nat) (W : Type) where
  /-- Write the outputs; `discard` leaves its operand without a value. -/
  | assign (ys : List (Option Word)) (w : W)
  /-- A helper returns and may have changed the globals. -/
  | helper (ys : List (Option Word)) (g : Globals n) (w : W)
  | raise (g : Globals n) (w : W)
  /-- The basic block ends; control goes on with the next op or to a label. -/
  | endBlock (target : Option Nat) (w : W)
  | leave (e : Exit) (w : W)

section Perform

variable {n : Nat} {W : Type}

def LoadKind.bytes : LoadKind → Width → Nat
  | .u8, _ | .s8, _ => 1
  | .u16, _ | .s16, _ => 2
  | .full, w => w.bits / 8

def LoadKind.extend : LoadKind → Width → Word → Word
  | .u8, _, v => (v.setWidth 8).setWidth 64
  | .s8, w, v => ((v.setWidth 8).signExtend w.bits).setWidth 64
  | .u16, _, v => (v.setWidth 16).setWidth 64
  | .s16, w, v => ((v.setWidth 16).signExtend w.bits).setWidth 64
  | .full, w, v => w.norm v

def StoreKind.bytes : StoreKind → Width → Nat
  | .b8, _ => 1
  | .b16, _ => 2
  | .full, w => w.bits / 8

/-- The low `bytes` bytes of a word. -/
def lowBytes (bytes : Nat) (v : Word) : Word := (v.setWidth (8 * bytes)).setWidth 64

def MemOp.bits (memop : MemOp) : Nat := 8 <<< memop.size.val

/-- A guest value of the access size, extended to 64 bits. -/
def MemOp.extend (memop : MemOp) (v : Word) : Word :=
  if memop.sign then (v.setWidth memop.bits).signExtend 64
  else (v.setWidth memop.bits).setWidth 64

def splitData (host : Host) (w : Width) (v : Word) : List Word :=
  match dataWidths host w with
  | [_, _] => [Width.w32.norm v, v >>> 32]
  | _ => [w.norm v]

def joinData : List Word → Word
  | [lo, hi] => hi.setWidth 32 ++ lo.setWidth 32
  | [v] => v
  | _ => 0

def hostAddr (host : Host) (base : Word) (offset : Int) : Word :=
  (ptrWidth host).norm (base + BitVec.ofInt 64 offset)

def Action.jump (l : Nat) (w : W) : Action n W × List Event := (.endBlock (some l) w, [.branch l])

def Action.jumpIf (taken : Bool) (l : Nat) (w : W) : Action n W × List Event :=
  if taken then Action.jump l w else (.endBlock none w, [])

/-- A call as its flags describe it. A helper that does not read globals sees none of them, and it
cannot raise an exception, which would read them. One without side effects leaves nothing but its
results. -/
def callAction (env : Env n W) (func : Nat) (flags : CallFlags) (args : List Word) (g : Globals n)
    (w : W) : Option (Action n W) :=
  (env.helper func args (if flags.noReadGlobals then fun _ => none else g) w).bind fun reply =>
    if flags.noSideEffects then
      if reply.raised then none else some (.assign (reply.results.map some) w)
    else if reply.raised then
      if flags.noReadGlobals then none
      else some (.raise (if flags.noWriteGlobals then g else reply.globals) reply.world)
    else if flags.writesGlobals then
      some (.helper (reply.results.map some) reply.globals reply.world)
    else some (.assign (reply.results.map some) reply.world)

def guestLoadAction (host : Host) (env : Env n W) (w : Width) (memop : MemOp) (addr : Word)
    (g : Globals n) (world : W) : Option (Action n W) :=
  (env.guestLoad memop addr world).map fun (world', v) =>
    match v with
    | none => .raise g world'
    | some v => .assign ((splitData host w (memop.extend v)).map some) world'

def guestStoreAction (env : Env n W) (memop : MemOp) (addr v : Word) (g : Globals n) (world : W) :
    Option (Action n W) :=
  (env.guestStore memop addr v world).map fun (world', raised) =>
    if raised then .raise g world' else .assign [] world'

/-- The action of an op other than a call on given inputs, with what is observed of it. -/
def Opcode.perform (host : Host) (env : Env n W) (opc : Opcode) (xs : List Word) (g : Globals n)
    (w : W) : Option (Action n W × List Event) :=
  match opc, xs with
  | .discard _, [] => some (.assign [none] w, [])
  | .setLabel _, [] => some (.endBlock none w, [])
  | .br l, [] => some (Action.jump l w)
  | .brcond wd c l, [x, y] =>
    some (Action.jumpIf (evalCond c (x.setWidth wd.bits) (y.setWidth wd.bits)) l w)
  | .brcond2 c l, [al, ah, bl, bh] =>
    some (Action.jumpIf (evalCond c (ah.setWidth 32 ++ al.setWidth 32)
      (bh.setWidth 32 ++ bl.setWidth 32)) l w)
  | .insnStart, [] => some (.assign [] w, [])
  | .exitTb v, [] => some (.leave (.exitTb v) w, [])
  | .gotoTb i, [] =>
    some (if env.chained i w then .leave (.gotoTb i) w else .endBlock none w, [])
  | .ld wd kind ofs, [base] =>
    (env.load (kind.bytes wd) (hostAddr host base ofs) w).map fun v =>
      (.assign [some (kind.extend wd v)] w, [.load (kind.bytes wd) (hostAddr host base ofs)])
  | .ld32 signed ofs, [base] =>
    (env.load 4 (hostAddr host base ofs) w).map fun v =>
      (.assign [some (if signed then (v.setWidth 32).signExtend 64
        else (v.setWidth 32).setWidth 64)] w, [.load 4 (hostAddr host base ofs)])
  | .st wd kind ofs, [v, base] =>
    (env.store (kind.bytes wd) (hostAddr host base ofs) (lowBytes (kind.bytes wd) v) w).map
      fun w' => (.assign [] w',
        [.store (kind.bytes wd) (hostAddr host base ofs) (lowBytes (kind.bytes wd) v)])
  | .st32 ofs, [v, base] =>
    (env.store 4 (hostAddr host base ofs) (lowBytes 4 v) w).map fun w' =>
      (.assign [] w', [.store 4 (hostAddr host base ofs) (lowBytes 4 v)])
  | .qemuLd wd memop, [addr] =>
    (guestLoadAction host env wd memop (Width.w32.norm addr) g w).map fun a =>
      (a, [.guestLoad memop (Width.w32.norm addr)])
  | .qemuSt _ memop, xs =>
    xs.getLast?.bind fun addr =>
      (guestStoreAction env memop (Width.w32.norm addr) (joinData xs.dropLast) g w).map fun a =>
        (a, [.guestStore memop (Width.w32.norm addr) (joinData xs.dropLast)])
  | opc, xs => (opc.eval xs).map fun ys => (.assign (ys.map some) w, [])

def Op.perform (host : Host) (env : Env n W) (op : Op n) (xs : List Word) (g : Globals n) (w : W) :
    Option (Action n W × List Event) :=
  match op with
  | .call func flags _ _ => (callAction env func flags xs g w).map fun a => (a, [.call func xs])
  | .plain opc _ _ => opc.perform host env xs g w

end Perform

/-- The values of the temporaries, the rest of the machine and what has been observed. -/
structure State (n : Nat) (W : Type) where
  val : Fin n → Option Word
  world : W
  trace : List Event

/-- How one op ends. -/
inductive Next (n : Nat) (W : Type) where
  | fall (s : State n W)
  | jump (label : Nat) (s : State n W)
  | exit (e : Exit) (s : State n W)

section Run

variable {n : Nat} {W : Type}

/-- The value of `t` at its type. -/
def State.read (ctx : Ctx n) (s : State n W) (t : Fin n) : Option Word :=
  (s.val t).map (ctx.ty t).norm

def writeAll (val : Fin n → Option Word) : List (Fin n) → List (Option Word) → Fin n → Option Word
  | t :: ts, y :: ys => writeAll (Function.update val t y) ts ys
  | _, _ => val

def withGlobals (ctx : Ctx n) (val : Fin n → Option Word) (g : Globals n) : Fin n → Option Word :=
  fun t => if ctx.isGlobal t then g t else val t

/-- At the end of a basic block only globals and local temporaries keep their values. -/
def endOfBlock (ctx : Ctx n) (val : Fin n → Option Word) : Fin n → Option Word :=
  fun t => if ctx.persists t then val t else none

def Action.apply (ctx : Ctx n) (outs : List (Fin n)) (s : State n W) (events : List Event) :
    Action n W → Next n W
  | .assign ys w => .fall ⟨writeAll s.val outs ys, w, s.trace ++ events⟩
  | .helper ys g w => .fall ⟨writeAll (withGlobals ctx s.val g) outs ys, w, s.trace ++ events⟩
  | .raise g w => .exit .exception ⟨withGlobals ctx s.val g, w, s.trace ++ events⟩
  | .endBlock none w => .fall ⟨endOfBlock ctx s.val, w, s.trace ++ events⟩
  | .endBlock (some l) w => .jump l ⟨endOfBlock ctx s.val, w, s.trace ++ events⟩
  | .leave e w => .exit e ⟨endOfBlock ctx s.val, w, s.trace ++ events⟩

def afterLabel (l : Nat) : List (Op n) → Option (List (Op n))
  | [] => none
  | op :: ops => if op.label? = some l then some ops else afterLabel l ops

/-- The running list: the ops still ahead, or how the list was left. -/
inductive Cfg (n : Nat) (W : Type) where
  | run (rest : List (Op n)) (s : State n W)
  | done (e : Exit) (s : State n W)

def Next.resume (prog rest : List (Op n)) : Next n W → Option (Cfg n W)
  | .fall s => some (.run rest s)
  | .jump l s => (afterLabel l prog).map (.run · s)
  | .exit e s => some (.done e s)

end Run

def readVal {n : Nat} (ctx : Ctx n) (val : Fin n → Option Word) : Globals n :=
  fun t => (val t).map (ctx.ty t).norm

end TcgArm.Tcg
