import TcgArm.Host
import TcgArm.Literals

/-! The intermediate representation of the code generator: temporaries, opcodes and op lists. An
opcode carries its constant operands (condition, label, offset, immediate); its output and input
operands are temporaries. The tables follow `tcg-opc.h`. -/

namespace TcgArm.Tcg

/-- A value of a temporary; a 32-bit temporary uses the low half. -/
abbrev Word := BitVec 64

/-- `TCGType`. -/
inductive Width where
  | w32
  | w64
  deriving DecidableEq, Repr

def Width.bits : Width → Nat
  | .w32 => 32
  | .w64 => 64

/-- The value that a temporary of this type holds: the part above its width does not count. -/
def Width.norm : Width → Word → Word
  | .w32, v => (v.setWidth 32).setWidth 64
  | .w64, v => v

/-- `TCGCond` without `TCG_COND_NEVER` and `TCG_COND_ALWAYS`, which no op holds. -/
inductive Cond where
  | eq
  | ne
  | lt
  | ge
  | le
  | gt
  | ltu
  | geu
  | leu
  | gtu
  deriving DecidableEq, Repr

def tcgInvertCond : Cond → Cond
  | .eq => .ne
  | .ne => .eq
  | .lt => .ge
  | .ge => .lt
  | .le => .gt
  | .gt => .le
  | .ltu => .geu
  | .geu => .ltu
  | .leu => .gtu
  | .gtu => .leu

/-- Ops of one operand that exist in both widths. -/
inductive Unary where
  | not
  | neg
  | ext8s
  | ext16s
  | ext8u
  | ext16u
  | bswap16
  | bswap32
  deriving DecidableEq, Repr

/-- Ops of one operand that exist for 64 bits only. -/
inductive Unary64 where
  | ext32s
  | ext32u
  | bswap64
  deriving DecidableEq, Repr

/-- Size changing ops. -/
inductive Convert where
  | ext_i32_i64
  | extu_i32_i64
  | extrl_i64_i32
  | extrh_i64_i32
  deriving DecidableEq, Repr

inductive Binary where
  | add
  | sub
  | mul
  | and
  | or
  | xor
  | shl
  | shr
  | sar
  | rotl
  | rotr
  | andc
  | orc
  | eqv
  | nand
  | nor
  | muluh
  | mulsh
  | div
  | divu
  | rem
  | remu
  deriving DecidableEq, Repr

/-- Ops with a low and a high output. -/
inductive Double where
  | add2
  | sub2
  | mulu2
  | muls2
  | div2
  | divu2
  deriving DecidableEq, Repr

/-- Loads from host memory that exist in both widths; `full` has the width of the op. -/
inductive LoadKind where
  | u8
  | s8
  | u16
  | s16
  | full
  deriving DecidableEq, Repr

inductive StoreKind where
  | b8
  | b16
  | full
  deriving DecidableEq, Repr

/-- A `TCGMemOp` with its index: the size exponent, `MO_SIGN`, and what only the access itself looks
at (byte order, alignment, MMU index). -/
structure MemOp where
  size : Fin 4
  sign : Bool
  rest : Nat
  deriving DecidableEq, Repr

/-- `TCGOpcode` with the constant operands of the op. -/
inductive Opcode where
  | discard (width : Width)
  | setLabel (label : Nat)
  | br (label : Nat)
  | mov (width : Width)
  | movi (width : Width) (val : Word)
  | setcond (width : Width) (cond : Cond)
  | movcond (width : Width) (cond : Cond)
  | ld (width : Width) (kind : LoadKind) (offset : Int)
  | ld32 (signed : Bool) (offset : Int)
  | st (width : Width) (kind : StoreKind) (offset : Int)
  | st32 (offset : Int)
  | unary (width : Width) (f : Unary)
  | unary64 (f : Unary64)
  | convert (f : Convert)
  | binary (width : Width) (f : Binary)
  | double (width : Width) (f : Double)
  | deposit (width : Width) (ofs len : Nat)
  | brcond (width : Width) (cond : Cond) (label : Nat)
  | brcond2 (cond : Cond) (label : Nat)
  | setcond2 (cond : Cond)
  | insnStart
  | exitTb (val : Word)
  | gotoTb (slot : Nat)
  | qemuLd (width : Width) (memop : MemOp)
  | qemuSt (width : Width) (memop : MemOp)
  deriving DecidableEq, Repr

def ptrWidth : Host → Width
  | .bits32 => .w32
  | .bits64 => .w64

/-- How a 64-bit value of a guest access is held: in one temporary or in two. -/
def dataWidths : Host → Width → List Width
  | _, .w32 => [.w32]
  | .bits64, .w64 => [.w64]
  | .bits32, .w64 => [.w32, .w32]

namespace Opcode

def outWidths (host : Host) : Opcode → List Width
  | discard w | mov w | movi w _ | setcond w _ | movcond w _ | ld w _ _ | unary w _ | binary w _
  | deposit w _ _ => [w]
  | ld32 _ _ | unary64 _ | convert .ext_i32_i64 | convert .extu_i32_i64 => [.w64]
  | convert .extrl_i64_i32 | convert .extrh_i64_i32 | setcond2 _ => [.w32]
  | double w _ => [w, w]
  | qemuLd w _ => dataWidths host w
  | setLabel _ | br _ | st _ _ _ | st32 _ | brcond _ _ _ | brcond2 _ _ | insnStart | exitTb _
  | gotoTb _ | qemuSt _ _ => []

def inWidths (host : Host) : Opcode → List Width
  | mov w | unary w _ => [w]
  | setcond w _ | binary w _ | deposit w _ _ | brcond w _ _ => [w, w]
  | movcond w _ => [w, w, w, w]
  | ld _ _ _ | ld32 _ _ => [ptrWidth host]
  | st w _ _ => [w, ptrWidth host]
  | st32 _ => [.w64, ptrWidth host]
  | unary64 _ | convert .extrl_i64_i32 | convert .extrh_i64_i32 => [.w64]
  | convert .ext_i32_i64 | convert .extu_i32_i64 => [.w32]
  | double w .add2 | double w .sub2 => [w, w, w, w]
  | double w .mulu2 | double w .muls2 => [w, w]
  | double w .div2 | double w .divu2 => [w, w, w]
  | brcond2 _ _ | setcond2 _ => [.w32, .w32, .w32, .w32]
  | qemuLd _ _ => [.w32]
  | qemuSt w _ => dataWidths host w ++ [.w32]
  | discard _ | setLabel _ | br _ | movi _ _ | insnStart | exitTb _ | gotoTb _ => []

/-- `TCG_OPF_BB_END`. -/
def bbEnd : Opcode → Bool
  | setLabel _ | br _ | brcond _ _ _ | brcond2 _ _ | exitTb _ | gotoTb _ => true
  | _ => false

/-- `TCG_OPF_SIDE_EFFECTS`. -/
def sideEffects : Opcode → Bool
  | qemuLd _ _ | qemuSt _ _ => true
  | _ => false

/-- The bit field of a `deposit` lies within the word. -/
def FieldInside : Opcode → Prop
  | deposit w ofs len => 0 < len ∧ ofs + len ≤ w.bits
  | _ => True

end Opcode

/-- What `tcg_gen_callN` is told about a helper. -/
structure CallFlags where
  noReadGlobals : Bool
  noWriteGlobals : Bool
  noSideEffects : Bool
  deriving DecidableEq, Repr

/-- Neither `TCG_CALL_NO_READ_GLOBALS` nor `TCG_CALL_NO_WRITE_GLOBALS`. -/
def CallFlags.writesGlobals (flags : CallFlags) : Bool :=
  !(flags.noReadGlobals || flags.noWriteGlobals)

/-- An op over `n` temporaries. A call has any number of operands; an input that only aligns the
next one (`TCG_CALL_DUMMY_ARG`) is `none`. -/
inductive Op (n : Nat) where
  | call (func : Nat) (flags : CallFlags) (oargs : List (Fin n)) (iargs : List (Option (Fin n)))
  | plain (opc : Opcode) (oargs iargs : List (Fin n))
  deriving DecidableEq, Repr

namespace Op

variable {n : Nat}

def outs : Op n → List (Fin n)
  | call _ _ oargs _ => oargs
  | plain _ oargs _ => oargs

def ins : Op n → List (Fin n)
  | call _ _ _ iargs => iargs.filterMap id
  | plain _ _ iargs => iargs

def bbEnd : Op n → Bool
  | call _ _ _ _ => false
  | plain opc _ _ => opc.bbEnd

def label? : Op n → Option Nat
  | plain (.setLabel l) _ _ => some l
  | _ => none

end Op

/-- What the passes read of a `TCGContext` with `n` temporaries, and of the host's
`TCG_TARGET_HAS_*`. Globals come first. A 32-bit host has no 64-bit temporaries: a 64-bit variable
of the front end is a pair of 32-bit ones there. -/
structure Ctx (n : Nat) where
  host : Host
  nbGlobals : Nat
  ty : Fin n → Width
  tempLocal : Fin n → Bool
  hasMuluh : Width → Bool
  hasMulsh : Width → Bool
  wide : ∀ t, ty t = .w64 → host = .bits64

namespace Ctx

variable {n : Nat}

def isGlobal (ctx : Ctx n) (t : Fin n) : Bool := decide (t.val < ctx.nbGlobals)

/-- The value of `t` outlives a basic block. -/
def persists (ctx : Ctx n) (t : Fin n) : Bool := ctx.isGlobal t || ctx.tempLocal t

/-- The operand conventions of the op table. The front end builds ops through typed constructors,
which keep them; a 32-bit op may read the low half of a 64-bit temporary, as the `mov_i32` that
stands for `extrl_i64_i32` does. -/
structure WellFormed (ctx : Ctx n) (opc : Opcode) (oargs iargs : List (Fin n)) : Prop where
  outs : List.Forall₂ (fun t w => ctx.ty t = w) oargs (opc.outWidths ctx.host)
  ins : List.Forall₂ (fun t w => w = .w64 → ctx.ty t = .w64) iargs (opc.inWidths ctx.host)
  distinct : oargs.Nodup
  field : opc.FieldInside

def OpOk (ctx : Ctx n) : Op n → Prop
  | .plain opc oargs iargs => ctx.WellFormed opc oargs iargs
  | .call _ _ oargs _ => oargs.Nodup

end Ctx

end TcgArm.Tcg
