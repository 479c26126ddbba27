import TcgArm.ByteMemory

/-! The register allocator of the code generator (`tcg.c`) for calls of helper functions: where the
value of each temporary is, and how it is loaded, stored and freed, with the host instructions
emitted on the way. A function that would end in `tcg_abort` or fail an assertion has no result.
Values are 64 bits wide; with 32-bit registers temporaries have 32 bits, and the upper halves mean
nothing. -/

namespace TcgArm.RegAlloc

abbrev Reg := Nat

/-- `TCGRegSet`. -/
abbrev RegSet := Finset Reg

inductive TcgType
  | i32
  | i64
  deriving DecidableEq

def TcgType.bytes : TcgType → Nat
  | .i32 => 4
  | .i64 => 8

def TcgType.bits (ty : TcgType) : Nat := 8 * ty.bytes

/-- What the build fixes about the host: its registers and its calling convention. -/
structure Target where
  /-- `sizeof(tcg_target_long)`. -/
  wordBytes : Nat
  /-- `HOST_WORDS_BIGENDIAN`. -/
  bigEndian : Bool
  nbRegs : Nat
  availableRegs : TcgType → RegSet
  reservedRegs : RegSet
  /-- The registers that the emitter of one host instruction may use for itself. -/
  scratchRegs : RegSet
  regAllocOrder : List Reg
  indirectRegAllocOrder : List Reg
  callIargRegs : List Reg
  callClobberRegs : RegSet
  callStack : Reg
  callStackOffset : Int
  stackAlign : Nat
  staticCallArgsSize : Nat
  /-- `TCG_TARGET_STACK_GROWSUP`. -/
  stackGrowsUp : Bool
  /-- `TCG_TARGET_CALL_ALIGN_ARGS`. -/
  callAlignArgs : Bool
  /-- `TCG_TARGET_EXTEND_ARGS`. -/
  extendArgs : Bool
  /-- SPARC with 64-bit registers and the 32-bit calling convention. -/
  split64 : Bool
  /-- Temporaries are placed in the frame at multiples of the word size (not on 64-bit SPARC). -/
  alignFrame : Bool
  /-- `tcg_out_sti`: can the constant be stored without a register? -/
  outSti : TcgType → BitVec 64 → Reg → Int → Bool

/-- The instructions that the allocator emits. -/
inductive HostOp
  | mov (ty : TcgType) (dst src : Reg)
  | movi (ty : TcgType) (dst : Reg) (val : BitVec 64)
  | ld (ty : TcgType) (dst base : Reg) (offset : Int)
  | st (ty : TcgType) (src base : Reg) (offset : Int)
  | sti (ty : TcgType) (val : BitVec 64) (base : Reg) (offset : Int)
  deriving DecidableEq

/-- `val_type`, with the register or the constant it goes with. -/
inductive TempVal
  | dead
  | reg (r : Reg)
  | mem
  | const (val : BitVec 64)
  deriving DecidableEq

/-- A temporary. `memBase` is the register of the fixed temporary that its slot is relative to. -/
structure Temp where
  type : TcgType
  val : TempVal
  memCoherent : Bool
  memAllocated : Bool
  memBase : Reg
  memOffset : Int
  fixedReg : Bool
  indirectBase : Bool
  tempLocal : Bool

structure Ctx where
  temps : Nat → Temp
  nbGlobals : Nat
  regToTemp : Reg → Option Nat
  frameReg : Reg
  currentFrameOffset : Int
  frameEnd : Int
  code : List HostOp

inductive FreeOrDead
  | keep
  | free
  | dead
  deriving DecidableEq

namespace Ctx

def setTemp (s : Ctx) (t : Nat) (ts : Temp) : Ctx :=
  { s with temps := Function.update s.temps t ts }

def setReg (s : Ctx) (r : Reg) (t : Option Nat) : Ctx :=
  { s with regToTemp := Function.update s.regToTemp r t }

def emit (s : Ctx) (op : HostOp) : Ctx :=
  { s with code := s.code ++ [op] }

def tempAllocateFrame (T : Target) (s : Ctx) (t : Nat) : Option Ctx :=
  let word : Int := T.wordBytes
  let offset :=
    if T.alignFrame then (s.currentFrameOffset + word - 1) / word * word else s.currentFrameOffset
  if offset + word > s.frameEnd then none
  else
    some { s.setTemp t
        { s.temps t with memOffset := offset, memBase := s.frameReg, memAllocated := true } with
      currentFrameOffset := offset + word }

def tempFreeOrDead (s : Ctx) (t : Nat) (freeOrDead : FreeOrDead) : Ctx :=
  let ts := s.temps t
  if ts.fixedReg then s
  else
    let s := match ts.val with
      | .reg r => s.setReg r none
      | _ => s
    s.setTemp t { ts with
      val := if freeOrDead = .free ∨ ts.tempLocal ∨ t < s.nbGlobals then .mem else .dead }

def tempDead (s : Ctx) (t : Nat) : Ctx := s.tempFreeOrDead t .dead

/-- The store of `temp_sync`. The argument `load` is `temp_load`. -/
def tempStore (T : Target) (load : Ctx → Nat → RegSet → RegSet → Option Ctx) (s : Ctx) (t : Nat)
    (allocated : RegSet) (freeOrDead : FreeOrDead) : Option Ctx :=
  let ts := s.temps t
  match ts.val with
  | .const val =>
    if freeOrDead ≠ .keep ∧ T.outSti ts.type val ts.memBase ts.memOffset then
      some (s.emit (.sti ts.type val ts.memBase ts.memOffset))
    else
      (load s t (T.availableRegs ts.type) allocated).bind fun s =>
        match (s.temps t).val with
        | .reg r => some (s.emit (.st ts.type r ts.memBase ts.memOffset))
        | _ => none
  | .reg r => some (s.emit (.st ts.type r ts.memBase ts.memOffset))
  | .mem => some s
  | .dead => none

def tempSyncWith (T : Target) (load : Ctx → Nat → RegSet → RegSet → Option Ctx) (s : Ctx) (t : Nat)
    (allocated : RegSet) (freeOrDead : FreeOrDead) : Option Ctx :=
  if (s.temps t).fixedReg then some s
  else
    let synced :=
      if (s.temps t).memCoherent then some s
      else
        (if (s.temps t).memAllocated then some s else tempAllocateFrame T s t).bind fun s =>
          (tempStore T load s t allocated freeOrDead).map fun s =>
            s.setTemp t { s.temps t with memCoherent := true }
    synced.map fun s => if freeOrDead = .keep then s else s.tempFreeOrDead t freeOrDead

/-- `tcg_reg_free`. -/
def regFreeWith (T : Target) (load : Ctx → Nat → RegSet → RegSet → Option Ctx) (s : Ctx) (r : Reg)
    (allocated : RegSet) : Option Ctx :=
  match s.regToTemp r with
  | none => some s
  | some t => tempSyncWith T load s t allocated .free

/-- `tcg_reg_alloc`: a free register if there is one, else one that is freed. -/
def regAllocWith (T : Target) (load : Ctx → Nat → RegSet → RegSet → Option Ctx) (s : Ctx)
    (desired allocated : RegSet) (rev : Bool) : Option (Reg × Ctx) :=
  let order := if rev then T.indirectRegAllocOrder else T.regAllocOrder
  match order.find? fun r => r ∈ desired \ allocated ∧ s.regToTemp r = none with
  | some r => some (r, s)
  | none =>
    match order.find? fun r => r ∈ desired \ allocated with
    | some r => (regFreeWith T load s r allocated).map fun s => (r, s)
    | none => none

/-- `temp_load`, which may free a register and so come to `temp_sync` and to itself again. -/
def tempLoad (T : Target) : Nat → Ctx → Nat → RegSet → RegSet → Option Ctx
  | 0, _, _, _, _ => none
  | fuel + 1, s, t, desired, allocated =>
    let ts := s.temps t
    match ts.val with
    | .reg _ => some s
    | .const val =>
      (regAllocWith T (tempLoad T fuel) s desired allocated ts.indirectBase).map fun (r, s) =>
        ((s.emit (.movi ts.type r val)).setTemp t
          { s.temps t with memCoherent := false, val := .reg r }).setReg r (some t)
    | .mem =>
      (regAllocWith T (tempLoad T fuel) s desired allocated ts.indirectBase).map fun (r, s) =>
        ((s.emit (.ld ts.type r ts.memBase ts.memOffset)).setTemp t
          { s.temps t with memCoherent := true, val := .reg r }).setReg r (some t)
    | .dead => none

def regFree (T : Target) (fuel : Nat) := regFreeWith T (tempLoad T fuel)

def stackArgs (T : Target) (fuel : Nat) : List (Option Nat) → Int → Ctx → Option Ctx
  | [], _, s => some s
  | arg :: rest, offset, s =>
    let offset := if T.stackGrowsUp then offset - T.wordBytes else offset
    let stored := match arg with
      | none => some s
      | some t =>
        (tempLoad T fuel s t (T.availableRegs (s.temps t).type) T.reservedRegs).bind fun s =>
          match (s.temps t).val with
          | .reg r => some (s.emit (.st (s.temps t).type r T.callStack offset))
          | _ => none
    stored.bind (stackArgs T fuel rest (if T.stackGrowsUp then offset else offset + T.wordBytes))

/-- One argument passed in the register `r`. -/
def regArg (T : Target) (fuel : Nat) (s : Ctx) (r : Reg) (t : Nat) (allocated : RegSet) :
    Option Ctx :=
  (regFree T fuel s r allocated).bind fun s =>
    match (s.temps t).val with
    | .reg src => if src ≠ r then some (s.emit (.mov (s.temps t).type r src)) else some s
    | _ => tempLoad T fuel s t {r} allocated

def regArgs (T : Target) (fuel : Nat) : List (Reg × Option Nat) → RegSet → Ctx →
    Option (Ctx × RegSet)
  | [], allocated, s => some (s, allocated)
  | (_, none) :: rest, allocated, s => regArgs T fuel rest allocated s
  | (r, some t) :: rest, allocated, s =>
    (regArg T fuel s r t allocated).bind (regArgs T fuel rest (insert r allocated))

def deadArgs : List (Option Nat × Bool) → Ctx → Option Ctx
  | [], s => some s
  | (_, false) :: rest, s => deadArgs rest s
  | (some t, true) :: rest, s => deadArgs rest (s.tempDead t)
  | (none, true) :: _, _ => none

def clobberRegs (T : Target) (fuel : Nat) (allocated : RegSet) : List Reg → Ctx → Option Ctx
  | [], s => some s
  | r :: rest, s =>
    (if r ∈ T.callClobberRegs then regFree T fuel s r allocated else some s).bind
      (clobberRegs T fuel allocated rest)

structure CallFlags where
  noReadGlobals : Bool
  noWriteGlobals : Bool

/-- The assertions of `sync_globals` and `save_globals`. -/
def globalsSaved (s : Ctx) (flags : CallFlags) : Bool :=
  if flags.noReadGlobals then true
  else if flags.noWriteGlobals then
    (List.range s.nbGlobals).all fun t =>
      (match (s.temps t).val with | .reg _ => false | _ => true) ||
        (s.temps t).fixedReg || (s.temps t).memCoherent
  else
    (List.range s.nbGlobals).all fun t => (s.temps t).val = .mem || (s.temps t).fixedReg

/-- `tcg_reg_alloc_call` up to the call instruction. -/
def prepareCall (T : Target) (fuel : Nat) (args : List (Option Nat)) (deadMarks : List Bool)
    (flags : CallFlags) (s : Ctx) : Option Ctx :=
  let nbRegs := min T.callIargRegs.length args.length
  let size := (args.length - nbRegs) * T.wordBytes
  let callStackSize := (size + T.stackAlign - 1) / T.stackAlign * T.stackAlign
  if callStackSize > T.staticCallArgsSize then none
  else
    (stackArgs T fuel (args.drop nbRegs) T.callStackOffset s).bind fun s =>
    (regArgs T fuel (T.callIargRegs.zip args) T.reservedRegs s).bind fun (s, allocated) =>
    (deadArgs (args.zip deadMarks) s).bind fun s =>
    (clobberRegs T fuel allocated (List.range T.nbRegs) s).bind fun s =>
    if s.globalsSaved flags then some s else none

end Ctx

end TcgArm.RegAlloc
