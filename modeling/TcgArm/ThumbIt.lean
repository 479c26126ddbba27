import TcgArm.ItState

/-! Thumb code with IT blocks, as the architecture runs it and as `gen_intermediate_code` translates
it. Of each instruction only what concerns the IT state and the ways out of a block is modelled: how
the translator treats it (its kind), and what it does to the rest of the state (left open). -/

namespace TcgArm.Thumb

abbrev Word := BitVec 32

/-- The condition flags: zero if `zf` is, negative and overflow by the sign bits. -/
structure Flags where
  nf : Word
  zf : Word
  cf : Bool
  vf : Word
  deriving DecidableEq, Repr

/-- `arm_test_cc` on the words of the flags: the comparison of each pair of codes, inverted for the
odd one. -/
def testCc (cc nf zf cf vf : Word) : Bool :=
  if cc = 14 ∨ cc = 15 then true
  else
    let pair := match cc.toNat / 2 with
      | 0 => zf == 0
      | 1 => cf != 0
      | 2 => nf.slt 0
      | 3 => vf.slt 0
      | 4 => (-cf &&& zf) != 0
      | 5 => !(vf ^^^ nf).slt 0
      | _ => (zf &&& ~~~ (vf ^^^ nf).sshiftRight 31) != 0
    pair != cc.getLsbD 0

def armTestCc (cc : Word) (f : Flags) : Bool := testCc cc f.nf f.zf (if f.cf then 1 else 0) f.vf

def conditionHolds (cond : Word) (f : Flags) : Bool :=
  let n := f.nf.msb
  let z := f.zf == 0
  let v := f.vf.msb
  let result := match cond.toNat / 2 with
    | 0 => z
    | 1 => f.cf
    | 2 => n
    | 3 => v
    | 4 => f.cf && !z
    | 5 => n == v
    | 6 => n == v && !z
    | _ => true
  if cond.getLsbD 0 ∧ cond ≠ 15 then !result else result

inductive Kind where
  /-- Goes on with the next instruction. -/
  | plain
  | ifThen (insn : Word)
  /-- Has a helper that may raise an exception first, for which the state is written back: coprocessor
  accesses with a check, banked registers and `srs`. All but coprocessor reads end the block. -/
  | synced (ends : Bool)
  /-- Ends the block, and goes on with the next instruction. -/
  | update
  /-- An exception that the translator knows of: `bkpt`, and whatever is undefined. -/
  | trap
  /-- Writes the program counter. -/
  | jump
  /-- Returns from an exception, to the IT bits that were saved. -/
  | eret
  /-- A branch to a known address. -/
  | direct
  /-- A conditional branch, or a branch on a register being zero. -/
  | branchIf
  /-- `strex` in user mode, which is left to the main loop. -/
  | exclusive
  | svc
  /-- `hvc` and `smc`, which a helper may refuse first. -/
  | monitor
  /-- `wfi`, which a helper may refuse at the end of the block. -/
  | wait
  | yield
  deriving DecidableEq, Repr

/-- Thumb code at fixed addresses, and what it does to a state without program counter and IT bits. -/
structure Guest (σ : Type) where
  kind : Word → Kind
  /-- Without a mask the encoding is a hint. -/
  ifThen_mask : ∀ pc insn, kind pc = .ifThen insn → insn &&& 0xf ≠ 0
  /-- Two or four bytes. -/
  length : Word → Word
  flags : σ → Flags
  /-- The work of an instruction, or the state that it faults in. -/
  work : Word → σ → Except σ σ
  /-- Where a branch goes. -/
  dest : Word → σ → Word
  /-- The IT bits that a return from an exception loads. -/
  savedBits : Word → σ → Word
  /-- Whether a conditional branch is taken. -/
  taken : Word → σ → Bool
  /-- Whether the helper of an instruction raises an exception. -/
  refused : Word → σ → Bool
  /-- Whether a breakpoint of the processor is hit. -/
  breaks : Word → σ → Bool

structure Cpu (σ : Type) where
  pc : Word
  bits : Word
  s : σ

/-- How far execution got: a state between two instructions, or the IT bits that an exception finds,
be it one of the architecture or of the emulator. -/
inductive Outcome (σ : Type) where
  | next (cpu : Cpu σ)
  | exception (bits : Word) (s : σ)
  | stopped (bits : Word) (s : σ)

def inItBlock (bits : Word) : Prop := bits &&& 0xf ≠ 0

instance (bits : Word) : Decidable (inItBlock bits) := inferInstanceAs (Decidable (_ ≠ _))

/-- `ITAdvance`. -/
def itAdvance (bits : Word) : Word :=
  if bits &&& 7 = 0 then 0 else (bits &&& 0xe0) ||| ((bits <<< 1) &&& 0x1f)

section Architecture

variable {σ : Type} (g : Guest σ)

def conditionPassed (bits : Word) (s : σ) : Bool :=
  if inItBlock bits then conditionHolds (bits >>> 4) (g.flags s) else true

def Cpu.following (cpu : Cpu σ) (s : σ) : Cpu σ :=
  ⟨cpu.pc + g.length cpu.pc, itAdvance cpu.bits, s⟩

def archExec (cpu : Cpu σ) : Outcome σ :=
  let after (next : σ → Cpu σ) : Outcome σ := match g.work cpu.pc cpu.s with
    | .ok s => .next (next s)
    | .error s => .exception cpu.bits s
  match g.kind cpu.pc with
  | .plain | .update | .exclusive => after (cpu.following g)
  | .ifThen insn => .next ⟨cpu.pc + g.length cpu.pc, insn &&& 0xff, cpu.s⟩
  | .synced _ =>
    if g.refused cpu.pc cpu.s then .exception cpu.bits cpu.s else after (cpu.following g)
  | .trap => .exception cpu.bits cpu.s
  | .jump | .direct => after fun s => ⟨g.dest cpu.pc s, itAdvance cpu.bits, s⟩
  | .eret => after fun s => ⟨g.dest cpu.pc s, g.savedBits cpu.pc s, s⟩
  | .branchIf =>
    if g.taken cpu.pc cpu.s then .next ⟨g.dest cpu.pc cpu.s, itAdvance cpu.bits, cpu.s⟩
    else .next (cpu.following g cpu.s)
  | .svc => .exception (itAdvance cpu.bits) cpu.s
  | .monitor =>
    if g.refused cpu.pc cpu.s then .exception cpu.bits cpu.s
    else .exception (itAdvance cpu.bits) cpu.s
  | .wait =>
    if g.refused cpu.pc cpu.s then .exception cpu.bits cpu.s else .next (cpu.following g cpu.s)
  | .yield => .next (cpu.following g cpu.s)

def archStep (cpu : Cpu σ) : Outcome σ :=
  if conditionPassed g cpu.bits cpu.s then archExec g cpu else .next (cpu.following g cpu.s)

/-- What some number of instructions can lead to. The emulator may stop between any two. -/
inductive Reaches : Cpu σ → Outcome σ → Prop
  | here (cpu : Cpu σ) : Reaches cpu (.next cpu)
  | stop (cpu : Cpu σ) : Reaches cpu (.stopped cpu.bits cpu.s)
  | raise {cpu : Cpu σ} {bits : Word} {s : σ} (h : archStep g cpu = .exception bits s) :
      Reaches cpu (.exception bits s)
  | step {cpu cpu' : Cpu σ} {o : Outcome σ} (h : archStep g cpu = .next cpu') (hrest : Reaches cpu' o) :
      Reaches cpu o

end Architecture

/-- The operations of a block that matter here. -/
inductive Op where
  /-- `tcg_gen_insn_start`: where an exception in a helper goes back to. -/
  | insnStart (pc bits : Word)
  /-- `arm_gen_test_cc`: to the label if the condition holds. -/
  | testCc (cc : Word) (label : Nat)
  /-- The comparison of a conditional branch: to the label if it is not taken. -/
  | testTaken (pc : Word) (label : Nat)
  | storeCondexec (val : Word)
  | setPc (val : Word)
  | work (pc : Word)
  | jump (pc : Word)
  /-- Load program counter and IT bits, as part of the status register. -/
  | eret (pc : Word)
  /-- A helper that raises an exception in the state as it is. -/
  | refuse (pc : Word)
  | checkBreakpoint (pc : Word)
  /-- `gen_exception`. -/
  | raise
  /-- `gen_exception_internal` of the emulator's own, in the state as it is. -/
  | stop
  /-- `tcg_gen_exit_tb`, or a chained jump. -/
  | leave
  | label (l : Nat)
  deriving DecidableEq, Repr

section Run

variable {σ : Type} (g : Guest σ)

/-- Run a block. While a jump to a label is under way, everything before the label is skipped. -/
def run : Option Nat → List Op → Word → Cpu σ → Option (Outcome σ)
  | _, [], _, _ => none
  | some l, op :: ops, bits, cpu =>
    run (if op = .label l then none else some l) ops bits cpu
  | none, op :: ops, bits, cpu => match op with
      | .insnStart _ bits => run none ops bits cpu
      | .testCc cc l => run (if armTestCc cc (g.flags cpu.s) then some l else none) ops bits cpu
      | .testTaken pc l => run (if g.taken pc cpu.s then none else some l) ops bits cpu
      | .storeCondexec val => run none ops bits { cpu with bits := val }
      | .setPc val => run none ops bits { cpu with pc := val }
      | .work pc => match g.work pc cpu.s with
          | .ok s => run none ops bits { cpu with s := s }
          | .error s => some (.exception bits s)
      | .jump pc => run none ops bits { cpu with pc := g.dest pc cpu.s }
      | .eret pc =>
        run none ops bits { cpu with pc := g.dest pc cpu.s, bits := g.savedBits pc cpu.s }
      | .refuse pc =>
        if g.refused pc cpu.s then some (.exception cpu.bits cpu.s) else run none ops bits cpu
      | .checkBreakpoint pc =>
        if g.breaks pc cpu.s then some (.stopped cpu.bits cpu.s) else run none ops bits cpu
      | .raise => some (.exception cpu.bits cpu.s)
      | .stop => some (.stopped cpu.bits cpu.s)
      | .leave => some (.next cpu)
      | .label _ => run none ops bits cpu

end Run

/-- `is_jmp`. A wait remembers its instruction for the helper at the end of the block. -/
inductive IsJmp where
  | next
  | jump
  | update
  | tbJump
  | svc
  | monitor
  | wait (pc : Word)
  | yield
  | exc
  deriving DecidableEq, Repr

structure Dc where
  pc : Word
  it : ItState
  isJmp : IsJmp
  /-- `condjmp` and `condlabel`. -/
  condjmp : Option Nat
  labels : Nat

/-- What the translation of a block depends on besides its code. -/
structure Config where
  singlestepEnabled : Bool
  ssActive : Bool
  pstateSs : Bool
  /-- A breakpoint: of the processor, or of the debugger. -/
  breakpoint : Word → Option Bool
  /-- The magic kernel page. -/
  kernelPage : Word → Bool
  /-- Whether the block ends before an address: the page does, or the operation buffer is full. -/
  stops : Word → Bool

def genSetCondexec (it : ItState) : List Op :=
  if it.mask ≠ 0 then [.storeCondexec it.packed] else []

section Translate

variable {σ : Type} (g : Guest σ) (cfg : Config)

def Config.stepping : Bool := cfg.singlestepEnabled || cfg.ssActive

/-- `gen_jmp`. -/
def genJmp (dc : Dc) (pc : Word) : List Op × Dc :=
  if cfg.stepping then ([.jump pc], { dc with isJmp := .jump })
  else ([.jump pc, .leave], { dc with isJmp := .tbJump })

def genItTest (dc : Dc) : List Op × Dc :=
  if dc.it.mask ≠ 0 ∧ dc.it.cond ≠ 0xe then
    ([.testCc (dc.it.cond ^^^ 1) dc.labels], { dc with condjmp := some dc.labels, labels := dc.labels + 1 })
  else ([], dc)

/-- The instruction at `pc`, with the context already behind it. -/
def genInsn (dc : Dc) (pc : Word) : List Op × Dc :=
  match g.kind pc with
  | .plain => ([.work pc], dc)
  | .ifThen insn => ([], { dc with it := ItState.ifThen insn })
  | .synced ends =>
    (genSetCondexec dc.it ++ [.setPc pc, .refuse pc, .work pc],
      if ends then { dc with isJmp := .update } else dc)
  | .update => ([.work pc], { dc with isJmp := .update })
  | .trap => (genSetCondexec dc.it ++ [.setPc pc, .raise], { dc with isJmp := .jump })
  | .jump => ([.work pc, .jump pc], { dc with isJmp := .jump })
  | .eret => ([.work pc, .eret pc], { dc with isJmp := .jump })
  | .exclusive => (genSetCondexec dc.it ++ [.setPc pc, .stop], { dc with isJmp := .jump })
  | .direct =>
    let (ops, dc) := genJmp cfg dc pc
    (.work pc :: ops, dc)
  | .branchIf =>
    let l := dc.labels
    let (ops, dc) := genJmp cfg { dc with condjmp := some l, labels := l + 1 } pc
    (.testTaken pc l :: ops, dc)
  | .svc => ([.setPc dc.pc], { dc with isJmp := .svc })
  | .monitor => ([.setPc pc, .refuse pc, .setPc dc.pc], { dc with isJmp := .monitor })
  | .wait => ([.setPc dc.pc], { dc with isJmp := .wait pc })
  | .yield => ([.setPc dc.pc], { dc with isJmp := .yield })

def disasThumbInsn (dc : Dc) : List Op × Dc :=
  let (test, dc₁) := genItTest dc
  let (ops, dc₂) := genInsn g cfg { dc₁ with pc := dc.pc + g.length dc.pc } dc.pc
  (test ++ ops, { dc₂ with it := dc₂.it.advance })

def placeLabel (dc : Dc) : List Op × Dc :=
  match dc.condjmp, dc.isJmp with
  | some l, .next => ([.label l], { dc with condjmp := none })
  | _, _ => ([], dc)

/-- One turn of the loop, and whether it goes straight to `done_generating`. -/
def translateInsn (dc : Dc) : List Op × Dc × Bool :=
  let start := Op.insnStart dc.pc dc.it.packed
  if cfg.kernelPage dc.pc then ([start, .stop], { dc with isJmp := .exc }, false)
  else match cfg.breakpoint dc.pc with
    | some false =>
      (start :: genSetCondexec dc.it ++ [.setPc dc.pc, .stop], { dc with isJmp := .jump }, true)
    | some true =>
      if cfg.ssActive ∧ !cfg.pstateSs then
        (start :: genSetCondexec dc.it ++ [.setPc dc.pc, .checkBreakpoint dc.pc, .stop], dc, true)
      else
        let (ops, dc₁) := disasThumbInsn g cfg { dc with isJmp := .update }
        let (label, dc₂) := placeLabel dc₁
        (start :: genSetCondexec dc.it ++ [.setPc dc.pc, .checkBreakpoint dc.pc] ++ ops ++ label, dc₂, false)
    | none =>
      if cfg.ssActive ∧ !cfg.pstateSs then ([start, .stop], dc, true)
      else
        let (ops, dc₁) := disasThumbInsn g cfg dc
        let (label, dc₂) := placeLabel dc₁
        (start :: ops ++ label, dc₂, false)

def continues (dc : Dc) : Bool := dc.isJmp == .next && !cfg.stepping && !cfg.stops dc.pc

/-- Up to `max` more instructions after the first one. -/
def translateLoop : Nat → Dc → List Op × Dc × Bool
  | 0, dc => translateInsn g cfg dc
  | n + 1, dc => match translateInsn g cfg dc with
      | (ops, dc₁, false) =>
        if continues cfg dc₁ then
          let (rest, dc₂, finished) := translateLoop n dc₁
          (ops ++ rest, dc₂, finished)
        else (ops, dc₁, false)
      | (ops, dc₁, true) => (ops, dc₁, true)

def blockExit (dc : Dc) : List Op :=
  if cfg.stepping then match dc.isJmp with
    | .svc | .monitor => [.raise]
    | .next | .update => [.setPc dc.pc, .leave]
    | _ => [.leave]
  else match dc.isJmp with
    | .next | .update => [.setPc dc.pc, .leave]
    | .jump | .exc => [.leave]
    | .tbJump => []
    | .wait pc => [.refuse pc, .leave]
    | .yield => [.leave]
    | .svc | .monitor => [.raise]

def blockEnd (dc : Dc) : List Op :=
  genSetCondexec dc.it ++ blockExit cfg dc ++
    match dc.condjmp with
    | some l => .label l :: genSetCondexec dc.it ++ [.setPc dc.pc, .leave]
    | none => []

def startDc (pc bits : Word) : Dc := ⟨pc, ItState.start bits, .next, none, 0⟩

/-- `gen_intermediate_code`. -/
def genIntermediateCode (max : Nat) (pc bits : Word) : List Op :=
  let dc := startDc pc bits
  let clear := if dc.it.mask ≠ 0 ∨ dc.it.cond ≠ 0 then [Op.storeCondexec 0] else []
  match translateLoop g cfg max dc with
  | (ops, _, true) => clear ++ ops
  | (ops, dc, false) => clear ++ ops ++ blockEnd cfg dc

end Translate

end TcgArm.Thumb
