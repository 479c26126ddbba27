import TcgArm.RegAlloc

/-! The host instructions that the register allocator emits, as moves of a machine with registers
and bytes of memory, and what it means that every temporary is where the allocator takes it to be.
Memory is addressed by a base register, which no instruction changes, and an offset: slots of
temporaries and stack words of a call. -/

namespace TcgArm.RegAlloc

open ByteMemory

structure Machine where
  regs : Reg → BitVec 64
  mem : Reg → Int → BitVec 8

def Agree (ty : TcgType) (a b : BitVec 64) : Prop := ∀ i < ty.bits, a.getLsbD i = b.getLsbD i

theorem Agree.trans {ty : TcgType} {a b c : BitVec 64} (h : Agree ty a b) (h' : Agree ty b c) :
    Agree ty a c :=
  fun i hi => (h i hi).trans (h' i hi)

/-- The byte at `offset'` belongs to the value of type `ty` at `offset`. -/
def InSlot (ty : TcgType) (base : Reg) (offset : Int) (base' : Reg) (offset' : Int) : Prop :=
  base' = base ∧ offset ≤ offset' ∧ offset' < offset + ty.bytes

instance (ty : TcgType) (base : Reg) (offset : Int) (base' : Reg) (offset' : Int) :
    Decidable (InSlot ty base offset base' offset') :=
  inferInstanceAs (Decidable (_ ∧ _))

namespace Machine

def load (big : Bool) (m : Machine) (ty : TcgType) (base : Reg) (offset : Int) : BitVec 64 :=
  gather (fun i => m.mem base (offset + position big ty.bytes i)) ty.bytes

def store (big : Bool) (m : Machine) (ty : TcgType) (v : BitVec 64) (base : Reg) (offset : Int) :
    Reg → Int → BitVec 8 :=
  fun b o =>
    if InSlot ty base offset b o then
      (v >>> (8 * position big ty.bytes (o - offset).toNat)).setWidth 8
    else m.mem b o

variable {m : Machine} {ty : TcgType} {v : BitVec 64} {big : Bool} {base : Reg} {offset : Int}
  {m' : Machine}

theorem store_of_not_inSlot {b : Reg} {o : Int} (h : ¬ InSlot ty base offset b o) :
    m.store big ty v base offset b o = m.mem b o :=
  if_neg h

theorem load_congr (h : ∀ b o, InSlot ty base offset b o → m'.mem b o = m.mem b o) :
    m'.load big ty base offset = m.load big ty base offset := by
  refine gather_congr fun i hi => h _ _ ⟨rfl, by omega, ?_⟩
  have := @position_lt big _ _ hi
  omega

/-- A value stored is read back. -/
theorem load_store (h : m'.mem = m.store big ty v base offset) :
    Agree ty (m'.load big ty base offset) v := by
  intro i hi
  have hbits : ty.bits ≤ 64 := by cases ty <;> decide
  have hbyte : i / 8 < ty.bytes := by
    rw [TcgType.bits] at hi
    omega
  have hpos : position big ty.bytes (i / 8) < ty.bytes := position_lt hbyte
  have hslot : InSlot ty base offset base (offset + position big ty.bytes (i / 8)) :=
    ⟨rfl, by omega, by omega⟩
  have hback : (offset + (position big ty.bytes (i / 8) : Int) - offset).toNat =
      position big ty.bytes (i / 8) := by omega
  rw [load, getLsbD_gather, h, store, if_pos hslot, hback, position_position hbyte,
    BitVec.getLsbD_setWidth, BitVec.getLsbD_ushiftRight, Nat.div_add_mod,
    decide_eq_true (show i < 64 by omega), decide_eq_true (show i < 8 * ty.bytes from hi),
    decide_eq_true (Nat.mod_lt i (by decide) : i % 8 < 8)]
  simp

end Machine

/-- One instruction, on a machine whose scratch registers are free for its use. -/
def HostOp.Exec (T : Target) (op : HostOp) (m m' : Machine) : Prop :=
  match op with
  | .mov ty dst src =>
    Agree ty (m'.regs dst) (m.regs src) ∧
      (∀ r, r ≠ dst → r ∉ T.scratchRegs → m'.regs r = m.regs r) ∧ m'.mem = m.mem
  | .movi ty dst val =>
    Agree ty (m'.regs dst) val ∧ (∀ r, r ≠ dst → r ∉ T.scratchRegs → m'.regs r = m.regs r) ∧ m'.mem = m.mem
  | .ld ty dst base offset =>
    Agree ty (m'.regs dst) (m.load T.bigEndian ty base offset) ∧
      (∀ r, r ≠ dst → r ∉ T.scratchRegs → m'.regs r = m.regs r) ∧ m'.mem = m.mem
  | .st ty src base offset =>
    (∀ r, r ∉ T.scratchRegs → m'.regs r = m.regs r) ∧ m'.mem = m.store T.bigEndian ty (m.regs src) base offset
  | .sti ty val base offset =>
    (∀ r, r ∉ T.scratchRegs → m'.regs r = m.regs r) ∧ m'.mem = m.store T.bigEndian ty val base offset

def Runs (T : Target) : List HostOp → Machine → Machine → Prop
  | [], m, m' => m' = m
  | op :: ops, m, m' => ∃ m₁, op.Exec T m m₁ ∧ Runs T ops m₁ m'

variable {T : Target}

theorem runs_append {ops ops' : List HostOp} {m m' : Machine} :
    Runs T (ops ++ ops') m m' ↔ ∃ m1, Runs T ops m m1 ∧ Runs T ops' m1 m' := by
  induction ops generalizing m with
  | nil => simp [Runs]
  | cons op ops ih =>
    rw [List.cons_append, Runs]
    constructor
    · rintro ⟨m1, hop, hrest⟩
      obtain ⟨m2, h1, h2⟩ := ih.mp hrest
      exact ⟨m2, ⟨m1, hop, h1⟩, h2⟩
    · rintro ⟨m2, ⟨m1, hop, h1⟩, h2⟩
      exact ⟨m1, hop, ih.mpr ⟨m2, h1, h2⟩⟩

theorem runs_singleton {op : HostOp} {m m' : Machine} : Runs T [op] m m' ↔ op.Exec T m m' := by
  simp [Runs]

def Temp.InSlot (ts : Temp) (b : Reg) (o : Int) : Prop :=
  RegAlloc.InSlot ts.type ts.memBase ts.memOffset b o

def Temp.Holds (T : Target) (ts : Temp) (m : Machine) (v : BitVec 64) : Prop :=
  ts.memAllocated = true ∧ Agree ts.type (m.load T.bigEndian ts.type ts.memBase ts.memOffset) v

/-- The temporary has the value where `val_type` says. -/
def Temp.HasValue (T : Target) (ts : Temp) (m : Machine) (v : BitVec 64) : Prop :=
  match ts.val with
  | .dead => False
  | .reg r => Agree ts.type (m.regs r) v
  | .mem => ts.Holds T m v
  | .const val => Agree ts.type val v

namespace Ctx

/-- The tables agree with each other, and no two slots overlap. The bytes of `area` are the stack
words of the call: no slot has a byte there, nor has the free part of the frame. -/
structure Wf (T : Target) (area : Reg → Int → Prop) (s : Ctx) : Prop where
  reg_temp : ∀ r t, s.regToTemp r = some t →
    (s.temps t).val = .reg r ∧ (s.temps t).fixedReg = false ∧ r ∉ T.reservedRegs
  temp_reg : ∀ t r, (s.temps t).val = .reg r → (s.temps t).fixedReg = false → s.regToTemp r = some t
  fixed : ∀ t, (s.temps t).fixedReg = true →
    ∃ r, (s.temps t).val = .reg r ∧ r ∈ T.reservedRegs ∧ r ∉ T.scratchRegs ∧ r ∉ T.callClobberRegs
  bytes_le : ∀ t, (s.temps t).type.bytes ≤ T.wordBytes
  apart : ∀ t t' b o, t ≠ t' → (s.temps t).memAllocated = true → (s.temps t').memAllocated = true →
    (s.temps t).InSlot b o → ¬ (s.temps t').InSlot b o
  frame : ∀ t o, (s.temps t).memAllocated = true → (s.temps t).InSlot s.frameReg o →
    s.currentFrameOffset ≤ o → ¬ o < s.frameEnd
  area_slot : ∀ t b o, (s.temps t).memAllocated = true → (s.temps t).InSlot b o → ¬ area b o
  area_frame : ∀ o, s.currentFrameOffset ≤ o → o < s.frameEnd → ¬ area s.frameReg o

/-- The machine has the value of every live temporary where the tables say it is. -/
structure Sound (T : Target) (V : Nat → BitVec 64) (live : Set Nat) (s : Ctx) (m : Machine) :
    Prop where
  value : ∀ t ∈ live, (s.temps t).HasValue T m (V t)
  coherent : ∀ t ∈ live, (s.temps t).fixedReg = false → (s.temps t).memCoherent = true →
    (s.temps t).Holds T m (V t)

/-- The instructions emitted between two states take a machine that fits the first to one that fits
the second, and keep the registers and the bytes given. -/
structure Steps (T : Target) (V : Nat → BitVec 64) (live : Set Nat) (area : Reg → Int → Prop)
    (keep : Reg → Prop) (keepMem : Reg → Int → Prop) (s s' : Ctx) : Prop where
  type : ∀ t, (s'.temps t).type = (s.temps t).type
  nbGlobals : s'.nbGlobals = s.nbGlobals
  wf : s'.Wf T area
  code : ∃ ops, s'.code = s.code ++ ops ∧ ∀ m m', s.Sound T V live m → Runs T ops m m' →
    s'.Sound T V live m' ∧ (∀ r, keep r → m'.regs r = m.regs r) ∧ ∀ b o, keepMem b o → m'.mem b o = m.mem b o

section Steps

variable {T : Target} {V : Nat → BitVec 64} {live : Set Nat} {area : Reg → Int → Prop}
variable {keep keep' : Reg → Prop} {keepMem keepMem' : Reg → Int → Prop} {s s' s'' : Ctx}

theorem Steps.refl (h : s.Wf T area) : Steps T V live area keep keepMem s s where
  type _ := rfl
  nbGlobals := rfl
  wf := h
  code := by
    refine ⟨[], (List.append_nil _).symm, fun m m' hsound hrun => ?_⟩
    obtain rfl : m' = m := hrun
    exact ⟨hsound, fun _ _ => rfl, fun _ _ _ => rfl⟩

theorem Steps.trans (h : Steps T V live area keep keepMem s s')
    (h' : Steps T V live area keep keepMem s' s'') : Steps T V live area keep keepMem s s'' where
  type t := (h'.type t).trans (h.type t)
  nbGlobals := h'.nbGlobals.trans h.nbGlobals
  wf := h'.wf
  code := by
    obtain ⟨ops, hcode, hops⟩ := h.code
    obtain ⟨ops', hcode', hops'⟩ := h'.code
    refine ⟨ops ++ ops', by rw [hcode', hcode, List.append_assoc], fun m m' hsound hrun => ?_⟩
    obtain ⟨m1, hrun, hrun'⟩ := runs_append.mp hrun
    obtain ⟨hsound, hregs, hmem⟩ := hops m m1 hsound hrun
    obtain ⟨hsound', hregs', hmem'⟩ := hops' m1 m' hsound hrun'
    exact ⟨hsound', fun r hr => (hregs' r hr).trans (hregs r hr),
      fun b o ho => (hmem' b o ho).trans (hmem b o ho)⟩

theorem Steps.mono (h : Steps T V live area keep keepMem s s') (hkeep : ∀ r, keep' r → keep r)
    (hmem : ∀ b o, keepMem' b o → keepMem b o) : Steps T V live area keep' keepMem' s s' where
  type := h.type
  nbGlobals := h.nbGlobals
  wf := h.wf
  code := by
    obtain ⟨ops, hcode, hops⟩ := h.code
    refine ⟨ops, hcode, fun m m' hsound hrun => ?_⟩
    obtain ⟨hsound, hregs, hkept⟩ := hops m m' hsound hrun
    exact ⟨hsound, fun r hr => hregs r (hkeep r hr), fun b o ho => hkept b o (hmem b o ho)⟩

end Steps

end Ctx

end TcgArm.RegAlloc
