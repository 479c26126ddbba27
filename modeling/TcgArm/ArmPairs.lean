import TcgArm.ArmCompare

/-! Constants as operands on an ARM host: which ones the constraints allow, and the instructions for
them. Where a constant does not fit an immediate, its complement or its negation does, and the
partner of the operation is emitted; it leaves the state that the operation itself would leave. -/

namespace TcgArm.ArmHost

open AluOp List

/-- The `ct` bits of an operand's constraint that say which constants are allowed. -/
structure ArgCt where
  const : Bool := false
  arm : Bool := false
  inv : Bool := false
  neg : Bool := false
  zero : Bool := false

def ctRI : ArgCt := { arm := true }

def ctRIK : ArgCt := { arm := true, inv := true }

def ctRIN : ArgCt := { arm := true, neg := true }

def checkFitImm (imm : Word) : Bool := (encodeImm imm).isSome

def tcgTargetConstMatch (val : Word) (ct : ArgCt) : Bool :=
  if ct.const then true
  else if ct.arm && checkFitImm val then true
  else if ct.inv && checkFitImm (~~~ val) then true
  else if ct.neg && checkFitImm (-val) then true
  else ct.zero && val == 0

def Arg.Allowed (ct : ArgCt) : Arg → Prop
  | .reg r => Allocated r
  | .const v => tcgTargetConstMatch v ct = true

def tcgOutDatRI (cond : CondCode) (opc : AluOp) (dst lhs : Reg) : Arg → Option Word
  | .const rhs => (encodeImm rhs).map fun rot => tcgOutDatImm cond opc dst lhs (immField rhs rot)
  | .reg rhs => some (tcgOutDatReg cond opc dst lhs rhs (shiftImmBits .lsl 0))

def tcgOutDatRIK (cond : CondCode) (opc opinv : AluOp) (dst lhs : Reg) : Arg → Option Word
  | .const rhs =>
    match encodeImm rhs with
    | some rot => some (tcgOutDatImm cond opc dst lhs (immField rhs rot))
    | none => (encodeImm (~~~ rhs)).map fun rot =>
      tcgOutDatImm cond opinv dst lhs (immField (~~~ rhs) rot)
  | .reg rhs => some (tcgOutDatReg cond opc dst lhs rhs (shiftImmBits .lsl 0))

/-- A use of one of the three functions in `tcg_out_op`: the operation, its partner, and whether
`TO_CPSR` is given. -/
inductive Use where
  | rI (opc : AluOp) (setFlags : Bool)
  | rIK (opc opinv : AluOp)
  | rIN (opc opneg : AluOp) (setFlags : Bool)
  deriving DecidableEq, Repr

/-- The uses in `tcg_out_op`. -/
def uses : List Use :=
  [.rI .orr false, .rI .eor false, .rI .rsb false, .rI .rsb true, .rI .rsc false,
    .rIK .and .bic, .rIK .bic .and, .rIK .mov .mvn, .rIK .adc .sbc, .rIK .sbc .adc,
    .rIN .add .sub false, .rIN .sub .add false, .rIN .add .sub true, .rIN .sub .add true,
    .rIN .cmp .cmn false]

namespace Use

def opc : Use → AluOp
  | .rI opc _ | .rIK opc _ | .rIN opc _ _ => opc

def setFlags : Use → Bool
  | .rI opc setFlags | .rIN opc _ setFlags => opc.compares || setFlags
  | .rIK opc _ => opc.compares

def constraint : Use → ArgCt
  | .rI _ _ => ctRI
  | .rIK _ _ => ctRIK
  | .rIN _ _ _ => ctRIN

def emit (cond : CondCode) (dst lhs : Reg) (rhs : Arg) : Use → Option Word
  | .rI opc setFlags => (tcgOutDatRI cond opc dst lhs rhs).map (toCpsr setFlags)
  | .rIK opc opinv => tcgOutDatRIK cond opc opinv dst lhs rhs
  | .rIN opc opneg setFlags => (tcgOutDatRIN cond opc opneg dst lhs rhs).map (toCpsr setFlags)

end Use

section Effect

variable {cond : CondCode} {op partner : AluOp} {dst lhs : Reg}

def Inverts (op partner : AluOp) : Prop :=
  ∀ (s : State) (dst : Reg) (x v : Word),
    s.compute partner partner.compares dst x (~~~ v) = s.compute op op.compares dst x v

theorem inverts_and_bic : Inverts .and .bic := fun s dst x v => by
  simp [State.compute, logical, compares]

theorem inverts_bic_and : Inverts .bic .and := fun _ _ _ _ => rfl

theorem inverts_mov_mvn : Inverts .mov .mvn := fun s dst x v => by
  simp [State.compute, logical, compares]

theorem inverts_adc_sbc : Inverts .adc .sbc := fun s dst x v => by
  simp [State.compute, logical, arith, compares]

theorem inverts_sbc_adc : Inverts .sbc .adc := fun _ _ _ _ => rfl

theorem negates_sub_add : Negates .sub .add := fun s setFlags dst x v hzero hmin => by
  simp only [State.compute, logical, arith, addWithCarry_neg hzero hmin, compares]

theorem negates_add_sub : Negates .add .sub := fun s setFlags dst x v hzero hmin => by
  have hnegZero : -v ≠ 0 := fun h => hzero (by rw [← BitVec.neg_neg (x := v), h]; rfl)
  have hnegMin : -v ≠ 0x80000000 := fun h => hmin (by rw [← BitVec.neg_neg (x := v), h]; rfl)
  simp only [State.compute, logical, arith, ← addWithCarry_neg hnegZero hnegMin, BitVec.neg_neg, compares]

variable {rhs : Arg}

theorem exists_rI (setFlags : Bool) (hlhs : lhs ≠ tcgRegPc) (hrhs : rhs.Allowed ctRI) :
    ∃ w, tcgOutDatRI cond op dst lhs rhs = some w ∧
      Acts cond op (op.compares || setFlags) dst lhs rhs (toCpsr setFlags w) := by
  cases rhs with
  | reg r => exact ⟨_, rfl, acts_reg hlhs hrhs.1 setFlags⟩
  | const v =>
    have hfit : (encodeImm v).isSome := by
      simpa [Arg.Allowed, tcgTargetConstMatch, ctRI, checkFitImm] using hrhs
    obtain ⟨rot, hrot⟩ := Option.isSome_iff_exists.mp hfit
    exact ⟨_, by rw [tcgOutDatRI, hrot]; rfl, acts_imm hlhs setFlags hrot fun _ _ => rfl⟩

theorem exists_rIK (hpair : Inverts op partner) (hlhs : lhs ≠ tcgRegPc) (hrhs : rhs.Allowed ctRIK) :
    ∃ w, tcgOutDatRIK cond op partner dst lhs rhs = some w ∧ Acts cond op op.compares dst lhs rhs w := by
  cases rhs with
  | reg r => exact ⟨_, rfl, by simpa using acts_reg hlhs hrhs.1 false⟩
  | const v =>
    have hfit : (encodeImm v).isSome ∨ (encodeImm (~~~ v)).isSome := by
      simpa [Arg.Allowed, tcgTargetConstMatch, ctRIK, checkFitImm] using hrhs
    obtain ⟨w, hw, hacts⟩ := exists_imm false hlhs hfit fun _ s x => by simpa using hpair s dst x v
    exact ⟨w, hw, by simpa using hacts⟩

theorem Arg.Allowed.rIN (h : rhs.Allowed ctRIN) : rhs.AllowedRIN := by
  cases rhs with
  | reg r => exact h.1
  | const v => simpa [Arg.Allowed, Arg.AllowedRIN, tcgTargetConstMatch, ctRIN, checkFitImm] using h

/-- The instruction emitted for a use acts as the operation on the operand itself. -/
theorem Use.exists_emit {u : Use} (hu : u ∈ uses) (cond : CondCode) (dst : Reg)
    (hlhs : lhs ≠ tcgRegPc) (hrhs : rhs.Allowed u.constraint) :
    ∃ w, u.emit cond dst lhs rhs = some w ∧ Acts cond u.opc u.setFlags dst lhs rhs w := by
  cases u with
  | rI op setFlags =>
    obtain ⟨w, hw, hacts⟩ := exists_rI setFlags hlhs hrhs
    exact ⟨_, congrArg (Option.map _) hw, hacts⟩
  | rIK op partner =>
    have hpair : Inverts op partner := by
      simp only [uses, mem_cons, Use.rIK.injEq, reduceCtorEq, not_mem_nil, or_false, false_or] at hu
      rcases hu with ⟨rfl, rfl⟩ | ⟨rfl, rfl⟩ | ⟨rfl, rfl⟩ | ⟨rfl, rfl⟩ | ⟨rfl, rfl⟩
      exacts [inverts_and_bic, inverts_bic_and, inverts_mov_mvn, inverts_adc_sbc, inverts_sbc_adc]
    exact exists_rIK hpair hlhs hrhs
  | rIN op partner setFlags =>
    have hpair : Negates op partner := by
      simp only [uses, mem_cons, Use.rIN.injEq, reduceCtorEq, not_mem_nil, or_false, false_or] at hu
      rcases hu with ⟨rfl, rfl, -⟩ | ⟨rfl, rfl, -⟩ | ⟨rfl, rfl, -⟩ | ⟨rfl, rfl, -⟩ | ⟨rfl, rfl, -⟩
      exacts [negates_add_sub, negates_sub_add, negates_add_sub, negates_sub_add, negates_cmp_cmn]
    obtain ⟨w, hw, hacts⟩ := exists_rIN setFlags hpair hlhs hrhs.rIN
    exact ⟨_, congrArg (Option.map _) hw, hacts⟩

end Effect

end TcgArm.ArmHost
