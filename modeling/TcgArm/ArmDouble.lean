import TcgArm.ArmPairs

/-! Double-word addition and subtraction on an ARM host (`add2_i32` and `sub2_i32`): the low words
with the flags set, then the high words with the carry. The low result goes to the backend's own
register first where its register still holds a high operand. -/

namespace TcgArm.ArmHost

open BitVec Function Option State Tcg

/-- `add2_i32`. -/
def tcgOutAdd2 (a0 a1 a2 a3 : Reg) (a4 a5 : Arg) : Option (List Word) :=
  let low := if a0 = a3 ∨ a5 = .reg a0 then tcgRegTmp else a0
  ((Use.rIN .add .sub true).emit .al low a2 a4).bind fun first =>
    ((Use.rIK .adc .sbc).emit .al a1 a3 a5).map fun second =>
      first :: second :: tcgOutMovReg .al a0 low

/-- A difference, by the reversed operation where the first operand is constant. -/
def tcgOutDifference (t : Target) (forward reverse : Use) (rd : Reg) :
    Arg → Arg → Option (List Word)
  | .const x, .const y => (tcgOutMovi32 t .al rd y).bind fun code =>
    (reverse.emit .al rd rd (.const x)).map fun w => code ++ [w]
  | .const x, .reg y => (reverse.emit .al rd y (.const x)).map fun w => [w]
  | .reg x, y => (forward.emit .al rd x y).map fun w => [w]

/-- `sub2_i32`. -/
def tcgOutSub2 (t : Target) (a0 a1 : Reg) (a2 a3 a4 a5 : Arg) : Option (List Word) :=
  let low := if a3 = .reg a0 ∨ a5 = .reg a0 then tcgRegTmp else a0
  (tcgOutDifference t (.rIN .sub .add true) (.rI .rsb true) low a2 a4).bind fun first =>
    (tcgOutDifference t (.rIK .sbc .adc) (.rI .rsc false) a1 a3 a5).map fun second =>
      first ++ second ++ tcgOutMovReg .al a0 low

theorem toNat_addWithCarry (x y : Word) (carry : Bool) :
    (addWithCarry x y carry).1.toNat = (x.toNat + y.toNat + carry.toNat) % 2 ^ 32 := by
  cases carry <;> simp [addWithCarry, toNat_add]

theorem addWithCarry_comm (x y : Word) (carry : Bool) : addWithCarry x y carry = addWithCarry y x carry := by
  simp only [addWithCarry, BitVec.add_comm x y, Nat.add_comm x.toNat, Int.add_comm x.toInt]

/-- The carry of the low words, added to the high words, makes the sum of double words. -/
theorem append_addWithCarry (xh xl yh yl : Word) (carry : Bool) :
    ((addWithCarry xh yh (addWithCarry xl yl carry).2.c).1 ++ (addWithCarry xl yl carry).1 :
      BitVec 64) = (xh ++ xl) + (yh ++ yl) + (if carry then 1 else 0) := by
  apply eq_of_toNat_eq
  have hc : (addWithCarry xl yl carry).2.c = decide (2 ^ 32 ≤ xl.toNat + yl.toNat + carry.toNat) := rfl
  have hone : (if carry then (1 : BitVec 64) else 0).toNat = carry.toNat := by
    cases carry <;> rfl
  have hle : carry.toNat ≤ 1 := Bool.toNat_le carry
  rw [toNat_double, toNat_addWithCarry, toNat_addWithCarry, hc, toNat_add, toNat_add,
    toNat_double, toNat_double, hone]
  by_cases hover : 2 ^ 32 ≤ xl.toNat + yl.toNat + carry.toNat
  · rw [decide_eq_true hover, Bool.toNat_true]
    omega
  · rw [decide_eq_false hover, Bool.toNat_false]
    omega

theorem append_sub (xh xl yh yl : Word) :
    ((addWithCarry xh (~~~ yh) (addWithCarry xl (~~~ yl) true).2.c).1 ++
      (addWithCarry xl (~~~ yl) true).1 : BitVec 64) = (xh ++ xl) - (yh ++ yl) := by
  rw [append_addWithCarry, BitVec.sub_eq_add_neg, neg_eq_not_add, not_append, BitVec.add_assoc]
  rfl

/-- The state with a result in a register, and with the flags of it or the old ones. -/
def State.result (s : State) (rd : Reg) (setFlags : Bool) (p : Word × Flags) : State :=
  { s.set rd p.1 with flags := if setFlags then p.2 else s.flags }

section Code

variable {t : Target} {s : State} {rd lhs : Reg} {rhs : Arg} {w : Word} {op : AluOp}
  {setFlags : Bool}

theorem State.result_regs_self (p : Word × Flags) : (s.result rd setFlags p).regs rd = p.1 := by
  simp [result, set]

theorem State.result_regs_of_ne {r : Reg} (h : r ≠ rd) (p : Word × Flags) :
    (s.result rd setFlags p).regs r = s.regs r := by
  simp [result, set, h]

theorem State.result_set (v : Word) (p : Word × Flags) :
    (s.set rd v).result rd setFlags p = s.result rd setFlags p := by
  simp [result, set]

theorem Arg.value_result {a : Arg} (h : a ≠ .reg rd) (p : Word × Flags) :
    a.value (s.result rd setFlags p) = a.value s := by
  cases a with
  | reg r => exact result_regs_of_ne (fun heq => h (congrArg Arg.reg heq)) p
  | const v => rfl

/-- The use computes `f` of the carry, the register and the operand. -/
structure Arith (u : Use) (f : Bool → Word → Word → Word × Flags) : Prop where
  mem : u ∈ uses
  logical : ∀ x y, u.opc.logical x y = none
  compares : u.opc.compares = false
  arith : ∀ carry x y, u.opc.arith carry x y = some (f carry x y)

variable {u forward reverse : Use} {f g : Bool → Word → Word → Word × Flags}

theorem Arith.exists_emit (h : Arith u f) (hrd : rd ≠ tcgRegPc) (hlhs : lhs ≠ tcgRegPc)
    (hrhs : rhs.Allowed u.constraint) :
    ∃ w, u.emit .al rd lhs rhs = some w ∧ ∀ (t : Target) (s : State),
      Falls t [w] s (s.result rd u.setFlags (f s.flags.c (s.regs lhs) (rhs.value s))) := by
  obtain ⟨w, hw, hacts⟩ := Use.exists_emit h.mem .al rd hlhs hrhs
  refine ⟨w, hw, fun t s => Falls.cons (fun pc => ?_) Falls.nil⟩
  rw [hacts, if_pos (show CondCode.al.passes s.flags = true from rfl), compute, h.logical, h.arith]
  cases u.setFlags <;> simp [h.compares, hrd, State.put, State.result, State.set]

theorem arith_add : Arith (.rIN .add .sub true) fun _ x y => addWithCarry x y false :=
  ⟨by decide, fun _ _ => rfl, rfl, fun _ _ _ => rfl⟩

theorem arith_adc : Arith (.rIK .adc .sbc) fun carry x y => addWithCarry x y carry :=
  ⟨by decide, fun _ _ => rfl, rfl, fun _ _ _ => rfl⟩

theorem arith_sub : Arith (.rIN .sub .add true) fun _ x y => addWithCarry x (~~~ y) true :=
  ⟨by decide, fun _ _ => rfl, rfl, fun _ _ _ => rfl⟩

theorem arith_sbc : Arith (.rIK .sbc .adc) fun carry x y => addWithCarry x (~~~ y) carry :=
  ⟨by decide, fun _ _ => rfl, rfl, fun _ _ _ => rfl⟩

theorem arith_rsb : Arith (.rI .rsb true) fun _ x y => addWithCarry (~~~ x) y true :=
  ⟨by decide, fun _ _ => rfl, rfl, fun _ _ _ => rfl⟩

theorem arith_rsc : Arith (.rI .rsc false) fun carry x y => addWithCarry (~~~ x) y carry :=
  ⟨by decide, fun _ _ => rfl, rfl, fun _ _ _ => rfl⟩

/-- The code for a difference leaves it, whichever of the operands are constant. -/
theorem exists_difference (hforward : Arith forward f) (hreverse : Arith reverse g)
    (hswap : ∀ carry x y, g carry y x = f carry x y) (hct : reverse.constraint = ctRI)
    (hflags : reverse.setFlags = forward.setFlags) (t : Target) (hrd : rd ≠ tcgRegPc) {x y : Arg}
    (hx : x.Allowed ctRI) (hy : y.Allowed forward.constraint) :
    ∃ code, tcgOutDifference t forward reverse rd x y = some code ∧ ∀ s : State,
      Falls t code s (s.result rd forward.setFlags (f s.flags.c (x.value s) (y.value s))) := by
  cases x with
  | reg r =>
    obtain ⟨w, hw, hfalls⟩ := hforward.exists_emit hrd hx.1 hy
    exact ⟨[w], by rw [tcgOutDifference, hw]; rfl, hfalls t⟩
  | const v =>
    cases y with
    | reg r =>
      obtain ⟨w, hw, hfalls⟩ := hreverse.exists_emit hrd hy.1 (hct ▸ hx)
      refine ⟨[w], by rw [tcgOutDifference, hw]; rfl, fun s => ?_⟩
      have hfall := hfalls t s
      rw [hswap, hflags] at hfall
      exact hfall
    | const u =>
      obtain ⟨code, hcode, -, hmovi⟩ := exists_tcgOutMovi32 t .al hrd u
      obtain ⟨w, hw, hfalls⟩ := hreverse.exists_emit hrd hrd (hct ▸ hx)
      refine ⟨code ++ [w], by rw [tcgOutDifference, hcode, bind_some, hw]; rfl,
        fun s => (hmovi s rfl).append ?_⟩
      have hfall := hfalls t (s.set rd u)
      rw [hswap, hflags, result_set, set_regs] at hfall
      exact hfall

theorem falls_movReg {a b : Reg} (ha : a ≠ tcgRegPc) (hb : b ≠ tcgRegPc) (s : State) :
    Falls t (tcgOutMovReg .al a b) s (s.set a (s.regs b)) := by
  unfold tcgOutMovReg
  split_ifs with hab
  · rw [hab, State.set, update_eq_self]
    exact Falls.nil
  · refine Falls.cons (fun pc => ?_) Falls.nil
    have hacts := @acts_reg .al .mov a 0 b (by decide) hb false
    rw [← toCpsr_false (tcgOutDatReg _ _ _ _ _ _), hacts]
    simp [CondCode.passes, compute, AluOp.logical, AluOp.compares, put_eq ha, Arg.value]

/-- What code for a double word leaves: its two halves in the registers, and everything else but
the backend's own register and the flags as before. -/
structure LeavesDouble (s s' : State) (a0 a1 : Reg) (v : BitVec 64) : Prop where
  value : s'.regs a1 ++ s'.regs a0 = v
  mem : s'.mem = s.mem
  others : ∀ r, r ≠ a0 → r ≠ a1 → r ≠ tcgRegTmp → s'.regs r = s.regs r

/-- The low result, the high result, and the move of the low result to its register. -/
theorem exists_double {first second : List Word} {a0 a1 low : Reg} {p q : Word × Flags}
    (hlow : low = a0 ∨ low = tcgRegTmp) (h0 : Allocated a0) (h1 : Allocated a1) (hne : a0 ≠ a1)
    (hfirst : Falls t first s (s.result low true p))
    (hsecond : Falls t second (s.result low true p) ((s.result low true p).result a1 false q)) :
    ∃ s', Falls t (first ++ second ++ tcgOutMovReg .al a0 low) s s' ∧
      LeavesDouble s s' a0 a1 (q.1 ++ p.1) := by
  have hlow1 : low ≠ a1 := by
    rcases hlow with rfl | rfl
    exacts [hne, h1.2.symm]
  have hlowPc : low ≠ tcgRegPc := by
    rcases hlow with rfl | rfl
    exacts [h0.1, by decide]
  refine ⟨_, (hfirst.append hsecond).append (falls_movReg h0.1 hlowPc _), ?_, rfl, ?_⟩
  · have hmoved : ((s.result low true p).result a1 false q).regs low = p.1 := by
      rw [State.result_regs_of_ne hlow1, State.result_regs_self]
    simp only [State.set, hmoved, update_self, update_of_ne hne.symm,
      State.result_regs_self]
  · intro r hr0 hr1 hrtmp
    have hrlow : r ≠ low := by
      rcases hlow with rfl | rfl
      exacts [hr0, hrtmp]
    simp only [State.set, update_of_ne hr0, State.result_regs_of_ne hr1,
      State.result_regs_of_ne hrlow]

variable {a0 a1 : Reg} {busy : Prop} [Decidable busy]

theorem low_cases : (if busy then tcgRegTmp else a0) = a0 ∨ (if busy then tcgRegTmp else a0) = tcgRegTmp := by
  split_ifs <;> simp

theorem low_ne_pc (h0 : Allocated a0) : (if busy then tcgRegTmp else a0) ≠ tcgRegPc := by
  split_ifs
  exacts [by decide, h0.1]

theorem low_free {a : Arg} {ct : ArgCt} (ha : a.Allowed ct) (h : a = .reg a0 → busy) :
    a ≠ .reg (if busy then tcgRegTmp else a0) := by
  split_ifs with hbusy
  · rintro rfl
    exact ha.2 rfl
  · exact fun heq => hbusy (h heq)

/-- `add2_i32` leaves the sum of double words. -/
theorem exists_add2 {a2 a3 : Reg} {a4 a5 : Arg} (h0 : Allocated a0) (h1 : Allocated a1) (hne : a0 ≠ a1)
    (h2 : Allocated a2) (h3 : Allocated a3) (h4 : a4.Allowed ctRIN) (h5 : a5.Allowed ctRIK) :
    ∃ code, tcgOutAdd2 a0 a1 a2 a3 a4 a5 = some code ∧ ∀ (t : Target) (s : State), ∃ s',
      Falls t code s s' ∧
      LeavesDouble s s' a0 a1 ((s.regs a3 ++ s.regs a2) + (a5.value s ++ a4.value s)) := by
  obtain ⟨low, hlow⟩ : ∃ low, low = if a0 = a3 ∨ a5 = .reg a0 then tcgRegTmp else a0 := ⟨_, rfl⟩
  have hfree3 : Arg.reg a3 ≠ .reg low := hlow ▸ @low_free a0 _ _ _ ctRI h3 fun h => .inl (Arg.reg.inj h).symm
  have hfree5 : a5 ≠ .reg low := hlow ▸ low_free h5 .inr
  obtain ⟨first, hemit, hfirst⟩ := arith_add.exists_emit (hlow ▸ low_ne_pc h0) h2.1 h4
  obtain ⟨second, hemit', hsecond⟩ := arith_adc.exists_emit h1.1 h3.1 h5
  refine ⟨_, by rw [tcgOutAdd2, ← hlow, hemit, bind_some, hemit']; rfl, fun t s => ?_⟩
  obtain ⟨s', hfalls, hleaves⟩ := exists_double (hlow ▸ low_cases) h0 h1 hne (hfirst t s) (hsecond t _)
  refine ⟨s', hfalls, ?_⟩
  rw [result_regs_of_ne (mt (congrArg Arg.reg) hfree3), Arg.value_result hfree5] at hleaves
  convert hleaves using 1
  exact ((append_addWithCarry _ _ _ _ false).trans (BitVec.add_zero _)).symm

/-- `sub2_i32` leaves the difference of double words. -/
theorem exists_sub2 {a2 a3 a4 a5 : Arg} (h0 : Allocated a0) (h1 : Allocated a1) (hne : a0 ≠ a1)
    (h2 : a2.Allowed ctRI) (h3 : a3.Allowed ctRI) (h4 : a4.Allowed ctRIN) (h5 : a5.Allowed ctRIK)
    (t : Target) :
    ∃ code, tcgOutSub2 t a0 a1 a2 a3 a4 a5 = some code ∧ ∀ s : State, ∃ s', Falls t code s s' ∧
      LeavesDouble s s' a0 a1 ((a3.value s ++ a2.value s) - (a5.value s ++ a4.value s)) := by
  obtain ⟨low, hlow⟩ : ∃ low, low = if a3 = .reg a0 ∨ a5 = .reg a0 then tcgRegTmp else a0 := ⟨_, rfl⟩
  have hfree3 : a3 ≠ .reg low := hlow ▸ low_free h3 .inl
  have hfree5 : a5 ≠ .reg low := hlow ▸ low_free h5 .inr
  obtain ⟨first, hemit, hfirst⟩ := exists_difference arith_sub arith_rsb
    (fun _ _ _ => addWithCarry_comm _ _ _) rfl rfl t (hlow ▸ low_ne_pc h0) h2 h4
  obtain ⟨second, hemit', hsecond⟩ := exists_difference arith_sbc arith_rsc
    (fun _ _ _ => addWithCarry_comm _ _ _) rfl rfl t h1.1 h3 h5
  refine ⟨_, by rw [tcgOutSub2, ← hlow, hemit, bind_some, hemit']; rfl, fun s => ?_⟩
  obtain ⟨s', hfalls, hleaves⟩ := exists_double (hlow ▸ low_cases) h0 h1 hne (hfirst s) (hsecond _)
  refine ⟨s', hfalls, ?_⟩
  rw [Arg.value_result hfree3, Arg.value_result hfree5] at hleaves
  convert hleaves using 1
  exact (append_sub _ _ _ _).symm

end Code

/-- **Constants as operands.** For every constant that the constraints let through, each use of the
three functions emits one instruction, which acts as the operation on the constant, with the same
result and flags; the flags of comparisons decide every condition as the words compare. `add2_i32`
and `sub2_i32` leave the sum and difference of double words, whatever registers operands and results
share. -/
theorem constant_operands_right :
    (∀ u ∈ uses, ∀ (cond : CondCode) (dst lhs : Reg) (rhs : Arg), Allocated lhs →
      rhs.Allowed u.constraint →
      ∃ w, u.emit cond dst lhs rhs = some w ∧ Acts cond u.opc u.setFlags dst lhs rhs w) ∧
    (∀ (lhs : Reg) (rhs : Arg), Allocated lhs → rhs.Allowed ctRIN →
      ∃ w, (Use.rIN .cmp .cmn false).emit .al 0 lhs rhs = some w ∧
        ∀ (t : Target) (s : State) (pc : Word), ∃ flags,
          exec t pc w s = some (.fall { s with flags := flags }) ∧
          ∀ c, (tcgCondToArmCond c).passes flags = evalCond c (s.regs lhs) (rhs.value s)) ∧
    ∀ (t : Target) (a0 a1 : Reg), Allocated a0 → Allocated a1 → a0 ≠ a1 → ∀ a4 a5 : Arg,
      a4.Allowed ctRIN → a5.Allowed ctRIK →
      (∀ a2 a3 : Reg, Allocated a2 → Allocated a3 →
        ∃ code, tcgOutAdd2 a0 a1 a2 a3 a4 a5 = some code ∧ ∀ (s : State) (pc : Word), ∃ s',
          run t pc code s = some (.fall s') ∧
          LeavesDouble s s' a0 a1 ((s.regs a3 ++ s.regs a2) + (a5.value s ++ a4.value s))) ∧
      ∀ a2 a3 : Arg, a2.Allowed ctRI → a3.Allowed ctRI →
        ∃ code, tcgOutSub2 t a0 a1 a2 a3 a4 a5 = some code ∧ ∀ (s : State) (pc : Word), ∃ s',
          run t pc code s = some (.fall s') ∧
          LeavesDouble s s' a0 a1 ((a3.value s ++ a2.value s) - (a5.value s ++ a4.value s)) := by
  refine ⟨fun u hu cond dst lhs rhs hlhs hrhs => Use.exists_emit hu cond dst hlhs.1 hrhs,
    fun lhs rhs hlhs hrhs => ?_, fun t a0 a1 h0 h1 hne a4 a5 h4 h5 =>
      ⟨fun a2 a3 h2 h3 => ?_, fun a2 a3 h2 h3 => ?_⟩⟩
  · obtain ⟨w, hw, hacts⟩ := @Use.exists_emit _ _ (.rIN .cmp .cmn false) (by decide) .al 0 hlhs.1 hrhs
    exact ⟨w, hw, fun t s pc => ⟨_, hacts t s pc, fun c => passes_cmpFlags c _ _⟩⟩
  · obtain ⟨code, hcode, hfalls⟩ := exists_add2 h0 h1 hne h2 h3 h4 h5
    refine ⟨code, hcode, fun s pc => ?_⟩
    obtain ⟨s', hfall, hleaves⟩ := hfalls t s
    exact ⟨s', hfall pc, hleaves⟩
  · obtain ⟨code, hcode, hfalls⟩ := exists_sub2 h0 h1 hne h2 h3 h4 h5 t
    refine ⟨code, hcode, fun s pc => ?_⟩
    obtain ⟨s', hfall, hleaves⟩ := hfalls s
    exact ⟨s', hfall pc, hleaves⟩

/-- The low result in the register of a high operand, with constants that fit negated and
inverted only: 5 is subtracted in place of adding -5, and nothing in place of adding -1. -/
theorem constant_operands_right_overlap :
    ∃ code s', tcgOutAdd2 4 5 6 4 (.const 0xfffffffb) (.const 0xffffffff) = some code ∧
      run ⟨7, true, false⟩ 0x1000 code (compareState 9 0 3 0) = some (.fall s') ∧
      (s'.regs 5 ++ s'.regs 4 : BitVec 64) = 0x00000008fffffffe := by
  obtain ⟨code, hcode, hrun⟩ := (constant_operands_right.2.2 ⟨7, true, false⟩ 4 5 (by decide)
    (by decide) (by decide) (.const 0xfffffffb) (.const 0xffffffff)
    (by decide : tcgTargetConstMatch _ _ = true) (by decide : tcgTargetConstMatch _ _ = true)).1 6 4
    (by decide) (by decide)
  obtain ⟨s', hfall, hleaves⟩ := hrun (compareState 9 0 3 0) 0x1000
  exact ⟨code, s', hcode, hfall, hleaves.value.trans (by decide)⟩

end TcgArm.ArmHost
