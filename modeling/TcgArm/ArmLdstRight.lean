import TcgArm.ArmLdst

/-! The loads and stores of the ARM backend against the reference access, for every assignment of
registers that the constraints allow. -/

namespace TcgArm.ArmHost

open ByteMemory Falls HostMemOp State

def tcgRegCallStack : Reg := 13

/-- The registers outside `reserved_regs`. -/
def Allocatable (r : Reg) : Prop := r ≠ tcgRegCallStack ∧ Allocated r

instance (r : Reg) : Decidable (Allocatable r) := inferInstanceAs (Decidable (_ ∧ _))

/-- Constraint `l`: the address of a load. The TLB lookup uses `r0` to `r2` and the link register. -/
def AllowedL (t : Target) (r : Reg) : Prop :=
  Allocatable r ∧ (t.softmmu = true → r ≠ 0 ∧ r ≠ 1 ∧ r ≠ 2 ∧ r ≠ 14)

instance (t : Target) (r : Reg) : Decidable (AllowedL t r) := inferInstanceAs (Decidable (_ ∧ _))

/-- Constraint `s`: the address and data of a store. -/
def AllowedS (t : Target) (r : Reg) : Prop :=
  Allocatable r ∧ r ≠ 0 ∧ r ≠ 1 ∧ (t.softmmu = true → r ≠ 2 ∧ r ≠ 14)

instance (t : Target) (r : Reg) : Decidable (AllowedS t r) := inferInstanceAs (Decidable (_ ∧ _))

def addendReg (t : Target) : Reg := if t.softmmu then 2 else tcgRegTmp

theorem addendReg_ne_pc (t : Target) : addendReg t ≠ tcgRegPc := by
  rw [addendReg]
  split <;> decide

theorem addendReg_ne_zero (t : Target) : addendReg t ≠ tcgRegR0 := by
  rw [addendReg]
  split <;> decide

variable {t : Target} {r : Reg}

theorem AllowedL.ne_addend (h : AllowedL t r) : r ≠ addendReg t := by
  rw [addendReg]
  split
  · rename_i hmmu
    exact (h.2 hmmu).2.2.1
  · exact h.1.2.2

theorem AllowedS.ne_addend (h : AllowedS t r) : r ≠ addendReg t := by
  rw [addendReg]
  split
  · rename_i hmmu
    exact (h.2.2.2 hmmu).1
  · exact h.1.2.2

/-- The registers of a load. Only eight bytes take two data registers. -/
structure LoadRegs (t : Target) (op : HostMemOp) (datalo datahi addrlo : Reg) : Prop where
  low : Allocatable datalo
  high : op.size = .q → Allocatable datahi
  differ : op.size = .q → datalo ≠ datahi
  address : AllowedL t addrlo

structure StoreRegs (t : Target) (op : HostMemOp) (datalo datahi addrlo : Reg) : Prop where
  low : AllowedS t datalo
  high : op.size = .q → AllowedS t datahi
  address : AllowedS t addrlo

/-- A direct load is right unless it swaps the halves of big-endian data twice. -/
def DirectLoadOk (t : Target) (op : HostMemOp) (datalo datahi : Reg) : Prop :=
  op.size = .q → op.bswap = true → Paired t datahi datalo

/-- An index load is right unless `ldrd` overwrites its offset register. -/
def IndexLoadOk (t : Target) (op : HostMemOp) (datalo datahi : Reg) : Prop :=
  op.size = .q →
    Paired t (if op.bswap then datahi else datalo) (if op.bswap then datalo else datahi) →
      addendReg t ≠ datalo ∧ addendReg t ≠ datahi

section Loads

variable {t : Target} {op : HostMemOp} {datalo datahi addrlo : Reg}

theorem ldIndex_one (hq : op.size ≠ .q) (addend : Reg) :
    tcgOutQemuLdIndex t op datalo datahi addrlo addend = loadOne t op datalo fun kind =>
      tcgOutMemopR .al (memOpc true kind false) datalo addrlo addend true true false := by
  obtain ⟨size, bswap⟩ := op
  cases size
  case q => exact absurd rfl hq
  all_goals rfl

def loadWord (datalo addrlo : Reg) : AccessKind → Word
  | .word => tcgOutLd32At .al datalo addrlo 0
  | .byte => tcgOutLd8At .al datalo addrlo 0
  | .half => tcgOutLd16uAt .al datalo addrlo 0
  | .sbyte => tcgOutLd8sAt .al datalo addrlo 0
  | .shalf => tcgOutLd16sAt .al datalo addrlo 0
  | .double => tcgOutLdrdAt .al datalo addrlo 0

theorem encodes_loadWord (kind : AccessKind) :
    Encodes (loadWord datalo addrlo kind) .al (transferOf true kind datalo addrlo (.imm 0) true false)
    := by
  cases kind
  case word | byte => exact encodes_tcgOutMemop12 (by trivial) datalo addrlo (by decide) false
  all_goals exact encodes_tcgOutMemop8 (by trivial) (.inl rfl) datalo addrlo (by decide) false

theorem add_offset_zero (x : Word) (s : State) : x + (Offset.imm 0).value s = x := BitVec.add_zero x

theorem ldDirect_one (hq : op.size ≠ .q) :
    tcgOutQemuLdDirect t op datalo datahi addrlo = loadOne t op datalo (loadWord datalo addrlo) := by
  obtain ⟨size, bswap⟩ := op
  cases size
  case q => exact absurd rfl hq
  all_goals rfl

theorem ldIndex_right (hregs : LoadRegs t op datalo datahi addrlo)
    (hok : IndexLoadOk t op datalo datahi) (s : State) :
    LoadsRight t op (tcgOutQemuLdIndex t op datalo datahi addrlo (addendReg t)) s
      (s.regs addrlo + s.regs (addendReg t)) datalo datahi := by
  obtain ⟨hlow, hhigh, hdiffer, haddr⟩ := hregs
  by_cases hq : op.size = .q
  · obtain ⟨size, bswap⟩ := op
    obtain rfl : size = .q := hq
    have hhi := hhigh rfl
    have hne := hdiffer rfl
    have hpair := @falls_index_pair t (if bswap then datahi else datalo)
      (if bswap then datalo else datahi) addrlo (addendReg t)
    cases bswap with
    | false =>
      obtain ⟨s1, hfalls, h0, h1⟩ := hpair hlow.2 hhi.2.1 hne haddr.1.2.1
        (addendReg_ne_pc t) haddr.ne_addend (hok rfl) s
      exact loadsRight_pair hlow.2 hhi.2 hne hfalls h0 h1
    | true =>
      obtain ⟨s1, hfalls, h0, h1⟩ := hpair hhi.2 hlow.2.1 hne.symm haddr.1.2.1
        (addendReg_ne_pc t) haddr.ne_addend (fun h => (hok rfl h).symm) s
      exact loadsRight_pair hlow.2 hhi.2 hne hfalls h0 h1
  · rw [ldIndex_one hq]
    exact loadsRight_one hq hlow.2.1 hlow.2.2 fun kind hkind pc =>
      exec_load (encodes_tcgOutMemopR (.inl rfl) datalo addrlo (addendReg t) true false)
        (passes_al s.flags) hkind hlow.2.1 haddr.1.2.1 (addendReg_ne_pc t) pc

/-- The first word of big-endian data is the high one, and comes from the higher address. -/
theorem ldDirect_swapped (hlo : Allocatable datalo) (hhi : Allocatable datahi) (hne : datalo ≠ datahi)
    (haddr : addrlo ≠ tcgRegPc) (hpair : ¬ Paired t datahi datalo) (s : State) :
    ∃ s', Falls t (tcgOutQemuLdDirect t ⟨.q, true⟩ datalo datahi addrlo) s s' ∧
      s'.regs datahi = swapBytes 4 (loadLe 4 (s.regs addrlo + 4) s.mem) ∧
      s'.regs datalo = swapBytes 4 (loadLe 4 (s.regs addrlo) s.mem) := by
  obtain ⟨s1, hfirst, hhigh, hlow⟩ := @falls_direct_pair t datahi datalo addrlo 4 0 (by decide)
    (by decide) hhi.2.1 hlo.2.1 haddr hne.symm s
  obtain ⟨s', hswap, hhigh', hlow'⟩ :=
    @falls_swap_pair t datahi datalo hhi.2.1 hhi.2.2 hlo.2.1 hlo.2.2 hne.symm s1
  refine ⟨s', ?_, hhigh'.trans (congrArg _ hhigh), ?_⟩
  · simp only [tcgOutQemuLdDirect, if_true, if_neg hpair]
    exact hfirst.append hswap
  · rw [hlow', hlow]
    simp

theorem ldDirect_right (hregs : LoadRegs t op datalo datahi addrlo)
    (hok : DirectLoadOk t op datalo datahi) (s : State) :
    LoadsRight t op (tcgOutQemuLdDirect t op datalo datahi addrlo) s (s.regs addrlo) datalo datahi
    := by
  obtain ⟨hlow, hhigh, hdiffer, haddr⟩ := hregs
  by_cases hq : op.size = .q
  · obtain ⟨size, bswap⟩ := op
    obtain rfl : size = .q := hq
    have hhi := hhigh rfl
    have hne := hdiffer rfl
    suffices hpair : ∃ s1, Falls t
        (if Paired t (if bswap then datahi else datalo) (if bswap then datalo else datahi) then
          [tcgOutLdrdAt .al (if bswap then datahi else datalo) addrlo 0]
        else if (if bswap then datahi else datalo) = addrlo then
          [tcgOutLd32At .al (if bswap then datalo else datahi) addrlo (if bswap then 0 else 4),
            tcgOutLd32At .al (if bswap then datahi else datalo) addrlo (if bswap then 4 else 0)]
        else
          [tcgOutLd32At .al (if bswap then datahi else datalo) addrlo (if bswap then 4 else 0),
            tcgOutLd32At .al (if bswap then datalo else datahi) addrlo (if bswap then 0 else 4)])
        s s1 ∧
        s1.regs (if bswap then datahi else datalo) = loadLe 4 (s.regs addrlo) s.mem ∧
        s1.regs (if bswap then datalo else datahi) = loadLe 4 (s.regs addrlo + 4) s.mem by
      obtain ⟨s1, hfalls, h0, h1⟩ := hpair
      exact loadsRight_pair hlow.2 hhi.2 hne hfalls h0 h1
    by_cases hpaired : Paired t (if bswap then datahi else datalo) (if bswap then datalo else datahi)
    · rw [if_pos hpaired]
      have hregs : (if bswap then datahi else datalo) ≠ tcgRegPc ∧
          (if bswap then datalo else datahi) ≠ tcgRegPc ∧
          (if bswap then datahi else datalo) ≠ (if bswap then datalo else datahi) := by
        cases bswap
        · exact ⟨hlow.2.1, hhi.2.1, hne⟩
        · exact ⟨hhi.2.1, hlow.2.1, hne.symm⟩
      refine ⟨_, cons (exec_load_double (encodes_loadWord .double) (passes_al s.flags) hpaired
        hregs.1 hregs.2.1 haddr.1.2.1 id id id) nil, ?_, ?_⟩
      · rw [set_regs_of_ne _ _ hregs.2.2, set_regs, add_offset_zero]
      · rw [set_regs, add_offset_zero]
    · cases bswap with
      | true => exact absurd (hok rfl rfl) hpaired
      | false =>
        rw [if_neg hpaired]
        obtain ⟨s1, hfalls, h0, h1⟩ := @falls_direct_pair t datalo datahi addrlo 0 4 (by decide)
          (by decide) hlow.2.1 hhi.2.1 haddr.1.2.1 hne s
        refine ⟨s1, hfalls, ?_, h1⟩
        rw [if_neg (by decide), h0]
        simp
  · rw [ldDirect_one hq]
    refine loadsRight_one hq hlow.2.1 hlow.2.2 fun kind hkind pc => ?_
    rw [exec_load (encodes_loadWord kind) (passes_al s.flags) hkind hlow.2.1 haddr.1.2.1 id pc,
      add_offset_zero]

end Loads

def storeCond (t : Target) : CondCode := if t.softmmu then .eq else .al

def IndexStoreOk (t : Target) (op : HostMemOp) : Prop :=
  op.bswap = true → op.bytes ≠ 1 → t.useArmv6 = true ∨ t.softmmu = true

def StoresRight (t : Target) (op : HostMemOp) (code : List Word) (s : State) (a : Word)
    (datalo datahi : Reg) : Prop :=
  ∃ s', Falls t code s s' ∧ s'.mem = store op.bswap op.bytes a (op.value s datalo datahi) s.mem

def storeOne (t : Target) (cond : CondCode) (op : HostMemOp) (datalo : Reg)
    (word : Reg → AccessKind → Word) : List Word :=
  match op.size with
  | .ub | .sb => [word datalo .byte]
  | .uw | .sw =>
    if op.bswap then tcgOutBswap16st t cond tcgRegR0 datalo ++ [word tcgRegR0 .half]
    else [word datalo .half]
  | _ =>
    if op.bswap then tcgOutBswap32 t cond tcgRegR0 datalo ++ [word tcgRegR0 .word]
    else [word datalo .word]

theorem store_one (big : Bool) (a : Word) (v : BitVec 64) (m : Mem 32) :
    store big 1 a v m = store false 1 a v m := by
  funext b
  rw [store_apply, store_apply]
  split
  · rename_i hd
    have hzero : (b - a).toNat = 0 := by omega
    cases big <;> simp [position, hzero]
  · rfl

section Stores

variable {t : Target} {cond : CondCode} {op : HostMemOp} {datalo datahi addrlo : Reg} {s : State}

theorem storesRight_one {word : Reg → AccessKind → Word} {addr : State → Word} (hq : op.size ≠ .q)
    (hpass : cond.passes s.flags = true) (hpc : datalo ≠ tcgRegPc) (htmp : datalo ≠ tcgRegTmp)
    (hword : ∀ s1 rt kind, rt ≠ tcgRegPc → kind ≠ .double → AccessKind.Stored kind →
      cond.passes s1.flags = true → ∀ pc, exec t pc (word rt kind) s1 =
        some (.fall { s1 with mem := storeLe kind.bytes (addr s1) (s1.regs rt) s1.mem }))
    (hkeep : op.bswap = true → op.bytes ≠ 1 → ∀ x v, (t.useArmv6 = true → x = s.regs tcgRegTmp) →
      addr ((s.set tcgRegTmp x).set tcgRegR0 v) = addr s) :
    StoresRight t op (storeOne t cond op datalo word) s (addr s) datalo datahi := by
  obtain ⟨size, bswap⟩ := op
  cases size <;> cases bswap
  case q.false | q.true => exact absurd rfl hq
  case ub.false | ub.true | sb.false | sb.true =>
    refine ⟨_, cons (hword s datalo .byte hpc (by decide) trivial hpass) nil, ?_⟩
    simp only [bytes, store_one true]
    rfl
  case uw.false | sw.false =>
    exact ⟨_, cons (hword s datalo .half hpc (by decide) trivial hpass) nil, rfl⟩
  case ul.false | sl.false =>
    exact ⟨_, cons (hword s datalo .word hpc (by decide) trivial hpass) nil, rfl⟩
  case uw.true | sw.true =>
    obtain ⟨v, ⟨x, hx, hfalls⟩, hv⟩ := @leaves_bswap16st t cond tcgRegR0 datalo s hpass (by decide) hpc htmp
    refine ⟨_, hfalls.append (cons
      (hword _ tcgRegR0 .half (by decide) (by decide) trivial hpass) nil), ?_⟩
    simp only [set_regs, set_mem, AccessKind.bytes, hkeep rfl (by decide) x v hx]
    rw [storeLe_congr _ _ hv, storeLe_swapBytes (by omega)]
    rfl
  case ul.true | sl.true =>
    obtain ⟨x, hx, hfalls⟩ := @leaves_bswap32 t cond tcgRegR0 datalo s hpass (by decide) hpc (by decide) htmp
    refine ⟨_, hfalls.append (cons
      (hword _ tcgRegR0 .word (by decide) (by decide) trivial hpass) nil), ?_⟩
    simp only [set_regs, set_mem, AccessKind.bytes, hkeep rfl (by decide) x _ hx]
    rw [storeLe_swapBytes (by omega)]
    rfl

theorem exec_st32At {rt rn : Reg} {imm : Int} (h0 : 0 ≤ imm) (h1 : imm < 4096)
    (hpass : cond.passes s.flags = true) (hrt : rt ≠ tcgRegPc) (hrn : rn ≠ tcgRegPc) (pc : Word) :
    exec t pc (tcgOutSt32At cond rt rn imm) s = some (.fall { s with
      mem := storeLe 4 (s.regs rn + BitVec.ofNat 32 imm.natAbs) (s.regs rt) s.mem }) := by
  have henc := @encodes_tcgOutMemop12 cond false .word trivial rt rn imm (by omega) false
  rw [decide_eq_true h0] at henc
  exact exec_store henc hpass (by decide) hrt hrn id pc

theorem exec_st32Rwb {rt rn rm : Reg} (hpass : cond.passes s.flags = true) (hrt : rt ≠ tcgRegPc)
    (hrn : rn ≠ tcgRegPc) (hrm : rm ≠ tcgRegPc) (hdata : rn ≠ rt) (hindex : rm ≠ rn) (pc : Word) :
    exec t pc (tcgOutSt32Rwb cond rt rn rm) s = some (.fall { s.set rn (s.regs rn + s.regs rm) with
        mem := storeLe 4 (s.regs rn + s.regs rm) (s.regs rt) s.mem }) :=
  exec_store_writeback (encodes_tcgOutMemopR (.inr (by trivial)) rt rn rm true true) hpass hrt hrn hrm
    hdata hindex pc

variable {r : Reg} {x v : Word}

/-- Swapping data into `r0` keeps every other register but the scratch one. -/
theorem regs_of_leaves (hzero : r ≠ tcgRegR0)
    (htmp : r = tcgRegTmp → t.useArmv6 = true) (hx : t.useArmv6 = true → x = s.regs tcgRegTmp) :
    ((s.set tcgRegTmp x).set tcgRegR0 v).regs r = s.regs r := by
  rw [set_regs_of_ne _ _ hzero]
  by_cases h : r = tcgRegTmp
  · rw [h, set_regs, hx (htmp h)]
  · rw [set_regs_of_ne _ _ h]

theorem addend_kept (hok : t.useArmv6 = true ∨ t.softmmu = true) (h : addendReg t = tcgRegTmp) :
    t.useArmv6 = true := by
  refine hok.resolve_right fun hmmu => ?_
  rw [addendReg, if_pos hmmu] at h
  exact absurd h (by decide)

theorem AllowedS.ne_tmp (h : AllowedS t r) : r ≠ tcgRegTmp := h.1.2.2

theorem AllowedS.ne_pc (h : AllowedS t r) : r ≠ tcgRegPc := h.1.2.1

theorem AllowedS.kept (h : AllowedS t r) :
    ((s.set tcgRegTmp x).set tcgRegR0 v).regs r = s.regs r := by
  rw [set_regs_of_ne _ _ (show r ≠ tcgRegR0 from h.2.1), set_regs_of_ne _ _ h.ne_tmp]

theorem stIndex_pair_swapped (hlow : AllowedS t datalo) (hhigh : AllowedS t datahi)
    (haddr : AllowedS t addrlo) (hok : t.useArmv6 = true ∨ t.softmmu = true)
    (hpass : cond.passes s.flags = true) :
    StoresRight t ⟨.q, true⟩
      (tcgOutBswap32 t cond tcgRegR0 datahi ++ [tcgOutSt32Rwb cond tcgRegR0 (addendReg t) addrlo] ++
        (tcgOutBswap32 t cond tcgRegR0 datalo ++ [tcgOutSt32At cond tcgRegR0 (addendReg t) 4]))
      s (s.regs addrlo + s.regs (addendReg t)) datalo datahi := by
  obtain ⟨x, hx, hfirst⟩ := @leaves_bswap32 t cond tcgRegR0 datahi s hpass (by decide) hhigh.ne_pc
    (by decide) hhigh.ne_tmp
  have hbase : ∀ {s : State} {x v : Word}, (t.useArmv6 = true → x = s.regs tcgRegTmp) →
      ((s.set tcgRegTmp x).set tcgRegR0 v).regs (addendReg t) = s.regs (addendReg t) :=
    fun h => regs_of_leaves (addendReg_ne_zero t) (addend_kept hok) h
  set s1 := (s.set tcgRegTmp x).set tcgRegR0 (swapBytes 4 (s.regs datahi)) with hs1
  have hstore := cons (@exec_st32Rwb t cond s1 tcgRegR0 (addendReg t) addrlo hpass (by decide)
    (addendReg_ne_pc t) haddr.ne_pc (addendReg_ne_zero t) haddr.ne_addend) nil
  set s2 : State := { s1.set (addendReg t) (s1.regs (addendReg t) + s1.regs addrlo) with
    mem := storeLe 4 (s1.regs (addendReg t) + s1.regs addrlo) (s1.regs tcgRegR0) s1.mem } with hs2
  obtain ⟨y, hy, hsecond⟩ := @leaves_bswap32 t cond tcgRegR0 datalo s2 hpass (by decide) hlow.ne_pc
    (by decide) hlow.ne_tmp
  have hlast := cons (@exec_st32At t cond ((s2.set tcgRegTmp y).set tcgRegR0
    (swapBytes 4 (s2.regs datalo))) tcgRegR0 (addendReg t) 4 (by decide) (by decide) hpass
    (by decide) (addendReg_ne_pc t)) nil
  have haddress : s1.regs (addendReg t) + s1.regs addrlo = s.regs addrlo + s.regs (addendReg t) := by
    rw [hs1, hbase hx, haddr.kept, BitVec.add_comm]
  have hdata : s2.regs datalo = s.regs datalo := by
    change (s1.set (addendReg t) _).regs datalo = _
    rw [set_regs_of_ne _ _ hlow.ne_addend, hs1, hlow.kept]
  have haddend : s2.regs (addendReg t) = s.regs addrlo + s.regs (addendReg t) := by
    change (s1.set (addendReg t) _).regs (addendReg t) = _
    rw [set_regs, haddress]
  have hmem : s2.mem = storeLe 4 (s.regs addrlo + s.regs (addendReg t))
      (swapBytes 4 (s.regs datahi)) s.mem := by
    rw [hs2, haddress, hs1, set_regs]
    rfl
  refine ⟨_, (hfirst.append hstore).append (hsecond.append hlast), ?_⟩
  simp only [set_regs, set_mem, hbase hy, hdata, haddend, hmem]
  exact store_eight_big _ _ _ _

theorem stIndex_pair (hlow : AllowedS t datalo) (hhigh : AllowedS t datahi)
    (haddr : AllowedS t addrlo) (hpass : cond.passes s.flags = true) :
    StoresRight t ⟨.q, false⟩
      (if Paired t datalo datahi then [tcgOutStrdR cond datalo addrlo (addendReg t)]
        else [tcgOutSt32Rwb cond datalo (addendReg t) addrlo, tcgOutSt32At cond datahi (addendReg t) 4])
      s (s.regs addrlo + s.regs (addendReg t)) datalo datahi := by
  split
  · rename_i hpair
    exact ⟨_, cons (exec_store_double (encodes_tcgOutMemopR (.inr (by trivial)) datalo addrlo
      (addendReg t) true false) hpass hpair hlow.ne_pc hhigh.ne_pc haddr.ne_pc (addendReg_ne_pc t))
      nil, rfl⟩
  · refine ⟨_, cons (exec_st32Rwb hpass hlow.ne_pc (addendReg_ne_pc t) haddr.ne_pc
      hlow.ne_addend.symm haddr.ne_addend) (cons
      (exec_st32At (by decide) (by decide) hpass hhigh.ne_pc (addendReg_ne_pc t)) nil), ?_⟩
    change storeLe 4 ((s.set (addendReg t) _).regs (addendReg t) + 4)
      ((s.set (addendReg t) _).regs datahi) (storeLe 4 _ (s.regs datalo) s.mem) = _
    rw [set_regs, set_regs_of_ne _ _ hhigh.ne_addend, BitVec.add_comm (s.regs addrlo)]
    exact store_eight _ _ _ _

theorem stIndex_one (hq : op.size ≠ .q) (addend : Reg) :
    tcgOutQemuStIndex t cond op datalo datahi addrlo addend = storeOne t cond op datalo
      fun rt kind => tcgOutMemopR cond (memOpc false kind false) rt addrlo addend true true false := by
  obtain ⟨size, bswap⟩ := op
  cases size
  case q => exact absurd rfl hq
  all_goals rfl

theorem stIndex_right (hregs : StoreRegs t op datalo datahi addrlo) (hok : IndexStoreOk t op)
    (hpass : cond.passes s.flags = true) :
    StoresRight t op (tcgOutQemuStIndex t cond op datalo datahi addrlo (addendReg t)) s
      (s.regs addrlo + s.regs (addendReg t)) datalo datahi := by
  obtain ⟨hlow, hhigh, haddr⟩ := hregs
  by_cases hq : op.size = .q
  · obtain ⟨size, bswap⟩ := op
    obtain rfl : size = .q := hq
    cases bswap with
    | false => exact stIndex_pair hlow (hhigh rfl) haddr hpass
    | true => exact stIndex_pair_swapped hlow (hhigh rfl) haddr (hok rfl (by decide)) hpass
  · rw [stIndex_one hq]
    refine @storesRight_one t cond op datalo datahi s _ (fun s => s.regs addrlo + s.regs (addendReg t))
      hq hpass hlow.ne_pc hlow.ne_tmp ?_ ?_
    · intro s1 rt kind hrt hkind hstored hpass pc
      exact exec_store (encodes_tcgOutMemopR (.inr hstored) rt addrlo (addendReg t) true false) hpass
        hkind hrt haddr.ne_pc (addendReg_ne_pc t) pc
    · intro hswap hbytes x v hx
      simp only [haddr.kept, regs_of_leaves (addendReg_ne_zero t) (addend_kept (hok hswap hbytes)) hx]

def storeWord (addrlo rt : Reg) : AccessKind → Word
  | .word => tcgOutSt32At .al rt addrlo 0
  | .byte => tcgOutSt8At .al rt addrlo 0
  | .double => tcgOutStrdAt .al rt addrlo 0
  | _ => tcgOutSt16At .al rt addrlo 0

theorem encodes_storeWord {kind : AccessKind} (hkind : kind.Stored) (rt : Reg) :
    Encodes (storeWord addrlo rt kind) .al (transferOf false kind rt addrlo (.imm 0) true false) := by
  cases kind
  case word | byte => exact encodes_tcgOutMemop12 (by trivial) rt addrlo (by decide) false
  case sbyte | shalf => exact hkind.elim
  all_goals exact encodes_tcgOutMemop8 (by trivial) (.inr hkind) rt addrlo (by decide) false

theorem stDirect_one (hq : op.size ≠ .q) :
    tcgOutQemuStDirect t op datalo datahi addrlo = storeOne t .al op datalo (storeWord addrlo) := by
  obtain ⟨size, bswap⟩ := op
  cases size
  case q => exact absurd rfl hq
  all_goals rfl

theorem stDirect_pair_swapped (hlow : AllowedS t datalo) (hhigh : AllowedS t datahi)
    (haddr : AllowedS t addrlo) :
    StoresRight t ⟨.q, true⟩
      (tcgOutBswap32 t .al tcgRegR0 datahi ++ [tcgOutSt32At .al tcgRegR0 addrlo 0] ++
        (tcgOutBswap32 t .al tcgRegR0 datalo ++ [tcgOutSt32At .al tcgRegR0 addrlo 4]))
      s (s.regs addrlo) datalo datahi := by
  obtain ⟨x, hx, hfirst⟩ := @leaves_bswap32 t .al tcgRegR0 datahi s (passes_al _) (by decide)
    hhigh.ne_pc (by decide) hhigh.ne_tmp
  set s1 := (s.set tcgRegTmp x).set tcgRegR0 (swapBytes 4 (s.regs datahi)) with hs1
  have hstore := cons (@exec_st32At t .al s1 tcgRegR0 addrlo 0 (by decide) (by decide)
    (passes_al _) (by decide) haddr.ne_pc) nil
  have hmem : storeLe 4 (s1.regs addrlo + BitVec.ofNat 32 (0 : Int).natAbs) (s1.regs tcgRegR0)
      s1.mem = storeLe 4 (s.regs addrlo) (swapBytes 4 (s.regs datahi)) s.mem := by
    rw [hs1, haddr.kept, set_regs]
    simp
  rw [hmem] at hstore
  set s2 : State := { s1 with
    mem := storeLe 4 (s.regs addrlo) (swapBytes 4 (s.regs datahi)) s.mem } with hs2
  obtain ⟨y, hy, hsecond⟩ := @leaves_bswap32 t .al tcgRegR0 datalo s2 (passes_al _) (by decide)
    hlow.ne_pc (by decide) hlow.ne_tmp
  have hlast := cons (@exec_st32At t .al ((s2.set tcgRegTmp y).set tcgRegR0
    (swapBytes 4 (s2.regs datalo))) tcgRegR0 addrlo 4 (by decide) (by decide) (passes_al _)
    (by decide) haddr.ne_pc) nil
  have hdata : s2.regs datalo = s.regs datalo := hlow.kept
  have haddress : s2.regs addrlo = s.regs addrlo := haddr.kept
  refine ⟨_, (hfirst.append hstore).append (hsecond.append hlast), ?_⟩
  simp only [set_regs, set_mem, haddr.kept, hdata, haddress]
  exact store_eight_big _ _ _ _

theorem stDirect_pair (hlow : AllowedS t datalo) (hhigh : AllowedS t datahi) (haddr : AllowedS t addrlo) :
    StoresRight t ⟨.q, false⟩
      (if Paired t datalo datahi then [tcgOutStrdAt .al datalo addrlo 0]
        else [tcgOutSt32At .al datalo addrlo 0, tcgOutSt32At .al datahi addrlo 4])
      s (s.regs addrlo) datalo datahi := by
  split
  · rename_i hpair
    refine ⟨_, cons (exec_store_double (@encodes_storeWord addrlo .double trivial datalo)
      (passes_al _) hpair hlow.ne_pc hhigh.ne_pc haddr.ne_pc id) nil, ?_⟩
    rw [add_offset_zero]
    rfl
  · refine ⟨_, cons (exec_st32At (by decide) (by decide) (passes_al _) hlow.ne_pc haddr.ne_pc)
      (cons (exec_st32At (by decide) (by decide) (passes_al _) hhigh.ne_pc haddr.ne_pc) nil), ?_⟩
    have hzero : s.regs addrlo + BitVec.ofNat 32 (0 : Int).natAbs = s.regs addrlo := by simp
    simp only [hzero]
    exact store_eight _ _ _ _

theorem stDirect_right (hregs : StoreRegs t op datalo datahi addrlo) :
    StoresRight t op (tcgOutQemuStDirect t op datalo datahi addrlo) s (s.regs addrlo) datalo datahi
    := by
  obtain ⟨hlow, hhigh, haddr⟩ := hregs
  by_cases hq : op.size = .q
  · obtain ⟨size, bswap⟩ := op
    obtain rfl : size = .q := hq
    cases bswap with
    | false => exact stDirect_pair hlow (hhigh rfl) haddr
    | true => exact stDirect_pair_swapped hlow (hhigh rfl) haddr
  · rw [stDirect_one hq]
    refine @storesRight_one t .al op datalo datahi s _ (fun s => s.regs addrlo) hq (passes_al _)
      hlow.ne_pc hlow.ne_tmp ?_ ?_
    · intro s1 rt kind hrt hkind hstored hpass pc
      rw [exec_store (encodes_storeWord hstored rt) hpass hkind hrt haddr.ne_pc id pc, add_offset_zero]
    · intro _ _ x v _
      exact haddr.kept

end Stores

def HostMemOp.kept (op : HostMemOp) (v : BitVec 64) : BitVec 64 :=
  op.extend ((v.setWidth (8 * op.bytes)).setWidth 64)

theorem loaded_store (op : HostMemOp) (a : Word) (v : BitVec 64) (m : Mem 32) :
    op.loaded a (store op.bswap op.bytes a v m) = op.kept v := by
  have hbytes : op.bytes ≤ 8 := by
    rw [bytes]
    split <;> decide
  rw [loaded, load_store hbytes (by decide), kept]

/-- A load of the memory that the store leaves, with its address set up again, gives the value. -/
def GivesBack (t : Target) (op : HostMemOp) (st ld : List Word) (sto lod : State → Word)
    (slo shi llo lhi : Reg) (s : State) : Prop :=
  ∃ s', Falls t st s s' ∧ ∀ s₂, s₂.mem = s'.mem → lod s₂ = sto s →
    ∃ s₃, Falls t ld s₂ s₃ ∧ op.value s₃ llo lhi = op.kept (op.value s slo shi)

theorem givesBack_of_right {op : HostMemOp} {st ld : List Word} {sto lod : State → Word}
    {slo shi llo lhi : Reg} {s : State} (hst : StoresRight t op st s (sto s) slo shi)
    (hld : ∀ s, LoadsRight t op ld s (lod s) llo lhi) :
    GivesBack t op st ld sto lod slo shi llo lhi s := by
  obtain ⟨s', hfalls, hmem⟩ := hst
  refine ⟨s', hfalls, fun s2 hsame haddr => ?_⟩
  obtain ⟨s3, hload, hvalue⟩ := hld s2
  refine ⟨s3, hload, ?_⟩
  rw [hvalue, hsame, hmem, haddr, loaded_store]

/-- The direct and the index loads give the reference value, and give back what was stored. -/
structure LdstRight (t : Target) (op : HostMemOp) (llo lhi lad slo shi sad : Reg) : Prop where
  direct : ∀ s, LoadsRight t op (tcgOutQemuLdDirect t op llo lhi lad) s (s.regs lad) llo lhi
  index : ∀ s, LoadsRight t op (tcgOutQemuLdIndex t op llo lhi lad (addendReg t)) s
    (s.regs lad + s.regs (addendReg t)) llo lhi
  directBack : ∀ s, GivesBack t op (tcgOutQemuStDirect t op slo shi sad)
    (tcgOutQemuLdDirect t op llo lhi lad) (fun s => s.regs sad) (fun s => s.regs lad)
    slo shi llo lhi s
  indexBack : ∀ s, (storeCond t).passes s.flags = true →
    GivesBack t op (tcgOutQemuStIndex t (storeCond t) op slo shi sad (addendReg t))
      (tcgOutQemuLdIndex t op llo lhi lad (addendReg t))
      (fun s => s.regs sad + s.regs (addendReg t)) (fun s => s.regs lad + s.regs (addendReg t))
      slo shi llo lhi s

theorem Falls.unique {code : List Word} {s s1 s2 : State} (h1 : Falls t code s s1)
    (h2 : Falls t code s s2) : s1 = s2 := by
  have h := (h1 0).symm.trans (h2 0)
  injection h with h
  injection h

section Wrong

variable {t : Target} {op : HostMemOp} {llo lhi lad slo shi sad : Reg} {s : State} {rn : Reg}

def firstByte : State := ⟨fun _ => 0, ⟨false, false, false, false⟩, fun b => if b = 0 then 1 else 0⟩

theorem directLoadOk_of_right (hregs : LoadRegs t op llo lhi lad)
    (h : LoadsRight t op (tcgOutQemuLdDirect t op llo lhi lad) firstByte (firstByte.regs lad) llo lhi) :
    DirectLoadOk t op llo lhi := by
  intro hq hswap
  obtain ⟨size, bswap⟩ := op
  obtain rfl : size = .q := hq
  obtain rfl : bswap = true := hswap
  by_contra hpair
  obtain ⟨s1, hfalls, hvalue⟩ := h
  obtain ⟨s', hfalls', hhigh, hlow⟩ := ldDirect_swapped hregs.low (hregs.high rfl) (hregs.differ rfl)
    hregs.address.1.2.1 hpair firstByte
  have hzero : firstByte.regs lad = 0 := rfl
  rw [hfalls.unique hfalls', value, if_pos rfl, hhigh, hlow, hzero] at hvalue
  exact absurd hvalue (by decide)

theorem indexLoadOk_of_right {a : Word}
    (h : LoadsRight t op (tcgOutQemuLdIndex t op llo lhi lad (addendReg t)) s a llo lhi) :
    IndexLoadOk t op llo lhi := by
  intro hq hpair
  obtain ⟨size, bswap⟩ := op
  obtain rfl : size = .q := hq
  by_contra hbase
  have hoverlap : addendReg t = (if bswap then lhi else llo) ∨
      addendReg t = (if bswap then llo else lhi) := by
    cases bswap <;> simp only [if_true, Bool.false_eq_true, if_false] <;> tauto
  obtain ⟨s', hfalls, _⟩ := h
  have hrun := hfalls 0
  simp only [tcgOutQemuLdIndex, if_pos hpair] at hrun
  rw [List.singleton_append, run, tcgOutLdrdR, exec_load_double_none
    (encodes_tcgOutMemopR (.inl rfl) _ _ _ true false) (passes_al s.flags) hpair hoverlap] at hrun
  exact absurd hrun (by simp)

theorem falls_bswap32_zero (hrn : AllowedS t rn) (hzero : s.regs rn = 0) (hv6 : ¬ t.useArmv6 = true) :
    Falls t (tcgOutBswap32 t .al tcgRegR0 rn) s ((s.set tcgRegTmp 0).set tcgRegR0 0) := by
  have hfalls := @falls_bswap32_rotations t .al tcgRegR0 rn s (passes_al _) (by decide) hrn.ne_pc
    (by decide) hrn.ne_tmp hv6
  rw [hzero] at hfalls
  have htmp : ((0 : Word) ^^^ (0 : Word).rotateRight 16) &&& ~~~ (0x00ff0000 : Word) = 0 := by decide
  have hswap : swapBytes 4 0 = 0 := by decide
  rwa [htmp, hswap] at hfalls

theorem falls_bswap16st_zero (hrn : AllowedS t rn) (hzero : s.regs rn = 0) (hv6 : ¬ t.useArmv6 = true) :
    Falls t (tcgOutBswap16st t .al tcgRegR0 rn) s ((s.set tcgRegTmp 0).set tcgRegR0 0) := by
  have hfalls := @falls_bswap16st_shifts t .al tcgRegR0 rn s (passes_al _) (by decide) hrn.ne_pc
    hrn.ne_tmp hv6
  rw [hzero] at hfalls
  have htmp : ((0 : Word) >>> 8) &&& (0xff : Word) = 0 := by decide
  have hswap : (0 : Word) ||| ((0 : Word) <<< 8) = 0 := by decide
  rwa [htmp, hswap] at hfalls

def baseEight : State :=
  ⟨fun r => if r = tcgRegTmp then 8 else 0, ⟨false, false, false, false⟩, fun _ => 0xff⟩

theorem baseEight_regs (h : r ≠ tcgRegTmp) : baseEight.regs r = 0 := if_neg h

def strayed : State := (baseEight.set tcgRegTmp 0).set tcgRegR0 0

theorem strayed_regs (r : Reg) : strayed.regs r = 0 := by
  by_cases hzero : r = tcgRegR0
  · rw [hzero, strayed, set_regs]
  · by_cases htmp : r = tcgRegTmp
    · rw [strayed, set_regs_of_ne _ _ hzero, htmp, set_regs]
    · rw [strayed, set_regs_of_ne _ _ hzero, set_regs_of_ne _ _ htmp, baseEight_regs htmp]

section

variable (hregs : StoreRegs t op slo shi sad)
include hregs

/-- Zeros that are stored at the wrong place leave the ones. -/
theorem stIndex_lost (hswap : op.bswap = true) (hbytes : op.bytes ≠ 1) (hv6 : ¬ t.useArmv6 = true) :
    ∃ s', Falls t (tcgOutQemuStIndex t .al op slo shi sad tcgRegTmp) baseEight s' ∧
      op.loaded 8 s'.mem ≠ 0 := by
  obtain ⟨hlow, hhigh, haddr⟩ := hregs
  have hfirst := @falls_bswap32_zero t baseEight slo hlow (baseEight_regs hlow.ne_tmp) hv6
  obtain ⟨size, bswap⟩ := op
  obtain rfl : bswap = true := hswap
  cases size
  case ub | sb => exact absurd rfl hbytes
  case uw | sw =>
    refine ⟨_, (falls_bswap16st_zero hlow (baseEight_regs hlow.ne_tmp) hv6).append (cons (exec_store
      (encodes_tcgOutMemopR (.inr (by trivial)) tcgRegR0 sad tcgRegTmp true false) (passes_al _)
      (by decide) (by decide) haddr.ne_pc (by decide : tcgRegTmp ≠ tcgRegPc)) nil), ?_⟩
    change loaded _ 8 (storeLe 2 (strayed.regs sad + strayed.regs tcgRegTmp)
      (strayed.regs tcgRegR0) fun _ => 0xff) ≠ 0
    simp only [strayed_regs]
    decide
  case ul | sl =>
    refine ⟨_, hfirst.append (cons (exec_store
      (encodes_tcgOutMemopR (.inr (by trivial)) tcgRegR0 sad tcgRegTmp true false) (passes_al _)
      (by decide) (by decide) haddr.ne_pc (by decide : tcgRegTmp ≠ tcgRegPc)) nil), ?_⟩
    change loaded _ 8 (storeLe 4 (strayed.regs sad + strayed.regs tcgRegTmp)
      (strayed.regs tcgRegR0) fun _ => 0xff) ≠ 0
    simp only [strayed_regs]
    decide
  case q =>
    have hhi := hhigh rfl
    have hstart := @falls_bswap32_zero t baseEight shi hhi (baseEight_regs hhi.ne_tmp) hv6
    have hstore := cons (@exec_st32Rwb t .al strayed tcgRegR0 tcgRegTmp sad (passes_al _)
      (by decide) (by decide) haddr.ne_pc (by decide) haddr.ne_tmp) nil
    simp only [strayed_regs] at hstore
    set s2 : State := { strayed.set tcgRegTmp (0 + 0) with
      mem := storeLe 4 (0 + 0) 0 strayed.mem } with hs2
    have hslo : s2.regs slo = 0 := by
      change (strayed.set tcgRegTmp (0 + 0)).regs slo = 0
      rw [set_regs_of_ne _ _ hlow.ne_tmp, strayed_regs]
    have hsecond := falls_bswap32_zero hlow hslo hv6
    refine ⟨_, (hstart.append hstore).append (hsecond.append (cons (exec_st32At (by decide)
      (by decide) (passes_al _) (by decide) (by decide)) nil)), ?_⟩
    change loaded _ 8 (storeLe 4 (((s2.set tcgRegTmp 0).set tcgRegR0 0).regs tcgRegTmp + 4)
      (((s2.set tcgRegTmp 0).set tcgRegR0 0).regs tcgRegR0) (storeLe 4 0 0 fun _ => 0xff)) ≠ 0
    rw [set_regs_of_ne _ _ (by decide : tcgRegTmp ≠ tcgRegR0), set_regs, set_regs]
    decide

theorem kept_baseEight : op.kept (op.value baseEight slo shi) = 0 := by
  obtain ⟨size, bswap⟩ := op
  by_cases hq : size = .q
  · subst hq
    rw [value, if_pos rfl, baseEight_regs hregs.low.ne_tmp, baseEight_regs (hregs.high rfl).ne_tmp]
    simp [kept, extend]
  · rw [value, if_neg hq, baseEight_regs hregs.low.ne_tmp]
    cases size <;> simp [kept, extend]

theorem indexStoreOk_of_right (hlad : AllowedL t lad)
    (h : LdstRight t op llo lhi lad slo shi sad) : IndexStoreOk t op := by
  intro hswap hbytes
  by_contra hboth
  rw [not_or] at hboth
  obtain ⟨hv6, hmmu⟩ := hboth
  have haddend : addendReg t = tcgRegTmp := if_neg hmmu
  have hcond : storeCond t = .al := if_neg hmmu
  have hback := h.indexBack baseEight (hcond ▸ passes_al _)
  rw [haddend, hcond] at hback
  obtain ⟨s', hfalls, hgives⟩ := hback
  obtain ⟨s1, hfalls1, hlost⟩ := stIndex_lost hregs hswap hbytes hv6
  rw [hfalls.unique hfalls1] at hgives
  obtain ⟨s3, hload, hvalue⟩ := hgives { baseEight with mem := s1.mem } rfl (by
    change baseEight.regs lad + _ = baseEight.regs sad + _
    rw [baseEight_regs hlad.1.2.2, baseEight_regs hregs.address.ne_tmp])
  obtain ⟨s4, hload', hvalue'⟩ := h.index { baseEight with mem := s1.mem }
  rw [haddend] at hload' hvalue'
  have haddress : baseEight.regs lad + baseEight.regs tcgRegTmp = 8 := by
    rw [baseEight_regs hlad.1.2.2]
    decide
  rw [hload.unique hload', hvalue', haddress, kept_baseEight hregs] at hvalue
  exact hlost hvalue

end

end Wrong

end TcgArm.ArmHost
