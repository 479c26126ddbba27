import TcgArm.TbPages

/-! The main loop of the translator (`gen_intermediate_code` of `target-arm/translate.c`): which
guest bytes become part of a block. What translating one instruction does to the rest of the
translator's state is left open: an instruction may end the block or not, and the buffer of ops may
be full after any of them. -/

namespace TcgArm.Translate

open List Nat TcgArm.Tb
open BitVec (toNat_add toNat_sub toNat_inj ofNat toNat_ofNat)

/-- An entry of `cs->breakpoints`; `cpu` is the flag `BP_CPU`. -/
structure Breakpoint where
  pc : TargetUlong
  cpu : Bool

/-- What the loop depends on: guest memory, the fields of the block (`pc`, `cflags` and the flags
that are read from it), the features `THUMB2` or `M`, the debugging state of the CPU, and whether the
`n`-th instruction at an address leaves `is_jmp` set or fills the buffer of ops. -/
structure Input where
  mem : TargetUlong → BitVec 8
  pc : TargetUlong
  cflags : BitVec 32
  thumb : Bool
  sctlrB : Bool
  ssActive : Bool
  pstateSs : Bool
  thumb2 : Bool
  singlestepEnabled : Bool
  singlestep : Bool
  breakpoints : List Breakpoint
  isJmp : Nat → TargetUlong → Bool
  opBufFull : Nat → Bool

/-- Guest bytes that the loop has taken into the block. -/
structure Item where
  addr : TargetUlong
  length : Nat

/-- The fields of the loop: `dc->pc`, `num_insns`, and what was taken so far. -/
structure Disas where
  pc : TargetUlong
  numInsns : Nat
  items : List Item

/-- `tb->size` and `tb->icount`, with what the block is made of. -/
structure Translated where
  size : Nat
  icount : Nat
  items : List Item

namespace Input

variable (x : Input)

def armLduwCode (addr : TargetUlong) : BitVec 16 :=
  if x.sctlrB then x.mem addr ++ x.mem (addr + 1) else x.mem (addr + 1) ++ x.mem addr

/-- The bytes that `disas_thumb2_insn` takes after the first halfword, whose end is at `pc`: cores
without Thumb-2 treat the halves of `BL` and `BLX` as instructions of their own, if it is the second
half or if the halves are on different pages. -/
def thumb2Length (insnHw1 : BitVec 16) (pc : TargetUlong) : Nat :=
  if ¬ x.thumb2 ∧ (¬ insnHw1.getLsbD 12 ∨ insnHw1.getLsbD 11 ∨ pc &&& ~~~ targetPageMask = 0) then 0
  else 2

/-- The bytes that `disas_thumb_insn` takes. -/
def thumbLength (pc : TargetUlong) : Nat :=
  let insn := x.armLduwCode pc
  if insn >>> 12 = 14 ∧ insn.getLsbD 11 ∨ insn >>> 12 = 15 then
    2 + x.thumb2Length insn (pc + 2)
  else 2

def insnLength (pc : TargetUlong) : Nat := if x.thumb then x.thumbLength pc else 4

def insnCrossesPage (pc : TargetUlong) : Bool :=
  if pc &&& 3 = 0 then false else 0x1d ≤ (x.armLduwCode pc >>> 11).toNat

def nextPageStart : TargetUlong := (x.pc &&& targetPageMask) + BitVec.ofNat 32 targetPageSize

def endOfPage (pc : TargetUlong) : Bool :=
  x.nextPageStart ≤ pc ∨ x.nextPageStart - 3 ≤ pc ∧ x.insnCrossesPage pc

/-- `TCG_MAX_INSNS`. -/
def tcgMaxInsns : Nat := 512

/-- `CF_COUNT_MASK`. -/
def cfCountMask : BitVec 32 := 0x7fff

/-- The limit that `cflags` sets on the number of instructions; zero sets none. -/
def limit : Nat :=
  let count := (x.cflags &&& cfCountMask).toNat
  if count = 0 then cfCountMask.toNat else count

def maxInsns : Nat := min x.limit tcgMaxInsns

def breakpointAt (pc : TargetUlong) : Option Breakpoint := x.breakpoints.find? (·.pc = pc)

/-- The condition of the loop after `num_insns` instructions, the last of which has left `is_jmp` as
it is now. -/
def goesOn (isJmp : Bool) (numInsns : Nat) (pc : TargetUlong) : Bool :=
  ¬ isJmp ∧ ¬ x.opBufFull numInsns ∧ ¬ x.singlestepEnabled ∧ ¬ x.singlestep ∧ ¬ x.ssActive ∧
    ¬ x.endOfPage pc ∧ numInsns < x.maxInsns

def kernelPage : TargetUlong := 0xffff0000

/-- One round of the loop, and whether there is another one. A pending single step asserts that it
is the first round. -/
def disasInsn (dc : Disas) : Option (Disas × Bool) :=
  let numInsns := dc.numInsns + 1
  let take (length : Nat) : Disas := ⟨dc.pc + BitVec.ofNat 32 length, numInsns, dc.items ++ [⟨dc.pc, length⟩]⟩
  if kernelPage ≤ dc.pc then some ({ dc with numInsns := numInsns }, false)
  else
    let bp := x.breakpointAt dc.pc
    if bp.any (! ·.cpu) then some (take 2, false)
    else if x.ssActive ∧ ¬ x.pstateSs then
      if numInsns = 1 then some ({ dc with numInsns := numInsns }, false) else none
    else
      let dc' := take (x.insnLength dc.pc)
      some (dc', x.goesOn (bp.isSome || x.isJmp numInsns dc.pc) numInsns dc'.pc)

def disasLoop : Nat → Disas → Option Disas
  | 0, _ => none
  | fuel + 1, dc =>
    (x.disasInsn dc).bind fun (dc', more) => if more then disasLoop fuel dc' else some dc'

def genIntermediateCode : Option Translated :=
  (x.disasLoop tcgMaxInsns ⟨x.pc, 0, []⟩).map fun dc => ⟨(dc.pc - x.pc).toNat, dc.numInsns, dc.items⟩

/-- A single step is pending at the start, and no breakpoint of the debugger comes first. -/
def StepPending : Prop :=
  x.ssActive = true ∧ x.pstateSs = false ∧ (x.breakpointAt x.pc).any (! ·.cpu) = false

def pageEnd : Nat := x.pc.toNat / 4096 * 4096 + 4096

/-- What every instruction length is a multiple of. -/
def unit : Nat := if x.thumb then 2 else 4

def Aligned (addr : TargetUlong) : Prop := addr.toNat % x.unit = 0

/-- The start is below the kernel page and no single step is pending there; an ARM instruction at the
start lies on the page; and `insn_crosses_page` recognises every later instruction that extends past
the page, at an address that the limit lets the loop come to. -/
structure Regular : Prop where
  below : x.pc < kernelPage
  notPending : ¬ x.StepPending
  first : x.thumb = true ∨ x.pc.toNat + 4 ≤ x.pageEnd
  later : ∀ addr : TargetUlong, x.pc < addr → addr.toNat % x.unit = x.pc.toNat % x.unit →
    addr.toNat < x.pc.toNat + 4 * x.maxInsns → addr.toNat < x.pageEnd →
    x.pageEnd < addr.toNat + x.insnLength addr → x.insnCrossesPage addr = true

end Input

variable {x : Input}

open Input

theorem pageEnd_le (h : x.pc < Input.kernelPage) : x.pageEnd ≤ 0xffff0000 := by
  have hlt : x.pc.toNat < 0xffff0000 := h
  unfold pageEnd
  omega

theorem lt_pageEnd (x : Input) : x.pc.toNat < x.pageEnd := by
  unfold pageEnd
  omega

theorem nextPageStart_toNat (h : x.pc < Input.kernelPage) : x.nextPageStart.toNat = x.pageEnd := by
  have hle := pageEnd_le h
  have hsize : (ofNat 32 targetPageSize).toNat = 4096 := rfl
  unfold pageEnd at hle ⊢
  rw [nextPageStart, toNat_add, and_targetPageMask_toNat, hsize]
  omega

theorem endOfPage_iff (h : x.pc < Input.kernelPage) (pc : TargetUlong) :
    x.endOfPage pc = true ↔
      x.pageEnd ≤ pc.toNat ∨ x.pageEnd ≤ pc.toNat + 3 ∧ x.insnCrossesPage pc = true := by
  have hnext := nextPageStart_toNat h
  have hge : 4096 ≤ x.pageEnd := Nat.le_add_left ..
  have hsub : (x.nextPageStart - 3).toNat = x.pageEnd - 3 := by
    rw [toNat_sub, hnext, show (3 : TargetUlong).toNat = 3 from rfl]
    omega
  simp only [endOfPage, decide_eq_true_eq, BitVec.le_def, hnext, hsub]
  refine or_congr Iff.rfl (and_congr_left fun _ => ?_)
  omega

theorem thumbLength_bounds (x : Input) (pc : TargetUlong) : 2 ≤ x.thumbLength pc ∧ x.thumbLength pc ≤ 4 := by
  simp only [thumbLength, thumb2Length]
  split_ifs <;> omega

theorem insnLength_bounds (x : Input) (pc : TargetUlong) : 2 ≤ x.insnLength pc ∧ x.insnLength pc ≤ 4 := by
  unfold insnLength
  split
  · exact thumbLength_bounds x pc
  · exact ⟨by decide, le_rfl⟩

/-- `insn_crosses_page` recognises every halfword that starts a long instruction. -/
theorem long_halfword {insn : BitVec 16} (h : insn >>> 12 = 14 ∧ insn.getLsbD 11 ∨ insn >>> 12 = 15) :
    0x1d ≤ (insn >>> 11).toNat := by
  have hshift : (insn >>> 12).toNat = insn.toNat / 4096 := by
    rw [BitVec.toNat_ushiftRight, shiftRight_eq_div_pow]
  rw [BitVec.toNat_ushiftRight, shiftRight_eq_div_pow]
  rcases h with ⟨htop, hbit⟩ | htop
  · rw [htop, show (14 : BitVec 16).toNat = 14 from rfl] at hshift
    rw [BitVec.getLsbD, testBit_eq_decide_div_mod_eq, decide_eq_true_eq] at hbit
    omega
  · rw [htop, show (15 : BitVec 16).toNat = 15 from rfl] at hshift
    omega

theorem and_three_eq_zero_iff (pc : TargetUlong) : pc &&& 3 = 0 ↔ pc.toNat % 4 = 0 := by
  rw [← toNat_inj, BitVec.toNat_and]
  change pc.toNat &&& 2 ^ 2 - 1 = 0 ↔ _
  rw [and_two_pow_sub_one_eq_mod]

variable {pc : TargetUlong}

/-- An instruction that the loop goes on to lies on the page, if its address is aligned. -/
theorem fits_of_aligned (haligned : x.Aligned pc) (hlt : pc.toNat < x.pageEnd)
    (hcross : ¬ (x.pageEnd ≤ pc.toNat + 3 ∧ x.insnCrossesPage pc = true)) :
    pc.toNat + x.insnLength pc ≤ x.pageEnd := by
  have hpage : x.pageEnd % 4096 = 0 := by
    unfold pageEnd
    omega
  unfold Input.Aligned unit at haligned
  unfold insnLength
  split at haligned
  · rename_i hthumb
    rw [if_pos hthumb]
    have hbounds := thumbLength_bounds x pc
    by_cases hlast : x.pageEnd ≤ pc.toNat + 3
    · have hodd : ¬ pc &&& 3 = 0 := by
        rw [and_three_eq_zero_iff]
        omega
      have hshort : x.thumbLength pc = 2 := by
        simp only [thumbLength]
        refine if_neg fun hlong => hcross ⟨hlast, ?_⟩
        rw [insnCrossesPage, if_neg hodd]
        exact decide_eq_true (long_halfword hlong)
      omega
    · omega
  · rename_i harm
    rw [if_neg harm]
    omega

theorem insnLength_mod (x : Input) (pc : TargetUlong) : x.insnLength pc % x.unit = 0 := by
  unfold insnLength unit
  split
  · simp only [thumbLength, thumb2Length]
    split_ifs <;> rfl
  · rfl

/-- An aligned start is regular. -/
theorem regular_of_aligned (haligned : x.Aligned x.pc) (hbelow : x.pc < Input.kernelPage)
    (hpending : ¬ x.StepPending) : x.Regular := by
  refine ⟨hbelow, hpending, ?_, fun addr _ hunit _ hlt hpast => ?_⟩
  · unfold Input.Aligned unit at haligned
    unfold pageEnd
    split at haligned
    · exact Or.inl ‹_›
    · omega
  · by_contra hnot
    have hfits := fits_of_aligned (hunit.trans haligned) hlt fun hcross => hnot hcross.2
    omega

def Item.last (item : Item) : Nat := item.addr.toNat + item.length

/-- What holds before every round of the loop. -/
structure Before (x : Input) (dc : Disas) : Prop where
  count : dc.items.length = dc.numInsns
  lt : dc.numInsns < x.maxInsns
  fits : ∀ item ∈ dc.items, item.last ≤ x.pageEnd
  start_le : x.pc.toNat ≤ dc.pc.toNat
  inPage : dc.pc.toNat < x.pageEnd
  length_le : dc.pc.toNat ≤ x.pc.toNat + 4 * dc.numInsns
  first : dc.numInsns = 0 → dc.pc = x.pc
  same : dc.pc.toNat % x.unit = x.pc.toNat % x.unit
  next : dc.numInsns ≠ 0 → x.pc < Input.kernelPage ∧ x.ssActive = false ∧ x.pc < dc.pc ∧
    ¬ (x.pageEnd ≤ dc.pc.toNat + 3 ∧ x.insnCrossesPage dc.pc = true)

/-- The block ends with the item `final`: all items before it lie on the page, and if there are any,
`insn_crosses_page` has not recognised it. -/
structure Taken (x : Input) (dc : Disas) (init : List Item) (final : Item) : Prop where
  items : dc.items = init ++ [final]
  count : dc.numInsns = init.length + 1
  count_le : dc.numInsns ≤ x.maxInsns
  below : x.pc < Input.kernelPage
  notPending : ¬ x.StepPending
  fits : ∀ item ∈ init, item.last ≤ x.pageEnd
  start_le : x.pc.toNat ≤ final.addr.toNat
  inPage : final.addr.toNat < x.pageEnd
  pc_eq : dc.pc.toNat = final.last
  length_pos : 0 < final.length
  length_le : final.length ≤ 4
  size_le : dc.pc.toNat ≤ x.pc.toNat + 4 * dc.numInsns
  first : init = [] → final.addr = x.pc
  same : final.addr.toNat % x.unit = x.pc.toNat % x.unit
  reach : final.addr.toNat < x.pc.toNat + 4 * x.maxInsns
  insn_le : final.length ≤ x.insnLength final.addr
  later : init ≠ [] → x.pc < final.addr ∧
    ¬ (x.pageEnd ≤ final.addr.toNat + 3 ∧ x.insnCrossesPage final.addr = true)

def Outcome (x : Input) (dc : Disas) : Prop :=
  ((Input.kernelPage ≤ x.pc ∨ x.StepPending) ∧ dc = ⟨x.pc, 1, []⟩) ∨ ∃ init final, Taken x dc init final

variable {dc : Disas}

theorem Before.eq_start (h : Before x dc) (hzero : dc.numInsns = 0) : dc = ⟨x.pc, 0, []⟩ := by
  obtain ⟨pc, numInsns, items⟩ := dc
  obtain rfl : numInsns = 0 := hzero
  obtain rfl : pc = x.pc := h.first rfl
  obtain rfl : items = [] := length_eq_zero_iff.mp h.count
  rfl

theorem Before.below (h : Before x dc) (hpc : ¬ Input.kernelPage ≤ dc.pc) :
    x.pc < Input.kernelPage := by
  by_cases hzero : dc.numInsns = 0
  · rw [h.first hzero] at hpc
    exact BitVec.not_le.mp hpc
  · exact (h.next hzero).1

theorem Before.kernel (h : Before x dc) (hpc : Input.kernelPage ≤ dc.pc) : dc.numInsns = 0 := by
  by_contra hne
  have hle := pageEnd_le (h.next hne).1
  have hge : 0xffff0000 ≤ dc.pc.toNat := hpc
  have hlt := h.inPage
  omega

/-- An item is taken at the address that the loop has come to. -/
theorem Before.taken {dc : Disas} {length : Nat} (h : Before x dc) (hpc : ¬ Input.kernelPage ≤ dc.pc)
    (hpending : ¬ x.StepPending) (hpos : 0 < length) (hle : length ≤ x.insnLength dc.pc) :
    Taken x ⟨dc.pc + ofNat 32 length, dc.numInsns + 1, dc.items ++ [⟨dc.pc, length⟩]⟩
      dc.items ⟨dc.pc, length⟩ := by
  have hend := pageEnd_le (h.below hpc)
  have hlt := h.inPage
  have hfour := (insnLength_bounds x dc.pc).2
  have hreach := h.length_le
  have hcount := h.lt
  have hsum : (dc.pc + ofNat 32 length).toNat = dc.pc.toNat + length := by
    rw [toNat_add, toNat_ofNat]
    omega
  have hzero : dc.items = [] ↔ dc.numInsns = 0 := by
    rw [← h.count, length_eq_zero_iff]
  constructor
  case items => rfl
  case count => rw [h.count]
  case count_le => exact h.lt
  case below => exact h.below hpc
  case notPending => exact hpending
  case fits => exact h.fits
  case start_le => exact h.start_le
  case inPage => exact hlt
  case pc_eq => exact hsum
  case length_pos => exact hpos
  case length_le => exact hle.trans hfour
  case size_le =>
    simp only [hsum]
    omega
  case first => exact fun hnil => h.first (hzero.mp hnil)
  case same => exact h.same
  case reach => exact hreach.trans_lt (by omega)
  case insn_le => exact hle
  case later => exact fun hne => (h.next (mt hzero.mpr hne)).2.2

/-- The loop goes on after an item on the page. -/
theorem Taken.before {init : List Item} {final : Item} {isJmp : Bool} (h : Taken x dc init final)
    (hlength : final.length = x.insnLength final.addr) (hmore : x.goesOn isJmp dc.numInsns dc.pc = true) :
    Before x dc := by
  simp only [goesOn, decide_eq_true_eq, Bool.not_eq_true] at hmore
  obtain ⟨-, -, -, -, hss, hpage, hlt⟩ := hmore
  rw [← Bool.not_eq_true, endOfPage_iff h.below, not_or, not_le] at hpage
  have hstart := h.start_le
  have hlast := h.pc_eq
  unfold Item.last at hlast
  constructor
  case count => rw [h.items, h.count, length_append, length_singleton]
  case lt => exact hlt
  case fits =>
    intro item hitem
    rw [h.items, mem_append, mem_singleton] at hitem
    rcases hitem with hitem | rfl
    · exact h.fits item hitem
    · exact h.pc_eq ▸ hpage.1.le
  case start_le => omega
  case inPage => exact hpage.1
  case length_le => exact h.size_le
  case first =>
    intro hzero
    rw [h.count] at hzero
    cases hzero
  case same =>
    have hmod := insnLength_mod x final.addr
    rw [hlast, hlength, add_mod, hmod, add_zero, mod_mod]
    exact h.same
  case next =>
    refine fun _ => ⟨h.below, hss, ?_, hpage.2⟩
    have hpos := h.length_pos
    rw [BitVec.lt_def]
    omega

theorem disasInsn_count {dc' : Disas} {more : Bool} (h : x.disasInsn dc = some (dc', more)) :
    dc'.numInsns = dc.numInsns + 1 := by
  simp only [disasInsn] at h
  split_ifs at h <;> cases h <;> rfl

theorem disasInsn_spec (h : Before x dc) : ∃ dc' more,
    x.disasInsn dc = some (dc', more) ∧ (more = true → Before x dc') ∧ (more = false → Outcome x dc') := by
  simp only [disasInsn]
  by_cases hpc : kernelPage ≤ dc.pc
  · rw [if_pos hpc]
    obtain rfl := h.eq_start (h.kernel hpc)
    exact ⟨_, _, rfl, nofun, fun _ => Or.inl ⟨Or.inl hpc, rfl⟩⟩
  rw [if_neg hpc]
  by_cases hbp : (x.breakpointAt dc.pc).any (! ·.cpu) = true
  · rw [if_pos hbp]
    refine ⟨_, _, rfl, nofun, fun _ => Or.inr ⟨_, _, h.taken hpc ?_ (by decide)
      (insnLength_bounds x dc.pc).1⟩⟩
    rintro ⟨hss, -, hnone⟩
    by_cases hzero : dc.numInsns = 0
    · rw [h.first hzero, hnone] at hbp
      cases hbp
    · rw [(h.next hzero).2.1] at hss
      cases hss
  rw [if_neg hbp]
  by_cases hpending : x.ssActive = true ∧ ¬ x.pstateSs = true
  · rw [if_pos hpending]
    have hzero : dc.numInsns = 0 := by
      by_contra hne
      rw [(h.next hne).2.1] at hpending
      cases hpending.1
    obtain rfl := h.eq_start hzero
    refine ⟨_, _, rfl, nofun, fun _ => Or.inl ⟨Or.inr ⟨hpending.1, ?_, ?_⟩, rfl⟩⟩
    · exact Bool.eq_false_iff.mpr hpending.2
    · exact Bool.eq_false_iff.mpr hbp
  rw [if_neg hpending]
  have htaken := h.taken hpc (fun hstep => hpending ⟨hstep.1, by simp [hstep.2.1]⟩)
    ((insnLength_bounds x dc.pc).1.trans_lt' (by decide)) le_rfl
  exact ⟨_, _, rfl, fun hmore => htaken.before rfl hmore, fun _ => Or.inr ⟨_, _, htaken⟩⟩

theorem disasLoop_spec {fuel : Nat} (h : Before x dc) (hfuel : x.maxInsns ≤ fuel + dc.numInsns) :
    ∃ dc', x.disasLoop fuel dc = some dc' ∧ Outcome x dc' := by
  induction fuel generalizing dc with
  | zero =>
    have := h.lt
    omega
  | succ fuel ih =>
    obtain ⟨dc1, more, hstep, hbefore, houtcome⟩ := disasInsn_spec h
    simp only [disasLoop, hstep, Option.bind_some]
    cases more with
    | false => exact ⟨dc1, rfl, houtcome rfl⟩
    | true =>
      refine ih (hbefore rfl) ?_
      have hcount : dc1.numInsns = dc.numInsns + 1 := disasInsn_count hstep
      omega

theorem before_start (x : Input) : Before x ⟨x.pc, 0, []⟩ := by
  refine ⟨rfl, ?_, by simp, le_rfl, lt_pageEnd x, le_rfl, fun _ => rfl, rfl, fun h => absurd rfl h⟩
  refine Nat.lt_min.mpr ⟨?_, (by decide : 0 < tcgMaxInsns)⟩
  simp only [limit]
  split
  · decide
  · omega

def Input.Reaches (x : Input) (size : Nat) : Prop :=
  ∃ k < size, pageIndex (x.pc + BitVec.ofNat 32 k) ≠ pageIndex x.pc

/-- What a block should be: it has a byte and at most a page of them, all on the page of its start
or the next one, and on the next one only as a single Thumb instruction; its number of instructions
is within the limit; and the second page that `tb_gen_code` records is the next one if the block
reaches it and none otherwise. -/
structure Right (x : Input) (r : Translated) : Prop where
  size_pos : 1 ≤ r.size
  size_le : r.size ≤ targetPageSize
  pages : ∀ k < r.size, pageIndex (x.pc + BitVec.ofNat 32 k) = pageIndex x.pc ∨
    pageIndex (x.pc + BitVec.ofNat 32 k) = pageIndex x.pc + 1
  crosses : x.Reaches r.size → x.thumb = true ∧ r.icount = 1 ∧ r.items = [⟨x.pc, r.size⟩]
  icount_pos : 1 ≤ r.icount
  icount_le : r.icount ≤ x.limit
  second : x.Reaches r.size → secondPage x.pc r.size = x.nextPageStart
  noSecond : ¬ x.Reaches r.size → secondPage x.pc r.size = noPage

theorem add_toNat (h : x.pc < Input.kernelPage) {k : Nat} (hk : k < 4096) :
    (x.pc + ofNat 32 k).toNat = x.pc.toNat + k := by
  have hlt : x.pc.toNat < 0xffff0000 := h
  rw [toNat_add, toNat_ofNat]
  omega

theorem reaches_iff (h : x.pc < Input.kernelPage) {size : Nat} (hsize : size ≤ 4096) :
    x.Reaches size ↔ x.pageEnd < x.pc.toNat + size := by
  have hpage := lt_pageEnd x
  constructor
  · rintro ⟨k, hk, hne⟩
    rw [ne_eq, pageIndex_eq_iff, add_toNat h (by omega)] at hne
    unfold pageEnd at *
    omega
  · intro hlt
    refine ⟨x.pageEnd - x.pc.toNat, by omega, ?_⟩
    unfold pageEnd at *
    rw [ne_eq, pageIndex_eq_iff, add_toNat h (by omega)]
    omega

theorem not_right_of_empty {r : Translated} (h : r.size = 0) : ¬ Right x r := fun hright => by
  have := hright.size_pos
  omega

section Taken

variable {dc : Disas} {init : List Item} {final : Item}

def Input.translated (x : Input) (dc : Disas) : Translated :=
  ⟨(dc.pc - x.pc).toNat, dc.numInsns, dc.items⟩

section

variable (h : Taken x dc init final)
include h

theorem Taken.size_eq :
    (x.translated dc).size = final.last - x.pc.toNat ∧ x.pc.toNat < final.last ∧
      (x.translated dc).size ≤ 2048 := by
  have hstart := h.start_le
  have hpos := h.length_pos
  have hpc := h.pc_eq
  have hcount : dc.numInsns ≤ 512 := h.count_le.trans (min_le_right _ _)
  have hsize := h.size_le
  have hlast : x.pc.toNat < final.last := by
    unfold Item.last
    omega
  have heq : (x.translated dc).size = final.last - x.pc.toNat := by
    simp only [translated, toNat_sub, hpc]
    omega
  exact ⟨heq, hlast, by omega⟩

theorem Taken.reaches_iff : x.Reaches (x.translated dc).size ↔ x.pageEnd < final.last := by
  obtain ⟨heq, hlast, hle⟩ := h.size_eq
  rw [Translate.reaches_iff h.below (by omega), heq]
  omega

theorem Taken.ends (hregular : x.Regular) : final.last ≤ x.pageEnd ∨ init = [] ∧ x.thumb = true := by
  have hlen := h.length_le
  have hinsn := h.insn_le
  unfold Item.last
  by_cases hnil : init = []
  · rw [h.first hnil]
    exact hregular.first.symm.imp (by omega) fun hthumb => ⟨hnil, hthumb⟩
  · obtain ⟨hafter, hnot⟩ := h.later hnil
    refine Or.inl (not_lt.mp fun hpast => hnot ⟨by omega, ?_⟩)
    exact hregular.later _ hafter h.same h.reach h.inPage (by omega)

theorem Taken.second (hend : final.last ≤ x.pageEnd + 4) :
    secondPage x.pc (x.translated dc).size = if x.pageEnd < final.last then x.nextPageStart else noPage := by
  obtain ⟨heq, hlast, hle⟩ := h.size_eq
  have hlow : x.pc.toNat < 0xffff0000 := h.below
  have hbyte : (x.pc + ofNat 32 (x.translated dc).size - 1).toNat = final.last - 1 := by
    rw [toNat_sub, add_toNat h.below (by omega), show (1 : TargetUlong).toNat = 1 from rfl]
    omega
  have hsame : (x.pc &&& targetPageMask ≠
      (x.pc + ofNat 32 (x.translated dc).size - 1) &&& targetPageMask) ↔
      x.pageEnd < final.last := by
    rw [ne_eq, ← toNat_inj, and_targetPageMask_toNat, and_targetPageMask_toNat, hbyte]
    unfold pageEnd at *
    omega
  simp only [secondPage, hsame]
  split
  · rename_i hpast
    apply BitVec.eq_of_toNat_eq
    rw [and_targetPageMask_toNat, hbyte, nextPageStart_toNat h.below]
    unfold pageEnd at *
    omega
  · rfl

theorem Taken.right_of_regular (hregular : x.Regular) : Right x (x.translated dc) := by
  obtain ⟨heq, hlast, hle⟩ := h.size_eq
  have hend := h.ends hregular
  have hin := h.inPage
  have hlen := h.length_le
  have hfinal : final.last ≤ x.pageEnd + 4 := by
    unfold Item.last
    omega
  constructor
  case size_pos => omega
  case size_le => exact hle.trans (by decide)
  case pages =>
    intro k hk
    have hlow : x.pc.toNat < 0xffff0000 := h.below
    have hnext : (pageIndex x.pc + 1).toNat = x.pc.toNat / 4096 + 1 := by
      rw [toNat_add, pageIndex_toNat, show (1 : PageIndex).toNat = 1 from rfl]
      omega
    rw [← toNat_inj, ← toNat_inj, hnext, pageIndex_toNat, pageIndex_toNat, add_toNat h.below (by omega)]
    unfold pageEnd at hfinal
    omega
  case crosses =>
    intro hreaches
    have hpast := h.reaches_iff.mp hreaches
    obtain ⟨rfl, hthumb⟩ := hend.resolve_left (by omega)
    refine ⟨hthumb, h.count, h.items.trans ?_⟩
    obtain ⟨addr, length⟩ := final
    obtain rfl : addr = x.pc := h.first rfl
    rw [heq, Item.last, Nat.add_sub_cancel_left]
    rfl
  case icount_pos =>
    have hcount : (x.translated dc).icount = init.length + 1 := h.count
    omega
  case icount_le => exact h.count_le.trans (min_le_left _ _)
  case second =>
    intro hreaches
    rw [h.second hfinal, if_pos (h.reaches_iff.mp hreaches)]
  case noSecond =>
    intro hreaches
    rw [h.second hfinal, if_neg (mt h.reaches_iff.mpr hreaches)]

end

end Taken

def plainInput (pc : TargetUlong) (thumb : Bool) : Input where
  mem := fun _ => 0
  pc := pc
  cflags := 0
  thumb := thumb
  sctlrB := false
  ssActive := false
  pstateSs := false
  thumb2 := true
  singlestepEnabled := false
  singlestep := false
  breakpoints := []
  isJmp := fun _ _ => false
  opBufFull := fun _ => false

/-- One ARM instruction at an address that is not aligned. -/
def unalignedWord : Input := { plainInput 0x1002 false with cflags := 1 }

end TcgArm.Translate
