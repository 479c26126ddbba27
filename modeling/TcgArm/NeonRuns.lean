import TcgArm.ArmDecode
import TcgArm.Translate

/-! The number of instructions that `exec` lets a new block have: `guess_icount` counts the NEON and
VFP words from the program counter on, the count goes through the field `CF_COUNT_MASK` of
`cflags`, where zero means no limit, and the translator takes at most that many words. -/

namespace TcgArm.Translate

open BitVec TcgArm.Tb

/-- A call of `exec` in ARM state: guest memory, the address of the block, and what translating an
instruction does to the rest of the translator. There is no debugger. -/
structure Guest where
  mem : TargetUlong → BitVec 8
  pc : TargetUlong
  sctlrB : Bool
  thumb2 : Bool
  isJmp : Nat → TargetUlong → Bool
  opBufFull : Nat → Bool

namespace Guest

variable (g : Guest)

def input (cflags : BitVec 32) : Input where
  mem := g.mem
  pc := g.pc
  cflags := cflags
  thumb := false
  sctlrB := g.sctlrB
  ssActive := false
  pstateSs := false
  thumb2 := g.thumb2
  singlestepEnabled := false
  singlestep := false
  breakpoints := []
  isJmp := g.isJmp
  opBufFull := g.opBufFull

def armLdlCode (addr : TargetUlong) : BitVec 32 :=
  if g.sctlrB then g.mem addr ++ g.mem (addr + 1) ++ g.mem (addr + 2) ++ g.mem (addr + 3)
  else g.mem (addr + 3) ++ g.mem (addr + 2) ++ g.mem (addr + 1) ++ g.mem addr

/-- The loop of `neon_icount`; out of fuel when the words do not end. -/
def neonLoop : Nat → TargetUlong → Nat → Option Nat
  | 0, _, _ => none
  | fuel + 1, pc, icount =>
    if Arm.isArmNeon (g.armLdlCode pc) then neonLoop fuel (pc + 4) (icount + 1) else some icount

def neonIcount (fuel : Nat) : Option Nat :=
  (g.neonLoop fuel g.pc 0).map fun icount => if icount = 0 then 1 else icount

def guessIcount (cached : Bool) (fuel : Nat) : Option Nat :=
  if cached then some 1 else g.neonIcount fuel

/-- The block that `exec` generates. -/
def newBlock (cached : Bool) (fuel : Nat) : Option Translated :=
  (g.guessIcount cached fuel).bind fun icount =>
    (g.input (Input.cfCountMask &&& BitVec.ofNat 32 icount)).genIntermediateCode

def addr (i : Nat) : TargetUlong := g.pc + BitVec.ofNat 32 (4 * i)

/-- The word `i` places behind the program counter is a NEON or VFP word. -/
def Neon (i : Nat) : Prop := Arm.isArmNeon (g.armLdlCode (g.addr i)) = true

def words (k : Nat) : List Item := (List.range k).map fun i => ⟨g.addr i, 4⟩

/-- The block is words of the maximal run of NEON and VFP words at its start, or the one
instruction there when it is none of them. At the kernel page an instruction is a trap and no word
is read. -/
def InRun (tb : Translated) : Prop :=
  if Input.kernelPage ≤ g.pc then tb.icount = 1 ∧ tb.items = []
  else (∃ k, 0 < k ∧ tb.items = g.words k ∧ ∀ i < k, g.Neon i) ∨
    ¬ g.Neon 0 ∧ tb.icount = 1 ∧ tb.items = [⟨g.pc, 4⟩]

end Guest

variable {g : Guest} {fuel n k : Nat}

theorem addr_succ (i : Nat) : g.addr (i + 1) = g.addr i + 4 := by
  rw [Guest.addr, Guest.addr, Nat.mul_succ, ofNat_add, BitVec.add_assoc]
  rfl

theorem addr_zero : g.addr 0 = g.pc := BitVec.add_zero _

theorem words_succ (k : Nat) : g.words (k + 1) = g.words k ++ [⟨g.addr k, 4⟩] := by
  simp [Guest.words, List.range_succ]

/-- The scan stops at the end of the run, with its length. -/
theorem neonLoop_eq_some (hrun : ∀ i < k, g.Neon i)
    (h : g.neonLoop fuel (g.addr k) k = some n) : (∀ i < n, g.Neon i) ∧ ¬ g.Neon n := by
  induction fuel generalizing k with
  | zero => cases h
  | succ fuel ih =>
    rw [Guest.neonLoop] at h
    split at h
    · rename_i hneon
      rw [← addr_succ] at h
      refine ih (fun i hi => ?_) h
      obtain hlt | rfl := Nat.lt_succ_iff_lt_or_eq.mp hi
      · exact hrun i hlt
      · exact hneon
    · rename_i hneon
      cases h
      exact ⟨hrun, hneon⟩

theorem neonLoop_of_run (hrun : ∀ i < n, g.Neon i) (hend : ¬ g.Neon n)
    (hk : k ≤ n) (hfuel : n < fuel + k) : g.neonLoop fuel (g.addr k) k = some n := by
  induction fuel generalizing k with
  | zero => omega
  | succ fuel ih =>
    rw [Guest.neonLoop]
    obtain rfl | hlt := hk.eq_or_lt
    · exact if_neg hend
    · refine (if_pos (hrun k hlt)).trans ?_
      rw [← addr_succ]
      exact ih hlt (by omega)

theorem maxInsns_le {icount : Nat} (hpos : 0 < icount) :
    (g.input (Input.cfCountMask &&& BitVec.ofNat 32 icount)).maxInsns ≤ icount := by
  have hcount : (Input.cfCountMask &&& BitVec.ofNat 32 icount &&& Input.cfCountMask).toNat =
      icount % 2 ^ 15 := by
    rw [BitVec.and_comm, ← BitVec.and_assoc, BitVec.and_self, toNat_and, toNat_ofNat, Nat.and_comm]
    change icount % 2 ^ 32 &&& 2 ^ 15 - 1 = _
    rw [Nat.and_two_pow_sub_one_eq_mod]
    omega
  simp only [Input.maxInsns, Input.limit, Guest.input, hcount, Input.tcgMaxInsns]
  split <;> omega

theorem disasInsn_arm (cflags : BitVec 32) (dc : Disas) :
    (g.input cflags).disasInsn dc =
      if Input.kernelPage ≤ dc.pc then some ({ dc with numInsns := dc.numInsns + 1 }, false)
      else some (⟨dc.pc + 4, dc.numInsns + 1, dc.items ++ [⟨dc.pc, 4⟩]⟩,
        (g.input cflags).goesOn (g.isJmp (dc.numInsns + 1) dc.pc) (dc.numInsns + 1) (dc.pc + 4)) :=
  rfl

theorem disasLoop_words {cflags : BitVec 32} {fuel k : Nat} {dc : Disas} (hk : k < (g.input cflags).maxInsns)
    (h : (g.input cflags).disasLoop fuel ⟨g.addr k, k, g.words k⟩ = some dc) :
    dc.numInsns ≤ (g.input cflags).maxInsns ∧ ∃ n ≤ dc.numInsns, dc.items = g.words n ∧
      (n = k ∧ dc.numInsns = k + 1 ∧ Input.kernelPage ≤ g.addr k ∨
        k < n ∧ ¬ Input.kernelPage ≤ g.addr k) := by
  induction fuel generalizing k with
  | zero => cases h
  | succ fuel ih =>
    rw [Input.disasLoop, disasInsn_arm] at h
    split_ifs at h with hpage
    · cases h
      exact ⟨hk, k, by simp, rfl, Or.inl ⟨rfl, rfl, hpage⟩⟩
    · rw [Option.bind_some, ← addr_succ, ← words_succ] at h
      dsimp only at h
      split at h
      · rename_i hmore
        simp only [Input.goesOn, decide_eq_true_eq] at hmore
        obtain ⟨hle, n, hn, hitems, hlast⟩ := ih hmore.2.2.2.2.2.2 h
        exact ⟨hle, n, hn, hitems, Or.inr ⟨by omega, hpage⟩⟩
      · cases h
        exact ⟨hk, k + 1, le_rfl, rfl, Or.inr ⟨k.lt_succ_self, hpage⟩⟩

theorem guessIcount_spec {cached : Bool} {fuel icount : Nat} (h : g.guessIcount cached fuel = some icount) :
    0 < icount ∧ ((∀ i < icount, g.Neon i) ∨ ¬ g.Neon 0 ∧ icount = 1) := by
  have hone : (∀ i < 1, g.Neon i) ∨ ¬ g.Neon 0 ∧ 1 = 1 := by
    by_cases hneon : g.Neon 0
    · exact Or.inl fun i hi => Nat.lt_one_iff.mp hi ▸ hneon
    · exact Or.inr ⟨hneon, rfl⟩
  cases cached with
  | true =>
    cases h
    exact ⟨Nat.one_pos, hone⟩
  | false =>
    obtain ⟨n, hloop, rfl⟩ := Option.map_eq_some_iff.mp h
    rw [← addr_zero] at hloop
    obtain ⟨hrun, hend⟩ := neonLoop_eq_some (fun i hi => absurd hi i.not_lt_zero) hloop
    split
    · exact ⟨Nat.one_pos, hone⟩
    · exact ⟨by omega, Or.inl hrun⟩

/-- A new block lies in the run of NEON and VFP words at its start, whatever the length of the run
and whether or not it was counted; and a block is generated when the run has an end. -/
theorem new_block_in_run (g : Guest) (cached : Bool) (fuel : Nat) :
    (∀ tb, g.newBlock cached fuel = some tb → g.InRun tb) ∧
      ∀ n < fuel, (∀ i < n, g.Neon i) → ¬ g.Neon n → ∃ tb, g.newBlock cached fuel = some tb := by
  constructor
  · intro tb h
    obtain ⟨icount, hguess, hgen⟩ := Option.bind_eq_some_iff.mp h
    obtain ⟨dc, hloop, rfl⟩ := Option.map_eq_some_iff.mp hgen
    obtain ⟨hpos, hrun⟩ := guessIcount_spec hguess
    have hmax := maxInsns_le (g := g) hpos
    have hstart : (⟨g.pc, 0, []⟩ : Disas) = ⟨g.addr 0, 0, g.words 0⟩ := by rw [addr_zero]; rfl
    obtain ⟨hle, n, hn, hitems, hlast⟩ := disasLoop_words (before_start _).lt (hstart ▸ hloop)
    rw [addr_zero] at hlast
    rw [Guest.InRun]
    rcases hlast with ⟨rfl, hone, hpage⟩ | ⟨hlt, hpage⟩
    · rw [if_pos hpage]
      exact ⟨hone, hitems⟩
    rw [if_neg hpage]
    rcases hrun with hrun | ⟨hneon, rfl⟩
    · exact Or.inl ⟨n, hlt, hitems, fun i hi => hrun i (by omega)⟩
    · obtain rfl : n = 1 := by omega
      refine Or.inr ⟨hneon, show dc.numInsns = 1 by omega, hitems.trans ?_⟩
      rw [words_succ, addr_zero]
      rfl
  · intro n hn hrun hend
    have hguess : ∃ icount, g.guessIcount cached fuel = some icount := by
      cases cached with
      | true => exact ⟨1, rfl⟩
      | false =>
        have hloop := neonLoop_of_run hrun hend n.zero_le hn
        rw [addr_zero] at hloop
        exact ⟨_, congrArg (Option.map _) hloop⟩
    obtain ⟨icount, hguess⟩ := hguess
    obtain ⟨dc, hloop, -⟩ := disasLoop_spec (before_start (g.input (Input.cfCountMask &&&
      BitVec.ofNat 32 icount))) (Nat.min_le_right _ Input.tcgMaxInsns)
    rw [Guest.newBlock, hguess, Option.bind_some, Input.genIntermediateCode]
    exact ⟨_, congrArg (Option.map _) hloop⟩

/-- A NEON word at `0x1000`, with a word behind it that is none. -/
def neonWord : Guest where
  mem a := if a = 0x1003 then 0xf2 else 0
  pc := 0x1000
  sctlrB := false
  thumb2 := true
  isJmp := fun _ _ => false
  opBufFull := fun _ => false

theorem new_block_in_run_one :
    ∃ tb, neonWord.newBlock false 2 = some tb ∧ neonWord.InRun tb ∧ tb.icount = 1 := by
  obtain ⟨hrun, hex⟩ := new_block_in_run neonWord false 2
  obtain ⟨tb, htb⟩ := hex 1 (by decide) (by simp only [Guest.Neon]; decide)
    (by simp only [Guest.Neon]; decide)
  refine ⟨tb, htb, hrun tb htb, ?_⟩
  cases htb
  rfl

end TcgArm.Translate
