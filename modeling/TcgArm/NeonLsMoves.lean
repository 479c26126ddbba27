import TcgArm.NeonLsRun

/-! The three forms of NEON loads and stores as lists of elements: the ops of multiple structures, of
one element to all lanes and of single elements move exactly the elements of these lists. -/

namespace TcgArm.NeonLs

open ByteMemory Function Lanes Moved Nat State
open BitVec (ofNat ofNat_add setWidth)
open List (flatMap_append flatMap_singleton foldl range)

variable {ctx : Context} {load : Bool} {size rn rd : Nat} {s : State}

theorem Moved.readReg {els : List Element} {s' : State} (h : Moved ctx load size els s s')
    (reg : Nat) : s'.readReg ctx reg = s.readReg ctx reg := by
  rw [State.readReg, State.readReg, h.core]

/-- Where the first element of a register lies: the registers come in `interleave` groups, whose
elements take turns. -/
def start (nregs interleave size reg : Nat) : Nat :=
  let group := nregs / interleave
  2 ^ size * (reg % group * count size * interleave + reg / group)

def behind (nregs interleave size : Nat) : Nat → Nat
  | 0 => 0
  | reg + 1 => start nregs interleave size reg + 2 ^ size * interleave * count size

def multipleEls (nregs interleave spacing size rd : Nat) (base : Word) (reg : Nat) : List Element :=
  span (rd + spacing * reg) (2 ^ size * interleave)
    (base + BitVec.ofNat 32 (start nregs interleave size reg)) 0 (count size)

theorem start_reset : ∀ op < 11, ∀ size < 4, ∀ reg < (neonLsElementType op).1,
    let (nregs, interleave, _) := neonLsElementType op
    start nregs interleave size reg = if interleave > 2 ∨ (interleave = 2 ∧ nregs = 2) then 2 ^ size * reg
      else if interleave = 2 ∧ nregs = 4 ∧ reg = 2 then 2 ^ size
      else behind nregs interleave size reg := by
  decide

/-- The table entry of a format. -/
structure Format (nregs interleave spacing : Nat) : Prop where
  mem : ∃ op < 11, neonLsElementType op = (nregs, interleave, spacing)

variable {nregs interleave spacing : Nat}

theorem Format.start_eq (h : Format nregs interleave spacing) (hsize : size ≤ 3) {reg : Nat}
    (hreg : reg < nregs) : start nregs interleave size reg =
      if interleave > 2 ∨ (interleave = 2 ∧ nregs = 2) then 2 ^ size * reg
      else if interleave = 2 ∧ nregs = 4 ∧ reg = 2 then 2 ^ size
      else behind nregs interleave size reg := by
  obtain ⟨op, hop, hentry⟩ := h.mem
  have hreset := start_reset op hop size (by omega) reg
  rw [hentry] at hreset
  exact hreset hreg

theorem moved_resetAddr (reg : Nat) :
    Moved ctx load size [] s (run ctx (resetAddr nregs interleave size rn reg) s) := by
  unfold resetAddr
  split_ifs <;> exact nil rfl rfl rfl

section Multiple

variable (hformat : Format nregs interleave spacing) (hsize : size ≤ 3)
include hformat hsize

theorem addr_resetAddr {reg : Nat} (hreg : reg < nregs)
    (haddr : s.temp .addr = s.readReg ctx rn + ofNat 32 (behind nregs interleave size reg)) :
    (run ctx (resetAddr nregs interleave size rn reg) s).temp .addr =
      s.readReg ctx rn + ofNat 32 (start nregs interleave size reg) := by
  rw [hformat.start_eq hsize hreg]
  unfold resetAddr
  split_ifs
  · simp [run, exec, setTemp]
  · simp [run, exec, setTemp]
  · exact haddr

/-- The registers of multiple structures, one after the other. -/
theorem moved_multiple_regs (haddr : s.temp .addr = s.readReg ctx rn) {n : Nat} (hn : n ≤ nregs) :
    let s' := run ctx ((range n).flatMap fun reg => resetAddr nregs interleave size rn reg ++
      transferReg load size (rd + spacing * reg) (2 ^ size * interleave)) s
    Moved ctx load size ((range n).flatMap
      (multipleEls nregs interleave spacing size rd (s.readReg ctx rn))) s s' ∧
    s'.temp .addr = s.readReg ctx rn + ofNat 32 (behind nregs interleave size n) := by
  induction n with
  | zero => exact ⟨nil rfl rfl rfl, by simpa [behind, run] using haddr⟩
  | succ n ih =>
    obtain ⟨hmoved, hbehind⟩ := ih (by omega)
    rw [List.range_succ, flatMap_append, flatMap_append, flatMap_singleton,
      flatMap_singleton, run_append, run_append]
    generalize run ctx ((range n).flatMap _) s = s1 at hmoved hbehind ⊢
    rw [← hmoved.readReg] at hbehind
    have hreset := addr_resetAddr hformat hsize hn hbehind
    have hkept := @moved_resetAddr ctx load size rn s1 nregs interleave n
    generalize run ctx (resetAddr _ _ _ _ _) s1 = s2 at hreset hkept ⊢
    obtain ⟨hlanes, hend⟩ := @moved_reg ctx load size (rd + spacing * n) (2 ^ size * interleave) s2 hsize
    rw [hreset, hmoved.readReg] at hlanes hend
    refine ⟨hmoved.append (hkept.append hlanes), ?_⟩
    rw [hend, behind, ofNat_add, BitVec.add_assoc]

theorem moved_multiple :
    Moved ctx load size ((range nregs).flatMap
      (multipleEls nregs interleave spacing size rd (s.readReg ctx rn))) s
      (run ctx (multipleOps load nregs interleave spacing size rn rd) s) := by
  have hset : Moved ctx load size [] s (exec ctx s (.loadRegVar .addr rn)) := nil rfl rfl rfl
  have haddr : (exec ctx s (.loadRegVar .addr rn)).temp .addr =
      (exec ctx s (.loadRegVar .addr rn)).readReg ctx rn := by
    rw [hset.readReg]
    simp [exec, setTemp]
  have hmoved := (@moved_multiple_regs ctx load size rn rd _ _ _ _ hformat hsize haddr nregs le_rfl).1
  rw [hset.readReg] at hmoved
  exact hset.append hmoved

end Multiple

/-- Ops that move the elements of one register at the address, each followed by an advance. -/
theorem moved_walk {ops : Nat → List Op} {els : Nat → Word → List Element} {c : Nat}
    (hstep : ∀ reg (s : State), Moved ctx load size (els reg (s.temp .addr)) s (run ctx (ops reg) s) ∧
      (run ctx (ops reg) s).temp .addr = s.temp .addr) (n : Nat) :
    let s' := run ctx ((range n).flatMap fun reg => ops reg ++ [.addi .addr c]) s
    Moved ctx load size ((range n).flatMap fun reg =>
      els reg (s.temp .addr + ofNat 32 (c * reg))) s s' ∧
    s'.temp .addr = s.temp .addr + ofNat 32 (c * n) := by
  induction n with
  | zero => exact ⟨nil rfl rfl rfl, by simp [run]⟩
  | succ n ih =>
    obtain ⟨hmoved, haddr⟩ := ih
    rw [List.range_succ, flatMap_append, flatMap_append, flatMap_singleton,
      flatMap_singleton, run_append, run_append]
    generalize run ctx ((range n).flatMap _) s = s1 at hmoved haddr ⊢
    obtain ⟨hreg, hkept⟩ := hstep n s1
    generalize run ctx (ops n) s1 = s2 at hreg hkept ⊢
    have hadvance : Moved ctx load size [] s2 (run ctx [.addi .addr c] s2) := nil rfl rfl rfl
    rw [haddr] at hreg
    refine ⟨?_, ?_⟩
    · have hall := hmoved.append (hreg.append hadvance)
      rwa [List.append_nil] at hall
    · calc (run ctx [.addi .addr c] s2).temp .addr
          = s2.temp .addr + ofNat 32 c := by simp [run, exec, setTemp]
        _ = s.temp .addr + ofNat 32 (c * (n + 1)) := by
            rw [hkept, haddr, BitVec.add_assoc, ← ofNat_add, ← mul_succ]

/-- A word whose lanes are all the first lane of `e`. -/
def replicated (size : Nat) (e : Word) : Word :=
  match size with
  | 0 => (e ||| e <<< 8) ||| (e ||| e <<< 8) <<< 16
  | 1 => e ||| e <<< 16
  | _ => e

theorem tmp_loadAndReplicate (hsize : size ≤ 2) :
    (run ctx (loadAndReplicate size) s).temp .tmp =
      replicated size ((ByteMemory.load ctx.beData (2 ^ size) (s.temp .addr) s.mem).setWidth 32) := by
  have hextend := @extend_load size ctx.beData (s.temp .addr) s.mem
  generalize hv : (load ctx.beData (2 ^ size) (s.temp .addr) s.mem).setWidth 32 = v at hextend ⊢
  interval_cases size
  · replace hextend : (v.setWidth 8).setWidth 32 = v := hextend
    simp only [loadAndReplicate, run, exec, setTemp, foldl, update_self, hv,
      hextend, replicated, update_of_ne, ne_eq, reduceCtorEq, not_false_eq_true]
  · replace hextend : (v.setWidth 16).setWidth 32 = v := hextend
    simp only [loadAndReplicate, run, exec, setTemp, foldl, update_self, hv,
      hextend, replicated, update_of_ne, ne_eq, reduceCtorEq, not_false_eq_true]
  · simp only [loadAndReplicate, run, exec, setTemp, foldl, update_self, hv, replicated]

/-- Every lane of the replicated word is the element. -/
theorem laneOf_replicated (hsize : size ≤ 2) {e : Word} {v : BitVec 64}
    (he : ∀ j, laneOf size e j = if j = 0 then v else 0) {j : Nat} (hj : j < perHalf size) :
    laneOf size (replicated size e) j = v := by
  have hshift := fun (u : Word) (k j : Nat) (hj : j < perHalf size) => laneOf_shiftLeft hsize u (k := k) hj
  interval_cases size
  · have hone : ∀ (u : Word) j, j < 4 → laneOf 0 (u <<< 8) j = _ := fun u => hshift u 1
    have htwo : ∀ (u : Word) j, j < 4 → laneOf 0 (u <<< 16) j = _ := fun u => hshift u 2
    have hj4 : j < 4 := hj
    rw [replicated, laneOf_or, htwo _ _ hj4, laneOf_or, hone _ _ hj4]
    interval_cases j <;> simp [he, laneOf_or, hone]
  · have hone : ∀ (u : Word) j, j < 2 → laneOf 1 (u <<< 16) j = _ := fun u => hshift u 1
    have hj2 : j < 2 := hj
    rw [replicated, laneOf_or, hone _ _ hj2]
    interval_cases j <;> simp [he]
  · have hj1 : j < 1 := hj
    interval_cases j
    exact he 0

theorem moved_loadAndReplicate (hsize : size ≤ 2) :
    Moved ctx true size [] s (run ctx (loadAndReplicate size) s) ∧
    (run ctx (loadAndReplicate size) s).temp .addr = s.temp .addr := by
  refine ⟨nil ?_ ?_ ?_, ?_⟩ <;> interval_cases size <;>
    simp [loadAndReplicate, run, exec, setTemp]

/-- A replicated element goes to all lanes of a register. -/
theorem moved_storeBoth {reg : Nat} {a : BitVec 32} (hsize : size ≤ 2)
    (hlanes : ∀ j < perHalf size, laneOf size (s.temp .tmp) j =
      ByteMemory.load ctx.beData (2 ^ size) a s.mem) :
    Moved ctx true size (span reg 0 a 0 (count size)) s (run ctx (storeBoth reg) s) ∧
    (run ctx (storeBoth reg) s).temp = s.temp := by
  have hv : ∀ j < perHalf size, laneOf size (s.temp .tmp) j =
      load ctx.beData (2 ^ size) (a + ofNat 32 (0 * j)) s.mem := fun j hj => by
    rw [Nat.zero_mul, hlanes j hj]
    simp
  have hcount : count size = perHalf size + perHalf size := by interval_cases size <;> rfl
  refine ⟨⟨?_, rfl, rfl⟩, rfl⟩
  rw [if_pos rfl, hcount, span_append, loadAll_append]
  have hlow := @setHalf_eq_loadAll size 0 (s.temp .tmp) ctx.beData s.mem s.dreg reg 0 a hsize (by decide) hv
  have hhigh := @setHalf_eq_loadAll size 1 (s.temp .tmp) ctx.beData s.mem
    (update s.dreg reg (setLane 2 (s.dreg reg) 0 ((s.temp .tmp).setWidth 64))) reg 0 a hsize
    (by decide) hv
  rw [Nat.mul_zero] at hlow
  rw [Nat.mul_one] at hhigh
  rw [← hlow, Nat.zero_mul, show a + ofNat 32 0 = a from BitVec.add_zero a, Nat.zero_add, ← hhigh]
  rfl

/-- The registers of one element to all lanes: a second register of the same element, or one
register for each element of a structure. -/
def allLanesEls (nregs size rd : Nat) (bit5 : Bool) (base : Word) : List Element :=
  if nregs = 1 then
    span rd 0 base 0 (count size) ++ if bit5 then span (rd + 1) 0 base 0 (count size) else []
  else (List.range nregs).flatMap fun reg =>
    span (rd + (if bit5 then 2 else 1) * reg) 0 (base + BitVec.ofNat 32 (2 ^ size * reg)) 0 (count size)

theorem moved_replicate_reg (hsize : size ≤ 2) (reg : Nat) :
    let s' := run ctx (loadAndReplicate size ++ storeBoth reg) s
    Moved ctx true size (span reg 0 (s.temp .addr) 0 (count size)) s s' ∧
    s'.temp .addr = s.temp .addr ∧ ∀ j < perHalf size, laneOf size (s'.temp .tmp) j =
      ByteMemory.load ctx.beData (2 ^ size) (s.temp .addr) s.mem := by
  obtain ⟨hkept, haddr⟩ := @moved_loadAndReplicate ctx size s hsize
  have hlanes : ∀ j < perHalf size, laneOf size ((run ctx (loadAndReplicate size) s).temp .tmp) j =
      load ctx.beData (2 ^ size) (s.temp .addr) s.mem := fun j hj => by
    rw [tmp_loadAndReplicate hsize]
    exact laneOf_replicated hsize (laneOf_load hsize _ _ _) hj
  rw [run_append]
  generalize run ctx (loadAndReplicate size) s = s1 at hkept haddr hlanes ⊢
  have hmem : s1.mem = s.mem := hkept.mem
  obtain ⟨hboth, htemp⟩ := @moved_storeBoth ctx size s1 reg (s.temp .addr) hsize (by rwa [hmem])
  exact ⟨hkept.append hboth, by rw [htemp, haddr], by rwa [htemp]⟩

theorem moved_allLanes (hsize : size ≤ 2) (bit5 : Bool) :
    Moved ctx true size (allLanesEls nregs size rd bit5 (s.readReg ctx rn)) s
      (run ctx (allLanesOps nregs size rn rd bit5) s) := by
  have hset : Moved ctx true size [] s (exec ctx s (.loadRegVar .addr rn)) := nil rfl rfl rfl
  have haddr : (exec ctx s (.loadRegVar .addr rn)).temp .addr = s.readReg ctx rn := by
    simp [exec, setTemp]
  change Moved ctx true size _ s (run ctx _ (exec ctx s (.loadRegVar .addr rn)))
  generalize exec ctx s (.loadRegVar .addr rn) = s1 at hset haddr ⊢
  rw [← List.nil_append (allLanesEls _ _ _ _ _)]
  apply hset.append
  unfold allLanesEls
  by_cases hone : nregs = 1
  · rw [if_pos hone, if_pos hone, run_append]
    obtain ⟨hfirst, -, hlanes⟩ := @moved_replicate_reg ctx size s1 hsize rd
    generalize run ctx (loadAndReplicate size ++ storeBoth rd) s1 = s2 at hfirst hlanes ⊢
    have hmem : s2.mem = s1.mem := hfirst.mem
    rw [haddr] at hfirst hlanes
    apply hfirst.append
    cases bit5 with
    | true => exact (moved_storeBoth hsize (by rwa [hmem])).1
    | false => exact nil rfl rfl rfl
  · rw [if_neg hone, if_neg hone]
    generalize (if bit5 then 2 else 1) = d
    have hwalk := @moved_walk ctx true size s1
      (fun reg => loadAndReplicate size ++ storeBoth (rd + d * reg))
      (fun reg a => span (rd + d * reg) 0 a 0 (count size)) (2 ^ size)
      (fun reg s => ⟨(moved_replicate_reg hsize _).1, (moved_replicate_reg hsize _).2.1⟩) nregs
    rw [haddr] at hwalk
    exact hwalk.1

def singleEls (nregs size rd lane stride : Nat) (base : Word) : List Element :=
  (List.range nregs).flatMap fun reg => [⟨rd + stride * reg, lane, base + BitVec.ofNat 32 (2 ^ size * reg)⟩]

section

variable {reg pass idx : Nat} (hsize : size ≤ 2) (hidx : idx < perHalf size)
include hsize hidx

/-- Putting an element into its half puts it into its lane. -/
theorem setHalf_deposit {v : Word} {e : BitVec 64} (hv : laneOf size v 0 = e)
    (he : (e.setWidth (width size)).setWidth 64 = e) :
    setLane 2 (s.dreg reg) pass ((deposit (s.half reg pass) v (width size * idx) (width size)).setWidth 64) =
    setLane size (s.dreg reg) (perHalf size * pass + idx) e := by
  have hthree : size ≤ 3 := by omega
  have hhalf : 0 < perHalf size := by omega
  apply ext_lanes hthree
  intro l hl
  have hmod : l % perHalf size < perHalf size := mod_lt _ hhalf
  have hsplit := div_add_mod l (perHalf size)
  rw [lane_setHalf hsize hl]
  by_cases hsame : l = perHalf size * pass + idx
  · have hdiv : l / perHalf size = pass := by
      rw [hsame, mul_add_div hhalf, div_eq_of_lt hidx, Nat.add_zero]
    have hrest : l % perHalf size = idx := by
      rw [hsame, mul_add_mod, mod_eq_of_lt hidx]
    rw [if_pos hdiv, laneOf_deposit hsize _ _ hmod, if_pos hrest, hv, ← hsame,
      lane_setLane_self hthree hl, he]
  · rw [lane_setLane_of_ne hthree hl hsame]
    split_ifs with hdiv
    · have hrest : l % perHalf size ≠ idx := fun heq => hsame (by rw [← hdiv, ← heq, hsplit])
      rw [laneOf_deposit hsize _ _ hmod, if_neg hrest, laneOf_half hsize reg pass _ hmod, ← hdiv, hsplit]
    · rfl

theorem dreg_singleReg :
    (run ctx (singleReg true size reg pass (width size * idx)) s).dreg =
      update s.dreg reg (setLane size (s.dreg reg) (perHalf size * pass + idx)
        (ByteMemory.load ctx.beData (2 ^ size) (s.temp .addr) s.mem)) := by
  have hfits := @lane_load size ctx.beData s.mem (s.temp .addr)
  by_cases hword : size = 2
  · subst hword
    obtain rfl : idx = 0 := by
      have hone : idx < 1 := hidx
      omega
    have hfits' : setWidth 64 (setWidth 32
        (load ctx.beData 4 (s.temp .addr) s.mem)) = _ := hfits
    simp [singleReg, run, exec, setTemp, setDreg, hfits', perHalf]
  · have hput := @setHalf_deposit size s reg pass idx hsize hidx _ _
      (laneOf_load hsize ctx.beData (s.temp .addr) s.mem 0) (by rw [if_pos rfl, hfits])
    have hlen : (if size = 0 then 8 else 16) = width size := by
      interval_cases size
      exacts [rfl, rfl, absurd rfl hword]
    rw [if_pos rfl] at hput
    rw [← hput, singleReg, if_pos rfl, if_neg hword, hlen]
    simp only [run, exec, setTemp, setDreg, foldl, List.cons_append,
      List.nil_append, update_self, update_of_ne, ne_eq, reduceCtorEq,
      not_false_eq_true, half]

theorem mem_singleReg :
    (run ctx (singleReg false size reg pass (width size * idx)) s).mem =
      store ctx.beData (2 ^ size) (s.temp .addr)
        (lane size (s.dreg reg) (perHalf size * pass + idx)) s.mem := by
  rw [← laneOf_half hsize reg pass idx hidx, ← store_laneOf hsize]
  rw [singleReg, if_neg Bool.false_ne_true]
  by_cases hshift : width size * idx = 0
  · simp [run, exec, setTemp, hshift]
  · simp [run, exec, setTemp, hshift]

/-- The ops for one register move the lane `idx` of one half. -/
theorem moved_singleReg :
    Moved ctx load size [⟨reg, perHalf size * pass + idx, s.temp .addr⟩] s
      (run ctx (singleReg load size reg pass (width size * idx)) s) ∧
    (run ctx (singleReg load size reg pass (width size * idx)) s).temp .addr = s.temp .addr := by
  cases load with
  | true =>
    refine ⟨⟨dreg_singleReg hsize hidx, ?_, ?_⟩, ?_⟩ <;> rw [singleReg, if_pos rfl] <;>
      by_cases hword : size = 2 <;> simp [hword, run, exec, setTemp, setDreg]
  | false =>
    refine ⟨⟨?_, mem_singleReg hsize hidx, ?_⟩, ?_⟩ <;>
      rw [singleReg, if_neg Bool.false_ne_true] <;>
      by_cases hshift : width size * idx = 0 <;> simp [hshift, run, exec, setTemp]

theorem moved_single {stride : Nat} :
    Moved ctx load size
      (singleEls nregs size rd (perHalf size * pass + idx) stride (s.readReg ctx rn)) s
      (run ctx (singleOps load nregs size rn rd pass (width size * idx) stride) s) := by
  have hset : Moved ctx load size [] s (exec ctx s (.loadRegVar .addr rn)) := nil rfl rfl rfl
  have haddr : (exec ctx s (.loadRegVar .addr rn)).temp .addr = s.readReg ctx rn := by
    simp [exec, setTemp]
  change Moved ctx load size _ s (run ctx _ (exec ctx s (.loadRegVar .addr rn)))
  generalize exec ctx s (.loadRegVar .addr rn) = s1 at hset haddr ⊢
  have hwalk := @moved_walk ctx load size s1
    (fun reg => singleReg load size (rd + stride * reg) pass (width size * idx))
    (fun reg a => [⟨rd + stride * reg, perHalf size * pass + idx, a⟩]) (2 ^ size)
    (fun reg s => moved_singleReg hsize hidx) nregs
  rw [haddr] at hwalk
  exact hset.append hwalk.1

end

end TcgArm.NeonLs
