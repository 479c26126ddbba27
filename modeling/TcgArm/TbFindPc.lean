import TcgArm.TbStoreRun

/-! `tb_find_pc` finds the block of a host address by binary search over the starts of the blocks.
That its upper bound is an index on a miss rests on where the allocator places the first block. A
translation that a guest exception abandons leaves its block allocated with no code. -/

namespace TcgArm.Tb

open Function Option Store Transition

variable {host : Host} {cfg : Config} {s s' : Store host}

/-- The search loop of `tb_find_pc`. -/
def Store.findPcLoop (s : Store host) (tcPtr : Nat) (mMin mMax : Int) : Int :=
  if mMin ≤ mMax then
    let m := (mMin + mMax) / 2
    let v := (s.tbs m.toNat).tcPtr
    if v = tcPtr then m
    else if tcPtr < v then s.findPcLoop tcPtr mMin (m - 1)
    else s.findPcLoop tcPtr (m + 1) mMax
  else mMax
termination_by (mMax + 1 - mMin).toNat
decreasing_by all_goals omega

/-- `tb_find_pc`, with the index of the entry of `tbs` it returns. -/
def Store.tbFindPc (cfg : Config) (s : Store host) (tcPtr : Nat) : Option Int :=
  if s.nbTbs = 0 then none
  else if tcPtr < cfg.codeGenBuffer ∨ s.codeGenPtr ≤ tcPtr then none
  else some (s.findPcLoop tcPtr 0 (s.nbTbs - 1))

def Store.codeStart (s : Store host) (i : Nat) : Nat := (s.tbs i).tcPtr

theorem Areas.codeStart_strictMonoOn (h : Areas cfg s) : StrictMonoOn s.codeStart (Set.Iio s.nbTbs) := by
  intro i hi j hj hij
  have hpos := (h.inside i hi).2.1
  have hord := h.ordered i j hij hj
  unfold codeStart
  omega

/-- Where the first block starts, or would start. -/
def Store.firstStart (s : Store host) : Nat := if s.nbTbs = 0 then s.codeGenPtr else s.codeStart 0

theorem firstStart_congr (h : SameBlocks s s') : s'.firstStart = s.firstStart := by
  rw [firstStart, firstStart, codeStart, codeStart, h.nbTbs, h.tbs, h.codeGenPtr]

theorem Flushed.firstStart (h : Flushed cfg s s') : s'.firstStart = cfg.codeGenBuffer := by
  rw [Store.firstStart, if_pos h.nbTbs, h.codeGenPtr]

theorem firstStart_tbFree (s : Store host) (tb : Nat) : (s.tbFree tb).firstStart = s.firstStart := by
  unfold tbFree
  split_ifs with hlast
  · obtain ⟨hpos, rfl⟩ := hlast
    change (if s.nbTbs - 1 = 0 then s.codeStart (s.nbTbs - 1) else s.codeStart 0) = s.firstStart
    rw [firstStart, if_neg hpos.ne']
    split_ifs with h0
    · rw [h0]
    · rfl
  · rfl

variable {lists : PageIndex → List (Nat × Fin 2)} {key : Key} {cflags : BitVec 32}

theorem Generation.firstStart {attempts : List Generated} {t : Nat}
    (h : Generation cfg s s' key cflags attempts t) (hs : s.firstStart = cfg.codeGenBuffer) :
    s'.firstStart = cfg.codeGenBuffer := by
  obtain ⟨-, s1, hs1, g, -, hadded, -⟩ := h
  have h1 : s1.firstStart = cfg.codeGenBuffer := by
    rcases hs1 with rfl | hflushed
    · exact hs
    · exact hflushed.firstStart
  rw [Store.firstStart, if_neg (by rw [hadded.nbTbs]; omega), codeStart]
  unfold Store.firstStart at h1
  split_ifs at h1 with hnb
  · obtain rfl : t = 0 := hadded.index.trans hnb
    rw [hadded.tbs_self, generatedBlock, h1]
  · rw [hadded.tbs_of_ne (by rw [hadded.index]; omega)]
    exact h1

theorem firstStart_step {call : StoreCall} (hinv : Inv cfg s none lists)
    (h : s.firstStart = cfg.codeGenBuffer) (hstep : StoreStep cfg s call s') :
    s'.firstStart = cfg.codeGenBuffer := by
  cases blocks_step hinv hstep with
  | same hsame => exact (firstStart_congr hsame).trans h
  | generated hgen hsame => exact (firstStart_congr hsame).trans (hgen.firstStart h)
  | freed tb hfree =>
    rw [hfree, firstStart_tbFree]
    exact h
  | flushed hflushed => exact hflushed.firstStart

theorem starts_run {s₀ : Store host} {calls : List StoreCall} (hinit : s₀.Initial cfg)
    (hrun : Run (StoreStep cfg) s₀ calls s) : Areas cfg s ∧ s.firstStart = cfg.codeGenBuffer := by
  have h₀ : s₀.firstStart = cfg.codeGenBuffer := by rw [firstStart, if_pos hinit.nbTbs, hinit.codeGenPtr]
  obtain ⟨⟨lists, hinv⟩, hfirst⟩ := hrun.invariant
    (fun s => (∃ lists, Inv cfg s none lists) ∧ s.firstStart = cfg.codeGenBuffer)
    (by
      rintro s call s' ⟨⟨lists, hinv⟩, h⟩ hstep
      exact ⟨inv_step hinv hstep, firstStart_step hinv h hstep⟩)
    ⟨⟨_, inv_initial hinit⟩, h₀⟩
  exact ⟨hinv.areas, hfirst⟩

/-- `k` is a block with the greatest start not above `tcPtr`. -/
def Store.Covers (s : Store host) (tcPtr k : Nat) : Prop :=
  k < s.nbTbs ∧ s.codeStart k ≤ tcPtr ∧
    ∀ j < s.nbTbs, s.codeStart j ≤ tcPtr → s.codeStart j ≤ s.codeStart k

/-- Below the window every start is below the address, above it every start is above. -/
theorem findPcLoop_covers {tcPtr : Nat} {mMin mMax : Int}
    (hmono : StrictMonoOn s.codeStart (Set.Iio s.nbTbs)) (hfirst : s.codeStart 0 ≤ tcPtr)
    (hnb : 0 < s.nbTbs) (hmin : 0 ≤ mMin) (hmax : mMax < s.nbTbs) (hwindow : mMin ≤ mMax + 1)
    (hbelow : ∀ i < s.nbTbs, (i : Int) < mMin → s.codeStart i < tcPtr)
    (habove : ∀ i < s.nbTbs, mMax < i → tcPtr < s.codeStart i) :
    ∃ k : Nat, s.findPcLoop tcPtr mMin mMax = k ∧ s.Covers tcPtr k := by
  have hle {i j : Nat} (hij : i ≤ j) (hj : j < s.nbTbs) : s.codeStart i ≤ s.codeStart j :=
    hmono.monotoneOn (hij.trans_lt hj) hj hij
  fun_induction Store.findPcLoop s tcPtr mMin mMax with
  | case1 mMin mMax hwin m v hv =>
    exact ⟨m.toNat, by omega, by omega, hv.le, fun j _ hj => hj.trans hv.ge⟩
  | case2 mMin mMax hwin m v hv hlt ih =>
    refine ih hmin (by omega) (by omega) hbelow fun i hi hmi => ?_
    exact hlt.trans_le (hle (by omega) hi)
  | case3 mMin mMax hwin m v hv hlt ih =>
    refine ih (by omega) hmax (by omega) (fun i hi him => ?_) habove
    exact (hle (by omega) (by omega)).trans_lt (show s.codeStart m.toNat < tcPtr by unfold codeStart; omega)
  | case4 mMin mMax hwin =>
    -- the window is empty; it does not lie before the first block
    have hpos : 0 ≤ mMax := by
      by_contra hneg
      exact absurd (habove 0 hnb (by omega)) (by omega)
    refine ⟨mMax.toNat, by omega, by omega, (hbelow _ (by omega) (by omega)).le, fun j hj hjle => ?_⟩
    refine hle ?_ (by omega)
    by_contra hlater
    exact absurd (habove j hj (by omega)) (by omega)

/-- **`tb_find_pc` in every reachable state.** An address in the used part of the code buffer gives
the one block of the used part of the array with the greatest start not above it, any other address
gives none. -/
theorem tb_find_pc_right {s₀ : Store host} {calls : List StoreCall} (hinit : s₀.Initial cfg)
    (hrun : Run (StoreStep cfg) s₀ calls s) (tcPtr : Nat) :
    (s.tbFindPc cfg tcPtr = none ↔ s.nbTbs = 0 ∨ tcPtr < cfg.codeGenBuffer ∨ s.codeGenPtr ≤ tcPtr) ∧
      ∀ r, s.tbFindPc cfg tcPtr = some r → ∃ k : Nat, r = k ∧ s.Covers tcPtr k ∧
        ∀ j, s.Covers tcPtr j → j = k := by
  obtain ⟨hareas, hfirst⟩ := starts_run hinit hrun
  have hmono := hareas.codeStart_strictMonoOn
  unfold tbFindPc
  split_ifs with hnb hout
  · simp [hnb]
  · simp [hout]
  · rw [firstStart, if_neg hnb] at hfirst
    have hstart : s.codeStart 0 ≤ tcPtr := by omega
    obtain ⟨k, hk, hcovers⟩ := findPcLoop_covers hmono hstart (by omega) le_rfl
      (show (s.nbTbs : Int) - 1 < s.nbTbs by omega) (by omega) (by omega) (by omega)
    refine ⟨by simp [hnb, hout], fun r hr => ⟨k, ?_, hcovers, fun j hj => ?_⟩⟩
    · exact (Option.some.inj hr).symm.trans hk
    · refine hmono.injOn hj.1 hcovers.1 (le_antisymm ?_ ?_)
      · exact hcovers.2.2 j hj.1 hj.2.1
      · exact hj.2.2 k hcovers.1 hcovers.2.1

theorem tb_find_pc_second : ∃ s, Run (StoreStep smallConfig) (emptyStore smallConfig)
    [kernelBlock, kernelBlock] s ∧ s.tbFindPc smallConfig 4150 ≠ none := by
  obtain ⟨s, hs⟩ : ∃ s, execAll (Store.exec smallConfig) (emptyStore smallConfig)
    [kernelBlock, kernelBlock] = some s := ⟨_, rfl⟩
  have hrun := run_of_execAll hs
  refine ⟨s, hrun, ?_⟩
  rw [ne_eq, (tb_find_pc_right (emptyStore_initial smallConfig) hrun 4150).1]
  cases hs
  decide

def cfNocache : BitVec 32 := 0x10000

/-- `cpu_restore_state` on the store, with the block whose search data give the state. -/
def Store.cpuRestoreState (cfg : Config) (s : Store host) (retaddr : Nat) :
    Option (Option Nat × Store host) :=
  match s.tbFindPc cfg retaddr with
  | none => some (none, s)
  | some m =>
    let tb := m.toNat
    if (s.tbs tb).cflags &&& cfNocache = 0 then some (tb, s)
    else (s.tbPhysInvalidate tb noPage).map fun s => (some tb, s.tbFree tb)

theorem link_tbPhysInvalidate {t : Nat} (h : Inv cfg s none lists) (ht : t ∈ s.live)
    (hrun : s.tbPhysInvalidate t noPage = some s') (n : Fin 2) : s'.jumps.link (.next t n) = none := by
  obtain ⟨jumpLists, hjumps⟩ := h.jumps
  obtain ⟨jumps, -, hinvalidate, -, -, -, hnone⟩ := TbJump.invalidate_spec hjumps ht
  have hpages : PageLists { s with htable := (s.htable.remove t (hashOf (s.tbs t))).2 }
      s.live s.live none lists := h.pages.congr rfl rfl rfl rfl
  obtain ⟨link, hremove, -⟩ := removeFromPages_spec hpages ht (h.live_lt ht) skipsPage_none
  simp only [tbPhysInvalidate, hremove, bind_eq_bind, bind_some] at hrun
  obtain ⟨jumps', hjumps', heq⟩ := bind_eq_some_iff.mp hrun
  cases hinvalidate.symm.trans hjumps'
  cases heq
  exact hnone n

section

variable {s₀ : Store host} {calls : List StoreCall} {t pc : Nat} (hinit : s₀.Initial cfg)
  (hrun : Run (StoreStep cfg) s₀ calls s)
  (hpc : pc ∈ Set.Ico (s.codeStart t) (s.codeStart t + (s.tbs t).genCodeSize))
include hinit hrun hpc

theorem tbFindPc_inside (ht : t < s.nbTbs) : s.tbFindPc cfg pc = some (t : Int) := by
  obtain ⟨hareas, hfirst⟩ := starts_run hinit hrun
  have hmono := hareas.codeStart_strictMonoOn
  have hin := hareas.inside t ht
  rw [firstStart, if_neg (by omega)] at hfirst
  unfold codeStart at hpc
  obtain ⟨hlow, hhigh⟩ := hpc
  obtain ⟨k, hk, hkt, hstart, hmax⟩ := @findPcLoop_covers host s pc 0 (s.nbTbs - 1) hmono (by omega)
    (by omega) le_rfl (by omega) (by omega) (by omega) (by omega)
  have hle := (hmono.le_iff_le ht hkt).mp (hmax t ht hlow)
  -- a later block starts behind the code of `t`
  obtain rfl : t = k := hle.eq_or_lt.resolve_right fun hlt => by
    have hord := hareas.ordered t k hlt hkt
    unfold codeStart at hstart
    omega
  rw [tbFindPc, if_neg (by omega), if_neg (by omega), hk]

/-- **Faults in a live block.** In every reachable state an address in the code of a live block
restores the CPU from that block. The store stays as it is, unless the block was made for one
execution: then it is invalidated and released, and the other blocks live on. -/
theorem cpu_restore_state_right (ht : t ∈ s.live) : ∃ s', s.cpuRestoreState cfg pc = some (some t, s') ∧
    if (s.tbs t).cflags &&& cfNocache = 0 then s' = s
    else Run (StoreStep cfg) s [.invalidate t, .free t] s' ∧ s'.live = s.live.erase t := by
  obtain ⟨lists, hinv⟩ := inv_run hrun ⟨_, inv_initial hinit⟩
  simp only [cpuRestoreState, tbFindPc_inside hinit hrun hpc (hinv.live_lt ht), Int.toNat_natCast]
  split_ifs with hcached
  · exact ⟨s, rfl, rfl⟩
  · obtain ⟨s1, hs1, -, -, hlive⟩ := tbPhysInvalidate_spec hinv ht skipsPage_none
    have hfree : StoreStep cfg s1 (.free t) (s1.tbFree t) :=
      if_pos ⟨by simp [hlive], link_tbPhysInvalidate hinv ht hs1⟩
    refine ⟨s1.tbFree t, by rw [hs1]; rfl, .cons ((if_pos ht).trans hs1) (.cons hfree (.nil _)), ?_⟩
    rw [← hlive, tbFree]
    split_ifs <;> rfl

end

/-- A block for one execution. -/
def onceBlock : StoreCall :=
  .genCode ⟨0x1000, 0, 0⟩ cfNocache
    [⟨4, fun _ => none, 40, 8, armWord_le_page, smallCode_pos⟩]

theorem cpu_restore_state_once : ∃ s s', StoreStep smallConfig (emptyStore smallConfig) onceBlock s ∧
    s.cpuRestoreState smallConfig 4100 = some (some 0, s') ∧
    Run (StoreStep smallConfig) s [.invalidate 0, .free 0] s' ∧ s'.live = s.live.erase 0 := by
  obtain ⟨s, hs⟩ : ∃ s, StoreStep smallConfig (emptyStore smallConfig) onceBlock s := ⟨_, rfl⟩
  have hpc : 4100 ∈ Set.Ico (s.codeStart 0) (s.codeStart 0 + (s.tbs 0).genCodeSize) := by
    cases hs
    decide
  have honce : ¬ (s.tbs 0).cflags &&& cfNocache = 0 := by
    cases hs
    decide
  obtain ⟨s', hs', hcase⟩ := cpu_restore_state_right (emptyStore_initial _) (.cons hs (.nil s)) hpc
    (by cases hs; decide)
  rw [if_neg honce] at hcase
  exact ⟨s, s', hs, hs', hcase⟩

/-- After an abandoned translation two blocks start at the same address; the search finds the one
without code. -/
theorem abandoned_block_found : ∃ s s', (emptyStore smallConfig).tbGenAbandoned smallConfig
      ⟨0x2000, 0, 0⟩ 0 [] = some s ∧ StoreStep smallConfig s kernelBlock s' ∧
    s'.tbFindPc smallConfig 4096 = some 0 ∧ s'.nbTbs = 2 ∧ s'.codeStart 0 = 4096 ∧ s'.codeStart 1 = 4096 := by
  refine ⟨_, _, rfl, rfl, ?_, rfl, rfl, rfl⟩
  rw [tbFindPc, if_neg (by decide), if_neg (by decide), findPcLoop, if_pos (by decide)]
  exact congrArg some (if_pos rfl)

end TcgArm.Tb
