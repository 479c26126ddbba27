import TcgArm.TbStoreRun

/-! Write protection of the pages that hold translated code. A page on which a block is linked
must not be writable, so that a guest write to it faults and the block is invalidated; a page that
loses `PAGE_WRITE` for this reason keeps `PAGE_WRITE_ORG`. -/

namespace TcgArm.Tb

open Finset Option Store Transition
open BitVec (getElem_and getElem_or ofNat toNat_add toNat_ofNat zero_and)

variable {host : Host} {cfg : Config} {s s' : Store host} {lists : PageIndex → List (Nat × Fin 2)}

theorem clearWrite_and_write (flags : BitVec 32) : flags &&& ~~~ pageWrite &&& pageWrite = 0 := by
  rw [BitVec.and_assoc, BitVec.and_comm (~~~ pageWrite), show pageWrite &&& ~~~ pageWrite = 0 by
    decide]
  exact BitVec.and_zero

theorem clearWrite_and_writeOrg (flags : BitVec 32) :
    flags &&& ~~~ pageWrite &&& pageWriteOrg = flags &&& pageWriteOrg := by
  rw [BitVec.and_assoc, show ~~~ pageWrite &&& pageWriteOrg = pageWriteOrg by decide]

theorem or_and_self_ne_zero {flag : BitVec 32} (hflag : flag ≠ 0) (flags : BitVec 32) :
    (flags ||| flag) &&& flag ≠ 0 := by
  have habsorb : (flags ||| flag) &&& flag = flag := by
    ext i hi
    simp only [getElem_and, getElem_or]
    cases flags[i] <;> cases flag[i] <;> rfl
  rwa [habsorb]

theorem setWrite_and_writeOrg (flags : BitVec 32) :
    (flags ||| pageWrite) &&& pageWriteOrg = flags &&& pageWriteOrg := by
  ext i hi
  have hbit : ∀ i : Fin 32, (pageWrite.getLsbD i.val && pageWriteOrg.getLsbD i.val) = false := by
    decide
  have h := hbit ⟨i, hi⟩
  simp only [BitVec.getLsbD_eq_getElem hi] at h
  simp only [getElem_and, getElem_or, Bool.and_or_distrib_right, h, Bool.or_false]

theorem and_hostPageMask_toNat (cfg : Config) (a : TargetUlong) :
    (a &&& cfg.hostPageMask).toNat = a.toNat / cfg.hostPageSize * cfg.hostPageSize := by
  have hshift : a &&& cfg.hostPageMask = (a >>> cfg.hostPageBits) <<< cfg.hostPageBits := by
    ext i hi
    have hbit : (ofNat 32 (cfg.hostPageSize - 1))[i] = decide (i < cfg.hostPageBits) := by
      rw [BitVec.getElem_eq_testBit_toNat, toNat_ofNat, Nat.testBit_mod_two_pow,
        Config.hostPageSize, Nat.testBit_two_pow_sub_one]
      simp [hi]
    simp only [Config.hostPageMask, getElem_and, BitVec.getElem_not, hbit, BitVec.getElem_shiftLeft]
    by_cases h : i < cfg.hostPageBits
    · simp [h]
    · simp [h, show cfg.hostPageBits + (i - cfg.hostPageBits) = i by omega, BitVec.getLsbD_eq_getElem hi]
  have hle : a.toNat / 2 ^ cfg.hostPageBits * 2 ^ cfg.hostPageBits ≤ a.toNat := Nat.div_mul_le_self _ _
  rw [hshift, BitVec.toNat_shiftLeft, BitVec.toNat_ushiftRight, Nat.shiftRight_eq_div_pow,
    Nat.shiftLeft_eq, Config.hostPageSize]
  exact Nat.mod_eq_of_lt (by omega)

/-- The host page of an address is the last one of the guest address space. -/
def LastHostPage (cfg : Config) (a : TargetUlong) : Prop :=
  (a &&& cfg.hostPageMask).toNat + cfg.hostPageSize = 2 ^ 32

theorem hostPageSize_eq (cfg : Config) : ∃ k, cfg.hostPageSize = 4096 * k ∧ 0 < k ∧
    2 ^ 32 % cfg.hostPageSize = 0 := by
  have hle := cfg.pageBits_le
  have hlt := cfg.pageBits_lt
  refine ⟨2 ^ (cfg.hostPageBits - 12), ?_, Nat.two_pow_pos _, ?_⟩
  · rw [Config.hostPageSize, show (4096 : Nat) = 2 ^ 12 from rfl, ← Nat.pow_add]
    congr 1
    unfold targetPageBits at hle
    omega
  · exact Nat.mod_eq_zero_of_dvd (Nat.pow_dvd_pow 2 hlt.le)

variable {a : TargetUlong} {i : PageIndex} {addr : TargetUlong}

/-- Every other host page is followed by a whole one. -/
theorem hostPage_end_le (h : ¬ LastHostPage cfg a) :
    (a &&& cfg.hostPageMask).toNat + 2 * cfg.hostPageSize ≤ 2 ^ 32 := by
  obtain ⟨k, hk, hpos, hmod⟩ := hostPageSize_eq cfg
  rw [LastHostPage, and_hostPageMask_toNat] at h
  rw [and_hostPageMask_toNat]
  obtain ⟨m, hm⟩ := Nat.dvd_of_mod_eq_zero hmod
  rw [hm] at h ⊢
  have hdiv : a.toNat / cfg.hostPageSize < m := by
    rw [Nat.div_lt_iff_lt_mul (by omega), Nat.mul_comm, ← hm]
    exact a.isLt
  have hne : a.toNat / cfg.hostPageSize + 1 ≠ m := by
    rintro rfl
    exact h (by ring)
  calc a.toNat / cfg.hostPageSize * cfg.hostPageSize + 2 * cfg.hostPageSize
      = (a.toNat / cfg.hostPageSize + 2) * cfg.hostPageSize := by ring
    _ ≤ m * cfg.hostPageSize := Nat.mul_le_mul_right _ (by omega)
    _ = cfg.hostPageSize * m := Nat.mul_comm ..

def InLastHostPage (cfg : Config) (i : PageIndex) : Prop :=
  2 ^ 32 ≤ i.toNat * 4096 + cfg.hostPageSize

/-- Flags that `tb_alloc_page` leaves: the old ones or, outside the last host page, the old ones
without write access. -/
def Weakened (cfg : Config) (i : PageIndex) (old new : BitVec 32) : Prop :=
  new = old ∨ ¬ InLastHostPage cfg i ∧ new = old &&& ~~~ pageWrite

theorem Weakened.trans {a b c : BitVec 32} (h : Weakened cfg i a b) (h' : Weakened cfg i b c) :
    Weakened cfg i a c := by
  rcases h with rfl | ⟨hi, rfl⟩
  · exact h'
  · refine Or.inr ⟨hi, ?_⟩
    rcases h' with rfl | ⟨-, rfl⟩
    · rfl
    · rw [BitVec.and_assoc, BitVec.and_self]

theorem Weakened.writeOrg {a b : BitVec 32} (h : Weakened cfg i a b) :
    b &&& pageWriteOrg = a &&& pageWriteOrg := by
  rcases h with rfl | ⟨-, rfl⟩
  · rfl
  · exact clearWrite_and_writeOrg a

theorem Weakened.write {a b : BitVec 32} (h : Weakened cfg i a b) (ha : a &&& pageWrite = 0) :
    b &&& pageWrite = 0 := by
  rcases h with rfl | ⟨-, rfl⟩
  · exact ha
  · exact clearWrite_and_write a

variable {j : PageIndex}

theorem flagsAt_linkEntry (s : Store host) (t : Nat) (n : Fin 2) (pageAddr : TargetUlong)
    (i : PageIndex) : (s.linkEntry t n pageAddr).flagsAt i = s.flagsAt i :=
  flagsAt_pageFindAlloc (s.setPageAddr t n pageAddr) (pageIndex pageAddr) i

theorem pageFlags_linkEntry (s : Store host) (t : Nat) (n : Fin 2) (pageAddr : TargetUlong) :
    (s.linkEntry t n pageAddr).pageFlags (pageIndex pageAddr) = s.flagsAt (pageIndex pageAddr) := by
  have hlink : (s.linkEntry t n pageAddr).l1Map (leafOf (pageIndex pageAddr)) = true :=
    l1Map_pageFindAlloc _ _
  rw [← flagsAt_linkEntry s t n pageAddr, flagsAt, if_pos hlink]

theorem flagsAt_protectPage (s : Store host) (j i : PageIndex) :
    (s.protectPage j).flagsAt i = if i = j then s.flagsAt i &&& ~~~ pageWrite else s.flagsAt i := by
  unfold protectPage pageFind
  by_cases hj : s.l1Map (leafOf j) = true
  · rw [if_pos hj]
    simp only [flagsAt_setPageFlags hj]
    by_cases hij : i = j
    · rw [if_pos hij, if_pos hij, hij, flagsAt, if_pos hj]
    · rw [if_neg hij, if_neg hij]
  · rw [if_neg hj]
    by_cases hij : i = j
    · rw [if_pos hij, hij, flagsAt, if_neg hj]
      exact (zero_and).symm
    · rw [if_neg hij]

variable {t fuel : Nat}

/-- The loop takes write access away from the pages between `addr` and `bound`. -/
theorem protectLoop_flags {bound : Nat} (hbound : bound < 2 ^ 32) (halign : bound % 4096 = 0)
    (haddr : addr.toNat % 4096 = 0) (hrun : Store.protectLoop bound fuel addr s = some s') (i : PageIndex) :
    s'.flagsAt i = if addr.toNat ≤ i.toNat * 4096 ∧ i.toNat * 4096 < bound then
      s.flagsAt i &&& ~~~ pageWrite else s.flagsAt i := by
  induction fuel generalizing s addr with
  | zero => cases hrun
  | succ fuel ih =>
    unfold protectLoop at hrun
    split at hrun
    · rename_i hlt
      have hnext := @toNat_add_pageSize addr (by omega)
      have hindex := @eq_pageIndex_iff i addr (by omega)
      have hrest := ih (by omega) hrun
      rw [hrest, hnext, flagsAt_protectPage]
      by_cases hi : i.toNat * 4096 = addr.toNat
      · rw [if_pos (hindex.mpr hi), if_neg (by omega), if_pos ⟨hi.ge, by omega⟩]
      · rw [if_neg (mt hindex.mp hi)]
        refine if_congr ?_ rfl rfl
        omega
    · rename_i hge
      cases hrun
      rw [if_neg (by omega)]

def InHostPage (cfg : Config) (a : TargetUlong) (i : PageIndex) : Prop :=
  (a &&& cfg.hostPageMask).toNat ≤ i.toNat * 4096 ∧
    i.toNat * 4096 < (a &&& cfg.hostPageMask).toNat + cfg.hostPageSize

theorem inHostPage_self (cfg : Config) (a : TargetUlong) : InHostPage cfg a (pageIndex a) := by
  obtain ⟨k, hk, hpos, -⟩ := hostPageSize_eq cfg
  rw [InHostPage, and_hostPageMask_toNat, pageIndex_toNat]
  have hmod := Nat.div_add_mod a.toNat cfg.hostPageSize
  have hlt := Nat.mod_lt a.toNat (show 0 < cfg.hostPageSize by omega)
  rw [Nat.mul_comm] at hmod
  have hmul : 4096 * (a.toNat / cfg.hostPageSize * k) = a.toNat / cfg.hostPageSize * cfg.hostPageSize := by
    rw [hk]
    ring
  omega

theorem hostPage_align (cfg : Config) (a : TargetUlong) :
    (a &&& cfg.hostPageMask).toNat % 4096 = 0 ∧
      ((a &&& cfg.hostPageMask).toNat + cfg.hostPageSize) % 4096 = 0 := by
  obtain ⟨k, hk, -, -⟩ := hostPageSize_eq cfg
  have hmul : a.toNat / cfg.hostPageSize * cfg.hostPageSize = 4096 * (a.toNat / cfg.hostPageSize * k) := by
    rw [hk]
    ring
  rw [and_hostPageMask_toNat]
  omega

theorem hostPageEnd_eq (host : Host) (h : ¬ LastHostPage cfg a) :
    (a &&& cfg.hostPageMask).toNat + cfg.hostPageSize < 2 ^ 32 ∧
      Store.hostPageEnd host cfg (a &&& cfg.hostPageMask) =
        (a &&& cfg.hostPageMask).toNat + cfg.hostPageSize := by
  have hnext := hostPage_end_le h
  have hend : (a &&& cfg.hostPageMask).toNat + cfg.hostPageSize < 2 ^ 32 := by omega
  have hbits : 2 ^ 32 ≤ 2 ^ host.bits := by cases host <;> decide
  exact ⟨hend, Nat.mod_eq_of_lt (hend.trans_le hbits)⟩

/-- A block linked on a page makes it read-only, unless the page is writable and in the last host
page: there the end of the host page does not fit the loop's arithmetic. -/
theorem tbAllocPage_flags {n : Fin 2} {pageAddr : TargetUlong}
    (hrun : s.tbAllocPage cfg t n pageAddr = some s')
    (hlast : LastHostPage cfg pageAddr → s.flagsAt (pageIndex pageAddr) &&& pageWrite = 0) :
    s'.flagsAt (pageIndex pageAddr) &&& pageWrite = 0 ∧ ∀ i, Weakened cfg i (s.flagsAt i) (s'.flagsAt i) := by
  have hentry := flagsAt_linkEntry s t n pageAddr
  have hflags := pageFlags_linkEntry s t n pageAddr
  simp only [tbAllocPage] at hrun
  split at hrun
  · rename_i hwrite
    rw [hflags] at hwrite
    have hnext := hostPage_end_le fun h => hwrite (hlast h)
    obtain ⟨hend, hbound⟩ := hostPageEnd_eq host fun h => hwrite (hlast h)
    obtain ⟨halign, halign'⟩ := hostPage_align cfg pageAddr
    rw [hbound] at hrun
    have hloop := protectLoop_flags hend halign' halign hrun
    refine ⟨?_, fun i => ?_⟩
    · obtain ⟨hlow, hhigh⟩ := inHostPage_self cfg pageAddr
      rw [hloop, if_pos ⟨hlow, hhigh⟩]
      exact clearWrite_and_write _
    · rw [hloop, hentry]
      split
      · exact Or.inr ⟨by unfold InLastHostPage; omega, rfl⟩
      · exact Or.inl rfl
  · rename_i hwrite
    cases hrun
    rw [not_not, hflags] at hwrite
    exact ⟨by rw [hentry]; exact hwrite, fun i => Or.inl (hentry i)⟩

theorem lastHostPage_and_mask (cfg : Config) (a : TargetUlong) :
    LastHostPage cfg (a &&& targetPageMask) ↔ LastHostPage cfg a := by
  obtain ⟨k, hk, hpos, -⟩ := hostPageSize_eq cfg
  have hdiv : a.toNat / 4096 * 4096 / cfg.hostPageSize = a.toNat / cfg.hostPageSize := by
    rw [hk, Nat.mul_comm 4096 k, Nat.mul_div_mul_right _ _ (by decide : 0 < 4096),
      Nat.div_div_eq_div_mul, Nat.mul_comm]
  rw [LastHostPage, LastHostPage, and_hostPageMask_toNat, and_hostPageMask_toNat,
    and_targetPageMask_toNat, hdiv]

/-- A page may take a block: it is not both writable and in the last host page. -/
def Store.CanProtect (cfg : Config) (s : Store host) (a : TargetUlong) : Prop :=
  LastHostPage cfg a → s.pageGetFlags a &&& pageWrite = 0

theorem Store.CanProtect.mono (h : s.CanProtect cfg a)
    (hweak : ∀ i, Weakened cfg i (s.flagsAt i) (s'.flagsAt i)) : s'.CanProtect cfg a :=
  fun hlast => (hweak _).write (h hlast)

theorem tbLinkPage_flags {physPc page2 : TargetUlong} (hfirst : s.CanProtect cfg physPc)
    (hsecond : page2 ≠ noPage → s.CanProtect cfg page2) (hrun : s.tbLinkPage cfg t physPc page2 = some s') :
    s'.pageGetFlags physPc &&& pageWrite = 0 ∧ (page2 ≠ noPage → s'.pageGetFlags page2 &&& pageWrite = 0) ∧
      ∀ i, Weakened cfg i (s.flagsAt i) (s'.flagsAt i) := by
  simp only [tbLinkPage, bind_eq_bind, bind_eq_some_iff] at hrun
  obtain ⟨s1, hrun1, hrun2⟩ := hrun
  have hpage : LastHostPage cfg (physPc &&& targetPageMask) →
      s.flagsAt (pageIndex (physPc &&& targetPageMask)) &&& pageWrite = 0 := by
    rw [lastHostPage_and_mask, pageIndex_and_mask]
    exact hfirst
  obtain ⟨hwrite1, hweak1⟩ := tbAllocPage_flags hrun1 hpage
  rw [pageIndex_and_mask] at hwrite1
  split at hrun2
  · rename_i hne
    obtain ⟨hwrite2, hweak2⟩ := tbAllocPage_flags hrun2 ((hsecond hne).mono hweak1)
    exact ⟨(hweak2 _).write hwrite1, fun _ => hwrite2, fun i => (hweak1 i).trans (hweak2 i)⟩
  · rename_i heq
    cases hrun2
    exact ⟨hwrite1, fun hne => absurd hne heq, hweak1⟩

/-- No page with a live block is writable, and every writable page was made so by the guest. -/
structure Protected (s : Store host) : Prop where
  noWrite : ∀ t ∈ s.live, ∀ n i, (s.tbs t).OnPage n i → s.flagsAt i &&& pageWrite = 0
  writeOrg : ∀ i, s.flagsAt i &&& pageWrite ≠ 0 → s.flagsAt i &&& pageWriteOrg ≠ 0

theorem Protected.of_flags (h : Protected s) (hlive : s'.live ⊆ s.live) (htbs : s'.tbs = s.tbs)
    (hflags : ∀ i, s'.flagsAt i = s.flagsAt i) : Protected s' := by
  refine ⟨fun t ht n i hon => ?_, fun i => ?_⟩
  · rw [hflags]
    exact h.noWrite t (hlive ht) n i (htbs ▸ hon)
  · rw [hflags]
    exact h.writeOrg i

theorem Protected.of_kept (h : Protected s) (hkept : Kept s s') : Protected s' :=
  h.of_flags hkept.live hkept.tbs (flagsAt_congr hkept.pageFlags hkept.l1Map)

def Store.CanLink (cfg : Config) (s : Store host) (key : Store.Key) (g : Store.Generated) : Prop :=
  s.CanProtect cfg key.pc ∧ s.CanProtect cfg (key.pc + BitVec.ofNat 32 g.size - 1)

theorem secondPage_eq {pc : TargetUlong} {size : Nat} (h : secondPage pc size ≠ noPage) :
    secondPage pc size = (pc + ofNat 32 size - 1) &&& targetPageMask := by
  simp only [secondPage] at h ⊢
  split at h
  · rw [if_pos ‹_›]
  · exact absurd rfl h

theorem canProtect_and_mask (s : Store host) (a : TargetUlong) :
    s.CanProtect cfg (a &&& targetPageMask) ↔ s.CanProtect cfg a := by
  rw [Store.CanProtect, Store.CanProtect, lastHostPage_and_mask, pageGetFlags,
    pageIndex_and_mask, pageGetFlags]

variable {attempts : List Store.Generated} {key : Store.Key} {cflags flags : BitVec 32}

/-- Generating a block whose pages can be protected. -/
theorem protected_generation (hinv : Inv cfg s none lists) (h : Protected s)
    (hgen : Generation cfg s s' key cflags attempts t) (hlink : ∀ g ∈ attempts, s.CanLink cfg key g) :
    Protected s' ∧ ∀ i, Weakened cfg i (s.flagsAt i) (s'.flagsAt i) := by
  obtain ⟨-, s1, hs1, g, hg, hadded, s2, hflags, hl1, hrun⟩ := hgen
  have hsame : ∀ i, s2.flagsAt i = s.flagsAt i := flagsAt_congr hflags hl1
  have hcan : ∀ a, s.CanProtect cfg a → s2.CanProtect cfg a := fun a ha => ha.mono fun i => Or.inl (hsame i)
  obtain ⟨hwrite, hwrite2, hweak⟩ := tbLinkPage_flags (hcan _ (hlink g hg).1) (fun hne => by
    rw [secondPage_eq hne, canProtect_and_mask]
    exact hcan _ (hlink g hg).2) hrun
  have hweak' : ∀ i, Weakened cfg i (s.flagsAt i) (s'.flagsAt i) := fun i => hsame i ▸ hweak i
  refine ⟨⟨fun u hu n i hon => ?_, fun i hi => ?_⟩, hweak'⟩
  · rw [hadded.live, mem_insert] at hu
    rcases hu with rfl | hu
    · rw [hadded.tbs_self] at hon
      obtain ⟨hne, rfl⟩ := hon
      match n with
      | 0 =>
        change s'.flagsAt (pageIndex (key.pc &&& targetPageMask)) &&& pageWrite = 0
        rw [pageIndex_and_mask]
        exact hwrite
      | 1 => exact hwrite2 hne
    · rcases hs1 with rfl | hflushed
      · rw [hadded.tbs_of_ne (hadded.index ▸ (hinv.live_lt hu).ne)] at hon
        exact (hweak' i).write (h.noWrite u hu n i hon)
      · rw [hflushed.live] at hu
        exact absurd hu (notMem_empty u)
  · rw [(hweak' i).writeOrg]
    exact h.writeOrg i fun hzero => hi ((hweak' i).write hzero)

variable {lastTb : Option Nat} {len : TargetUlong} {cpu tbExit : Nat}

theorem tbChain_kept (hrun : s.tbChain cpu lastTb tbExit t = some s') :
    s'.live = s.live ∧ s'.tbs = s.tbs ∧ s'.pageFlags = s.pageFlags ∧ s'.l1Map = s.l1Map := by
  simp only [tbChain] at hrun
  split at hrun
  · cases hrun
    exact ⟨rfl, rfl, rfl, rfl⟩
  · split at hrun
    · cases hrun
      exact ⟨rfl, rfl, rfl, rfl⟩
    · cases hrun

/-- The lookup and chaining of `tb_find_fast` change flags only where a block is generated. -/
theorem protected_findFast (hinv : Inv cfg s none lists) (h : Protected s)
    (hlink : ∀ g ∈ attempts, s.CanLink cfg key g)
    (hrun : s.tbFindFast cfg cpu key lastTb tbExit cflags attempts = some (t, s')) :
    Protected s' ∧ ∀ i, Weakened cfg i (s.flagsAt i) (s'.flagsAt i) := by
  obtain ⟨⟨u, s1⟩, hlookup, hrun⟩ := bind_eq_some_iff.mp hrun
  obtain ⟨s2, hchain, heq⟩ := bind_eq_some_iff.mp hrun
  cases heq
  obtain ⟨s0, cache, rfl, hcases⟩ := tbLookup_cases hlookup
  obtain ⟨h0, hweak⟩ : Protected s0 ∧ ∀ i, Weakened cfg i (s.flagsAt i) (s0.flagsAt i) := by
    rcases hcases with rfl | hgen
    · exact ⟨h, fun i => Or.inl rfl⟩
    · exact protected_generation hinv h (tbGenCode_spec hinv hgen) hlink
  obtain ⟨hlive, htbs, hflags, hl1⟩ := tbChain_kept hchain
  have hsame : ∀ i, s'.flagsAt i = s0.flagsAt i := flagsAt_congr hflags hl1
  exact ⟨h0.of_flags hlive.le htbs hsame, fun i => hsame i ▸ hweak i⟩

/-- The pages whose flags `page_set_flags` assigns. -/
def Assigned (addr len : TargetUlong) (i : PageIndex) : Prop :=
  ∃ k, k * 4096 < len.toNat ∧ pageIndex (addr + BitVec.ofNat 32 (k * 4096)) = i

theorem assigned_of_offset (h : (i - pageIndex addr).toNat * 4096 < len.toNat) :
    Assigned addr len i := by
  refine ⟨_, h, BitVec.eq_of_toNat_eq ?_⟩
  rw [pageIndex_toNat, toNat_add, toNat_ofNat, toNat_sub_pageIndex]
  omega

/-- `page_set_flags` invalidates the blocks of a page before it becomes writable, and leaves the
flags of other pages alone. -/
theorem protected_setFlagsLoop
    (horg : flags &&& pageWrite ≠ 0 → flags &&& pageWriteOrg ≠ 0) (hlen : len.toNat % 4096 = 0)
    (hinv : Inv cfg s none lists) (h : Protected s)
    (hrun : Store.setFlagsLoop flags fuel addr len s = some s') :
    Protected s' ∧ ∀ i, ¬ Assigned addr len i → s'.flagsAt i = s.flagsAt i := by
  obtain ⟨-, -, hcalm, hpages⟩ := setFlagsLoop_spec hinv hrun
  replace hpages := hpages hlen
  refine ⟨⟨fun t ht n i hon => ?_, fun i hi => ?_⟩, fun i hi => ?_⟩
  · rw [hcalm.tbs] at hon
    have hread := h.noWrite t (hcalm.live ht) n i hon
    rcases hpages i with ⟨-, hflags, hempty⟩ | ⟨-, hflags⟩ <;> rw [hflags]
    · by_contra hwrite
      exact hempty hwrite t ht n hon hread
    · exact hread
  · rcases hpages i with ⟨-, hflags, -⟩ | ⟨-, hflags⟩ <;> rw [hflags] at hi ⊢
    · exact horg hi
    · exact h.writeOrg i hi
  · exact ((hpages i).resolve_left fun hin => hi (assigned_of_offset hin.1)).2

variable {hostEnd : TargetUlong}

/-- `page_unprotect` on a host page whose guest pages are all writable for the guest. -/
theorem protected_unprotectLoop (hend : hostEnd.toNat % 4096 = 0) (haddr : addr.toNat % 4096 = 0)
    (horg : ∀ i : PageIndex, addr.toNat ≤ i.toNat * 4096 → i.toNat * 4096 < hostEnd.toNat →
      s.flagsAt i &&& pageWriteOrg ≠ 0) (hinv : Inv cfg s none lists) (h : Protected s)
    (hrun : Store.unprotectLoop hostEnd fuel addr s = some s') :
    Protected s' ∧ ∀ i, s'.flagsAt i &&& pageWriteOrg = s.flagsAt i &&& pageWriteOrg := by
  obtain ⟨-, -, hcalm, -, hpages⟩ := unprotectLoop_spec hinv hrun
  replace hpages := hpages hend haddr
  have hsame : ∀ i, s'.flagsAt i &&& pageWriteOrg = s.flagsAt i &&& pageWriteOrg := by
    intro i
    rcases hpages i with ⟨-, -, -, hflags, -⟩ | ⟨-, hflags⟩ <;> rw [hflags]
    exact setWrite_and_writeOrg _
  refine ⟨⟨fun t ht n i hon => ?_, fun i hi => ?_⟩, hsame⟩
  · rw [hcalm.tbs] at hon
    rcases hpages i with ⟨-, -, -, -, hempty⟩ | ⟨-, hflags⟩
    · exact absurd hon (hempty t ht n)
    · rw [hflags]
      exact h.noWrite t (hcalm.live ht) n i hon
  · rw [hsame]
    rcases hpages i with ⟨hlow, hhigh, -⟩ | ⟨-, hflags⟩
    · exact horg i hlow hhigh
    · exact h.writeOrg i (hflags ▸ hi)

/-- The store with the set of pages that lost `PAGE_WRITE` because a block was linked on their
host page, and have neither been given it back nor had their flags set since. -/
structure Tracked (host : Host) where
  store : Store host
  lost : Set PageIndex

def StoreCall.Links : StoreCall → Prop
  | .genCode .. | .findFast .. => True
  | _ => False

def StoreCall.Assigns : StoreCall → PageIndex → Prop
  | .setFlags start last _ =>
    Assigned (start &&& targetPageMask) (Store.targetPageAlign last - (start &&& targetPageMask))
  | _ => fun _ => False

def Tracked.after (x : Tracked host) (call : StoreCall) (s' : Store host) : Tracked host :=
  ⟨s', {i | (i ∈ x.lost ∨ call.Links ∧ x.store.flagsAt i &&& pageWrite ≠ 0) ∧
    s'.flagsAt i &&& pageWrite = 0 ∧ ¬ call.Assigns i}⟩

def TrackedStep (cfg : Config) (x : Tracked host) (call : StoreCall) (y : Tracked host) : Prop :=
  ∃ s', StoreStep cfg x.store call s' ∧ y = x.after call s'

/-- A call that the wrapping arithmetic of the last host page and the write access given by
`page_unprotect` to all guest pages of a host page do not affect. -/
def Store.Unaffected (cfg : Config) (s : Store host) : StoreCall → Prop
  | .genCode key _ attempts | .findFast _ key _ _ _ attempts =>
    ∀ g ∈ attempts, s.CanLink cfg key g
  | .unprotect address =>
    s.pageGetFlags address &&& pageWriteOrg ≠ 0 → s.pageGetFlags address &&& pageWrite = 0 →
      ¬ LastHostPage cfg address →
      ∀ i, InHostPage cfg address i → s.flagsAt i &&& pageWriteOrg ≠ 0
  | _ => True

/-- The end of a host page as `page_unprotect` computes it: in the last host page it is zero. -/
theorem hostEnd_toNat (cfg : Config) (a : TargetUlong) :
    ((a &&& cfg.hostPageMask) + ofNat 32 cfg.hostPageSize).toNat =
      ((a &&& cfg.hostPageMask).toNat + cfg.hostPageSize) % 2 ^ 32 := by
  rw [toNat_add, toNat_ofNat, Nat.add_mod_mod]

theorem protected_pageUnprotect {address : TargetUlong} (hinv : Inv cfg s none lists) (h : Protected s)
    (hok : s.Unaffected cfg (.unprotect address)) (hrun : s.pageUnprotect cfg address = some s') :
    Protected s' ∧ ∀ i, s'.flagsAt i &&& pageWriteOrg = s.flagsAt i &&& pageWriteOrg := by
  simp only [pageUnprotect] at hrun
  split at hrun
  · cases hrun
    exact ⟨h, fun _ => rfl⟩
  · rename_i p hfind
    unfold pageFind at hfind
    split_ifs at hfind with hl1
    cases hfind
    split at hrun
    swap
    · cases hrun
      exact ⟨h, fun _ => rfl⟩
    rename_i hflags
    have hget : s.pageGetFlags address = s.pageFlags (pageIndex address) := if_pos hl1
    obtain ⟨halign, halign'⟩ := hostPage_align cfg address
    have hend := hostEnd_toNat cfg address
    refine protected_unprotectLoop (by rw [hend]; omega) halign (fun i hlow hhigh => ?_) hinv h hrun
    by_cases hlast : LastHostPage cfg address
    · rw [hend, hlast, Nat.mod_self] at hhigh
      exact absurd hhigh (Nat.not_lt_zero _)
    · have hnext := hostPage_end_le hlast
      rw [hend, Nat.mod_eq_of_lt (by omega)] at hhigh
      exact hok (hget ▸ hflags.1) (hget ▸ hflags.2) hlast i ⟨hlow, hhigh⟩

theorem targetPageAlign_sub_mod (start last : TargetUlong) :
    (Store.targetPageAlign last - (start &&& targetPageMask)).toNat % 4096 = 0 := by
  have h : ∀ a : TargetUlong, (a &&& targetPageMask).toNat % 4096 = 0 := fun a => by
    rw [and_targetPageMask_toNat]
    exact Nat.mul_mod_left ..
  have hlast := h (last + ofNat 32 (targetPageSize - 1))
  have hstart := h start
  rw [targetPageAlign, BitVec.toNat_sub]
  generalize ((last + ofNat 32 (targetPageSize - 1)) &&& targetPageMask).toNat = x at *
  omega

variable {call : StoreCall}

/-- What one call does to the flags. -/
theorem protected_step (hinv : Inv cfg s none lists) (h : Protected s)
    (hok : s.Unaffected cfg call) (hstep : StoreStep cfg s call s') :
    Protected s' ∧
      (∀ i, ¬ call.Assigns i → s'.flagsAt i &&& pageWriteOrg = s.flagsAt i &&& pageWriteOrg) ∧
      (call.Links → ∀ i, Weakened cfg i (s.flagsAt i) (s'.flagsAt i)) := by
  -- most calls leave the flags alone
  have hsame : s'.pageFlags = s.pageFlags → s'.l1Map = s.l1Map → ∀ i, ¬ call.Assigns i →
      s'.flagsAt i &&& pageWriteOrg = s.flagsAt i &&& pageWriteOrg := fun hflags hl1 i _ => by
    rw [flagsAt_congr hflags hl1]
  have hkeep : Kept s s' → ¬ call.Links → Protected s' ∧
      (∀ i, ¬ call.Assigns i → s'.flagsAt i &&& pageWriteOrg = s.flagsAt i &&& pageWriteOrg) ∧
      (call.Links → ∀ i, Weakened cfg i (s.flagsAt i) (s'.flagsAt i)) := fun hkept hlinks =>
    ⟨h.of_kept hkept, hsame hkept.pageFlags hkept.l1Map, fun hl => absurd hl hlinks⟩
  cases call with
  | genCode key cflags attempts =>
    obtain ⟨⟨t, s1⟩, hgen, rfl⟩ := map_eq_some_iff.mp hstep
    obtain ⟨h', hweak⟩ := protected_generation hinv h (tbGenCode_spec hinv hgen) hok
    exact ⟨h', fun i _ => (hweak i).writeOrg, fun _ => hweak⟩
  | findFast cpu key lastTb tbExit cflags attempts =>
    obtain ⟨-, hstep⟩ := ite_none_right_eq_some.mp hstep
    obtain ⟨⟨t, s1⟩, hfind, rfl⟩ := map_eq_some_iff.mp hstep
    obtain ⟨h', hweak⟩ := protected_findFast hinv h hok hfind
    exact ⟨h', fun i _ => (hweak i).writeOrg, fun _ => hweak⟩
  | addJump tb n tbNext =>
    obtain ⟨-, hstep⟩ := ite_none_right_eq_some.mp hstep
    cases hstep
    exact ⟨⟨h.noWrite, h.writeOrg⟩, fun _ _ => rfl, False.elim⟩
  | invalidate tb =>
    obtain ⟨hcall, hstep⟩ := ite_none_right_eq_some.mp hstep
    obtain ⟨s1, hrun, -, hkept, -⟩ := tbPhysInvalidate_spec hinv hcall skipsPage_none
    cases hrun.symm.trans hstep
    exact hkeep hkept id
  | invalidatePage addr =>
    obtain ⟨s1, lists1, hrun, -, hkept, -⟩ := tbInvalidatePhysPage_spec hinv addr
    cases hrun.symm.trans hstep
    exact hkeep hkept id
  | invalidateRange start last =>
    obtain ⟨lists1, -, hkept⟩ := tbInvalidatePhysRange_inv hinv hstep
    exact hkeep hkept id
  | free tb =>
    simp only [StoreStep, exec, tbFree] at hstep
    split at hstep
    · cases hstep
      split
      · exact ⟨⟨h.noWrite, h.writeOrg⟩, fun _ _ => rfl, False.elim⟩
      · exact ⟨h, fun _ _ => rfl, False.elim⟩
    · cases hstep
  | flush =>
    obtain ⟨s1, hrun, -, hflushed⟩ := tbFlush_spec hinv.flushable
    cases hrun.symm.trans hstep
    refine ⟨⟨fun t ht => ?_, fun i => ?_⟩, hsame hflushed.pageFlags hflushed.l1Map, False.elim⟩
    · exact absurd (hflushed.live ▸ ht) (notMem_empty t)
    · rw [flagsAt_congr hflushed.pageFlags hflushed.l1Map]
      exact h.writeOrg i
  | setFlags start last flags =>
    simp only [StoreStep, exec, pageSetFlags] at hstep
    split at hstep
    swap
    · cases hstep
    have horg : ∀ flags' : BitVec 32, flags' = (if flags &&& pageWrite ≠ 0 then
        flags ||| pageWriteOrg else flags) → flags' &&& pageWrite ≠ 0 →
        flags' &&& pageWriteOrg ≠ 0 := by
      rintro _ rfl hwrite
      split
      · exact or_and_self_ne_zero (by decide) flags
      · rename_i hread
        rw [if_neg hread] at hwrite
        exact absurd hwrite hread
    obtain ⟨h', hrest⟩ := protected_setFlagsLoop (horg _ rfl) (targetPageAlign_sub_mod start last)
      hinv h hstep
    exact ⟨h', fun i hi => by rw [hrest i hi], False.elim⟩
  | unprotect address =>
    obtain ⟨h', hsame'⟩ := protected_pageUnprotect hinv h hok hstep
    exact ⟨h', fun i _ => hsame' i, False.elim⟩

/-- What holds in every state of a run: the store is consistent and protected, and the pages that
lost write access to a block were writable for the guest and lie before the last host page. -/
structure Tracked.Sound (cfg : Config) (x : Tracked host) : Prop where
  inv : ∃ lists, Inv cfg x.store none lists
  protect : Protected x.store
  lost : ∀ i ∈ x.lost, x.store.flagsAt i &&& pageWriteOrg ≠ 0 ∧ ¬ InLastHostPage cfg i ∧
    x.store.flagsAt i &&& pageWrite = 0

theorem Tracked.Sound.step {x y : Tracked host} (h : x.Sound cfg)
    (hok : x.store.Unaffected cfg call) (hstep : TrackedStep cfg x call y) : y.Sound cfg := by
  obtain ⟨s', hstore, rfl⟩ := hstep
  obtain ⟨lists, hinv⟩ := h.inv
  obtain ⟨hprotect, horg, hweak⟩ := protected_step hinv h.protect hok hstore
  refine ⟨inv_step hinv hstore, hprotect, fun i hi => ?_⟩
  obtain ⟨hbefore, hafter, hassigns⟩ := hi
  change s'.flagsAt i &&& pageWriteOrg ≠ 0 ∧ _
  rw [horg i hassigns]
  rcases hbefore with hold | ⟨hlinks, hwrite⟩
  · exact ⟨(h.lost i hold).1, (h.lost i hold).2.1, hafter⟩
  · refine ⟨h.protect.writeOrg i hwrite, ?_, hafter⟩
    rcases hweak hlinks i with heq | ⟨hlast, -⟩
    · exact absurd (heq ▸ hafter) hwrite
    · exact hlast

theorem Inv.exists_onPage (h : Inv cfg s none lists) (hlink : s.pageLink (.firstTb i) ≠ none) :
    ∃ t ∈ s.live, ∃ n, (s.tbs t).OnPage n i := by
  have hhead := (h.pages.listOf i).head
  cases hl : lists i with
  | nil =>
    rw [hl] at hhead
    exact absurd hhead hlink
  | cons x l =>
    have hx : x ∈ lists i := by rw [hl]; exact List.mem_cons_self
    have hlive := h.pages.member i (by simp) x hx
    exact ⟨x.1, hlive, (h.onPage_iff hlive i).mpr ⟨x, hx, rfl⟩⟩

/-- When all guest pages of the host page have descriptors, the loop ends. -/
theorem unprotectLoop_ends (hend : hostEnd.toNat % 4096 = 0) (haddr : addr.toNat % 4096 = 0)
    (hpages : ∀ i : PageIndex, addr.toNat ≤ i.toNat * 4096 → i.toNat * 4096 < hostEnd.toNat →
      s.l1Map (Store.leafOf i) = true) (hle : addr.toNat ≤ hostEnd.toNat)
    (hfuel : hostEnd.toNat < addr.toNat + fuel * 4096) (hinv : Inv cfg s none lists) :
    ∃ s', Store.unprotectLoop hostEnd fuel addr s = some s' := by
  induction fuel generalizing s lists addr with
  | zero => omega
  | succ fuel ih =>
    unfold unprotectLoop
    by_cases hlt : addr.toNat < hostEnd.toNat
    · have hl1 : s.l1Map (leafOf (pageIndex addr)) = true := by
        refine hpages _ ?_ ?_ <;> rw [pageIndex_toNat] <;> omega
      obtain ⟨s1, lists1, hrun1, hinv1, -, hl1', -⟩ := unprotectPage_spec hinv hl1
      have hnext := @toNat_add_pageSize addr (by omega)
      obtain ⟨s', hrun⟩ := ih (by rw [hnext]; omega) (fun i hlow hhigh => by
        rw [hl1']
        rw [hnext] at hlow
        exact hpages i (by omega) hhigh) (by rw [hnext]; omega) (by rw [hnext]; omega) hinv1
      refine ⟨s', ?_⟩
      rw [if_pos (show addr < hostEnd from hlt), pageFind, if_pos hl1]
      exact bind_eq_some_iff.mpr ⟨_, rfl, bind_eq_some_iff.mpr ⟨s1, hrun1, hrun⟩⟩
    · exact ⟨s, if_neg (show ¬ addr < hostEnd from hlt)⟩

theorem leafOf_of_inHostPage (hbits : cfg.hostPageBits ≤ 22) (h : InHostPage cfg a i) :
    Store.leafOf i = Store.leafOf (pageIndex a) := by
  obtain ⟨m, hm⟩ : cfg.hostPageSize ∣ 4194304 := Nat.pow_dvd_pow 2 hbits
  have hleaf : ∀ j, InHostPage cfg a j → j.toNat / 1024 = a.toNat / cfg.hostPageSize / m := by
    rintro j ⟨hlow, hhigh⟩
    rw [and_hostPageMask_toNat] at hlow hhigh
    have hdiv : j.toNat * 4096 / cfg.hostPageSize = a.toNat / cfg.hostPageSize :=
      Nat.div_eq_of_lt_le hlow (by rw [Nat.add_mul, Nat.one_mul]; exact hhigh)
    rw [← hdiv, Nat.div_div_eq_div_mul, ← hm]
    omega
  apply BitVec.eq_of_toNat_eq
  simp only [leafOf, BitVec.extractLsb'_toNat, Nat.shiftRight_eq_div_pow]
  rw [show (2 : Nat) ^ 10 = 1024 from rfl, hleaf i h, hleaf _ (inHostPage_self cfg a)]

/-- `page_unprotect` gives write access back. -/
theorem pageUnprotect_gives (hinv : Inv cfg s none lists)
    (hpage : cfg.hostPageBits ≤ 22 ∨ s.Unaffected cfg (.unprotect a))
    (horg : s.pageGetFlags a &&& pageWriteOrg ≠ 0) (hread : s.pageGetFlags a &&& pageWrite = 0)
    (hlast : ¬ InLastHostPage cfg (pageIndex a)) :
    ∃ s', s.pageUnprotect cfg a = some s' ∧ s'.pageGetFlags a &&& pageWrite ≠ 0 := by
  have hl1 : s.l1Map (leafOf (pageIndex a)) = true := by
    by_contra hfree
    rw [pageGetFlags, flagsAt, if_neg hfree] at horg
    exact horg zero_and
  have hself := inHostPage_self cfg a
  have hlast' : ¬ LastHostPage cfg a := fun h => hlast (by
    rw [LastHostPage] at h
    rw [InLastHostPage, ← h]
    exact Nat.add_le_add_right hself.1 _)
  have hmap : ∀ i, InHostPage cfg a i → s.l1Map (leafOf i) = true := by
    intro i hi
    rcases hpage with hbits | hok
    · rw [leafOf_of_inHostPage hbits hi]
      exact hl1
    · by_contra hfree
      have hflags := hok horg hread hlast' i hi
      rw [flagsAt, if_neg hfree] at hflags
      exact hflags zero_and
  have hget : s.pageGetFlags a = s.pageFlags (pageIndex a) := if_pos hl1
  rw [hget] at horg hread
  have hnext := hostPage_end_le hlast'
  obtain ⟨halign, halign'⟩ := hostPage_align cfg a
  have hend := hostEnd_toNat cfg a
  rw [Nat.mod_eq_of_lt (by omega)] at hend
  have hfuel : 2 ^ 32 ≤ pageLoopBound * 4096 := by decide
  obtain ⟨s', hrun⟩ := unprotectLoop_ends (hend ▸ halign') halign (fun i hlow hhigh =>
      hmap i ⟨hlow, hend ▸ hhigh⟩) (by omega) (show _ < _ + pageLoopBound * 4096 by omega) hinv
  obtain ⟨-, -, -, -, hpages⟩ := unprotectLoop_spec hinv hrun
  have hflags := ((hpages (hend ▸ halign') halign (pageIndex a)).resolve_right fun hout =>
    hout.1 ⟨hself.1, hend ▸ hself.2⟩).2.2.2.1
  refine ⟨s', ?_, by rw [pageGetFlags, hflags]; exact or_and_self_ne_zero (by decide) _⟩
  simp only [pageUnprotect, pageFind]
  rw [if_pos hl1]
  simp only
  rw [if_pos ⟨horg, hread⟩]
  exact hrun

theorem sound_initial {s0 : Store host} (h : s0.Initial cfg) : Tracked.Sound cfg ⟨s0, ∅⟩ := by
  have hflags : ∀ i, s0.flagsAt i = 0 := fun i => by
    rw [flagsAt, h.leaves]
    rfl
  refine ⟨⟨_, inv_initial h⟩, ⟨fun t ht => ?_, fun i hi => ?_⟩, fun i hi => absurd hi ?_⟩
  · exact absurd (h.live ▸ ht) (notMem_empty t)
  · exact absurd (by rw [hflags]; exact zero_and) hi
  · exact Set.notMem_empty i

/-- Code that is translated cannot be modified unnoticed, in every run whose calls link no block on
a writable page of the last host page and unprotect no page that shares its host page with one the
guest may not write: no page with a block is writable, and one that lost write access to a block
keeps `PAGE_WRITE_ORG`, with which `page_unprotect` makes it writable again. -/
theorem code_pages_protected {s₀ : Store host} {calls : List StoreCall} {x : Tracked host}
    (hinit : s₀.Initial cfg)
    (hrun : Run (fun x call y => x.store.Unaffected cfg call ∧ TrackedStep cfg x call y) ⟨s₀, ∅⟩ calls x) :
    (∀ i, x.store.pageLink (.firstTb i) ≠ none → x.store.flagsAt i &&& pageWrite = 0) ∧
      (∀ i ∈ x.lost, x.store.flagsAt i &&& pageWriteOrg ≠ 0) ∧
      (∀ a, cfg.hostPageBits ≤ 22 ∨ x.store.Unaffected cfg (.unprotect a) → pageIndex a ∈ x.lost → ∃ s',
        x.store.pageUnprotect cfg a = some s' ∧ s'.pageGetFlags a &&& pageWrite ≠ 0) := by
  have h : x.Sound cfg := hrun.invariant (Tracked.Sound cfg)
    (fun _ _ _ h hstep => h.step hstep.1 hstep.2) (sound_initial hinit)
  obtain ⟨lists, hinv⟩ := h.inv
  refine ⟨fun i hlink => ?_, fun i hi => (h.lost i hi).1, fun a hpage ha => ?_⟩
  · obtain ⟨t, ht, n, hon⟩ := hinv.exists_onPage hlink
    exact h.protect.noWrite t ht n i hon
  · obtain ⟨horg, hlast, hread⟩ := h.lost _ ha
    exact pageUnprotect_gives hinv hpage horg hread hlast

def shortBlock (pc : TargetUlong) : StoreCall :=
  .genCode ⟨pc, 0, 0⟩ 0 [⟨4, fun _ => none, 40, 8, armWord_le_page, smallCode_pos⟩]

theorem code_pages_protected_one_page : ∃ x : Tracked .bits32,
    Run (fun x call y => x.store.Unaffected smallConfig call ∧ TrackedStep smallConfig x call y)
      ⟨emptyStore smallConfig, ∅⟩ [.setFlags 0x1000 0x2000 3, shortBlock 0x1000] x ∧
    x.store.pageLink (.firstTb 1) ≠ none ∧ 1 ∈ x.lost ∧
    x.store.flagsAt 1 &&& pageWrite = 0 ∧ x.store.flagsAt 1 &&& pageWriteOrg ≠ 0 := by
  obtain ⟨s₁, hs₁⟩ : ∃ s₁, (emptyStore smallConfig).exec smallConfig (.setFlags 0x1000 0x2000 3) =
      some s₁ := ⟨_, rfl⟩
  obtain ⟨s₂, hs₂⟩ : ∃ s₂, s₁.exec smallConfig (shortBlock 0x1000) = some s₂ := by
    cases hs₁
    exact ⟨_, rfl⟩
  obtain ⟨x, hx⟩ : ∃ x, x = ((⟨emptyStore smallConfig, ∅⟩ : Tracked .bits32).after
    (.setFlags 0x1000 0x2000 3) s₁).after (shortBlock 0x1000) s₂ := ⟨_, rfl⟩
  have hrun : Run (fun x call y => x.store.Unaffected smallConfig call ∧
      TrackedStep smallConfig x call y) ⟨emptyStore smallConfig, ∅⟩
      [.setFlags 0x1000 0x2000 3, shortBlock 0x1000] x := by
    refine Run.cons ⟨trivial, s₁, hs₁, rfl⟩ (Run.cons ⟨fun g hg => ?_, s₂, hs₂, hx⟩ (Run.nil _))
    cases List.mem_singleton.mp hg
    exact ⟨fun h => absurd h (by unfold LastHostPage; decide),
      fun h => absurd h (by unfold LastHostPage; decide)⟩
  obtain ⟨hwrite, horg, -⟩ := code_pages_protected (emptyStore_initial smallConfig) hrun
  have hpage : x.store.pageLink (.firstTb 1) ≠ none ∧ 1 ∈ x.lost := by
    cases hs₁
    cases hs₂
    subst hx
    exact ⟨by decide, Or.inr ⟨trivial, by decide⟩, by decide, id⟩
  exact ⟨x, hrun, hpage.1, hpage.2, hwrite 1 hpage.1, horg 1 hpage.2⟩

def wideConfig : Config := { smallConfig with
  hostPageBits := 13
  pageBits_le := by decide
  pageBits_lt := by decide }

def interceptBlock (pc : TargetUlong) : StoreCall :=
  .genCode ⟨pc, 0, 0⟩ 0 [⟨0, fun _ => none, 40, 8, Nat.zero_le _, smallCode_pos⟩]

def Tracked.execAll (cfg : Config) : Tracked host → List StoreCall → Option (Tracked host)
  | x, [] => some x
  | x, call :: calls => (x.store.exec cfg call).bind fun s' => (x.after call s').execAll cfg calls

theorem run_of_trackedAll {calls : List StoreCall} {x y : Tracked host}
    (h : x.execAll cfg calls = some y) : Run (TrackedStep cfg) x calls y := by
  induction calls generalizing x with
  | nil =>
    cases h
    exact Run.nil _
  | cons call calls ih =>
    obtain ⟨s', hs', hrest⟩ := bind_eq_some_iff.mp h
    exact Run.cons ⟨s', hs', rfl⟩ (ih hrest)

/-- In the last page the loop of `tb_alloc_page` does nothing on a 32-bit host, so a page with a
block stays writable. And `page_unprotect` makes a page writable that shares the host page with the
one the guest writes to; when a block is linked there, it loses write access without
`PAGE_WRITE_ORG`. -/
theorem code_page_stays_writable :
    (∃ x : Tracked .bits32, Run (TrackedStep smallConfig) ⟨emptyStore smallConfig, ∅⟩
      [.setFlags 0xfffff000 0xffffffff 3, interceptBlock 0xfffff004] x ∧
      x.store.pageLink (.firstTb 0xfffff) ≠ none ∧
      x.store.flagsAt 0xfffff &&& pageWrite ≠ 0) ∧
    ∃ x : Tracked .bits32, Run (TrackedStep wideConfig) ⟨emptyStore wideConfig, ∅⟩
      [.setFlags 0x2000 0x3000 3, .setFlags 0x3000 0x4000 1, shortBlock 0x2000, .unprotect 0x2000,
        shortBlock 0x3000] x ∧
      3 ∈ x.lost ∧ x.store.flagsAt 3 &&& pageWriteOrg = 0 := by
  constructor
  · refine ⟨_, run_of_trackedAll rfl, ?_⟩
    exact ⟨by decide, by decide⟩
  · refine ⟨_, run_of_trackedAll rfl, ?_⟩
    exact ⟨⟨Or.inr ⟨trivial, by decide⟩, by decide, id⟩, by decide⟩

end TcgArm.Tb
