import TcgArm.TbStoreGen

/-! Runs of the operations on the block store, made within the callers' rules: the consistency of
the store holds in every state they reach. -/

namespace TcgArm.Tb

open BitVec FieldChain Finset Function List Option Store Transition
open BitVec (ofNat)

variable {host : Host} {cfg : Config} {s s' : Store host} {lists : PageIndex → List (Nat × Fin 2)}

theorem Inv.of_jumps {jumps : TbJump.JumpLists} (h : Inv cfg s none lists)
    (hnb : jumps.nbTbs = s.nbTbs) (hjumps : ∃ jumpLists, TbJump.Sound jumps s.live jumpLists) :
    Inv cfg { s with jumps := jumps } none lists :=
  ⟨h.hash, h.pages.congr rfl hnb rfl rfl, hjumps, h.cache, h.areas.congr rfl hnb rfl⟩

theorem Inv.set_flushed (h : Inv cfg s none lists) (flushed : Nat → Bool) :
    Inv cfg { s with tbFlushed := flushed } none lists :=
  ⟨h.hash, h.pages.congr rfl rfl rfl rfl, h.jumps, h.cache, h.areas.congr rfl rfl rfl⟩

theorem nbTbs_tbAddJump (jumps : TbJump.JumpLists) (tb : Nat) (n : Fin 2) (tbNext : Nat) :
    (jumps.tbAddJump tb n tbNext).nbTbs = jumps.nbTbs := by
  unfold TbJump.JumpLists.tbAddJump
  split <;> rfl

theorem tbAddJump_inv {tb tbNext : Nat} {n : Fin 2} (h : Inv cfg s none lists)
    (htb : tb < s.nbTbs) (hnext : tbNext ∈ s.live) :
    Inv cfg { s with jumps := s.jumps.tbAddJump tb n tbNext } none lists := by
  obtain ⟨jumpLists, hjumps⟩ := h.jumps
  exact h.of_jumps (nbTbs_tbAddJump ..) (TbJump.sound_tbAddJump hjumps n htb hnext)

variable {cflags : BitVec 32} {key : Store.Key} {cpu tbExit t : Nat} {lastTb : Option Nat}
    {call : StoreCall}

theorem tbLookup_spec {attempts : List Store.Generated} (h : Inv cfg s none lists)
    (hrun : s.tbLookup cfg cpu key cflags attempts = some (t, s')) :
    (∃ lists', Inv cfg s' none lists') ∧ Found s s' key t := by
  unfold tbLookup at hrun
  split at hrun
  · rename_i hhit
    cases hrun
    obtain ⟨hlive, hkey⟩ := jmpCacheHit_spec h hhit
    exact ⟨⟨lists, h⟩, hlive, hkey, Or.inr ⟨le_rfl, rfl⟩⟩
  · exact tbFindSlow_spec h hrun

/-- A lookup changes the jump cache, after generating a block if it found none. -/
theorem tbLookup_cases {attempts : List Store.Generated}
    (hrun : s.tbLookup cfg cpu key cflags attempts = some (t, s')) :
    ∃ s1 cache, s' = { s1 with tbJmpCache := cache } ∧
      (s1 = s ∨ s.tbGenCode cfg key cflags attempts = some (t, s1)) := by
  unfold tbLookup at hrun
  split at hrun
  · cases hrun
    exact ⟨_, _, rfl, Or.inl rfl⟩
  · unfold tbFindSlow at hrun
    split at hrun
    · cases hrun
      exact ⟨s, _, rfl, Or.inl rfl⟩
    · obtain ⟨⟨u, s1⟩, hgen, heq⟩ := bind_eq_some_iff.mp hrun
      cases heq
      exact ⟨s1, _, rfl, Or.inr hgen⟩

theorem tbChain_inv (h : Inv cfg s none lists) (ht : t ∈ s.live)
    (hlast : ∀ last ∈ lastTb, s.tbFlushed cpu = true ∨ last < s.nbTbs)
    (hrun : s.tbChain cpu lastTb tbExit t = some s') :
    Inv cfg s' none lists ∧ s'.live = s.live ∧ s'.tbs = s.tbs := by
  have h1 := h.set_flushed (update s.tbFlushed cpu false)
  simp only [tbChain] at hrun
  split at hrun
  · cases hrun
    exact ⟨h1, rfl, rfl⟩
  · rename_i last hlastTb
    split at hlastTb
    · cases hlastTb
    · split at hrun
      · rename_i hnot _
        cases hrun
        have hlt : last < s.nbTbs := (hlast last hlastTb).resolve_left hnot
        exact ⟨tbAddJump_inv h1 hlt ht, rfl, rfl⟩
      · cases hrun

/-- No block comes, and at most some die. -/
structure SameBlocks (s s' : Store host) : Prop where
  nbTbs : s'.nbTbs = s.nbTbs
  tbs : s'.tbs = s.tbs
  codeGenPtr : s'.codeGenPtr = s.codeGenPtr
  live : s'.live ⊆ s.live

theorem SameBlocks.refl (s : Store host) : SameBlocks s s := ⟨rfl, rfl, rfl, Finset.Subset.refl _⟩

theorem tbChain_keeps (hrun : s.tbChain cpu lastTb tbExit t = some s') : SameBlocks s s' := by
  simp only [tbChain] at hrun
  split at hrun
  · cases hrun
    exact ⟨rfl, rfl, rfl, Finset.Subset.refl _⟩
  · split at hrun
    · cases hrun
      exact ⟨nbTbs_tbAddJump .., rfl, rfl, Finset.Subset.refl _⟩
    · cases hrun

/-- `tb_find_fast` from a block of the store, or from one that a flush has taken away. -/
theorem tbFindFast_spec {attempts : List Store.Generated} (h : Inv cfg s none lists)
    (hlast : ∀ last ∈ lastTb, s.tbFlushed cpu = true ∨ last < s.nbTbs)
    (hrun : s.tbFindFast cfg cpu key lastTb tbExit cflags attempts = some (t, s')) :
    (∃ lists', Inv cfg s' none lists') ∧ t ∈ s'.live ∧ Store.keyMatches key (s'.tbs t) = true := by
  obtain ⟨⟨u, s1⟩, hlookup, hrun⟩ := bind_eq_some_iff.mp hrun
  obtain ⟨s2, hchain, heq⟩ := bind_eq_some_iff.mp hrun
  cases heq
  obtain ⟨⟨lists1, h1⟩, hfound⟩ := tbLookup_spec h hlookup
  have hlast1 : ∀ last ∈ lastTb, s1.tbFlushed cpu = true ∨ last < s1.nbTbs := by
    intro last hmem
    rcases hfound.blocks with hall | ⟨hle, hflushed⟩
    · exact Or.inl (congrFun hall cpu)
    · rw [hflushed]
      exact (hlast last hmem).imp_right fun hlt => hlt.trans_le hle
  obtain ⟨h2, hlive, htbs⟩ := tbChain_inv h1 hfound.live hlast1 hchain
  rw [hlive, htbs]
  exact ⟨⟨lists1, h2⟩, hfound.live, hfound.key⟩

theorem setPageFlags_inv (h : Inv cfg s none lists) (i : PageIndex) (flags : BitVec 32) :
    Inv cfg (s.setPageFlags i flags) none lists :=
  ⟨h.hash, h.pages.congr rfl rfl rfl rfl, h.jumps, h.cache, h.areas.congr rfl rfl rfl⟩

theorem pageFindAlloc_inv (h : Inv cfg s none lists) (i : PageIndex) :
    Inv cfg (s.pageFindAlloc i) none lists := by
  obtain ⟨hlinked, -⟩ := WellLinked.pageFindAlloc ⟨h.pages.listOf, h.pages.allocated⟩ i
  have hpages := onlyPages_pageFindAlloc s i
  have hnb : (s.pageFindAlloc i).nbTbs = s.nbTbs := congrArg TbJump.JumpLists.nbTbs hpages.jumps
  obtain ⟨hlinked0, -, hnodup, honPage, hmember, hcomplete, -⟩ := h.pages
  obtain ⟨hbuffer, hptr, hinside, hordered⟩ := h.areas
  constructor
  case hash => rw [hpages.tbs, hpages.htable, hpages.live]; exact h.hash
  case pages =>
    constructor
    case linked => rwa [hpages.tbs, hnb]
    case listOf => exact hlinked.listOf
    case nodup => exact hnodup
    case onPage => rwa [hpages.tbs, hnb]
    case member => rwa [hpages.live]
    case complete => rwa [hpages.tbs, hpages.live]
    case allocated => exact hlinked.allocated
  case jumps => rw [hpages.jumps, hpages.live]; exact h.jumps
  case cache => rw [hpages.tbJmpCache, hpages.live, hpages.tbs]; exact h.cache
  case areas =>
    constructor
    · rwa [hpages.codeGenPtr]
    · rwa [hpages.codeGenPtr]
    · rwa [hpages.codeGenPtr, hpages.tbs, hnb]
    · rwa [hpages.tbs, hnb]

/-- No block comes, and jumps are changed only back into their own block. -/
structure Calm (s s' : Store host) : Prop extends SameBlocks s s' where
  tbFlushed : s'.tbFlushed = s.tbFlushed
  dest : ∀ u n, s'.jumps.dest u n = s.jumps.dest u n ∨ s'.jumps.dest u n = .reset

theorem Calm.refl (s : Store host) : Calm s s := ⟨.refl s, rfl, fun _ _ => Or.inl rfl⟩

theorem Calm.trans {s1 s2 s3 : Store host} (h : Calm s1 s2) (h' : Calm s2 s3) : Calm s1 s3 :=
  ⟨⟨h'.nbTbs.trans h.nbTbs, h'.tbs.trans h.tbs, h'.codeGenPtr.trans h.codeGenPtr,
    h'.live.trans h.live⟩, h'.tbFlushed.trans h.tbFlushed,
    fun u n => (h'.dest u n).elim (fun heq => heq ▸ h.dest u n) Or.inr⟩

theorem Kept.calm (h : Kept s s') : Calm s s' := ⟨⟨h.nbTbs, h.tbs, h.codeGenPtr, h.live⟩, h.tbFlushed, h.dest⟩

theorem OnlyPages.calm (h : OnlyPages s s') : Calm s s' :=
  ⟨⟨congrArg TbJump.JumpLists.nbTbs h.jumps, h.tbs, h.codeGenPtr, h.live.subset⟩, h.tbFlushed,
    fun _ _ => Or.inl (by rw [h.jumps])⟩

theorem calm_setPageFlags (s : Store host) (i : PageIndex) (flags : BitVec 32) :
    Calm s (s.setPageFlags i flags) :=
  ⟨⟨rfl, rfl, rfl, Finset.Subset.refl _⟩, rfl, fun _ _ => Or.inl rfl⟩

variable {addr : TargetUlong} {fuel : Nat} {j : PageIndex}

theorem toNat_add_pageSize {addr : TargetUlong} (h : addr.toNat + 4096 < 2 ^ 32) :
    (addr + ofNat 32 targetPageSize).toNat = addr.toNat + 4096 := by
  rw [toNat_add, show (ofNat 32 targetPageSize).toNat = 4096 by rfl]
  omega

theorem eq_pageIndex_iff {i : PageIndex} {addr : TargetUlong} (h : addr.toNat % 4096 = 0) :
    i = pageIndex addr ↔ i.toNat * 4096 = addr.toNat := by
  rw [← toNat_inj, pageIndex_toNat]
  omega

theorem flagsAt_setPageFlags (hj : s.l1Map (Store.leafOf j) = true) (flags : BitVec 32) (i : PageIndex) :
    (s.setPageFlags j flags).flagsAt i = if i = j then flags else s.flagsAt i := by
  simp only [flagsAt, setPageFlags, update_apply]
  by_cases hij : i = j
  · simp [hij, hj]
  · simp [hij]

theorem flagsAt_congr (hflags : s'.pageFlags = s.pageFlags) (hl1 : s'.l1Map = s.l1Map)
    (i : PageIndex) : s'.flagsAt i = s.flagsAt i := by
  rw [flagsAt, flagsAt, hflags, hl1]

theorem toNat_sub_pageSize {len : TargetUlong} (h : 4096 ≤ len.toNat) :
    (len - ofNat 32 targetPageSize).toNat = len.toNat - 4096 := by
  rw [toNat_sub, show (ofNat 32 targetPageSize).toNat = 4096 by rfl]
  omega

theorem flagsAt_pageFindAlloc (s : Store host) (j i : PageIndex) :
    (s.pageFindAlloc j).flagsAt i = s.flagsAt i := by
  unfold pageFindAlloc
  split
  · rfl
  · rename_i hfree
    simp only [flagsAt, update_apply]
    by_cases hleaf : leafOf i = leafOf j
    · simp [hleaf, hfree]
    · simp [hleaf]

theorem l1Map_pageFindAlloc (s : Store host) (j : PageIndex) :
    (s.pageFindAlloc j).l1Map (Store.leafOf j) = true := by
  unfold pageFindAlloc
  split
  · assumption
  · exact update_self ..

/-- One page gets new flags, after its blocks are invalidated if it becomes writable. -/
def Store.setFlagsPage (flags : BitVec 32) (addr : TargetUlong) (s : Store host) : Option (Store host) :=
  let p := pageIndex addr
  let s := s.pageFindAlloc p
  (if s.pageFlags p &&& pageWrite = 0 ∧ flags &&& pageWrite ≠ 0 ∧ s.pageLink (.firstTb p) ≠ none then
    s.tbInvalidatePhysPage addr else some s).map fun s => s.setPageFlags p flags

theorem setFlagsLoop_succ (flags : BitVec 32) (fuel : Nat) (addr len : TargetUlong) (s : Store host) :
    Store.setFlagsLoop flags (fuel + 1) addr len s = if len = 0 then some s else
      (s.setFlagsPage flags addr).bind (Store.setFlagsLoop flags fuel
        (addr + ofNat 32 targetPageSize) (len - ofNat 32 targetPageSize)) := by
  rw [setFlagsLoop, setFlagsPage, bind_map]
  rfl

theorem setFlagsPage_spec (h : Inv cfg s none lists) (flags : BitVec 32) (addr : TargetUlong) :
    ∃ s1 lists1, s.setFlagsPage flags addr = some s1 ∧ Inv cfg s1 none lists1 ∧ Calm s s1 ∧
      (∀ i, s1.flagsAt i = if i = pageIndex addr then flags else s.flagsAt i) ∧
      (flags &&& pageWrite ≠ 0 → ∀ t ∈ s1.live, ∀ n, (s.tbs t).OnPage n (pageIndex addr) →
        s.flagsAt (pageIndex addr) &&& pageWrite ≠ 0) := by
  have h1 := pageFindAlloc_inv h (pageIndex addr)
  have hpages := onlyPages_pageFindAlloc s (pageIndex addr)
  have hl1 := l1Map_pageFindAlloc s (pageIndex addr)
  obtain ⟨s2, lists2, hstep, h2, hkept, hempty⟩ : ∃ s2 lists2,
      (s.setFlagsPage flags addr = some (s2.setPageFlags (pageIndex addr) flags)) ∧
      Inv cfg s2 none lists2 ∧ Kept (s.pageFindAlloc (pageIndex addr)) s2 ∧
      (flags &&& pageWrite ≠ 0 → ∀ t ∈ s2.live, ∀ n, (s.tbs t).OnPage n (pageIndex addr) →
        s.flagsAt (pageIndex addr) &&& pageWrite ≠ 0) := by
    simp only [setFlagsPage]
    split
    · obtain ⟨s2, lists2, hrun, h2, hkept, hiff⟩ := tbInvalidatePhysPage_spec h1 addr
      exact ⟨s2, lists2, by rw [hrun]; rfl, h2, hkept,
        fun _ t ht n hon => absurd ⟨n, hpages.tbs ▸ hon⟩ ((hiff t).mp ht).2⟩
    · rename_i hcond
      refine ⟨_, lists, rfl, h1, Kept.refl _, fun hwrite t ht n hon hread => hcond ⟨?_, hwrite, ?_⟩⟩
      · rwa [← flagsAt_pageFindAlloc s (pageIndex addr), flagsAt, if_pos hl1] at hread
      · -- the block is on the list of the page
        have hmem := h1.pages.complete t ht n _ (hpages.tbs ▸ hon)
        rw [(h1.pages.listOf _).head]
        cases hl : lists (pageIndex addr) with
        | nil => simp [hl] at hmem
        | cons x l => simp [FieldChain.headValue]
  have hl12 : s2.l1Map (leafOf (pageIndex addr)) = true := by rw [hkept.l1Map, hl1]
  refine ⟨_, lists2, hstep, setPageFlags_inv h2 _ flags,
    (hpages.calm.trans hkept.calm).trans (calm_setPageFlags s2 _ flags), fun i => ?_, hempty⟩
  rw [flagsAt_setPageFlags hl12, flagsAt_congr hkept.pageFlags hkept.l1Map, flagsAt_pageFindAlloc]

theorem toNat_sub_pageIndex (i : PageIndex) (addr : TargetUlong) :
    (i - pageIndex addr).toNat = (2 ^ 20 - addr.toNat / 4096 + i.toNat) % 2 ^ 20 := by
  rw [toNat_sub, pageIndex_toNat]

theorem toNat_sub_nextPage (i : PageIndex) (addr : TargetUlong) :
    (i = pageIndex addr ∧ (i - pageIndex addr).toNat = 0 ∧
      (i - pageIndex (addr + ofNat 32 targetPageSize)).toNat = 2 ^ 20 - 1) ∨
    i ≠ pageIndex addr ∧ (i - pageIndex addr).toNat =
      (i - pageIndex (addr + ofNat 32 targetPageSize)).toNat + 1 := by
  have hi := i.isLt
  have haddr := addr.isLt
  rw [Ne, ← toNat_inj, toNat_sub_pageIndex, toNat_sub_pageIndex, pageIndex_toNat,
    toNat_add, show (ofNat 32 targetPageSize).toNat = 4096 by rfl]
  omega

/-- The loop gives the new flags to as many pages from `addr` on as `len` covers; a block stays on
such a page only if the page was writable before or is not now. -/
theorem setFlagsLoop_spec {flags : BitVec 32} {len : TargetUlong} (h : Inv cfg s none lists)
    (hrun : Store.setFlagsLoop flags fuel addr len s = some s') :
    ∃ lists', Inv cfg s' none lists' ∧ Calm s s' ∧ (len.toNat % 4096 = 0 → ∀ i : PageIndex,
      ((i - pageIndex addr).toNat * 4096 < len.toNat ∧ s'.flagsAt i = flags ∧
        (flags &&& pageWrite ≠ 0 → ∀ t ∈ s'.live, ∀ n, (s.tbs t).OnPage n i →
          s.flagsAt i &&& pageWrite ≠ 0)) ∨
      ¬ (i - pageIndex addr).toNat * 4096 < len.toNat ∧ s'.flagsAt i = s.flagsAt i) := by
  induction fuel generalizing s lists addr len with
  | zero => cases hrun
  | succ fuel ih =>
    rw [setFlagsLoop_succ] at hrun
    split_ifs at hrun with hzero
    · cases hrun
      exact ⟨lists, h, Calm.refl _, fun _ i => .inr ⟨by rw [hzero]; exact Nat.not_lt_zero _, rfl⟩⟩
    · obtain ⟨s1, hpage, htail⟩ := bind_eq_some_iff.mp hrun
      obtain ⟨s2, lists2, hpage', h2, hcalm, hflags, hempty⟩ := setFlagsPage_spec h flags addr
      cases hpage'.symm.trans hpage
      obtain ⟨lists', h', hcalm', hrest⟩ := ih h2 htail
      refine ⟨lists', h', hcalm.trans hcalm', fun hlen i => ?_⟩
      have hpos : 0 < len.toNat := Nat.pos_of_ne_zero fun h0 =>
        hzero (eq_of_toNat_eq (by simpa using h0))
      have hlen' := @toNat_sub_pageSize len (by omega)
      have hlt := len.isLt
      have hrest := hrest (by rw [hlen']; omega) i
      rw [hflags, hcalm.tbs, hlen'] at hrest
      rcases toNat_sub_nextPage i addr with ⟨hself, hfirst, hnext⟩ | ⟨hself, hnext⟩
      · rw [if_pos hself] at hrest
        obtain ⟨-, hi⟩ := hrest.resolve_left fun hin => by omega
        exact .inl ⟨by omega, hi, fun hw t ht n hon =>
          hself ▸ hempty hw t (hcalm'.live ht) n (hself ▸ hon)⟩
      · rw [if_neg hself] at hrest
        rw [hnext]
        have hshift : ∀ k, k * 4096 < len.toNat - 4096 ↔ (k + 1) * 4096 < len.toNat := by omega
        rwa [hshift] at hrest

/-- One guest page gets its write access back, and its blocks are invalidated. -/
theorem unprotectPage_spec (h : Inv cfg s none lists) (hl1 : s.l1Map (Store.leafOf (pageIndex addr)) = true) :
    ∃ s1 lists1, (s.setPageFlags (pageIndex addr)
        (s.pageFlags (pageIndex addr) ||| pageWrite)).tbInvalidatePhysPage addr = some s1 ∧
      Inv cfg s1 none lists1 ∧ Calm s s1 ∧ s1.l1Map = s.l1Map ∧ (∀ i, s1.flagsAt i =
        if i = pageIndex addr then s.flagsAt i ||| pageWrite else s.flagsAt i) ∧
      ∀ t ∈ s1.live, ∀ n, ¬ (s.tbs t).OnPage n (pageIndex addr) := by
  obtain ⟨s1, lists1, hrun, h1, hkept, hiff⟩ := tbInvalidatePhysPage_spec
    (setPageFlags_inv h (pageIndex addr) (s.pageFlags (pageIndex addr) ||| pageWrite)) addr
  refine ⟨s1, lists1, hrun, h1, (calm_setPageFlags s _ _).trans hkept.calm, hkept.l1Map, fun i => ?_,
    fun t ht n hon => ((hiff t).mp ht).2 ⟨n, hon⟩⟩
  rw [flagsAt_congr hkept.pageFlags hkept.l1Map, flagsAt_setPageFlags hl1]
  refine ite_congr rfl (fun hi => ?_) fun _ => rfl
  rw [hi, flagsAt, if_pos hl1]

/-- The loop gives write access back to the pages between `addr` and `hostEnd`, which all have
descriptors, and invalidates their blocks. -/
theorem unprotectLoop_spec {hostEnd : TargetUlong} (h : Inv cfg s none lists)
    (hrun : Store.unprotectLoop hostEnd fuel addr s = some s') :
    ∃ lists', Inv cfg s' none lists' ∧ Calm s s' ∧ s'.l1Map = s.l1Map ∧
      (hostEnd.toNat % 4096 = 0 → addr.toNat % 4096 = 0 → ∀ i : PageIndex,
        (addr.toNat ≤ i.toNat * 4096 ∧ i.toNat * 4096 < hostEnd.toNat ∧
          s.l1Map (Store.leafOf i) = true ∧ s'.flagsAt i = s.flagsAt i ||| pageWrite ∧
            ∀ t ∈ s'.live, ∀ n, ¬ (s.tbs t).OnPage n i) ∨
        ¬ (addr.toNat ≤ i.toNat * 4096 ∧ i.toNat * 4096 < hostEnd.toNat) ∧
          s'.flagsAt i = s.flagsAt i) := by
  induction fuel generalizing s lists addr with
  | zero => cases hrun
  | succ fuel ih =>
    unfold unprotectLoop at hrun
    split at hrun
    · rename_i hlt
      rw [lt_def] at hlt
      obtain ⟨p, hfind, hrun⟩ := bind_eq_some_iff.mp hrun
      obtain ⟨s1, hpage, htail⟩ := bind_eq_some_iff.mp hrun
      rw [pageFind] at hfind
      split_ifs at hfind with hl1
      cases hfind
      obtain ⟨s2, lists2, hpage', h2, hcalm, hl1', hflags, hempty⟩ := unprotectPage_spec h hl1
      cases hpage'.symm.trans hpage
      obtain ⟨lists', h', hcalm', hmap, hrest⟩ := ih h2 htail
      refine ⟨lists', h', hcalm.trans hcalm', hmap.trans hl1', fun hend haddr i => ?_⟩
      have hnext := @toNat_add_pageSize addr (by omega)
      have hindex := @eq_pageIndex_iff i addr haddr
      have hrest := hrest hend (by rw [hnext]; omega) i
      rw [hnext, hflags, hl1', hcalm.tbs] at hrest
      rcases hrest with ⟨hlow, hhigh, hleaf, hi, hempty'⟩ | ⟨hout, hi⟩ <;>
        by_cases hself : i.toNat * 4096 = addr.toNat
      · omega
      · rw [if_neg (mt hindex.mp hself)] at hi
        exact .inl ⟨by omega, hhigh, hleaf, hi, hempty'⟩
      · have hpage := hindex.mpr hself
        rw [if_pos hpage] at hi
        exact .inl ⟨by omega, by omega, hpage ▸ hl1, hi,
          fun t ht n => hpage ▸ hempty t (hcalm'.live ht) n⟩
      · rw [if_neg (mt hindex.mp hself)] at hi
        exact .inr ⟨by omega, hi⟩
    · rename_i hge
      rw [lt_def] at hge
      cases hrun
      exact ⟨lists, h, Calm.refl _, rfl, fun _ _ i => .inr ⟨by omega, rfl⟩⟩

/-- An operation on the store. -/
inductive StoreCall
  | genCode (key : Store.Key) (cflags : BitVec 32) (attempts : List Store.Generated)
  | findFast (cpu : Nat) (key : Store.Key) (lastTb : Option Nat) (tbExit : Nat)
      (cflags : BitVec 32) (attempts : List Store.Generated)
  | addJump (tb : Nat) (n : Fin 2) (tbNext : Nat)
  | invalidate (tb : Nat)
  | invalidatePage (addr : TargetUlong)
  | invalidateRange (start last : TargetUlong)
  | free (tb : Nat)
  | flush
  | setFlags (start last : TargetUlong) (flags : BitVec 32)
  | unprotect (address : TargetUlong)

/-- One operation, as the callers may use it: the block to chain from was generated after the last
flush or the CPU has yet to learn of that flush, the block to chain to is live, only a live block
is invalidated, and a block is released when it has been invalidated and not chained since. -/
def Store.exec (cfg : Config) (s : Store host) : StoreCall → Option (Store host)
  | .genCode key cflags attempts => (s.tbGenCode cfg key cflags attempts).map Prod.snd
  | .findFast cpu key lastTb tbExit cflags attempts =>
    if ∀ last ∈ lastTb, s.tbFlushed cpu = true ∨ last < s.nbTbs then
      (s.tbFindFast cfg cpu key lastTb tbExit cflags attempts).map Prod.snd
    else none
  | .addJump tb n tbNext =>
    if tb < s.nbTbs ∧ tbNext ∈ s.live then
      some { s with jumps := s.jumps.tbAddJump tb n tbNext }
    else none
  | .invalidate tb => if tb ∈ s.live then s.tbPhysInvalidate tb noPage else none
  | .invalidatePage addr => s.tbInvalidatePhysPage addr
  | .invalidateRange start last => Store.tbInvalidatePhysRange last pageLoopBound start s
  | .free tb =>
    if tb ∉ s.live ∧ ∀ n, s.jumps.link (.next tb n) = none then some (s.tbFree tb) else none
  | .flush => s.tbFlush cfg
  | .setFlags start last flags => s.pageSetFlags start last flags
  | .unprotect address => s.pageUnprotect cfg address

def StoreStep (cfg : Config) (s : Store host) (call : StoreCall) (s' : Store host) : Prop :=
  s.exec cfg call = some s'

def StoreCall.calm : StoreCall → Bool
  | .invalidate _ | .invalidatePage _ | .invalidateRange _ _ | .setFlags _ _ _ | .unprotect _ => true
  | .genCode .. | .findFast .. | .addJump .. | .free _ | .flush => false

theorem calm_step (hcall : call.calm = true) (h : Inv cfg s none lists)
    (hstep : StoreStep cfg s call s') : ∃ lists', Inv cfg s' none lists' ∧ Calm s s' := by
  cases call with
  | invalidate tb =>
    obtain ⟨hcall, hstep⟩ := ite_none_right_eq_some.mp hstep
    obtain ⟨s1, hrun, h1, hkept, -⟩ := tbPhysInvalidate_spec h hcall skipsPage_none
    cases hrun.symm.trans hstep
    exact ⟨_, h1, hkept.calm⟩
  | invalidatePage addr =>
    obtain ⟨s1, lists1, hrun, h1, hkept, -⟩ := tbInvalidatePhysPage_spec h addr
    cases hrun.symm.trans hstep
    exact ⟨lists1, h1, hkept.calm⟩
  | invalidateRange start last =>
    obtain ⟨lists1, h1, hkept⟩ := tbInvalidatePhysRange_inv h hstep
    exact ⟨lists1, h1, hkept.calm⟩
  | setFlags start last flags =>
    simp only [StoreStep, exec, pageSetFlags] at hstep
    split at hstep
    · obtain ⟨lists', h', hcalm, -⟩ := setFlagsLoop_spec h hstep
      exact ⟨lists', h', hcalm⟩
    · cases hstep
  | unprotect address =>
    simp only [StoreStep, exec, pageUnprotect] at hstep
    split at hstep
    · cases hstep
      exact ⟨lists, h, Calm.refl s⟩
    · split at hstep
      · obtain ⟨lists', h', hcalm, -⟩ := unprotectLoop_spec h hstep
        exact ⟨lists', h', hcalm⟩
      · cases hstep
        exact ⟨lists, h, Calm.refl s⟩
  | genCode | findFast | addJump | free | flush => cases hcall

theorem inv_step (h : Inv cfg s none lists) (hstep : StoreStep cfg s call s') :
    ∃ lists', Inv cfg s' none lists' := by
  cases call with
  | genCode key cflags attempts =>
    obtain ⟨⟨t, s1⟩, hgen, rfl⟩ := map_eq_some_iff.mp hstep
    exact (tbGenCode_spec h hgen).inv
  | findFast cpu key lastTb tbExit cflags attempts =>
    obtain ⟨hcall, hstep⟩ := ite_none_right_eq_some.mp hstep
    obtain ⟨⟨t, s1⟩, hfind, rfl⟩ := map_eq_some_iff.mp hstep
    exact (tbFindFast_spec h hcall hfind).1
  | addJump tb n tbNext =>
    obtain ⟨hcall, hstep⟩ := ite_none_right_eq_some.mp hstep
    cases hstep
    exact ⟨lists, tbAddJump_inv h hcall.1 hcall.2⟩
  | free tb =>
    obtain ⟨hcall, hstep⟩ := ite_none_right_eq_some.mp hstep
    cases hstep
    exact ⟨lists, tbFree_inv h hcall.1 hcall.2⟩
  | flush =>
    obtain ⟨s1, hrun, h1, -⟩ := tbFlush_spec h.flushable
    cases hrun.symm.trans hstep
    exact ⟨_, h1⟩
  | invalidate | invalidatePage | invalidateRange | setFlags | unprotect =>
    obtain ⟨lists', h', -⟩ := calm_step rfl h hstep
    exact ⟨lists', h'⟩

def StoreCall.attempts : StoreCall → List Store.Generated
  | .genCode _ _ attempts | .findFast _ _ _ _ _ attempts => attempts
  | .addJump .. | .invalidate _ | .invalidatePage _ | .invalidateRange _ _ | .free _ | .flush
  | .setFlags _ _ _ | .unprotect _ => []

def OldOrGenerated (s s' : Store host) (attempts : List Store.Generated) (t : Nat) : Prop :=
  t < s.nbTbs ∧ s'.tbs t = s.tbs t ∨
    ∃ g ∈ attempts, ∃ (s₁ : Store host) (key : Store.Key) (cflags : BitVec 32),
      s'.tbs t = generatedBlock s₁ key cflags g

theorem Generation.oldOrGenerated {attempts : List Store.Generated} {u : Nat}
    (h : Generation cfg s s' key cflags attempts t) (hu : u < s'.nbTbs) :
    OldOrGenerated s s' attempts u := by
  obtain ⟨-, s1, hs1, g, hg, hadded, -⟩ := h
  rcases hadded.lt_cases hu with rfl | ⟨hlt, hne⟩
  · exact Or.inr ⟨g, hg, s1, key, cflags, hadded.tbs_self⟩
  · rcases hs1 with rfl | hflushed
    · exact Or.inl ⟨hlt, hadded.tbs_of_ne hne⟩
    · rw [hflushed.nbTbs] at hlt
      exact absurd hlt (Nat.not_lt_zero u)

/-- What a step does to the array of blocks. -/
inductive BlocksStep (cfg : Config) (s s' : Store host) (attempts : List Store.Generated) : Prop
  | same (h : SameBlocks s s')
  | generated {s1 : Store host} {key : Store.Key} {cflags : BitVec 32} {t : Nat}
      (hgen : Generation cfg s s1 key cflags attempts t) (h : SameBlocks s1 s')
  | freed (tb : Nat) (h : s' = s.tbFree tb)
  | flushed (h : Flushed cfg s s')

theorem blocks_step (h : Inv cfg s none lists) (hstep : StoreStep cfg s call s') :
    BlocksStep cfg s s' call.attempts := by
  cases call with
  | genCode key cflags attempts =>
    obtain ⟨⟨t, s1⟩, hgen, rfl⟩ := map_eq_some_iff.mp hstep
    exact .generated (tbGenCode_spec h hgen) (.refl s1)
  | findFast cpu key lastTb tbExit cflags attempts =>
    obtain ⟨-, hstep⟩ := ite_none_right_eq_some.mp hstep
    obtain ⟨⟨t, s1⟩, hfind, rfl⟩ := map_eq_some_iff.mp hstep
    obtain ⟨⟨u, s2⟩, hlookup, hfind⟩ := bind_eq_some_iff.mp hfind
    obtain ⟨s3, hchain, heq⟩ := bind_eq_some_iff.mp hfind
    cases heq
    obtain ⟨s4, cache, rfl, rfl | hgen⟩ := tbLookup_cases hlookup
    · exact .same { tbChain_keeps hchain with }
    · exact .generated (tbGenCode_spec h hgen) { tbChain_keeps hchain with }
  | addJump tb n tbNext =>
    obtain ⟨-, hstep⟩ := ite_none_right_eq_some.mp hstep
    cases hstep
    exact .same ⟨nbTbs_tbAddJump s.jumps tb n tbNext, rfl, rfl, Finset.Subset.refl _⟩
  | free tb =>
    obtain ⟨-, hstep⟩ := ite_none_right_eq_some.mp hstep
    cases hstep
    exact .freed tb rfl
  | flush =>
    obtain ⟨s1, hrun, -, hflushed⟩ := tbFlush_spec h.flushable
    cases hrun.symm.trans hstep
    exact .flushed hflushed
  | invalidate | invalidatePage | invalidateRange | setFlags | unprotect =>
    obtain ⟨lists', -, hcalm⟩ := calm_step rfl h hstep
    exact .same hcalm.toSameBlocks

theorem oldOrGenerated_step (h : Inv cfg s none lists) (hstep : StoreStep cfg s call s') (ht : t < s'.nbTbs) :
    OldOrGenerated s s' call.attempts t := by
  cases blocks_step h hstep with
  | same hsame => exact Or.inl ⟨hsame.nbTbs ▸ ht, by rw [hsame.tbs]⟩
  | generated hgen hsame =>
    rw [hsame.nbTbs] at ht
    rw [OldOrGenerated, hsame.tbs]
    exact hgen.oldOrGenerated ht
  | freed tb hfree =>
    rw [tbFree] at hfree
    subst hfree
    split at ht
    · exact Or.inl ⟨Nat.lt_of_lt_pred ht, by rw [if_pos ‹_›]⟩
    · exact Or.inl ⟨ht, by rw [if_neg ‹_›]⟩
  | flushed hflushed =>
    rw [hflushed.nbTbs] at ht
    exact absurd ht (Nat.not_lt_zero t)

def Sized (s : Store host) : Prop := ∀ t < s.nbTbs, 1 ≤ (s.tbs t).size

def StoreCall.Sized (call : StoreCall) : Prop := ∀ g ∈ call.attempts, 1 ≤ g.size

theorem sized_step (h : Inv cfg s none lists) (hsized : Sized s) (hcall : call.Sized)
    (hstep : StoreStep cfg s call s') : Sized s' := by
  intro t ht
  rcases oldOrGenerated_step h hstep ht with ⟨hlt, heq⟩ | ⟨g, hg, s1, key, cflags, heq⟩
  · exact heq ▸ hsized t hlt
  · exact heq ▸ hcall g hg

variable {calls : List StoreCall} {s0 : Store host}

theorem inv_run (hrun : Run (StoreStep cfg) s0 calls s) (h : ∃ lists, Inv cfg s0 none lists) :
    ∃ lists, Inv cfg s none lists :=
  hrun.invariant (fun s => ∃ lists, Inv cfg s none lists) (fun _ _ _ ⟨_, h⟩ hstep => inv_step h hstep) h

theorem sized_run (hrun : Run (StoreStep cfg) s0 calls s) (h : ∃ lists, Inv cfg s0 none lists)
    (hsized : Sized s0) (hcalls : ∀ call ∈ calls, call.Sized) :
    Sized s := by
  induction hrun with
  | nil => exact hsized
  | cons head _ ih =>
    obtain ⟨lists, h⟩ := h
    exact ih (inv_step h head) (sized_step h hsized (hcalls _ mem_cons_self) head)
      fun call hcall => hcalls call (mem_cons_of_mem _ hcall)

theorem pageListFrom_of_chain {f : PageField} {l : List (Nat × Fin 2)}
    (h : Chain some entryField none s.pageLink f l) (hfuel : l.length < fuel) :
    s.pageListFrom fuel f = some l := by
  induction l generalizing f fuel with
  | nil =>
    obtain ⟨k, rfl⟩ := Nat.exists_eq_add_of_lt hfuel
    simp [pageListFrom, show s.pageLink f = _ from h]
  | cons x l ih =>
    obtain ⟨k, rfl⟩ : ∃ k, fuel = k + 1 := ⟨fuel - 1, by simp at hfuel; omega⟩
    have htail : s.pageListFrom k (.pageNext x.1 x.2) = some l := ih h.2 (by simpa using hfuel)
    simp [pageListFrom, show s.pageLink f = _ from h.1, htail]

/-- The blocks named by the hash table are the live ones, once each; so are those on the list of a
page that have a byte on it; the code and search areas of `tbs[]` follow each other inside the
buffer, each later one at a higher address; and the jump caches hold live blocks only. -/
structure StoreConsistent (cfg : Config) (s : Store host) : Prop where
  hashed_once : (s.htable.iter.map Prod.fst).Nodup
  hashed_iff : ∀ t, t ∈ s.htable.iter.map Prod.fst ↔ t ∈ s.live
  paged : ∀ i, ∃ l, s.pageList i = some l ∧ (l.map Prod.fst).Nodup ∧
    ∀ t, t ∈ l.map Prod.fst ↔ t ∈ s.live ∧
      ∃ k < (s.tbs t).size, pageIndex ((s.tbs t).pc + BitVec.ofNat 32 k) = i
  stored : ∀ t ∈ s.live, t < s.nbTbs
  inside : ∀ t < s.nbTbs, cfg.codeGenBuffer ≤ (s.tbs t).tcPtr ∧
    (s.tbs t).tcPtr + (s.tbs t).genCodeSize + (s.tbs t).searchSize ≤ cfg.codeGenBuffer + cfg.codeGenBufferSize
  increasing : ∀ t u, t < u → u < s.nbTbs → (s.tbs t).tcPtr < (s.tbs u).tcPtr
  disjoint : ∀ t u, t < u → u < s.nbTbs →
    (s.tbs t).tcPtr + (s.tbs t).genCodeSize + (s.tbs t).searchSize ≤ (s.tbs u).tcPtr
  cached : ∀ cpu i t, s.tbJmpCache cpu i = some t → t ∈ s.live

theorem Inv.nodup_fst (h : Inv cfg s none lists) (i : PageIndex) : ((lists i).map Prod.fst).Nodup := by
  refine (h.pages.nodup i).map_on fun x hx y hy hxy => ?_
  obtain ⟨t, n⟩ := x
  obtain ⟨u, k⟩ := y
  obtain rfl : t = u := hxy
  rw [h.pages.slot_unique hx hy]

theorem storeConsistent_of_inv (h : Inv cfg s none lists) (hsized : Sized s) : StoreConsistent cfg s := by
  have hiter : ∀ e, e ∈ s.htable.iter ↔ e ∈ s.live.image (hashEntry s.tbs) := h.hash.2
  constructor
  case hashed_once =>
    refine h.hash.1.nodup_iter.map_on fun e he e' he' heq => ?_
    obtain ⟨t, -, rfl⟩ := Finset.mem_image.mp ((hiter e).mp he)
    obtain ⟨u, -, rfl⟩ := Finset.mem_image.mp ((hiter e').mp he')
    exact congrArg (hashEntry s.tbs) heq
  case hashed_iff =>
    intro t
    rw [List.mem_map]
    constructor
    · rintro ⟨e, he, rfl⟩
      obtain ⟨u, hu, rfl⟩ := Finset.mem_image.mp ((hiter e).mp he)
      exact hu
    · exact fun ht => ⟨hashEntry s.tbs t, (hiter _).mpr (mem_image_of_mem _ ht), rfl⟩
  case paged =>
    intro i
    refine ⟨lists i, pageListFrom_of_chain (h.pages.listOf i) ?_, h.nodup_fst i, fun t => ?_⟩
    · exact Nat.lt_succ_of_le (h.pages.length_lists i)
    · rw [List.mem_map]
      constructor
      · rintro ⟨x, hx, rfl⟩
        have hlive := h.pages.member i (by simp) x hx
        refine ⟨hlive, ?_⟩
        have hlt := h.live_lt hlive
        rw [← (h.pages.linked x.1 hlt).onPage_iff_byte (hsized x.1 hlt), h.onPage_iff hlive]
        exact ⟨x, hx, rfl⟩
      · rintro ⟨hlive, hbyte⟩
        have hlt := h.live_lt hlive
        rwa [← (h.pages.linked t hlt).onPage_iff_byte (hsized t hlt), h.onPage_iff hlive] at hbyte
  case stored => exact fun t ht => h.live_lt ht
  case inside =>
    intro t ht
    obtain ⟨hbuffer, -, hend⟩ := h.areas.inside t ht
    have hhigh : cfg.codeGenHighwater ≤ cfg.codeGenBuffer + cfg.codeGenBufferSize :=
      Nat.add_le_add_left (Nat.sub_le _ _) _
    exact ⟨hbuffer, (hend.trans (min_le_right _ _)).trans hhigh⟩
  case increasing =>
    intro t u htu hu
    have hpos := (h.areas.inside t (htu.trans hu)).2.1
    have hord := h.areas.ordered t u htu hu
    omega
  case disjoint => exact h.areas.ordered
  case cached => exact fun cpu i t hcache => (h.cache cpu i t hcache).1

/-- The store after start-up. -/
structure Store.Initial (cfg : Config) (s : Store host) : Prop where
  nbTbs : s.nbTbs = 0
  live : s.live = ∅
  codeGenPtr : s.codeGenPtr = cfg.codeGenBuffer
  htable : s.htable = Qht.Table.init (BitVec.ofNat _ Store.codeGenHtableSize) true
  leaves : ∀ l, s.l1Map l = false
  pages : ∀ i, s.pageLink (.firstTb i) = none
  caches : ∀ cpu i, s.tbJmpCache cpu i = none

theorem inv_initial (h : s.Initial cfg) : Inv cfg s none fun _ => [] := by
  constructor
  case hash =>
    rw [h.htable, h.live, image_empty]
    exact Qht.abstracts_init _ _ _
  case pages =>
    refine ⟨fun t ht => ?_, h.pages, fun _ => nodup_nil, fun i x hx => ?_, fun i _ x hx => ?_,
      fun t ht => ?_, fun i hi => absurd rfl hi⟩
    · exact absurd (h.nbTbs ▸ ht) (Nat.not_lt_zero t)
    · exact absurd hx not_mem_nil
    · exact absurd hx not_mem_nil
    · exact absurd (h.live ▸ ht) (notMem_empty t)
  case jumps =>
    have hinitial : TbJump.ChainState.Initial ⟨s.jumps, s.live⟩ := ⟨h.nbTbs, h.live⟩
    exact ⟨_, TbJump.sound_initial hinitial⟩
  case cache =>
    intro cpu i t hcache
    rw [h.caches] at hcache
    cases hcache
  case areas =>
    refine ⟨h.codeGenPtr.ge, ?_, fun t ht => ?_, fun t u _ hu => ?_⟩
    · rw [h.codeGenPtr]
      exact (Nat.le_add_right _ _).trans (Nat.le_add_right _ _)
    · exact absurd (h.nbTbs ▸ ht) (Nat.not_lt_zero t)
    · exact absurd (h.nbTbs ▸ hu) (Nat.not_lt_zero u)

namespace Store

/-- What `tb_gen_code` sets in a block before the translation. -/
def startBlock (s : Store host) (key : Key) (cflags : BitVec 32) (tb : Nat) : Store host :=
  let desc :=
    { s.tbs tb with tcPtr := s.codeGenPtr, csBase := key.csBase, flags := key.flags, cflags := cflags }
  { s with tbs := update s.tbs tb desc }

/-- The attempts that pass the high water mark, before the translation that is abandoned. -/
def abandonLoop (cfg : Config) (key : Key) (cflags : BitVec 32) :
    List Generated → Nat × Store host → Option (Store host)
  | [], (tb, s) => some (s.startBlock key cflags tb)
  | g :: attempts, (_, s) =>
    if s.codeGenPtr + g.genCodeSize + g.searchSize ≤ cfg.codeGenHighwater then none
    else do
      let s ← s.tbFlush cfg
      abandonLoop cfg key cflags attempts (← s.tbAlloc cfg key.pc)

/-- `tb_gen_code` when a guest exception ends it in `gen_intermediate_code`: the block stays
allocated, and `code_gen_ptr` where it was. -/
def tbGenAbandoned (cfg : Config) (s : Store host) (key : Key) (cflags : BitVec 32)
    (attempts : List Generated) : Option (Store host) :=
  match s.tbAlloc cfg key.pc with
  | some start => abandonLoop cfg key cflags attempts start
  | none => do
    let s ← s.tbFlush cfg
    abandonLoop cfg key cflags attempts (← s.tbAlloc cfg key.pc)

end Store

/-- An operation that completes, or a `tb_gen_code` that does not. -/
inductive StoreEvent
  | call (call : StoreCall)
  | abandoned (key : Store.Key) (cflags : BitVec 32) (attempts : List Store.Generated)

def EventStep (cfg : Config) (s : Store host) (event : StoreEvent) (s' : Store host) : Prop :=
  match event with
  | .call call => StoreStep cfg s call s'
  | .abandoned key cflags attempts => s.tbGenAbandoned cfg key cflags attempts = some s'

/-- The operation completes, and any block it generates has a guest byte. -/
def StoreEvent.Regular : StoreEvent → Prop
  | .call call => call.Sized
  | .abandoned .. => False

theorem run_of_regular {events : List StoreEvent} (hrun : Run (EventStep cfg) s0 events s)
    (h : ∀ event ∈ events, event.Regular) :
    ∃ calls, Run (StoreStep cfg) s0 calls s ∧ ∀ call ∈ calls, call.Sized := by
  induction hrun with
  | nil => exact ⟨[], .nil _, by simp⟩
  | @cons _ _ _ event _ head _ ih =>
    obtain ⟨hevent, hevents⟩ := forall_mem_cons.mp h
    obtain ⟨calls, hcalls, hsized⟩ := ih hevents
    cases event with
    | call call => exact ⟨call :: calls, .cons head hcalls, forall_mem_cons.mpr ⟨hevent, hsized⟩⟩
    | abandoned => cases hevent

/-- In every state reached by operations within the callers' rules, of which all complete and none
generates a block without guest bytes, the store is consistent, and a live block can be invalidated,
which makes it the one block that is live no more. -/
theorem store_consistent {s₀ : Store host} {events : List StoreEvent} (hinit : s₀.Initial cfg)
    (hevents : Run (EventStep cfg) s₀ events s) (hregular : ∀ event ∈ events, event.Regular) :
    StoreConsistent cfg s ∧
      ∀ t ∈ s.live, ∃ s', StoreStep cfg s (.invalidate t) s' ∧ s'.live = s.live.erase t := by
  obtain ⟨calls, hrun, hsized⟩ := run_of_regular hevents hregular
  have h₀ : ∃ lists, Inv cfg s₀ none lists := ⟨_, inv_initial hinit⟩
  have hsized₀ : Sized s₀ := fun t ht => absurd (hinit.nbTbs ▸ ht) (Nat.not_lt_zero t)
  obtain ⟨lists, h⟩ := inv_run hrun h₀
  refine ⟨storeConsistent_of_inv h (sized_run hrun h₀ hsized₀ hsized), fun t ht => ?_⟩
  obtain ⟨s', hinvalidate, -, -, hlive⟩ := tbPhysInvalidate_spec h ht skipsPage_none
  refine ⟨s', ?_, hlive⟩
  rw [StoreStep, exec, if_pos ht]
  exact hinvalidate

def smallConfig : Config where
  codeGenBuffer := 4096
  codeGenBufferSize := 2048
  codeGenMaxBlocks := 2
  hostPageBits := 12
  maxBlocks_pos := by decide
  reserve_le := by decide
  pageBits_le := by decide
  pageBits_lt := by decide

def emptyStore (cfg : Config) : Store .bits32 where
  codeGenPtr := cfg.codeGenBuffer
  tbs := fun _ => ⟨0, 0, 0, 0, 0, 0, 0, 0, fun _ => 0, fun _ => none⟩
  jumps := ⟨0, fun _ => none, fun _ _ => .unset⟩
  htable := Qht.Table.init (BitVec.ofNat _ Store.codeGenHtableSize) true
  l1Map := fun _ => false
  pageLink := fun _ => none
  pageFlags := fun _ => 0
  tbJmpCache := fun _ _ => none
  tbFlushed := fun _ => false
  live := ∅

theorem emptyStore_initial (cfg : Config) : (emptyStore cfg).Initial cfg :=
  ⟨rfl, rfl, rfl, rfl, fun _ => rfl, fun _ => rfl, fun _ _ => rfl⟩

theorem armWord_le_page : 4 ≤ targetPageSize := by decide

theorem smallCode_pos : 0 < 40 := by decide

/-- A block of four bytes, two of them on the next page, for which the first attempt is too
long. -/
def crossingBlock : StoreCall :=
  .genCode ⟨0x1ffe, 0, 0⟩ 0
    [⟨4, fun _ => none, 2000, 8, armWord_le_page, by decide⟩,
      ⟨4, fun _ => none, 40, 8, armWord_le_page, smallCode_pos⟩]

theorem store_consistent_crossing : ∃ s, Run (EventStep smallConfig) (emptyStore smallConfig)
    [.call crossingBlock] s ∧ 0 ∈ s.live ∧ StoreConsistent smallConfig s := by
  obtain ⟨s, hs⟩ : ∃ s, (emptyStore smallConfig).exec smallConfig crossingBlock = some s := ⟨_, rfl⟩
  have hrun : Run (EventStep smallConfig) (emptyStore smallConfig) [.call crossingBlock] s :=
    Run.cons hs (Run.nil s)
  have hregular : ∀ event ∈ [StoreEvent.call crossingBlock], event.Regular := by
    simp [StoreEvent.Regular, StoreCall.Sized, crossingBlock, StoreCall.attempts]
  refine ⟨s, hrun, ?_, (store_consistent (emptyStore_initial smallConfig) hrun hregular).1⟩
  cases hs
  exact Finset.mem_insert_self ..

/-- The block that intercepts a jump to the kernel page has no guest bytes. -/
def kernelBlock : StoreCall :=
  .genCode ⟨0xffff0000, 0, 0⟩ 0 [⟨0, fun _ => none, 40, 8, Nat.zero_le _, smallCode_pos⟩]

/-- The kernel block is put on the list of the page before its own, where it has no byte. -/
theorem kernel_block_on_wrong_page : ∃ s, Run (StoreStep smallConfig) (emptyStore smallConfig)
    [kernelBlock] s ∧ 0 ∈ s.live ∧ s.pageList (pageIndex 0xfffef000) = some [(0, 1)] ∧
      ¬ StoreConsistent smallConfig s := by
  obtain ⟨s, hs⟩ : ∃ s, (emptyStore smallConfig).exec smallConfig kernelBlock = some s := ⟨_, rfl⟩
  have hrun : Run (StoreStep smallConfig) (emptyStore smallConfig) [kernelBlock] s := Run.cons hs (Run.nil s)
  obtain ⟨hlive, hlist, hsize⟩ : 0 ∈ s.live ∧
      s.pageList (pageIndex 0xfffef000) = some [(0, 1)] ∧ (s.tbs 0).size = 0 := by
    cases hs
    exact ⟨Finset.mem_insert_self .., rfl, rfl⟩
  refine ⟨s, hrun, hlive, hlist, fun h => ?_⟩
  obtain ⟨l, hl, -, hmem⟩ := h.paged (pageIndex 0xfffef000)
  cases hlist.symm.trans hl
  obtain ⟨-, k, hk, -⟩ := (hmem 0).mp (by simp)
  exact absurd (hsize ▸ hk) (Nat.not_lt_zero k)

end TcgArm.Tb
