import TcgArm.TbStoreInv

/-! Block generation, release, lookup and chaining keep the store consistent, through every retry
of code generation after a flush. -/

namespace TcgArm.Tb

open Finset Function List Nat Store

variable {host : Host} {cfg : Config} {s s0 s' : Store host}
  {lists : PageIndex → List (Nat × Fin 2)}

/-- The states differ in the page table only. -/
structure OnlyPages (s s' : Store host) : Prop where
  codeGenPtr : s'.codeGenPtr = s.codeGenPtr
  tbs : s'.tbs = s.tbs
  jumps : s'.jumps = s.jumps
  htable : s'.htable = s.htable
  tbJmpCache : s'.tbJmpCache = s.tbJmpCache
  tbFlushed : s'.tbFlushed = s.tbFlushed
  live : s'.live = s.live

theorem OnlyPages.refl (s : Store host) : OnlyPages s s := ⟨rfl, rfl, rfl, rfl, rfl, rfl, rfl⟩

theorem OnlyPages.trans {s1 s2 s3 : Store host} (h : OnlyPages s1 s2) (h' : OnlyPages s2 s3) :
    OnlyPages s1 s3 :=
  ⟨h'.codeGenPtr.trans h.codeGenPtr, h'.tbs.trans h.tbs, h'.jumps.trans h.jumps,
    h'.htable.trans h.htable, h'.tbJmpCache.trans h.tbJmpCache, h'.tbFlushed.trans h.tbFlushed,
    h'.live.trans h.live⟩

theorem protectPage_kept (s : Store host) (i : PageIndex) :
    OnlyPages s (s.protectPage i) ∧ (s.protectPage i).pageLink = s.pageLink ∧
      (s.protectPage i).l1Map = s.l1Map := by
  unfold protectPage
  split <;> exact ⟨⟨rfl, rfl, rfl, rfl, rfl, rfl, rfl⟩, rfl, rfl⟩

theorem protectLoop_kept {bound fuel : Nat} {addr : TargetUlong}
    (hrun : Store.protectLoop bound fuel addr s = some s') :
    OnlyPages s s' ∧ s'.pageLink = s.pageLink ∧ s'.l1Map = s.l1Map := by
  induction fuel generalizing s addr with
  | zero => cases hrun
  | succ fuel ih =>
    unfold protectLoop at hrun
    split at hrun
    · obtain ⟨hpage, hlink, hl1⟩ := protectPage_kept s (pageIndex addr)
      obtain ⟨hpages, hlink', hl1'⟩ := ih hrun
      exact ⟨hpage.trans hpages, hlink'.trans hlink, hl1'.trans hl1⟩
    · cases hrun
      exact ⟨OnlyPages.refl _, rfl, rfl⟩

theorem onlyPages_pageFindAlloc (s : Store host) (index : PageIndex) :
    OnlyPages s (s.pageFindAlloc index) := by
  unfold pageFindAlloc
  split <;> exact ⟨rfl, rfl, rfl, rfl, rfl, rfl, rfl⟩

/-- The block record with its `n`-th page set. -/
def TranslationBlock.setPageAddr (tb : TranslationBlock) (n : Fin 2) (pageAddr : TargetUlong) :
    TranslationBlock :=
  { tb with pageAddr := update tb.pageAddr n pageAddr }

def Store.setPageAddr (s : Store host) (t : Nat) (n : Fin 2) (pageAddr : TargetUlong) :
    Store host :=
  { s with tbs := update s.tbs t ((s.tbs t).setPageAddr n pageAddr) }

theorem onlyPages_linkEntry (s : Store host) (t : Nat) (n : Fin 2) (pageAddr : TargetUlong) :
    OnlyPages (s.setPageAddr t n pageAddr) (s.linkEntry t n pageAddr) := by
  have h := onlyPages_pageFindAlloc (s.setPageAddr t n pageAddr) (pageIndex pageAddr)
  exact ⟨h.codeGenPtr, h.tbs, h.jumps, h.htable, h.tbJmpCache, h.tbFlushed, h.live⟩

variable {t : Nat} {tb : TranslationBlock} {cflags : BitVec 32} {key : Store.Key}
    {s₁ : Store host} {attempts : List Store.Generated} {physPc page2 : TargetUlong} {n : Fin 2}
  {pageAddr : TargetUlong}

theorem tbAllocPage_kept (hrun : s.tbAllocPage cfg t n pageAddr = some s') :
    OnlyPages (s.setPageAddr t n pageAddr) s' ∧ s'.pageLink = (s.linkEntry t n pageAddr).pageLink ∧
      s'.l1Map = (s.linkEntry t n pageAddr).l1Map := by
  have hpages := onlyPages_linkEntry s t n pageAddr
  simp only [tbAllocPage] at hrun
  split at hrun
  · obtain ⟨hkept, hlink, hl1⟩ := protectLoop_kept hrun
    exact ⟨hpages.trans hkept, hlink, hl1⟩
  · cases hrun
    exact ⟨hpages, rfl, rfl⟩

/-- `tb_alloc_page` puts the block in front of the list of the page. -/
theorem tbAllocPage_spec
    (hrun : s.tbAllocPage cfg t n pageAddr = some s') (hlinked : WellLinked s lists)
    (hfresh : ∀ i, (t, n) ∉ lists i) :
    WellLinked s' (update lists (pageIndex pageAddr) ((t, n) :: lists (pageIndex pageAddr))) := by
  have hentry := hlinked.linkEntry hfresh pageAddr
  obtain ⟨-, hlink, hl1⟩ := tbAllocPage_kept hrun
  constructor
  · rw [hlink]
    exact hentry.listOf
  · rw [hl1]
    exact hentry.allocated

/-- The state in which `tb_link_page` has stored a block, apart from the page table. -/
def Store.linkBlock (s : Store host) (t : Nat) (physPc page2 : TargetUlong) : Store host :=
  { s with
    htable := (s.htable.insert t (tbHashFunc physPc (s.tbs t).pc (s.tbs t).flags)).2
    live := insert t s.live
    tbs := update s.tbs t (((s.tbs t).setPageAddr 0 (physPc &&& targetPageMask)).setPageAddr 1 page2) }

section

variable (hrun : s.tbLinkPage cfg t physPc page2 = some s')
include hrun

theorem tbLinkPage_kept :
    OnlyPages (s.linkBlock t physPc page2) s' := by
  simp only [tbLinkPage, Option.bind_eq_bind, Option.bind_eq_some_iff] at hrun
  obtain ⟨s1, hrun1, hrun2⟩ := hrun
  have hpages1 := (tbAllocPage_kept hrun1).1
  -- setting the second page address over the first one
  have hblock : OnlyPages (s.linkBlock t physPc page2) (s1.setPageAddr t 1 page2) := by
    refine ⟨hpages1.codeGenPtr, ?_, hpages1.jumps, hpages1.htable, hpages1.tbJmpCache,
      hpages1.tbFlushed, hpages1.live⟩
    simp only [setPageAddr, linkBlock, hpages1.tbs, update_self, update_idem]
  split at hrun2
  · exact hblock.trans (tbAllocPage_kept hrun2).1
  · rename_i heq
    cases hrun2
    rw [not_not] at heq
    exact heq ▸ hblock

/-- What `tb_link_page` does with a block that is on no page list. -/
theorem tbLinkPage_spec
    (hlinked : WellLinked s lists) (hnodup : ∀ i, (lists i).Nodup) (hfresh : ∀ i n, (t, n) ∉ lists i) :
    ∃ lists', WellLinked s' lists' ∧ (∀ i, (lists' i).Nodup) ∧
      ∀ i x, x ∈ lists' i ↔ x ∈ lists i ∨ (i = pageIndex physPc ∧ x = (t, 0)) ∨
        (page2 ≠ noPage ∧ i = pageIndex page2 ∧ x = (t, 1)) := by
  simp only [tbLinkPage, Option.bind_eq_bind, Option.bind_eq_some_iff] at hrun
  obtain ⟨s1, hrun1, hrun2⟩ := hrun
  have hlinked1 := tbAllocPage_spec hrun1
    (show WellLinked _ lists from ⟨hlinked.listOf, hlinked.allocated⟩) (fun i => hfresh i 0)
  have hpush : ∀ {l : PageIndex → List (Nat × Fin 2)} {p : PageIndex} {x : Nat × Fin 2},
      (∀ i, (l i).Nodup) → x ∉ l p → ∀ i, (update l p (x :: l p) i).Nodup := by
    intro l p x hl hx i
    rcases eq_or_ne i p with rfl | hi
    · rw [update_self]
      exact List.nodup_cons.mpr ⟨hx, hl i⟩
    · rw [update_of_ne hi]
      exact hl i
  have hnodup1 := hpush hnodup (hfresh (pageIndex (physPc &&& targetPageMask)) 0)
  have hfresh1 : ∀ i, (t, (1 : Fin 2)) ∉ update lists (pageIndex (physPc &&& targetPageMask))
      ((t, 0) :: lists (pageIndex (physPc &&& targetPageMask))) i := by
    intro i hmem
    rcases mem_update_cons.mp hmem with h | ⟨-, h⟩
    · exact hfresh i 1 h
    · simp at h
  have hmem1 : ∀ i x, x ∈ update lists (pageIndex (physPc &&& targetPageMask))
      ((t, 0) :: lists (pageIndex (physPc &&& targetPageMask))) i ↔
      x ∈ lists i ∨ (i = pageIndex physPc ∧ x = (t, 0)) := by
    intro i x
    rw [mem_update_cons, pageIndex_and_mask]
  split at hrun2
  · rename_i hne
    refine ⟨_, tbAllocPage_spec hrun2 hlinked1 hfresh1, hpush hnodup1 (hfresh1 _), fun i x => ?_⟩
    rw [mem_update_cons, hmem1]
    simp only [ne_eq, hne, not_false_eq_true, true_and, or_assoc]
  · rename_i heq
    cases hrun2
    rw [not_not] at heq
    refine ⟨_, ⟨hlinked1.listOf, hlinked1.allocated⟩, hnodup1, fun i x => ?_⟩
    rw [hmem1]
    simp [heq]

end

variable {pc : TargetUlong} {u : Nat}

theorem tbAlloc_eq_some (h : s0.tbAlloc cfg pc = some (t, s)) :
    t = s0.nbTbs ∧ s = { s0 with
        jumps := s0.jumps.tbAlloc
        tbs := update s0.tbs s0.nbTbs { s0.tbs s0.nbTbs with pc := pc, cflags := 0 } } := by
  simp only [tbAlloc] at h
  split_ifs at h
  cases h
  exact ⟨rfl, rfl⟩

theorem roundUp16_bounds (n : Nat) : n ≤ Store.roundUp16 n ∧ Store.roundUp16 n ≤ n + 15 := by
  unfold roundUp16
  omega

def generatedBlock (s : Store host) (key : Store.Key) (cflags : BitVec 32) (g : Store.Generated) :
    TranslationBlock where
  pc := key.pc
  csBase := key.csBase
  flags := key.flags
  cflags := cflags
  size := g.size
  tcPtr := s.codeGenPtr
  genCodeSize := g.genCodeSize
  searchSize := g.searchSize
  pageAddr := ![key.pc &&& targetPageMask, secondPage key.pc g.size]
  exits := g.exits

theorem generatedBlock_linked (s : Store host) (key : Store.Key) (cflags : BitVec 32)
    (g : Store.Generated) : (generatedBlock s key cflags g).Linked :=
  ⟨g.size_le, rfl, rfl⟩

theorem hashOf_generatedBlock (s : Store host) (key : Store.Key) (cflags : BitVec 32) (g : Store.Generated) :
    Store.hashOf (generatedBlock s key cflags g) = tbHashFunc key.pc key.pc key.flags := by
  have h : (generatedBlock s key cflags g).pageAddr 0 = key.pc &&& targetPageMask := rfl
  rw [hashOf, h]
  exact congrArg (tbHashFunc · key.pc key.flags) (page_add_offset key.pc)

/-- What a new block adds to the store. -/
structure Added (s₀ s' : Store host) (t : Nat) (tb : TranslationBlock) : Prop where
  index : t = s₀.nbTbs
  nbTbs : s'.nbTbs = s₀.nbTbs + 1
  tbs : s'.tbs = update s₀.tbs t tb
  live : s'.live = insert t s₀.live
  tbJmpCache : s'.tbJmpCache = s₀.tbJmpCache
  tbFlushed : s'.tbFlushed = s₀.tbFlushed
  dest : s'.jumps.dest = update s₀.jumps.dest t fun n =>
    if (tb.exits n).isSome then .reset else .unset

theorem Added.tbs_self (h : Added s0 s' t tb) : s'.tbs t = tb := by
  rw [h.tbs, update_self]

theorem Added.tbs_of_ne (h : Added s0 s' t tb) (hu : u ≠ t) : s'.tbs u = s0.tbs u := by
  rw [h.tbs, update_of_ne hu]

theorem Added.lt_cases (h : Added s0 s' t tb) (hu : u < s'.nbTbs) :
    u = t ∨ u < s0.nbTbs ∧ u ≠ t := by
  rw [h.nbTbs] at hu
  rw [h.index]
  omega

/-- The page lists with the entries of a new block. -/
theorem pageLists_added {lists' : PageIndex → List (Nat × Fin 2)} (h : Inv cfg s0 none lists)
    (hadded : Added s0 s' t tb) (htb : tb.Linked) (hlinked : WellLinked s' lists')
    (hnodup : ∀ i, (lists' i).Nodup)
    (hmem : ∀ i x, x ∈ lists' i ↔ x ∈ lists i ∨ (x.1 = t ∧ tb.OnPage x.2 i)) :
    PageLists s' s'.live s'.live none lists' := by
  have hne : ∀ u, u < s0.nbTbs → u ≠ t := fun u hu => hadded.index ▸ hu.ne
  constructor
  case linked =>
    intro u hu
    rcases hadded.lt_cases hu with rfl | ⟨hu, hut⟩
    · exact hadded.tbs_self ▸ htb
    · exact hadded.tbs_of_ne hut ▸ h.pages.linked u hu
  case listOf => exact hlinked.listOf
  case nodup => exact hnodup
  case onPage =>
    intro i x hx
    rw [hadded.nbTbs]
    rcases (hmem i x).mp hx with hx | ⟨hxt, hon⟩
    · obtain ⟨hlt, hon⟩ := h.pages.onPage i x hx
      exact ⟨lt_succ_of_lt hlt, hadded.tbs_of_ne (hne _ hlt) ▸ hon⟩
    · rw [hxt, hadded.tbs_self]
      exact ⟨hadded.index ▸ lt_succ_self _, hon⟩
  case member =>
    intro i _ x hx
    rw [hadded.live, mem_insert]
    rcases (hmem i x).mp hx with hx | ⟨hxt, -⟩
    · exact Or.inr (h.pages.member i (by simp) x hx)
    · exact Or.inl hxt
  case complete =>
    intro u hu n i hon
    rw [hmem]
    rw [hadded.live, mem_insert] at hu
    rcases hu with rfl | hu
    · exact Or.inr ⟨rfl, hadded.tbs_self ▸ hon⟩
    · refine Or.inl (h.pages.complete u hu n i ?_)
      rwa [hadded.tbs_of_ne (hne u (h.live_lt hu))] at hon
  case allocated => exact hlinked.allocated

variable {g : Store.Generated}

/-- A block generated at the code pointer comes after all others. -/
theorem areas_added (h : Areas cfg s0) (hadded : Added s0 s' t (generatedBlock s0 key cflags g))
    (hfit : s0.codeGenPtr + g.genCodeSize + g.searchSize ≤ cfg.codeGenHighwater)
    (hptr : s'.codeGenPtr = Store.roundUp16 (s0.codeGenPtr + g.genCodeSize + g.searchSize)) :
    Areas cfg s' := by
  obtain ⟨hround, hround'⟩ := roundUp16_bounds (s0.codeGenPtr + g.genCodeSize + g.searchSize)
  have hbuffer := h.buffer_le
  constructor
  case buffer_le => omega
  case ptr_le => omega
  case inside =>
    intro i hi
    rw [le_min_iff]
    rcases hadded.lt_cases hi with rfl | ⟨hi, hit⟩
    · rw [hadded.tbs_self]
      exact ⟨hbuffer, g.code_pos, hptr ▸ hround, hfit⟩
    · have hinside := h.inside i hi
      rw [le_min_iff] at hinside
      rw [hadded.tbs_of_ne hit]
      exact ⟨hinside.1, hinside.2.1, by omega, hinside.2.2.2⟩
  case ordered =>
    intro i j hij hj
    have hindex := hadded.index
    rcases hadded.lt_cases hj with rfl | ⟨hj, hjt⟩
    · have hinside := (h.inside i (by omega)).2.2
      rw [le_min_iff] at hinside
      rw [hadded.tbs_self, hadded.tbs_of_ne hij.ne]
      exact hinside.1
    · rw [hadded.tbs_of_ne hjt, hadded.tbs_of_ne (by omega)]
      exact h.ordered i j hij hj

theorem finishGen_added (halloc : s0.tbAlloc cfg key.pc = some (t, s))
    (hrun : s.finishGen cfg key cflags g t = some s') :
    Added s0 s' t (generatedBlock s0 key cflags g) ∧
      s'.codeGenPtr = Store.roundUp16 (s0.codeGenPtr + g.genCodeSize + g.searchSize) := by
  obtain ⟨rfl, rfl⟩ := tbAlloc_eq_some halloc
  have hpages := tbLinkPage_kept hrun
  refine ⟨⟨rfl, congrArg TbJump.JumpLists.nbTbs hpages.jumps, ?_, hpages.live,
    hpages.tbJmpCache, hpages.tbFlushed, congrArg TbJump.JumpLists.dest hpages.jumps⟩, hpages.codeGenPtr⟩
  rw [hpages.tbs]
  simp only [linkBlock, update_idem, update_self]
  congr 1
  simp only [TranslationBlock.setPageAddr, generatedBlock, secondPage,
    TranslationBlock.mk.injEq, true_and, and_true]
  exact funext (Fin.forall_fin_two.mpr ⟨rfl, rfl⟩)

theorem finishGen_inv (h : Inv cfg s0 none lists) (halloc : s0.tbAlloc cfg key.pc = some (t, s))
    (hfit : s.codeGenPtr + g.genCodeSize + g.searchSize ≤ cfg.codeGenHighwater)
    (hrun : s.finishGen cfg key cflags g t = some s') :
    (∃ lists', Inv cfg s' none lists') ∧ Added s0 s' t (generatedBlock s0 key cflags g) := by
  obtain ⟨hadded, hptr⟩ := finishGen_added halloc hrun
  obtain ⟨rfl, rfl⟩ := tbAlloc_eq_some halloc
  have hlinked : WellLinked s0 lists := ⟨h.pages.listOf, h.pages.allocated⟩
  have hfresh : ∀ i n, (s0.nbTbs, n) ∉ lists i := fun i n hx => Nat.lt_irrefl _ (h.pages.onPage i _ hx).1
  have hpages := tbLinkPage_kept hrun
  obtain ⟨lists', hlinked', hnodup', hmem'⟩ := tbLinkPage_spec hrun
    (show WellLinked _ lists from ⟨hlinked.listOf, hlinked.allocated⟩) h.pages.nodup hfresh
  have hself := hadded.tbs_self
  have hold : ∀ u ∈ s0.live, s'.tbs u = s0.tbs u := fun u hu => hadded.tbs_of_ne (h.live_lt hu).ne
  refine ⟨⟨lists', ?_⟩, hadded⟩
  constructor
  case hash =>
    have hcongr : Qht.Abstracts (fun u => hashOf (s'.tbs u)) s0.htable
        (s0.live.image (hashEntry s'.tbs)) := by
      have himage : s0.live.image (hashEntry s'.tbs) = s0.live.image (hashEntry s0.tbs) :=
        image_congr fun u hu => by simp only [hashEntry, hold u hu]
      rw [himage]
      refine h.hash.congr fun e he => ?_
      obtain ⟨u, hu, rfl⟩ := Finset.mem_image.mp he
      simp only [hashEntry, hold u hu]
    have hinsert := (hcongr.insert s0.nbTbs).2
    rw [hadded.live, image_insert, hpages.htable]
    rw [hself, hashOf_generatedBlock] at hinsert
    simp only [hashEntry, hself, hashOf_generatedBlock]
    simp only [linkBlock, update_self]
    exact hinsert
  case pages =>
    refine pageLists_added h hadded (generatedBlock_linked ..) hlinked' hnodup' fun i x => ?_
    rw [hmem' i x]
    refine or_congr_right ?_
    obtain ⟨u, n⟩ := x
    match n with
    | 0 =>
      rw [(generatedBlock_linked s0 key cflags g).onPage_zero]
      simp [generatedBlock, and_comm, eq_comm]
    | 1 =>
      simp only [TranslationBlock.OnPage, generatedBlock, secondPage]
      simp [eq_comm, and_comm, and_assoc]
  case jumps =>
    obtain ⟨jumpLists, hjumps⟩ := h.jumps
    rw [hadded.live, hpages.jumps]
    exact ⟨_, TbJump.sound_genCode hjumps fun n => (g.exits n).isSome⟩
  case cache =>
    intro cpu i u hcache
    rw [hadded.tbJmpCache] at hcache
    obtain ⟨hin, hindex⟩ := h.cache cpu i u hcache
    rw [hadded.live, hold u hin]
    exact ⟨mem_insert_of_mem hin, hindex⟩
  case areas => exact areas_added h.areas hadded hfit hptr

/-- What a flush needs to leave an empty, consistent store. -/
structure Flushable (cfg : Config) (s : Store host) : Prop where
  hash : ∃ hashOf S, Qht.Abstracts hashOf s.htable S
  unallocated : ∀ i, s.l1Map (Store.leafOf i) = false → s.pageLink (.firstTb i) = none
  ptr_le : s.codeGenPtr ≤ cfg.codeGenHighwater + 15

theorem Inv.flushable (h : Inv cfg s none lists) : Flushable cfg s := by
  refine ⟨⟨_, _, h.hash⟩, fun i hi => ?_, h.areas.ptr_le⟩
  have hnil : lists i = [] := by
    by_contra hne
    rw [h.pages.allocated i hne] at hi
    cases hi
  exact (hnil ▸ h.pages.listOf i : PageListOf s.pageLink i [])

theorem Flushable.tbAlloc (h : Flushable cfg s0) (halloc : s0.tbAlloc cfg pc = some (t, s)) :
    Flushable cfg s := by
  obtain ⟨-, rfl⟩ := tbAlloc_eq_some halloc
  exact ⟨h.hash, h.unallocated, h.ptr_le⟩

/-- The empty store after a flush, with the page table as it was. -/
structure Flushed (cfg : Config) (s s' : Store host) : Prop where
  nbTbs : s'.nbTbs = 0
  live : s'.live = ∅
  codeGenPtr : s'.codeGenPtr = cfg.codeGenBuffer
  tbFlushed : s'.tbFlushed = fun _ => true
  pageFlags : s'.pageFlags = s.pageFlags
  l1Map : s'.l1Map = s.l1Map

theorem Flushed.of_flags (h : Flushed cfg s s1) (hflags : s.pageFlags = s0.pageFlags)
    (hl1 : s.l1Map = s0.l1Map) : Flushed cfg s0 s1 :=
  { h with pageFlags := h.pageFlags.trans hflags, l1Map := h.l1Map.trans hl1 }

theorem tbFlush_spec (h : Flushable cfg s) :
    ∃ s', s.tbFlush cfg = some s' ∧ Inv cfg s' none (fun _ => []) ∧ Flushed cfg s s' := by
  obtain ⟨hashOf, S, hhash⟩ := h.hash
  have hptr := h.ptr_le
  have hreserve := cfg.reserve_le
  have hbound : ¬ s.codeGenPtr - cfg.codeGenBuffer > cfg.codeGenBufferSize := by
    unfold Config.codeGenHighwater at hptr
    omega
  refine ⟨_, if_neg hbound, ?_, rfl, rfl, rfl, rfl, rfl, rfl⟩
  constructor
  case hash =>
    refine Qht.Abstracts.congr (hhash.resetSize _) fun e he => ?_
    simp at he
  case pages =>
    constructor
    case linked => exact fun t ht => absurd ht (Nat.not_lt_zero t)
    case listOf =>
      intro i
      change (if s.l1Map (leafOf i) then none else s.pageLink (.firstTb i)) = none
      split
      · rfl
      · exact h.unallocated i (Bool.eq_false_iff.mpr ‹_›)
    case nodup => exact fun i => nodup_nil
    case onPage => exact fun i x hx => absurd hx not_mem_nil
    case member => exact fun i _ x hx => absurd hx not_mem_nil
    case complete => exact fun t ht => absurd ht (notMem_empty t)
    case allocated => exact fun i hi => absurd rfl hi
  case jumps => exact ⟨fun _ => [], TbJump.sound_flush s.jumps _⟩
  case cache => exact fun cpu i t hcache => by cases hcache
  case areas =>
    refine ⟨le_rfl, ?_, fun i hi => absurd hi (Nat.not_lt_zero i),
      fun i j _ hj => absurd hj (Nat.not_lt_zero j)⟩
    exact (Nat.le_add_right _ _).trans (Nat.le_add_right _ _)

theorem tbAlloc_of_lt (pc : TargetUlong) (h : s.nbTbs < cfg.codeGenMaxBlocks) :
    ∃ start, s.tbAlloc cfg pc = some start := by
  unfold tbAlloc
  rw [if_neg (Nat.not_le.mpr h)]
  exact ⟨_, rfl⟩

theorem finishGen_eq (cfg : Config) (s : Store host) (key : Store.Key) (cflags : BitVec 32)
    (g : Store.Generated) (t : Nat) : ∃ s2 : Store host,
      s.finishGen cfg key cflags g t = s2.tbLinkPage cfg t key.pc (secondPage key.pc g.size) ∧
      s2.pageFlags = s.pageFlags ∧ s2.l1Map = s.l1Map :=
  ⟨_, rfl, rfl, rfl⟩

/-- What generating a block gives: it is added to the store as it was or to the emptied store, and
linked to its pages while the page flags are still those from before. -/
structure Generation (cfg : Config) (s₀ s' : Store host) (key : Store.Key) (cflags : BitVec 32)
    (attempts : List Store.Generated) (t : Nat) : Prop where
  inv : ∃ lists, Inv cfg s' none lists
  added : ∃ s₁, (s₁ = s₀ ∨ Flushed cfg s₀ s₁) ∧ ∃ g ∈ attempts,
    Added s₁ s' t (generatedBlock s₁ key cflags g) ∧
    ∃ s₂ : Store host, s₂.pageFlags = s₀.pageFlags ∧ s₂.l1Map = s₀.l1Map ∧
      s₂.tbLinkPage cfg t key.pc (secondPage key.pc g.size) = some s'

theorem Generation.of_flushed {attempts' : List Store.Generated}
    (h : Generation cfg s1 s' key cflags attempts t) (hflushed : Flushed cfg s0 s1)
    (hsub : attempts ⊆ attempts') : Generation cfg s0 s' key cflags attempts' t := by
  obtain ⟨hinv, s2, hs2, g, hg, hadded, s3, hflags, hl1, hlink⟩ := h
  refine ⟨hinv, s2, Or.inr ?_, g, hsub hg, hadded, s3, hflags.trans hflushed.pageFlags,
    hl1.trans hflushed.l1Map, hlink⟩
  rcases hs2 with rfl | hs2
  · exact hflushed
  · exact hs2.of_flags hflushed.pageFlags hflushed.l1Map

theorem Flushed.tbAlloc (h : Flushed cfg s0 s1) (pc : TargetUlong) :
    ∃ start, s1.tbAlloc cfg pc = some start :=
  tbAlloc_of_lt pc (h.nbTbs ▸ cfg.maxBlocks_pos)

/-- A block is generated in the store as it is, or in the emptied store. -/
theorem genLoop_spec {start : Nat × Store host} (h : Inv cfg s0 none lists)
    (halloc : s0.tbAlloc cfg key.pc = some start)
    (hrun : Store.genLoop cfg key cflags attempts start = some (t, s')) :
    Generation cfg s0 s' key cflags attempts t := by
  induction attempts generalizing s0 lists start with
  | nil => cases hrun
  | cons g attempts ih =>
    obtain ⟨t0, s⟩ := start
    unfold genLoop at hrun
    split at hrun
    · rename_i hfit
      obtain ⟨s1, hfinish, heq⟩ := Option.map_eq_some_iff.mp hrun
      cases heq
      obtain ⟨hinv, hadded⟩ := finishGen_inv h halloc hfit hfinish
      obtain ⟨s2, hlink, hflags, hl1⟩ := finishGen_eq cfg s key cflags g t
      obtain ⟨-, rfl⟩ := tbAlloc_eq_some halloc
      exact ⟨hinv, s0, Or.inl rfl, g, mem_cons_self, hadded, s2, hflags, hl1, hlink ▸ hfinish⟩
    · obtain ⟨s1, hflush, h1, hflushed⟩ := tbFlush_spec (h.flushable.tbAlloc halloc)
      obtain ⟨start1, hstart⟩ := hflushed.tbAlloc key.pc
      simp only [hflush, hstart, Option.bind_eq_bind, Option.bind_some] at hrun
      obtain ⟨-, rfl⟩ := tbAlloc_eq_some halloc
      exact (ih h1 hstart hrun).of_flushed (hflushed.of_flags rfl rfl) (subset_cons_self ..)

theorem tbGenCode_spec (h : Inv cfg s0 none lists)
    (hrun : s0.tbGenCode cfg key cflags attempts = some (t, s')) :
    Generation cfg s0 s' key cflags attempts t := by
  unfold tbGenCode at hrun
  cases halloc : s0.tbAlloc cfg key.pc with
  | some start =>
    rw [halloc] at hrun
    exact genLoop_spec h halloc hrun
  | none =>
    obtain ⟨s1, hflush, h1, hflushed⟩ := tbFlush_spec h.flushable
    obtain ⟨start1, hstart⟩ := hflushed.tbAlloc key.pc
    simp only [halloc, hflush, hstart, Option.bind_eq_bind, Option.bind_some] at hrun
    exact (genLoop_spec h1 hstart hrun).of_flushed hflushed (List.Subset.refl _)

/-- A dead block that is on no jump list can be released. -/
theorem tbFree_inv (h : Inv cfg s none lists) (ht : t ∉ s.live)
    (hlink : ∀ n, s.jumps.link (.next t n) = none) : Inv cfg (s.tbFree t) none lists := by
  unfold tbFree
  split
  swap
  · exact h
  rename_i hlast
  have hne : ∀ u ∈ s.live, u ≠ t := fun u hu hut => ht (hut ▸ hu)
  have hlt : ∀ u, u < s.nbTbs → u ≠ t → u < s.nbTbs - 1 := fun u hu hut => by omega
  have hle : s.nbTbs - 1 ≤ s.nbTbs := sub_le _ _
  constructor
  case hash => exact h.hash
  case pages =>
    refine ⟨fun u hu => h.pages.linked u (hu.trans_le hle), h.pages.listOf, h.pages.nodup,
      fun i x hx => ?_, h.pages.member, h.pages.complete, h.pages.allocated⟩
    obtain ⟨hx', hon⟩ := h.pages.onPage i x hx
    exact ⟨hlt _ hx' (hne _ (h.pages.member i (by simp) x hx)), hon⟩
  case jumps =>
    obtain ⟨jumpLists, hjumps⟩ := h.jumps
    refine ⟨jumpLists, fun u hu => hlt u (h.live_lt hu) (hne u hu), hjumps.listOf, hjumps.nodup,
      fun u hu p hp => ?_, fun p hp => hjumps.linked p (Nat.lt_of_lt_of_le hp hle), hjumps.patched⟩
    obtain ⟨hp', hdest⟩ := hjumps.listed u hu p hp
    refine ⟨hlt _ hp' fun hpt => ?_, hdest⟩
    exact hjumps.link_ne_none hu hp (by rw [TbJump.slotField, hpt, hlink])
  case cache => exact h.cache
  case areas =>
    have hinside := h.areas.inside t (by omega)
    rw [le_min_iff] at hinside
    refine ⟨hinside.1, ?_, fun i hi => ?_, fun i j hij hj => h.areas.ordered i j hij
      (Nat.lt_of_lt_of_le hj hle)⟩
    · change (s.tbs t).tcPtr ≤ _
      omega
    · change i < s.nbTbs - 1 at hi
      have hi' := h.areas.inside i (by omega)
      have hord := h.areas.ordered i t (by omega) (by omega)
      rw [le_min_iff] at hi' ⊢
      exact ⟨hi'.1, hi'.2.1, hord, hi'.2.2.2⟩

theorem tbFindPhysical_spec (h : Inv cfg s none lists) (hfind : s.tbFindPhysical key = some t) :
    t ∈ s.live ∧ Store.keyMatches key (s.tbs t) = true := by
  obtain ⟨hmem, hcmp⟩ := (h.hash.lookup _ _).1 t hfind
  obtain ⟨u, hu, heq⟩ := Finset.mem_image.mp hmem
  obtain rfl : u = t := congrArg Prod.fst heq
  refine ⟨hu, ?_⟩
  simp only [tbCmp, decide_eq_true_eq] at hcmp
  simp only [keyMatches, decide_eq_true_eq]
  exact ⟨hcmp.1, hcmp.2.2.1, hcmp.2.2.2.1⟩

variable {cpu : Nat}

section

variable (h : Inv cfg s none lists)
include h

theorem jmpCacheHit_spec (hhit : s.jmpCacheHit cpu key = some t) :
    t ∈ s.live ∧ Store.keyMatches key (s.tbs t) = true := by
  obtain ⟨hcache, hkey⟩ := Option.filter_eq_some_iff.mp hhit
  exact ⟨(h.cache _ _ t hcache).1, hkey⟩

theorem setJmpCache_inv (ht : t ∈ s.live) (hkey : Store.keyMatches key (s.tbs t) = true) :
    Inv cfg (s.setJmpCache cpu (tbJmpCacheHashFunc key.pc) t) none lists := by
  refine ⟨h.hash, h.pages.congr rfl rfl rfl rfl, h.jumps, fun cpu' i u hcache => ?_,
    h.areas.congr rfl rfl rfl⟩
  simp only [keyMatches, decide_eq_true_eq] at hkey
  by_cases hcell : cpu' = cpu ∧ i = tbJmpCacheHashFunc key.pc
  · obtain ⟨rfl, rfl⟩ := hcell
    simp only [setJmpCache, update_self, Option.some.injEq] at hcache
    subst hcache
    exact ⟨ht, congrArg _ hkey.1⟩
  · refine h.cache cpu' i u ?_
    simp only [setJmpCache, update_apply] at hcache
    split at hcache
    · rename_i hcpu
      rw [update_of_ne fun hi => hcell ⟨hcpu, hi⟩] at hcache
      exact hcpu ▸ hcache
    · exact hcache

/-- A lookup that misses the cache gives a live block with the key; it flushes every block or
none. -/
structure Found (s s' : Store host) (key : Store.Key) (t : Nat) : Prop where
  live : t ∈ s'.live
  key : Store.keyMatches key (s'.tbs t) = true
  blocks : (s'.tbFlushed = fun _ => true) ∨ s.nbTbs ≤ s'.nbTbs ∧ s'.tbFlushed = s.tbFlushed

theorem tbGenCode_found
    (hrun : s.tbGenCode cfg key cflags attempts = some (t, s')) :
    (∃ lists', Inv cfg s' none lists') ∧ Found s s' key t := by
  obtain ⟨hinv, s1, hs1, g, -, hadded, -⟩ := tbGenCode_spec h hrun
  refine ⟨hinv, ?_, ?_, ?_⟩
  · rw [hadded.live]
    exact mem_insert_self ..
  · rw [hadded.tbs_self]
    simp [keyMatches, generatedBlock]
  · rcases hs1 with rfl | hflushed
    · exact Or.inr ⟨hadded.nbTbs ▸ le_succ _, hadded.tbFlushed⟩
    · exact Or.inl (hadded.tbFlushed.trans hflushed.tbFlushed)

theorem tbFindSlow_spec
    (hrun : s.tbFindSlow cfg cpu key cflags attempts = some (t, s')) :
    (∃ lists', Inv cfg s' none lists') ∧ Found s s' key t := by
  unfold tbFindSlow at hrun
  cases hfind : s.tbFindPhysical key with
  | some u =>
    rw [hfind] at hrun
    cases hrun
    obtain ⟨hlive, hkey⟩ := tbFindPhysical_spec h hfind
    exact ⟨⟨lists, setJmpCache_inv h hlive hkey⟩, hlive, hkey, Or.inr ⟨le_rfl, rfl⟩⟩
  | none =>
    simp only [hfind, Option.bind_eq_bind, Option.bind_eq_some_iff] at hrun
    obtain ⟨⟨u, s1⟩, hgen, heq⟩ := hrun
    cases heq
    obtain ⟨⟨lists1, h1⟩, hfound⟩ := tbGenCode_found h hgen
    exact ⟨⟨lists1, setJmpCache_inv h1 hfound.live hfound.key⟩, hfound.live, hfound.key, hfound.blocks⟩

end

end TcgArm.Tb
