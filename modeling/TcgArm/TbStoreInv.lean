import TcgArm.QhtSet
import TcgArm.TbJumpInv
import TcgArm.TbPages

/-! The consistency of the block store: the hash table, the page lists, the jump caches and the
jump lists all hold exactly the live blocks, and the code of the blocks in `tbs[]` lies in the
buffer in the order of the array. -/

namespace TcgArm.Tb

open FieldChain Function List Option Store

variable {host : Host} {cfg : Config} {s s' : Store host} {skip : Option PageIndex}
  {lists : PageIndex → List (Nat × Fin 2)}

def hashEntry (tbs : Nat → TranslationBlock) (t : Nat) : Nat × UInt32 :=
  (t, Store.hashOf (tbs t))

theorem hashEntry_injective (tbs : Nat → TranslationBlock) :
    Function.Injective (hashEntry tbs) := fun _ _ h => congrArg Prod.fst h

/-- The code and search data of the blocks follow each other in the buffer. -/
structure Areas (cfg : Config) (s : Store host) : Prop where
  buffer_le : cfg.codeGenBuffer ≤ s.codeGenPtr
  ptr_le : s.codeGenPtr ≤ cfg.codeGenHighwater + 15
  inside : ∀ i < s.nbTbs, cfg.codeGenBuffer ≤ (s.tbs i).tcPtr ∧ 0 < (s.tbs i).genCodeSize ∧
    (s.tbs i).tcPtr + (s.tbs i).genCodeSize + (s.tbs i).searchSize ≤ min s.codeGenPtr cfg.codeGenHighwater
  ordered : ∀ i j, i < j → j < s.nbTbs →
    (s.tbs i).tcPtr + (s.tbs i).genCodeSize + (s.tbs i).searchSize ≤ (s.tbs j).tcPtr

/-- The store is consistent, apart from the list of the page `skip` that is being emptied. -/
structure Inv (cfg : Config) (s : Store host) (skip : Option PageIndex)
    (lists : PageIndex → List (Nat × Fin 2)) : Prop where
  hash : Qht.Abstracts (fun t => Store.hashOf (s.tbs t)) s.htable (s.live.image (hashEntry s.tbs))
  pages : PageLists s s.live s.live skip lists
  jumps : ∃ jumpLists, TbJump.Sound s.jumps s.live jumpLists
  cache : ∀ cpu i t, s.tbJmpCache cpu i = some t → t ∈ s.live ∧ tbJmpCacheHashFunc (s.tbs t).pc = i
  areas : Areas cfg s

variable {t fuel : Nat}

theorem Inv.live_lt (h : Inv cfg s skip lists) (ht : t ∈ s.live) : t < s.nbTbs := by
  obtain ⟨jumpLists, hjumps⟩ := h.jumps
  exact hjumps.target_lt t ht

/-- What an invalidation leaves as it was. -/
structure Kept (s s' : Store host) : Prop where
  tbs : s'.tbs = s.tbs
  nbTbs : s'.nbTbs = s.nbTbs
  codeGenPtr : s'.codeGenPtr = s.codeGenPtr
  l1Map : s'.l1Map = s.l1Map
  pageFlags : s'.pageFlags = s.pageFlags
  tbFlushed : s'.tbFlushed = s.tbFlushed
  live : s'.live ⊆ s.live
  dest : ∀ u n, s'.jumps.dest u n = s.jumps.dest u n ∨ s'.jumps.dest u n = .reset

theorem Kept.refl (s : Store host) : Kept s s :=
  ⟨rfl, rfl, rfl, rfl, rfl, rfl, Finset.Subset.refl _, fun _ _ => Or.inl rfl⟩

theorem Kept.trans {s1 s2 s3 : Store host} (h : Kept s1 s2) (h' : Kept s2 s3) : Kept s1 s3 :=
  ⟨h'.tbs.trans h.tbs, h'.nbTbs.trans h.nbTbs, h'.codeGenPtr.trans h.codeGenPtr,
    h'.l1Map.trans h.l1Map, h'.pageFlags.trans h.pageFlags, h'.tbFlushed.trans h.tbFlushed,
    h'.live.trans h.live, fun u n => (h'.dest u n).elim (fun heq => heq ▸ h.dest u n) Or.inr⟩

theorem kept_setPageLink (s : Store host) (f : PageField) (v : Option (Nat × Fin 2)) :
    Kept s (s.setPageLink f v) :=
  ⟨rfl, rfl, rfl, rfl, rfl, rfl, Finset.Subset.refl _, fun _ _ => Or.inl rfl⟩

theorem Areas.congr (h : Areas cfg s) (htbs : s'.tbs = s.tbs) (hnb : s'.nbTbs = s.nbTbs)
    (hptr : s'.codeGenPtr = s.codeGenPtr) : Areas cfg s' := by
  obtain ⟨hbuffer, hptr_le, hinside, hordered⟩ := h
  refine ⟨?_, ?_, ?_, ?_⟩
  · rwa [hptr]
  · rwa [hptr]
  · rwa [hptr, htbs, hnb]
  · rwa [htbs, hnb]

theorem clearJmpCaches_eq_some {t' cpu : Nat} {i : TargetUlong}
    (h : (s.clearJmpCaches t).tbJmpCache cpu i = some t') :
    s.tbJmpCache cpu i = some t' ∧ ¬(i = tbJmpCacheHashFunc (s.tbs t).pc ∧ t' = t) := by
  simp only [clearJmpCaches] at h
  split_ifs at h with hnot
  refine ⟨h, ?_⟩
  rintro ⟨rfl, rfl⟩
  exact hnot ⟨rfl, h⟩

/-- After `tb_phys_invalidate` of a live block the store is consistent without it. -/
theorem tbPhysInvalidate_spec (h : Inv cfg s skip lists) (ht : t ∈ s.live)
    {pageAddr : TargetUlong} (hskip : SkipsPage pageAddr skip) :
    ∃ s', s.tbPhysInvalidate t pageAddr = some s' ∧ Inv cfg s' skip (dropBlock skip t lists) ∧
      Kept s s' ∧ s'.live = s.live.erase t := by
  obtain ⟨jumpLists, hjumps⟩ := h.jumps
  obtain ⟨jumps, jumpLists', hinvalidate, hjumps', hnb, -⟩ := TbJump.invalidate_spec hjumps ht
  have hdest := TbJump.invalidate_dest hinvalidate
  have hpages1 : PageLists { s with htable := (s.htable.remove t (hashOf (s.tbs t))).2 }
      s.live s.live skip lists := h.pages.congr rfl rfl rfl rfl
  obtain ⟨link, hremove, hpages⟩ := removeFromPages_spec hpages1 ht (h.live_lt ht) hskip
  have herase : (s.live.image (hashEntry s.tbs)).erase (hashEntry s.tbs t) =
      (s.live.erase t).image (hashEntry s.tbs) :=
    (Finset.image_erase (hashEntry_injective s.tbs) s.live t).symm
  let cleared : Store host := clearJmpCaches
    { s with htable := (s.htable.remove t (hashOf (s.tbs t))).2, pageLink := link } t
  refine ⟨{ cleared with jumps := jumps, live := s.live.erase t }, ?_, ?_, ?_, rfl⟩
  · simp only [tbPhysInvalidate, hremove, bind_eq_bind, bind_some]
    exact congrArg (Option.bind · _) hinvalidate
  · constructor
    case hash => exact herase ▸ (h.hash.remove t).2
    case pages => exact hpages.congr rfl hnb rfl rfl
    case jumps => exact ⟨jumpLists', hjumps'⟩
    case cache =>
      intro cpu i t' hcache
      obtain ⟨hold, hnot⟩ := clearJmpCaches_eq_some hcache
      obtain ⟨hlive, hindex⟩ := h.cache cpu i t' hold
      refine ⟨Finset.mem_erase.mpr ⟨?_, hlive⟩, hindex⟩
      rintro rfl
      exact hnot ⟨hindex.symm, rfl⟩
    case areas =>
      exact h.areas.congr rfl hnb rfl
  · exact ⟨rfl, hnb, rfl, rfl, rfl, rfl, Finset.erase_subset _ _, hdest⟩

abbrev headEntry (l : List (Nat × Fin 2)) : Option (Nat × Fin 2) := headValue some none l

variable {i : PageIndex}

theorem Inv.pageNext_eq (h : Inv cfg s skip lists) {n : Fin 2} {pre post : List (Nat × Fin 2)}
    (hsplit : lists i = pre ++ (t, n) :: post) :
    s.pageLink (.pageNext t n) = headEntry post := by
  have hchain := h.pages.listOf i
  rw [hsplit] at hchain
  exact hchain.suffix.head

theorem Inv.fst_ne_of_split (h : Inv cfg s skip lists) {n : Fin 2} {pre post : List (Nat × Fin 2)}
    (hsplit : lists i = pre ++ (t, n) :: post) {x : Nat × Fin 2} (hx : x ∈ pre ++ post) :
    x.1 ≠ t := by
  rintro rfl
  have hmem : (x.1, n) ∈ lists i := hsplit ▸ mem_append_right _ mem_cons_self
  have hin : x ∈ lists i := by
    rw [hsplit]
    exact (List.Sublist.append_left (sublist_cons_self _ post) pre).subset hx
  have hnodup : (pre ++ (x.1, n) :: post).Nodup := hsplit ▸ h.pages.nodup i
  have hn : (x.1, n) = x := Prod.ext rfl (h.pages.slot_unique hmem hin)
  exact (nodup_cons.mp (nodup_middle.mp hnodup)).1 (hn ▸ hx)

/-- The loop over the blocks of a page invalidates them all and does not touch the page's own
list. -/
theorem invalidatePageLoop_spec {addr : TargetUlong} (hskip : SkipsPage addr (some i))
    {rest : List (Nat × Fin 2)} (hfuel : rest.length ≤ fuel) {done : List (Nat × Fin 2)}
    (h : Inv cfg s (some i) lists) (hsplit : lists i = done ++ rest) (hlive : ∀ x ∈ rest, x.1 ∈ s.live) :
    ∃ s' lists', Store.invalidatePageLoop addr fuel (headEntry rest) s = some s' ∧
      Inv cfg s' (some i) lists' ∧ lists' i = lists i ∧ Kept s s' ∧
      ∀ t, t ∈ s'.live ↔ t ∈ s.live ∧ ∀ x ∈ rest, x.1 ≠ t := by
  induction rest generalizing s lists done fuel with
  | nil =>
    refine ⟨s, lists, ?_, h, rfl, Kept.refl s, fun t => by simp⟩
    cases fuel <;> rfl
  | cons x rest ih =>
    obtain ⟨t, n⟩ := x
    obtain ⟨k, rfl⟩ : ∃ k, fuel = k + 1 := ⟨fuel - 1, by simp at hfuel; omega⟩
    obtain ⟨s1, hrun1, h1, hkept1, hlive1⟩ := tbPhysInvalidate_spec h (hlive _ mem_cons_self) hskip
    have hsplit1 : dropBlock (some i) t lists i = done ++ (t, n) :: rest := by
      rw [dropBlock_skip, hsplit]
    have hrest : ∀ x ∈ rest, x.1 ∈ s1.live := by
      intro x hx
      rw [hlive1, Finset.mem_erase]
      exact ⟨h.fst_ne_of_split hsplit (mem_append_right _ hx), hlive x (mem_cons_of_mem _ hx)⟩
    have hnext : dropBlock (some i) t lists i = (done ++ [(t, n)]) ++ rest := by
      rw [hsplit1, append_assoc]
      rfl
    have hk : rest.length ≤ k := by simpa using hfuel
    obtain ⟨s', lists', hrun, h', hlists, hkept, hiff⟩ := ih hk h1 hnext hrest
    refine ⟨s', lists', ?_, h', ?_, hkept1.trans hkept, fun t' => ?_⟩
    · simp only [headEntry, headValue, invalidatePageLoop, hrun1, bind_eq_bind,
        bind_some, h1.pageNext_eq hsplit1]
      exact hrun
    · rw [hlists, dropBlock_skip]
    · rw [hiff, hlive1, Finset.mem_erase, forall_mem_cons]
      constructor
      · rintro ⟨⟨hne, hin⟩, hrest'⟩
        exact ⟨hin, hne.symm, hrest'⟩
      · rintro ⟨hin, hne, hrest'⟩
        exact ⟨⟨hne.symm, hin⟩, hrest'⟩

/-- A page whose blocks are all dead can be given the empty list. -/
theorem Inv.clear_page (h : Inv cfg s (some i) lists) (hdead : ∀ x ∈ lists i, x.1 ∉ s.live) :
    Inv cfg (s.setPageLink (.firstTb i) none) none (update lists i []) := by
  have hsub : ∀ j x, x ∈ update lists i [] j → j ≠ i ∧ x ∈ lists j := by
    intro j x hx
    rcases eq_or_ne j i with rfl | hj
    · rw [update_self] at hx
      cases hx
    · rw [update_of_ne hj] at hx
      exact ⟨hj, hx⟩
  refine ⟨h.hash, ?_, h.jumps, h.cache, h.areas.congr rfl rfl rfl⟩
  constructor
  case linked => exact h.pages.linked
  case listOf =>
    intro j
    rcases eq_or_ne j i with rfl | hj
    · rw [update_self]
      exact update_self ..
    · rw [update_of_ne hj]
      refine (h.pages.listOf j).frame_update ?_ fun c _ => entryField_ne_firstTb c i
      simpa using hj
  case nodup =>
    intro j
    rcases eq_or_ne j i with rfl | hj
    · rw [update_self]
      exact nodup_nil
    · rw [update_of_ne hj]
      exact h.pages.nodup j
  case onPage => exact fun j x hx => h.pages.onPage j x (hsub j x hx).2
  case member =>
    intro j _ x hx
    obtain ⟨hj, hin⟩ := hsub j x hx
    exact h.pages.member j (by simpa using hj) x hin
  case complete =>
    intro t ht n j hon
    have hin := h.pages.complete t ht n j hon
    rcases eq_or_ne j i with rfl | hj
    · exact absurd ht (hdead _ hin)
    · rwa [update_of_ne hj]
  case allocated =>
    intro j hj
    obtain ⟨x, hx⟩ := exists_mem_of_ne_nil _ hj
    exact h.pages.allocated j (ne_nil_of_mem (hsub j x hx).2)

theorem Inv.onPage_iff (h : Inv cfg s none lists) (ht : t ∈ s.live) (i : PageIndex) :
    (∃ n, (s.tbs t).OnPage n i) ↔ ∃ x ∈ lists i, x.1 = t := by
  constructor
  · rintro ⟨n, hon⟩
    exact ⟨(t, n), h.pages.complete t ht n i hon, rfl⟩
  · rintro ⟨x, hx, rfl⟩
    exact ⟨x.2, (h.pages.onPage i x hx).2⟩

/-- `tb_invalidate_phys_page` invalidates exactly the blocks on the page. -/
theorem tbInvalidatePhysPage_spec (h : Inv cfg s none lists) (addr : TargetUlong) :
    ∃ s' lists', s.tbInvalidatePhysPage addr = some s' ∧ Inv cfg s' none lists' ∧ Kept s s' ∧
      ∀ t, t ∈ s'.live ↔ t ∈ s.live ∧ ¬ ∃ n, (s.tbs t).OnPage n (pageIndex addr) := by
  cases hfind : s.pageFind (pageIndex addr) with
  | none =>
    refine ⟨s, lists, ?_, h, Kept.refl s, fun t => ?_⟩
    · simp only [tbInvalidatePhysPage, pageIndex_and_mask, hfind]
    · refine ⟨fun ht => ⟨ht, fun hon => ?_⟩, And.left⟩
      obtain ⟨x, hx, -⟩ := (h.onPage_iff ht _).mp hon
      rw [h.pages.pageFind_eq hx] at hfind
      cases hfind
  | some p =>
    obtain rfl : p = pageIndex addr := by
      simp only [pageFind] at hfind
      split_ifs at hfind
      exact (Option.some.inj hfind).symm
    have hpages := h.pages
    have hi : Inv cfg s (some (pageIndex addr)) lists :=
      { h with pages := { hpages with member := fun j _ => hpages.member j (by simp) } }
    obtain ⟨s1, lists1, hrun, h1, hlists, hkept, hiff⟩ :=
      invalidatePageLoop_spec (skipsPage_some addr) (hpages.length_lists _) hi
        (nil_append _).symm (hpages.member _ (by simp))
    have hdead : ∀ x ∈ lists1 (pageIndex addr), x.1 ∉ s1.live := by
      intro x hx hin
      rw [hlists] at hx
      exact ((hiff x.1).mp hin).2 x hx rfl
    refine ⟨_, _, ?_, h1.clear_page hdead, hkept.trans (kept_setPageLink s1 _ _), fun t => ?_⟩
    · have hhead : s.pageLink (.firstTb (pageIndex addr)) = headEntry (lists (pageIndex addr)) :=
        (hpages.listOf _).head
      simp only [tbInvalidatePhysPage, pageIndex_and_mask, hfind, hhead, hrun,
        bind_eq_bind, bind_some]
      rfl
    · refine (hiff t).trans (and_congr_right fun ht => ?_)
      rw [h.onPage_iff ht]
      simp only [not_exists, not_and, ne_eq]

/-- The loop over the blocks of a page that intersect a range. -/
theorem invalidateRangeLoop_spec {start last : TargetUlong} {rest : List (Nat × Fin 2)}
    (hfuel : rest.length ≤ fuel) {kept : List (Nat × Fin 2)} (h : Inv cfg s none lists)
    (hsplit : lists i = kept ++ rest) :
    ∃ s' lists', Store.invalidateRangeLoop start last fuel (headEntry rest) s = some s' ∧
      Inv cfg s' none lists' ∧ Kept s s' ∧
      ∀ t, t ∈ s'.live ↔
        t ∈ s.live ∧ ∀ n, (t, n) ∈ rest → Store.intersects (s.tbs t) n start last = false := by
  induction rest generalizing s lists kept fuel with
  | nil =>
    refine ⟨s, lists, ?_, h, Kept.refl s, fun t => ?_⟩
    · cases fuel <;> rfl
    · exact ⟨fun ht => ⟨ht, fun n hn => absurd hn not_mem_nil⟩, And.left⟩
  | cons x rest ih =>
    obtain ⟨t, n⟩ := x
    obtain ⟨k, rfl⟩ : ∃ k, fuel = k + 1 := ⟨fuel - 1, by simp at hfuel; omega⟩
    have hk : rest.length ≤ k := by simpa using hfuel
    simp only [headEntry, headValue, invalidateRangeLoop, h.pageNext_eq hsplit]
    by_cases hinter : intersects (s.tbs t) n start last
    · have hmem : (t, n) ∈ lists i := hsplit ▸ mem_append_right _ mem_cons_self
      obtain ⟨s1, hrun1, h1, hkept1, hlive1⟩ :=
        tbPhysInvalidate_spec h (h.pages.member i (by simp) _ hmem) skipsPage_none
      have hsplit1 := h.pages.dropBlock_eq (by simp) hsplit
      obtain ⟨s', lists', hrun, h', hkept, hlive⟩ := ih hk h1 hsplit1
      rw [if_pos hinter, hrun1]
      refine ⟨s', lists', hrun, h', hkept1.trans hkept, fun u => ?_⟩
      rw [hlive, hkept1.tbs, hlive1, Finset.mem_erase, and_assoc]
      constructor
      · rintro ⟨hne, hu, hrest⟩
        refine ⟨hu, fun k hk => ?_⟩
        rcases mem_cons.mp hk with heq | hk
        · cases heq
          exact absurd rfl hne
        · exact hrest k hk
      · rintro ⟨hu, hall⟩
        refine ⟨?_, hu, fun k hk => hall k (mem_cons_of_mem _ hk)⟩
        rintro rfl
        rw [hall n mem_cons_self] at hinter
        cases hinter
    · have hsplit' : lists i = (kept ++ [(t, n)]) ++ rest := by
        rw [hsplit, append_assoc]
        rfl
      obtain ⟨s', lists', hrun, h', hkept, hlive⟩ := ih hk h hsplit'
      rw [if_neg hinter]
      refine ⟨s', lists', hrun, h', hkept, fun u => ?_⟩
      rw [hlive]
      refine and_congr_right fun hu => ⟨fun hrest k hk => ?_, fun hall k hk => hall k (mem_cons_of_mem _ hk)⟩
      rcases mem_cons.mp hk with heq | hk
      · cases heq
        exact Bool.eq_false_of_not_eq_true hinter
      · exact hrest k hk

/-- The blocks that stay are those not found to intersect the range on the page of `start`. -/
theorem tbInvalidatePhysPageRange_spec (h : Inv cfg s none lists) (start last : TargetUlong) :
    ∃ s' lists', s.tbInvalidatePhysPageRange start last = some s' ∧ Inv cfg s' none lists' ∧
      Kept s s' ∧ ∀ t, t ∈ s'.live ↔ t ∈ s.live ∧
        ∀ n, (s.tbs t).OnPage n (pageIndex start) → Store.intersects (s.tbs t) n start last = false := by
  have hlisted {t : Nat} (ht : t ∈ s.live) {n : Fin 2}
      (hpage : (s.tbs t).OnPage n (pageIndex start)) : (t, n) ∈ lists (pageIndex start) :=
    h.pages.complete t ht n _ hpage
  unfold tbInvalidatePhysPageRange
  split
  · rename_i hfind
    refine ⟨s, lists, rfl, h, Kept.refl s, fun t => (and_iff_left_of_imp fun ht n hpage => ?_).symm⟩
    rw [h.pages.pageFind_eq (hlisted ht hpage)] at hfind
    cases hfind
  · rename_i p hfind
    obtain rfl : pageIndex start = p := by
      rw [pageFind] at hfind
      split_ifs at hfind
      exact Option.some.inj hfind
    have hhead : s.pageLink (.firstTb (pageIndex start)) = headEntry (lists (pageIndex start)) :=
      (h.pages.listOf _).head
    rw [hhead]
    obtain ⟨s', lists', hrun, h', hkept, hlive⟩ :=
      invalidateRangeLoop_spec (h.pages.length_lists _) h (nil_append _).symm
    refine ⟨s', lists', hrun, h', hkept, fun t => (hlive t).trans (and_congr_right fun ht => ?_)⟩
    refine ⟨fun hrest n hpage => hrest n (hlisted ht hpage), fun hall n hn => hall n ?_⟩
    exact (h.pages.onPage _ _ hn).2

theorem tbInvalidatePhysRange_inv {last start : TargetUlong} (h : Inv cfg s none lists)
    (hrun : Store.tbInvalidatePhysRange last fuel start s = some s') :
    ∃ lists', Inv cfg s' none lists' ∧ Kept s s' := by
  induction fuel generalizing s lists start with
  | zero => cases hrun
  | succ fuel ih =>
    unfold tbInvalidatePhysRange at hrun
    split at hrun
    · obtain ⟨s1, lists1, hrun1, h1, hkept1, -⟩ := tbInvalidatePhysPageRange_spec h start last
      rw [hrun1] at hrun
      obtain ⟨lists', h', hkept⟩ := ih h1 hrun
      exact ⟨lists', h', hkept1.trans hkept⟩
    · cases hrun
      exact ⟨lists, h, Kept.refl _⟩

end TcgArm.Tb
