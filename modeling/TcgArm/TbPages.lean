import TcgArm.TbStore

/-! The lists of the blocks on each guest page. A block lies on the page of its first byte and,
when its last byte is on another page, on that page too; each page's list names the blocks on it
together with which of their two pages it is. -/

namespace TcgArm.Tb

open FieldChain Function List Nat Store
open BitVec (ofNat toNat_add toNat_inj)

section

variable (a : TargetUlong)

theorem and_targetPageMask : a &&& targetPageMask = (a >>> 12) <<< 12 := by
  have hmask : ∀ i : Fin 32, targetPageMask.getLsbD i.val = decide (12 ≤ i.val) := by decide
  ext i hi
  have hbit := hmask ⟨i, hi⟩
  simp only [BitVec.getLsbD_eq_getElem hi] at hbit
  by_cases h : 12 ≤ i
  · simp [hbit, h]
    grind
  · simp [hbit, h]

theorem and_targetPageMask_toNat :
    (a &&& targetPageMask).toNat = a.toNat / 4096 * 4096 := by
  rw [and_targetPageMask]
  simp only [BitVec.toNat_shiftLeft, BitVec.toNat_ushiftRight, shiftRight_eq_div_pow, shiftLeft_eq]
  omega

theorem and_not_targetPageMask_toNat :
    (a &&& ~~~ targetPageMask).toNat = a.toNat % 4096 := by
  have hmask : ~~~ targetPageMask = 4095#32 := by decide
  rw [hmask, BitVec.toNat_and]
  exact and_two_pow_sub_one_eq_mod a.toNat 12

theorem pageIndex_toNat : (pageIndex a).toNat = a.toNat / 4096 := by
  simp only [pageIndex, BitVec.extractLsb'_toNat, shiftRight_eq_div_pow]
  omega

theorem pageIndex_eq_iff (a b : TargetUlong) :
    pageIndex a = pageIndex b ↔ a.toNat / 4096 = b.toNat / 4096 := by
  rw [← pageIndex_toNat, ← pageIndex_toNat, toNat_inj]

@[simp] theorem pageIndex_and_mask :
    pageIndex (a &&& targetPageMask) = pageIndex a := by
  rw [pageIndex_eq_iff, and_targetPageMask_toNat]
  omega

theorem page_add_offset (pc : TargetUlong) : (pc &&& targetPageMask) + (pc &&& ~~~ targetPageMask) = pc := by
  apply BitVec.eq_of_toNat_eq
  rw [toNat_add, and_targetPageMask_toNat, and_not_targetPageMask_toNat]
  omega

theorem and_mask_ne_noPage : a &&& targetPageMask ≠ noPage := by
  intro h
  have h := congrArg BitVec.toNat h
  rw [and_targetPageMask_toNat, show noPage.toNat = 4294967295 from rfl] at h
  omega

end

/-- `phys_page2` of `tb_gen_code`. -/
def secondPage (pc : TargetUlong) (size : Nat) : TargetUlong :=
  let virtPage2 := (pc + BitVec.ofNat 32 size - 1) &&& targetPageMask
  if pc &&& targetPageMask ≠ virtPage2 then virtPage2 else noPage

/-- The fields of a block that was linked: it has no more bytes than a page, and its page addresses
are those of its first and, on another page, of its last byte. -/
structure TranslationBlock.Linked (tb : TranslationBlock) : Prop where
  size_le : tb.size ≤ targetPageSize
  pageAddr_zero : tb.pageAddr 0 = tb.pc &&& targetPageMask
  pageAddr_one : tb.pageAddr 1 = secondPage tb.pc tb.size

/-- The `n`-th page of a block is the page `index`. -/
def TranslationBlock.OnPage (tb : TranslationBlock) (n : Fin 2) (index : PageIndex) : Prop :=
  tb.pageAddr n ≠ noPage ∧ pageIndex (tb.pageAddr n) = index

theorem toNat_add_ofNat (x : TargetUlong) (n : Nat) :
    (x + ofNat 32 n).toNat = (x.toNat + n) % 2 ^ 32 := by
  rw [toNat_add, BitVec.toNat_ofNat]
  omega

/-- The address of the last byte, as `tb_gen_code` computes it. -/
theorem lastByte_toNat {tb : TranslationBlock} (h1 : 1 ≤ tb.size) :
    (tb.pc + ofNat 32 tb.size - 1).toNat = (tb.pc.toNat + (tb.size - 1)) % 2 ^ 32 := by
  rw [BitVec.toNat_sub, toNat_add_ofNat, show (1 : TargetUlong).toNat = 1 from rfl]
  omega

namespace TranslationBlock.Linked

variable {tb : TranslationBlock} (h : tb.Linked)
include h

theorem onPage_zero (index : PageIndex) : tb.OnPage 0 index ↔ pageIndex tb.pc = index := by
  rw [OnPage, h.pageAddr_zero, pageIndex_and_mask]
  exact and_iff_right (and_mask_ne_noPage tb.pc)

theorem onPage_one (index : PageIndex) : tb.OnPage 1 index ↔
    pageIndex (tb.pc + ofNat 32 tb.size - 1) = index ∧ pageIndex tb.pc ≠ index := by
  rw [OnPage, h.pageAddr_one, secondPage]
  have hsame : tb.pc &&& targetPageMask = (tb.pc + ofNat 32 tb.size - 1) &&& targetPageMask ↔
      pageIndex tb.pc = pageIndex (tb.pc + ofNat 32 tb.size - 1) := by
    rw [← toNat_inj, and_targetPageMask_toNat, and_targetPageMask_toNat, pageIndex_eq_iff]
    omega
  by_cases heq : pageIndex tb.pc = pageIndex (tb.pc + ofNat 32 tb.size - 1)
  · simp only [hsame.mpr heq, ne_eq, not_true_eq_false, if_false, false_and, false_iff, not_and]
    exact fun hlast hne => hne (heq.trans hlast)
  · simp only [mt hsame.mp heq, ne_eq, not_false_eq_true, if_true, pageIndex_and_mask,
      and_mask_ne_noPage, true_and]
    exact ⟨fun hlast => ⟨hlast, fun hfirst => heq (hfirst.trans hlast.symm)⟩, fun hlast => hlast.1⟩

theorem slot_unique {index : PageIndex} {n k : Fin 2} (hn : tb.OnPage n index)
    (hk : tb.OnPage k index) : n = k := by
  match n, k with
  | 0, 0 => rfl
  | 1, 1 => rfl
  | 0, 1 => exact absurd ((h.onPage_zero index).mp hn) ((h.onPage_one index).mp hk).2
  | 1, 0 => exact absurd ((h.onPage_zero index).mp hk) ((h.onPage_one index).mp hn).2

/-- The pages of a block with a byte are those its guest bytes lie on. -/
theorem onPage_iff_byte (h1 : 1 ≤ tb.size) (index : PageIndex) : (∃ n, tb.OnPage n index) ↔
    ∃ i < tb.size, pageIndex (tb.pc + ofNat 32 i) = index := by
  have h2 : tb.size ≤ 4096 := h.size_le
  have hpc := tb.pc.isLt
  have hindex : ∀ a : TargetUlong, pageIndex a = index ↔ a.toNat / 4096 = index.toNat := by
    intro a
    rw [← toNat_inj, pageIndex_toNat]
  rw [Fin.exists_fin_two, h.onPage_zero, h.onPage_one, hindex, hindex, ne_eq, hindex, lastByte_toNat h1]
  constructor
  · rintro (hfirst | ⟨hlast, -⟩)
    · exact ⟨0, h1, by rw [hindex, toNat_add_ofNat, Nat.add_zero, mod_eq_of_lt hpc]; exact hfirst⟩
    · exact ⟨tb.size - 1, by omega, by rw [hindex, toNat_add_ofNat]; exact hlast⟩
  · rintro ⟨i, hi, hpage⟩
    rw [hindex, toNat_add_ofNat] at hpage
    omega

end TranslationBlock.Linked

def entryField (x : Nat × Fin 2) : PageField := .pageNext x.1 x.2

theorem entryField_injective : Function.Injective entryField := by
  rintro ⟨a, n⟩ ⟨b, k⟩ h
  simpa [entryField] using h

theorem entryField_ne_firstTb (x : Nat × Fin 2) (index : PageIndex) : entryField x ≠ .firstTb index := by
  simp [entryField]

/-- The list of a page spells out the entries `l`. -/
def PageListOf (link : PageField → Option (Nat × Fin 2)) (index : PageIndex)
    (l : List (Nat × Fin 2)) : Prop :=
  Chain some entryField none link (.firstTb index) l

section PageLists

variable {host : Host} {s : Store host} {members needed : Finset Nat} {skip : Option PageIndex}
  {lists : PageIndex → List (Nat × Fin 2)}

/-- The lists of all pages: entries are on the page they are listed for, those of pages other
than `skip` are `members`, and every block in `needed` is listed for each of its pages. -/
structure PageLists (s : Store host) (members needed : Finset Nat) (skip : Option PageIndex)
    (lists : PageIndex → List (Nat × Fin 2)) : Prop where
  linked : ∀ t < s.nbTbs, (s.tbs t).Linked
  listOf : ∀ i, PageListOf s.pageLink i (lists i)
  nodup : ∀ i, (lists i).Nodup
  onPage : ∀ i, ∀ x ∈ lists i, x.1 < s.nbTbs ∧ (s.tbs x.1).OnPage x.2 i
  member : ∀ i, some i ≠ skip → ∀ x ∈ lists i, x.1 ∈ members
  complete : ∀ t ∈ needed, ∀ n i, (s.tbs t).OnPage n i → (t, n) ∈ lists i
  allocated : ∀ i, lists i ≠ [] → s.l1Map (Store.leafOf i) = true

namespace PageLists

variable (h : PageLists s members needed skip lists)
include h

variable {x : Nat × Fin 2} {i : PageIndex}

theorem page_unique {i j : PageIndex} (hi : x ∈ lists i) (hj : x ∈ lists j) : i = j :=
  (h.onPage i x hi).2.2.symm.trans (h.onPage j x hj).2.2

theorem slot_unique {t : Nat} {n k : Fin 2} (hn : (t, n) ∈ lists i) (hk : (t, k) ∈ lists i) : n = k :=
  (h.linked t (h.onPage i _ hn).1).slot_unique (h.onPage i _ hn).2 (h.onPage i _ hk).2

theorem length_lists (i : PageIndex) : (lists i).length ≤ 2 * s.nbTbs := by
  have hsub : (lists i).toFinset ⊆ Finset.range s.nbTbs ×ˢ Finset.univ := by
    intro x hx
    rw [Finset.mem_product, Finset.mem_range]
    exact ⟨(h.onPage i x (mem_toFinset.mp hx)).1, Finset.mem_univ _⟩
  have hcard := Finset.card_le_card hsub
  rw [toFinset_card_of_nodup (h.nodup i), Finset.card_product, Finset.card_range,
    Finset.card_univ, Fintype.card_fin] at hcard
  omega

theorem pageFind_eq (hx : x ∈ lists i) : s.pageFind i = some i := by
  rw [pageFind, h.allocated i (ne_nil_of_mem hx)]
  rfl

end PageLists

variable {n : Fin 2} {t : Nat}

/-- The search of `tb_page_remove` passes the entries of other blocks. -/
theorem findInPageList_append {f : PageField} {pre post : List (Nat × Fin 2)} {fuel : Nat}
    (hchain : Chain some entryField none s.pageLink f (pre ++ (t, n) :: post))
    (hpre : ∀ x ∈ pre, x.1 ≠ t) (hfuel : pre.length < fuel) :
    s.findInPageList t fuel f = some (lastField entryField f pre, n) := by
  induction pre generalizing f fuel with
  | nil =>
    obtain ⟨k, rfl⟩ := Nat.exists_eq_add_of_lt hfuel
    simp [findInPageList, show s.pageLink f = _ from hchain.1, lastField]
  | cons x pre ih =>
    obtain ⟨k, rfl⟩ : ∃ k, fuel = k + 1 := ⟨fuel - 1, by simp at hfuel; omega⟩
    have htail : s.findInPageList t k (.pageNext x.1 x.2) =
        some (lastField entryField (.pageNext x.1 x.2) pre, n) :=
      ih hchain.2 (fun y hy => hpre y (mem_cons_of_mem _ hy)) (by simpa using hfuel)
    simp only [findInPageList, show s.pageLink f = _ from hchain.1, if_neg (hpre x mem_cons_self)]
    exact htail

variable {i : PageIndex}

section

variable (h : PageLists s members needed skip lists)
include h

theorem PageLists.erase_eq {pre post : List (Nat × Fin 2)} (hsplit : lists i = pre ++ (t, n) :: post) :
    (lists i).erase (t, n) = pre ++ post := by
  have hnodup : (pre ++ (t, n) :: post).Nodup := hsplit ▸ h.nodup i
  have hnot : (t, n) ∉ pre ++ post := (nodup_cons.mp (nodup_middle.mp hnodup)).1
  rw [hsplit, erase_append_right _ fun hp => hnot (mem_append_left _ hp), erase_cons_head]

/-- `tb_page_remove` takes the entry of a block off the list of a page. -/
theorem tbPageRemove_spec (hmem : (t, n) ∈ lists i) (ht : t ∉ needed) :
    ∃ link, s.tbPageRemove i t = some { s with pageLink := link } ∧
      PageLists { s with pageLink := link } members needed skip
        (update lists i ((lists i).erase (t, n))) := by
  obtain ⟨pre, post, hsplit⟩ := append_of_mem hmem
  have hchain : Chain some entryField none s.pageLink (.firstTb i) (pre ++ (t, n) :: post) :=
    hsplit ▸ h.listOf i
  have hnodup : (pre ++ (t, n) :: post).Nodup := hsplit ▸ h.nodup i
  have hnot : (t, n) ∉ pre ++ post := (nodup_cons.mp (nodup_middle.mp hnodup)).1
  have herase := h.erase_eq hsplit
  have hsub : ∀ x ∈ pre ++ post, x ∈ lists i := by
    rw [hsplit]
    exact (List.Sublist.append_left (sublist_cons_self (t, n) post) pre).subset
  have hpre : ∀ x ∈ pre, x.1 ≠ t := by
    rintro ⟨t', k⟩ hx rfl
    have hk := h.slot_unique (hsub _ (mem_append_left _ hx)) hmem
    exact hnot (hk ▸ mem_append_left _ hx)
  have hlen := h.length_lists i
  rw [hsplit, length_append, length_cons] at hlen
  have hfind : s.findInPageList t (2 * s.nbTbs + 1) (.firstTb i) =
      some (lastField entryField (.firstTb i) pre, n) :=
    findInPageList_append hchain hpre (by omega)
  have hother : ∀ j, j ≠ i → ∀ x ∈ lists j, entryField x ≠ lastField entryField (.firstTb i) pre := by
    intro j hj x hx
    refine next_ne_lastField entryField_injective (fun c => entryField_ne_firstTb c i) fun hp => ?_
    exact hj (h.page_unique hx (hsub x (mem_append_left _ hp)))
  have hmem_update : ∀ j x, x ∈ update lists i (pre ++ post) j → x ∈ lists j := by
    intro j x hx
    rcases eq_or_ne j i with rfl | hj
    · rw [update_self] at hx
      exact hsub x hx
    · rwa [update_of_ne hj] at hx
  refine ⟨update s.pageLink (lastField entryField (.firstTb i) pre) (s.pageLink (.pageNext t n)), ?_, ?_⟩
  · simp only [tbPageRemove, hfind, Option.bind_eq_bind, Option.bind_some]
    rfl
  · rw [herase]
    constructor
    case linked => exact h.linked
    case listOf =>
      intro j
      rcases eq_or_ne j i with rfl | hj
      · rw [update_self]
        exact hchain.unlink (hnodup.map entryField_injective) fun c _ => entryField_ne_firstTb c j
      · rw [update_of_ne hj]
        refine (h.listOf j).frame_update ?_ (hother j hj)
        rcases lastField_eq_or (PageField.firstTb i) pre with he | ⟨c, -, he⟩ <;> rw [he]
        · simpa using hj
        · exact (entryField_ne_firstTb c j).symm
    case nodup =>
      intro j
      rcases eq_or_ne j i with rfl | hj
      · rw [update_self]
        exact (nodup_cons.mp (nodup_middle.mp hnodup)).2
      · rw [update_of_ne hj]
        exact h.nodup j
    case onPage => exact fun j x hx => h.onPage j x (hmem_update j x hx)
    case member => exact fun j hj x hx => h.member j hj x (hmem_update j x hx)
    case complete =>
      intro t' ht' k j hon
      have hold := h.complete t' ht' k j hon
      rcases eq_or_ne j i with rfl | hj
      · rw [update_self]
        rw [hsplit, mem_append, mem_cons] at hold
        rw [mem_append]
        refine hold.imp_right fun hc => hc.resolve_left ?_
        rintro ⟨⟩
        exact ht ht'
      · rwa [update_of_ne hj]
    case allocated =>
      intro j hj
      obtain ⟨x, hx⟩ := exists_mem_of_ne_nil _ hj
      exact h.allocated j (ne_nil_of_mem (hmem_update j x hx))

theorem PageLists.congr {s' : Store host} (htbs : s'.tbs = s.tbs) (hnb : s'.nbTbs = s.nbTbs)
    (hlink : s'.pageLink = s.pageLink) (hl1 : s'.l1Map = s.l1Map) :
    PageLists s' members needed skip lists := by
  obtain ⟨hlinked, hlistOf, hnodup, honPage, hmember, hcomplete, hallocated⟩ := h
  constructor
  · rwa [htbs, hnb]
  · rwa [hlink]
  · exact hnodup
  · rwa [htbs, hnb]
  · exact hmember
  · rwa [htbs]
  · rwa [hl1]

theorem PageLists.mono_needed {needed' : Finset Nat} (hsub : needed' ⊆ needed) :
    PageLists s members needed' skip lists :=
  { h with complete := fun t ht => h.complete t (hsub ht) }

end

/-- The lists without an entry, except on the page `skip`. -/
def dropEntry (skip : Option PageIndex) (x : Nat × Fin 2)
    (lists : PageIndex → List (Nat × Fin 2)) : PageIndex → List (Nat × Fin 2) :=
  fun i => if some i = skip then lists i else (lists i).erase x

/-- The lists without the entries of a block, except on the page `skip`. -/
def dropBlock (skip : Option PageIndex) (t : Nat) (lists : PageIndex → List (Nat × Fin 2)) :
    PageIndex → List (Nat × Fin 2) :=
  dropEntry skip (t, 1) (dropEntry skip (t, 0) lists)

theorem dropBlock_skip (i : PageIndex) (t : Nat) : dropBlock (some i) t lists i = lists i := by
  simp [dropBlock, dropEntry]

theorem dropEntry_eq_of_not_mem (x : Nat × Fin 2) (hx : ∀ i, some i ≠ skip → x ∉ lists i) :
    dropEntry skip x lists = lists := by
  funext i
  unfold dropEntry
  split
  · rfl
  · exact erase_of_not_mem (hx i ‹_›)

/-- A block has one entry at most on a page, and that is the one that is dropped. -/
theorem PageLists.dropBlock_eq (h : PageLists s members needed skip lists) (hi : some i ≠ skip)
    {pre post : List (Nat × Fin 2)} (hsplit : lists i = pre ++ (t, n) :: post) :
    dropBlock skip t lists i = pre ++ post := by
  have hmem : (t, n) ∈ lists i := hsplit ▸ mem_append_right _ mem_cons_self
  have herase := h.erase_eq hsplit
  have hother : ∀ k, k ≠ n → (t, k) ∉ lists i := fun k hk hin => hk (h.slot_unique hin hmem)
  simp only [dropBlock, dropEntry, if_neg hi]
  match n with
  | 0 =>
    rw [herase, erase_of_not_mem]
    exact fun hin => hother 1 (by decide) (mem_of_mem_erase (herase ▸ hin))
  | 1 => rw [erase_of_not_mem (hother 0 (by decide)), herase]

theorem TranslationBlock.Linked.aligned {tb : TranslationBlock} (h : tb.Linked)
    (hn : tb.pageAddr n ≠ noPage) : tb.pageAddr n &&& targetPageMask = tb.pageAddr n := by
  have hmask : ∀ a : TargetUlong, a &&& targetPageMask &&& targetPageMask = a &&& targetPageMask :=
    fun a => by rw [BitVec.and_assoc, BitVec.and_self]
  match n with
  | 0 => rw [h.pageAddr_zero, hmask]
  | 1 =>
    rw [h.pageAddr_one, secondPage] at hn ⊢
    split
    · exact hmask _
    · rename_i hif
      rw [if_neg hif] at hn
      exact absurd rfl hn

/-- The page that an invalidation leaves alone, by the address it is given. -/
def SkipsPage (pageAddr : TargetUlong) (skip : Option PageIndex) : Prop :=
  ∀ a, a &&& targetPageMask = a → (a ≠ pageAddr ↔ some (pageIndex a) ≠ skip)

theorem skipsPage_none : SkipsPage noPage none := by
  intro a ha
  have hne : a ≠ noPage := ha ▸ and_mask_ne_noPage a
  simp [hne]

theorem skipsPage_some (addr : TargetUlong) :
    SkipsPage (addr &&& targetPageMask) (some (pageIndex addr)) := by
  intro a ha
  rw [ne_eq, ne_eq, Option.some.injEq, not_iff_not, pageIndex_eq_iff, ← toNat_inj, and_targetPageMask_toNat]
  have halign : a.toNat / 4096 * 4096 = a.toNat := by rw [← and_targetPageMask_toNat, ha]
  omega

/-- Taking a block off the list of its `n`-th page, if it has one and that is not skipped. -/
theorem removeSlot_spec (h : PageLists s members needed skip lists) (ht : t ∉ needed)
    (hin : ∀ i, (s.tbs t).OnPage n i → (t, n) ∈ lists i) {c : Prop} [Decidable c]
    (hc : c ↔ (s.tbs t).pageAddr n ≠ noPage ∧ some (pageIndex ((s.tbs t).pageAddr n)) ≠ skip) :
    ∃ link, (if c then s.removeFromPage ((s.tbs t).pageAddr n) t else some s) =
        some { s with pageLink := link } ∧
      PageLists { s with pageLink := link } members needed skip (dropEntry skip (t, n) lists) := by
  by_cases hcase : c
  · obtain ⟨hn, hne⟩ := hc.mp hcase
    have hmem := hin _ ⟨hn, rfl⟩
    obtain ⟨link, hrun, hlists⟩ := tbPageRemove_spec h hmem ht
    have hdrop : update lists (pageIndex ((s.tbs t).pageAddr n))
        ((lists (pageIndex ((s.tbs t).pageAddr n))).erase (t, n)) =
        dropEntry skip (t, n) lists := by
      funext j
      rcases eq_or_ne j (pageIndex ((s.tbs t).pageAddr n)) with rfl | hj
      · rw [update_self, dropEntry, if_neg hne]
      · rw [update_of_ne hj, dropEntry]
        split
        · rfl
        · exact (erase_of_not_mem fun hx => hj (h.page_unique hx hmem)).symm
    refine ⟨link, ?_, hdrop ▸ hlists⟩
    rw [if_pos hcase, removeFromPage, h.pageFind_eq hmem]
    exact hrun
  · refine ⟨s.pageLink, if_neg hcase, ?_⟩
    rw [dropEntry_eq_of_not_mem]
    · exact h
    · intro i hi hx
      obtain ⟨hn, hpage⟩ := (h.onPage i _ hx).2
      exact hcase (hc.mpr ⟨hn, fun hs => hi (hpage ▸ hs)⟩)

theorem not_mem_dropBlock (h : PageLists s members needed skip lists) (hi : some i ≠ skip)
    {x : Nat × Fin 2} (hx : x ∈ dropBlock skip t lists i) :
    x.1 ≠ t := by
  rintro rfl
  simp only [dropBlock, dropEntry, if_neg hi] at hx
  have hnodup := h.nodup i
  obtain ⟨t, n⟩ := x
  match n with
  | 0 => exact (hnodup.not_mem_erase) (mem_of_mem_erase hx)
  | 1 => exact ((hnodup.erase _).not_mem_erase) hx

theorem removeFromPages_spec {live : Finset Nat} (h : PageLists s live live skip lists)
    (ht : t ∈ live) (hlt : t < s.nbTbs) {pageAddr : TargetUlong} (hskip : SkipsPage pageAddr skip) :
    ∃ link, s.removeFromPages t pageAddr = some { s with pageLink := link } ∧
      PageLists { s with pageLink := link } (live.erase t) (live.erase t) skip (dropBlock skip t lists) := by
  have hlinked := h.linked t hlt
  have hnot : t ∉ live.erase t := Finset.notMem_erase t live
  have hzero : (s.tbs t).pageAddr 0 ≠ noPage := by
    rw [hlinked.pageAddr_zero]
    exact and_mask_ne_noPage _
  have hcond : ∀ n, (s.tbs t).pageAddr n ≠ noPage →
      ((s.tbs t).pageAddr n ≠ pageAddr ↔ some (pageIndex ((s.tbs t).pageAddr n)) ≠ skip) :=
    fun n hn => hskip _ (hlinked.aligned hn)
  obtain ⟨link1, hrun1, h₁⟩ := removeSlot_spec (h.mono_needed (Finset.erase_subset t live)) hnot
    (h.complete t ht 0) (c := (s.tbs t).pageAddr 0 ≠ pageAddr)
    ((hcond 0 hzero).trans (and_iff_right hzero).symm)
  -- the entry for the second page is still on its list
  have hin1 : ∀ i, (s.tbs t).OnPage 1 i → (t, 1) ∈ dropEntry skip (t, 0) lists i := by
    intro i hon
    have hmem := h.complete t ht 1 i hon
    unfold dropEntry
    split
    · exact hmem
    · exact (mem_erase_of_ne (by simp)).mpr hmem
  obtain ⟨link2, hrun2, h₂⟩ := removeSlot_spec h₁ hnot hin1
    (c := (s.tbs t).pageAddr 1 ≠ noPage ∧ (s.tbs t).pageAddr 1 ≠ pageAddr)
    (and_congr_right fun hn => hcond 1 hn)
  refine ⟨link2, ?_, ?_⟩
  · simp only [removeFromPages]
    rw [hrun1]
    exact hrun2
  · refine { h₂ with member := fun i hi x hx => ?_ }
    exact Finset.mem_erase.mpr ⟨not_mem_dropBlock h hi hx, h₂.member i hi x hx⟩

theorem mem_update_cons {j : PageIndex} {x y : Nat × Fin 2} :
    x ∈ update lists j (y :: lists j) i ↔ x ∈ lists i ∨ (i = j ∧ x = y) := by
  rcases eq_or_ne i j with rfl | hij
  · rw [update_self, mem_cons]
    tauto
  · rw [update_of_ne hij]
    tauto

/-- Pages without a descriptor have an empty list. -/
structure WellLinked (s : Store host) (lists : PageIndex → List (Nat × Fin 2)) : Prop where
  listOf : ∀ i, PageListOf s.pageLink i (lists i)
  allocated : ∀ i, lists i ≠ [] → s.l1Map (Store.leafOf i) = true

theorem WellLinked.pageFindAlloc (h : WellLinked s lists) (index : PageIndex) :
    WellLinked (s.pageFindAlloc index) lists ∧ (s.pageFindAlloc index).l1Map (Store.leafOf index) = true := by
  unfold Store.pageFindAlloc
  split
  · exact ⟨h, ‹_›⟩
  · rename_i hfree
    refine ⟨⟨fun i => ?_, fun i hi => ?_⟩, update_self ..⟩
    · by_cases hleaf : leafOf i = leafOf index
      · have hnil : lists i = [] := by
          by_contra hne
          exact hfree (hleaf ▸ h.allocated i hne)
        rw [hnil]
        exact if_pos hleaf
      · exact (h.listOf i).frame (if_neg hleaf) fun c _ => rfl
    · by_cases hleaf : leafOf i = leafOf index
      · rw [hleaf]
        exact update_self ..
      · exact (update_of_ne hleaf ..).trans (h.allocated i hi)

/-- The first half of `tb_alloc_page` puts a new entry in front of the list of its page. -/
theorem WellLinked.linkEntry (h : WellLinked s lists) (hfresh : ∀ i, (t, n) ∉ lists i)
    (pageAddr : TargetUlong) :
    WellLinked (s.linkEntry t n pageAddr) (update lists (pageIndex pageAddr)
      ((t, n) :: lists (pageIndex pageAddr))) := by
  let desc : TranslationBlock := { s.tbs t with pageAddr := update (s.tbs t).pageAddr n pageAddr }
  have htbs : WellLinked { s with tbs := update s.tbs t desc } lists := ⟨h.listOf, h.allocated⟩
  obtain ⟨h₁, hpage⟩ := htbs.pageFindAlloc (pageIndex pageAddr)
  -- the two pointers that are written, over the fields after a possible allocation
  let link := (Store.pageFindAlloc { s with tbs := update s.tbs t desc } (pageIndex pageAddr)).pageLink
  have hlink : ∀ f, (s.linkEntry t n pageAddr).pageLink f =
      if f = .firstTb (pageIndex pageAddr) then some (t, n)
      else if f = .pageNext t n then link (.firstTb (pageIndex pageAddr)) else link f := by
    intro f
    rw [← update_apply link, ← update_apply]
    rfl
  have hother : ∀ i, ∀ c ∈ lists i, (s.linkEntry t n pageAddr).pageLink (entryField c) =
      link (entryField c) := by
    intro i c hc
    rw [hlink, if_neg (entryField_ne_firstTb c _), if_neg]
    intro he
    have hct : c = (t, n) := entryField_injective he
    exact hfresh i (hct ▸ hc)
  refine ⟨fun i => ?_, fun i hi => ?_⟩
  · rcases eq_or_ne i (pageIndex pageAddr) with rfl | hi
    · rw [update_self]
      refine (h₁.listOf _).push ?_ ?_ (hother _)
      · rw [hlink, if_pos rfl]
      · rw [hlink, if_neg (entryField_ne_firstTb _ _)]
        exact if_pos rfl
    · rw [update_of_ne hi]
      refine (h₁.listOf i).frame ?_ (hother i)
      rw [hlink, if_neg (by simpa using hi), if_neg (by simp)]
  · change (Store.pageFindAlloc { s with tbs := update s.tbs t desc }
      (pageIndex pageAddr)).l1Map (Store.leafOf i) = true
    rcases eq_or_ne i (pageIndex pageAddr) with rfl | hne
    · exact hpage
    · rw [update_of_ne hne] at hi
      exact h₁.allocated i hi

end PageLists

end TcgArm.Tb
