import TcgArm.PageProtect

/-! Ranges of guest addresses in the store of translation blocks: after `tb_invalidate_phys_range`
no live block has a byte in the range, and `page_set_flags` gives the pages of its range the new
flags and leaves the others alone. -/

namespace TcgArm.Tb

open Option Store Transition
open BitVec (lt_def toNat_add ofNat toNat_sub)

variable {host : Host} {cfg : Config} {s s' : Store host} {lists : PageIndex → List (Nat × Fin 2)}

/-- The guest address `a` holds a byte of the block. -/
def TranslationBlock.HasByte (tb : TranslationBlock) (a : TargetUlong) : Prop :=
  ∃ i < tb.size, tb.pc + BitVec.ofNat 32 i = a

/-- The page has an address in the range from `lo` up to `hi`. -/
def Touches (lo hi : Nat) (p : PageIndex) : Prop :=
  lo < (p.toNat + 1) * 4096 ∧ p.toNat * 4096 < hi

instance (lo hi : Nat) (p : PageIndex) : Decidable (Touches lo hi p) :=
  inferInstanceAs (Decidable (_ ∧ _))

variable {tb : TranslationBlock} {fuel : Nat} {last start : TargetUlong}

theorem TranslationBlock.Linked.first_start (h : tb.Linked) :
    tb.pageAddr 0 + (tb.pc &&& ~~~ targetPageMask) = tb.pc := by
  rw [h.pageAddr_zero, page_add_offset]

theorem TranslationBlock.Linked.second_start (h : tb.Linked) (hn : tb.OnPage 1 (pageIndex start)) :
    (tb.pageAddr 1).toNat = start.toNat / 4096 * 4096 := by
  obtain ⟨hne, honpage⟩ := hn
  obtain ⟨z, hz⟩ : ∃ z, tb.pageAddr 1 = z &&& targetPageMask := by
    rw [h.pageAddr_one, secondPage] at hne ⊢
    split_ifs at hne ⊢ with hdiff
    · exact ⟨_, rfl⟩
    · exact absurd rfl hne
  rw [hz, pageIndex_eq_iff, and_targetPageMask_toNat] at honpage
  rw [hz, and_targetPageMask_toNat]
  omega

/-- A block with a byte of the range on the page of `start` is seen to intersect the range, the
last page of the address space apart. -/
theorem intersects_of_byte (h : tb.Linked) {a : TargetUlong} (hbyte : tb.HasByte a)
    (hpage : pageIndex a = pageIndex start) (hlow : start.toNat ≤ a.toNat)
    (hhigh : a.toNat < last.toNat) (htop : a.toNat < 0xFFFFF000) :
    ∃ n, tb.OnPage n (pageIndex start) ∧ Store.intersects tb n start last = true := by
  obtain ⟨i, hi, rfl⟩ := hbyte
  have hsize : tb.size ≤ 4096 := h.size_le
  have ha := toNat_add_ofNat tb.pc i
  have hend := toNat_add_ofNat tb.pc tb.size
  obtain ⟨n, hn⟩ := (h.onPage_iff_byte (by omega) (pageIndex start)).mpr ⟨i, hi, hpage⟩
  refine ⟨n, hn, ?_⟩
  rw [ha] at hlow hhigh htop
  -- each of the two sums wraps at most once
  obtain ⟨x, hx, hxcases⟩ : ∃ x, (tb.pc.toNat + i) % 2 ^ 32 = x ∧
      (tb.pc.toNat + i = x ∨ tb.pc.toNat + i = x + 2 ^ 32) := ⟨_, rfl, by omega⟩
  obtain ⟨y, hy, hycases⟩ : ∃ y, (tb.pc.toNat + tb.size) % 2 ^ 32 = y ∧
      (tb.pc.toNat + tb.size = y ∨ tb.pc.toNat + tb.size = y + 2 ^ 32) := ⟨_, rfl, by omega⟩
  rw [hx] at ha hlow hhigh htop
  rw [hy] at hend
  match n with
  | 0 =>
    have hfirst := (h.onPage_zero _).mp hn
    rw [← hpage, pageIndex_eq_iff, ha] at hfirst
    simp only [intersects, if_true, h.first_start, not_or, BitVec.not_le, lt_def, hend]
    refine decide_eq_true ?_
    rcases hxcases with hxcases | hxcases <;> rcases hycases with hycases | hycases <;> omega
  | 1 =>
    have hsecond := (h.onPage_one _).mp hn
    rw [← hpage, ne_eq, pageIndex_eq_iff, pageIndex_eq_iff, ha, lastByte_toNat (by omega)] at hsecond
    have hstart := h.second_start (hpage ▸ hn)
    rw [ha] at hstart
    have hrest : ((tb.pc + ofNat 32 tb.size) &&& ~~~ targetPageMask).toNat = y % 4096 := by
      rw [and_not_targetPageMask_toNat, hend]
    simp only [intersects, if_neg (show (1 : Fin 2) ≠ 0 by decide), not_or, BitVec.not_le,
      lt_def, toNat_add, hstart, hrest]
    refine decide_eq_true ?_
    rcases hxcases with hxcases | hxcases <;> rcases hycases with hycases | hycases <;> omega

theorem next_page_toNat (start : TargetUlong) :
    ((start &&& targetPageMask) + ofNat 32 targetPageSize).toNat =
      (start.toNat / 4096 * 4096 + 4096) % 2 ^ 32 := by
  rw [toNat_add, and_targetPageMask_toNat]
  rfl

theorem tbInvalidatePhysRange_top (hlast : 0xFFFFF000 < last.toNat)
    (hlt : start.toNat < last.toNat) (h : Inv cfg s none lists) :
    Store.tbInvalidatePhysRange last fuel start s = none := by
  induction fuel generalizing s lists start with
  | zero => rfl
  | succ fuel ih =>
    obtain ⟨s1, lists1, hrun1, h1, -⟩ := tbInvalidatePhysPageRange_spec h start last
    rw [tbInvalidatePhysRange, if_pos (BitVec.lt_def.mpr hlt), hrun1, bind_eq_bind, bind_some]
    refine ih ?_ h1
    rw [next_page_toNat]
    omega

/-- A block that is seen to intersect a range on the page of `start` has a byte there, or it has no
bytes at all and stands behind `start`. -/
theorem byte_of_intersects (h : tb.Linked) {n : Fin 2} (hlast : last.toNat ≤ 0xFFFFF000)
    (hlt : start.toNat < last.toNat) (hn : tb.OnPage n (pageIndex start))
    (hinter : Store.intersects tb n start last = true) :
    (∃ a, tb.HasByte a ∧ pageIndex a = pageIndex start ∧ start.toNat ≤ a.toNat ∧ a.toNat < last.toNat) ∨
    tb.size = 0 ∧ pageIndex tb.pc = pageIndex start ∧ start.toNat < tb.pc.toNat ∧
      tb.pc.toNat < last.toNat := by
  have hsize : tb.size ≤ 4096 := h.size_le
  have hend := toNat_add_ofNat tb.pc tb.size
  match n with
  | 0 =>
    have hfirst := (h.onPage_zero _).mp hn
    rw [pageIndex_eq_iff] at hfirst
    simp only [intersects, if_true, h.first_start, not_or, BitVec.not_le, lt_def, hend,
      decide_eq_true_eq] at hinter
    rw [Nat.mod_eq_of_lt (show tb.pc.toNat + tb.size < 2 ^ 32 by omega)] at hinter
    rcases Nat.eq_zero_or_pos tb.size with hzero | hpos
    · exact .inr ⟨hzero, (pageIndex_eq_iff _ _).mpr hfirst, by omega, by omega⟩
    · refine .inl ⟨if start.toNat ≤ tb.pc.toNat then tb.pc else start, ?_, ?_, ?_, ?_⟩
      · split_ifs with hle
        · exact ⟨0, hpos, BitVec.add_zero _⟩
        · refine ⟨start.toNat - tb.pc.toNat, by omega, BitVec.eq_of_toNat_eq ?_⟩
          rw [toNat_add_ofNat]
          omega
      · split_ifs
        · exact (pageIndex_eq_iff _ _).mpr hfirst
        · rfl
      · split_ifs with hle
        · exact hle
        · exact le_rfl
      · split_ifs <;> omega
  | 1 =>
    have hrest : ((tb.pc + ofNat 32 tb.size) &&& ~~~ targetPageMask).toNat =
        (tb.pc.toNat + tb.size) % 2 ^ 32 % 4096 := by
      rw [and_not_targetPageMask_toNat, hend]
    have hpage := h.second_start hn
    have hsecond := (h.onPage_one (pageIndex start)).mp hn
    simp only [intersects, if_neg (show (1 : Fin 2) ≠ 0 by decide), not_or, BitVec.not_le,
      lt_def, toNat_add, hpage, hrest, decide_eq_true_eq] at hinter
    have hpos : 1 ≤ tb.size := by
      by_contra hzero
      obtain ⟨hlastByte, hother⟩ := hsecond
      have hnone : tb.size = 0 := by omega
      rw [pageIndex_eq_iff, toNat_sub, hend, show (1 : TargetUlong).toNat = 1 from rfl] at hlastByte
      rw [ne_eq, pageIndex_eq_iff] at hother
      rw [hnone] at hlastByte hinter
      omega
    rw [ne_eq, pageIndex_eq_iff, pageIndex_eq_iff, lastByte_toNat hpos] at hsecond
    refine .inl ⟨start, ⟨(start - tb.pc).toNat, ?_, ?_⟩, rfl, le_rfl, ?_⟩
    · rw [toNat_sub]
      omega
    · rw [BitVec.ofNat_toNat, BitVec.setWidth_eq, BitVec.add_comm, BitVec.sub_add_cancel]
    · omega

/-- The blocks `tb_invalidate_phys_range` takes: those with a byte in the range, and those without
bytes at an address behind its start that is not the first of a page. -/
def TranslationBlock.Meets (tb : TranslationBlock) (start last : TargetUlong) : Prop :=
  (∃ a, tb.HasByte a ∧ start.toNat ≤ a.toNat ∧ a.toNat < last.toNat) ∨
    tb.size = 0 ∧ start.toNat < tb.pc.toNat ∧ tb.pc.toNat < last.toNat ∧ tb.pc.toNat % 4096 ≠ 0

/-- A block meets the range on the page of `start`, or it meets what is left behind that page. -/
theorem meets_iff (h : tb.Linked) (hlast : last.toNat ≤ 0xFFFFF000) (hlt : start.toNat < last.toNat) :
    tb.Meets start last ↔
      (∃ n, tb.OnPage n (pageIndex start) ∧ Store.intersects tb n start last = true) ∨
      tb.Meets ((start &&& targetPageMask) + ofNat 32 targetPageSize) last := by
  have hnext : ((start &&& targetPageMask) + ofNat 32 targetPageSize).toNat =
      start.toNat / 4096 * 4096 + 4096 := by
    rw [next_page_toNat]
    omega
  unfold TranslationBlock.Meets
  rw [hnext]
  constructor
  · rintro (⟨a, hbyte, hlow, hhigh⟩ | ⟨hzero, hlow, hhigh, hinside⟩)
    · by_cases hpage : pageIndex a = pageIndex start
      · exact .inl (intersects_of_byte h hbyte hpage hlow hhigh (by omega))
      · rw [pageIndex_eq_iff] at hpage
        exact .inr (.inl ⟨a, hbyte, by omega, hhigh⟩)
    · by_cases hpage : pageIndex tb.pc = pageIndex start
      · refine .inl ⟨0, (h.onPage_zero _).mpr hpage, ?_⟩
        have hstart : tb.pageAddr 0 + (tb.pc &&& ~~~ targetPageMask) = tb.pc := by
          rw [h.pageAddr_zero, page_add_offset]
        simp only [intersects, if_true, hstart, hzero, not_or, BitVec.not_le, lt_def,
          decide_eq_true_eq]
        exact ⟨by simpa using hlow, hhigh⟩
      · rw [pageIndex_eq_iff] at hpage
        exact .inr (.inr ⟨hzero, by omega, hhigh, hinside⟩)
  · rintro (⟨n, hn, hinter⟩ | ⟨a, hbyte, hlow, hhigh⟩ | ⟨hzero, hlow, hhigh, hinside⟩)
    · rcases byte_of_intersects h hlast hlt hn hinter with
        ⟨a, hbyte, -, hlow, hhigh⟩ | ⟨hzero, hpage, hlow, hhigh⟩
      · exact .inl ⟨a, hbyte, hlow, hhigh⟩
      · rw [pageIndex_eq_iff] at hpage
        exact .inr ⟨hzero, hlow, hhigh, by omega⟩
    · exact .inl ⟨a, hbyte, by omega, hhigh⟩
    · exact .inr ⟨hzero, by omega, hhigh, hinside⟩

/-- Whenever the loop ends, the range does not reach into the last page, and the blocks that stay
live are exactly those that do not meet the range. -/
theorem tbInvalidatePhysRange_live (h : Inv cfg s none lists)
    (hrun : Store.tbInvalidatePhysRange last fuel start s = some s') :
    (last.toNat ≤ start.toNat ∨ last.toNat ≤ 0xFFFFF000) ∧
      ∀ t, t ∈ s'.live ↔ t ∈ s.live ∧ ¬ (s.tbs t).Meets start last := by
  have hlast : last.toNat ≤ start.toNat ∨ last.toNat ≤ 0xFFFFF000 := by
    by_contra hlarge
    rw [not_or, not_le, not_le] at hlarge
    rw [tbInvalidatePhysRange_top hlarge.2 hlarge.1 h] at hrun
    cases hrun
  refine ⟨hlast, ?_⟩
  induction fuel generalizing s lists start with
  | zero => cases hrun
  | succ fuel ih =>
    rcases Nat.lt_or_ge start.toNat last.toNat with hlt | hle
    · replace hlast : last.toNat ≤ 0xFFFFF000 := hlast.resolve_left (by omega)
      obtain ⟨s1, lists1, hrun1, h1, hkept1, hlive1⟩ := tbInvalidatePhysPageRange_spec h start last
      rw [tbInvalidatePhysRange, if_pos (BitVec.lt_def.mpr hlt), hrun1, bind_eq_bind,
        bind_some] at hrun
      intro t
      rw [ih h1 hrun (.inr hlast), hlive1, hkept1.tbs, and_assoc]
      refine and_congr_right fun ht => ?_
      rw [meets_iff (h.pages.linked t (h.live_lt ht)) hlast hlt, not_or]
      simp only [not_exists, not_and, Bool.not_eq_true]
    · rw [tbInvalidatePhysRange, if_neg (by rw [lt_def]; omega)] at hrun
      cases hrun
      refine fun t => (and_iff_left ?_).symm
      rintro (⟨a, -, hlow, hhigh⟩ | ⟨-, hlow, hhigh, -⟩) <;> omega

/-- The loop ends when the range does not reach into the last page. -/
theorem tbInvalidatePhysRange_ends {last start : TargetUlong} {fuel : Nat}
    (hlast : last.toNat ≤ start.toNat ∨ last.toNat ≤ 0xFFFFF000)
    (hfuel : last.toNat ≤ start.toNat / 4096 * 4096 + fuel * 4096) (h : Inv cfg s none lists) :
    ∃ s', Store.tbInvalidatePhysRange last (fuel + 1) start s = some s' := by
  induction fuel generalizing s lists start with
  | zero =>
    refine ⟨s, ?_⟩
    rw [tbInvalidatePhysRange, if_neg]
    rw [lt_def]
    omega
  | succ fuel ih =>
    rw [tbInvalidatePhysRange]
    split
    · rename_i hlt
      rw [lt_def] at hlt
      obtain ⟨s1, lists1, hrun1, h1, -⟩ := tbInvalidatePhysPageRange_spec h start last
      rw [hrun1, bind_eq_bind, bind_some]
      have hnext := next_page_toNat start
      rw [Nat.mod_eq_of_lt (by omega)] at hnext
      refine ih (by omega) ?_ h1
      rw [hnext, Nat.add_div_right _ (by decide), Nat.mul_div_cancel _ (by decide)]
      linarith
    · exact ⟨s, rfl⟩

/-- After `tb_invalidate_phys_range` no live block has a byte in the range. -/
theorem tbInvalidatePhysRange_clears (h : Inv cfg s none lists)
    (hrun : Store.tbInvalidatePhysRange last fuel start s = some s') :
    (∃ lists', Inv cfg s' none lists') ∧ Kept s s' ∧ ∀ t ∈ s'.live, ∀ a, (s'.tbs t).HasByte a →
      ¬ (start.toNat ≤ a.toNat ∧ a.toNat < last.toNat) := by
  obtain ⟨lists', h', hkept⟩ := tbInvalidatePhysRange_inv h hrun
  obtain ⟨-, hlive⟩ := tbInvalidatePhysRange_live h hrun
  refine ⟨⟨lists', h'⟩, hkept, fun t ht a hbyte hrange => ?_⟩
  exact ((hlive t).mp ht).2 (.inl ⟨a, hkept.tbs ▸ hbyte, hrange⟩)

/-- In every store reached from start-up, `tb_invalidate_phys_range` ends, leaves no live block with
a byte in the range and keeps the blocks without one, exactly when the range is empty, or it stops
before the last page and no block without bytes lies inside it. -/
theorem tb_invalidate_phys_range_iff {s₀ : Store host} {calls : List StoreCall}
    (hinit : s₀.Initial cfg) (hreach : Run (StoreStep cfg) s₀ calls s) (start last : TargetUlong) :
    (∃ fuel s', Store.tbInvalidatePhysRange last fuel start s = some s' ∧
      (∀ t ∈ s'.live, ∀ a, (s'.tbs t).HasByte a → ¬ (start.toNat ≤ a.toNat ∧ a.toNat < last.toNat)) ∧
      ∀ t ∈ s.live, (∀ a, (s.tbs t).HasByte a →
        ¬ (start.toNat ≤ a.toNat ∧ a.toNat < last.toNat)) → t ∈ s'.live) ↔
    last.toNat ≤ start.toNat ∨ last.toNat ≤ 0xFFFFF000 ∧
      ∀ t ∈ s.live, (s.tbs t).size = 0 →
        ¬ (start.toNat < (s.tbs t).pc.toNat ∧ (s.tbs t).pc.toNat < last.toNat ∧
          (s.tbs t).pc.toNat % 4096 ≠ 0) := by
  obtain ⟨lists, h⟩ := inv_run hreach ⟨_, inv_initial hinit⟩
  constructor
  · rintro ⟨fuel, s', hrun, -, hkeep⟩
    obtain ⟨hlast, hlive⟩ := tbInvalidatePhysRange_live h hrun
    refine hlast.imp_right fun hlast => ⟨hlast, fun t ht hzero hinside => ?_⟩
    refine ((hlive t).mp (hkeep t ht ?_)).2 (.inr ⟨hzero, hinside⟩)
    rintro a ⟨i, hi, -⟩
    omega
  · intro hcond
    have hfuel : last.toNat ≤ start.toNat / 4096 * 4096 + 2 ^ 20 * 4096 := by
      omega
    obtain ⟨s', hrun⟩ := tbInvalidatePhysRange_ends (hcond.imp_right And.left) hfuel h
    obtain ⟨-, hkept, hclear⟩ := tbInvalidatePhysRange_clears h hrun
    obtain ⟨-, hlive⟩ := tbInvalidatePhysRange_live h hrun
    refine ⟨_, s', hrun, hclear, fun t ht hnone => (hlive t).mpr ⟨ht, ?_⟩⟩
    rintro (⟨a, hbyte, hrange⟩ | ⟨hzero, hinside⟩)
    · exact hnone a hbyte hrange
    · rcases hcond with hempty | ⟨-, hfree⟩
      · omega
      · exact hfree t ht hzero hinside

theorem tb_invalidate_phys_range_block : ∃ s : Store .bits32,
    Run (StoreStep smallConfig) (emptyStore smallConfig) [shortBlock 0x1000] s ∧ 0 ∈ s.live ∧
    ∃ fuel s', Store.tbInvalidatePhysRange 0x1002 fuel 0x1001 s = some s' ∧ 0 ∉ s'.live := by
  obtain ⟨s, hs⟩ : ∃ s, (emptyStore smallConfig).exec smallConfig (shortBlock 0x1000) = some s := ⟨_, rfl⟩
  have hreach : Run (StoreStep smallConfig) (emptyStore smallConfig) [shortBlock 0x1000] s :=
    Run.cons hs (Run.nil s)
  obtain ⟨hlive, hsize, hpc⟩ : s.live = {0} ∧ (s.tbs 0).size = 4 ∧ (s.tbs 0).pc = 0x1000 := by
    cases hs
    exact ⟨rfl, rfl, rfl⟩
  obtain ⟨fuel, s', hrun, hclear, -⟩ :=
    (tb_invalidate_phys_range_iff (emptyStore_initial smallConfig) hreach 0x1001 0x1002).mpr
      (.inr ⟨by decide, fun t ht hzero => by
        rw [hlive, Finset.mem_singleton] at ht
        rw [ht, hsize] at hzero
        cases hzero⟩)
  refine ⟨s, hreach, hlive ▸ Finset.mem_singleton_self 0, fuel, s', hrun, fun hstay => ?_⟩
  obtain ⟨lists, h⟩ := inv_run hreach ⟨_, inv_initial (emptyStore_initial smallConfig)⟩
  obtain ⟨-, -, hkept⟩ := tbInvalidatePhysRange_inv h hrun
  refine hclear 0 hstay 0x1001 ⟨1, ?_, ?_⟩ ⟨by decide, by decide⟩
  · rw [hkept.tbs, hsize]
    decide
  · rw [hkept.tbs, hpc]
    rfl

/-- For a range in the last page the loop never ends, whatever blocks there are. And a block without
bytes is taken although no byte of the range is its own. -/
theorem tb_invalidate_phys_range_fails :
    (∀ (s₀ s : Store .bits32) (calls : List StoreCall), s₀.Initial smallConfig →
      Run (StoreStep smallConfig) s₀ calls s →
      ∀ fuel, Store.tbInvalidatePhysRange 0xfffff004 fuel 0xfffff000 s = none) ∧
    ∃ s s' : Store .bits32,
      Run (StoreStep smallConfig) (emptyStore smallConfig) [interceptBlock 0xffff0004] s ∧
      0 ∈ s.live ∧ (∀ a, ¬ (s.tbs 0).HasByte a) ∧
      Store.tbInvalidatePhysRange 0xffff1000 Store.pageLoopBound 0xffff0000 s = some s' ∧
      0 ∉ s'.live := by
  constructor
  · intro s₀ s calls hinit hreach fuel
    obtain ⟨lists, h⟩ := inv_run hreach ⟨_, inv_initial hinit⟩
    exact tbInvalidatePhysRange_top (by decide) (by decide) h
  · obtain ⟨s, hs⟩ : ∃ s, (emptyStore smallConfig).exec smallConfig (interceptBlock 0xffff0004) =
        some s := ⟨_, rfl⟩
    have hreach : Run (StoreStep smallConfig) (emptyStore smallConfig)
        [interceptBlock 0xffff0004] s := Run.cons hs (Run.nil s)
    obtain ⟨hlive, hsize, hpc⟩ : 0 ∈ s.live ∧ (s.tbs 0).size = 0 ∧ (s.tbs 0).pc = 0xffff0004 := by
      cases hs
      exact ⟨Finset.mem_insert_self .., rfl, rfl⟩
    obtain ⟨lists, h⟩ := inv_run hreach ⟨_, inv_initial (emptyStore_initial smallConfig)⟩
    obtain ⟨s', hrun⟩ := @tbInvalidatePhysRange_ends _ _ _ _ 0xffff1000 0xffff0000 (2 ^ 20)
      (.inr (by decide)) (by decide) h
    refine ⟨s, s', hreach, hlive, ?_, hrun, fun hstay => ?_⟩
    · rintro a ⟨i, hi, -⟩
      omega
    · refine (((tbInvalidatePhysRange_live h hrun).2 0).mp hstay).2 (.inr ⟨hsize, ?_⟩)
      rw [hpc]
      decide

/-- The flags of every page after the loop of `page_set_flags`. -/
theorem setFlagsLoop_flags {flags : BitVec 32} {addr len : TargetUlong} (h : Inv cfg s none lists)
    (haddr : addr.toNat % 4096 = 0) (hlen : len.toNat % 4096 = 0) (hfit : addr.toNat + len.toNat ≤ 2 ^ 32)
    (hrun : Store.setFlagsLoop flags fuel addr len s = some s') (p : PageIndex) :
    s'.flagsAt p =
      if Touches addr.toNat (addr.toNat + len.toNat) p then flags else s.flagsAt p := by
  obtain ⟨-, -, -, hpages⟩ := setFlagsLoop_spec h hrun
  have hpage := hpages hlen p
  rw [toNat_sub_pageIndex] at hpage
  rcases hpage with ⟨hin, hflags, -⟩ | ⟨hout, hflags⟩
  · rw [hflags, if_pos]
    rw [Touches]
    omega
  · rw [hflags, if_neg]
    rw [Touches]
    omega

end TcgArm.Tb
