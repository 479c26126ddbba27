import TcgArm.TbStore

/-! The jump cache of a virtual CPU with virtual memory (`tb_flush_jmp_cache`, `tb-hash.h`): a table
from the hash of a guest address to the block found there last. The high half of the hash depends on
the page only, so the entries of a page lie side by side and are discarded together when it is
flushed from the TLB. -/

namespace TcgArm.JmpCache

open Transition BitVec Nat

/-- The word and page sizes of a target, in bits; no target has pages smaller than
`TB_JMP_PAGE_SIZE`. -/
structure Target where
  ulongBits : Nat
  pageBits : Nat
  jmpPageBits_le : Tb.tbJmpPageBits ≤ pageBits
  pageBits_le : pageBits ≤ ulongBits

variable (target : Target)

abbrev Target.Ulong := BitVec target.ulongBits

/-- A block with at most a page of guest bytes; `descriptor` is its place in `tbs[]`. -/
structure Block where
  descriptor : Nat
  pc : target.Ulong
  size : Nat
  size_le : size ≤ 2 ^ target.pageBits
  deriving DecidableEq

/-- `cpu->tb_jmp_cache`. -/
abbrev Cache := Nat → Option (Block target)

variable {target}

def jmpPageMask : target.Ulong :=
  BitVec.ofNat _ (2 ^ Tb.tbJmpCacheBits - 2 ^ Tb.tbJmpPageBits)

def jmpAddrMask : target.Ulong := BitVec.ofNat _ (2 ^ Tb.tbJmpPageBits - 1)

def tbJmpCacheHashPage (pc : target.Ulong) : target.Ulong :=
  let tmp := pc ^^^ (pc >>> (target.pageBits - Tb.tbJmpPageBits))
  (tmp >>> (target.pageBits - Tb.tbJmpPageBits)) &&& jmpPageMask

def tbJmpCacheHashFunc (pc : target.Ulong) : target.Ulong :=
  let tmp := pc ^^^ (pc >>> (target.pageBits - Tb.tbJmpPageBits))
  ((tmp >>> (target.pageBits - Tb.tbJmpPageBits)) &&& jmpPageMask) ||| (tmp &&& jmpAddrMask)

/-- `memset` to zero of the `TB_JMP_PAGE_SIZE` entries from `i` on. -/
def clearEntries (cache : Cache target) (i : Nat) : Cache target :=
  fun j => if i ≤ j ∧ j < i + 2 ^ Tb.tbJmpPageBits then none else cache j

def tbFlushJmpCache (cache : Cache target) (addr : target.Ulong) : Cache target :=
  let before := tbJmpCacheHashPage (addr - BitVec.ofNat _ (2 ^ target.pageBits))
  clearEntries (clearEntries cache before.toNat) (tbJmpCacheHashPage addr).toNat

/-- What changes the cache: `tb_find_fast` stores the block it found for its address,
`tb_phys_invalidate` removes a block, a CPU reset, a TLB flush and `tb_flush` clear the cache, and a
page is flushed. -/
inductive Change (target : Target)
  | store (tb : Block target)
  | remove (tb : Block target)
  | clear
  | flushPage (addr : target.Ulong)

def Cache.change (cache : Cache target) : Change target → Cache target
  | .store tb => Function.update cache (tbJmpCacheHashFunc tb.pc).toNat (some tb)
  | .remove tb =>
    let h := (tbJmpCacheHashFunc tb.pc).toNat
    if cache h = some tb then Function.update cache h none else cache
  | .clear => fun _ => none
  | .flushPage addr => tbFlushJmpCache cache addr

/-- Some guest byte of the block lies on the page of `addr`. -/
def Block.OnPage (tb : Block target) (addr : target.Ulong) : Prop :=
  ∃ i < tb.size, (tb.pc + BitVec.ofNat _ i) >>> target.pageBits = addr >>> target.pageBits

section

variable (pc : target.Ulong)

theorem hashFunc_eq_or : ∃ low : target.Ulong, low.toNat < 2 ^ 10 ∧
    tbJmpCacheHashFunc pc = tbJmpCacheHashPage pc ||| low := by
  refine ⟨_, ?_, rfl⟩
  rw [toNat_and]
  refine lt_of_le_of_lt and_le_right ?_
  rw [jmpAddrMask, toNat_ofNat]
  exact lt_of_le_of_lt (mod_le _ _) (by decide)

theorem hashPage_mod : (tbJmpCacheHashPage pc).toNat % 2 ^ 10 = 0 := by
  have hdvd : 2 ^ 10 ∣ 2 ^ target.ulongBits :=
    pow_dvd_pow 2 (le_trans target.jmpPageBits_le target.pageBits_le)
  rw [tbJmpCacheHashPage, toNat_and, and_mod_two_pow, jmpPageMask, toNat_ofNat,
    mod_mod_of_dvd _ hdvd, show (2 ^ Tb.tbJmpCacheBits - 2 ^ Tb.tbJmpPageBits) % 2 ^ 10 = 0 from
    rfl, Nat.and_zero]

theorem hashPage_le :
    (tbJmpCacheHashPage pc).toNat + 2 ^ Tb.tbJmpPageBits ≤ 2 ^ Tb.tbJmpCacheBits := by
  have hle : (tbJmpCacheHashPage pc).toNat ≤ 2 ^ Tb.tbJmpCacheBits - 2 ^ Tb.tbJmpPageBits := by
    rw [tbJmpCacheHashPage, toNat_and]
    refine le_trans and_le_right ?_
    rw [jmpPageMask, toNat_ofNat]
    exact mod_le _ _
  have hbits : 2 ^ Tb.tbJmpPageBits ≤ 2 ^ Tb.tbJmpCacheBits := by decide
  omega

theorem hashFunc_range :
    (tbJmpCacheHashPage pc).toNat ≤ (tbJmpCacheHashFunc pc).toNat ∧
      (tbJmpCacheHashFunc pc).toNat < (tbJmpCacheHashPage pc).toNat + 2 ^ Tb.tbJmpPageBits := by
  obtain ⟨low, hlow, heq⟩ := hashFunc_eq_or pc
  obtain ⟨q, hq⟩ := dvd_of_mod_eq_zero (hashPage_mod pc)
  rw [heq, toNat_or, hq, ← two_pow_add_eq_or_of_lt hlow]
  exact ⟨Nat.le_add_right _ _, Nat.add_lt_add_left hlow _⟩

end

theorem jmpPageMask_low {i : Nat} (hi : i < 10) : (jmpPageMask : target.Ulong).getLsbD i = false := by
  rw [jmpPageMask, getLsbD_ofNat]
  have hbit : (2 ^ Tb.tbJmpCacheBits - 2 ^ Tb.tbJmpPageBits).testBit i = false := by
    interval_cases i <;> rfl
  rw [hbit, Bool.and_false]

variable {addr pc : target.Ulong}

/-- The high half of the hash is the same all over a page. -/
theorem hashPage_congr (h : pc >>> target.pageBits = addr >>> target.pageBits) :
    tbJmpCacheHashPage pc = tbJmpCacheHashPage addr := by
  have hbit {k : Nat} (hk : target.pageBits ≤ k) : pc.getLsbD k = addr.getLsbD k := by
    have := congrArg (getLsbD · (k - target.pageBits)) h
    simpa only [getLsbD_ushiftRight, Nat.add_sub_cancel' hk] using this
  apply eq_of_getLsbD_eq
  intro i hi
  simp only [tbJmpCacheHashPage, getLsbD_and]
  rcases Nat.lt_or_ge i 10 with hlow | hhigh
  · rw [jmpPageMask_low hlow, Bool.and_false, Bool.and_false]
  · have hshift : target.pageBits ≤ target.pageBits - Tb.tbJmpPageBits + i := by
      have : Tb.tbJmpPageBits = 10 := rfl
      omega
    simp only [getLsbD_ushiftRight, getLsbD_xor]
    rw [hbit hshift, hbit (le_trans hshift (Nat.le_add_left _ _))]

/-- The page before the one with number `p`, in an address space of `k` pages. -/
theorem page_before {p q k : Nat} (hq : q < k) (hp : p = (q + 1) % k) : (p + (k - 1)) % k = q := by
  rcases Nat.lt_or_ge (q + 1) k with hlt | hge
  · rw [mod_eq_of_lt hlt] at hp
    rw [show p + (k - 1) = q + k by omega, add_mod_right, mod_eq_of_lt hq]
  · obtain rfl : k = q + 1 := by omega
    rw [mod_self] at hp
    rw [hp, Nat.zero_add, Nat.add_sub_cancel, mod_eq_of_lt hq]

/-- A block with a byte on a page starts on that page or on the one before. -/
theorem Block.OnPage.start {tb : Block target} {addr : target.Ulong} (h : tb.OnPage addr) :
    tb.pc >>> target.pageBits = addr >>> target.pageBits ∨
      tb.pc >>> target.pageBits = (addr - BitVec.ofNat _ (2 ^ target.pageBits)) >>> target.pageBits := by
  obtain ⟨i, hi, hpage⟩ := h
  obtain ⟨k, hk⟩ : ∃ k, 2 ^ target.ulongBits = 2 ^ target.pageBits * k := pow_dvd_pow 2 target.pageBits_le
  have hsize := tb.size_le
  have hpc := tb.pc.isLt
  have haddr := addr.isLt
  simp only [← toNat_inj, toNat_ushiftRight, toNat_add, toNat_sub,
    toNat_ofNat, shiftRight_eq_div_pow] at hpage ⊢
  generalize tb.pc.toNat = pc at hpage hpc ⊢
  generalize addr.toNat = a at hpage haddr ⊢
  rw [hk] at hpage hpc haddr ⊢
  have hb : 0 < 2 ^ target.pageBits := Nat.two_pow_pos _
  generalize 2 ^ target.pageBits = b at *
  have hq : pc / b < k := Nat.div_lt_of_lt_mul hpc
  rw [mod_mul_right_div_self] at hpage ⊢
  have hle : b ≤ b * k := Nat.le_mul_of_pos_right b (zero_lt_of_lt hq)
  rw [mod_eq_of_lt (show i < b * k by omega), Nat.add_div hb,
    div_eq_of_lt (show i < b by omega), Nat.add_zero] at hpage
  split_ifs at hpage
  · right
    have hback := page_before hq hpage.symm
    rcases Nat.lt_or_ge 1 k with hmany | hone
    · have hlt : b < b * k := (Nat.lt_mul_iff_one_lt_right hb).mpr hmany
      have hsum : b * k - b + a = a + b * (k - 1) := by
        rw [Nat.mul_sub, Nat.mul_one]
        omega
      rw [mod_eq_of_lt hlt, hsum, add_mul_div_left _ _ hb, hback]
    · obtain rfl : k = 1 := by omega
      rw [mod_one]
      omega
  · left
    rw [Nat.add_zero, mod_eq_of_lt hq] at hpage
    exact hpage

def Cache.Placed (cache : Cache target) : Prop :=
  ∀ i tb, cache i = some tb → i = (tbJmpCacheHashFunc tb.pc).toNat

variable {cache : Cache target} {tb : Block target}

theorem clearEntries_eq_some {i j : Nat} :
    clearEntries cache i j = some tb ↔ ¬ (i ≤ j ∧ j < i + 2 ^ Tb.tbJmpPageBits) ∧ cache j = some tb := by
  unfold clearEntries
  split_ifs with hin
  · exact ⟨fun h => (by cases h), fun h => absurd hin h.1⟩
  · exact (and_iff_right hin).symm

theorem flush_eq_some {j : Nat} (h : tbFlushJmpCache cache addr j = some tb) : cache j = some tb :=
  (clearEntries_eq_some.mp (clearEntries_eq_some.mp h).2).2

theorem Cache.Placed.change (h : cache.Placed) (op : Change target) :
    (cache.change op).Placed := by
  intro i tb hentry
  cases op with
  | store tb' =>
    rw [Cache.change, Function.update_apply] at hentry
    split_ifs at hentry with hi
    · cases hentry
      exact hi
    · exact h i tb hentry
  | remove tb' =>
    dsimp only [Cache.change] at hentry
    split_ifs at hentry with hsame
    · rw [Function.update_apply] at hentry
      split_ifs at hentry
      exact h i tb hentry
    · exact h i tb hentry
  | clear => cases hentry
  | flushPage addr => exact h i tb (flush_eq_some hentry)

theorem placed_changes (ops : List (Change target)) :
    (ops.foldl Cache.change fun _ => none : Cache target).Placed := by
  induction ops using List.reverseRecOn with
  | nil => exact fun i tb hentry => (by cases hentry)
  | append_singleton ops op ih =>
    rw [List.foldl_append]
    exact ih.change op

theorem hash_outside (h : tbJmpCacheHashPage pc ≠ tbJmpCacheHashPage addr) :
    ¬ ((tbJmpCacheHashPage addr).toNat ≤ (tbJmpCacheHashFunc pc).toNat ∧
      (tbJmpCacheHashFunc pc).toNat < (tbJmpCacheHashPage addr).toNat + 2 ^ Tb.tbJmpPageBits) := by
  rw [ne_eq, ← toNat_inj] at h
  have hrange := hashFunc_range pc
  have hpc := hashPage_mod pc
  have haddr := hashPage_mod addr
  rw [show Tb.tbJmpPageBits = 10 from rfl] at hrange ⊢
  omega

/-- Whatever was stored in the cache and removed from it before, no entry points to a block with a
byte on the flushed page. The flush writes inside the table, and the entries of other hash pages
than those of the page and of the page before keep their blocks. -/
theorem tb_flush_jmp_cache_spec (ops : List (Change target)) (addr : target.Ulong) :
    let cache : Cache target := ops.foldl Cache.change fun _ => none
    let before := tbJmpCacheHashPage (addr - BitVec.ofNat _ (2 ^ target.pageBits))
    (∀ i tb, tbFlushJmpCache cache addr i = some tb → ¬ tb.OnPage addr) ∧
    (∀ i, 2 ^ Tb.tbJmpCacheBits ≤ i → tbFlushJmpCache cache addr i = cache i) ∧
    ∀ pc : target.Ulong, tbJmpCacheHashPage pc ≠ tbJmpCacheHashPage addr →
      tbJmpCacheHashPage pc ≠ before →
      tbFlushJmpCache cache addr (tbJmpCacheHashFunc pc).toNat = cache (tbJmpCacheHashFunc pc).toNat := by
  intro cache before
  refine ⟨fun i tb hentry hpage => ?_, fun i hi => ?_, fun pc hpage hbefore => ?_⟩
  · obtain ⟨hout, hrest⟩ := clearEntries_eq_some.mp hentry
    obtain ⟨hout', hold⟩ := clearEntries_eq_some.mp hrest
    have hrange := hashFunc_range tb.pc
    rw [← placed_changes ops i tb hold] at hrange
    rcases hpage.start with hsame | hprev
    · exact hout (hashPage_congr hsame ▸ hrange)
    · exact hout' (hashPage_congr hprev ▸ hrange)
  · have haddr := hashPage_le addr
    have hbefore := hashPage_le (addr - BitVec.ofNat target.ulongBits (2 ^ target.pageBits))
    rw [tbFlushJmpCache, clearEntries, if_neg (by omega), clearEntries, if_neg (by omega)]
  · rw [tbFlushJmpCache, clearEntries, if_neg (hash_outside hpage), clearEntries,
      if_neg (hash_outside hbefore)]

/-- Words of 32 bits and pages of 4 KiB. -/
def armUser : Target := ⟨32, 12, by decide, by decide⟩

example (pc : BitVec 32) : tbJmpCacheHashFunc (show armUser.Ulong from pc) = Tb.tbJmpCacheHashFunc pc := rfl

/-- A block of eight bytes across the boundary to the page `0x2000`. -/
def boundaryBlock : Block armUser := ⟨0, 0x1ffc, 8, by decide⟩

theorem tb_flush_jmp_cache_boundary :
    let cache : Cache armUser := [.store boundaryBlock].foldl Cache.change fun _ => none
    boundaryBlock.OnPage 0x2345 ∧ cache 0x403 = some boundaryBlock ∧
      tbFlushJmpCache cache 0x2345 0x403 ≠ some boundaryBlock := by
  have hpage : boundaryBlock.OnPage 0x2345 := ⟨4, by decide, by decide⟩
  refine ⟨hpage, by decide, fun hentry => ?_⟩
  exact (tb_flush_jmp_cache_spec [.store boundaryBlock] (show armUser.Ulong from 0x2345)).1 _ _ hentry hpage

def precedingBlock : Block armUser := ⟨0, 0x1000, 4, by decide⟩

/-- The entry of a block on the page before is cleared as well; its hash is not that of the page. -/
theorem preceding_page_cleared :
    let cache : Cache armUser := [.store precedingBlock].foldl Cache.change fun _ => none
    let i := (tbJmpCacheHashFunc precedingBlock.pc).toNat
    tbJmpCacheHashPage precedingBlock.pc ≠ tbJmpCacheHashPage (show armUser.Ulong from 0x2100) ∧
      cache i = some precedingBlock ∧ tbFlushJmpCache cache 0x2100 i = none := by
  decide

end TcgArm.JmpCache
