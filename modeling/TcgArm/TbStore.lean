import TcgArm.QhtTable
import TcgArm.TbJumpList

/-! The store of translation blocks of user-mode emulation (`translate-all.c`, `cpu-exec.c`): the
array `tbs[]` filled by a bump allocator, the hash table, the lists of the blocks on each guest
page, the flags of the pages and the jump caches of the CPUs. Guest physical addresses are virtual
ones. A function that would follow a null pointer, fail an assertion or never return has no result.
-/

namespace TcgArm.Tb

open Function

open TbJump (JumpLists)

/-- `target_ulong` and `tb_page_addr_t`. -/
abbrev TargetUlong := BitVec 32

/-- `address >> TARGET_PAGE_BITS`. -/
abbrev PageIndex := BitVec 20

def targetPageBits : Nat := 12

def targetPageSize : Nat := 2 ^ targetPageBits

def targetPageMask : TargetUlong := 0xFFFFF000#32

def pageIndex (addr : TargetUlong) : PageIndex := addr.extractLsb' 12 20

/-- The page address `-1`: there is no second page, or no page is being flushed. -/
def noPage : TargetUlong := 0xFFFFFFFF#32

def pageWrite : BitVec 32 := 0x0002#32

def pageWriteOrg : BitVec 32 := 0x0010#32

def rol32 (x n : UInt32) : UInt32 := (x <<< n) ||| (x >>> (32 - n))

/-- xxhash32 over two 64-bit words and a 32-bit word. -/
def tbHashFunc5 (a0 b0 : UInt64) (e : UInt32) : UInt32 :=
  let prime1 : UInt32 := 2654435761
  let prime2 : UInt32 := 2246822519
  let prime3 : UInt32 := 3266489917
  let prime4 : UInt32 := 668265263
  let seed : UInt32 := 1
  let mix (v x : UInt32) : UInt32 := rol32 (v + x * prime2) 13 * prime1
  let v1 := mix (seed + prime1 + prime2) (a0 >>> 32).toUInt32
  let v2 := mix (seed + prime2) a0.toUInt32
  let v3 := mix (seed + 0) (b0 >>> 32).toUInt32
  let v4 := mix (seed - prime1) b0.toUInt32
  let h := rol32 v1 1 + rol32 v2 7 + rol32 v3 12 + rol32 v4 18 + 20
  let h := rol32 (h + e * prime3) 17 * prime4
  let h := (h ^^^ (h >>> 15)) * prime2
  let h := (h ^^^ (h >>> 13)) * prime3
  h ^^^ (h >>> 16)

def tbHashFunc (physPc pc : TargetUlong) (flags : BitVec 32) : UInt32 :=
  tbHashFunc5 (UInt64.ofNat physPc.toNat) (UInt64.ofNat pc.toNat) (UInt32.ofNat flags.toNat)

def tbJmpCacheBits : Nat := 21

def tbJmpPageBits : Nat := tbJmpCacheBits / 2

def tbJmpPageMask : TargetUlong := BitVec.ofNat 32 (2 ^ tbJmpCacheBits - 2 ^ tbJmpPageBits)

def tbJmpAddrMask : TargetUlong := BitVec.ofNat 32 (2 ^ tbJmpPageBits - 1)

def tbJmpCacheHashFunc (pc : TargetUlong) : TargetUlong :=
  let tmp := pc ^^^ (pc >>> (targetPageBits - tbJmpPageBits))
  ((tmp >>> (targetPageBits - tbJmpPageBits)) &&& tbJmpPageMask) ||| (tmp &&& tbJmpAddrMask)

/-- The key of a block: the part of the CPU state that `cpu_get_tb_cpu_state` extracts. -/
structure Store.Key where
  pc : TargetUlong
  csBase : TargetUlong
  flags : BitVec 32
  deriving DecidableEq

/-- What `tb_gen_code` records about a block; `genCodeSize` and `searchSize` are its local
variables of these names, kept to say where the block's code and search data lie. What the code
itself does at its two `goto_tb` slots is in `exits`: a slot the code has comes with the CPU state
in which the guest leaves by it. -/
structure TranslationBlock where
  pc : TargetUlong
  csBase : TargetUlong
  flags : BitVec 32
  cflags : BitVec 32
  size : Nat
  tcPtr : Nat
  genCodeSize : Nat
  searchSize : Nat
  pageAddr : Fin 2 → TargetUlong
  exits : Fin 2 → Option Store.Key

/-- The pointers of the page lists: `first_tb` of a page and `page_next[n]` of a block. -/
inductive PageField
  | firstTb (index : PageIndex)
  | pageNext (tb : Nat) (n : Fin 2)
  deriving DecidableEq

/-- The code buffer and the host page size, fixed at start-up. Buffer sizes are far above the
1024 bytes kept free at the end, and a block fits between two flushes. -/
structure Config where
  codeGenBuffer : Nat
  codeGenBufferSize : Nat
  codeGenMaxBlocks : Nat
  hostPageBits : Nat
  maxBlocks_pos : 0 < codeGenMaxBlocks
  reserve_le : 1024 ≤ codeGenBufferSize
  pageBits_le : targetPageBits ≤ hostPageBits
  pageBits_lt : hostPageBits < 32

def Config.codeGenHighwater (cfg : Config) : Nat :=
  cfg.codeGenBuffer + (cfg.codeGenBufferSize - 1024)

/-- `qemu_host_page_size`. -/
def Config.hostPageSize (cfg : Config) : Nat := 2 ^ cfg.hostPageBits

/-- `qemu_host_page_mask`, as far as it matters for guest addresses. -/
def Config.hostPageMask (cfg : Config) : TargetUlong := ~~~ BitVec.ofNat 32 (cfg.hostPageSize - 1)

/-- `tcg_ctx.tb_ctx`, the page table and the per-CPU data. A page descriptor exists when its leaf
of 1024 descriptors does. The set `live` is not stored by the program: it holds the blocks that
have been linked and neither invalidated nor flushed since. -/
structure Store (host : Host) where
  codeGenPtr : Nat
  tbs : Nat → TranslationBlock
  jumps : JumpLists
  htable : Qht.Table Nat host
  l1Map : BitVec 10 → Bool
  pageLink : PageField → Option (Nat × Fin 2)
  pageFlags : PageIndex → BitVec 32
  tbJmpCache : Nat → TargetUlong → Option Nat
  tbFlushed : Nat → Bool
  live : Finset Nat

namespace Store

variable {host : Host} (cfg : Config) (s : Store host)

/-- `nb_tbs`. -/
def nbTbs : Nat := s.jumps.nbTbs

def leafOf (index : PageIndex) : BitVec 10 := index.extractLsb' 10 10

/-- `page_find`: the descriptor of a page, named by its index. -/
def pageFind (index : PageIndex) : Option PageIndex :=
  if s.l1Map (leafOf index) then some index else none

/-- `page_find_alloc (index, 1)`: a missing leaf is allocated with all its descriptors zero. -/
def pageFindAlloc (index : PageIndex) : Store host :=
  if s.l1Map (leafOf index) then s
  else
    { s with
      l1Map := update s.l1Map (leafOf index) true
      pageLink := fun f =>
        match f with
        | .firstTb i => if leafOf i = leafOf index then none else s.pageLink f
        | .pageNext _ _ => s.pageLink f
      pageFlags := fun i => if leafOf i = leafOf index then 0 else s.pageFlags i }

def flagsAt (index : PageIndex) : BitVec 32 :=
  if s.l1Map (leafOf index) then s.pageFlags index else 0

def pageGetFlags (address : TargetUlong) : BitVec 32 := s.flagsAt (pageIndex address)

def setPageFlags (index : PageIndex) (flags : BitVec 32) : Store host :=
  { s with pageFlags := update s.pageFlags index flags }

def setPageLink (f : PageField) (v : Option (Nat × Fin 2)) : Store host :=
  { s with pageLink := update s.pageLink f v }

/-- A loop over guest addresses in steps of a page runs through every page at most once before it
repeats itself. -/
def pageLoopBound : Nat := 2 ^ 20 + 1

def protectPage (index : PageIndex) : Store host :=
  match s.pageFind index with
  | none => s
  | some p2 => s.setPageFlags p2 (s.pageFlags p2 &&& ~~~ pageWrite)

/-- The loop of `tb_alloc_page` that takes write access away from the guest pages of a host page,
from `addr` up to `bound`. -/
def protectLoop (bound : Nat) : Nat → TargetUlong → Store host → Option (Store host)
  | 0, _, _ => none
  | fuel + 1, addr, s =>
    if addr.toNat < bound then
      protectLoop bound fuel (addr + BitVec.ofNat 32 targetPageSize) (s.protectPage (pageIndex addr))
    else some s

/-- `page_addr + qemu_host_page_size`, computed in the host's `uintptr_t`. -/
def hostPageEnd (host : Host) (cfg : Config) (pageAddr : TargetUlong) : Nat :=
  (pageAddr.toNat + cfg.hostPageSize) % 2 ^ host.bits

/-- The first half of `tb_alloc_page`: the block becomes the first one on the page's list. -/
def linkEntry (tb : Nat) (n : Fin 2) (pageAddr : TargetUlong) : Store host :=
  let desc := s.tbs tb
  let desc := { desc with pageAddr := update desc.pageAddr n pageAddr }
  let s := { s with tbs := update s.tbs tb desc }
  let p := pageIndex pageAddr
  let s := s.pageFindAlloc p
  let s := s.setPageLink (.pageNext tb n) (s.pageLink (.firstTb p))
  s.setPageLink (.firstTb p) (some (tb, n))

def tbAllocPage (tb : Nat) (n : Fin 2) (pageAddr : TargetUlong) : Option (Store host) :=
  let s := s.linkEntry tb n pageAddr
  if s.pageFlags (pageIndex pageAddr) &&& pageWrite ≠ 0 then
    let pageAddr := pageAddr &&& cfg.hostPageMask
    protectLoop (hostPageEnd host cfg pageAddr) pageLoopBound pageAddr s
  else some s

/-- The search of `tb_page_remove` for the field that points to `tb`. -/
def findInPageList (tb : Nat) : Nat → PageField → Option (PageField × Fin 2)
  | 0, _ => none
  | fuel + 1, ptb =>
    match s.pageLink ptb with
    | none => none
    | some (tb1, n1) =>
      if tb1 = tb then some (ptb, n1) else findInPageList tb fuel (.pageNext tb1 n1)

def tbPageRemove (p : PageIndex) (tb : Nat) : Option (Store host) := do
  let (ptb, n1) ← s.findInPageList tb (2 * s.nbTbs + 1) (.firstTb p)
  return s.setPageLink ptb (s.pageLink (.pageNext tb n1))

def pageListFrom : Nat → PageField → Option (List (Nat × Fin 2))
  | 0, _ => none
  | fuel + 1, f =>
    match s.pageLink f with
    | none => some []
    | some x => (x :: ·) <$> pageListFrom fuel (.pageNext x.1 x.2)

/-- The entries on the list that starts at `first_tb` of a page. -/
def pageList (index : PageIndex) : Option (List (Nat × Fin 2)) :=
  s.pageListFrom (2 * s.nbTbs + 1) (.firstTb index)

def hashOf (tb : TranslationBlock) : UInt32 :=
  tbHashFunc (tb.pageAddr 0 + (tb.pc &&& ~~~ targetPageMask)) tb.pc tb.flags

def removeFromPage (addr : TargetUlong) (tb : Nat) : Option (Store host) := do
  let p ← s.pageFind (pageIndex addr)
  s.tbPageRemove p tb

/-- Both page lists of a block, apart from the list of the page `pageAddr` that the caller is
about to empty. -/
def removeFromPages (tb : Nat) (pageAddr : TargetUlong) : Option (Store host) :=
  let addr := (s.tbs tb).pageAddr
  (if addr 0 ≠ pageAddr then s.removeFromPage (addr 0) tb else some s).bind fun s =>
    if addr 1 ≠ noPage ∧ addr 1 ≠ pageAddr then s.removeFromPage (addr 1) tb else some s

def clearJmpCaches (tb : Nat) : Store host :=
  let h := tbJmpCacheHashFunc (s.tbs tb).pc
  { s with
    tbJmpCache := fun cpu i =>
      if i = h ∧ s.tbJmpCache cpu h = some tb then none else s.tbJmpCache cpu i }

def tbPhysInvalidate (tb : Nat) (pageAddr : TargetUlong) : Option (Store host) := do
  let h := hashOf (s.tbs tb)
  let s := { s with htable := (s.htable.remove tb h).2 }
  let s ← s.removeFromPages tb pageAddr
  let s := s.clearJmpCaches tb
  let jumps ← s.jumps.invalidate tb
  return { s with jumps := jumps, live := s.live.erase tb }

/-- The loop of `tb_invalidate_phys_page`: every block on the list is invalidated, and the next
one is read from the block afterwards. -/
def invalidatePageLoop (addr : TargetUlong) :
    Nat → Option (Nat × Fin 2) → Store host → Option (Store host)
  | _, none, s => some s
  | 0, some _, _ => none
  | fuel + 1, some (tb, n), s => do
    let s ← s.tbPhysInvalidate tb addr
    invalidatePageLoop addr fuel (s.pageLink (.pageNext tb n)) s

def tbInvalidatePhysPage (addr : TargetUlong) : Option (Store host) :=
  let addr := addr &&& targetPageMask
  match s.pageFind (pageIndex addr) with
  | none => some s
  | some p => do
    let s ← invalidatePageLoop addr (2 * s.nbTbs) (s.pageLink (.firstTb p)) s
    return s.setPageLink (.firstTb p) none

/-- Whether a block, found on the list of a page through its slot `n`, has bytes of that page in
the range. -/
def intersects (tb : TranslationBlock) (n : Fin 2) (start last : TargetUlong) : Bool :=
  let tbStart :=
    if n = 0 then tb.pageAddr 0 + (tb.pc &&& ~~~ targetPageMask) else tb.pageAddr 1
  let tbEnd :=
    if n = 0 then tbStart + BitVec.ofNat 32 tb.size
    else tbStart + ((tb.pc + BitVec.ofNat 32 tb.size) &&& ~~~ targetPageMask)
  ¬(tbEnd ≤ start ∨ last ≤ tbStart)

/-- The loop of `tb_invalidate_phys_page_range`: the next block is read before the current one is
invalidated. -/
def invalidateRangeLoop (start last : TargetUlong) :
    Nat → Option (Nat × Fin 2) → Store host → Option (Store host)
  | _, none, s => some s
  | 0, some _, _ => none
  | fuel + 1, some (tb, n), s =>
    let tbNext := s.pageLink (.pageNext tb n)
    (if intersects (s.tbs tb) n start last then s.tbPhysInvalidate tb noPage else some s).bind
      (invalidateRangeLoop start last fuel tbNext)

def tbInvalidatePhysPageRange (start last : TargetUlong) : Option (Store host) :=
  match s.pageFind (pageIndex start) with
  | none => some s
  | some p => invalidateRangeLoop start last (2 * s.nbTbs) (s.pageLink (.firstTb p)) s

/-- The loop of `tb_invalidate_phys_range`, page by page. -/
def tbInvalidatePhysRange (last : TargetUlong) : Nat → TargetUlong → Store host →
    Option (Store host)
  | 0, _, _ => none
  | fuel + 1, start, s =>
    if start < last then do
      let s ← s.tbInvalidatePhysPageRange start last
      tbInvalidatePhysRange last fuel ((start &&& targetPageMask) + BitVec.ofNat 32 targetPageSize) s
    else some s

/-- `qht_reset_size`'s argument in `tb_flush`. -/
def codeGenHtableSize : Nat := 2 ^ 15

def tbFlush : Option (Store host) :=
  if s.codeGenPtr - cfg.codeGenBuffer > cfg.codeGenBufferSize then none
  else
    some
      { s with
        jumps := s.jumps.flush
        tbJmpCache := fun _ _ => none
        tbFlushed := fun _ => true
        htable := (s.htable.resetSize (BitVec.ofNat _ codeGenHtableSize)).2
        pageLink := fun f =>
          match f with
          | .firstTb i => if s.l1Map (leafOf i) then none else s.pageLink f
          | .pageNext _ _ => s.pageLink f
        codeGenPtr := cfg.codeGenBuffer
        live := ∅ }

def tbAlloc (pc : TargetUlong) : Option (Nat × Store host) :=
  if s.nbTbs ≥ cfg.codeGenMaxBlocks then none
  else
    let tb := s.nbTbs
    let desc := { s.tbs tb with pc := pc, cflags := 0 }
    some (tb, { s with jumps := s.jumps.tbAlloc, tbs := update s.tbs tb desc })

def tbFree (tb : Nat) : Store host :=
  if 0 < s.nbTbs ∧ tb = s.nbTbs - 1 then
    { s with codeGenPtr := (s.tbs tb).tcPtr, jumps := { s.jumps with nbTbs := s.nbTbs - 1 } }
  else s

def tbLinkPage (tb : Nat) (physPc physPage2 : TargetUlong) : Option (Store host) := do
  let desc := s.tbs tb
  let h := tbHashFunc physPc desc.pc desc.flags
  let s := { s with htable := (s.htable.insert tb h).2, live := insert tb s.live }
  let s ← s.tbAllocPage cfg tb 0 (physPc &&& targetPageMask)
  if physPage2 ≠ noPage then s.tbAllocPage cfg tb 1 physPage2
  else
    let desc := s.tbs tb
    let desc := { desc with pageAddr := update desc.pageAddr 1 noPage }
    return { s with tbs := update s.tbs tb desc }

/-- What translating and assembling a block gives: the number of guest bytes, at most a page, the
slots with a `goto_tb` and the CPU state in which the guest leaves by each, and the sizes of the code
and the search data. -/
structure Generated where
  size : Nat
  exits : Fin 2 → Option Key
  genCodeSize : Nat
  searchSize : Nat
  size_le : size ≤ targetPageSize
  code_pos : 0 < genCodeSize

def roundUp16 (n : Nat) : Nat := (n + 15) / 16 * 16

/-- The part of `tb_gen_code` after code generation has succeeded. -/
def finishGen (key : Key) (cflags : BitVec 32) (g : Generated) (tb : Nat) : Option (Store host) :=
  let tcPtr := s.codeGenPtr
  let desc : TranslationBlock :=
    { s.tbs tb with
      tcPtr := tcPtr, csBase := key.csBase, flags := key.flags, cflags := cflags
      size := g.size, genCodeSize := g.genCodeSize, searchSize := g.searchSize
      exits := g.exits }
  let s :=
    { s with
      tbs := update s.tbs tb desc
      codeGenPtr := roundUp16 (tcPtr + g.genCodeSize + g.searchSize)
      jumps := s.jumps.initJmpList tb fun n => (g.exits n).isSome }
  let virtPage2 := (key.pc + BitVec.ofNat 32 g.size - 1) &&& targetPageMask
  let physPage2 := if key.pc &&& targetPageMask ≠ virtPage2 then virtPage2 else noPage
  s.tbLinkPage cfg tb key.pc physPage2

/-- The attempts of `tb_gen_code` on an allocated block. `tcg_gen_code` and `encode_search` give up
on a block that passes the high water mark, and the next attempt follows a flush. -/
def genLoop (key : Key) (cflags : BitVec 32) :
    List Generated → Nat × Store host → Option (Nat × Store host)
  | [], _ => none
  | g :: attempts, (tb, s) =>
    if s.codeGenPtr + g.genCodeSize + g.searchSize ≤ cfg.codeGenHighwater then
      (s.finishGen cfg key cflags g tb).map (tb, ·)
    else do
      let s ← s.tbFlush cfg
      genLoop key cflags attempts (← s.tbAlloc cfg key.pc)

/-- `tb_gen_code`, given what its code generation attempts produce. -/
def tbGenCode (key : Key) (cflags : BitVec 32) (attempts : List Generated) :
    Option (Nat × Store host) :=
  match s.tbAlloc cfg key.pc with
  | some start => genLoop cfg key cflags attempts start
  | none => do
    let s ← s.tbFlush cfg
    genLoop cfg key cflags attempts (← s.tbAlloc cfg key.pc)

def tbCmp (key : Key) (tb : TranslationBlock) : Bool :=
  tb.pc = key.pc ∧ tb.pageAddr 0 = key.pc &&& targetPageMask ∧ tb.csBase = key.csBase ∧
    tb.flags = key.flags ∧
    (tb.pageAddr 1 = noPage ∨ tb.pageAddr 1 = (key.pc &&& targetPageMask) + BitVec.ofNat 32 targetPageSize)

def tbFindPhysical (key : Key) : Option Nat :=
  s.htable.lookup (fun tb => tbCmp key (s.tbs tb)) (tbHashFunc key.pc key.pc key.flags)

def setJmpCache (cpu : Nat) (i : TargetUlong) (tb : Nat) : Store host :=
  let cache := update (s.tbJmpCache cpu) i (some tb)
  { s with tbJmpCache := update s.tbJmpCache cpu cache }

def tbFindSlow (cpu : Nat) (key : Key) (cflags : BitVec 32)
    (attempts : List Generated) : Option (Nat × Store host) := do
  let (tb, s) ←
    match s.tbFindPhysical key with
    | some tb => some (tb, s)
    | none => s.tbGenCode cfg key cflags attempts
  return (tb, s.setJmpCache cpu (tbJmpCacheHashFunc key.pc) tb)

def keyMatches (key : Key) (tb : TranslationBlock) : Bool :=
  tb.pc = key.pc ∧ tb.csBase = key.csBase ∧ tb.flags = key.flags

def jmpCacheHit (cpu : Nat) (key : Key) : Option Nat :=
  (s.tbJmpCache cpu (tbJmpCacheHashFunc key.pc)).filter fun tb => keyMatches key (s.tbs tb)

/-- The first half of `tb_find_fast`: the block for the CPU's state. -/
def tbLookup (cpu : Nat) (key : Key) (cflags : BitVec 32) (attempts : List Generated) :
    Option (Nat × Store host) :=
  match s.jmpCacheHit cpu key with
  | some tb => some (tb, s)
  | none => s.tbFindSlow cfg cpu key cflags attempts

/-- The second half of `tb_find_fast`: the exit the CPU came by is chained to the block, unless
the blocks were flushed. An exit number that is not a slot is outside `jmp_list_next`. -/
def tbChain (cpu : Nat) (lastTb : Option Nat) (tbExit tb : Nat) : Option (Store host) :=
  let lastTb := if s.tbFlushed cpu then none else lastTb
  let s := { s with tbFlushed := update s.tbFlushed cpu false }
  match lastTb with
  | none => some s
  | some last =>
    if hexit : tbExit < 2 then
      some { s with jumps := s.jumps.tbAddJump last ⟨tbExit, hexit⟩ tb }
    else none

def tbFindFast (cpu : Nat) (key : Key) (lastTb : Option Nat) (tbExit : Nat) (cflags : BitVec 32)
    (attempts : List Generated) : Option (Nat × Store host) := do
  let (tb, s) ← s.tbLookup cfg cpu key cflags attempts
  return (tb, ← s.tbChain cpu lastTb tbExit tb)

def tbFromCache (cpu : Nat) (key : Key) : Option Nat :=
  match s.tbFindPhysical key with
  | some tb => some tb
  | none => s.jmpCacheHit cpu key

/-- The loop of `page_set_flags` over `len` bytes. -/
def setFlagsLoop (flags : BitVec 32) : Nat → TargetUlong → TargetUlong → Store host →
    Option (Store host)
  | 0, _, _, _ => none
  | fuel + 1, addr, len, s =>
    if len = 0 then some s
    else
      let p := pageIndex addr
      let s := s.pageFindAlloc p
      (if s.pageFlags p &&& pageWrite = 0 ∧ flags &&& pageWrite ≠ 0 ∧
          s.pageLink (.firstTb p) ≠ none then s.tbInvalidatePhysPage addr else some s).bind fun s =>
        setFlagsLoop flags fuel (addr + BitVec.ofNat 32 targetPageSize)
          (len - BitVec.ofNat 32 targetPageSize) (s.setPageFlags p flags)

/-- `TARGET_PAGE_ALIGN`. -/
def targetPageAlign (addr : TargetUlong) : TargetUlong :=
  (addr + BitVec.ofNat 32 (targetPageSize - 1)) &&& targetPageMask

/-- `page_set_flags`, with its assertion on the range. -/
def pageSetFlags (start last : TargetUlong) (flags : BitVec 32) : Option (Store host) :=
  if start < last then
    let start := start &&& targetPageMask
    let last := targetPageAlign last
    let flags := if flags &&& pageWrite ≠ 0 then flags ||| pageWriteOrg else flags
    setFlagsLoop flags pageLoopBound start (last - start) s
  else none

/-- The loop of `page_unprotect` over the guest pages of a host page. -/
def unprotectLoop (hostEnd : TargetUlong) : Nat → TargetUlong → Store host → Option (Store host)
  | 0, _, _ => none
  | fuel + 1, addr, s =>
    if addr < hostEnd then do
      let p ← s.pageFind (pageIndex addr)
      let s := s.setPageFlags p (s.pageFlags p ||| pageWrite)
      let s ← s.tbInvalidatePhysPage addr
      unprotectLoop hostEnd fuel (addr + BitVec.ofNat 32 targetPageSize) s
    else some s

def pageUnprotect (address : TargetUlong) : Option (Store host) :=
  match s.pageFind (pageIndex address) with
  | none => some s
  | some p =>
    if s.pageFlags p &&& pageWriteOrg ≠ 0 ∧ s.pageFlags p &&& pageWrite = 0 then
      let hostStart := address &&& cfg.hostPageMask
      let hostEnd := hostStart + BitVec.ofNat 32 cfg.hostPageSize
      unprotectLoop hostEnd pageLoopBound hostStart s
    else some s

end Store

end TcgArm.Tb
