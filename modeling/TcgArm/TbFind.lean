import TcgArm.PageProtect

/-! Looking blocks up from several CPUs (`cpu-exec.c`). `tb_find_fast` holds the lock while it asks
the jump cache and the hash table, but a lookup that misses drops it, takes it again with the lock
of the memory map, asks the table once more and only then generates a block. Between the two parts
any other operation on the store may happen. -/

namespace TcgArm.Tb

open BitVec Finset Option Store Transition

variable {host : Host} {cfg : Config} {s s' : Store host} {lists : PageIndex → List (Nat × Fin 2)}

/-- A lookup in the window of `tb_find_slow` in which it has dropped the lock. -/
structure Pending where
  key : Store.Key
  lastTb : Option Nat
  tbExit : Nat
  cflags : BitVec 32

/-- The store and the lookups that wait for the lock. -/
structure Finder (host : Host) where
  store : Store host
  pending : Nat → Option Pending

/-- The steps: a call of `exec` begins on a CPU, the first part of `tb_find_fast`, its second part,
and any other operation on the store. -/
inductive FindLabel
  | enter (cpu : Nat)
  | find (cpu : Nat) (lookup : Pending)
  | resume (cpu : Nat) (attempts : List Store.Generated)
  | other (call : StoreCall)

namespace Store

variable (s : Store host)

/-- What `tb_find_fast` finds before the lock is dropped. -/
def tbFindFirst (cpu : Nat) (key : Key) : Option (Nat × Store host) :=
  match s.jmpCacheHit cpu key with
  | some tb => some (tb, s)
  | none =>
    (s.tbFindPhysical key).map fun tb => (tb, s.setJmpCache cpu (tbJmpCacheHashFunc key.pc) tb)

/-- The block to chain from was generated after the last flush, or the CPU has yet to learn of that
flush. -/
def CanChain (cpu : Nat) (lastTb : Option Nat) : Prop :=
  ∀ last ∈ lastTb, s.tbFlushed cpu = true ∨ last < s.nbTbs

instance (cpu : Nat) (lastTb : Option Nat) : Decidable (s.CanChain cpu lastTb) :=
  inferInstanceAs (Decidable (∀ last ∈ lastTb, _))

/-- The end of `tb_find_fast`: the exit the CPU came by is chained to the block that was found, and
the block is returned. -/
def finishFind (cpu : Nat) (lookup : Pending) : Nat × Store host → Option (Nat × Store host)
  | (tb, s) =>
    if s.CanChain cpu lookup.lastTb then
      (s.tbChain cpu lookup.lastTb lookup.tbExit tb).map (tb, ·)
    else none

end Store

/-- The operations apart from generating and looking up, which have labels of their own. -/
def StoreCall.looksUp : StoreCall → Bool
  | .genCode .. | .findFast .. => true
  | .addJump .. | .invalidate _ | .invalidatePage _ | .invalidateRange _ _ | .free _ | .flush
  | .setFlags _ _ _ | .unprotect _ => false

/-- One step, with the block that `tb_find_fast` returns if the step ends it. -/
def Finder.exec (cfg : Config) (x : Finder host) : FindLabel → Option (Option Nat × Finder host)
  | .enter cpu =>
    let flushed := Function.update x.store.tbFlushed cpu false
    some (none, { x with store := { x.store with tbFlushed := flushed } })
  | .find cpu lookup =>
    match x.pending cpu with
    | some _ => none
    | none =>
      match x.store.tbFindFirst cpu lookup.key with
      | none => some (none, { x with pending := Function.update x.pending cpu (some lookup) })
      | some found =>
        (Store.finishFind cpu lookup found).map fun (tb, s) => (some tb, { x with store := s })
  | .resume cpu attempts =>
    match x.pending cpu with
    | none => none
    | some lookup =>
      (x.store.tbFindSlow cfg cpu lookup.key lookup.cflags attempts).bind fun found =>
        (Store.finishFind cpu lookup found).map fun (tb, s) =>
          (some tb, ⟨s, Function.update x.pending cpu none⟩)
  | .other call =>
    if call.looksUp then none
    else (x.store.exec cfg call).map fun s => (none, { x with store := s })

def Finder.Regular (x : Finder host) : FindLabel → Prop
  | .resume cpu attempts => ∀ lookup ∈ x.pending cpu,
      lookup.key.pc.toNat % targetPageSize = 0 → ∀ g ∈ attempts, 1 ≤ g.size
  | .enter _ | .find .. | .other _ => True

def FindStep (cfg : Config) (x : Finder host) (label : FindLabel) (y : Finder host) : Prop :=
  ∃ ret, x.exec cfg label = some (ret, y)

def Finder.keyOf (x : Finder host) : FindLabel → Option Store.Key
  | .find _ lookup => some lookup.key
  | .resume cpu _ => (x.pending cpu).map Pending.key
  | .enter _ | .other _ => none

/-- The second page that `tb_cmp` derives from the start of a block. -/
def TranslationBlock.PageAfter (tb : TranslationBlock) : Prop :=
  tb.pageAddr 1 = noPage ∨ tb.pageAddr 1 = (tb.pc &&& targetPageMask) + BitVec.ofNat 32 targetPageSize

/-- `tb_cmp` can match every block of the store. -/
def Comparable (s : Store host) : Prop := ∀ t < s.nbTbs, (s.tbs t).PageAfter

/-- The second page of a block is the page after the first one, unless the block starts a page and
has no byte. -/
theorem secondPage_cases (pc : TargetUlong) {size : Nat}
    (hpos : pc.toNat % targetPageSize = 0 → 1 ≤ size) (hle : size ≤ targetPageSize) :
    secondPage pc size = noPage ∨
      secondPage pc size = (pc &&& targetPageMask) + BitVec.ofNat 32 targetPageSize := by
  have hpos : pc.toNat % 4096 = 0 → 1 ≤ size := hpos
  have hle : size ≤ 4096 := hle
  simp only [secondPage]
  split
  · rename_i hne
    right
    have hlast : (pc + BitVec.ofNat 32 size - 1).toNat = (pc.toNat + size + (2 ^ 32 - 1)) % 2 ^ 32 := by
      rw [toNat_sub, toNat_add, toNat_ofNat,
        show (1 : TargetUlong).toNat = 1 from rfl]
      omega
    rw [ne_eq, ← toNat_inj, and_targetPageMask_toNat, and_targetPageMask_toNat, hlast] at hne
    apply eq_of_toNat_eq
    rw [and_targetPageMask_toNat, toNat_add, and_targetPageMask_toNat, hlast,
      toNat_ofNat, show targetPageSize % 2 ^ 32 = 4096 from rfl]
    omega
  · exact Or.inl rfl

theorem hashOf_linked {tb : TranslationBlock} (h : tb.Linked) :
    Store.hashOf tb = tbHashFunc tb.pc tb.pc tb.flags := by
  rw [hashOf, h.pageAddr_zero, page_add_offset]

variable {key : Store.Key} {cpu t : Nat} {attempts : List Store.Generated} {cflags : BitVec 32}
    {lookup : Pending} {g : Store.Generated} {x : Finder host} {y : Finder host} {u : Nat}

/-- The table finds a block for the key when one is live. -/
theorem tbFindPhysical_complete (h : Inv cfg s none lists) (hcmp : Comparable s) (ht : t ∈ s.live)
    (hkey : Store.keyMatches key (s.tbs t) = true) :
    ∃ u, s.tbFindPhysical key = some u := by
  have hlinked := h.pages.linked t (h.live_lt ht)
  have hafter := hcmp t (h.live_lt ht)
  simp only [keyMatches, decide_eq_true_eq] at hkey
  obtain ⟨hpc, hcs, hflags⟩ := hkey
  have hmem : (t, tbHashFunc key.pc key.pc key.flags) ∈ s.live.image (hashEntry s.tbs) := by
    refine Finset.mem_image.mpr ⟨t, ht, ?_⟩
    rw [hashEntry, hashOf_linked hlinked, hpc, hflags]
  have hcmp : tbCmp key (s.tbs t) = true := by
    simp only [tbCmp, decide_eq_true_eq]
    exact ⟨hpc, hpc ▸ hlinked.pageAddr_zero, hcs, hflags, hpc ▸ hafter⟩
  cases hfind : s.tbFindPhysical key with
  | some u => exact ⟨u, rfl⟩
  | none =>
    have hnone := (h.hash.lookup _ _).2 hfind t hmem
    rw [hcmp] at hnone
    cases hnone

def Unique (s : Store host) : Prop :=
  ∀ t ∈ s.live, ∀ u ∈ s.live, (s.tbs t).pc = (s.tbs u).pc → (s.tbs t).csBase = (s.tbs u).csBase →
    (s.tbs t).flags = (s.tbs u).flags → t = u

theorem Unique.of_keyMatches (h : Unique s) (ht : t ∈ s.live) (hu : u ∈ s.live)
    (hkt : Store.keyMatches key (s.tbs t) = true) (hku : Store.keyMatches key (s.tbs u) = true) :
    t = u := by
  simp only [keyMatches, decide_eq_true_eq] at hkt hku
  exact h t ht u hu (hkt.1.trans hku.1.symm) (hkt.2.1.trans hku.2.1.symm) (hkt.2.2.trans hku.2.2.symm)

/-- `tb_from_cache` gives the live block for the key. -/
theorem tbFromCache_eq_some_iff (h : Inv cfg s none lists) (hcmp : Comparable s) (hunique : Unique s) :
    s.tbFromCache cpu key = some t ↔ t ∈ s.live ∧ Store.keyMatches key (s.tbs t) = true := by
  unfold tbFromCache
  cases hfind : s.tbFindPhysical key with
  | some u =>
    obtain ⟨hu, hku⟩ := tbFindPhysical_spec h hfind
    constructor
    · intro heq
      cases heq
      exact ⟨hu, hku⟩
    · rintro ⟨ht, hkt⟩
      rw [hunique.of_keyMatches hu ht hku hkt]
  | none =>
    constructor
    · exact fun hhit => jmpCacheHit_spec h hhit
    · rintro ⟨ht, hkt⟩
      obtain ⟨u, hu⟩ := tbFindPhysical_complete h hcmp ht hkt
      cases hfind.symm.trans hu

/-- The blocks of the store stay, apart from those that go. -/
structure Fewer (s s' : Store host) : Prop where
  live : s'.live ⊆ s.live
  tbs : ∀ t < s'.nbTbs, t < s.nbTbs ∧ s'.tbs t = s.tbs t

theorem Fewer.comparable (h : Fewer s s') (hcmp : Comparable s) : Comparable s' := by
  intro t ht
  obtain ⟨hlt, heq⟩ := h.tbs t ht
  exact heq ▸ hcmp t hlt

theorem Fewer.unique {lists' : PageIndex → List (Nat × Fin 2)} (h : Fewer s s')
    (hinv : Inv cfg s' none lists') (hunique : Unique s) : Unique s' := by
  intro t ht u hu
  rw [(h.tbs t (hinv.live_lt ht)).2, (h.tbs u (hinv.live_lt hu)).2]
  exact hunique t (h.live ht) u (h.live hu)

theorem fewer_other {call : StoreCall} (h : Inv cfg s none lists) (hcall : call.looksUp = false)
    (hstep : StoreStep cfg s call s') : Fewer s s' := by
  have hnone : call.attempts = [] := by
    cases call <;> first | rfl | cases hcall
  refine ⟨?_, fun t ht => ?_⟩
  · cases blocks_step h hstep with
    | same hsame => exact hsame.live
    | generated hgen =>
      obtain ⟨-, -, -, g, hg, -⟩ := hgen
      rw [hnone] at hg
      cases hg
    | freed tb hfree =>
      rw [hfree, tbFree]
      split <;> exact Finset.Subset.refl _
    | flushed hflushed =>
      rw [hflushed.live]
      exact empty_subset _
  · rcases oldOrGenerated_step h hstep ht with hold | ⟨g, hg, -⟩
    · exact hold
    · rw [hnone] at hg
      cases hg

/-- A generated block joins blocks for other CPU states only. -/
theorem unique_generation (h : Inv cfg s none lists) (hcmp : Comparable s) (hunique : Unique s)
    (hnone : s.tbFindPhysical key = none) (hgen : Generation cfg s s' key cflags attempts t) :
    Unique s' := by
  obtain ⟨-, s1, hs1, g, -, hadded, -⟩ := hgen
  have hother : ∀ u ∈ s1.live, u ≠ t ∧ ¬ keyMatches key (s1.tbs u) = true := by
    intro u hu
    rcases hs1 with rfl | hflushed
    · refine ⟨hadded.index ▸ (h.live_lt hu).ne, fun hkey => ?_⟩
      obtain ⟨v, hv⟩ := tbFindPhysical_complete h hcmp hu hkey
      cases hnone.symm.trans hv
    · rw [hflushed.live] at hu
      exact absurd hu (notMem_empty u)
  have hunique1 : Unique s1 := by
    rcases hs1 with rfl | hflushed
    · exact hunique
    · intro u hu
      rw [hflushed.live] at hu
      exact absurd hu (notMem_empty u)
  have hnew : ∀ u ∈ s1.live, (s1.tbs u).pc = key.pc → (s1.tbs u).csBase = key.csBase →
      (s1.tbs u).flags ≠ key.flags := by
    intro u hu hpc hcs hflags
    exact (hother u hu).2 (by simp [keyMatches, hpc, hcs, hflags])
  intro u hu v hv
  rw [hadded.live, mem_insert] at hu hv
  rcases hu with rfl | hu <;> rcases hv with rfl | hv
  · exact fun _ _ _ => rfl
  · rw [hadded.tbs_self, hadded.tbs_of_ne (hother v hv).1]
    exact fun hpc hcs hflags => absurd hflags.symm (hnew v hv hpc.symm hcs.symm)
  · rw [hadded.tbs_self, hadded.tbs_of_ne (hother u hu).1]
    exact fun hpc hcs hflags => absurd hflags (hnew u hu hpc hcs)
  · rw [hadded.tbs_of_ne (hother u hu).1, hadded.tbs_of_ne (hother v hv).1]
    exact hunique1 u hu v hv

theorem comparable_generation (hcmp : Comparable s)
    (hbyte : key.pc.toNat % targetPageSize = 0 → ∀ g ∈ attempts, 1 ≤ g.size)
    (hgen : Generation cfg s s' key cflags attempts t) : Comparable s' := by
  obtain ⟨-, s1, hs1, g, hg, hadded, -⟩ := hgen
  intro u hu
  rcases hadded.lt_cases hu with rfl | ⟨hlt, hne⟩
  · rw [hadded.tbs_self]
    exact secondPage_cases key.pc (fun hstart => hbyte hstart g hg) g.size_le
  · rw [hadded.tbs_of_ne hne]
    rcases hs1 with rfl | hflushed
    · exact hcmp u hlt
    · rw [hflushed.nbTbs] at hlt
      exact absurd hlt (Nat.not_lt_zero u)

/-- What the lookups rely on. -/
structure Finder.Sound (cfg : Config) (s : Store host) : Prop where
  inv : ∃ lists, Inv cfg s none lists
  comparable : Comparable s
  unique : Unique s

theorem Fewer.sound (h : Fewer s s') (hinv : ∃ lists, Inv cfg s' none lists)
    (hsound : Finder.Sound cfg s) : Finder.Sound cfg s' := by
  obtain ⟨lists', h'⟩ := hinv
  exact ⟨⟨lists', h'⟩, h.comparable hsound.comparable, h.unique h' hsound.unique⟩

theorem Fewer.of_eq (hlive : s'.live = s.live) (hnb : s'.nbTbs = s.nbTbs) (htbs : s'.tbs = s.tbs) :
    Fewer s s' :=
  ⟨hlive.subset, fun _ ht => ⟨hnb ▸ ht, by rw [htbs]⟩⟩

theorem tbFindFirst_spec (h : Inv cfg s none lists) (hfind : s.tbFindFirst cpu key = some (t, s')) :
    Inv cfg s' none lists ∧ Fewer s s' ∧ Found s s' key t := by
  unfold tbFindFirst at hfind
  split at hfind
  · rename_i hhit
    cases hfind
    obtain ⟨hlive, hkey⟩ := jmpCacheHit_spec h hhit
    exact ⟨h, Fewer.of_eq rfl rfl rfl, hlive, hkey, Or.inr ⟨le_rfl, rfl⟩⟩
  · obtain ⟨u, hphys, heq⟩ := map_eq_some_iff.mp hfind
    cases heq
    obtain ⟨hlive, hkey⟩ := tbFindPhysical_spec h hphys
    exact ⟨setJmpCache_inv h hlive hkey, Fewer.of_eq rfl rfl rfl, hlive, hkey, Or.inr ⟨le_rfl, rfl⟩⟩

theorem tbFindFirst_cache (hfind : s.tbFindFirst cpu key = some (t, s')) :
    ∃ cache, s' = { s with tbJmpCache := cache } := by
  unfold tbFindFirst at hfind
  split at hfind
  · cases hfind
    exact ⟨_, rfl⟩
  · obtain ⟨u, -, heq⟩ := map_eq_some_iff.mp hfind
    cases heq
    exact ⟨_, rfl⟩

theorem tbFindSlow_sound (h : Finder.Sound cfg s)
    (hbyte : key.pc.toNat % targetPageSize = 0 → ∀ g ∈ attempts, 1 ≤ g.size)
    (hrun : s.tbFindSlow cfg cpu key cflags attempts = some (t, s')) :
    Finder.Sound cfg s' ∧ Found s s' key t := by
  obtain ⟨⟨lists, hinv⟩, hcmp, hunique⟩ := h
  obtain ⟨hinv', hfound⟩ := tbFindSlow_spec hinv hrun
  suffices hrest : Comparable s' ∧ Unique s' from ⟨⟨hinv', hrest.1, hrest.2⟩, hfound⟩
  unfold tbFindSlow at hrun
  cases hfind : s.tbFindPhysical key with
  | some u =>
    rw [hfind] at hrun
    cases hrun
    exact ⟨hcmp, hunique⟩
  | none =>
    simp only [hfind, bind_eq_bind, bind_eq_some_iff] at hrun
    obtain ⟨⟨u, s1⟩, hgen, heq⟩ := hrun
    cases heq
    have hgen := tbGenCode_spec hinv hgen
    have hcmp1 : Comparable s1 := comparable_generation hcmp hbyte hgen
    have hunique1 : Unique s1 := unique_generation hinv hcmp hunique hfind hgen
    exact ⟨hcmp1, hunique1⟩

theorem finishFind_spec (h : Finder.Sound cfg s) (ht : t ∈ s.live)
    (hfinish : Store.finishFind cpu lookup (t, s) = some (u, s')) :
    u = t ∧ Finder.Sound cfg s' ∧ s'.live = s.live ∧ s'.tbs = s.tbs := by
  simp only [finishFind] at hfinish
  split_ifs at hfinish with hcan
  obtain ⟨s1, hchain, heq⟩ := map_eq_some_iff.mp hfinish
  cases heq
  obtain ⟨lists, hinv⟩ := h.inv
  obtain ⟨hinv', hlive, htbs⟩ := tbChain_inv hinv ht hcan hchain
  refine ⟨rfl, (Fewer.of_eq hlive ?_ htbs).sound ⟨lists, hinv'⟩ h, hlive, htbs⟩
  exact (tbChain_keeps hchain).nbTbs

open Finder

/-- A step keeps what the lookups rely on, and a block that it returns is live and for the CPU state
that was asked for. -/
theorem Finder.exec_spec {label : FindLabel} {ret : Option Nat}
    (h : Finder.Sound cfg x.store) (hregular : x.Regular label) (hexec : x.exec cfg label = some (ret, y)) :
    Finder.Sound cfg y.store ∧ ∀ tb ∈ ret, ∃ key ∈ x.keyOf label,
      tb ∈ y.store.live ∧ Store.keyMatches key (y.store.tbs tb) = true := by
  cases label with
  | enter cpu =>
    cases hexec
    obtain ⟨lists, hinv⟩ := h.inv
    have hfewer : Fewer x.store { x.store with tbFlushed := Function.update x.store.tbFlushed cpu false } :=
      Fewer.of_eq rfl rfl rfl
    exact ⟨hfewer.sound ⟨lists, hinv.set_flushed _⟩ h, by rintro tb ⟨⟩⟩
  | find cpu lookup =>
    simp only [exec] at hexec
    split at hexec
    · cases hexec
    · split at hexec
      · cases hexec
        exact ⟨h, by rintro tb ⟨⟩⟩
      · rename_i found hfind
        obtain ⟨⟨u, s2⟩, hfinish, heq⟩ := map_eq_some_iff.mp hexec
        cases heq
        obtain ⟨lists, hinv⟩ := h.inv
        obtain ⟨hinv1, hfewer, hfound⟩ := tbFindFirst_spec hinv hfind
        obtain ⟨rfl, hsound, hlive, htbs⟩ :=
          finishFind_spec (hfewer.sound ⟨lists, hinv1⟩ h) hfound.live hfinish
        refine ⟨hsound, ?_⟩
        rintro tb ⟨⟩
        refine ⟨lookup.key, rfl, ?_⟩
        rw [hlive, htbs]
        exact ⟨hfound.live, hfound.key⟩
  | resume cpu attempts =>
    simp only [exec] at hexec
    split at hexec
    · cases hexec
    · rename_i lookup hpending
      obtain ⟨⟨t, s1⟩, hslow, hexec⟩ := bind_eq_some_iff.mp hexec
      obtain ⟨⟨u, s2⟩, hfinish, heq⟩ := map_eq_some_iff.mp hexec
      cases heq
      obtain ⟨hsound1, hfound⟩ := tbFindSlow_sound h (hregular lookup hpending) hslow
      obtain ⟨rfl, hsound, hlive, htbs⟩ := finishFind_spec hsound1 hfound.live hfinish
      refine ⟨hsound, ?_⟩
      rintro tb ⟨⟩
      refine ⟨lookup.key, by rw [keyOf, hpending]; rfl, ?_⟩
      rw [hlive, htbs]
      exact ⟨hfound.live, hfound.key⟩
  | other call =>
    simp only [exec] at hexec
    split_ifs at hexec with hcall
    obtain ⟨s1, hstep, heq⟩ := map_eq_some_iff.mp hexec
    cases heq
    obtain ⟨lists, hinv⟩ := h.inv
    refine ⟨(fewer_other hinv (Bool.eq_false_iff.mpr hcall) hstep).sound (inv_step hinv hstep) h, ?_⟩
    rintro tb ⟨⟩

/-- The loop over the guest pages of a host page ends at a bound inside the address space. -/
theorem protectLoop_ends {bound fuel : Nat} {addr : TargetUlong} (hbound : bound < 2 ^ 32)
    (halign : bound % 4096 = 0) (haddr : addr.toNat % 4096 = 0) (hfuel : (bound - addr.toNat) / 4096 < fuel) :
    ∃ s', Store.protectLoop bound fuel addr s = some s' := by
  induction fuel generalizing s addr with
  | zero => exact absurd hfuel (Nat.not_lt_zero _)
  | succ fuel ih =>
    unfold protectLoop
    split
    · rename_i hlt
      have hnext := @toNat_add_pageSize addr (by omega)
      exact ih (by omega) (by omega)
    · exact ⟨s, rfl⟩

/-- A block can be linked on a page, except on a 64-bit host on a writable page of the last host
page. -/
theorem tbAllocPage_ends (t : Nat) (n : Fin 2) {pageAddr : TargetUlong}
    (hpage : host = .bits64 → s.CanProtect cfg pageAddr) :
    ∃ s', s.tbAllocPage cfg t n pageAddr = some s' := by
  simp only [tbAllocPage, pageFlags_linkEntry]
  split
  · rename_i hwrite
    by_cases hlast : LastHostPage cfg pageAddr
    · cases host with
      | bits64 => exact absurd (hpage rfl hlast) hwrite
      | bits32 =>
        have hzero : hostPageEnd .bits32 cfg (pageAddr &&& cfg.hostPageMask) = 0 := by
          rw [hostPageEnd, hlast]
          rfl
        rw [hzero]
        exact ⟨_, rfl⟩
    · obtain ⟨hend, hbound⟩ := hostPageEnd_eq host hlast
      obtain ⟨halign, halign'⟩ := hostPage_align cfg pageAddr
      rw [hbound]
      refine protectLoop_ends hend halign' halign ?_
      unfold pageLoopBound
      omega
  · exact ⟨_, rfl⟩

theorem tbLinkPage_ends (t : Nat) {physPc page2 : TargetUlong}
    (hfirst : host = .bits64 → s.CanProtect cfg physPc)
    (hsecond : host = .bits64 → page2 ≠ noPage → s.CanProtect cfg page2) :
    ∃ s', s.tbLinkPage cfg t physPc page2 = some s' := by
  have hmask : host = .bits64 → s.CanProtect cfg (physPc &&& targetPageMask) := fun hhost =>
    (canProtect_and_mask s physPc).mpr (hfirst hhost)
  simp only [tbLinkPage]
  let s0 : Store host := { s with
    htable := (s.htable.insert t (tbHashFunc physPc (s.tbs t).pc (s.tbs t).flags)).2
    live := insert t s.live }
  obtain ⟨s1, hs1⟩ : ∃ s1, s0.tbAllocPage cfg t 0 (physPc &&& targetPageMask) = some s1 :=
    tbAllocPage_ends t 0 hmask
  rw [hs1]
  simp only [bind_eq_bind, bind_some]
  split
  · rename_i hne
    refine tbAllocPage_ends t 1 fun hhost => ?_
    exact (hsecond hhost hne).mono (tbAllocPage_flags hs1 (hmask hhost)).2
  · exact ⟨_, rfl⟩

def Store.Generated.Fits (cfg : Config) (g : Store.Generated) : Prop :=
  cfg.codeGenBuffer + g.genCodeSize + g.searchSize ≤ cfg.codeGenHighwater

def Store.Linkable (cfg : Config) (s : Store host) (key : Store.Key) (g : Store.Generated) : Prop :=
  host = .bits64 → s.CanLink cfg key g

theorem finishGen_ends (cflags : BitVec 32) (t : Nat) (hlink : s.Linkable cfg key g) :
    ∃ s', s.finishGen cfg key cflags g t = some s' := by
  obtain ⟨s2, heq, hflags, hl1⟩ := finishGen_eq cfg s key cflags g t
  have hcan : ∀ a, s.CanProtect cfg a → s2.CanProtect cfg a := fun a ha =>
    ha.mono fun i => Or.inl (flagsAt_congr hflags hl1 i)
  rw [heq]
  refine tbLinkPage_ends t (fun hhost => hcan _ (hlink hhost).1) fun hhost hne => ?_
  rw [secondPage_eq hne, canProtect_and_mask]
  exact hcan _ (hlink hhost).2

theorem genLoop_ends (hlink : s.Linkable cfg key g)
    (hfit : s.codeGenPtr + g.genCodeSize + g.searchSize ≤ cfg.codeGenHighwater) :
    ∃ found, Store.genLoop cfg key cflags (g :: attempts) (t, s) = some found := by
  obtain ⟨s', hs'⟩ := finishGen_ends cflags t hlink
  rw [genLoop, if_pos hfit, hs']
  exact ⟨_, rfl⟩

theorem Store.Linkable.congr (h : s.Linkable cfg key g) (hflags : s'.pageFlags = s.pageFlags)
    (hl1 : s'.l1Map = s.l1Map) : s'.Linkable cfg key g := by
  intro hhost
  have hsame : ∀ i, Weakened cfg i (s.flagsAt i) (s'.flagsAt i) := fun i =>
    Or.inl (flagsAt_congr hflags hl1 i)
  exact ⟨(h hhost).1.mono hsame, (h hhost).2.mono hsame⟩

/-- After a flush there is room for a block. -/
theorem genLoop_flushed_ends (h : Flushable cfg s) (hlink : s.Linkable cfg key g) (hfit : g.Fits cfg) :
    ∃ found, ((s.tbFlush cfg).bind fun s =>
      (s.tbAlloc cfg key.pc).bind (Store.genLoop cfg key cflags (g :: attempts))) = some found := by
  obtain ⟨s1, hflush, -, hflushed⟩ := tbFlush_spec h
  obtain ⟨⟨t, s2⟩, halloc⟩ := hflushed.tbAlloc key.pc
  obtain ⟨-, heq⟩ := tbAlloc_eq_some halloc
  simp only [hflush, halloc, bind_some]
  refine genLoop_ends (hlink.congr ?_ ?_) ?_
  · rw [heq]
    exact hflushed.pageFlags
  · rw [heq]
    exact hflushed.l1Map
  · rw [heq]
    exact hflushed.codeGenPtr ▸ hfit

/-- Generation ends with the second attempt at the latest. -/
theorem tbGenCode_ends (cflags : BitVec 32) (h : Inv cfg s none lists) (hlength : 2 ≤ attempts.length)
    (hattempts : ∀ g ∈ attempts, g.Fits cfg ∧ s.Linkable cfg key g) :
    ∃ found, s.tbGenCode cfg key cflags attempts = some found := by
  obtain ⟨g1, g2, attempts, rfl⟩ : ∃ g1 g2 rest, attempts = g1 :: g2 :: rest := by
    match attempts, hlength with
    | g1 :: g2 :: rest, _ => exact ⟨g1, g2, rest, rfl⟩
  obtain ⟨hfit1, hlink1⟩ := hattempts g1 List.mem_cons_self
  obtain ⟨hfit2, hlink2⟩ := hattempts g2 (List.mem_cons_of_mem _ List.mem_cons_self)
  unfold tbGenCode
  cases halloc : s.tbAlloc cfg key.pc with
  | none => exact genLoop_flushed_ends h.flushable hlink1 hfit1
  | some start =>
    obtain ⟨t, s1⟩ := start
    obtain ⟨-, heq⟩ := tbAlloc_eq_some halloc
    have hsame : ∀ g, s.Linkable cfg key g → s1.Linkable cfg key g := fun g hg =>
      hg.congr (by rw [heq]) (by rw [heq])
    by_cases hroom : s1.codeGenPtr + g1.genCodeSize + g1.searchSize ≤ cfg.codeGenHighwater
    · exact genLoop_ends (hsame g1 hlink1) hroom
    · simp only [genLoop, if_neg hroom]
      exact genLoop_flushed_ends (h.flushable.tbAlloc halloc) (hsame g2 hlink2) hfit2

theorem tbFindSlow_ends (cpu : Nat) (cflags : BitVec 32) (h : Inv cfg s none lists)
    (hlength : 2 ≤ attempts.length) (hattempts : ∀ g ∈ attempts, g.Fits cfg ∧ s.Linkable cfg key g) :
    ∃ found, s.tbFindSlow cfg cpu key cflags attempts = some found := by
  unfold tbFindSlow
  cases hfind : s.tbFindPhysical key with
  | some u => exact ⟨_, rfl⟩
  | none =>
    obtain ⟨found, hfound⟩ := tbGenCode_ends cflags h hlength hattempts
    simp only [hfound]
    exact ⟨_, rfl⟩

/-- The exit that a CPU came by can be chained. -/
structure Pending.Chains (lookup : Pending) (cpu : Nat) (s : Store host) : Prop where
  block : s.CanChain cpu lookup.lastTb
  slot : lookup.tbExit < 2

theorem Pending.Chains.found (h : lookup.Chains cpu s) (hfound : Found s s' lookup.key t) :
    lookup.Chains cpu s' := by
  refine ⟨fun last hlast => ?_, h.slot⟩
  rcases hfound.blocks with hall | ⟨hle, hflushed⟩
  · exact Or.inl (congrFun hall cpu)
  · rw [hflushed]
    exact (h.block last hlast).imp_right fun hlt => hlt.trans_le hle

theorem finishFind_ends (t : Nat) (h : lookup.Chains cpu s) :
    ∃ found, Store.finishFind cpu lookup (t, s) = some found := by
  simp only [finishFind, if_pos h.block, tbChain]
  split
  · exact ⟨_, rfl⟩
  · rw [dif_pos h.slot]
    exact ⟨_, rfl⟩

theorem Finder.find_ends (h : Finder.Sound cfg x.store) (hidle : x.pending cpu = none)
    (hchains : lookup.Chains cpu x.store) :
    ∃ ret y, x.exec cfg (.find cpu lookup) = some (ret, y) ∧ (ret = none → y.pending cpu = some lookup) := by
  obtain ⟨lists, hinv⟩ := h.inv
  simp only [exec, hidle]
  cases hfind : x.store.tbFindFirst cpu lookup.key with
  | none => exact ⟨_, _, rfl, fun _ => Function.update_self ..⟩
  | some found =>
    obtain ⟨t, s1⟩ := found
    obtain ⟨-, -, hfound⟩ := tbFindFirst_spec hinv hfind
    obtain ⟨⟨u, s2⟩, hfinish⟩ := finishFind_ends t (hchains.found hfound)
    simp only [hfinish]
    exact ⟨_, _, rfl, by rintro ⟨⟩⟩

theorem Finder.resume_ends (h : Finder.Sound cfg x.store) (hpending : x.pending cpu = some lookup)
    (hchains : lookup.Chains cpu x.store) (hlength : 2 ≤ attempts.length)
    (hattempts : ∀ g ∈ attempts, g.Fits cfg ∧ x.store.Linkable cfg lookup.key g) :
    ∃ tb y, x.exec cfg (.resume cpu attempts) = some (some tb, y) := by
  obtain ⟨lists, hinv⟩ := h.inv
  obtain ⟨⟨t, s1⟩, hslow⟩ := tbFindSlow_ends cpu lookup.cflags hinv hlength hattempts
  obtain ⟨-, hfound⟩ := tbFindSlow_spec hinv hslow
  obtain ⟨⟨u, s2⟩, hfinish⟩ := finishFind_ends t (hchains.found hfound)
  simp only [exec, hpending, hslow, bind_some, hfinish]
  exact ⟨_, _, rfl⟩

/-- What a lookup may rely on, whatever the other CPUs do: it ends, in its first part or after it
has taken the lock again, if the attempts to generate a block fit the empty buffer and the block's
pages can take it; the block it returns is live and for the CPU state asked for; `tb_from_cache`
returns the live block for a CPU state; and there is at most one. -/
structure FindsRight (cfg : Config) (x : Finder host) : Prop where
  begins : ∀ cpu lookup, x.pending cpu = none → lookup.Chains cpu x.store →
    ∃ ret y, x.exec cfg (.find cpu lookup) = some (ret, y) ∧ (ret = none → y.pending cpu = some lookup)
  ends : ∀ cpu lookup attempts, x.pending cpu = some lookup → lookup.Chains cpu x.store →
    2 ≤ attempts.length → (∀ g ∈ attempts, g.Fits cfg ∧ x.store.Linkable cfg lookup.key g) →
    ∃ tb y, x.exec cfg (.resume cpu attempts) = some (some tb, y)
  returned : ∀ label tb y, x.Regular label → x.exec cfg label = some (some tb, y) →
    ∃ key ∈ x.keyOf label, tb ∈ y.store.live ∧ (y.store.tbs tb).pc = key.pc ∧
      (y.store.tbs tb).csBase = key.csBase ∧ (y.store.tbs tb).flags = key.flags
  cached : ∀ cpu key tb, x.store.tbFromCache cpu key = some tb ↔
    tb ∈ x.store.live ∧ (x.store.tbs tb).pc = key.pc ∧
      (x.store.tbs tb).csBase = key.csBase ∧ (x.store.tbs tb).flags = key.flags
  unique : Unique x.store

theorem keyMatches_iff {tb : TranslationBlock} :
    Store.keyMatches key tb = true ↔ tb.pc = key.pc ∧ tb.csBase = key.csBase ∧ tb.flags = key.flags := by
  simp [keyMatches]

theorem findsRight_of_sound (h : Finder.Sound cfg x.store) : FindsRight cfg x := by
  obtain ⟨lists, hinv⟩ := h.inv
  constructor
  case begins => exact fun cpu lookup => find_ends h
  case ends => exact fun cpu lookup attempts => resume_ends h
  case returned =>
    intro label tb y hregular hexec
    obtain ⟨key, hkey, hlive, hmatch⟩ := (exec_spec h hregular hexec).2 tb rfl
    exact ⟨key, hkey, hlive, keyMatches_iff.mp hmatch⟩
  case cached =>
    intro cpu key tb
    rw [tbFromCache_eq_some_iff hinv h.comparable h.unique, keyMatches_iff]
  case unique => exact h.unique

theorem sound_of_initial (h : s.Initial cfg) : Finder.Sound cfg s := by
  refine ⟨⟨_, inv_initial h⟩, fun t ht => ?_, fun t ht => ?_⟩
  · exact absurd (h.nbTbs ▸ ht) (Nat.not_lt_zero t)
  · exact absurd (h.live ▸ ht) (notMem_empty t)

/-- Lookups find the right block in every state that lookups, generation and invalidation by any
number of CPUs reach, however they are interleaved, as long as no block without guest bytes is
generated at the start of a page. -/
theorem lookups_find_right {x₀ x : Finder host} {labels : List FindLabel} (hinit : x₀.store.Initial cfg)
    (hrun : Run (fun x label y => x.Regular label ∧ FindStep cfg x label y) x₀ labels x) :
    FindsRight cfg x := by
  refine findsRight_of_sound (hrun.invariant (fun x => Finder.Sound cfg x.store) ?_ (sound_of_initial hinit))
  rintro x label y h ⟨hregular, ret, hexec⟩
  exact (exec_spec h hregular hexec).1

def emptyFinder : Finder .bits32 := ⟨emptyStore smallConfig, fun _ => none⟩

/-- Two CPUs look a block up, and each misses it before the other one has generated it. -/
def racingLookups (pc : TargetUlong) (size : Nat) (hsize : size ≤ targetPageSize) :
    List FindLabel :=
  let lookup : Pending := ⟨⟨pc, 0, 0⟩, none, 0, 0⟩
  let attempts : List Store.Generated := [⟨size, fun _ => none, 40, 8, hsize, smallCode_pos⟩]
  [.find 0 lookup, .find 1 lookup, .resume 1 attempts, .resume 0 attempts]

def Finder.execAll (cfg : Config) (x : Finder host) (labels : List FindLabel) :
    Option (Finder host) :=
  Transition.execAll (fun x label => (x.exec cfg label).map Prod.snd) x labels

theorem run_of_finderExecAll {labels : List FindLabel}
    (h : x.execAll cfg labels = some y) : Run (FindStep cfg) x labels y := by
  have hrun := run_of_execAll h
  clear h
  induction hrun with
  | nil => exact Run.nil _
  | cons head _ ih =>
    obtain ⟨⟨ret, z⟩, hexec, rfl⟩ := map_eq_some_iff.mp head
    exact Run.cons ⟨ret, hexec⟩ ih

theorem lookups_find_right_racing : ∃ x : Finder .bits32,
    Run (fun x label y => x.Regular label ∧ FindStep smallConfig x label y) emptyFinder
      (racingLookups 0x1000 4 (by decide)) x ∧
    x.store.live = {0} ∧ FindsRight smallConfig x := by
  have hlive : (emptyFinder.execAll smallConfig (racingLookups 0x1000 4 (by decide))).map
      (fun x => x.store.live) = some {0} := by decide +kernel
  obtain ⟨x, hx, hlive⟩ := map_eq_some_iff.mp hlive
  have hregular : ∀ label ∈ racingLookups 0x1000 4 (by decide), ∀ y : Finder .bits32, y.Regular label := by
    simp [racingLookups, Finder.Regular]
  have hrun := (run_of_finderExecAll hx).admitted hregular
  exact ⟨x, hrun, hlive, lookups_find_right (emptyStore_initial smallConfig) hrun⟩

/-- What `tb_cmp` compares of a block. -/
structure Compared where
  key : Store.Key
  page1 : TargetUlong
  page2 : TargetUlong
  deriving DecidableEq

def TranslationBlock.compared (tb : TranslationBlock) : Compared :=
  ⟨⟨tb.pc, tb.csBase, tb.flags⟩, tb.pageAddr 0, tb.pageAddr 1⟩

/-- The two CPUs generate a block each for an address at the start of the kernel page, and
`tb_from_cache` finds neither on a third one. -/
theorem kernel_blocks_twice : ∃ x : Finder .bits32,
    Run (FindStep smallConfig) emptyFinder (racingLookups 0xffff0000 0 (by decide)) x ∧
    x.store.live = {0, 1} ∧
    (x.store.tbs 0).compared = ⟨⟨0xffff0000, 0, 0⟩, 0xffff0000, 0xfffef000⟩ ∧
    (x.store.tbs 1).compared = (x.store.tbs 0).compared ∧
    x.store.tbFromCache 2 ⟨0xffff0000, 0, 0⟩ = none ∧ ¬ FindsRight smallConfig x := by
  have hstate : (emptyFinder.execAll smallConfig (racingLookups 0xffff0000 0 (by decide))).map
      (fun x => (x.store.live, (x.store.tbs 0).compared, (x.store.tbs 1).compared,
        x.store.tbFromCache 2 ⟨0xffff0000, 0, 0⟩)) =
      some ({0, 1}, ⟨⟨0xffff0000, 0, 0⟩, 0xffff0000, 0xfffef000⟩,
        ⟨⟨0xffff0000, 0, 0⟩, 0xffff0000, 0xfffef000⟩, none) := by decide +kernel
  obtain ⟨x, hx, hstate⟩ := map_eq_some_iff.mp hstate
  simp only [Prod.mk.injEq] at hstate
  obtain ⟨hlive, hblock, hblock', hnone⟩ := hstate
  refine ⟨x, run_of_finderExecAll hx, hlive, hblock, hblock'.trans hblock.symm, hnone, fun h => ?_⟩
  have hkey := congrArg Compared.key hblock
  simp only [TranslationBlock.compared, Store.Key.mk.injEq] at hkey
  have hmem : 0 ∈ x.store.live := by simp [hlive]
  have hfound := (h.cached 2 ⟨0xffff0000, 0, 0⟩ 0).mpr ⟨hmem, hkey⟩
  cases hnone.symm.trans hfound

end TcgArm.Tb
