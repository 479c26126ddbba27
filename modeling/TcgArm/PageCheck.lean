import TcgArm.TbRange

/-! The access check of user-mode emulation: `page_check_range` walks the pages of a range, and makes
a page writable again on the way that is read-only because it holds translated code. The loop counts
the bytes left in a word, so a range over all pages is not looked at, and `page_set_flags` does not
change it. -/

namespace TcgArm.Tb

open Nat Store Transition
open BitVec (eq_of_toNat_eq lt_def toNat_add ofNat toNat_sub)

variable {host : Host} {cfg : Config} {s s' : Store host} {lists : PageIndex → List (Nat × Fin 2)}

def pageRead : BitVec 32 := 0x0001#32

def pageExec : BitVec 32 := 0x0004#32

def pageValid : BitVec 32 := 0x0008#32

namespace Store

variable (cfg : Config) (s : Store host)

/-- Whether `page_unprotect` returns nonzero. -/
def pageUnprotects (address : TargetUlong) : Bool :=
  match s.pageFind (pageIndex address) with
  | none => false
  | some p => s.pageFlags p &&& pageWriteOrg ≠ 0 ∧ s.pageFlags p &&& pageWrite = 0

/-- The loop of `page_check_range` over `len` bytes; `true` when it returns zero. -/
def checkLoop (flags : BitVec 32) : Nat → TargetUlong → TargetUlong → Store host →
    Option (Bool × Store host)
  | 0, _, _, _ => none
  | fuel + 1, addr, len, s =>
    if len = 0 then some (true, s)
    else match s.pageFind (pageIndex addr) with
      | none => some (false, s)
      | some p =>
        let next := checkLoop flags fuel (addr + BitVec.ofNat 32 targetPageSize)
          (len - BitVec.ofNat 32 targetPageSize)
        if s.pageFlags p &&& pageValid = 0 then some (false, s)
        else if flags &&& pageRead ≠ 0 ∧ s.pageFlags p &&& pageRead = 0 then some (false, s)
        else if flags &&& pageWrite ≠ 0 then
          if s.pageFlags p &&& pageWriteOrg = 0 then some (false, s)
          else if s.pageFlags p &&& pageWrite = 0 then
            if s.pageUnprotects addr then (s.pageUnprotect cfg addr).bind next
            else some (false, s)
          else next s
        else next s

/-- `page_check_range`; `true` for success. -/
def pageCheckRange (start len : TargetUlong) (flags : BitVec 32) : Option (Bool × Store host) :=
  if len = 0 then some (true, s)
  else if start + len - 1 < start then some (false, s)
  else
    let last := targetPageAlign (start + len)
    let start := start &&& targetPageMask
    checkLoop cfg flags pageLoopBound start (last - start) s

end Store

def pageStart (p : PageIndex) : TargetUlong := BitVec.ofNat 32 (p.toNat * 4096)

/-- `page_unprotect` makes the page writable. -/
def Store.CanUnprotect (cfg : Config) (s : Store host) (p : PageIndex) : Prop :=
  ∃ s', s.pageUnprotect cfg (pageStart p) = some s' ∧ s'.flagsAt p &&& pageWrite ≠ 0

/-- The page is valid and allows the access. -/
structure Store.Allows (cfg : Config) (s : Store host) (access : BitVec 32) (p : PageIndex) :
    Prop where
  valid : s.flagsAt p &&& pageValid ≠ 0
  read : access &&& pageRead ≠ 0 → s.flagsAt p &&& pageRead ≠ 0
  write : access &&& pageWrite ≠ 0 → s.flagsAt p &&& pageWrite ≠ 0 ∨ s.CanUnprotect cfg p
  exec : access &&& pageExec ≠ 0 → s.flagsAt p &&& pageExec ≠ 0

/-- All guest pages of the host page have descriptors; in the last host page none is asked for. -/
def Store.Described (cfg : Config) (s : Store host) (p : PageIndex) : Prop :=
  ¬ LastHostPage cfg (pageStart p) → ∀ i, InHostPage cfg (pageStart p) i → s.l1Map (Store.leafOf i) = true

/-- What `page_check_range` asks of a page. -/
structure Store.Passes (cfg : Config) (s : Store host) (access : BitVec 32) (p : PageIndex) :
    Prop where
  valid : s.flagsAt p &&& pageValid ≠ 0
  read : access &&& pageRead ≠ 0 → s.flagsAt p &&& pageRead ≠ 0
  write : access &&& pageWrite ≠ 0 → s.flagsAt p &&& pageWriteOrg ≠ 0
  described : access &&& pageWrite ≠ 0 → s.flagsAt p &&& pageWrite = 0 → s.Described cfg p

instance (cfg : Config) (a : TargetUlong) : Decidable (LastHostPage cfg a) :=
  inferInstanceAs (Decidable (_ = _))

instance (cfg : Config) (a : TargetUlong) (i : PageIndex) : Decidable (InHostPage cfg a i) :=
  inferInstanceAs (Decidable (_ ∧ _))

theorem pageStart_toNat (p : PageIndex) : (pageStart p).toNat = p.toNat * 4096 := by
  rw [pageStart, BitVec.toNat_ofNat]
  omega

theorem pageIndex_pageStart (p : PageIndex) : pageIndex (pageStart p) = p := by
  apply eq_of_toNat_eq
  rw [pageIndex_toNat, pageStart_toNat, Nat.mul_div_cancel _ (by decide)]

variable {p : PageIndex} {access : BitVec 32} {start last : TargetUlong} {flag : BitVec 32}

theorem leaf_of_flagsAt (h : s.flagsAt p &&& flag ≠ 0) :
    s.l1Map (Store.leafOf p) = true := by
  by_contra hfree
  rw [flagsAt, if_neg hfree] at h
  exact h BitVec.zero_and

/-- `page_unprotect` on a page that is read-only because of its code. -/
theorem pageUnprotect_eq {p : PageIndex} (horg : s.flagsAt p &&& pageWriteOrg ≠ 0)
    (hread : s.flagsAt p &&& pageWrite = 0) :
    s.pageUnprotects (pageStart p) = true ∧
    s.pageUnprotect cfg (pageStart p) = Store.unprotectLoop
      ((pageStart p &&& cfg.hostPageMask) + ofNat 32 cfg.hostPageSize) Store.pageLoopBound
      (pageStart p &&& cfg.hostPageMask) s := by
  have hl1 := leaf_of_flagsAt horg
  have hflags : s.flagsAt p = s.pageFlags p := if_pos hl1
  rw [hflags] at horg hread
  simp only [pageUnprotects, pageUnprotect, pageIndex_pageStart, pageFind, if_pos hl1]
  exact ⟨decide_eq_true ⟨horg, hread⟩, if_pos ⟨horg, hread⟩⟩

/-- `page_unprotect` returns exactly when no descriptor is missing, and in all host pages but the
last one it makes the guest pages writable. -/
theorem pageUnprotect_spec (h : Inv cfg s none lists) (horg : s.flagsAt p &&& pageWriteOrg ≠ 0)
    (hread : s.flagsAt p &&& pageWrite = 0) :
    (s.Described cfg p ↔ ∃ s', s.pageUnprotect cfg (pageStart p) = some s') ∧
    ∀ s', s.pageUnprotect cfg (pageStart p) = some s' →
      (∃ lists', Inv cfg s' none lists') ∧ s'.l1Map = s.l1Map ∧ ∀ i : PageIndex, s'.flagsAt i =
        if ¬ LastHostPage cfg (pageStart p) ∧ InHostPage cfg (pageStart p) i
        then s.flagsAt i ||| pageWrite else s.flagsAt i := by
  obtain ⟨-, heq⟩ : _ ∧ s.pageUnprotect cfg (pageStart p) = _ := pageUnprotect_eq horg hread
  obtain ⟨halign, halign'⟩ := hostPage_align cfg (pageStart p)
  have hend := hostEnd_toNat cfg (pageStart p)
  rw [heq]
  by_cases hlast : LastHostPage cfg (pageStart p)
  · -- the end of the last host page is zero, so the loop does nothing
    rw [hlast, mod_self] at hend
    have hrun : unprotectLoop
        ((pageStart p &&& cfg.hostPageMask) + ofNat 32 cfg.hostPageSize) pageLoopBound
        (pageStart p &&& cfg.hostPageMask) s = some s := by
      rw [pageLoopBound, unprotectLoop, if_neg]
      rw [lt_def, hend]
      exact Nat.not_lt_zero _
    rw [hrun]
    refine ⟨⟨fun _ => ⟨s, rfl⟩, fun _ hnot => absurd hlast hnot⟩, ?_⟩
    rintro s' ⟨rfl⟩
    exact ⟨⟨lists, h⟩, rfl, fun i => (if_neg fun hi => hi.1 hlast).symm⟩
  · have hnext := hostPage_end_le hlast
    rw [mod_eq_of_lt (by omega)] at hend
    have hfuel : 2 ^ 32 ≤ pageLoopBound * 4096 := by decide
    refine ⟨⟨fun hdesc => ?_, ?_⟩, fun s' hrun => ?_⟩
    · exact unprotectLoop_ends (hend ▸ halign') halign
        (fun i hlow hhigh => hdesc hlast i ⟨hlow, hend ▸ hhigh⟩) (by omega)
        (show _ < _ + pageLoopBound * 4096 by omega) h
    · rintro ⟨s', hrun⟩ - i ⟨hlow, hhigh⟩
      obtain ⟨-, -, -, -, hpages⟩ := unprotectLoop_spec h hrun
      exact ((hpages (hend ▸ halign') halign i).resolve_right fun hout =>
        hout.1 ⟨hlow, hend ▸ hhigh⟩).2.2.1
    · obtain ⟨lists', hinv, -, hl1, hpages⟩ := unprotectLoop_spec h hrun
      refine ⟨⟨lists', hinv⟩, hl1, fun i => ?_⟩
      rcases hpages (hend ▸ halign') halign i with ⟨hlow, hhigh, -, hflags, -⟩ | ⟨hout, hflags⟩
      · rw [if_pos ⟨hlast, hlow, hend ▸ hhigh⟩, hflags]
      · rw [if_neg fun hin => hout ⟨hin.2.1, hend ▸ hin.2.2⟩, hflags]

theorem hostPage_congr {a : TargetUlong} (h : InHostPage cfg a p) :
    pageStart p &&& cfg.hostPageMask = a &&& cfg.hostPageMask := by
  obtain ⟨hlow, hhigh⟩ := h
  apply eq_of_toNat_eq
  rw [and_hostPageMask_toNat] at hlow hhigh ⊢
  rw [and_hostPageMask_toNat, pageStart_toNat]
  congr 1
  exact Nat.div_eq_of_lt_le hlow (by rw [Nat.add_mul, Nat.one_mul]; exact hhigh)

theorem Store.Described.congr {p i : PageIndex} (h : s.Described cfg p)
    (hpage : InHostPage cfg (pageStart p) i) : s.Described cfg i := by
  unfold Store.Described LastHostPage InHostPage at h ⊢
  rw [hostPage_congr hpage]
  exact h

theorem or_write_and (hflag : pageWrite &&& flag = 0) (flags : BitVec 32) :
    (flags ||| pageWrite) &&& flag = flags &&& flag := by
  rw [BitVec.and_comm, BitVec.and_or_distrib_left, BitVec.and_comm flag pageWrite, hflag]
  exact (BitVec.or_zero).trans (BitVec.and_comm ..)

/-- Making a page writable again does not change what the pages are asked. -/
theorem passes_congr (hdesc : s.Described cfg p) (hl1 : s'.l1Map = s.l1Map)
    (hflags : ∀ i : PageIndex, s'.flagsAt i =
      if ¬ LastHostPage cfg (pageStart p) ∧ InHostPage cfg (pageStart p) i
      then s.flagsAt i ||| pageWrite else s.flagsAt i) (i : PageIndex) :
    s'.Passes cfg access i ↔ s.Passes cfg access i := by
  have hother {flag : BitVec 32} (hflag : pageWrite &&& flag = 0) :
      s'.flagsAt i &&& flag = s.flagsAt i &&& flag := by
    rw [hflags]
    split_ifs
    · exact or_write_and hflag _
    · rfl
  have hsame : s'.Described cfg i ↔ s.Described cfg i := by
    unfold Store.Described
    rw [hl1]
  have hvalid := hother (show pageWrite &&& pageValid = 0 by decide)
  have hread := hother (show pageWrite &&& pageRead = 0 by decide)
  have horg := hother (show pageWrite &&& pageWriteOrg = 0 by decide)
  constructor
  · rintro ⟨h1, h2, h3, h4⟩
    refine ⟨hvalid ▸ h1, hread ▸ h2, horg ▸ h3, fun hwrite hzero => ?_⟩
    by_cases hin : InHostPage cfg (pageStart p) i
    · exact hdesc.congr hin
    · exact hsame.mp (h4 hwrite (by rw [hflags, if_neg fun h => hin h.2]; exact hzero))
  · rintro ⟨h1, h2, h3, h4⟩
    refine ⟨hvalid.symm ▸ h1, hread.symm ▸ h2, horg.symm ▸ h3, fun hwrite hzero => ?_⟩
    rw [hflags] at hzero
    split_ifs at hzero with hin
    · exact absurd hzero (or_and_self_ne_zero (by decide) _)
    · exact hsame.mpr (h4 hwrite hzero)

/-- One turn of the loop. After a page that passes, the loop goes on in a store in which the pages
are asked the same; at another page it does not succeed. -/
theorem checkLoop_step {access : BitVec 32} {fuel : Nat} {p : PageIndex} {len : TargetUlong}
    (h : Inv cfg s none lists) (hlen : len ≠ 0) :
    (s.Passes cfg access p → ∃ s1 lists1, Inv cfg s1 none lists1 ∧
      (∀ i, s1.Passes cfg access i ↔ s.Passes cfg access i) ∧
      Store.checkLoop cfg access (fuel + 1) (pageStart p) len s =
        Store.checkLoop cfg access fuel (pageStart p + ofNat 32 targetPageSize)
          (len - ofNat 32 targetPageSize) s1) ∧
    ((∃ s', Store.checkLoop cfg access (fuel + 1) (pageStart p) len s = some (true, s')) →
      s.Passes cfg access p) := by
  by_cases hl1 : s.l1Map (leafOf p) = true
  swap
  · have hfind : s.pageFind p = none := if_neg hl1
    rw [checkLoop, if_neg hlen, pageIndex_pageStart, hfind]
    exact ⟨fun hpass => absurd (leaf_of_flagsAt hpass.valid) hl1, fun ⟨s', hs'⟩ => by cases hs'⟩
  have hfind : s.pageFind p = some p := if_pos hl1
  have hflags : s.pageFlags p = s.flagsAt p := (if_pos hl1).symm
  rw [checkLoop, if_neg hlen, pageIndex_pageStart, hfind]
  simp only [hflags]
  split_ifs with hvalid hread hwrite horg hzero hunprotects
  · exact ⟨fun hpass => absurd hvalid hpass.valid, fun ⟨s', hs'⟩ => by cases hs'⟩
  · exact ⟨fun hpass => absurd hread.2 (hpass.read hread.1), fun ⟨s', hs'⟩ => by cases hs'⟩
  · exact ⟨fun hpass => absurd horg (hpass.write hwrite), fun ⟨s', hs'⟩ => by cases hs'⟩
  · -- the page is read-only because of its code
    obtain ⟨hdesc, hspec⟩ := pageUnprotect_spec h horg hzero
    constructor
    · intro hpass
      obtain ⟨s1, hrun⟩ := hdesc.mp (hpass.described hwrite hzero)
      obtain ⟨⟨lists1, hinv⟩, hl1', hflags'⟩ := hspec s1 hrun
      refine ⟨s1, lists1, hinv, passes_congr (hpass.described hwrite hzero) hl1' hflags', ?_⟩
      rw [hrun, Option.bind_some]
    · rintro ⟨s', hs'⟩
      obtain ⟨s1, hrun, -⟩ := Option.bind_eq_some_iff.mp hs'
      exact ⟨hvalid, fun hr hz => hread ⟨hr, hz⟩, fun _ => horg, fun _ _ => hdesc.mpr ⟨s1, hrun⟩⟩
  · exact absurd (@pageUnprotect_eq _ cfg _ _ horg hzero).1 hunprotects
  · refine ⟨fun _ => ⟨s, lists, h, fun _ => Iff.rfl, rfl⟩, fun _ => ?_⟩
    exact ⟨hvalid, fun hr hz => hread ⟨hr, hz⟩, fun _ => horg, fun _ hz => absurd hz hzero⟩
  · refine ⟨fun _ => ⟨s, lists, h, fun _ => Iff.rfl, rfl⟩, fun _ => ?_⟩
    exact ⟨hvalid, fun hr hz => hread ⟨hr, hz⟩, fun hw => absurd hw hwrite, fun hw => absurd hw hwrite⟩

/-- The loop succeeds exactly when every page of the range passes. -/
theorem checkLoop_iff {fuel : Nat} {addr len : TargetUlong} (h : Inv cfg s none lists)
    (haddr : addr.toNat % 4096 = 0) (hlen : len.toNat % 4096 = 0)
    (hfit : addr.toNat + len.toNat ≤ 2 ^ 32) (hfuel : len.toNat ≤ fuel * 4096) :
    (∃ s', Store.checkLoop cfg access (fuel + 1) addr len s = some (true, s')) ↔
      ∀ p, Touches addr.toNat (addr.toNat + len.toNat) p → s.Passes cfg access p := by
  rcases eq_or_ne len 0 with rfl | hne
  · refine ⟨fun _ p htouch => ?_, fun _ => ⟨s, if_pos rfl⟩⟩
    rw [Touches, show (0 : TargetUlong).toNat = 0 from rfl] at htouch
    omega
  have hpos : 0 < len.toNat := Nat.pos_of_ne_zero fun hzero =>
    hne (eq_of_toNat_eq (by simpa using hzero))
  induction fuel generalizing s lists addr len with
  | zero => omega
  | succ fuel ih =>
    obtain ⟨p, rfl⟩ : ∃ p, addr = pageStart p := by
      refine ⟨pageIndex addr, eq_of_toNat_eq ?_⟩
      rw [pageStart_toNat, pageIndex_toNat]
      omega
    rw [pageStart_toNat] at hfit ⊢
    have hlen' := @toNat_sub_pageSize len (by omega)
    -- the page is part of the range, and the rest of the range follows
    have hiff (q : PageIndex) : Touches (p.toNat * 4096) (p.toNat * 4096 + len.toNat) q ↔
        q = p ∨ Touches (p.toNat * 4096 + 4096) (p.toNat * 4096 + len.toNat) q := by
      rw [← BitVec.toNat_inj]
      simp only [Touches]
      omega
    obtain ⟨hgoes, hmust⟩ := @checkLoop_step _ cfg _ _ access (fuel + 1) p _ h hne
    have hrest (s1 : Store host) (lists1 : PageIndex → List (Nat × Fin 2))
        (h1 : Inv cfg s1 none lists1) :
        (∃ s', checkLoop cfg access (fuel + 1)
          (pageStart p + ofNat 32 targetPageSize)
          (len - ofNat 32 targetPageSize) s1 = some (true, s')) ↔
        ∀ q, Touches (p.toNat * 4096 + 4096) (p.toNat * 4096 + len.toNat) q → s1.Passes cfg access q := by
      by_cases hlast : len.toNat = 4096
      · have hdone : len - ofNat 32 targetPageSize = 0 := by
          apply eq_of_toNat_eq
          rw [hlen', hlast]
          rfl
        rw [hdone]
        refine ⟨fun _ q hq => ?_, fun _ => ⟨s1, if_pos rfl⟩⟩
        rw [Touches] at hq
        omega
      · have haddr' : (pageStart p + ofNat 32 targetPageSize).toNat = p.toNat * 4096 + 4096 := by
          rw [toNat_add_pageSize (by rw [pageStart_toNat]; omega), pageStart_toNat]
        have hpos' : 0 < (len - ofNat 32 targetPageSize).toNat := by omega
        have hne' : len - ofNat 32 targetPageSize ≠ 0 := fun hzero => by
          rw [hzero] at hpos'
          exact absurd hpos' (lt_irrefl 0)
        have hnext := @ih s1 lists1 (pageStart p + ofNat 32 targetPageSize)
          (len - ofNat 32 targetPageSize) h1 (by omega) (by omega) (by omega) (by omega)
          hne' hpos'
        refine hnext.trans ?_
        rw [haddr', hlen', show p.toNat * 4096 + 4096 + (len.toNat - 4096) =
          p.toNat * 4096 + len.toNat by omega]
    constructor
    · intro hok q hq
      have hpass := hmust hok
      obtain ⟨s1, lists1, h1, hsame, heq⟩ := hgoes hpass
      rw [heq, hrest s1 lists1 h1] at hok
      rcases (hiff q).mp hq with rfl | hq
      · exact hpass
      · exact (hsame q).mp (hok q hq)
    · intro hall
      obtain ⟨s1, lists1, h1, hsame, heq⟩ := hgoes (hall p ((hiff p).mpr (.inl rfl)))
      rw [heq, hrest s1 lists1 h1]
      exact fun q hq => (hsame q).mpr (hall q ((hiff q).mpr (.inr hq)))

theorem targetPageAlign_toNat (a : TargetUlong) :
    (Store.targetPageAlign a).toNat = (a.toNat + 4095) % 2 ^ 32 / 4096 * 4096 := by
  rw [targetPageAlign, and_targetPageMask_toNat, toNat_add]
  rfl

def WholeSpace (start last : Nat) : Prop := start < 4096 ∧ 0xFFFFF000 < last

instance (start last : Nat) : Decidable (WholeSpace start last) :=
  inferInstanceAs (Decidable (_ ∧ _))

/-- The bytes that are left to look at: none if the range covers all pages. -/
theorem align_sub {n : Nat} (hlast : last.toNat = n % 2 ^ 32) (hpos : start.toNat < n) (hn : n ≤ 2 ^ 32) :
    (Store.targetPageAlign last - (start &&& targetPageMask)).toNat =
      if WholeSpace start.toNat n then 0
      else (n + 4095) / 4096 * 4096 - start.toNat / 4096 * 4096 := by
  rw [toNat_sub, targetPageAlign_toNat, and_targetPageMask_toNat, hlast]
  obtain ⟨x, hx, hcases⟩ : ∃ x, (n % 2 ^ 32 + 4095) % 2 ^ 32 / 4096 * 4096 = x ∧
      (n ≤ 0xFFFFF000 ∧ x = (n + 4095) / 4096 * 4096 ∨ 0xFFFFF000 < n ∧ x = 0) := by
    refine ⟨_, rfl, ?_⟩
    rcases Nat.lt_or_ge n (2 ^ 32) with hlt | hge
    · rw [mod_eq_of_lt hlt]
      rcases Nat.lt_or_ge 0xFFFFF000 n with hgt | hle
      · exact .inr ⟨hgt, by omega⟩
      · exact .inl ⟨hle, by rw [mod_eq_of_lt (by omega)]⟩
    · obtain rfl : n = 2 ^ 32 := by omega
      exact .inr ⟨by decide, by decide⟩
  rw [hx]
  split_ifs with hwhole <;> rw [WholeSpace] at hwhole
  · omega
  · rcases hcases with ⟨hle, rfl⟩ | ⟨hgt, rfl⟩
    · omega
    · omega

/-- `page_check_range` succeeds for an empty range, and for one without a wrap that covers all pages
or whose pages pass. -/
theorem pageCheckRange_iff {start len : TargetUlong} {access : BitVec 32} (h : Inv cfg s none lists) :
    (∃ s', s.pageCheckRange cfg start len access = some (true, s')) ↔
      len = 0 ∨ start.toNat + len.toNat ≤ 2 ^ 32 ∧ (WholeSpace start.toNat (start.toNat + len.toNat) ∨
        ∀ p, Touches start.toNat (start.toNat + len.toNat) p → s.Passes cfg access p) := by
  rw [pageCheckRange]
  split_ifs with hzero hwrap
  · exact ⟨fun _ => .inl hzero, fun _ => ⟨s, rfl⟩⟩
  all_goals
    have hpos : 0 < len.toNat := Nat.pos_of_ne_zero fun hz =>
      hzero (eq_of_toNat_eq (by simpa using hz))
    have hiff : start + len - 1 < start ↔ 2 ^ 32 < start.toNat + len.toNat := by
      rw [lt_def, toNat_sub, toNat_add,
        show (1 : TargetUlong).toNat = 1 from rfl]
      omega
    rw [hiff] at hwrap
  · refine ⟨fun ⟨s', hs'⟩ => (by cases hs'), ?_⟩
    rintro (hz | ⟨hfit, -⟩)
    · exact absurd hz hzero
    · omega
  · have hfit : start.toNat + len.toNat ≤ 2 ^ 32 := by omega
    have hsub := @align_sub start (start + len) (start.toNat + len.toNat) (toNat_add ..)
      (by omega) hfit
    have hmask : (start &&& targetPageMask).toNat = start.toNat / 4096 * 4096 :=
      and_targetPageMask_toNat start
    have hmod := targetPageAlign_sub_mod start (start + len)
    rw [or_iff_right hzero, and_iff_right hfit, pageLoopBound]
    dsimp only
    by_cases hwhole : WholeSpace start.toNat (start.toNat + len.toNat)
    · rw [if_pos hwhole] at hsub
      refine ⟨fun _ => .inl hwhole, fun _ => ⟨s, if_pos (eq_of_toNat_eq hsub)⟩⟩
    · rw [if_neg hwhole] at hsub
      rw [or_iff_right hwhole, checkLoop_iff h (by rw [hmask]; omega) hmod
        (by rw [hmask, hsub]; omega) (by rw [hsub]; omega), hmask, hsub]
      refine forall_congr' fun p => imp_congr_left ?_
      rw [Touches, Touches]
      omega

/-- A page that passes allows the access, unless it is not executable and should be, or it would
have to be made writable in the last host page. -/
theorem Store.Passes.allows_iff (h : Inv cfg s none lists) (hpass : s.Passes cfg access p) :
    s.Allows cfg access p ↔
      ¬ (access &&& pageExec ≠ 0 ∧ s.flagsAt p &&& pageExec = 0) ∧
      ¬ (access &&& pageWrite ≠ 0 ∧ s.flagsAt p &&& pageWrite = 0 ∧ LastHostPage cfg (pageStart p)) := by
  have hcan (hwrite : access &&& pageWrite ≠ 0) (hzero : s.flagsAt p &&& pageWrite = 0) :
      s.CanUnprotect cfg p ↔ ¬ LastHostPage cfg (pageStart p) := by
    obtain ⟨hdesc, hspec⟩ := pageUnprotect_spec h (hpass.write hwrite) hzero
    have hself := inHostPage_self cfg (pageStart p)
    rw [pageIndex_pageStart] at hself
    constructor
    · rintro ⟨s', hrun, hset⟩ hlast
      rw [(hspec s' hrun).2.2, if_neg fun hnot => hnot.1 hlast] at hset
      exact hset hzero
    · intro hlast
      obtain ⟨s', hrun⟩ := hdesc.mp (hpass.described hwrite hzero)
      refine ⟨s', hrun, ?_⟩
      rw [(hspec s' hrun).2.2, if_pos ⟨hlast, hself⟩]
      exact or_and_self_ne_zero (by decide) _
  constructor
  · rintro ⟨-, -, hallow, hexec⟩
    refine ⟨fun ⟨hreq, hnone⟩ => hexec hreq hnone, fun ⟨hreq, hzero, hlast⟩ => ?_⟩
    rcases hallow hreq with hset | hcan'
    · exact hset hzero
    · exact (hcan hreq hzero).mp hcan' hlast
  · rintro ⟨hexec, hwrite⟩
    refine ⟨hpass.valid, hpass.read, fun hreq => ?_, fun hreq hnone => hexec ⟨hreq, hnone⟩⟩
    rcases eq_or_ne (s.flagsAt p &&& pageWrite) 0 with hzero | hset
    · exact .inr ((hcan hreq hzero).mpr fun hlast => hwrite ⟨hreq, hzero, hlast⟩)
    · exact .inl hset

/-- A page that allows the access passes, unless it is writable without `PAGE_WRITE_ORG`. -/
theorem Store.Allows.passes_iff (h : Inv cfg s none lists) (hallow : s.Allows cfg access p) :
    s.Passes cfg access p ↔
      ¬ (access &&& pageWrite ≠ 0 ∧ s.flagsAt p &&& pageWrite ≠ 0 ∧ s.flagsAt p &&& pageWriteOrg = 0) := by
  constructor
  · rintro hpass ⟨hreq, -, hnone⟩
    exact hpass.write hreq hnone
  · intro hgap
    have hprotected (hreq : access &&& pageWrite ≠ 0) (hzero : s.flagsAt p &&& pageWrite = 0) :
        s.flagsAt p &&& pageWriteOrg ≠ 0 ∧ s.Described cfg p := by
      obtain ⟨s', hrun, hset⟩ := (hallow.write hreq).resolve_left fun hset => hset hzero
      have horg : s.flagsAt p &&& pageWriteOrg ≠ 0 := by
        intro hnone
        have hl1 := leaf_of_flagsAt hallow.valid
        have hflags : s.flagsAt p = s.pageFlags p := if_pos hl1
        simp only [pageUnprotect, pageIndex_pageStart, pageFind, if_pos hl1,
          ← hflags, if_neg fun hboth : s.flagsAt p &&& pageWriteOrg ≠ 0 ∧ _ => hboth.1 hnone]
          at hrun
        cases hrun
        exact hset hzero
      exact ⟨horg, (pageUnprotect_spec h horg hzero).1.mpr ⟨s', hrun⟩⟩
    refine ⟨hallow.valid, hallow.read, fun hreq hnone => ?_, fun hreq hzero => (hprotected hreq hzero).2⟩
    rcases eq_or_ne (s.flagsAt p &&& pageWrite) 0 with hzero | hset
    · exact (hprotected hreq hzero).1 hnone
    · exact hgap ⟨hreq, hset, hnone⟩

theorem setFlagsLoop_ends {flags : BitVec 32} {fuel : Nat} {addr len : TargetUlong}
    (h : Inv cfg s none lists) (hlen : len.toNat % 4096 = 0) (hfuel : len.toNat ≤ fuel * 4096) :
    ∃ s', Store.setFlagsLoop flags (fuel + 1) addr len s = some s' := by
  induction fuel generalizing s lists addr len with
  | zero =>
    refine ⟨s, if_pos (eq_of_toNat_eq ?_)⟩
    simpa using hfuel
  | succ fuel ih =>
    rw [setFlagsLoop_succ]
    split
    · exact ⟨s, rfl⟩
    · rename_i hne
      have hpos : 0 < len.toNat := Nat.pos_of_ne_zero fun hz =>
        hne (eq_of_toNat_eq (by simpa using hz))
      have hlen' := @toNat_sub_pageSize len (by omega)
      obtain ⟨s1, lists1, hpage, h1, -⟩ := setFlagsPage_spec h flags addr
      obtain ⟨s', hrun⟩ := ih h1
        (show (len - ofNat 32 targetPageSize).toNat % 4096 = 0 by omega) (by omega)
      exact ⟨s', by rw [hpage]; exact hrun⟩

/-- The flags `page_set_flags` gives to the pages. -/
def givenFlags (flags : BitVec 32) : BitVec 32 :=
  if flags &&& pageWrite ≠ 0 then flags ||| pageWriteOrg else flags

/-- `page_set_flags` gives the pages of its range the new flags and leaves the other pages alone,
and it does nothing if the range covers all pages. -/
theorem pageSetFlags_spec (flags : BitVec 32) (h : Inv cfg s none lists) (hlt : start.toNat < last.toNat) :
    ∃ s', s.pageSetFlags start last flags = some s' ∧ (∃ lists', Inv cfg s' none lists') ∧
      ∀ p, s'.flagsAt p =
        if Touches start.toNat last.toNat p ∧ ¬ WholeSpace start.toNat last.toNat
        then givenFlags flags else s.flagsAt p := by
  have hlast := last.isLt
  have hsub := align_sub (mod_eq_of_lt hlast).symm hlt hlast.le
  have hmask : (start &&& targetPageMask).toNat = start.toNat / 4096 * 4096 := and_targetPageMask_toNat start
  have hmod := targetPageAlign_sub_mod start last
  have heq : s.pageSetFlags start last flags = setFlagsLoop (givenFlags flags)
      pageLoopBound (start &&& targetPageMask)
      (targetPageAlign last - (start &&& targetPageMask)) s := by
    rw [pageSetFlags, if_pos (BitVec.lt_def.mpr hlt)]
    rfl
  have hfuel : (targetPageAlign last - (start &&& targetPageMask)).toNat ≤ 2 ^ 20 * 4096 := by
    omega
  obtain ⟨s', hrun⟩ := @setFlagsLoop_ends _ _ _ _ (givenFlags flags) _
    (start &&& targetPageMask) _ h hmod hfuel
  obtain ⟨lists', h', -⟩ := setFlagsLoop_spec h hrun
  refine ⟨s', heq.trans hrun, ⟨lists', h'⟩, fun p => ?_⟩
  rw [setFlagsLoop_flags h (by rw [hmask]; omega) hmod _ hrun, hmask, hsub]
  · refine if_congr ?_ rfl rfl
    split_ifs with hwhole
    · simp only [hwhole, not_true_eq_false, and_false, iff_false, Touches]
      omega
    · simp only [hwhole, not_false_eq_true, and_true, Touches]
      omega
  · rw [hmask, hsub]
    split_ifs <;> omega

/-- When `page_check_range` tells whether the pages of a range allow an access: for an empty range
or one that wraps; for one over all pages if they all allow it; otherwise unless all pages pass and
one is not executable or is read-only for its code in the last host page, or all allow the access
and one is writable without `PAGE_WRITE_ORG`. `page_set_flags` gives the new flags to the pages of a
range only, unless the range covers all pages and one has other flags. -/
theorem page_check_range_set_flags_iff (h : Inv cfg s none lists) (start len last : TargetUlong)
    (access flags : BitVec 32) :
    (((∃ s', s.pageCheckRange cfg start len access = some (true, s')) ↔
        len = 0 ∨ start.toNat + len.toNat ≤ 2 ^ 32 ∧
          ∀ p, Touches start.toNat (start.toNat + len.toNat) p → s.Allows cfg access p) ↔
      len = 0 ∨ 2 ^ 32 < start.toNat + len.toNat ∨
        if WholeSpace start.toNat (start.toNat + len.toNat) then ∀ p, s.Allows cfg access p
        else
          ((∀ p, Touches start.toNat (start.toNat + len.toNat) p → s.Passes cfg access p) →
            ∀ p, Touches start.toNat (start.toNat + len.toNat) p →
              ¬ (access &&& pageExec ≠ 0 ∧ s.flagsAt p &&& pageExec = 0) ∧
              ¬ (access &&& pageWrite ≠ 0 ∧ s.flagsAt p &&& pageWrite = 0 ∧ LastHostPage cfg (pageStart p))) ∧
          ((∀ p, Touches start.toNat (start.toNat + len.toNat) p → s.Allows cfg access p) →
            ∀ p, Touches start.toNat (start.toNat + len.toNat) p →
              ¬ (access &&& pageWrite ≠ 0 ∧ s.flagsAt p &&& pageWrite ≠ 0 ∧
                s.flagsAt p &&& pageWriteOrg = 0))) ∧
    (start.toNat < last.toNat →
      ((∃ s', s.pageSetFlags start last flags = some s' ∧ ∀ p, s'.flagsAt p =
          if Touches start.toNat last.toNat p then givenFlags flags else s.flagsAt p) ↔
        ¬ WholeSpace start.toNat last.toNat ∨ ∀ p, s.flagsAt p = givenFlags flags)) := by
  constructor
  · rw [pageCheckRange_iff h]
    by_cases hzero : len = 0
    · simp only [hzero, true_or]
    rcases Nat.lt_or_ge (2 ^ 32) (start.toNat + len.toNat) with hwrap | hfit
    · simp only [hzero, hwrap, Nat.not_le.mpr hwrap, false_and, or_false, true_or, or_true]
    rw [or_iff_right hzero, or_iff_right hzero, or_iff_right hzero, and_iff_right hfit,
      and_iff_right hfit, or_iff_right (Nat.not_lt.mpr hfit)]
    split_ifs with hwhole
    · -- every page is touched, and the check does not look at any
      simp only [hwhole, true_or, true_iff]
      refine forall_congr' fun p => imp_iff_right ?_
      obtain ⟨hlow, hhigh⟩ := hwhole
      rw [Touches]
      omega
    · rw [or_iff_right hwhole]
      constructor
      · intro hiff
        refine ⟨fun hpass p hp => ?_, fun hallow p hp => ?_⟩
        · exact ((hpass p hp).allows_iff h).mp (hiff.mp hpass p hp)
        · exact ((hallow p hp).passes_iff h).mp (hiff.mpr hallow p hp)
      · rintro ⟨hpasses, hallows⟩
        refine ⟨fun hpass p hp => ?_, fun hallow p hp => ?_⟩
        · exact ((hpass p hp).allows_iff h).mpr (hpasses hpass p hp)
        · exact ((hallow p hp).passes_iff h).mpr (hallows hallow p hp)
  · intro hlt
    obtain ⟨s', hrun, -, hflags⟩ := pageSetFlags_spec flags h hlt
    constructor
    · rintro ⟨s₁, hrun₁, hflags₁⟩
      cases hrun.symm.trans hrun₁
      refine or_iff_not_imp_left.mpr fun hwhole p => ?_
      rw [not_not] at hwhole
      have htouch : Touches start.toNat last.toNat p := by
        obtain ⟨hlow, hhigh⟩ := hwhole
        rw [Touches]
        omega
      have hset := hflags₁ p
      rw [hflags, if_neg fun hboth => hboth.2 hwhole, if_pos htouch] at hset
      exact hset
    · intro hcond
      refine ⟨s', hrun, fun p => (hflags p).trans ?_⟩
      rcases hcond with hwhole | hall
      · simp only [hwhole, not_false_eq_true, and_true]
      · simp only [hall p, ite_self]

/-- The store with one page, which is readable. -/
theorem readable_page : ∃ s : Store .bits32, ∃ lists,
    (emptyStore smallConfig).pageSetFlags 0x1000 0x2000 9 = some s ∧ Inv smallConfig s none lists ∧
      s.flagsAt 1 = 9 ∧ s.flagsAt 2 = 0 := by
  obtain ⟨s, hrun, ⟨lists, h⟩, hflags⟩ := @pageSetFlags_spec _ _ _ _ 0x1000 0x2000 9
    (inv_initial (emptyStore_initial smallConfig)) (by decide)
  refine ⟨s, lists, hrun, h, ?_, ?_⟩ <;> rw [hflags]
  · exact if_pos (by decide)
  · exact if_neg (by decide)

/-- Four bytes from the last two of the page on cannot be read. -/
theorem page_check_range_unmapped : ∃ s : Store .bits32,
    (emptyStore smallConfig).pageSetFlags 0x1000 0x2000 9 = some s ∧
    (¬ ∃ s', s.pageCheckRange smallConfig 0x1ffe 4 pageRead = some (true, s')) ∧
    ∃ s', s.pageSetFlags 0x2000 0x3000 3 = some s' ∧ s'.flagsAt 1 = 9 ∧ s'.flagsAt 2 = 0x13 := by
  obtain ⟨s, lists, hrun, h, hone, htwo⟩ := readable_page
  have hcheck := (page_check_range_set_flags_iff h 0x1ffe 4 0x3000 pageRead 3).1.mpr (.inr (.inr (by
    rw [if_neg (by decide)]
    exact ⟨fun _ _ _ => ⟨fun hexec => hexec.1 rfl, fun hwrite => hwrite.1 rfl⟩,
      fun _ _ _ hwrite => hwrite.1 rfl⟩)))
  refine ⟨s, hrun, fun hok => ?_, ?_⟩
  · rcases hcheck.mp hok with hzero | ⟨-, hall⟩
    · exact absurd hzero (by decide)
    · exact (hall 2 (by decide)).valid (by rw [htwo]; rfl)
  · obtain ⟨s', hset, hflags⟩ :=
      ((page_check_range_set_flags_iff h 0x2000 0 0x3000 0 3).2 (by decide)).mpr (.inl (by decide))
    refine ⟨s', hset, ?_, ?_⟩ <;> rw [hflags]
    · exact (if_neg (by decide)).trans hone
    · exact if_pos (by decide)

/-- Without any page, a range over the whole address space passes the check, and `page_set_flags` on
it leaves the pages as they were. And code may be read from a page that is not executable. -/
theorem page_check_range_whole_space :
    (∃ s', (emptyStore smallConfig).pageCheckRange smallConfig 0 0xffffffff pageWrite = some (true, s')) ∧
    (∃ s', (emptyStore smallConfig).pageSetFlags 0 0xffffffff 3 = some s' ∧ s'.flagsAt 5 = 0) ∧
    ∃ s s' : Store .bits32, Run (StoreStep smallConfig) (emptyStore smallConfig)
      [.setFlags 0x1000 0x2000 9] s ∧ s.flagsAt 1 = 9 ∧
      s.pageCheckRange smallConfig 0x1000 4 pageExec = some (true, s') := by
  have hinv : Inv smallConfig (emptyStore smallConfig) none fun _ => [] :=
    inv_initial (emptyStore_initial smallConfig)
  refine ⟨?_, ?_, ?_⟩
  · exact (pageCheckRange_iff hinv).mpr (.inr ⟨by decide, .inl ⟨by decide, by decide⟩⟩)
  · obtain ⟨s', hrun, -, hflags⟩ := @pageSetFlags_spec _ _ _ _ 0 0xffffffff 3 hinv (by decide)
    refine ⟨s', hrun, ?_⟩
    rw [hflags, if_neg (by decide)]
    rfl
  · obtain ⟨s, lists, hrun, h, hone, -⟩ := readable_page
    have hpass : ∀ p, Touches 0x1000 (0x1000 + 4) p → s.Passes smallConfig pageExec p := by
      intro p hp
      refine ⟨?_, fun hreq => absurd rfl hreq, fun hreq => absurd rfl hreq, fun hreq => absurd rfl hreq⟩
      obtain rfl : p = 1 := by
        apply eq_of_toNat_eq
        rw [Touches] at hp
        rw [show (1 : PageIndex).toNat = 1 from rfl]
        omega
      rw [hone]
      decide
    obtain ⟨s', hcheck⟩ := (@pageCheckRange_iff _ _ _ _ 0x1000 4 pageExec h).mpr
      (.inr ⟨by decide, .inr hpass⟩)
    exact ⟨s, s', Run.cons hrun (Run.nil s), hone, hcheck⟩

end TcgArm.Tb
