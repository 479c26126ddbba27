import TcgArm.CodeBitmapInv

/-! Stores to pages with code under the software MMU: in every state of every run the bitmap of a
page has a bit for every code byte of every block on it, and the fast path of a store, which tests
the bitmap, leaves the same blocks as the slow path, which walks the list, if no block is empty: the
slow path invalidates an empty block inside the stored bytes, which has no bit. -/

namespace TcgArm.SoftMmu

open BitScan Function List Nat Option

variable {w : Nat}

def State.bare (s : State w) : State w :=
  { s with pages := fun page => (s.pages page).invalidatePageBitmap }

section

variable (s : State w)

theorem State.setPage_bare (page : Nat) (p : PageDesc w) :
    (s.setPage page p).bare = s.bare.setPage page p.invalidatePageBitmap := by
  rw [bare, setPage, bare, setPage]
  congr 1
  funext page'
  simp only [update_apply]
  split_ifs <;> rfl

theorem State.pageFind_bare (page : Nat) :
    s.bare.pageFind page = (s.pageFind page).map PageDesc.invalidatePageBitmap := by
  rw [pageFind, pageFind]
  change (if s.leaves (page / vL2Size) then _ else _) = _
  split_ifs <;> rfl

theorem State.tbPageRemove_bare (tb page : Nat) :
    s.bare.tbPageRemove tb page = (s.tbPageRemove tb page).map bare := by
  rw [tbPageRemove, tbPageRemove, pageFind_bare]
  cases s.pageFind page with
  | none => rfl
  | some p =>
    simp only [map_some, PageDesc.invalidatePageBitmap]
    split_ifs
    · rw [map_some, setPage_bare]
      rfl
    · rfl

theorem State.tbUnlink_bare (tb : Nat) (n : Fin 2) :
    s.bare.tbUnlink tb n = (s.tbUnlink tb n).map bare := by
  rw [tbUnlink, tbUnlink]
  rw [show s.bare.tbs = s.tbs from rfl]
  cases (s.tbs tb).pageAddr n with
  | none => rfl
  | some page => exact s.tbPageRemove_bare tb page

theorem State.tbPhysInvalidate_bare (tb : Nat) :
    s.bare.tbPhysInvalidate tb = (s.tbPhysInvalidate tb).map bare := by
  have herase : ({ s.bare with live := s.bare.live.erase tb } : State w) =
    State.bare { s with live := s.live.erase tb } := rfl
  rw [tbPhysInvalidate, tbPhysInvalidate, herase, tbUnlink_bare, bind_map, map_bind]
  congr 1
  funext s1
  exact s1.tbUnlink_bare tb 1

theorem State.invalidateLoop_bare (start last fuel : Nat) (l : List Entry) (s : State w) :
    invalidateLoop start last fuel l s.bare = (invalidateLoop start last fuel l s).map bare := by
  induction fuel generalizing l s with
  | zero => rfl
  | succ fuel ih =>
    match l with
    | [] => rfl
    | (tb, n) :: rest =>
      rw [invalidateLoop, invalidateLoop]
      change (if (s.tbs tb).hit n start last then _ else _) = _
      split_ifs
      · rw [tbPhysInvalidate_bare, bind_map, map_bind]
        congr 1
        funext s1
        exact ih _ s1
      · exact ih rest s

theorem State.tbInvalidatePhysPageRange_bare (start last : Nat) :
    s.bare.tbInvalidatePhysPageRange start last = (s.tbInvalidatePhysPageRange start last).map bare := by
  rw [tbInvalidatePhysPageRange, tbInvalidatePhysPageRange, pageFind_bare]
  cases s.pageFind (start / targetPageSize) with
  | none => rfl
  | some p =>
    simp only [map_some]
    change ((invalidateLoop start last p.firstTb.length p.firstTb s.bare).map _ : Option _) = _
    rw [invalidateLoop_bare, Option.map_map, Option.map_map]
    congr 1
    funext s1
    simp only [comp_apply]
    change (if (s1.pages _).firstTb = [] then _ else _) = _
    split_ifs
    · rw [setPage_bare]
      rfl
    · rfl

end

variable {s : State w}

theorem State.live_range_congr {s' : State w} (h : s.bare = s'.bare) (start last : Nat) :
    (s.tbInvalidatePhysPageRange start last).map State.live =
      (s'.tbInvalidatePhysPageRange start last).map State.live := by
  have hbare : ∀ s : State w, (s.tbInvalidatePhysPageRange start last).map State.live =
      (s.bare.tbInvalidatePhysPageRange start last).map State.live := by
    intro s
    rw [tbInvalidatePhysPageRange_bare, Option.map_map]
    rfl
  rw [hbare s, h, ← hbare s']

theorem State.countWrite_bare (s : State w) (page : Nat) :
    (s.setPage page ((s.pages page).countWrite s.tbs)).bare = s.bare := by
  have hpage : ((s.pages page).countWrite s.tbs).invalidatePageBitmap =
      (s.pages page).invalidatePageBitmap := by
    rw [PageDesc.invalidatePageBitmap, PageDesc.invalidatePageBitmap, PageDesc.countWrite_firstTb]
  rw [setPage_bare, hpage]
  change { s.bare with pages := update s.bare.pages page (s.bare.pages page) } = s.bare
  rw [update_eq_self]

variable {start least : Nat} {last : Nat} {len : Nat}

/-- A block that the slow path hits has a code byte among the bytes stored. -/
theorem Block.Placed.exists_codeByte {b : Block} {n : Fin 2}
    (h : b.Placed 1 n (start / targetPageSize)) (hlen : 0 < len)
    (hin : start % targetPageSize + len ≤ targetPageSize) (hhit : b.hit n start (start + len) = true) :
    ∃ i, start % targetPageSize ≤ i ∧ i < start % targetPageSize + len ∧ b.CodeByte n i := by
  have hstart := div_add_mod' start targetPageSize
  have hoff := b.offset_lt
  have hpos := h.least_le
  have hsize := h.size_le
  simp only [hit, Bool.not_eq_true', Bool.or_eq_false_iff, decide_eq_false_iff_not, not_le] at hhit
  obtain ⟨hend, hbegin⟩ := hhit
  obtain rfl | rfl : n = 0 ∨ n = 1 := by omega
  · simp only [physEnd, physStart, if_pos, h.pageAddr, getD_some] at hend hbegin
    refine ⟨max b.offset (start % targetPageSize), by omega, by omega, by omega,
      max b.offset (start % targetPageSize) - b.offset, by omega, ?_⟩
    simp only [Fin.val_zero]
    omega
  · have hcross := h.crosses rfl (by omega)
    simp only [physEnd, physStart, if_neg (show (1 : Fin 2) ≠ 0 by decide), h.pageAddr,
      getD_some, b.endOffset_eq] at hend hbegin
    rw [mod_eq_sub_mod (by omega), mod_eq_of_lt (by omega)] at hend
    refine ⟨start % targetPageSize, le_rfl, by omega, by omega,
      targetPageSize + start % targetPageSize - b.offset, by omega, ?_⟩
    simp only [Fin.val_one]
    omega

theorem State.invalidateLoop_of_not_hit (fuel : Nat) {l : List Entry}
    (h : ∀ e ∈ l, (s.tbs e.1).hit e.2 start last = false) :
    invalidateLoop start last fuel l s = some s := by
  induction fuel generalizing l with
  | zero => rfl
  | succ fuel ih =>
    match l with
    | [] => rfl
    | (tb, n) :: rest =>
      rw [invalidateLoop, if_neg (by rw [h _ mem_cons_self]; decide)]
      exact ih fun e he => h e (mem_cons_of_mem _ he)

theorem State.live_range_of_not_hit
    (h : ∀ e ∈ (s.pages (start / targetPageSize)).firstTb, (s.tbs e.1).hit e.2 start last = false) :
    (s.tbInvalidatePhysPageRange start last).map State.live = some s.live := by
  rw [tbInvalidatePhysPageRange]
  cases hfind : s.pageFind (start / targetPageSize) with
  | none => rfl
  | some p =>
    obtain rfl := pageFind_eq hfind
    simp only
    rw [invalidateLoop_of_not_hit _ h, map_some, map_some]
    split_ifs <;> rfl

theorem aligned_fits {len m : Nat} (hlen : len ∣ m) (hm : 0 < m) (hstart : len ∣ start) :
    start % m + len ≤ m := by
  obtain ⟨a, rfl⟩ := hlen
  obtain ⟨b, rfl⟩ := hstart
  rw [mul_mod_mul_left, ← mul_succ]
  exact Nat.mul_le_mul_left _ (mod_lt _ (Nat.pos_of_mul_pos_left hm))

theorem State.live_fast_eq (hw : w = 32 ∨ w = 64) (h : s.Inv 1)
    (hlen : len ∈ [1, 2, 4, 8]) (hstart : len ∣ start) :
    (s.tbInvalidatePhysPageFast start len).map State.live =
      (s.tbInvalidatePhysPageRange start (start + len)).map State.live := by
  have hpos : 0 < len := by
    rcases mem_cons.mp hlen with rfl | hlen
    · decide
    · simp only [mem_cons, not_mem_nil, or_false] at hlen
      omega
  have hpage : len ∣ targetPageSize := by
    simp only [mem_cons, not_mem_nil, or_false] at hlen
    rcases hlen with rfl | rfl | rfl | rfl <;> decide
  have hword : len ∣ w := by
    simp only [mem_cons, not_mem_nil, or_false] at hlen
    rcases hw with rfl | rfl <;> rcases hlen with rfl | rfl | rfl | rfl <;> decide
  rw [tbInvalidatePhysPageFast]
  cases hfind : s.pageFind (start / targetPageSize) with
  | none => simp only [tbInvalidatePhysPageRange, hfind]
  | some p =>
    obtain rfl := pageFind_eq hfind
    set s1 := s.setPage (start / targetPageSize)
      ((s.pages (start / targetPageSize)).countWrite s.tbs) with hs1
    have hinv : s1.Inv 1 := h.countWrite (by omega) _
    have hpages : s1.pages (start / targetPageSize) =
        (s.pages (start / targetPageSize)).countWrite s.tbs := by
      rw [hs1, setPage_pages, if_pos rfl]
    rw [← live_range_congr (s.countWrite_bare (start / targetPageSize)), ← hs1]
    simp only
    split
    · rename_i words hwords
      split_ifs with hhit
      · rfl
      · rw [map_some, live_range_of_not_hit]
        intro e he
        by_contra hne
        rw [Bool.not_eq_false] at hne
        obtain ⟨i, hle, hlt, hcode⟩ := (hinv.listed _ e he).2.exists_codeByte hpos
          (aligned_fits hpage (by decide) hstart) hne
        apply hhit
        rw [bitmapHit_iff (aligned_fits hword (by omega) ((dvd_mod_iff hpage).mpr hstart))]
        exact ⟨i, hle, hlt, hinv.covered _ words (by rw [hpages]; exact hwords) e he i hcode⟩
    · rfl

/-- The event makes no block of fewer than `least` bytes. -/
def Event.AtLeast (least : Nat) : Event → Prop
  | .gen _ size _ _ => least ≤ size
  | _ => True

instance (least : Nat) : DecidablePred (Event.AtLeast least)
  | .gen _ size _ _ => inferInstanceAs (Decidable (least ≤ size))
  | .invalidate _ => .isTrue trivial
  | .flush => .isTrue trivial
  | .range _ _ => .isTrue trivial
  | .store _ _ => .isTrue trivial

theorem State.inv_initial (least : Nat) : (State.initial : State w).Inv least :=
  ⟨fun _ _ he => absurd he not_mem_nil, fun _ _ h => by cases h⟩

theorem State.step_inv (hw : 0 < w) {s' : State w} {e : Event} (hinv : s.Inv least)
    (he : e.AtLeast least) (h : s.step e = some s') : s'.Inv least := by
  cases e with
  | gen pc size page page2 =>
    rw [step] at h
    split_ifs at h with hsize
    exact Option.some.inj h ▸ tbGenCode_inv hinv he hsize pc page page2
  | invalidate tb =>
    rw [step] at h
    split_ifs at h
    exact (tbPhysInvalidate_shrinks h).inv hinv
  | flush =>
    obtain rfl := Option.some.inj h
    exact ⟨fun _ _ he => absurd he not_mem_nil, fun _ _ h => by cases h⟩
  | range start last => exact (tbInvalidatePhysPageRange_shrinks h).inv hinv
  | store start len => exact tbInvalidatePhysPageFast_inv hw hinv h

theorem State.run_inv (hw : 0 < w) {events : List Event} {s' : State w} (hinv : s.Inv least)
    (hevents : ∀ e ∈ events, e.AtLeast least) (h : s.run events = some s') : s'.Inv least := by
  induction events generalizing s with
  | nil => exact Option.some.inj h ▸ hinv
  | cons e events ih =>
    obtain ⟨s1, h1, h2⟩ := bind_eq_some_iff.mp h
    exact ih (step_inv hw hinv (hevents e mem_cons_self) h1) (fun e he => hevents e (mem_cons_of_mem _ he)) h2

theorem Event.atLeast_zero (e : Event) : e.AtLeast 0 := by
  cases e <;> simp [AtLeast]

/-- In every state of every run every bitmap has a bit for every code byte of every block on its
page; and if no block of the run is empty, an aligned store of 1, 2, 4 or 8 bytes leaves the same
blocks on the fast path as on the slow path. -/
theorem code_bitmap_agrees (hw : w = 32 ∨ w = 64) {events : List Event} {s : State w}
    (hrun : State.initial.run events = some s) :
    s.BitmapsRight ∧
      ((∀ e ∈ events, e.AtLeast 1) → ∀ start len, len ∈ [1, 2, 4, 8] → len ∣ start →
        (s.tbInvalidatePhysPageFast start len).map State.live =
          (s.tbInvalidatePhysPageRange start (start + len)).map State.live) := by
  have hpos : 0 < w := by omega
  constructor
  · exact (State.run_inv hpos (State.inv_initial 0) (fun e _ => e.atLeast_zero) hrun).covered
  · intro hevents start len hlen hstart
    exact State.live_fast_eq hw (State.run_inv hpos (State.inv_initial 1) hevents hrun) hlen hstart

/-- Ten stores to the page of a block at offset `0x200` build its bitmap; the next store, to the
block itself, removes it on both paths. -/
theorem code_bitmap_agrees_ten_stores :
    ((State.initial.run (.gen 0x8200 8 3 0 :: List.replicate 10 (.store 0xc00 4)) :
        Option (State 64)).bind (·.tbInvalidatePhysPageFast 0xe04 4)).map State.live = some ∅ := by
  have hrun : ∃ s : State 64,
      State.initial.run (.gen 0x8200 8 3 0 :: List.replicate 10 (.store 0xc00 4)) = some s ∧
      (s.tbInvalidatePhysPageRange 0xe04 (0xe04 + 4)).map State.live = some ∅ := by
    refine ⟨_, rfl, ?_⟩
    decide +kernel
  obtain ⟨s, hs, hslow⟩ := hrun
  have hagree := (code_bitmap_agrees (.inr rfl) hs).2 (by decide) 0xe04 4 (by decide) (by decide)
  rw [hs, bind_some, hagree, hslow]

/-- A block of no instructions, such as the one that takes a pending single-step exception, lies at
offset `0x202`. Ten stores elsewhere build the bitmap of its page, with no bit. A store of the four
bytes at `0x200` leaves the block on the fast path; the slow path removes it. -/
theorem code_bitmap_misses_empty_block :
    ∃ s : State 64,
      State.initial.run (.gen 0x8202 0 3 0 :: List.replicate 10 (.store 0xc00 4)) = some s ∧
      (s.tbInvalidatePhysPageFast 0xe00 4).map State.live = some {0} ∧
      (s.tbInvalidatePhysPageRange 0xe00 (0xe00 + 4)).map State.live = some ∅ := by
  refine ⟨_, rfl, ?_⟩
  decide +kernel

end TcgArm.SoftMmu
