import TcgArm.CodeBitmap

/-! The bitmaps of the pages with code under the software MMU: `bitmap_set` sets the bits asked for,
a new bitmap has a bit for every code byte of the blocks on its page, and creating blocks, removing
blocks and storing to a page keep it so. -/

namespace TcgArm.SoftMmu

open BitScan BitVec Bool Function List Nat
open BitVec (ofNat)

variable {w : Nat}

theorem length_orWord (words : List (BitVec w)) (p : Nat) (mask : BitVec w) :
    (orWord words p mask).length = words.length := by
  rw [orWord, length_set]

variable {words : List (BitVec w)} {n : Fin 2} {s s' : State w}

theorem bitAt_orWord {p : Nat} (hp : p < words.length) (mask : BitVec w) (x : Nat) :
    bitAt (orWord words p mask) x = (bitAt words x || (decide (x / w = p) && mask.getLsbD (x % w))) := by
  rw [bitAt, orWord, wordAt_set hp, bitAt]
  by_cases hx : x / w = p
  · rw [if_pos hx, getLsbD_or, hx]
    simp
  · rw [if_neg hx]
    simp [hx]

variable {least page tb size start : Nat}

theorem getLsbD_lastWordMask {b : Nat} (hsize : size % w ≠ 0) (hb : b < w) :
    (lastWordMask w size).getLsbD b = decide (b < size % w) := by
  rw [lastWordMask, if_pos hsize, getLsbD_low]
  simp [hb]

theorem length_bitmapSetLoop (size fuel : Nat) (words : List (BitVec w)) (p bits : Nat)
    (mask : BitVec w) (nr : Nat) :
    (bitmapSetLoop size fuel words p bits mask nr).length = words.length := by
  induction fuel generalizing words p bits mask nr with
  | zero => rfl
  | succ fuel ih =>
    rw [bitmapSetLoop]
    split_ifs
    · rw [ih, length_orWord]
    · exact length_orWord ..
    · rfl

/-- The loop with `nr` bits left to be set, from bit `k` of word `p` on. -/
theorem bitAt_bitmapSetLoop (hw : 0 < w) {fuel : Nat} {p k nr : Nat} (hk : k < w)
    (hsize : p * w + k + nr = size) (hlen : size ≤ words.length * w) (hfuel : nr < fuel) (x : Nat) :
    bitAt (bitmapSetLoop size fuel words p (w - k) (allOnes w <<< k) nr) x =
      (bitAt words x || decide (p * w + k ≤ x ∧ x < size)) := by
  induction fuel generalizing words p k nr with
  | zero => omega
  | succ fuel ih =>
    have hmod := mod_lt x hw
    have hx : x / w = p ↔ p * w ≤ x ∧ x < p * w + w := by
      rw [Nat.div_eq_iff hw]
      constructor <;> intro h <;> constructor <;> omega
    have hsplit : x / w = p → x = p * w + x % w := by
      rintro rfl
      exact (div_add_mod' x w).symm
    have hmask : (allOnes w <<< k).getLsbD (x % w) = decide (k ≤ x % w) := by
      rw [getLsbD_shiftLeft, getLsbD_allOnes]
      by_cases hlow : x % w < k
      · simp [hlow]
      · simp [hmod, hlow, show k ≤ x % w by omega, show x % w - k < w by omega]
    rw [bitmapSetLoop]
    split_ifs with hfull hrest
    · have hp : p < words.length := by
        by_contra hge
        have := Nat.mul_le_mul_right w (show words.length ≤ p by omega)
        omega
      have hones : allOnes w = allOnes w <<< 0 := by simp
      have hnext : (p + 1) * w + 0 + (nr - (w - k)) = size := by
        rw [Nat.add_mul]
        omega
      have hih := @ih (orWord words p (allOnes w <<< k)) (p + 1) 0 (nr - (w - k)) hw hnext
        (by rw [length_orWord]; exact hlen) (by omega)
      rw [Nat.sub_zero, ← hones] at hih
      rw [hih, bitAt_orWord hp, hmask, Bool.or_assoc]
      congr 1
      rw [← decide_and, ← decide_or, decide_eq_decide, hx]
      rw [hx] at hsplit
      rw [Nat.add_mul]
      omega
    · have hlast : size % w = k + nr := by
        rw [← hsize, Nat.add_assoc, mul_add_mod', mod_eq_of_lt (by omega)]
      have hp : p < words.length := by
        by_contra hge
        have := Nat.mul_le_mul_right w (show words.length ≤ p by omega)
        omega
      rw [bitAt_orWord hp, getLsbD_and, hmask, getLsbD_lastWordMask (by omega) hmod, hlast]
      congr 1
      rw [← decide_and, ← decide_and, decide_eq_decide, hx]
      rw [hx] at hsplit
      omega
    · rw [show decide (p * w + k ≤ x ∧ x < size) = false by rw [decide_eq_false_iff_not]; omega,
        Bool.or_false]

theorem length_bitmapSet (words : List (BitVec w)) (start nr : Nat) :
    (bitmapSet words start nr).length = words.length :=
  length_bitmapSetLoop ..

theorem bitAt_bitmapSet (hw : 0 < w) {nr : Nat} (hlen : start + nr ≤ words.length * w) (x : Nat) :
    bitAt (bitmapSet words start nr) x = (bitAt words x || decide (start ≤ x ∧ x < start + nr)) := by
  have hstart : start / w * w + start % w = start := div_add_mod' start w
  rw [bitmapSet, bitAt_bitmapSetLoop hw (mod_lt _ hw) (by rw [hstart]) hlen (by omega), hstart]

/-- The test of the fast path, for bytes that lie in one word of the bitmap. -/
theorem bitmapHit_iff {nr len : Nat} (hlen : nr % w + len ≤ w) :
    bitmapHit words nr len = true ↔ ∃ i, nr ≤ i ∧ i < nr + len ∧ bitAt words i = true := by
  have hword : ∀ b, b < len → bitAt words (nr + b) = (wordAt words (nr / w)).getLsbD (nr % w + b) := by
    intro b hb
    have hsum : nr + b = nr / w * w + (nr % w + b) := by
      rw [← Nat.add_assoc, div_add_mod']
    rw [hsum, bitAt_mul_add (by omega)]
  rw [bitmapHit, decide_eq_true_iff, ne_zero_iff]
  constructor
  · rintro ⟨b, hb⟩
    rw [getLsbD_and, getLsbD_ushiftRight, getLsbD_low] at hb
    simp only [and_eq_true, decide_eq_true_eq] at hb
    obtain ⟨hbit, -, hb⟩ := hb
    exact ⟨nr + b, by omega, by omega, by rw [hword b hb, hbit]⟩
  · rintro ⟨i, hle, hlt, hbit⟩
    refine ⟨i - nr, ?_⟩
    have hi : nr + (i - nr) = i := by omega
    rw [getLsbD_and, getLsbD_ushiftRight, getLsbD_low, ← hword (i - nr) (by omega), hi]
    simp only [hbit, Bool.true_and, and_eq_true, decide_eq_true_eq]
    omega

/-- Byte `i` of page `n` of the block is a byte of its code. -/
def Block.CodeByte (b : Block) (n : Fin 2) (i : Nat) : Prop :=
  i < targetPageSize ∧ ∃ k, k < b.size ∧ b.offset + k = n.val * targetPageSize + i

def Covers (tbs : Nat → Block) (words : List (BitVec w)) (firstTb : List Entry) : Prop :=
  ∀ e ∈ firstTb, ∀ i, (tbs e.1).CodeByte e.2 i → bitAt words i = true

def State.BitmapsRight (s : State w) : Prop :=
  ∀ page words, (s.pages page).codeBitmap = some words → Covers s.tbs words (s.pages page).firstTb

/-- What is known of a block on the list of a page: it has at least `least` bytes, and it reaches
its second page unless it is empty. -/
structure Block.Placed (least : Nat) (b : Block) (n : Fin 2) (page : Nat) : Prop where
  pageAddr : b.pageAddr n = some page
  least_le : least ≤ b.size
  size_le : b.size ≤ targetPageSize
  crosses : n = 1 → 0 < b.size → targetPageSize < b.offset + b.size

structure State.Inv (least : Nat) (s : State w) : Prop where
  listed : ∀ page, ∀ e ∈ (s.pages page).firstTb, e.1 < s.nbTbs ∧ (s.tbs e.1).Placed least e.2 page
  covered : s.BitmapsRight

theorem Block.offset_lt (b : Block) : b.offset < targetPageSize := mod_lt _ (by decide)

theorem Block.endOffset_eq (b : Block) : b.endOffset = (b.offset + b.size) % targetPageSize := by
  simp only [endOffset, offset, targetPageSize, targetPageBits, toNat_add, toNat_ofNat]
  omega

variable {b : Block}

/-- The bytes that the bitmap marks for a block are its code bytes, and all lie on the page. -/
theorem Block.Placed.mem_bitmapRange {i : Nat} (h : b.Placed least n page) (hi : b.CodeByte n i) :
    (b.bitmapRange n).1 ≤ i ∧ i < (b.bitmapRange n).2 := by
  obtain ⟨hlt, k, hk, heq⟩ := hi
  have hoff := b.offset_lt
  have hsize := h.size_le
  obtain rfl | rfl : n = 0 ∨ n = 1 := by omega
  · simp only [bitmapRange, if_pos]
    simp only [Fin.val_zero] at heq
    omega
  · have hcross := h.crosses rfl (by omega)
    simp only [bitmapRange, if_neg (show (1 : Fin 2) ≠ 0 by decide), b.endOffset_eq]
    simp only [Fin.val_one] at heq
    rw [mod_eq_sub_mod (by omega), mod_eq_of_lt (by omega)]
    omega

theorem Block.bitmapRange_le (b : Block) (n : Fin 2) :
    (b.bitmapRange n).1 ≤ (b.bitmapRange n).2 ∧ (b.bitmapRange n).2 ≤ targetPageSize := by
  have hoff := b.offset_lt
  rw [bitmapRange]
  split_ifs
  · simp only
    omega
  · exact ⟨Nat.zero_le _, (mod_lt _ (by decide)).le⟩

variable {tbs : Nat → Block} {firstTb : List Entry}

/-- The new bitmap of a page has the bits of the blocks it was built from. -/
theorem buildPageBitmap_covers (hw : 0 < w) (h : ∀ e ∈ firstTb, (tbs e.1).Placed least e.2 page) :
    Covers tbs (buildPageBitmap tbs firstTb : List (BitVec w)) firstTb := by
  set mark : List (BitVec w) → Entry → List (BitVec w) := fun words e =>
    bitmapSet words ((tbs e.1).bitmapRange e.2).1
      (((tbs e.1).bitmapRange e.2).2 - ((tbs e.1).bitmapRange e.2).1) with hmark
  have hbit : ∀ (words : List (BitVec w)) (e : Entry) (x : Nat), targetPageSize ≤ words.length * w →
      bitAt (mark words e) x = (bitAt words x ||
        decide (((tbs e.1).bitmapRange e.2).1 ≤ x ∧ x < ((tbs e.1).bitmapRange e.2).2)) := by
    intro words e x hlen
    have hrange := (tbs e.1).bitmapRange_le e.2
    rw [hmark]
    simp only
    rw [bitAt_bitmapSet hw (by omega), Nat.add_sub_cancel' hrange.1]
  -- Marking a block keeps the bits of the blocks before it.
  have hfold : ∀ (l done : List Entry) (words : List (BitVec w)),
      targetPageSize ≤ words.length * w → (∀ e ∈ l, (tbs e.1).Placed least e.2 page) →
      Covers tbs words done → Covers tbs (l.foldl mark words) (done ++ l) := by
    intro l
    induction l with
    | nil =>
      intro done words _ _ hdone
      rwa [append_nil]
    | cons e l ih =>
      intro done words hlen hplaced hdone
      rw [foldl_cons, append_cons]
      refine ih _ _ (by rw [hmark]; simp only; rwa [length_bitmapSet])
        (fun e he => hplaced e (mem_cons_of_mem _ he)) ?_
      intro e' he' i hi
      rw [hbit words e i hlen]
      rcases mem_append.mp he' with hold | hnew
      · rw [hdone e' hold i hi, Bool.true_or]
      · rw [mem_singleton] at hnew
        subst hnew
        rw [decide_eq_true ((hplaced e' mem_cons_self).mem_bitmapRange hi), Bool.or_true]
  have hroom : targetPageSize ≤
      (List.replicate ((targetPageSize + w - 1) / w) (0 : BitVec w)).length * w := by
    rw [length_replicate]
    have := div_add_mod' (targetPageSize + w - 1) w
    have := mod_lt (targetPageSize + w - 1) hw
    omega
  exact hfold firstTb [] _ hroom h (fun e he => absurd he not_mem_nil)

/-- Blocks have only gone from the lists, and bitmaps have only been dropped. -/
structure State.Shrinks (s s' : State w) : Prop where
  tbs : s'.tbs = s.tbs
  nbTbs : s'.nbTbs = s.nbTbs
  firstTb : ∀ page, ∀ e ∈ (s'.pages page).firstTb, e ∈ (s.pages page).firstTb
  codeBitmap : ∀ page words, (s'.pages page).codeBitmap = some words → (s.pages page).codeBitmap = some words

theorem State.Shrinks.refl (s : State w) : s.Shrinks s := ⟨rfl, rfl, fun _ _ he => he, fun _ _ h => h⟩

theorem State.Shrinks.trans {s'' : State w} (h : s.Shrinks s') (h' : s'.Shrinks s'') :
    s.Shrinks s'' where
  tbs := h'.tbs.trans h.tbs
  nbTbs := h'.nbTbs.trans h.nbTbs
  firstTb page e he := h.firstTb page e (h'.firstTb page e he)
  codeBitmap page words hw := h.codeBitmap page words (h'.codeBitmap page words hw)

theorem State.Shrinks.inv (h : s.Shrinks s') (hinv : s.Inv least) :
    s'.Inv least where
  listed page e he := by
    rw [h.tbs, h.nbTbs]
    exact hinv.listed page e (h.firstTb page e he)
  covered page words hwords e he := by
    rw [h.tbs]
    exact hinv.covered page words (h.codeBitmap page words hwords) e (h.firstTb page e he)

theorem State.shrinks_setPage (s : State w) (page : Nat) (h : ∀ e ∈ firstTb, e ∈ (s.pages page).firstTb) :
    s.Shrinks (s.setPage page ⟨firstTb, none, 0⟩) where
  tbs := rfl
  nbTbs := rfl
  firstTb page' e he := by
    by_cases hpage : page' = page
    · subst hpage
      rw [setPage] at he
      simp only [update_self] at he
      exact h e he
    · rw [setPage] at he
      simpa only [update_of_ne hpage] using he
  codeBitmap page' words hwords := by
    rw [setPage] at hwords
    by_cases hpage : page' = page
    · subst hpage
      simp only [update_self, reduceCtorEq] at hwords
    · simpa only [update_of_ne hpage] using hwords

variable {p : PageDesc w} {b' : Block}

theorem State.pageFind_eq (h : s.pageFind page = some p) : p = s.pages page := by
  rw [pageFind] at h
  split_ifs at h
  exact (Option.some.inj h).symm

theorem State.tbPageRemove_shrinks (h : s.tbPageRemove tb page = some s') : s.Shrinks s' := by
  rw [tbPageRemove] at h
  cases hfind : s.pageFind page with
  | none => simp [hfind] at h
  | some p =>
    simp only [hfind] at h
    split_ifs at h
    obtain rfl := Option.some.inj h
    refine s.shrinks_setPage page fun e he => ?_
    rw [← pageFind_eq hfind]
    exact mem_of_mem_eraseP he

theorem State.tbUnlink_shrinks (h : s.tbUnlink tb n = some s') : s.Shrinks s' := by
  rw [tbUnlink] at h
  split at h
  · obtain rfl := Option.some.inj h
    exact .refl _
  · exact tbPageRemove_shrinks h

theorem State.tbPhysInvalidate_shrinks (h : s.tbPhysInvalidate tb = some s') : s.Shrinks s' := by
  obtain ⟨s1, h1, h2⟩ := Option.bind_eq_some_iff.mp h
  have herase : s.Shrinks { s with live := s.live.erase tb } := ⟨rfl, rfl, fun _ _ he => he, fun _ _ h => h⟩
  exact (herase.trans (tbUnlink_shrinks h1)).trans (tbUnlink_shrinks h2)

theorem State.invalidateLoop_shrinks {last fuel : Nat} {l : List Entry}
    (h : invalidateLoop start last fuel l s = some s') : s.Shrinks s' := by
  induction fuel generalizing l s with
  | zero =>
    obtain rfl := Option.some.inj h
    exact .refl _
  | succ fuel ih =>
    match l with
    | [] =>
      obtain rfl := Option.some.inj h
      exact .refl _
    | (tb, n) :: rest =>
      rw [invalidateLoop] at h
      split_ifs at h
      · obtain ⟨s1, h1, h2⟩ := Option.bind_eq_some_iff.mp h
        exact (tbPhysInvalidate_shrinks h1).trans (ih h2)
      · exact ih h

theorem State.tbInvalidatePhysPageRange_shrinks {last : Nat}
    (h : s.tbInvalidatePhysPageRange start last = some s') : s.Shrinks s' := by
  rw [tbInvalidatePhysPageRange] at h
  cases hfind : s.pageFind (start / targetPageSize) with
  | none =>
    simp only [hfind, Option.some.injEq] at h
    subst h
    exact .refl _
  | some p =>
    simp only [hfind, Option.map_eq_some_iff] at h
    obtain ⟨s1, h1, rfl⟩ := h
    refine (invalidateLoop_shrinks h1).trans ?_
    split_ifs with hempty
    · exact s1.shrinks_setPage _ fun e he => he
    · exact .refl _

theorem State.setPage_pages (s : State w) (page : Nat) (p : PageDesc w) (page' : Nat) :
    (s.setPage page p).pages page' = if page' = page then p else s.pages page' :=
  update_apply ..

theorem State.setPageAddr_pageAddr (s : State w) (tb : Nat) (n : Fin 2) (page : Option Nat) :
    ((s.setPageAddr tb n page).tbs tb).pageAddr n = page := by
  simp [setPageAddr]

theorem State.setPageAddr_tbs (s : State w) (tb : Nat) (n : Fin 2) (page : Option Nat) (x : Nat) :
    ((s.setPageAddr tb n page).tbs x).pc = (s.tbs x).pc ∧
      ((s.setPageAddr tb n page).tbs x).size = (s.tbs x).size ∧
      ∀ m, (x, m) ≠ (tb, n) → ((s.setPageAddr tb n page).tbs x).pageAddr m = (s.tbs x).pageAddr m := by
  by_cases hx : x = tb
  · subst hx
    refine ⟨by simp [setPageAddr], by simp [setPageAddr], fun m hm => ?_⟩
    have hmn : m ≠ n := fun h => hm (by rw [h])
    simp [setPageAddr, hmn]
  · simp [setPageAddr, hx]

theorem Block.codeByte_congr (hpc : b'.pc = b.pc) (hsize : b'.size = b.size)
    (n : Fin 2) (i : Nat) : b'.CodeByte n i ↔ b.CodeByte n i := by
  rw [CodeByte, CodeByte, offset, offset, hpc, hsize]

theorem Block.Placed.congr (h : b.Placed least n page) (hpc : b'.pc = b.pc)
    (hsize : b'.size = b.size) (haddr : b'.pageAddr n = b.pageAddr n) :
    b'.Placed least n page where
  pageAddr := haddr.trans h.pageAddr
  least_le := by rw [hsize]; exact h.least_le
  size_le := by rw [hsize]; exact h.size_le
  crosses := by rw [hsize, offset, hpc]; exact h.crosses

theorem State.Inv.setPageAddr (h : s.Inv least) (hnew : ∀ page, (tb, n) ∉ (s.pages page).firstTb)
    (page : Option Nat) :
    (s.setPageAddr tb n page).Inv least where
  listed page' e he := by
    obtain ⟨hpc, hsize, haddr⟩ := s.setPageAddr_tbs tb n page e.1
    obtain ⟨hlt, hplaced⟩ := h.listed page' e he
    refine ⟨hlt, hplaced.congr hpc hsize (haddr e.2 ?_)⟩
    rintro heq
    exact hnew page' (heq ▸ he)
  covered page' words hwords e he i hi := by
    obtain ⟨hpc, hsize, -⟩ := s.setPageAddr_tbs tb n page e.1
    exact h.covered page' words hwords e he i ((Block.codeByte_congr hpc hsize e.2 i).mp hi)

/-- The new element of a page list, for a block that fits there. -/
theorem State.Inv.tbAllocPage (h : s.Inv least) (htb : tb < s.nbTbs)
    (hnew : ∀ page, (tb, n) ∉ (s.pages page).firstTb) (hleast : least ≤ (s.tbs tb).size)
    (hsize : (s.tbs tb).size ≤ targetPageSize)
    (hcross : n = 1 → 0 < (s.tbs tb).size → targetPageSize < (s.tbs tb).offset + (s.tbs tb).size)
    (page : Nat) : (s.tbAllocPage tb n page).Inv least := by
  have hinv := h.setPageAddr hnew (some page)
  obtain ⟨hpc, hsize', -⟩ := s.setPageAddr_tbs tb n (some page) tb
  have hplaced : ((s.setPageAddr tb n (some page)).tbs tb).Placed least n page :=
    { pageAddr := s.setPageAddr_pageAddr tb n (some page)
      least_le := by rw [hsize']; exact hleast
      size_le := by rw [hsize']; exact hsize
      crosses := by rw [hsize', Block.offset, hpc]; exact hcross }
  constructor
  · intro page' e he
    rw [State.tbAllocPage, setPage_pages] at he
    split_ifs at he with hpage
    · subst hpage
      rcases mem_cons.mp he with rfl | hold
      · exact ⟨htb, hplaced⟩
      · exact hinv.listed page' e hold
    · exact hinv.listed page' e he
  · intro page' words hwords
    rw [State.tbAllocPage, setPage_pages] at hwords ⊢
    split_ifs at hwords ⊢ with hpage
    · cases hwords
    · exact hinv.covered page' words hwords

theorem crossesPage_spec {pc : BitVec 32} (hsize : size ≤ targetPageSize) (hpos : 0 < size)
    (h : crossesPage pc size = true) :
    targetPageSize < pc.toNat % targetPageSize + size := by
  rw [crossesPage, decide_eq_true_iff] at h
  simp only [targetPageSize, targetPageBits] at *
  by_contra hle
  apply h
  have hone : pc + ofNat 32 size - 1 = pc + ofNat 32 (size - 1) := by
    rw [show size = size - 1 + 1 by omega, BitVec.ofNat_add]
    simp only [Nat.add_sub_cancel]
    bv_omega
  rw [hone, toNat_add, toNat_ofNat, mod_eq_of_lt (show size - 1 < 2 ^ 32 by omega), mod_eq_of_lt (by omega)]
  omega

theorem State.tbGenCode_inv (h : s.Inv least) (hleast : least ≤ size)
    (hsize : size ≤ targetPageSize) (pc : BitVec 32) (page page2 : Nat) :
    (s.tbGenCode pc size page page2).Inv least := by
  have hfresh : ∀ page n, (s.nbTbs, n) ∉ (s.pages page).firstTb := fun page n he =>
    absurd (h.listed page _ he).1 (lt_irrefl _)
  -- The block is there, on no list.
  set s0 : State w := { s with
    tbs := Function.update s.tbs s.nbTbs ⟨pc, size, fun _ => none⟩
    nbTbs := s.nbTbs + 1
    live := insert s.nbTbs s.live } with hs0
  have htbs : s0.tbs s.nbTbs = ⟨pc, size, fun _ => none⟩ := by simp [hs0]
  have hold : ∀ page, ∀ e ∈ (s.pages page).firstTb, s0.tbs e.1 = s.tbs e.1 := by
    intro page e he
    have hne : e.1 ≠ s.nbTbs := (h.listed page e he).1.ne
    simp [hs0, hne]
  have h0 : s0.Inv least := by
    refine ⟨fun page e he => ?_, fun page words hwords e he i hi => ?_⟩
    · obtain ⟨hlt, hplaced⟩ := h.listed page e he
      rw [hold page e he]
      exact ⟨lt_succ_of_lt hlt, hplaced⟩
    · rw [hold page e he] at hi
      exact h.covered page words hwords e he i hi
  have h1 : (s0.tbAllocPage s.nbTbs 0 page).Inv least :=
    h0.tbAllocPage (lt_succ_self _) (fun page => hfresh page 0) (by rw [htbs]; exact hleast)
      (by rw [htbs]; exact hsize) (fun h => absurd h (by decide)) page
  have hfresh1 : ∀ page', (s.nbTbs, 1) ∉ ((s0.tbAllocPage s.nbTbs 0 page).pages page').firstTb := by
    intro page' he
    rw [State.tbAllocPage, setPage_pages] at he
    split_ifs at he
    · rcases mem_cons.mp he with heq | hmem
      · exact absurd (Prod.ext_iff.mp heq).2 (show (1 : Fin 2) ≠ 0 by decide)
      · exact hfresh page 1 hmem
    · exact hfresh page' 1 he
  have hblock : ((s0.tbAllocPage s.nbTbs 0 page).tbs s.nbTbs).pc = pc ∧
      ((s0.tbAllocPage s.nbTbs 0 page).tbs s.nbTbs).size = size := by
    obtain ⟨hpc, hsz, -⟩ := s0.setPageAddr_tbs s.nbTbs 0 (some page) s.nbTbs
    exact ⟨hpc.trans (by rw [htbs]), hsz.trans (by rw [htbs])⟩
  change (State.tbLinkPage { s0 with live := s.live } s.nbTbs page _).Inv least
  by_cases hcross : crossesPage pc size = true
  · rw [if_pos hcross]
    refine h1.tbAllocPage (lt_succ_self _) hfresh1 (by rw [hblock.2]; exact hleast)
      (by rw [hblock.2]; exact hsize) (fun _ hpos => ?_) page2
    rw [hblock.2] at hpos
    rw [Block.offset, hblock.1, hblock.2]
    exact crossesPage_spec hsize hpos hcross
  · rw [if_neg hcross]
    exact h1.setPageAddr hfresh1 none

theorem PageDesc.countWrite_firstTb (tbs : Nat → Block) (p : PageDesc w) :
    (p.countWrite tbs).firstTb = p.firstTb := by
  rw [countWrite]
  split <;> rfl

theorem PageDesc.countWrite_codeBitmap (h : (p.countWrite tbs).codeBitmap = some words) :
    p.codeBitmap = some words ∨ words = buildPageBitmap tbs p.firstTb := by
  rw [countWrite] at h
  split at h
  · exact .inl h
  · simp only at h
    split_ifs at h
    exact .inr (Option.some.inj h).symm

theorem State.Inv.countWrite (hw : 0 < w) (h : s.Inv least) (page : Nat) :
    (s.setPage page ((s.pages page).countWrite s.tbs)).Inv least := by
  constructor
  · intro page' e he
    rw [setPage_pages] at he
    split_ifs at he with hpage
    · subst hpage
      rw [PageDesc.countWrite_firstTb] at he
      exact h.listed page' e he
    · exact h.listed page' e he
  · intro page' words hwords
    rw [setPage_pages] at hwords ⊢
    split_ifs at hwords ⊢ with hpage
    · subst hpage
      rw [PageDesc.countWrite_firstTb]
      rcases PageDesc.countWrite_codeBitmap hwords with hold | rfl
      · exact h.covered page' words hold
      · exact buildPageBitmap_covers hw fun e he => (h.listed page' e he).2
    · exact h.covered page' words hwords

theorem State.tbInvalidatePhysPageFast_inv (hw : 0 < w) {len : Nat} (hinv : s.Inv least)
    (h : s.tbInvalidatePhysPageFast start len = some s') : s'.Inv least := by
  rw [tbInvalidatePhysPageFast] at h
  cases hfind : s.pageFind (start / targetPageSize) with
  | none =>
    simp only [hfind, Option.some.injEq] at h
    exact h ▸ hinv
  | some p =>
    obtain rfl := pageFind_eq hfind
    have hcount := hinv.countWrite hw (start / targetPageSize)
    simp only [hfind] at h
    split at h
    · split_ifs at h
      · exact (tbInvalidatePhysPageRange_shrinks h).inv hcount
      · exact Option.some.inj h ▸ hcount
    · exact (tbInvalidatePhysPageRange_shrinks h).inv hcount

end TcgArm.SoftMmu
