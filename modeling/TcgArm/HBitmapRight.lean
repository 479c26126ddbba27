import TcgArm.HBitmapVisit

/-! Bitmaps as sets of groups: what every history of operations leaves behind. -/

namespace TcgArm.HBitmaps

open TcgArm.BitScan List Function HBitmaps
open Option (bind_eq_bind bind_some)

/-- What a bitmap is for: a set of groups, numbered below a size. -/
structure Groups where
  size : Nat
  granularity : Nat
  members : Finset Nat

def groupCount (size granularity : Nat) : Nat := (size + 2 ^ granularity - 1) / 2 ^ granularity

def touched (granularity start count : Nat) : Finset Nat :=
  Finset.Icc (start / 2 ^ granularity) ((start + count - 1) / 2 ^ granularity)

/-- A bitmap and all that has been done to it; a second one is merged with its own history. -/
inductive History where
  | alloc (size granularity : Nat)
  | set (before : History) (start count : Nat)
  | reset (before : History) (start count : Nat)
  | resetAll (before : History)
  | truncate (before : History) (size : Nat)
  | merge (before other : History)

def History.groups : History → Groups
  | alloc size granularity => ⟨groupCount size granularity, granularity, ∅⟩
  | set before start count =>
    { before.groups with
      members := before.groups.members ∪ touched before.groups.granularity start count }
  | reset before start count =>
    { before.groups with
      members := before.groups.members \ touched before.groups.granularity start count }
  | resetAll before => { before.groups with members := ∅ }
  | truncate before size =>
    { before.groups with
      size := groupCount size before.groups.granularity
      members := before.groups.members.filter (· < groupCount size before.groups.granularity) }
  | merge before other =>
    if before.groups.size = other.groups.size ∧ before.groups.granularity = other.groups.granularity then
      { before.groups with members := before.groups.members ∪ other.groups.members }
    else before.groups

def History.run (h : Long) : History → Option (HBitmap h)
  | alloc size granularity => hbitmapAlloc h size granularity
  | set before start count => do hbitmapSet (← before.run h) start count
  | reset before start count => do hbitmapReset (← before.run h) start count
  | resetAll before => do some (hbitmapResetAll (← before.run h))
  | truncate before size => do hbitmapTruncate (← before.run h) size
  | merge before other => do
    let (hb, _) ← hbitmapMerge (← before.run h) (← other.run h)
    some hb

variable {h : Long}

/-- The bitmap stands for the set. -/
structure Agrees (hb : HBitmap h) (gs : Groups) : Prop where
  wf : Wf hb
  size : hb.size = gs.size
  granularity : hb.granularity = gs.granularity
  /-- The numbers of the elements are machine words. -/
  fits : gs.size * 2 ^ gs.granularity ≤ 2 ^ 64 - 1
  bits : ∀ x, bitAt (hb.levels h.last) x = true ↔ x ∈ gs.members
  count : hb.count = gs.members.card

variable {hb : HBitmap h} {gs : Groups} {size granularity : Nat}

theorem Wf.recount (hwf : Wf hb) (count : Nat) : Wf { hb with count := count } :=
  ⟨hwf.granularity, hwf.size, hwf.length, hwf.inside, hwf.linked, hwf.sentinel⟩

section

variable (ha : Agrees hb gs)
include ha

theorem Agrees.numBetween (a b : Nat) :
    numBetween hb a (b + 1) = (gs.members ∩ Finset.Icc a b).card := by
  rw [HBitmaps.numBetween]
  congr 1
  ext x
  rw [Finset.mem_filter, Finset.mem_Ico, Finset.mem_inter, Finset.mem_Icc, ha.bits, Nat.lt_succ_iff, and_comm]

theorem Agrees.lt_size {x : Nat} (hx : x ∈ gs.members) : x < gs.size :=
  ha.size ▸ ha.wf.inside x ((ha.bits x).mpr hx)

theorem Agrees.card_le : gs.members.card ≤ gs.size := by
  have hsub : gs.members ⊆ Finset.range gs.size := fun x hx => Finset.mem_range.mpr (ha.lt_size hx)
  simpa using Finset.card_le_card hsub

theorem Agrees.size_lt : gs.size < 2 ^ 62 := by
  have hsize := ha.wf.size
  rw [ha.size] at hsize
  exact hsize.trans_lt (by cases h <;> decide)

end

variable {n start count : Nat} {a b : HBitmap h} {shrink : Bool} {m : Nat}

section

variable (ha : Agrees hb gs)
include ha

theorem Agrees.last_eq (hcount : 0 < count) (hlast : (start + count - 1) / 2 ^ gs.granularity < gs.size) :
    ((start + count + (2 ^ 64 - 1)) % 2 ^ 64) >>> hb.granularity =
      (start + count - 1) / 2 ^ gs.granularity := by
  have hfits := ha.fits
  rw [Nat.div_lt_iff_lt_mul (by positivity)] at hlast
  rw [show start + count + (2 ^ 64 - 1) = start + count - 1 + 2 ^ 64 by omega, Nat.add_mod_right,
    Nat.mod_eq_of_lt (by omega), Nat.shiftRight_eq_div_pow, ha.granularity]

/-- The groups of a range, and what the operations on levels are called with for it. -/
theorem Agrees.touched_spec (hcount : 0 < count)
    (hlast : (start + count - 1) / 2 ^ gs.granularity < gs.size) :
    ∃ s l, touched gs.granularity start count = Finset.Icc s l ∧ start >>> hb.granularity = s ∧
      ((start + count + (2 ^ 64 - 1)) % 2 ^ 64) >>> hb.granularity = l ∧ s ≤ l ∧ l < hb.size ∧
      hbCountBetween hb s l = some (gs.members ∩ Finset.Icc s l).card := by
  have hsl : start / 2 ^ gs.granularity ≤ (start + count - 1) / 2 ^ gs.granularity :=
    Nat.div_le_div_right (by omega)
  refine ⟨_, _, rfl, ?_, ha.last_eq hcount hlast, hsl, ha.size ▸ hlast, ?_⟩
  · rw [Nat.shiftRight_eq_div_pow, ha.granularity]
  · rw [hbCountBetween_spec ha.wf (hsl.trans_lt (ha.size ▸ hlast)), ha.numBetween]

theorem Agrees.adjusted {hb' : HBitmap h} {members : Finset Nat}
    (hadj : Adjusted { hb with count := members.card } hb' h.last)
    (hmem : ∀ x, bitAt (hb'.levels h.last) x = true ↔ x ∈ members)
    (hinside : ∀ x ∈ members, x < hb.size) : Agrees hb' { gs with members := members } :=
  ⟨hadj.wf (ha.wf.recount _) fun x hx => hinside x ((hmem x).mp hx), hadj.size.trans ha.size,
    hadj.granularity.trans ha.granularity, ha.fits, hmem, hadj.count⟩

theorem agrees_set (hcount : 0 < count) (hlast : (start + count - 1) / 2 ^ gs.granularity < gs.size) :
    ∃ hb', hbitmapSet hb start count = some hb' ∧
      Agrees hb' { gs with members := gs.members ∪ touched gs.granularity start count } := by
  obtain ⟨s, l, htouched, hstart, hend, hsl, hl, hbetween⟩ := ha.touched_spec hcount hlast
  rw [htouched]
  have hsize := ha.size_lt
  have hcard := ha.card_le
  have hunion := Finset.card_union_add_card_inter gs.members (Finset.Icc s l)
  rw [Nat.card_Icc] at hunion
  have hnew : (hb.count + (l + (2 ^ 64 - s) + 1 + (2 ^ 64 - (gs.members ∩ Finset.Icc s l).card))) % 2 ^ 64 =
      (gs.members ∪ Finset.Icc s l).card := by
    rw [ha.size] at hl
    rw [ha.count]
    omega
  obtain ⟨hb', hset, hadj, hbits⟩ := @hbSetBetween_spec h h.last
    { hb with count := (gs.members ∪ Finset.Icc s l).card } s l
    (ha.wf.recount _).adjustable hsl (ha.wf.lt_length hl)
  refine ⟨hb', ?_, ha.adjusted hadj (fun x => ?_) fun x hx => ?_⟩
  · rw [hbitmapSet, hend, hstart]
    simp only [if_pos hl, hbetween, bind_eq_bind, bind_some, hnew]
    exact hset
  · rw [hbits, Bool.or_eq_true, ha.bits, decide_eq_true_eq, Finset.mem_union, Finset.mem_Icc]
  · rw [Finset.mem_union, Finset.mem_Icc] at hx
    exact hx.elim (fun hx => ha.wf.inside x ((ha.bits x).mpr hx)) fun hx => hx.2.trans_lt hl

theorem agrees_reset (hcount : 0 < count) (hlast : (start + count - 1) / 2 ^ gs.granularity < gs.size) :
    ∃ hb', hbitmapReset hb start count = some hb' ∧
      Agrees hb' { gs with members := gs.members \ touched gs.granularity start count } := by
  obtain ⟨s, l, htouched, hstart, hend, hsl, hl, hbetween⟩ := ha.touched_spec hcount hlast
  rw [htouched]
  have hsize := ha.size_lt
  have hcard := ha.card_le
  have hsplit := Finset.card_sdiff_add_card_inter gs.members (Finset.Icc s l)
  have hnew : (hb.count + (2 ^ 64 - (gs.members ∩ Finset.Icc s l).card)) % 2 ^ 64 =
      (gs.members \ Finset.Icc s l).card := by
    rw [ha.count]
    omega
  obtain ⟨hb', hreset, hadj, hbits⟩ := @hbResetBetween_spec h h.last
    { hb with count := (gs.members \ Finset.Icc s l).card } s l
    (ha.wf.recount _).adjustable hsl (ha.wf.lt_length hl)
    (fun hzero => absurd hzero (by rw [last_eq]; decide))
  refine ⟨hb', ?_, ha.adjusted hadj (fun x => ?_) fun x hx => ?_⟩
  · rw [hbitmapReset, hend, hstart]
    simp only [if_pos hl, hbetween, bind_eq_bind, bind_some, hnew]
    exact hreset
  · rw [hbits, Bool.and_eq_true, ha.bits, Bool.not_eq_true', decide_eq_false_iff_not, Finset.mem_sdiff,
      Finset.mem_Icc]
  · exact ha.wf.inside x ((ha.bits x).mpr (Finset.mem_sdiff.mp hx).1)

end

theorem wordAt_map_zero (words : List (Word h)) (j : Nat) :
    wordAt (words.map fun _ => (0 : Word h)) j = 0 := by
  rw [wordAt, getElem?_map]
  cases words[j]? <;> rfl

/-- Levels without any bit but the sentinel. -/
theorem wf_blank (hgran : hb.granularity < 64) (hsize : hb.size ≤ 2 ^ h.logMaxSize)
    (hlength : ∀ i ≤ h.last, (hb.levels i).length = levelWords h hb.size i)
    (hzero : ∀ i, 0 < i → ∀ j, wordAt (hb.levels i) j = 0)
    (htop : ∀ j, wordAt (hb.levels 0) j = if j = 0 then sentinel h else 0) : Wf hb := by
  have hw := bitsPerLong_pos h
  have hbit : ∀ n, bitAt (hb.levels 0) n = true ↔ n = h.bitsPerLong - 1 := by
    intro n
    rw [bitAt, htop]
    split
    · rename_i hn
      rw [Nat.div_eq_zero_iff] at hn
      have hlt : n < h.bitsPerLong := by omega
      rw [Nat.mod_eq_of_lt hlt, getLsbD_sentinel n hlt, decide_eq_true_eq]
    · rename_i hn
      constructor
      · intro hbit
        exact absurd (BitVec.getLsbD_zero.symm.trans hbit) (by decide)
      · rintro rfl
        exact absurd (Nat.div_eq_of_lt (by omega)) hn
  refine ⟨hgran, hsize, hlength, fun x hx => ?_, fun i hi n => ?_, (hbit _).mpr rfl⟩
  · rw [bitAt, hzero _ (by rw [last_eq]; decide)] at hx
    exact absurd (BitVec.getLsbD_zero.symm.trans hx) (by decide)
  · rw [hzero (i + 1) (Nat.succ_pos i)]
    refine ⟨?_, fun hne => absurd rfl hne⟩
    rintro ⟨hn, hsent⟩
    cases i with
    | zero => exact absurd ⟨rfl, (hbit n).mp hn⟩ hsent
    | succ i =>
      rw [bitAt, hzero (i + 1) (Nat.succ_pos i)] at hn
      exact absurd (BitVec.getLsbD_zero.symm.trans hn) (by decide)

theorem agrees_resetAll (ha : Agrees hb gs) : Agrees (hbitmapResetAll hb) { gs with members := ∅ } := by
  have hzero : ∀ i, 0 < i → ∀ j, wordAt ((hbitmapResetAll hb).levels i) j = 0 := by
    intro i hi j
    simp only [hbitmapResetAll, if_neg hi.ne']
    exact wordAt_map_zero _ j
  have hlen : (hb.levels 0).length = 1 := by
    rw [ha.wf.length 0 (Nat.zero_le _), levelWords_zero ha.wf.size]
  refine ⟨wf_blank ha.wf.granularity ha.wf.size (fun i hi => ?_) hzero fun j => ?_, ha.size,
    ha.granularity, ha.fits, fun x => ?_, rfl⟩
  · refine Eq.trans ?_ (ha.wf.length i hi)
    simp only [hbitmapResetAll]
    split
    · rename_i hi
      rw [hi, length_set]
    · rw [length_map]
  · simp only [hbitmapResetAll, if_pos]
    rw [wordAt_set (by omega)]
    split
    · rfl
    · exact wordAt_of_le (by omega)
  · rw [bitAt, hzero _ (by rw [last_eq]; decide)]
    simp

theorem levelWords_end (size : Nat) : levelWords h size (h.last + 1) = size := by
  rw [levelWords, Nat.sub_self, iterate_zero, id]

theorem allocLevels_spec (size i : Nat) (hi : i ≤ h.last + 1) (levels : Nat → List (Word h)) :
    ∃ levels', allocLevels h i (levelWords h size i) levels = (levelWords h size 0, levels') ∧
      ∀ j, levels' j = if j < i then replicate (levelWords h size j) 0 else levels j := by
  induction i generalizing levels with
  | zero => exact ⟨levels, rfl, fun j => rfl⟩
  | succ i ih =>
    obtain ⟨levels', hrun, hlevels⟩ := ih (by omega) (update levels i (replicate (levelWords h size i) 0))
    refine ⟨levels', ?_, fun j => ?_⟩
    · rw [allocLevels, ← levelWords_up (by omega)]
      exact hrun
    · rw [hlevels]
      by_cases hji : j = i
      · rw [if_neg (by omega), if_pos (by omega), hji, update_self]
      · rw [update_of_ne hji]
        by_cases hlt : j < i
        · rw [if_pos hlt, if_pos (by omega)]
        · rw [if_neg hlt, if_neg (by omega)]

theorem groupsFor_eq (hfits : size + 2 ^ granularity - 1 < 2 ^ 64) :
    groupsFor size granularity = groupCount size granularity := by
  rw [groupsFor, Nat.mod_eq_of_lt hfits, Nat.shiftRight_eq_div_pow, groupCount]

theorem groupCount_mul_le (hfits : size + 2 ^ granularity - 1 < 2 ^ 64) :
    groupCount size granularity * 2 ^ granularity ≤ 2 ^ 64 - 1 :=
  (Nat.div_mul_le_self _ _).trans (by omega)

theorem wordAt_replicate (n j : Nat) : wordAt (replicate n (0 : Word h)) j = 0 := by
  rw [wordAt, getElem?_replicate]
  split <;> rfl

theorem agrees_alloc (hgran : granularity < 64) (hfits : size + 2 ^ granularity - 1 < 2 ^ 64)
    (hsize : groupCount size granularity ≤ 2 ^ h.logMaxSize) :
    ∃ hb, hbitmapAlloc h size granularity = some hb ∧
      Agrees hb ⟨groupCount size granularity, granularity, ∅⟩ := by
  obtain ⟨levels, hrun, hlevels⟩ := @allocLevels_spec h (groupCount size granularity) (h.last + 1)
    (le_refl _) fun _ => []
  rw [levelWords_end, ← numLevels_eq, levelWords_zero hsize] at hrun
  have hzero : levels 0 = [0] := by
    rw [hlevels, if_pos (Nat.succ_pos _), levelWords_zero hsize]
    rfl
  have hother : ∀ i, 0 < i → update levels 0 ((levels 0).modify 0 (· ||| sentinel h)) i =
      levels i := fun i hi => update_of_ne hi.ne' _ _
  have hblank : ∀ i, 0 < i → ∀ j, wordAt (levels i) j = 0 := by
    intro i _ j
    rw [hlevels]
    split
    · exact wordAt_replicate _ j
    · rfl
  refine ⟨⟨groupCount size granularity, 0, granularity,
    update levels 0 ((levels 0).modify 0 (· ||| sentinel h))⟩, ?_,
    wf_blank hgran hsize (fun i hi => ?_) (fun i hi j => ?_) fun j => ?_, rfl, rfl,
    groupCount_mul_le hfits, fun x => ?_, rfl⟩
  · rw [hbitmapAlloc, groupsFor_eq hfits, if_pos ⟨hgran, hsize⟩, hrun]
    rfl
  · by_cases hi0 : i = 0
    · subst hi0
      dsimp only
      rw [update_self, length_modify, hzero, levelWords_zero hsize]
      rfl
    · dsimp only
      rw [hother i (Nat.pos_of_ne_zero hi0), hlevels, if_pos (by omega), length_replicate]
  · dsimp only
    rw [hother i hi, hblank i hi]
  · dsimp only
    rw [update_self, hzero]
    cases j with
    | zero => exact BitVec.zero_or
    | succ j => rfl
  · have hlast : 0 < h.last := by
      rw [last_eq]
      decide
    dsimp only
    rw [bitAt, hother _ hlast, hblank _ hlast]
    simp

theorem wordAt_merged {a b : List (Word h)} (hlen : a.length = b.length) (j : Nat) :
    wordAt (a.mapIdx fun j word => word ||| wordAt b j) j = wordAt a j ||| wordAt b j := by
  by_cases hj : j < a.length
  · rw [wordAt, getElem?_mapIdx, getElem?_wordAt hj]
    rfl
  · rw [wordAt_of_le (by rw [length_mapIdx]; omega), wordAt_of_le (not_lt.mp hj), wordAt_of_le (by omega)]
    exact BitVec.or_zero.symm

theorem or_ne_zero_iff (x y : Word h) : x ||| y ≠ 0 ↔ x ≠ 0 ∨ y ≠ 0 := by
  rw [ne_zero_iff, ne_zero_iff, ne_zero_iff, ← exists_or]
  simp only [BitVec.getLsbD_or, Bool.or_eq_true]

/-- The union of two bitmaps of one size and granularity. The count is that of the first. -/
theorem wf_merged (ha : Wf a) (hb : Wf b) (hsize : a.size = b.size) :
    Wf { a with levels := fun i => (a.levels i).mapIdx fun j word => word ||| wordAt (b.levels i) j } ∧
      ∀ x, bitAt ((a.levels h.last).mapIdx fun j word => word ||| wordAt (b.levels h.last) j) x =
        (bitAt (a.levels h.last) x || bitAt (b.levels h.last) x) := by
  have hlen : ∀ i ≤ h.last, (a.levels i).length = (b.levels i).length := fun i hi => by
    rw [ha.length i hi, hb.length i hi, hsize]
  have hbit : ∀ i ≤ h.last, ∀ x,
      bitAt ((a.levels i).mapIdx fun j word => word ||| wordAt (b.levels i) j) x =
        (bitAt (a.levels i) x || bitAt (b.levels i) x) := by
    intro i hi x
    rw [bitAt, wordAt_merged (hlen i hi), BitVec.getLsbD_or, bitAt, bitAt]
  refine ⟨⟨ha.granularity, ha.size, fun i hi => ?_, fun x hx => ?_, fun i hi n => ?_, ?_⟩,
    hbit h.last (le_refl _)⟩
  · dsimp only
    rw [length_mapIdx, ha.length i hi]
  · dsimp only at hx
    rw [hbit _ (le_refl _), Bool.or_eq_true] at hx
    exact hx.elim (ha.inside x) fun hx => hsize ▸ hb.inside x hx
  · dsimp only
    rw [hbit i hi.le, wordAt_merged (hlen (i + 1) hi), or_ne_zero_iff, ← ha.linked i hi n,
      ← hb.linked i hi n, Bool.or_eq_true, or_and_right]
  · dsimp only
    rw [hbit 0 (Nat.zero_le _), ha.sentinel, Bool.true_or]

theorem Agrees.count_eq (ha : Agrees hb gs) : hbitmapCount hb = gs.members.card * 2 ^ gs.granularity := by
  have hle := Nat.mul_le_mul_right (2 ^ gs.granularity) ha.card_le
  have hfits := ha.fits
  rw [hbitmapCount, Nat.shiftLeft_eq, ha.count, ha.granularity, Nat.mod_eq_of_lt (by omega)]

theorem agrees_merge {gs' : Groups} (ha : Agrees a gs) (hb : Agrees b gs')
    (hsub : gs.size = gs'.size ∧ gs.granularity = gs'.granularity → gs'.members ⊆ gs.members) :
    ∃ hb' merged, hbitmapMerge a b = some (hb', merged) ∧
      Agrees hb' (if gs.size = gs'.size ∧ gs.granularity = gs'.granularity then
        { gs with members := gs.members ∪ gs'.members } else gs) := by
  have hiff : (a.size ≠ b.size ∨ a.granularity ≠ b.granularity) ↔
      ¬ (gs.size = gs'.size ∧ gs.granularity = gs'.granularity) := by
    rw [ha.size, hb.size, ha.granularity, hb.granularity, not_and_or]
  rw [hbitmapMerge]
  by_cases hsame : gs.size = gs'.size ∧ gs.granularity = gs'.granularity
  · have hunion : gs.members ∪ gs'.members = gs.members := Finset.union_eq_left.mpr (hsub hsame)
    rw [if_neg fun hdiff => hiff.mp hdiff hsame, if_pos hsame, hunion, hb.count_eq]
    by_cases hzero : gs'.members.card * 2 ^ gs'.granularity = 0
    · exact ⟨a, true, if_pos hzero, ha⟩
    · have hsize : a.size = b.size := by rw [ha.size, hb.size, hsame.1]
      obtain ⟨hwf, hbits⟩ := wf_merged ha.wf hb.wf hsize
      have hlen : ∀ i < h.numLevels, (a.levels i).length ≤ (b.levels i).length := fun i hi => by
        rw [numLevels_eq] at hi
        rw [ha.wf.length i (by omega), hb.wf.length i (by omega), hsize]
      rw [if_neg hzero, if_pos hlen]
      refine ⟨_, true, rfl, hwf, ha.size, ha.granularity, ha.fits, fun x => ?_, ha.count⟩
      dsimp only
      rw [hbits, Bool.or_eq_true, ha.bits, hb.bits]
      exact or_iff_left_of_imp fun hx => hsub hsame hx
  · rw [if_pos (hiff.mpr hsame), if_neg hsame]
    exact ⟨a, false, rfl, ha⟩

theorem numWords_mono (hmn : m ≤ n) : numWords h m ≤ numWords h n :=
  max_le_max (Nat.div_le_div_right (by omega)) (le_refl _)

theorem levelWords_mono (hmn : m ≤ n) (i : Nat) :
    levelWords h m i ≤ levelWords h n i := by
  rw [levelWords, levelWords]
  generalize h.last + 1 - i = k
  induction k with
  | zero => exact hmn
  | succ k ih =>
    rw [iterate_succ_apply', iterate_succ_apply']
    exact numWords_mono ih

theorem levelWords_congr {m i j : Nat} (hj : j ≤ i) (hi : i ≤ h.last + 1)
    (heq : levelWords h m i = levelWords h n i) : levelWords h m j = levelWords h n j := by
  have hsplit : ∀ size, levelWords h size j = (numWords h)^[i - j] (levelWords h size i) := by
    intro size
    rw [levelWords, levelWords, ← iterate_add_apply, show i - j + (h.last + 1 - i) = h.last + 1 - j by omega]
  rw [hsplit, hsplit, heq]

theorem wordAt_take (words : List (Word h)) (n x : Nat) :
    wordAt (words.take n) x = if x < n then wordAt words x else 0 := by
  rw [wordAt, getElem?_take]
  split <;> rfl

theorem wordAt_append_zeros (words : List (Word h)) (n x : Nat) :
    wordAt (words ++ replicate n 0) x = wordAt words x := by
  rw [wordAt, getElem?_append]
  split
  · rfl
  · rename_i hx
    rw [wordAt_of_le (not_lt.mp hx)]
    exact wordAt_replicate n (x - words.length)

/-- A new size changes no word, if the words that go are zero. -/
theorem resized_words {words : List (Word h)} (hdir : if shrink then n ≤ words.length else words.length ≤ n)
    (hzero : ∀ x, wordAt words x ≠ 0 → x < n) :
    (if shrink then words.take n else words ++ replicate (n - words.length) 0).length = n ∧
      ∀ x, wordAt (if shrink then words.take n else words ++ replicate (n - words.length) 0) x =
        wordAt words x := by
  cases shrink with
  | true =>
    have hle : n ≤ words.length := hdir
    refine ⟨by rw [if_pos rfl, length_take, Nat.min_eq_left hle], fun x => ?_⟩
    rw [if_pos rfl, wordAt_take]
    split
    · rfl
    · rename_i hx
      by_contra hne
      exact hx (hzero x fun h => hne h.symm)
  | false =>
    have hle : words.length ≤ n := hdir
    refine ⟨?_, fun x => by rw [if_neg (by decide), wordAt_append_zeros]⟩
    rw [if_neg (by decide), length_append, length_replicate]
    omega

/-- New sizes for all levels below `i`. -/
theorem resizeLevels_spec {old new : Nat} (i : Nat) (hi : i ≤ h.last + 1)
    {levels : Nat → List (Word h)} (hlen : ∀ j < i, (levels j).length = levelWords h old j)
    (hdir : if shrink then new ≤ old else old ≤ new)
    (hzero : ∀ j < i, ∀ x, wordAt (levels j) x ≠ 0 → x < levelWords h new j) :
    (∀ j < i, (resizeLevels shrink i (levelWords h new i) levels j).length = levelWords h new j) ∧
      (∀ j, i ≤ j → resizeLevels shrink i (levelWords h new i) levels j = levels j) ∧
      ∀ j x, wordAt (resizeLevels shrink i (levelWords h new i) levels j) x = wordAt (levels j) x := by
  induction i generalizing levels with
  | zero => exact ⟨fun j hj => by omega, fun _ _ => rfl, fun _ _ => rfl⟩
  | succ i ih =>
    have hsize : numWords h (levelWords h new (i + 1)) = levelWords h new i :=
      (levelWords_up (by omega) new).symm
    rw [resizeLevels]
    dsimp only
    rw [hsize]
    by_cases hsame : (levels i).length = levelWords h new i
    · rw [if_pos hsame]
      refine ⟨fun j hj => ?_, fun _ _ => rfl, fun _ _ => rfl⟩
      rw [hlen j hj]
      rw [hlen i (by omega)] at hsame
      exact levelWords_congr (by omega) (by omega) hsame
    · rw [if_neg hsame]
      have hdir' : if shrink then levelWords h new i ≤ (levels i).length
          else (levels i).length ≤ levelWords h new i := by
        rw [hlen i (by omega)]
        split at hdir
        · rename_i hs
          rw [if_pos hs]
          exact levelWords_mono hdir i
        · rename_i hs
          rw [if_neg hs]
          exact levelWords_mono hdir i
      obtain ⟨hlen', hwords⟩ := resized_words hdir' (hzero i (by omega))
      generalize (if shrink then (levels i).take (levelWords h new i) else
          levels i ++ replicate (levelWords h new i - (levels i).length) 0) = words at hlen' hwords ⊢
      have hother : ∀ j, j ≠ i → update levels i words j = levels j := fun j hj => update_of_ne hj _ _
      obtain ⟨hlens, hkeep, hwords'⟩ := @ih (by omega) (update levels i words)
        (fun j hj => by rw [hother j (by omega), hlen j (by omega)])
        (fun j hj x hx => hzero j (by omega) x (hother j (by omega) ▸ hx))
      refine ⟨fun j hj => ?_, fun j hj => ?_, fun j x => ?_⟩
      · by_cases hji : j = i
        · rw [hji, hkeep i (le_refl _), update_self, hlen']
        · exact hlens j (by omega)
      · rw [hkeep j (by omega), hother j (by omega)]
      · rw [hwords']
        by_cases hji : j = i
        · rw [hji, update_self, hwords]
        · rw [hother j hji]

/-- Words behind the end of a smaller size are zero if its members are before the end. -/
theorem Wf.fits_below (hwf : Wf hb) {new : Nat} (hnew : ∀ x, bitAt (hb.levels h.last) x = true → x < new)
    {i : Nat} (hi : i ≤ h.last) {x : Nat} (hx : wordAt (hb.levels i) x ≠ 0) : x < levelWords h new i := by
  have hw := bitsPerLong_pos h
  obtain ⟨d, hd⟩ : ∃ d, h.last - i = d := ⟨_, rfl⟩
  obtain ⟨n, hn, hbit⟩ := (wordAt_ne_zero_iff hw _ _).mp hx
  induction d generalizing i x n with
  | zero =>
    obtain rfl : i = h.last := by omega
    rw [levelWords_last, ← hn]
    exact div_lt_numWords (hnew n hbit)
  | succ d ih =>
    rw [levelWords_up hi]
    by_cases hsent : IsSentinel h i n
    · have hzero : x = 0 := by
        rw [← hn, hsent.2]
        exact Nat.div_eq_of_lt (by omega)
      rw [hzero]
      exact lt_max_of_lt_right Nat.zero_lt_one
    · have hne := (hwf.linked i (by omega) n).mp ⟨hbit, hsent⟩
      obtain ⟨m, hm, hbit'⟩ := (wordAt_ne_zero_iff hw _ _).mp hne
      rw [← hn]
      exact div_lt_numWords (@ih (i + 1) (by omega) n hne (by omega) m hm hbit')

/-- A bitmap with another size that its members fit in. -/
theorem wf_resized {hb : HBitmap h} (hwf : Wf hb) {shrink : Bool} {new : Nat}
    (hsize : new ≤ 2 ^ h.logMaxSize) (hdir : if shrink then new ≤ hb.size else hb.size ≤ new)
    (hnew : ∀ x, bitAt (hb.levels h.last) x = true → x < new) :
    Wf { hb with size := new, levels := resizeLevels shrink h.numLevels new hb.levels } ∧
      ∀ x, bitAt (resizeLevels shrink h.numLevels new hb.levels h.last) x = bitAt (hb.levels h.last) x := by
  have hspec := @resizeLevels_spec h shrink hb.size new (h.last + 1) (le_refl _) hb.levels
    (fun j hj => hwf.length j (by omega)) hdir (fun j hj x hx => hwf.fits_below hnew (by omega) hx)
  rw [levelWords_end, ← numLevels_eq] at hspec
  obtain ⟨hlen, -, hwords⟩ := hspec
  have hbit : ∀ i x, bitAt (resizeLevels shrink h.numLevels new hb.levels i) x = bitAt (hb.levels i) x :=
    fun i x => by rw [bitAt, hwords, bitAt]
  refine ⟨⟨hwf.granularity, hsize, fun i hi => hlen i (by rw [numLevels_eq]; omega), fun x hx => ?_,
    fun i hi n => ?_, ?_⟩, hbit h.last⟩
  · exact hnew x (hbit h.last x ▸ hx)
  · dsimp only
    rw [hbit, hwords]
    exact hwf.linked i hi n
  · dsimp only
    rw [hbit]
    exact hwf.sentinel

/-- The groups behind the new end are reset. -/
theorem agrees_resetEnd (ha : Agrees hb gs) (hgran : gs.granularity < 31)
    (hfits : size + 2 ^ gs.granularity - 1 < 2 ^ 64) (hless : groupCount size gs.granularity < gs.size) :
    ∃ hb', resetEnd hb size = some hb' ∧
      Agrees hb' { gs with members := gs.members.filter (· < groupCount size gs.granularity) } := by
  have hpow : 0 < 2 ^ gs.granularity := by positivity
  have hle := Nat.mul_le_mul_right (2 ^ gs.granularity) (Nat.succ_le_of_lt hless)
  rw [Nat.succ_mul] at hle
  have hfits' := ha.fits
  obtain ⟨n, hn⟩ : ∃ n, n = groupCount size gs.granularity := ⟨_, rfl⟩
  obtain ⟨start, hstart⟩ : ∃ start, start = n * 2 ^ gs.granularity := ⟨_, rfl⟩
  obtain ⟨total, htotal⟩ : ∃ total, total = gs.size * 2 ^ gs.granularity := ⟨_, rfl⟩
  rw [← hn] at hless hle
  rw [← hstart, ← htotal] at hle
  rw [← htotal] at hfits'
  have hfix : (total % 2 ^ 64 + (2 ^ 64 - start)) % 2 ^ 64 = total - start := by
    omega
  have hsum : start + (total - start) - 1 = total - 1 := by omega
  have hend : (total - 1) / 2 ^ gs.granularity = gs.size - 1 := by
    rw [Nat.div_eq_iff hpow, Nat.sub_mul, Nat.one_mul, ← htotal]
    omega
  have hfirst : start / 2 ^ gs.granularity = n := by
    rw [hstart]
    exact Nat.mul_div_cancel _ hpow
  obtain ⟨hb', hreset, hagrees⟩ := @agrees_reset h hb gs start (total - start) ha (by omega)
    (by rw [hsum, hend]; omega)
  have hmembers : gs.members \ touched gs.granularity start (total - start) = gs.members.filter (· < n) := by
    ext x
    rw [touched, hsum, hend, hfirst, Finset.mem_sdiff, Finset.mem_Icc, Finset.mem_filter]
    refine and_congr_right fun hx => ?_
    have := ha.lt_size hx
    omega
  rw [hmembers] at hagrees
  refine ⟨hb', ?_, hn ▸ hagrees⟩
  rw [resetEnd, ha.granularity, if_pos hgran]
  dsimp only
  rw [Nat.mod_eq_of_lt hfits, ← groupCount, ← hn, ← hstart, Nat.shiftLeft_eq, ha.size, ← htotal, hfix,
    if_neg (by omega), hreset]

theorem agrees_truncate (ha : Agrees hb gs) (hfits : size + 2 ^ gs.granularity - 1 < 2 ^ 64)
    (hsize : groupCount size gs.granularity ≤ 2 ^ h.logMaxSize)
    (hgran : groupCount size gs.granularity < gs.size → gs.granularity < 31) :
    ∃ hb', hbitmapTruncate hb size = some hb' ∧ Agrees hb' { gs with
        size := groupCount size gs.granularity
        members := gs.members.filter (· < groupCount size gs.granularity) } := by
  have hrun : hbitmapTruncate hb size = if groupCount size gs.granularity = hb.size then some hb
      else (if decide (groupCount size gs.granularity < hb.size) then resetEnd hb size else some hb).bind
        fun hb' => some { hb' with
          size := groupCount size gs.granularity
          levels := resizeLevels (decide (groupCount size gs.granularity < hb.size)) h.numLevels
            (groupCount size gs.granularity) hb'.levels } := by
    rw [hbitmapTruncate, ha.granularity, groupsFor_eq hfits]
    dsimp only
    rw [if_pos hsize]
    split
    · rfl
    · split <;> rfl
  rw [hrun]
  generalize hnew : groupCount size gs.granularity = new at *
  have hnewfits : new * 2 ^ gs.granularity ≤ 2 ^ 64 - 1 := hnew ▸ groupCount_mul_le hfits
  by_cases hsame : new = hb.size
  · have hall : gs.members.filter (· < new) = gs.members := by
      rw [Finset.filter_eq_self]
      intro x hx
      rw [hsame, ha.size]
      exact ha.lt_size hx
    have hgs : { gs with size := new, members := gs.members } = gs := by
      rw [hsame, ha.size]
    rw [if_pos hsame, hall, hgs]
    exact ⟨hb, rfl, ha⟩
  · rw [if_neg hsame]
    by_cases hless : new < hb.size
    · obtain ⟨hb', hreset, ha'⟩ := agrees_resetEnd ha (hgran (ha.size ▸ hless)) hfits
        (by rw [hnew, ← ha.size]; exact hless)
      rw [hnew] at ha'
      obtain ⟨hwf, hbits⟩ := @wf_resized h hb' ha'.wf true new hsize
        (by rw [if_pos rfl, ha'.size, ← ha.size]; exact hless.le) (fun x hx => by
          have hmem := (ha'.bits x).mp hx
          exact (Finset.mem_filter.mp hmem).2)
      rw [decide_eq_true hless, if_pos rfl, hreset]
      refine ⟨_, rfl, hwf, rfl, ha'.granularity, hnewfits, fun x => ?_, ha'.count⟩
      exact (hbits x).symm ▸ ha'.bits x
    · have hmembers : gs.members.filter (· < new) = gs.members := by
        rw [Finset.filter_eq_self]
        intro x hx
        have := ha.lt_size hx
        rw [← ha.size] at this
        omega
      obtain ⟨hwf, hbits⟩ := @wf_resized h hb ha.wf false new hsize (by rw [if_neg (by decide)]; omega)
        (fun x hx => (ha.wf.inside x hx).trans_le (not_lt.mp hless))
      rw [decide_eq_false hless, if_neg (by decide), hmembers]
      refine ⟨_, rfl, hwf, rfl, ha.granularity, hnewfits, fun x => ?_, ha.count⟩
      exact (hbits x).symm ▸ ha.bits x

/-- What the operations of a history must keep to. Sums of sizes do not overflow, ranges are not empty
and lie inside, coarse bitmaps do not shrink, and a merge brings in no group that is not there. -/
def History.Regular (h : Long) : History → Prop
  | alloc size granularity => granularity < 64 ∧ size + 2 ^ granularity - 1 < 2 ^ 64 ∧
      groupCount size granularity ≤ 2 ^ h.logMaxSize
  | set before start count | reset before start count => before.Regular h ∧ 0 < count ∧
      (start + count - 1) / 2 ^ before.groups.granularity < before.groups.size
  | resetAll before => before.Regular h
  | truncate before size => before.Regular h ∧ size + 2 ^ before.groups.granularity - 1 < 2 ^ 64 ∧
      groupCount size before.groups.granularity ≤ 2 ^ h.logMaxSize ∧
      (groupCount size before.groups.granularity < before.groups.size → before.groups.granularity < 31)
  | merge before other => before.Regular h ∧ other.Regular h ∧
      (before.groups.size = other.groups.size ∧ before.groups.granularity = other.groups.granularity →
        other.groups.members ⊆ before.groups.members)

theorem History.agrees (hist : History) (hreg : hist.Regular h) :
    ∃ hb, hist.run h = some hb ∧ Agrees hb hist.groups := by
  induction hist with
  | alloc size granularity => exact agrees_alloc hreg.1 hreg.2.1 hreg.2.2
  | set before start count ih =>
    obtain ⟨hb, hrun, ha⟩ := ih hreg.1
    obtain ⟨hb', hset, ha'⟩ := agrees_set ha hreg.2.1 hreg.2.2
    refine ⟨hb', ?_, ha'⟩
    rw [run, hrun, bind_eq_bind, bind_some, hset]
  | reset before start count ih =>
    obtain ⟨hb, hrun, ha⟩ := ih hreg.1
    obtain ⟨hb', hreset, ha'⟩ := agrees_reset ha hreg.2.1 hreg.2.2
    refine ⟨hb', ?_, ha'⟩
    rw [run, hrun, bind_eq_bind, bind_some, hreset]
  | resetAll before ih =>
    obtain ⟨hb, hrun, ha⟩ := ih hreg
    refine ⟨hbitmapResetAll hb, ?_, agrees_resetAll ha⟩
    rw [run, hrun, bind_eq_bind, bind_some]
  | truncate before size ih =>
    obtain ⟨hb, hrun, ha⟩ := ih hreg.1
    obtain ⟨hb', htrunc, ha'⟩ := agrees_truncate ha hreg.2.1 hreg.2.2.1 hreg.2.2.2
    refine ⟨hb', ?_, ha'⟩
    rw [run, hrun, bind_eq_bind, bind_some, htrunc]
  | merge before other ih ih' =>
    obtain ⟨a, hrun, ha⟩ := ih hreg.1
    obtain ⟨b, hrun', hb⟩ := ih' hreg.2.1
    obtain ⟨hb', merged, hmerge, ha'⟩ := agrees_merge ha hb hreg.2.2
    refine ⟨hb', ?_, ha'⟩
    rw [run, hrun, hrun']
    simp only [bind_eq_bind, bind_some, hmerge]

/-- The bitmap behaves as the set: what it answers, what it counts, what an iteration from an element
visits before it ends, and that its levels belong together. -/
structure Behaves (hb : HBitmap h) (gs : Groups) : Prop where
  get : ∀ item, item / 2 ^ gs.granularity < gs.size →
    hbitmapGet hb item = some (decide (item / 2 ^ gs.granularity ∈ gs.members))
  count : hbitmapCount hb = gs.members.card * 2 ^ gs.granularity
  /-- Elements are returned as signed numbers. -/
  iterate : gs.size * 2 ^ gs.granularity ≤ 2 ^ 63 → ∀ first, first / 2 ^ gs.granularity < gs.size →
    ∀ fuel, gs.members.card < fuel → ∃ it it', hbitmapIterInit hb first = some it ∧
      visit hb fuel it = some (((gs.members.filter (first / 2 ^ gs.granularity ≤ ·)).sort (· ≤ ·)).map
        fun x => ((x * 2 ^ gs.granularity : Nat) : Int), it') ∧
      hbitmapIterNext hb it' = some (-1, it')
  levels : ∀ i < h.last, ∀ n, (bitAt (hb.levels i) n = true ∧ ¬ IsSentinel h i n) ↔
    wordAt (hb.levels (i + 1)) n ≠ 0

theorem Agrees.membersFrom (ha : Agrees hb gs) (m : Nat) :
    membersFrom hb m = (gs.members.filter (m ≤ ·)).sort (· ≤ ·) := by
  have hsorted : (HBitmaps.membersFrom hb m).Pairwise (· ≤ ·) := (pairwise_le_range).filter _
  have hnodup : (HBitmaps.membersFrom hb m).Nodup := nodup_range.filter _
  have hset : (HBitmaps.membersFrom hb m).toFinset = gs.members.filter (m ≤ ·) := by
    ext x
    rw [mem_toFinset, HBitmaps.membersFrom, mem_filter, mem_range, Finset.mem_filter,
      Bool.and_eq_true, decide_eq_true_eq, ha.bits]
    refine ⟨fun hx => ⟨hx.2.2, hx.2.1⟩, fun hx => ⟨?_, hx.2, hx.1⟩⟩
    rw [ha.size]
    exact ha.lt_size hx.1
  rw [← hset]
  exact (toFinset_sort (· ≤ ·) hnodup |>.mpr hsorted).symm

theorem and_bit_ne_zero (word : Word h) (hn : n < h.bitsPerLong) :
    (word &&& (1#_ <<< n) != 0) = word.getLsbD n := by
  rw [Bool.eq_iff_iff, bne_iff_ne, ne_zero_iff]
  constructor
  · rintro ⟨b, hb⟩
    rw [BitVec.getLsbD_and, getLsbD_one_shiftLeft, Bool.and_eq_true, Bool.and_eq_true, decide_eq_true_eq,
      decide_eq_true_eq] at hb
    exact hb.2.2 ▸ hb.1
  · intro hbit
    refine ⟨n, ?_⟩
    rw [BitVec.getLsbD_and, getLsbD_one_shiftLeft, hbit, decide_eq_true hn, decide_eq_true rfl]
    rfl

theorem Agrees.behaves (ha : Agrees hb gs) : Behaves hb gs := by
  have hw := bitsPerLong_pos h
  have hshift : ∀ x, x >>> hb.granularity = x / 2 ^ gs.granularity := fun x => by
    rw [Nat.shiftRight_eq_div_pow, ha.granularity]
  refine ⟨fun item hitem => ?_, ha.count_eq, fun hsize first hfirst fuel hfuel => ?_, ha.wf.linked⟩
  · have hin : item / 2 ^ gs.granularity < hb.size := ha.size ▸ hitem
    rw [hbitmapGet, hshift, if_pos hin, getElem?_wordAt (ha.wf.lt_length hin), bind_eq_bind, bind_some,
      and_bit_ne_zero _ (Nat.mod_lt _ hw), ← bitAt]
    congr 1
    rw [Bool.eq_iff_iff, ha.bits, decide_eq_true_eq]
  · obtain ⟨it, hinit, hbefore⟩ := @hbitmapIterInit_spec h hb ha.wf first
      (by rw [hshift, ha.size]; exact hfirst)
    rw [hshift] at hbefore
    have hlen : (HBitmaps.membersFrom hb (first / 2 ^ gs.granularity)).length < fuel := by
      rw [ha.membersFrom, Finset.length_sort]
      exact (Finset.card_filter_le _ _).trans_lt hfuel
    obtain ⟨it', hvisit, hend⟩ := visit_spec ha.wf
      (by rw [Nat.shiftLeft_eq, ha.size, ha.granularity]; exact hsize) fuel hbefore hlen
    refine ⟨it, it', hinit, ?_, hend⟩
    rw [hvisit, ha.membersFrom]
    simp only [Nat.shiftLeft_eq, ha.granularity]

/-- After every regular history a bitmap behaves as the set of its groups. -/
theorem hbitmap_behaves_as_set (h : Long) (hist : History) (hreg : hist.Regular h) :
    ∃ hb, hist.run h = some hb ∧ Behaves hb hist.groups := by
  obtain ⟨hb, hrun, ha⟩ := hist.agrees hreg
  exact ⟨hb, hrun, ha.behaves⟩

theorem hbitmap_behaves_as_set_range :
    (History.set (.alloc 100 1) 3 5).Regular .bits64 ∧
      ∃ hb, (History.set (.alloc 100 1) 3 5).run .bits64 = some hb ∧
        Behaves hb (History.set (.alloc 100 1) 3 5).groups := by
  have hreg : (History.set (.alloc 100 1) 3 5).Regular .bits64 :=
    ⟨⟨by decide, by decide, by decide⟩, by decide, by decide⟩
  exact ⟨hreg, hbitmap_behaves_as_set .bits64 _ hreg⟩

/-- A group that a merge brings in is not counted. -/
theorem merged_group_not_counted :
    ((History.merge (.alloc 64 0) (.set (.alloc 64 0) 0 1)).run .bits64).map
        (fun hb => (hbitmapGet hb 0, hbitmapCount hb)) = some (some true, 0) ∧
      (History.merge (.alloc 64 0) (.set (.alloc 64 0) 0 1)).groups.members.card = 1 := by
  constructor
  · decide +kernel
  · decide

end TcgArm.HBitmaps
