import TcgArm.HBitmapWords

/-! The levels of a bitmap belong together: a bit is set when the word below it is not zero. Setting and
resetting a range keeps it so, although both stop at the first level where nothing changes. -/

namespace TcgArm.HBitmaps

open Function Nat TcgArm.BitScan

variable {h : Long}

def IsSentinel (h : Long) (i n : Nat) : Prop := i = 0 ∧ n = h.bitsPerLong - 1

/-- Level `i` says which words of the level below it are not zero. -/
def Linked (hb : HBitmap h) (i : Nat) : Prop :=
  ∀ n, (bitAt (hb.levels i) n = true ∧ ¬ IsSentinel h i n) ↔ wordAt (hb.levels (i + 1)) n ≠ 0

/-- What a range operation on a level leaves as it is, and that the levels above it are adjusted. -/
structure Adjusted (hb hb' : HBitmap h) (level : Nat) : Prop where
  size : hb'.size = hb.size
  count : hb'.count = hb.count
  granularity : hb'.granularity = hb.granularity
  below : ∀ i, level < i → hb'.levels i = hb.levels i
  length : ∀ i, (hb'.levels i).length = (hb.levels i).length
  sentinel : bitAt (hb.levels 0) (h.bitsPerLong - 1) = true → bitAt (hb'.levels 0) (h.bitsPerLong - 1) = true
  linked : ∀ i < level, Linked hb' i

/-- What a range operation needs of the levels from `level` up. -/
structure Adjustable (hb : HBitmap h) (level : Nat) : Prop where
  linked : ∀ i < level, Linked hb i
  length : ∀ i < level, ∀ n < (hb.levels (i + 1)).length, n / h.bitsPerLong < (hb.levels i).length
  /-- The sentinel is not needed for a word of the next level. -/
  free : 0 < level → (hb.levels 1).length < h.bitsPerLong

def HBitmap.setWords (hb : HBitmap h) (level : Nat) (words : List (Word h)) : HBitmap h :=
  { hb with levels := Function.update hb.levels level words }

theorem setWords_same (hb : HBitmap h) (level : Nat) (words : List (Word h)) :
    (hb.setWords level words).levels level = words := update_self _ _ _

variable {i size : Nat}

theorem setWords_other (hb : HBitmap h) {level : Nat} (words : List (Word h)) (hi : i ≠ level) :
    (hb.setWords level words).levels i = hb.levels i := update_of_ne hi _ _

variable {level : Nat} {words : List (Word h)} {hb : HBitmap h}

theorem setWords_length (hb : HBitmap h) (hlen : words.length = (hb.levels level).length) (i : Nat) :
    ((hb.setWords level words).levels i).length = (hb.levels i).length := by
  by_cases hi : i = level
  · rw [hi, setWords_same, hlen]
  · rw [setWords_other hb words hi]

variable {hb' : HBitmap h}

theorem Linked.congr (hl : Linked hb i) (h1 : hb'.levels i = hb.levels i)
    (h2 : hb'.levels (i + 1) = hb.levels (i + 1)) : Linked hb' i := by
  rw [Linked, h1, h2]
  exact hl

theorem Adjustable.setWords (ha : Adjustable hb (level + 1))
    (hlen : words.length = (hb.levels (level + 1)).length) :
    Adjustable (hb.setWords (level + 1) words) level := by
  refine ⟨fun i hi => ?_, fun i hi n hn => ?_, fun _ => ?_⟩
  · exact (ha.linked i (by omega)).congr (setWords_other hb words (by omega))
      (setWords_other hb words (by omega))
  · rw [setWords_length hb hlen] at hn ⊢
    exact ha.length i (by omega) n hn
  · rw [setWords_length hb hlen]
    exact ha.free (by omega)

theorem bitAt_of_words {words words' : List (Word h)} {f : Nat → Bool → Bool}
    (hbits : ∀ j b, b < h.bitsPerLong → (wordAt words' j).getLsbD b =
      f (j * h.bitsPerLong + b) ((wordAt words j).getLsbD b)) (x : Nat) :
    bitAt words' x = f x (bitAt words x) := by
  have hx := div_add_mod' x h.bitsPerLong
  rw [bitAt, bitAt, hbits _ _ (mod_lt _ (bitsPerLong_pos h)), hx]

theorem Adjusted.of_above (hlen : words.length = (hb.levels (level + 1)).length)
    (ha : Adjusted (hb.setWords (level + 1) words) hb' level) (hlinked : Linked hb' level) :
    Adjusted hb hb' (level + 1) := by
  refine ⟨ha.size, ha.count, ha.granularity, fun i hi => ?_, fun i => ?_, fun hsent => ?_, fun i hi => ?_⟩
  · rw [ha.below i (by omega), setWords_other hb words (by omega)]
  · rw [ha.length, setWords_length hb hlen]
  · refine ha.sentinel ?_
    rw [setWords_other hb words (by omega)]
    exact hsent
  · by_cases hil : i = level
    · exact hil ▸ hlinked
    · exact ha.linked i (by omega)

theorem Adjusted.refl_above (ha : Adjustable hb (level + 1))
    (hlen : words.length = (hb.levels (level + 1)).length) :
    Adjusted (hb.setWords (level + 1) words) (hb.setWords (level + 1) words) level :=
  ⟨rfl, rfl, rfl, fun _ _ => rfl, fun _ => rfl, id, (ha.setWords hlen).linked⟩

/-- The words that are not zero after a range was set. -/
theorem set_ne_zero_iff {words' : List (Word h)} {start last : Nat} (hle : start ≤ last)
    (hbits : ∀ j b, b < h.bitsPerLong → (wordAt words' j).getLsbD b = ((wordAt words j).getLsbD b ||
      decide (start ≤ j * h.bitsPerLong + b ∧ j * h.bitsPerLong + b ≤ last))) (j : Nat) :
    wordAt words' j ≠ 0 ↔ wordAt words j ≠ 0 ∨ (start / h.bitsPerLong ≤ j ∧ j ≤ last / h.bitsPerLong) := by
  have hw := bitsPerLong_pos h
  rw [ne_zero_iff, ne_zero_iff]
  constructor
  · rintro ⟨b, hb⟩
    have hb' := BitVec.lt_of_getLsbD hb
    rw [hbits j b hb', Bool.or_eq_true, decide_eq_true_eq] at hb
    exact hb.imp (fun hold => ⟨b, hold⟩) (word_in_range hb').2
  · rintro (⟨b, hb⟩ | ⟨hs, hl⟩)
    · refine ⟨b, ?_⟩
      rw [hbits j b (BitVec.lt_of_getLsbD hb), hb, Bool.true_or]
    · -- Some number of the word lies in the range: its first one, or the start.
      have hl' := (Nat.le_div_iff_mul_le hw).mp hl
      by_cases hin : start / h.bitsPerLong = j
      · refine ⟨start % h.bitsPerLong, ?_⟩
        have hx := div_add_mod' start h.bitsPerLong
        rw [hin] at hx
        rw [hbits j _ (mod_lt _ hw), hx, decide_eq_true ⟨le_refl _, hle⟩, Bool.or_true]
      · have hs' := (Nat.div_lt_iff_lt_mul hw).mp (lt_of_le_of_ne hs hin)
        refine ⟨0, ?_⟩
        rw [hbits j 0 hw, decide_eq_true (by omega), Bool.or_true]

theorem hbSetBetween_spec (level : Nat) {hb : HBitmap h} {start last : Nat} (ha : Adjustable hb level)
    (hle : start ≤ last) (hlen : last / h.bitsPerLong < (hb.levels level).length) :
    ∃ hb', hbSetBetween hb level start last = some hb' ∧ Adjusted hb hb' level ∧
      ∀ x, bitAt (hb'.levels level) x = (bitAt (hb.levels level) x || decide (start ≤ x ∧ x ≤ last)) := by
  induction level generalizing hb start last with
  | zero =>
    obtain ⟨words, changed, hrun, hlen', hbits, -⟩ := setLevel_spec hle hlen
    have hbit := @bitAt_of_words h (hb.levels 0) words
      (fun x old => old || decide (start ≤ x ∧ x ≤ last)) hbits
    refine ⟨hb.setWords 0 words, ?_, ⟨rfl, rfl, rfl, fun i hi => setWords_other hb words (by omega),
      setWords_length hb hlen', fun hsent => ?_, fun i hi => by omega⟩, fun x => ?_⟩
    · rw [hbSetBetween, hrun]
      rfl
    · rw [setWords_same, hbit, hsent, Bool.true_or]
    · rw [setWords_same, hbit]
  | succ level ih =>
    obtain ⟨words, changed, hrun, hlen', hbits, hchanged⟩ := setLevel_spec hle hlen
    have hbit := @bitAt_of_words h (hb.levels (level + 1)) words
      (fun x old => old || decide (start ≤ x ∧ x ≤ last)) hbits
    have hne := set_ne_zero_iff hle hbits
    have hlinked := ha.linked level (by omega)
    have hother : (hb.setWords (level + 1) words).levels level = hb.levels level :=
      setWords_other hb words (by omega)
    have hrun' : hbSetBetween hb (level + 1) start last = if changed then
        hbSetBetween (hb.setWords (level + 1) words) level (start / h.bitsPerLong) (last / h.bitsPerLong)
        else some (hb.setWords (level + 1) words) := by
      rw [hbSetBetween, hrun]
      rfl
    by_cases hch : changed = true
    · obtain ⟨hb', hset, hadj, hbit'⟩ := @ih (hb.setWords (level + 1) words) (start / h.bitsPerLong)
        (last / h.bitsPerLong) (ha.setWords hlen') (Nat.div_le_div_right hle)
        (by rw [hother]; exact ha.length level (by omega) _ hlen)
      have hbelow : hb'.levels (level + 1) = words := by
        rw [hadj.below _ (by omega), setWords_same]
      refine ⟨hb', by rw [hrun', if_pos hch, hset], hadj.of_above hlen' fun n => ?_, fun x => ?_⟩
      · rw [hbelow, hne, hbit', hother, ← hlinked n, Bool.or_eq_true, decide_eq_true_eq, or_and_right]
        refine or_congr_right (and_iff_left_of_imp ?_)
        rintro hin ⟨rfl, rfl⟩
        have hfree := (show last / h.bitsPerLong < (hb.levels 1).length from hlen).trans_le
          (le_sub_one_of_lt (ha.free (by omega)))
        omega
      · rw [hbelow, hbit]
    · rw [if_neg hch] at hrun'
      refine ⟨_, hrun', (Adjusted.refl_above ha hlen').of_above hlen' fun n => ?_, fun x => ?_⟩
      · rw [hother, setWords_same, hne, hlinked n]
        refine ⟨.inl, fun hor => hor.elim id fun hin hzero => hch ?_⟩
        exact hchanged.mpr ⟨n, hin.1, hin.2, hzero⟩
      · rw [setWords_same, hbit]

theorem hbResetBetween_spec (level : Nat) {hb : HBitmap h} {start last : Nat} (ha : Adjustable hb level)
    (hle : start ≤ last) (hlen : last / h.bitsPerLong < (hb.levels level).length)
    (htop : level = 0 → last < h.bitsPerLong - 1) :
    ∃ hb', hbResetBetween hb level start last = some hb' ∧ Adjusted hb hb' level ∧
      ∀ x, bitAt (hb'.levels level) x = (bitAt (hb.levels level) x && !decide (start ≤ x ∧ x ≤ last)) := by
  induction level generalizing hb start last with
  | zero =>
    obtain ⟨words, changed, pos, lastpos, hrun, hlen', hbits, -, -⟩ := resetLevel_spec hle hlen
    have hbit := @bitAt_of_words h (hb.levels 0) words
      (fun x old => old && !decide (start ≤ x ∧ x ≤ last)) hbits
    refine ⟨hb.setWords 0 words, ?_, ⟨rfl, rfl, rfl, fun i hi => setWords_other hb words (by omega),
      setWords_length hb hlen', fun hsent => ?_, fun i hi => by omega⟩, fun x => ?_⟩
    · rw [hbResetBetween, hrun]
      rfl
    · have hlast := htop rfl
      rw [setWords_same, hbit, hsent, decide_eq_false (by omega), Bool.not_false, Bool.and_true]
    · rw [setWords_same, hbit]
  | succ level ih =>
    obtain ⟨words, changed, pos, lastpos, hrun, hlen', hbits, hrange, hne⟩ := resetLevel_spec hle hlen
    have hbit := @bitAt_of_words h (hb.levels (level + 1)) words
      (fun x old => old && !decide (start ≤ x ∧ x ≤ last)) hbits
    have hlinked := ha.linked level (by omega)
    have hother : (hb.setWords (level + 1) words).levels level = hb.levels level :=
      setWords_other hb words (by omega)
    have hrun' : hbResetBetween hb (level + 1) start last = if changed then
        hbResetBetween (hb.setWords (level + 1) words) level pos lastpos
        else some (hb.setWords (level + 1) words) := by
      rw [hbResetBetween, hrun]
      rfl
    by_cases hch : changed = true
    · obtain ⟨hrange1, hrange2⟩ := hrange hch
      obtain ⟨hb', hset, hadj, hbit'⟩ := @ih (hb.setWords (level + 1) words) pos lastpos
        (ha.setWords hlen') hrange1
        (by rw [hother]; exact ha.length level (by omega) _ (hrange2.trans_lt hlen)) (by
          rintro rfl
          have hfree := (show last / h.bitsPerLong < (hb.levels 1).length from hlen).trans_le
            (le_sub_one_of_lt (ha.free (by omega)))
          omega)
      have hbelow : hb'.levels (level + 1) = words := by
        rw [hadj.below _ (by omega), setWords_same]
      refine ⟨hb', by rw [hrun', if_pos hch, hset], hadj.of_above hlen' fun n => ?_, fun x => ?_⟩
      · rw [hbelow, hne, hbit', hother, ← hlinked n, Bool.and_eq_true, Bool.not_eq_true',
          decide_eq_false_iff_not, (and_right_comm : _ ↔ _)]
        simp only [hch, true_and]
      · rw [hbelow, hbit]
    · rw [if_neg hch] at hrun'
      refine ⟨_, hrun', (Adjusted.refl_above ha hlen').of_above hlen' fun n => ?_, fun x => ?_⟩
      · rw [hother, setWords_same, hne, hlinked n]
        exact (and_iff_left fun hin => hch hin.1).symm
      · rw [setWords_same, hbit]

/-- The number of words of level `i`. -/
def levelWords (h : Long) (size i : Nat) : Nat := (numWords h)^[h.last + 1 - i] size

/-- The invariant of bitmaps. -/
structure Wf (hb : HBitmap h) : Prop where
  granularity : hb.granularity < 64
  size : hb.size ≤ 2 ^ h.logMaxSize
  length : ∀ i ≤ h.last, (hb.levels i).length = levelWords h hb.size i
  inside : ∀ x, bitAt (hb.levels h.last) x = true → x < hb.size
  linked : ∀ i < h.last, Linked hb i
  sentinel : bitAt (hb.levels 0) (h.bitsPerLong - 1) = true

theorem last_eq (h : Long) : h.last = 6 := by
  cases h <;> rfl

theorem numLevels_eq (h : Long) : h.numLevels = h.last + 1 := by
  cases h <;> rfl

theorem levelWords_last (size : Nat) : levelWords h size h.last = numWords h size := by
  rw [levelWords, Nat.add_sub_cancel_left, iterate_one]

theorem levelWords_up (hi : i ≤ h.last) (size : Nat) :
    levelWords h size i = numWords h (levelWords h size (i + 1)) := by
  rw [levelWords, levelWords, show h.last + 1 - i = h.last + 1 - (i + 1) + 1 by omega, iterate_succ_apply']

theorem div_lt_numWords {n x : Nat} (hx : x < n) : x / h.bitsPerLong < numWords h n := by
  have hw := bitsPerLong_pos h
  rw [numWords, lt_iff_add_one_le]
  refine le_max_of_le_left ((Nat.le_div_iff_mul_le hw).mpr ?_)
  have hdown := div_mul_le_self x h.bitsPerLong
  rw [Nat.add_mul, Nat.one_mul]
  omega

theorem numWords_le {n a : Nat} (hn : n ≤ 2 ^ (a + h.bitsPerLevel)) : numWords h n ≤ 2 ^ a := by
  have hw := bitsPerLong_pos h
  rw [numWords]
  refine max_le ?_ Nat.one_le_two_pow
  rw [← Nat.lt_succ_iff, Nat.div_lt_iff_lt_mul hw, succ_mul]
  rw [pow_add, ← Long.bitsPerLong] at hn
  omega

theorem levelWords_le (hsize : size ≤ 2 ^ h.logMaxSize) (n : Nat) (hn : n ≤ h.last) (a : Nat)
    (ha : h.logMaxSize ≤ a + (n + 1) * h.bitsPerLevel) :
    levelWords h size (h.last - n) ≤ 2 ^ a := by
  induction n generalizing a with
  | zero =>
    rw [Nat.sub_zero, levelWords_last]
    refine numWords_le (hsize.trans (Nat.pow_le_pow_right (by decide) ?_))
    omega
  | succ n ih =>
    rw [levelWords_up (by omega), show h.last - (n + 1) + 1 = h.last - n by omega]
    refine numWords_le (ih (by omega) (a + h.bitsPerLevel) ?_)
    rw [Nat.add_mul, Nat.one_mul] at ha
    omega

theorem levelWords_zero (hsize : size ≤ 2 ^ h.logMaxSize) : levelWords h size 0 = 1 := by
  have hle := levelWords_le hsize h.last (le_refl _) 0 (by cases h <;> decide)
  rw [Nat.sub_self] at hle
  have hpos : 1 ≤ levelWords h size 0 := by
    rw [levelWords_up (Nat.zero_le _)]
    exact le_max_right _ _
  omega

section

variable (hwf : Wf hb)
include hwf

theorem Wf.length_last : (hb.levels h.last).length = numWords h hb.size := by
  rw [hwf.length _ (le_refl _), levelWords_last]

theorem Wf.length_up (i : Nat) (hi : i < h.last) :
    (hb.levels i).length = numWords h (hb.levels (i + 1)).length := by
  rw [hwf.length i hi.le, hwf.length (i + 1) hi, levelWords_up hi.le]

theorem Wf.free : (hb.levels 1).length < h.bitsPerLong := by
  have hle := levelWords_le hwf.size (h.last - 1) (by omega) (h.bitsPerLevel - 1) (by cases h <;> decide)
  rw [show h.last - (h.last - 1) = 1 by rw [last_eq], ← hwf.length 1 (by rw [last_eq]; decide)] at hle
  exact hle.trans_lt (by cases h <;> decide)

theorem Wf.lt_length {x : Nat} (hx : x < hb.size) :
    x / h.bitsPerLong < (hb.levels h.last).length := by
  rw [hwf.length_last]
  exact div_lt_numWords hx

theorem Wf.adjustable : Adjustable hb h.last := by
  refine ⟨hwf.linked, fun i hi n hn => ?_, fun _ => hwf.free⟩
  rw [hwf.length_up i hi]
  exact div_lt_numWords hn

end

theorem Adjusted.wf (ha : Adjusted hb hb' h.last) (hwf : Wf hb)
    (hinside : ∀ x, bitAt (hb'.levels h.last) x = true → x < hb.size) : Wf hb' where
  granularity := ha.granularity ▸ hwf.granularity
  size := ha.size ▸ hwf.size
  length i hi := by rw [ha.length, hwf.length i hi, ha.size]
  inside x hx := ha.size ▸ hinside x hx
  linked := ha.linked
  sentinel := ha.sentinel hwf.sentinel

end TcgArm.HBitmaps
