import TcgArm.HBitmap

/-! What setting and resetting a range does to the words of one level. -/

namespace TcgArm.HBitmaps

open List Nat TcgArm.BitScan
open Option (bind_eq_bind bind_some)

variable {h : Long} {start last j b : Nat}

theorem bitsPerLong_pos (h : Long) : 0 < h.bitsPerLong := by
  cases h <;> decide

theorem nextWord_eq (h : Long) (start : Nat) :
    nextWord h start = (start / h.bitsPerLong + 1) * h.bitsPerLong := by
  have hpos := bitsPerLong_pos h
  have hor : start ||| (h.bitsPerLong - 1) =
      h.bitsPerLong * (start / h.bitsPerLong) + (h.bitsPerLong - 1) := by
    apply eq_of_testBit_eq
    intro i
    have hlt : 2 ^ h.bitsPerLevel - 1 < 2 ^ h.bitsPerLevel := sub_lt hpos (by decide)
    rw [testBit_or, Long.bitsPerLong, testBit_two_pow_mul_add _ hlt, testBit_two_pow_sub_one]
    by_cases hi : i < h.bitsPerLevel
    · simp [hi]
    · have hadd : i - h.bitsPerLevel + h.bitsPerLevel = i := by omega
      simp [hi, testBit_div_two_pow, hadd]
  rw [nextWord, hor, Nat.add_mul, Nat.mul_comm]
  omega

theorem getLsbD_rangeMask (hstart : start / h.bitsPerLong = j)
    (hlast : last / h.bitsPerLong = j) (hle : start ≤ last) (hb : b < h.bitsPerLong) :
    (rangeMask h start last).getLsbD b =
      decide (start ≤ j * h.bitsPerLong + b ∧ j * h.bitsPerLong + b ≤ last) := by
  have hs := div_add_mod start h.bitsPerLong
  have hl := div_add_mod last h.bitsPerLong
  rw [hstart, Nat.mul_comm] at hs
  rw [hlast, Nat.mul_comm] at hl
  have hmask := @getLsbD_range h.bitsPerLong (start % h.bitsPerLong) (last % h.bitsPerLong) (by omega) b
  rw [rangeMask, hmask, decide_eq_true hb, Bool.true_and]
  congr 1
  apply propext
  omega

/-- Overwritten words. -/
theorem fill_spec (value : Word h) (test : Word h → Bool) {n i : Nat} {words : List (Word h)}
    (changed : Bool) (hlen : i + n ≤ words.length) :
    ∃ words' changed', fill value test n i words changed = some (words', changed') ∧
      words'.length = words.length ∧
      (∀ j, wordAt words' j = if i ≤ j ∧ j < i + n then value else wordAt words j) ∧
      (changed' = true ↔ changed = true ∨ ∃ j, i ≤ j ∧ j < i + n ∧ test (wordAt words j) = true) := by
  induction n generalizing i words changed with
  | zero =>
    refine ⟨words, changed, rfl, rfl, fun j => ?_, ?_⟩
    · rw [if_neg (by omega)]
    · exact ⟨.inl, fun h => h.elim id fun ⟨j, hle, hlt, _⟩ => by omega⟩
  | succ n ih =>
    have hi : i < words.length := by omega
    obtain ⟨words', changed', hfill, hlen', hwords, hchanged⟩ :=
      @ih (i + 1) (words.set i value) (changed || test (wordAt words i)) (by rw [length_set]; omega)
    refine ⟨words', changed', ?_, by rw [hlen', length_set], fun j => ?_, ?_⟩
    · rw [fill, getElem?_wordAt hi]
      exact hfill
    · rw [hwords, wordAt_set hi]
      by_cases hji : j = i
      · rw [if_neg (by omega), if_pos hji, if_pos (by omega)]
      · rw [if_neg hji]
        by_cases hin : i + 1 ≤ j ∧ j < i + 1 + n
        · rw [if_pos hin, if_pos (by omega)]
        · rw [if_neg hin, if_neg (by omega)]
    · have hnext : ∀ j, i + 1 ≤ j → wordAt (words.set i value) j = wordAt words j := fun j hj => by
        rw [wordAt_set hi, if_neg (by omega)]
      rw [hchanged, Bool.or_eq_true, or_assoc]
      refine or_congr_right ⟨?_, ?_⟩
      · rintro (htest | ⟨j, hle, hlt, htest⟩)
        · exact ⟨i, le_refl i, by omega, htest⟩
        · exact ⟨j, by omega, by omega, hnext j hle ▸ htest⟩
      · rintro ⟨j, hle, hlt, htest⟩
        by_cases hji : j = i
        · exact .inl (hji ▸ htest)
        · exact .inr ⟨j, by omega, by omega, (hnext j (by omega)).symm ▸ htest⟩

theorem mul_le_of_div_eq {x w j : Nat} (hw : 0 < w) (h : x / w = j) : j * w ≤ x ∧ x < j * w + w := by
  rw [← h]
  exact ⟨div_mul_le_self x w, by have := lt_div_mul_add hw (a := x); omega⟩

theorem pred_nextWord {start : Nat} :
    (nextWord h start - 1) / h.bitsPerLong = start / h.bitsPerLong ∧ start ≤ nextWord h start - 1 := by
  have hw := bitsPerLong_pos h
  obtain ⟨hle, hlt⟩ := mul_le_of_div_eq hw (rfl : start / h.bitsPerLong = _)
  rw [nextWord_eq, Nat.add_mul, Nat.one_mul]
  refine ⟨?_, by omega⟩
  rw [Nat.div_eq_iff hw]
  omega

/-- Which words a range touches: those between its ends lie in it, those outside do not. -/
theorem word_in_range (hb : b < h.bitsPerLong) :
    (start / h.bitsPerLong < j → j < last / h.bitsPerLong →
        start ≤ j * h.bitsPerLong + b ∧ j * h.bitsPerLong + b ≤ last) ∧
      (start ≤ j * h.bitsPerLong + b ∧ j * h.bitsPerLong + b ≤ last →
        start / h.bitsPerLong ≤ j ∧ j ≤ last / h.bitsPerLong) := by
  have hw := bitsPerLong_pos h
  constructor
  · intro hs hl
    rw [Nat.div_lt_iff_lt_mul hw] at hs
    have hl' := (Nat.le_div_iff_mul_le hw).mp (succ_le_of_lt hl)
    rw [succ_mul] at hl'
    omega
  · rintro ⟨hs, hl⟩
    refine ⟨?_, (Nat.le_div_iff_mul_le hw).mpr (by omega)⟩
    rw [← Nat.lt_succ_iff, Nat.div_lt_iff_lt_mul hw, succ_mul]
    omega

variable {start last : Nat} {words : List (Word h)}

section

variable (hlt : start / h.bitsPerLong < last / h.bitsPerLong)
include hlt

theorem lastWord_start :
    nextWord h start + (last / h.bitsPerLong - start / h.bitsPerLong - 1) * h.bitsPerLong =
      last / h.bitsPerLong * h.bitsPerLong := by
  rw [nextWord_eq, ← Nat.add_mul]
  congr 1
  omega

theorem getLsbD_firstMask {b : Nat} (hb : b < h.bitsPerLong) :
    (rangeMask h start (nextWord h start - 1)).getLsbD b =
      decide (start ≤ start / h.bitsPerLong * h.bitsPerLong + b ∧
        start / h.bitsPerLong * h.bitsPerLong + b ≤ last) := by
  have hw := bitsPerLong_pos h
  obtain ⟨hsame, hend⟩ := @pred_nextWord h start
  have hbelow : (start / h.bitsPerLong + 1) * h.bitsPerLong ≤ last := (Nat.le_div_iff_mul_le hw).mp hlt
  rw [Nat.add_mul, Nat.one_mul] at hbelow
  rw [getLsbD_rangeMask rfl hsame hend hb, nextWord_eq, Nat.add_mul, Nat.one_mul]
  congr 1
  apply propext
  omega

theorem getLsbD_lastMask {b : Nat} (hb : b < h.bitsPerLong) :
    (rangeMask h (last / h.bitsPerLong * h.bitsPerLong) last).getLsbD b =
      decide (start ≤ last / h.bitsPerLong * h.bitsPerLong + b ∧
        last / h.bitsPerLong * h.bitsPerLong + b ≤ last) := by
  have hw := bitsPerLong_pos h
  have habove : start < last / h.bitsPerLong * h.bitsPerLong := (Nat.div_lt_iff_lt_mul hw).mp hlt
  rw [getLsbD_rangeMask (Nat.mul_div_cancel _ hw) rfl (div_mul_le_self _ _) hb]
  congr 1
  apply propext
  omega

end

/-- Words between the first and the last of a range are overwritten. -/
theorem fill_between (value : Word h) (test : Word h → Bool) {pos lastpos : Nat} (first : Word h)
    (changed : Bool) (hlt : pos < lastpos) (hlen : lastpos < words.length) :
    ∃ words' changed', fill value test (lastpos - pos - 1) (pos + 1) (words.set pos first) changed =
        some (words', changed') ∧ words'.length = words.length ∧
      words'[lastpos]? = some (wordAt words lastpos) ∧
      (∀ elem j, wordAt (words'.set lastpos elem) j = if j = lastpos then elem
        else if pos < j ∧ j < lastpos then value else if j = pos then first else wordAt words j) ∧
      (changed' = true ↔ changed = true ∨ ∃ j, pos < j ∧ j < lastpos ∧ test (wordAt words j) = true) := by
  have hlen1 : (words.set pos first).length = words.length := length_set
  obtain ⟨words', changed', hfill, hlen', hwords, hchanged⟩ :=
    @fill_spec h value test (lastpos - pos - 1) (pos + 1) (words.set pos first) changed (by omega)
  have hend : pos + 1 + (lastpos - pos - 1) = lastpos := by omega
  rw [hend] at hwords hchanged
  refine ⟨words', changed', hfill, by omega, ?_, fun elem j => ?_, ?_⟩
  · rw [getElem?_wordAt (by omega), hwords, if_neg (by omega), wordAt_set (by omega), if_neg (by omega)]
  · rw [wordAt_set (by omega), hwords, wordAt_set (by omega)]
    simp only [succ_le_iff]
  · rw [hchanged]
    refine or_congr_right (exists_congr fun j => and_congr_right fun hj => ?_)
    rw [wordAt_set (by omega), if_neg (by omega)]

theorem hbSetElem_eq (elem : Word h) (hsame : last / h.bitsPerLong = start / h.bitsPerLong)
    (hle : start ≤ last) :
    hbSetElem elem start last = some (elem ||| rangeMask h start last, elem == 0) :=
  if_pos ⟨hsame, hle⟩

theorem hbResetElem_eq (elem : Word h) (hsame : last / h.bitsPerLong = start / h.bitsPerLong)
    (hle : start ≤ last) :
    hbResetElem elem start last = some (elem &&& ~~~ rangeMask h start last,
      elem != 0 && (elem &&& ~~~ rangeMask h start last) == 0) :=
  if_pos ⟨hsame, hle⟩

theorem word_not_in_range {start last j b : Nat} (hb : b < h.bitsPerLong)
    (hj : j < start / h.bitsPerLong ∨ last / h.bitsPerLong < j) :
    decide (start ≤ j * h.bitsPerLong + b ∧ j * h.bitsPerLong + b ≤ last) = false := by
  refine decide_eq_false fun hin => ?_
  have := (word_in_range hb).2 hin
  omega

/-- The bits of a level whose first word, last word and words between them have been changed, `f`
being what happens to a bit in the range. -/
theorem bits_between {f : Bool → Bool → Bool} (hf : ∀ x, f x false = x) {start last : Nat}
    {words words' : List (Word h)} {e1 e2 value : Word h}
    (hwords : ∀ j, wordAt words' j = if j = last / h.bitsPerLong then e2
      else if start / h.bitsPerLong < j ∧ j < last / h.bitsPerLong then value
      else if j = start / h.bitsPerLong then e1 else wordAt words j)
    (hlt : start / h.bitsPerLong < last / h.bitsPerLong) {b : Nat} (hb : b < h.bitsPerLong)
    (hfirst : e1.getLsbD b = f ((wordAt words (start / h.bitsPerLong)).getLsbD b)
      ((rangeMask h start (nextWord h start - 1)).getLsbD b))
    (hlast : e2.getLsbD b = f ((wordAt words (last / h.bitsPerLong)).getLsbD b)
      ((rangeMask h (last / h.bitsPerLong * h.bitsPerLong) last).getLsbD b))
    (hvalue : ∀ x, value.getLsbD b = f x true) (j : Nat) :
    (wordAt words' j).getLsbD b = f ((wordAt words j).getLsbD b)
      (decide (start ≤ j * h.bitsPerLong + b ∧ j * h.bitsPerLong + b ≤ last)) := by
  rw [hwords]
  split
  · rename_i hj
    rw [hj, hlast, getLsbD_lastMask hlt hb]
  · split
    · rename_i hj
      rw [decide_eq_true ((word_in_range hb).1 hj.1 hj.2)]
      exact hvalue _
    · split
      · rename_i hj
        rw [hj, hfirst, getLsbD_firstMask hlt hb]
      · rw [word_not_in_range hb (by omega), hf]

theorem word_start (h : Long) (last : Nat) :
    last / h.bitsPerLong = last / h.bitsPerLong * h.bitsPerLong / h.bitsPerLong ∧
      last / h.bitsPerLong * h.bitsPerLong ≤ last :=
  ⟨(Nat.mul_div_cancel _ (bitsPerLong_pos h)).symm, div_mul_le_self _ _⟩

/-- A range of a level that is set. -/
theorem setLevel_spec (hle : start ≤ last) (hlen : last / h.bitsPerLong < words.length) :
    ∃ words' changed, setLevel words start last = some (words', changed) ∧
      words'.length = words.length ∧
      (∀ j b, b < h.bitsPerLong → (wordAt words' j).getLsbD b = ((wordAt words j).getLsbD b ||
        decide (start ≤ j * h.bitsPerLong + b ∧ j * h.bitsPerLong + b ≤ last))) ∧
      (changed = true ↔ ∃ j, start / h.bitsPerLong ≤ j ∧ j ≤ last / h.bitsPerLong ∧ wordAt words j = 0) := by
  have hpos : start / h.bitsPerLong ≤ last / h.bitsPerLong := Nat.div_le_div_right hle
  have hfirst := @getElem?_wordAt _ words (start / h.bitsPerLong) (by omega)
  by_cases hlt : start / h.bitsPerLong < last / h.bitsPerLong
  · obtain ⟨hsame, hend⟩ := @pred_nextWord h start
    obtain ⟨words2, changed, hfill, hlen2, hlast, hwords, hchanged⟩ :=
      fill_between (BitVec.allOnes _) (· == 0)
        (wordAt words (start / h.bitsPerLong) ||| rangeMask h start (nextWord h start - 1))
        (wordAt words (start / h.bitsPerLong) == 0) hlt hlen
    obtain ⟨hback, hdown⟩ := word_start h last
    have hrun : setLevel words start last = some (words2.set (last / h.bitsPerLong)
        (wordAt words (last / h.bitsPerLong) ||| rangeMask h (last / h.bitsPerLong * h.bitsPerLong) last),
        changed || wordAt words (last / h.bitsPerLong) == 0) := by
      simp only [setLevel, hfirst, bind_eq_bind, bind_some, if_pos hlt,
        hbSetElem_eq _ hsame hend, hfill, hlast, lastWord_start hlt, hbSetElem_eq _ hback hdown]
    refine ⟨_, _, hrun, by rw [length_set, hlen2], fun j b hb => ?_, ?_⟩
    · exact bits_between Bool.or_false (hwords _) hlt hb BitVec.getLsbD_or BitVec.getLsbD_or
        (fun x => by rw [BitVec.getLsbD_allOnes, decide_eq_true hb, Bool.or_true]) j
    · rw [Bool.or_eq_true, hchanged]
      simp only [beq_iff_eq]
      constructor
      · rintro ((hzero | ⟨j, h1, h2, hzero⟩) | hzero)
        · exact ⟨_, le_refl _, hpos, hzero⟩
        · exact ⟨j, h1.le, h2.le, hzero⟩
        · exact ⟨_, hpos, le_refl _, hzero⟩
      · rintro ⟨j, h1, h2, hzero⟩
        rcases h1.eq_or_lt with rfl | h1
        · exact .inl (.inl hzero)
        · rcases h2.eq_or_lt with rfl | h2
          · exact .inr hzero
          · exact .inl (.inr ⟨j, h1, h2, hzero⟩)
  · have heq : last / h.bitsPerLong = start / h.bitsPerLong := by omega
    have hrun : setLevel words start last = some (words.set (start / h.bitsPerLong)
        (wordAt words (start / h.bitsPerLong) ||| rangeMask h start last),
        wordAt words (start / h.bitsPerLong) == 0) := by
      simp only [setLevel, hfirst, bind_eq_bind, bind_some, if_neg hlt, hbSetElem_eq _ heq hle]
    refine ⟨_, _, hrun, length_set, fun j b hb => ?_, ?_⟩
    · rw [wordAt_set (by omega)]
      split
      · rename_i hj
        subst hj
        rw [BitVec.getLsbD_or, getLsbD_rangeMask rfl heq hle hb]
      · rw [word_not_in_range hb (by omega), Bool.or_false]
    · rw [beq_iff_eq]
      constructor
      · intro hzero
        exact ⟨_, le_refl _, hpos, hzero⟩
      · rintro ⟨j, h1, h2, hzero⟩
        rwa [show start / h.bitsPerLong = j by omega]

theorem reset_ne_zero_iff (elem mask : Word h) :
    elem &&& ~~~ mask ≠ 0 ↔ elem ≠ 0 ∧ ¬ (elem != 0 && (elem &&& ~~~ mask) == 0) = true := by
  rw [Bool.and_eq_true, bne_iff_ne, beq_iff_eq, not_and]
  constructor
  · intro hne
    refine ⟨fun hzero => hne ?_, fun _ => hne⟩
    rw [hzero]
    exact BitVec.zero_and
  · rintro ⟨hne, himp⟩
    exact himp hne

/-- The words that have become zero lie between those at the ends that were not blanked. -/
theorem blanked_between {pos lastpos : Nat} {words words' : List (Word h)} {e1 e2 : Word h}
    {b1 b2 changed : Bool} (hlt : pos < lastpos) (hwords : ∀ j, wordAt words' j = if j = lastpos then e2
      else if pos < j ∧ j < lastpos then 0 else if j = pos then e1 else wordAt words j)
    (hne1 : e1 ≠ 0 ↔ wordAt words pos ≠ 0 ∧ ¬ b1 = true)
    (hne2 : e2 ≠ 0 ↔ wordAt words lastpos ≠ 0 ∧ ¬ b2 = true)
    (hchanged : changed = true ↔ b1 = true ∨ ∃ j, pos < j ∧ j < lastpos ∧ wordAt words j ≠ 0) (j : Nat) :
    wordAt words' j ≠ 0 ↔ wordAt words j ≠ 0 ∧ ¬ ((changed || b2) = true ∧
      (if b1 then pos else pos + 1) ≤ j ∧ j ≤ if b2 then lastpos else lastpos - 1) := by
  have hlow : pos ≤ (if b1 = true then pos else pos + 1) ∧
      (if b1 = true then pos else pos + 1) ≤ pos + 1 := by split <;> omega
  have hhigh : lastpos - 1 ≤ (if b2 = true then lastpos else lastpos - 1) ∧
      (if b2 = true then lastpos else lastpos - 1) ≤ lastpos := by split <;> omega
  rw [hwords]
  split
  · rename_i hj
    subst hj
    rw [hne2]
    refine and_congr_right fun _ => not_congr ⟨fun hb => ?_, fun hin => ?_⟩
    · rw [if_pos hb, hb, Bool.or_true]
      exact ⟨rfl, by omega, le_refl _⟩
    · by_contra hb
      rw [if_neg hb] at hin
      omega
  · split
    · rename_i hj
      refine ⟨fun h => absurd rfl h, fun ⟨hne, hnot⟩ => absurd ?_ hnot⟩
      have hch : changed = true := hchanged.mpr (.inr ⟨j, hj.1, hj.2, hne⟩)
      exact ⟨by rw [hch, Bool.true_or], by omega, by omega⟩
    · split
      · rename_i hj
        subst hj
        rw [hne1]
        refine and_congr_right fun _ => not_congr ⟨fun hb => ?_, fun hin => ?_⟩
        · rw [if_pos hb, hchanged.mpr (.inl hb), Bool.true_or]
          exact ⟨rfl, le_refl _, by omega⟩
        · by_contra hb
          rw [if_neg hb] at hin
          omega
      · exact ⟨fun hne => ⟨hne, by omega⟩, fun hin => hin.1⟩

/-- A range of a level that is reset. The words that have become zero are those that the level above is
told of. -/
theorem resetLevel_spec (hle : start ≤ last) (hlen : last / h.bitsPerLong < words.length) :
    ∃ words' changed pos lastpos, resetLevel words start last = some (words', changed, pos, lastpos) ∧
      words'.length = words.length ∧
      (∀ j b, b < h.bitsPerLong → (wordAt words' j).getLsbD b = ((wordAt words j).getLsbD b &&
        !decide (start ≤ j * h.bitsPerLong + b ∧ j * h.bitsPerLong + b ≤ last))) ∧
      (changed = true → pos ≤ lastpos ∧ lastpos ≤ last / h.bitsPerLong) ∧
      ∀ j, wordAt words' j ≠ 0 ↔ wordAt words j ≠ 0 ∧ ¬ (changed = true ∧ pos ≤ j ∧ j ≤ lastpos) := by
  have hpos : start / h.bitsPerLong ≤ last / h.bitsPerLong := Nat.div_le_div_right hle
  have hfirst := @getElem?_wordAt _ words (start / h.bitsPerLong) (by omega)
  by_cases hlt : start / h.bitsPerLong < last / h.bitsPerLong
  · obtain ⟨hsame, hend⟩ := @pred_nextWord h start
    obtain ⟨e1, hkeep1⟩ : ∃ e, e = wordAt words (start / h.bitsPerLong) &&&
      ~~~ rangeMask h start (nextWord h start - 1) := ⟨_, rfl⟩
    obtain ⟨e2, hkeep2⟩ : ∃ e, e = wordAt words (last / h.bitsPerLong) &&&
      ~~~ rangeMask h (last / h.bitsPerLong * h.bitsPerLong) last := ⟨_, rfl⟩
    obtain ⟨b1, hb1⟩ : ∃ b, b = (wordAt words (start / h.bitsPerLong) != 0 && e1 == 0) := ⟨_, rfl⟩
    obtain ⟨b2, hb2⟩ : ∃ b, b = (wordAt words (last / h.bitsPerLong) != 0 && e2 == 0) := ⟨_, rfl⟩
    have hne1 : e1 ≠ 0 ↔ wordAt words (start / h.bitsPerLong) ≠ 0 ∧ ¬ b1 = true := by
      rw [hb1, hkeep1]
      exact reset_ne_zero_iff _ _
    have hne2 : e2 ≠ 0 ↔ wordAt words (last / h.bitsPerLong) ≠ 0 ∧ ¬ b2 = true := by
      rw [hb2, hkeep2]
      exact reset_ne_zero_iff _ _
    obtain ⟨words2, changed, hfill, hlen2, hlast, hwords, hchanged⟩ := fill_between 0 (· != 0) e1 b1 hlt hlen
    obtain ⟨hback, hdown⟩ := word_start h last
    have hrun : resetLevel words start last = some (words2.set (last / h.bitsPerLong) e2, changed || b2,
        if b1 then start / h.bitsPerLong else start / h.bitsPerLong + 1,
        if b2 then last / h.bitsPerLong else last / h.bitsPerLong - 1) := by
      simp only [resetLevel, hfirst, bind_eq_bind, bind_some, if_pos hlt,
        hbResetElem_eq _ hsame hend, ← hkeep1, ← hb1, hfill, hlast, lastWord_start hlt,
        hbResetElem_eq _ hback hdown, ← hkeep2, ← hb2]
    refine ⟨_, _, _, _, hrun, by rw [length_set, hlen2], fun j b hb => ?_, fun hch => ?_, fun j => ?_⟩
    · have hmasked : ∀ elem mask : Word h, (elem &&& ~~~ mask).getLsbD b =
          (elem.getLsbD b && !mask.getLsbD b) := by
        intro elem mask
        rw [BitVec.getLsbD_and, BitVec.getLsbD_not, decide_eq_true hb, Bool.true_and]
      exact @bits_between h (fun x y => x && !y) (by simp) _ _ _ _ _ _ _ (hwords _) hlt _ hb
        (by rw [hkeep1, hmasked]) (by rw [hkeep2, hmasked]) (by simp) j
    · rw [Bool.or_eq_true, hchanged] at hch
      constructor
      · rcases hch with (hch | ⟨j, h1, h2, -⟩) | hch
        · rw [if_pos hch]
          split <;> omega
        · split <;> split <;> omega
        · rw [if_pos hch]
          split <;> omega
      · split
        · exact le_refl _
        · exact sub_le _ _
    · refine blanked_between hlt (hwords e2) hne1 hne2 ?_ j
      simpa only [bne_iff_ne] using hchanged
  · have heq : last / h.bitsPerLong = start / h.bitsPerLong := by omega
    obtain ⟨e, hkeep⟩ : ∃ e, e = wordAt words (start / h.bitsPerLong) &&& ~~~ rangeMask h start last :=
      ⟨_, rfl⟩
    obtain ⟨blanked, hblanked⟩ : ∃ b, b = (wordAt words (start / h.bitsPerLong) != 0 && e == 0) := ⟨_, rfl⟩
    have hne : e ≠ 0 ↔ wordAt words (start / h.bitsPerLong) ≠ 0 ∧ ¬ blanked = true := by
      rw [hblanked, hkeep]
      exact reset_ne_zero_iff _ _
    have hrun : resetLevel words start last = some (words.set (start / h.bitsPerLong) e, blanked,
        start / h.bitsPerLong, if blanked then last / h.bitsPerLong else last / h.bitsPerLong - 1) := by
      simp only [resetLevel, hfirst, bind_eq_bind, bind_some, if_neg hlt,
        hbResetElem_eq _ heq hle, ← hkeep, ← hblanked]
    refine ⟨_, _, _, _, hrun, length_set, fun j b hb => ?_, fun hch => ?_, fun j => ?_⟩
    · rw [wordAt_set (by omega)]
      split
      · rename_i hj
        subst hj
        rw [hkeep, BitVec.getLsbD_and, BitVec.getLsbD_not, getLsbD_rangeMask rfl heq hle hb,
          decide_eq_true hb, Bool.true_and]
      · rw [word_not_in_range hb (by omega), Bool.not_false, Bool.and_true]
    · rw [if_pos hch]
      exact ⟨hpos, le_refl _⟩
    · rw [wordAt_set (by omega)]
      split
      · rename_i hj
        subst hj
        rw [hne]
        refine and_congr_right fun _ => not_congr ⟨fun hb => ?_, fun hin => hin.1⟩
        rw [if_pos hb]
        exact ⟨hb, le_refl _, hpos⟩
      · refine ⟨fun hne => ⟨hne, fun hin => ?_⟩, fun hin => hin.1⟩
        rw [if_pos hin.1] at hin
        omega

end TcgArm.HBitmaps
