import Mathlib.Order.Interval.Finset.Nat
import TcgArm.HBitmapIter

/-! What a whole iteration visits, and what is counted with one. -/

namespace TcgArm.HBitmaps

open BitVec Bool Finset Function Option TcgArm.BitScan

variable {h : Long}

variable {hb : HBitmap h}

theorem iterPath_succ {i x : Nat} {word : Word h} {cur : Nat → Word h}
    (hread : (hb.levels i)[x / h.bitsPerLong]? = some word) :
    iterPath hb (i + 1) x cur = iterPath hb i (x / h.bitsPerLong) (update cur i (if i ≠ h.last then
        word &&& ~~~ ((1#_ <<< (x % h.bitsPerLong)) - 1#_) &&& ~~~ (1#_ <<< (x % h.bitsPerLong))
        else word &&& ~~~ ((1#_ <<< (x % h.bitsPerLong)) - 1#_))) := by
  rw [iterPath, hread]
  rfl

/-- The upper levels of a new iterator. -/
theorem iterPath_spec (hwf : Wf hb) {pos : Nat} (hpos : pos < (hb.levels h.last).length)
    (i : Nat) (hi : i ≤ h.last) {x : Nat} (hx : ∀ k, i = k + 1 → x = node h pos k) (cur : Nat → Word h) :
    ∃ cur', iterPath hb i x cur = some cur' ∧ (∀ j, i ≤ j → cur' j = cur j) ∧
      ∀ j < i, Behind hb pos j (cur' j) := by
  induction i generalizing x cur with
  | zero => exact ⟨cur, rfl, fun _ _ => rfl, fun j hj => by omega⟩
  | succ i ih =>
    have hnode := hx i rfl
    subst hnode
    have hlen : node h pos i / h.bitsPerLong < (hb.levels i).length := by
      rw [hwf.length_up i (by omega)]
      exact div_lt_numWords (hwf.node_lt hpos (by omega))
    rw [iterPath_succ (getElem?_wordAt hlen), if_pos (by omega)]
    obtain ⟨cur', hrun, hkeep, hbehind⟩ := @ih (by omega) (node h pos i / h.bitsPerLong)
      (fun k hk => by subst hk; exact node_succ (by omega) pos) _
    refine ⟨cur', hrun, fun j hj => ?_, fun j hj => ?_⟩
    · rw [hkeep j (by omega), update_of_ne (by omega)]
    · by_cases hji : j = i
      · subst hji
        rw [hkeep j (le_refl _), update_self]
        intro b hb
        have hdiv := Nat.div_add_mod' (node h pos j) h.bitsPerLong
        rw [getLsbD_and, getLsbD_and, getLsbD_not, getLsbD_not,
          getLsbD_low, getLsbD_one_shiftLeft, decide_eq_true hb, bitAt_mul_add hb]
        by_cases hlt : node h pos j < node h pos j / h.bitsPerLong * h.bitsPerLong + b
        · have h1 : ¬ b < node h pos j % h.bitsPerLong := by omega
          have h2 : ¬ b = node h pos j % h.bitsPerLong := by omega
          simp [hlt, h1, h2]
        · by_cases heq : b = node h pos j % h.bitsPerLong
          · rw [decide_eq_false hlt, decide_eq_true heq]
            simp
          · have h1 : b < node h pos j % h.bitsPerLong := by omega
            simp [hlt, h1]
      · exact hbehind j (by omega)

theorem hbitmapIterInit_spec (hwf : Wf hb) {first : Nat} (hfirst : first >>> hb.granularity < hb.size) :
    ∃ it, hbitmapIterInit hb first = some it ∧ Before hb it (first >>> hb.granularity) := by
  have hw := bitsPerLong_pos h
  have hlen := hwf.lt_length hfirst
  rw [hbitmapIterInit, if_pos hfirst, numLevels_eq, iterPath_succ (getElem?_wordAt hlen), if_neg (by simp)]
  generalize first >>> hb.granularity = m at *
  obtain ⟨cur, hrun, hkeep, hbehind⟩ := @iterPath_spec h hb hwf _ hlen h.last (le_refl _) (m / h.bitsPerLong)
    (fun k hk => by
      have := node_last (h := h) (m / h.bitsPerLong)
      rw [hk, Nat.add_sub_cancel] at this
      exact this.symm)
    (update (fun _ => 0) h.last (wordAt (hb.levels h.last) (m / h.bitsPerLong) &&&
      ~~~ ((1#_ <<< (m % h.bitsPerLong)) - 1#_)))
  have hdiv := Nat.div_add_mod' m h.bitsPerLong
  have hmod := Nat.mod_lt m hw
  refine ⟨⟨m / h.bitsPerLong, cur⟩, by rw [hrun]; rfl, by dsimp only; omega, by dsimp only; omega, hlen,
    fun b hb => ?_, hbehind⟩
  dsimp only
  rw [hkeep _ (le_refl _), update_self, getLsbD_and, getLsbD_not, getLsbD_low,
    decide_eq_true hb, bitAt_mul_add hb]
  by_cases hle : m ≤ m / h.bitsPerLong * h.bitsPerLong + b
  · have hnot : ¬ b < m % h.bitsPerLong := by omega
    simp [hle, hnot]
  · have hlt : b < m % h.bitsPerLong := by omega
    simp [hle, hlt]

/-- Call `hbitmap_iter_next` until it returns -1, which takes `fuel` calls at most. -/
def visit (hb : HBitmap h) : Nat → Iter h → Option (List Int × Iter h)
  | 0, _ => none
  | fuel + 1, it => do
    let (item, it) ← hbitmapIterNext hb it
    if item = -1 then some ([], it)
    else
      let (items, it) ← visit hb fuel it
      some (item :: items, it)

/-- The members from `m` on, in order. -/
def membersFrom (hb : HBitmap h) (m : Nat) : List Nat :=
  (List.range hb.size).filter fun x => decide (m ≤ x) && bitAt (hb.levels h.last) x

theorem filter_range_least {p q : Nat → Bool} {n x : Nat} (hx : x < n) (hpx : p x = true)
    (hleast : ∀ y, p y = true → x ≤ y) (hq : ∀ y, q y = (p y && decide (x < y))) :
    (List.range n).filter p = x :: (List.range n).filter q := by
  induction n with
  | zero => omega
  | succ n ih =>
    rw [List.range_succ, List.filter_append, List.filter_append]
    by_cases hxn : x = n
    · subst hxn
      have hbelow : ∀ y ∈ List.range x, ¬ p y = true := fun y hy hp => by
        have := hleast y hp
        have := List.mem_range.mp hy
        omega
      have hnone : ∀ y ∈ List.range x, ¬ q y = true := fun y hy hp => by
        rw [hq, and_eq_true] at hp
        exact hbelow y hy hp.1
      rw [List.filter_eq_nil_iff.mpr hbelow, List.filter_eq_nil_iff.mpr hnone]
      simp [hpx, hq]
    · rw [ih (by omega), List.cons_append]
      have hsame : List.filter p [n] = List.filter q [n] := by
        have hlt : x < n := by omega
        rw [List.filter_cons, List.filter_cons, hq, decide_eq_true hlt, Bool.and_true]
        rfl
      rw [hsame]

theorem membersFrom_cons (hwf : Wf hb) {m item : Nat} (hitem : bitAt (hb.levels h.last) item = true)
    (hm : m ≤ item) (hleast : ∀ x, bitAt (hb.levels h.last) x = true → m ≤ x → item ≤ x) :
    membersFrom hb m = item :: membersFrom hb (item + 1) := by
  refine filter_range_least (hwf.inside item hitem) ?_ (fun y hy => ?_) fun y => ?_
  · rw [decide_eq_true hm, hitem]
    rfl
  · rw [and_eq_true, decide_eq_true_eq] at hy
    exact hleast y hy.2 hy.1
  · by_cases hlt : item < y
    · simp [hlt, (show m ≤ y by omega), (show item + 1 ≤ y by omega)]
    · simp [hlt, (show ¬ item + 1 ≤ y by omega)]

theorem membersFrom_nil {m : Nat} (hend : ∀ x, bitAt (hb.levels h.last) x = true → ¬ m ≤ x) :
    membersFrom hb m = [] := by
  rw [membersFrom, List.filter_eq_nil_iff]
  intro x _ hx
  rw [and_eq_true, decide_eq_true_eq] at hx
  exact hend x hx.2 hx.1

theorem bmod_of_lt {v : Nat} (hv : v < 2 ^ 63) : Int.bmod (v : Int) (2 ^ 64) = v :=
  Int.bmod_eq_of_le (by omega) (by omega)

/-- Every member that is left is visited, in order, and then the iterator is at its end. -/
theorem visit_spec (hwf : Wf hb) (hsize : hb.size <<< hb.granularity ≤ 2 ^ 63) (fuel : Nat)
    {it : Iter h} {m : Nat} (hbefore : Before hb it m) (hfuel : (membersFrom hb m).length < fuel) :
    ∃ it', visit hb fuel it = some ((membersFrom hb m).map fun x => ((x <<< hb.granularity : Nat) : Int),
        it') ∧ hbitmapIterNext hb it' = some (-1, it') := by
  induction fuel generalizing it m with
  | zero => omega
  | succ fuel ih =>
    rcases hbitmapIterNext_spec hwf hbefore with
      ⟨hrun, hend⟩ | ⟨it', item, hrun, hmem, hm, hbefore', hleast⟩
    · refine ⟨it, ?_, hrun⟩
      rw [visit, hrun, membersFrom_nil hend]
      rfl
    · rw [membersFrom_cons hwf hmem hm hleast] at hfuel ⊢
      obtain ⟨it'', hvisit, hdone⟩ := ih hbefore' (by rw [List.length_cons] at hfuel; omega)
      refine ⟨it'', ?_, hdone⟩
      have hlt : item <<< hb.granularity < 2 ^ 63 := by
        refine lt_of_lt_of_le ?_ hsize
        rw [Nat.shiftLeft_eq, Nat.shiftLeft_eq]
        exact Nat.mul_lt_mul_of_pos_right (hwf.inside item hmem) (by positivity)
      have hne : ((item <<< hb.granularity : Nat) : Int) ≠ -1 :=
        fun hneg => absurd (Int.natCast_nonneg (item <<< hb.granularity)) (by rw [hneg]; decide)
      rw [visit, hrun, bmod_of_lt hlt]
      simp only [bind_eq_bind, bind_some, if_neg hne, hvisit, List.map_cons]

/-- The number of members from `a` on, before `b`. -/
def numBetween (hb : HBitmap h) (a b : Nat) : Nat :=
  ((Finset.Ico a b).filter fun x => bitAt (hb.levels h.last) x = true).card

theorem numBetween_split (hb : HBitmap h) {a b c : Nat} (hab : a ≤ b) (hbc : b ≤ c) :
    numBetween hb a c = numBetween hb a b + numBetween hb b c := by
  rw [numBetween, numBetween, numBetween, ← card_union_of_disjoint]
  · rw [← filter_union, Finset.Ico_union_Ico_eq_Ico hab hbc]
  · exact disjoint_filter_filter (Finset.Ico_disjoint_Ico_consecutive a b c)

theorem numBetween_zero {a b : Nat}
    (hnone : ∀ x, bitAt (hb.levels h.last) x = true → a ≤ x → ¬ x < b) : numBetween hb a b = 0 := by
  rw [numBetween, card_eq_zero, filter_eq_empty_iff]
  intro x hx hbit
  rw [mem_Ico] at hx
  exact hnone x hbit hx.1 hx.2

/-- The bits of a word that stand for the members of a range of numbers. -/
theorem cpop_word {word : Word h} {c m k : Nat} (hk : k ≤ h.bitsPerLong) (hc : c ≤ m)
    (hword : ∀ b < h.bitsPerLong, word.getLsbD b =
      (bitAt (hb.levels h.last) (c + b) && decide (m ≤ c + b) && decide (b < k))) :
    word.cpop.toNat = numBetween hb m (c + k) := by
  rw [cpop_eq, numBetween]
  refine card_bij (fun b _ => c + b) ?_ ?_ ?_
  · intro b hb'
    rw [mem_filter, mem_range] at hb'
    obtain ⟨hlt, hbit⟩ := hb'
    rw [hword b hlt, and_eq_true, and_eq_true, decide_eq_true_eq, decide_eq_true_eq] at hbit
    rw [mem_filter, mem_Ico]
    exact ⟨⟨hbit.1.2, by omega⟩, hbit.1.1⟩
  · intro a _ b _ hab
    omega
  · intro x hx
    rw [mem_filter, mem_Ico] at hx
    have hsum : c + (x - c) = x := by omega
    refine ⟨x - c, ?_, hsum⟩
    rw [mem_filter, mem_range]
    refine ⟨by omega, ?_⟩
    rw [hword _ (by omega), hsum, hx.2, decide_eq_true hx.1.1, decide_eq_true (by omega)]
    rfl

theorem countLoop_spec (hwf : Wf hb) (stop fuel : Nat) {it : Iter h} {m : Nat} (hbefore : Before hb it m)
    (count : Nat) (hfuel : stop / h.bitsPerLong + 1 < fuel + m / h.bitsPerLong ∧ 0 < fuel) :
    countLoop hb stop fuel it count = some (count + numBetween hb m stop) := by
  have hw := bitsPerLong_pos h
  induction fuel generalizing it m count with
  | zero => omega
  | succ fuel ih =>
    rcases hbitmapIterNextWord_spec hwf hbefore with
      ⟨hrun, hend⟩ | ⟨it', word, m', hrun, hbefore', hlow, hhigh, hle, hpos, hleft, hword⟩
    · rw [countLoop, hrun, numBetween_zero fun x hx hm => absurd hm (hend x hx)]
      rfl
    · -- No member is lost between the old position and the word.
      have hsplit : numBetween hb m stop = numBetween hb m' stop := by
        by_cases hms : m' ≤ stop
        · rw [numBetween_split hb hle hms, numBetween_zero fun x hx hm => not_lt.mpr (hleft x hx hm),
            Nat.zero_add]
        · rw [numBetween_zero fun x hx hm => not_lt.mpr ((not_le.mp hms).le.trans (hleft x hx hm)),
            numBetween_zero fun x hx hm => not_lt.mpr ((not_le.mp hms).le.trans hm)]
      rw [countLoop, hrun, hsplit]
      simp only [bind_eq_bind, bind_some]
      by_cases hless : it'.pos < stop / h.bitsPerLong
      · have hend := (Nat.le_div_iff_mul_le hw).mp (Nat.succ_le_of_lt hless)
        rw [Nat.succ_mul] at hend
        have hnext : (it'.pos * h.bitsPerLong + h.bitsPerLong) / h.bitsPerLong = it'.pos + 1 := by
          rw [Nat.add_div_right _ hw, Nat.mul_div_cancel _ hw]
        have hcpop := @cpop_word h hb word (it'.pos * h.bitsPerLong) m' h.bitsPerLong (le_refl _) hlow
          fun b hb => by rw [hword b hb, decide_eq_true hb, Bool.and_true]
        rw [if_pos hless, ih hbefore' _ (by rw [hnext]; omega), numBetween_split hb hhigh hend, hcpop,
          Nat.add_assoc]
      · rw [if_neg hless]
        have hdiv := Nat.div_add_mod' stop h.bitsPerLong
        have hmod := Nat.mod_lt stop hw
        by_cases hsame : it'.pos = stop / h.bitsPerLong
        · rw [← hsame] at hdiv
          have hcpop := @cpop_word h hb (word &&& ((1#_ <<< (stop % h.bitsPerLong)) - 1#_))
            (it'.pos * h.bitsPerLong) m' (stop % h.bitsPerLong) hmod.le hlow fun b hb => by
              rw [getLsbD_and, hword b hb, getLsbD_low, decide_eq_true hb, Bool.true_and]
          rw [if_pos hsame, hcpop, hdiv]
        · have hbehind := Nat.mul_le_mul_right h.bitsPerLong
            (Nat.succ_le_of_lt (lt_of_le_of_ne (not_lt.mp hless) fun heq => hsame heq.symm))
          rw [Nat.succ_mul] at hbehind
          rw [if_neg hsame, numBetween_zero fun x _ hm => by omega]
          rfl

theorem hbCountBetween_spec (hwf : Wf hb) {start last : Nat} (hstart : start < hb.size) :
    hbCountBetween hb start last = some (numBetween hb start (last + 1)) := by
  have hback : (start <<< hb.granularity) >>> hb.granularity = start := Nat.shiftLeft_shiftRight _ _
  obtain ⟨it, hinit, hbefore⟩ := @hbitmapIterInit_spec h hb hwf (start <<< hb.granularity)
    (hback.symm ▸ hstart)
  rw [hback] at hbefore
  rw [hbCountBetween, hinit]
  exact (countLoop_spec hwf _ _ hbefore 0 ⟨Nat.lt_add_right _ (Nat.lt_succ_self _), Nat.succ_pos _⟩).trans
    (by rw [Nat.zero_add])

end TcgArm.HBitmaps
