import Mathlib.Tactic
import Mathlib.Data.BitVec
import Mathlib.Data.Finset.Sort

/-! Words as small sets of bits: masks, the lowest bit, the number of bits; and arrays of words as sets
of natural numbers, with the bits of the first word first. -/

namespace TcgArm.BitScan

open Finset Nat
open BitVec (toNat_ofNat getLsbD_of_ge eq_of_getLsbD_eq getLsbD_or getLsbD_and getLsbD_not)

variable {w : Nat}

theorem getLsbD_one_shiftLeft (n b : Nat) : (1#w <<< n).getLsbD b = (decide (b < w) && decide (b = n)) := by
  rw [← BitVec.twoPow_eq, BitVec.getLsbD_twoPow]
  by_cases hn : b = n
  · rw [hn]
  · simp [hn, Ne.symm hn]

/-- The bits below `n`. -/
theorem getLsbD_low (n b : Nat) : ((1#w <<< n) - 1#w).getLsbD b = (decide (b < w) && decide (b < n)) := by
  by_cases hw : b < w
  · by_cases hn : n < w
    · have hval : ((1#w <<< n) - 1#w).toNat = 2 ^ n - 1 := by
        have hone : 1 < 2 ^ w := Nat.one_lt_two_pow (by omega)
        have hpow : 2 ^ n < 2 ^ w := Nat.pow_lt_pow_right (by omega) hn
        have hpos : 0 < 2 ^ n := by positivity
        rw [BitVec.toNat_sub, BitVec.toNat_shiftLeft, toNat_ofNat, mod_eq_of_lt hone,
          one_shiftLeft, mod_eq_of_lt hpow,
          show 2 ^ w - 1 + 2 ^ n = (2 ^ n - 1) + 2 ^ w by omega, add_mod_right,
          mod_eq_of_lt (by omega)]
      rw [BitVec.getLsbD, hval, testBit_two_pow_sub_one]
      simp [hw]
    · have hzero : (1#w <<< n) = 0#w := BitVec.shiftLeft_eq_zero (by omega)
      have hall : 0#w - 1#w = BitVec.allOnes w := by
        rw [BitVec.zero_sub, BitVec.neg_one_eq_allOnes]
      have hbn : b < n := by omega
      rw [hzero, hall, BitVec.getLsbD_allOnes]
      simp [hbn]
  · rw [getLsbD_of_ge _ _ (by omega)]
    simp [hw]

/-- The bits from `s` to `l`. -/
theorem getLsbD_range {s l : Nat} (hsl : s ≤ l) (b : Nat) :
    ((2#w <<< l) - (1#w <<< s)).getLsbD b = (decide (b < w) && decide (s ≤ b ∧ b ≤ l)) := by
  have htwo : (2#w <<< l) = 1#w <<< (l + 1) := by
    have hone : 2#w = 1#w <<< 1 := by
      apply BitVec.eq_of_toNat_eq
      rw [BitVec.toNat_shiftLeft, toNat_ofNat, toNat_ofNat, shiftLeft_eq, mod_mul_mod]
    rw [hone, Nat.add_comm, BitVec.shiftLeft_add]
  have hsplit : (1#w <<< (l + 1)) - 1#w = (((1#w <<< (l + 1)) - 1#w) &&& ~~~ ((1#w <<< s) - 1#w)) +
      ((1#w <<< s) - 1#w) := by
    rw [BitVec.add_eq_or_of_and_eq_zero]
    · apply eq_of_getLsbD_eq
      intro i hi
      rw [getLsbD_or, getLsbD_and, getLsbD_not, getLsbD_low, getLsbD_low]
      by_cases his : i < s
      · have hil : i < l + 1 := by omega
        simp [hi, his, hil]
      · simp [hi, his]
    · rw [BitVec.and_assoc, BitVec.and_comm (~~~ _), BitVec.and_not_self]
      exact BitVec.and_zero
  have hmask : (2#w <<< l) - (1#w <<< s) = ((1#w <<< (l + 1)) - 1#w) &&& ~~~ ((1#w <<< s) - 1#w) := by
    rw [htwo]
    have hback := eq_sub_of_add_eq hsplit.symm
    rw [hback]
    abel
  rw [hmask, getLsbD_and, getLsbD_not, getLsbD_low, getLsbD_low]
  by_cases hb : b < w
  · simp only [hb, decide_true, Bool.true_and]
    by_cases hbs : b < s
    · have hnot : ¬ s ≤ b := by omega
      simp [hbs, hnot]
    · have hle : s ≤ b := by omega
      simp [hbs, hle]
  · simp [hb]

variable {x : BitVec w}

theorem ctz_lt (h : x ≠ 0) : x.ctz.toNat < w :=
  BitVec.lt_of_getLsbD (BitVec.getLsbD_true_ctz_of_ne_zero h)

theorem ctz_le {b : Nat} (h : x.getLsbD b = true) : x.ctz.toNat ≤ b := by
  by_contra hlt
  rw [BitVec.getLsbD_false_of_lt_ctz (by omega)] at h
  exact absurd h (by decide)

theorem eq_zero_iff (x : BitVec w) : x = 0 ↔ ∀ b, x.getLsbD b = false := by
  constructor
  · rintro rfl b
    exact BitVec.getLsbD_zero
  · intro h
    apply eq_of_getLsbD_eq
    intro i _
    rw [h i]
    exact BitVec.getLsbD_zero.symm

theorem ne_zero_iff (x : BitVec w) : x ≠ 0 ↔ ∃ b, x.getLsbD b = true := by
  rw [ne_eq, eq_zero_iff, not_forall]
  simp

/-- `x & (x - 1)` takes the lowest bit away. -/
theorem getLsbD_dropLowest (h : x ≠ 0) (b : Nat) :
    (x &&& (x - 1#w)).getLsbD b = (x.getLsbD b && decide (b ≠ x.ctz.toNat)) := by
  have hbit := BitVec.getLsbD_true_ctz_of_ne_zero h
  have hc := ctz_lt h
  have hbelow : ∀ i, i < x.ctz.toNat → x.getLsbD i = false := fun i hi => BitVec.getLsbD_false_of_lt_ctz hi
  generalize x.ctz.toNat = c at hbit hc hbelow ⊢
  -- `x` is its upper bits and the lowest one, `x - 1` its upper bits and everything below.
  have hupper : x = (x &&& ~~~ (1#w <<< c)) + (1#w <<< c) := by
    rw [BitVec.add_eq_or_of_and_eq_zero]
    · apply eq_of_getLsbD_eq
      intro i hi
      rw [getLsbD_or, getLsbD_and, getLsbD_not, getLsbD_one_shiftLeft]
      by_cases hic : i = c
      · simp [hic, hc, hbit]
      · simp [hi, hic]
    · rw [BitVec.and_assoc, BitVec.and_comm (~~~ _), BitVec.and_not_self]
      exact BitVec.and_zero
  have hlower : x - 1#w = (x &&& ~~~ (1#w <<< c)) ||| ((1#w <<< c) - 1#w) := by
    rw [← BitVec.add_eq_or_of_and_eq_zero]
    · conv_lhs => rw [hupper]
      abel
    · apply eq_of_getLsbD_eq
      intro i hi
      rw [getLsbD_and, getLsbD_and, getLsbD_not, getLsbD_one_shiftLeft, getLsbD_low]
      by_cases hic : i < c
      · simp [hbelow i hic]
      · simp [hic]
  rw [getLsbD_and, hlower, getLsbD_or, getLsbD_and, getLsbD_not,
    getLsbD_one_shiftLeft, getLsbD_low]
  by_cases hb : b < w
  · rcases lt_trichotomy b c with hlt | rfl | hgt
    · simp [hbelow b hlt]
    · simp
    · have hne : b ≠ c := by omega
      have hnot : ¬ b < c := by omega
      simp [hb, hne, hnot]
  · rw [getLsbD_of_ge _ _ (by omega)]
    simp

theorem cpopNatRec_eq (x : BitVec w) (n acc : Nat) :
    x.cpopNatRec n acc = acc + ((range n).filter fun b => x.getLsbD b = true).card := by
  induction n generalizing acc with
  | zero => simp
  | succ n ih =>
    rw [BitVec.cpopNatRec_succ, ih, range_add_one, filter_insert]
    cases hbit : x.getLsbD n with
    | true => simp [Nat.add_assoc, Nat.add_comm]
    | false => simp

theorem cpop_eq (x : BitVec w) :
    x.cpop.toNat = ((range w).filter fun b => x.getLsbD b = true).card := by
  have hle : ((range w).filter fun b => x.getLsbD b = true).card ≤ w := by
    simpa using card_filter_le (range w) fun b => x.getLsbD b = true
  have hlt : w < 2 ^ w := Nat.lt_two_pow_self
  rw [BitVec.cpop, toNat_ofNat, cpopNatRec_eq, Nat.zero_add, mod_eq_of_lt (by omega)]

def wordAt (words : List (BitVec w)) (j : Nat) : BitVec w := words[j]?.getD 0

def bitAt (words : List (BitVec w)) (x : Nat) : Bool := (wordAt words (x / w)).getLsbD (x % w)

variable {words : List (BitVec w)} {j : Nat}

theorem getElem?_wordAt (h : j < words.length) : words[j]? = some (wordAt words j) := by
  rw [wordAt, List.getElem?_eq_getElem h, Option.getD_some]

theorem wordAt_of_le (h : words.length ≤ j) : wordAt words j = 0 := by
  rw [wordAt, List.getElem?_eq_none h, Option.getD_none]

theorem wordAt_set (h : j < words.length) (elem : BitVec w) (i : Nat) :
    wordAt (words.set j elem) i = if i = j then elem else wordAt words i := by
  rw [wordAt, List.getElem?_set]
  by_cases hij : i = j
  · simp [hij, h]
  · rw [if_neg fun h => hij h.symm, if_neg hij, wordAt]

theorem bitAt_mul_add {b : Nat} (hb : b < w) : bitAt words (j * w + b) = (wordAt words j).getLsbD b := by
  have hdiv : (j * w + b) / w = j := by
    rw [Nat.add_comm, add_mul_div_right _ _ (by omega), div_eq_of_lt hb, Nat.zero_add]
  have hmod : (j * w + b) % w = b := by
    rw [Nat.add_comm, add_mul_mod_self_right, mod_eq_of_lt hb]
  rw [bitAt, hdiv, hmod]

theorem wordAt_ne_zero_iff (hw : 0 < w) (words : List (BitVec w)) (j : Nat) :
    wordAt words j ≠ 0 ↔ ∃ x, x / w = j ∧ bitAt words x = true := by
  rw [ne_zero_iff]
  constructor
  · rintro ⟨b, hb⟩
    have hlt : b < w := BitVec.lt_of_getLsbD hb
    refine ⟨j * w + b, ?_, (bitAt_mul_add hlt).trans hb⟩
    rw [Nat.add_comm, add_mul_div_right _ _ hw, div_eq_of_lt hlt, Nat.zero_add]
  · rintro ⟨x, rfl, hx⟩
    exact ⟨x % w, hx⟩

end TcgArm.BitScan
