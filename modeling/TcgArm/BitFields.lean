import Mathlib.Tactic

/-! Words that are put together from bit fields by shifts and disjunctions, and read back by masks or
as ranges of bits. -/

namespace TcgArm

open BitVec Nat

/-- `x << s`, for a field `x` of a word. -/
def placed {k : Nat} (x : BitVec k) (s : Nat) : BitVec 32 := x.setWidth 32 <<< s

variable {k : Nat}

theorem getLsbD_placed (x : BitVec k) (s i : Nat) :
    (placed x s).getLsbD i = (decide (i < 32) && decide (s ≤ i) && x.getLsbD (i - s)) := by
  rw [placed, getLsbD_shiftLeft, getLsbD_setWidth]
  by_cases hi : i < 32
  · by_cases hs : s ≤ i
    · have hsub : i - s < 32 := by omega
      have hnot : ¬ i < s := by omega
      simp [hi, hs, hsub, hnot]
    · have hlt : i < s := by omega
      simp [hs, hlt]
  · simp [hi]

theorem extract_placed (x : BitVec k) {s : Nat} (h : s + k ≤ 32) :
    (placed x s).extractLsb' s k = x := by
  apply eq_of_getLsbD_eq
  intro i hi
  rw [getLsbD_extractLsb', getLsbD_placed]
  have hin : s + i < 32 := by omega
  simp [hi, hin]

theorem extract_elsewhere (x : BitVec k) {s lo len : Nat}
    (h : s + k ≤ lo ∨ lo + len ≤ s) : (placed x s).extractLsb' lo len = 0 := by
  apply eq_of_getLsbD_eq
  intro i hi
  rw [getLsbD_extractLsb', getLsbD_placed]
  rcases h with h | h
  · simp [getLsbD_of_ge x (lo + i - s) (by omega)]
  · have hnot : ¬ s ≤ lo + i := by omega
    simp [hnot]

theorem placed_append {j k : Nat} (x : BitVec j) (y : BitVec k) (s : Nat) :
    placed (x ++ y) s = placed x (k + s) ||| placed y s := by
  apply eq_of_getLsbD_eq
  intro i hi
  rw [getLsbD_or, getLsbD_placed, getLsbD_placed, getLsbD_placed, getLsbD_append]
  by_cases hs : s ≤ i
  · by_cases hk : i - s < k
    · have hnot : ¬ k + s ≤ i := by omega
      simp [hi, hs, hk, hnot]
    · have hle : k + s ≤ i := by omega
      have hsub : i - s - k = i - (k + s) := by omega
      simp [hi, hs, hk, hle, hsub, getLsbD_of_ge y (i - s) (by omega)]
  · have hnot : ¬ k + s ≤ i := by omega
    simp [hs, hnot]

theorem getLsbD_fieldMask {lo len : Nat} (h : lo + len ≤ 32) (i : Nat) :
    (BitVec.ofNat 32 ((2 ^ len - 1) <<< lo)).getLsbD i = (decide (lo ≤ i) && decide (i < lo + len)) := by
  rw [getLsbD_ofNat, testBit_shiftLeft, testBit_two_pow_sub_one]
  by_cases hlo : lo ≤ i
  · by_cases hhi : i < lo + len
    · have hin : i < 32 := by omega
      have hsub : i - lo < len := by omega
      simp [hlo, hhi, hin, hsub]
    · have hsub : ¬ i - lo < len := by omega
      simp [hhi, hsub]
  · simp [hlo]

theorem and_fieldMask (x : BitVec 32) {lo len : Nat} (h : lo + len ≤ 32) :
    x &&& BitVec.ofNat 32 ((2 ^ len - 1) <<< lo) = placed (x.extractLsb' lo len) lo := by
  apply eq_of_getLsbD_eq
  intro i hi
  rw [getLsbD_and, getLsbD_fieldMask h, getLsbD_placed, getLsbD_extractLsb']
  by_cases hlo : lo ≤ i
  · by_cases hhi : i < lo + len
    · have hsub : i - lo < len := by omega
      have hadd : lo + (i - lo) = i := by omega
      simp [hlo, hhi, hi, hsub, hadd]
    · have hsub : ¬ i - lo < len := by omega
      simp [hhi, hsub]
  · simp [hlo]

theorem field_shifted (x : BitVec 32) {lo len : Nat} (h : lo + len ≤ 32) :
    (x &&& BitVec.ofNat 32 ((2 ^ len - 1) <<< lo)) >>> lo = (x.extractLsb' lo len).setWidth 32 := by
  rw [and_fieldMask x h]
  apply eq_of_getLsbD_eq
  intro i hi
  rw [getLsbD_ushiftRight, getLsbD_placed, getLsbD_setWidth]
  by_cases hlen : i < len
  · have hin : lo + i < 32 := by omega
    simp [hi, hin]
  · simp [hlen]

theorem shiftLeft_of_lt {x : BitVec 32} {k : Nat} (h : x.toNat < 2 ^ k) (s : Nat) :
    x <<< s = placed (x.setWidth k) s := by
  have hback : (x.setWidth k).setWidth 32 = x := by
    apply eq_of_toNat_eq
    rw [toNat_setWidth, toNat_setWidth, mod_eq_of_lt h, mod_eq_of_lt x.isLt]
  rw [placed, hback]

end TcgArm
