import TcgArm.HalfMachine

/-! The halves of the results of 64-bit operations, from the halves of their operands. -/

namespace TcgArm.Half

open Tcg BitVec List Nat
open BitVec (ofNat)

variable (x y : BitVec 64) (h l h1 l1 h2 l2 : BitVec 32)

theorem getLsbD_join (i : Nat) : getLsbD (h ++ l : BitVec 64) i =
    if i < 32 then l.getLsbD i else h.getLsbD (i - 32) :=
  (getLsbD_append (x := h) (y := l)).trans (by by_cases hi : i < 32 <;> simp [hi])

theorem getLsbD_lowHalf {i : Nat} (hi : i < 32) : (lowHalf x).getLsbD i = x.getLsbD i := by
  rw [lowHalf, getLsbD_extractLsb', Nat.zero_add]
  simp [hi]

theorem getLsbD_highHalf {i : Nat} (hi : i < 32) : (highHalf x).getLsbD i = x.getLsbD (32 + i) := by
  rw [highHalf, getLsbD_extractLsb']
  simp [hi]

@[simp] theorem lowHalf_append : lowHalf (h ++ l) = l := by
  apply eq_of_getLsbD_eq
  intro i hi
  rw [getLsbD_lowHalf _ hi, getLsbD_join, if_pos hi]

@[simp] theorem highHalf_append : highHalf (h ++ l) = h := by
  apply eq_of_getLsbD_eq
  intro i hi
  rw [getLsbD_highHalf _ hi, getLsbD_join, if_neg (by omega), Nat.add_sub_cancel_left]

theorem highHalf_append_lowHalf : highHalf x ++ lowHalf x = x := by
  apply eq_of_getLsbD_eq
  intro i hi
  rw [getLsbD_join]
  split_ifs with h32
  · exact getLsbD_lowHalf x h32
  · rw [getLsbD_highHalf x (by omega), Nat.add_sub_cancel' (by omega)]

theorem eq_of_halves (hl : lowHalf x = lowHalf y) (hh : highHalf x = highHalf y) : x = y := by
  rw [← highHalf_append_lowHalf x, ← highHalf_append_lowHalf y, hl, hh]

theorem toNat_join : BitVec.toNat (h ++ l : BitVec 64) = h.toNat * 2 ^ 32 + l.toNat := by
  refine (toNat_append h l).trans ?_
  rw [← Nat.shiftLeft_add_eq_or_of_lt l.isLt, Nat.shiftLeft_eq]

/-- The bitwise operations. -/
inductive Logic where
  | and
  | or
  | xor
  | andc
  | orc
  | eqv
  | nand
  | nor
  deriving DecidableEq, Repr

def Logic.eval {n : Nat} : Logic → BitVec n → BitVec n → BitVec n
  | .and, x, y => x &&& y
  | .or, x, y => x ||| y
  | .xor, x, y => x ^^^ y
  | .andc, x, y => x &&& ~~~ y
  | .orc, x, y => x ||| ~~~ y
  | .eqv, x, y => ~~~ (x ^^^ y)
  | .nand, x, y => ~~~ (x &&& y)
  | .nor, x, y => ~~~ (x ||| y)

theorem not_join : ~~~ (h ++ l : BitVec 64) = ~~~ h ++ ~~~ l := not_append

theorem and_join : (h1 ++ l1 : BitVec 64) &&& (h2 ++ l2 : BitVec 64) = (h1 &&& h2) ++ (l1 &&& l2) :=
  and_append

theorem or_join : (h1 ++ l1 : BitVec 64) ||| (h2 ++ l2 : BitVec 64) = (h1 ||| h2) ++ (l1 ||| l2) := or_append

theorem xor_join : (h1 ++ l1 : BitVec 64) ^^^ (h2 ++ l2 : BitVec 64) = (h1 ^^^ h2) ++ (l1 ^^^ l2) :=
  xor_append

theorem Logic.eval_join (f : Logic) :
    f.eval (h1 ++ l1 : BitVec 64) (h2 ++ l2 : BitVec 64) = f.eval h1 h2 ++ f.eval l1 l2 := by
  cases f <;> simp only [Logic.eval, not_join, and_join, or_join, xor_join]

theorem mul_mod_join (A a B b : Nat) :
    (A * 2 ^ 32 + a) * (B * 2 ^ 32 + b) % 2 ^ 64 =
      (a * b / 2 ^ 32 + a * B + A * b) % 2 ^ 32 * 2 ^ 32 + a * b % 2 ^ 32 := by
  have hexp : (A * 2 ^ 32 + a) * (B * 2 ^ 32 + b) =
      (A * b + a * B) * 2 ^ 32 + a * b + A * B * 2 ^ 64 := by ring
  rw [hexp, add_mul_mod_self_right]
  generalize a * b = p
  generalize A * b = q
  generalize a * B = r
  omega

theorem toNat_highHalf_mul :
    (highHalf (l1.setWidth 64 * l2.setWidth 64)).toNat = l1.toNat * l2.toNat / 2 ^ 32 := by
  have hlt : l1.toNat * l2.toNat < 2 ^ 64 := by
    calc l1.toNat * l2.toNat < 2 ^ 32 * 2 ^ 32 := Nat.mul_lt_mul'' l1.isLt l2.isLt
      _ = 2 ^ 64 := by norm_num
  have e1 : l1.toNat % 2 ^ 64 = l1.toNat := mod_eq_of_lt (by have := l1.isLt; omega)
  have e2 : l2.toNat % 2 ^ 64 = l2.toNat := mod_eq_of_lt (by have := l2.isLt; omega)
  rw [highHalf, extractLsb'_toNat, toNat_mul, toNat_setWidth,
    toNat_setWidth, e1, e2, mod_eq_of_lt hlt, shiftRight_eq_div_pow]
  exact mod_eq_of_lt (by omega)

theorem lowHalf_mul : lowHalf (l1.setWidth 64 * l2.setWidth 64) = l1 * l2 := by
  apply eq_of_toNat_eq
  rw [lowHalf, extractLsb'_toNat, shiftRight_zero, toNat_mul, toNat_mul,
    toNat_setWidth, toNat_setWidth, ← mul_mod]
  exact mod_mod_of_dvd _ (by norm_num)

theorem mul_join : (h1 ++ l1 : BitVec 64) * (h2 ++ l2 : BitVec 64) =
    (highHalf (l1.setWidth 64 * l2.setWidth 64) + l1 * h2 + h1 * l2) ++ (l1 * l2) := by
  apply eq_of_toNat_eq
  rw [toNat_mul, toNat_join, toNat_join, toNat_join, mul_mod_join]
  simp only [toNat_add, toNat_mul, toNat_highHalf_mul, add_mod_mod, mod_add_mod]

theorem join_zero : (0#32 ++ l : BitVec 64) = l.setWidth 64 := by
  apply eq_of_getLsbD_eq
  intro i hi
  rw [getLsbD_join, getLsbD_setWidth]
  split_ifs with h32
  · simp [hi]
  · simp [getLsbD_of_ge l i (by omega)]

theorem join_sign : (l.sshiftRight 31 ++ l : BitVec 64) = l.signExtend 64 := by
  apply eq_of_getLsbD_eq
  intro i hi
  rw [getLsbD_join, getLsbD_signExtend]
  split_ifs with h32
  · simp [hi]
  · rw [getLsbD_sshiftRight]
    by_cases h33 : i = 32
    · subst h33
      simp [msb_eq_getLsbD_last]
    · simp [hi, show ¬ 31 + (i - 32) < 32 by omega, show ¬ 32 ≤ i - 32 by omega]

variable {c : Nat}

theorem ushiftRight_join_of_lt (hc0 : 0 < c) (hc : c < 32) :
    (h ++ l : BitVec 64) >>> c = (h >>> c) ++ (l >>> c ||| h <<< (32 - c)) := by
  apply eq_of_getLsbD_eq
  intro i hi
  simp only [getLsbD_ushiftRight, getLsbD_join, getLsbD_or, getLsbD_shiftLeft]
  grind

theorem sshiftRight_join_of_lt (hc0 : 0 < c) (hc : c < 32) :
    (h ++ l : BitVec 64).sshiftRight c = (h.sshiftRight c) ++ (l >>> c ||| h <<< (32 - c)) := by
  apply eq_of_getLsbD_eq
  intro i hi
  simp only [getLsbD_sshiftRight, msb_eq_getLsbD_last, getLsbD_ushiftRight,
    getLsbD_join, getLsbD_or, getLsbD_shiftLeft]
  grind

theorem shiftLeft_join_of_lt (hc0 : 0 < c) (hc : c < 32) :
    (h ++ l : BitVec 64) <<< c = (h <<< c ||| l >>> (32 - c)) ++ (l <<< c) := by
  apply eq_of_getLsbD_eq
  intro i hi
  simp only [getLsbD_ushiftRight, getLsbD_join, getLsbD_or, getLsbD_shiftLeft]
  grind

theorem ushiftRight_join_of_ge (hc : 32 ≤ c) : (h ++ l : BitVec 64) >>> c = 0#32 ++ (h >>> (c - 32)) := by
  apply eq_of_getLsbD_eq
  intro i hi
  simp only [getLsbD_ushiftRight, getLsbD_join]
  grind

theorem sshiftRight_join_of_ge (hc : 32 ≤ c) :
    (h ++ l : BitVec 64).sshiftRight c = (h.sshiftRight 31) ++ (h.sshiftRight (c - 32)) := by
  apply eq_of_getLsbD_eq
  intro i hi
  simp only [getLsbD_sshiftRight, msb_eq_getLsbD_last, getLsbD_join]
  grind

theorem shiftLeft_join_of_ge (hc : 32 ≤ c) : (h ++ l : BitVec 64) <<< c = (l <<< (c - 32)) ++ 0#32 := by
  apply eq_of_getLsbD_eq
  intro i hi
  simp only [getLsbD_join, getLsbD_shiftLeft]
  grind

variable {ofs len : Nat}

theorem evalDeposit_join_high (hofs : 32 ≤ ofs) (h64 : ofs + len ≤ 64) :
    evalDeposit ofs len (h1 ++ l1 : BitVec 64) (h2 ++ l2 : BitVec 64) =
      evalDeposit (ofs - 32) len h1 l2 ++ l1 := by
  apply eq_of_getLsbD_eq
  intro i hi
  rw [getLsbD_evalDeposit h64 _ _ hi, getLsbD_join, getLsbD_join, getLsbD_join]
  by_cases h32 : i < 32
  · rw [if_neg (by omega), if_pos h32, if_pos h32]
  · rw [if_neg h32, if_neg h32, getLsbD_evalDeposit (by omega) _ _ (by omega)]
    grind

theorem evalDeposit_join_low (h32 : ofs + len ≤ 32) :
    evalDeposit ofs len (h1 ++ l1 : BitVec 64) (h2 ++ l2 : BitVec 64) = h1 ++ evalDeposit ofs len l1 l2 := by
  apply eq_of_getLsbD_eq
  intro i hi
  rw [getLsbD_evalDeposit (by omega) _ _ hi, getLsbD_join, getLsbD_join, getLsbD_join]
  by_cases hlow : i < 32
  · rw [if_pos hlow, if_pos hlow, getLsbD_evalDeposit h32 _ _ hlow]
    grind
  · rw [if_neg (by omega), if_neg hlow, if_neg hlow]

section

variable (m : BitVec 32 → BitVec 8)

theorem loadBytes_add (a : BitVec 32) (n k : Nat) :
    loadBytes m a (n + k) = loadBytes m a n ++ loadBytes m (a + ofNat 32 n) k := by
  induction n generalizing a with
  | zero => simp [loadBytes]
  | succ n ih =>
    rw [Nat.succ_add, loadBytes, loadBytes, ih, List.cons_append]
    congr 3
    apply eq_of_toNat_eq
    simp
    omega

theorem storeBytes_append (a : BitVec 32) (xs ys : List (BitVec 8)) :
    storeBytes m a (xs ++ ys) = storeBytes (storeBytes m a xs) (a + ofNat 32 xs.length) ys := by
  induction xs generalizing m a with
  | nil => simp [storeBytes]
  | cons b bs ih =>
    rw [List.cons_append, storeBytes, storeBytes, ih]
    congr 1
    apply eq_of_toNat_eq
    simp
    omega

theorem length_loadBytes (a : BitVec 32) (n : Nat) :
    (loadBytes m a n).length = n := by
  induction n generalizing a with
  | zero => rfl
  | succ n ih => simp [loadBytes, ih]

end

theorem ofBytes_lt (big : Bool) (bs : List (BitVec 8)) : ofBytes big bs < 256 ^ bs.length := by
  have hlen : ((if big then bs.reverse else bs).map BitVec.toNat).length = bs.length := by
    cases big <;> simp
  rw [ofBytes, ← hlen]
  refine ofDigits_lt_base_pow_length (by decide) fun d hd => ?_
  obtain ⟨b, -, rfl⟩ := List.mem_map.mp hd
  exact b.isLt

theorem ofBytes_append (big : Bool) (xs ys : List (BitVec 8)) :
    ofBytes big (xs ++ ys) = if big then ofBytes big ys + 256 ^ ys.length * ofBytes big xs
      else ofBytes big xs + 256 ^ xs.length * ofBytes big ys := by
  cases big <;> simp [ofBytes, ofDigits_append]

theorem ofNat_join {a b : Nat} (ha : a < 2 ^ 32) :
    ofNat 64 (a + 2 ^ 32 * b) = ofNat 32 b ++ ofNat 32 a := by
  apply eq_of_toNat_eq
  rw [toNat_join, toNat_ofNat, toNat_ofNat, toNat_ofNat]
  omega

theorem toBytes_join (big : Bool) (h l : BitVec 32) :
    toBytes big 8 (h ++ l : BitVec 64) =
      if big then toBytes big 4 h ++ toBytes big 4 l else toBytes big 4 l ++ toBytes big 4 h := by
  have hlow : ∀ i < 4, extractLsb' (8 * i) 8 (h ++ l : BitVec 64) = l.extractLsb' (8 * i) 8 := by
    intro i hi
    apply eq_of_getLsbD_eq
    intro j hj
    rw [getLsbD_extractLsb', getLsbD_extractLsb', getLsbD_join, if_pos (by omega)]
  have hhigh : ∀ i < 4, extractLsb' (8 * (4 + i)) 8 (h ++ l : BitVec 64) = h.extractLsb' (8 * i) 8 := by
    intro i hi
    apply eq_of_getLsbD_eq
    intro j hj
    rw [getLsbD_extractLsb', getLsbD_extractLsb', getLsbD_join, if_neg (by omega),
      show 8 * (4 + i) + j - 32 = 8 * i + j by omega]
  have hbytes : (range 8).map (fun i => extractLsb' (8 * i) 8 (h ++ l : BitVec 64)) =
      (range 4).map (fun i => l.extractLsb' (8 * i) 8) ++
        (range 4).map (fun i => h.extractLsb' (8 * i) 8) := by
    rw [show (8 : Nat) = 4 + 4 from rfl, range_add, map_append, map_map]
    congr 1
    · exact map_congr_left fun i hi => hlow i (List.mem_range.mp hi)
    · exact map_congr_left fun i hi => hhigh i (List.mem_range.mp hi)
  cases big <;> simp only [toBytes, hbytes, List.reverse_append, if_true, Bool.false_eq_true, if_false]

theorem signExtend_twice {w : Nat} (hw0 : 0 < w) (hw : w ≤ 32) (b : BitVec w) :
    (b.signExtend 32).signExtend 64 = b.signExtend 64 := by
  apply eq_of_getLsbD_eq
  intro i hi
  simp only [getLsbD_signExtend, msb_eq_getLsbD_last]
  grind

theorem setWidth_join {k : Nat} (hk : k ≤ 32) : setWidth k (h ++ l : BitVec 64) = l.setWidth k := by
  apply eq_of_getLsbD_eq
  intro i hi
  rw [getLsbD_setWidth, getLsbD_setWidth, getLsbD_join, if_pos (by omega)]

theorem setWidth_twice {w : Nat} (hw : w ≤ 32) (b : BitVec w) :
    (b.setWidth 32).setWidth 64 = b.setWidth 64 := by
  apply eq_of_getLsbD_eq
  intro i hi
  simp only [getLsbD_setWidth]
  by_cases hlow : i < 32
  · simp [hlow]
  · simp [getLsbD_of_ge b i (by omega)]

theorem join_extendTo {bits : Nat} (h0 : 0 < bits) (h32 : bits ≤ 32) (signed : Bool) (n : Nat) :
    ((if signed then (extendTo 32 bits signed n).sshiftRight 31 else 0#32) ++
      extendTo 32 bits signed n : BitVec 64) = extendTo 64 bits signed n := by
  cases signed with
  | false =>
    rw [if_neg (by simp), join_zero]
    simp only [extendTo, Bool.false_eq_true, if_false]
    exact setWidth_twice h32 _
  | true =>
    rw [if_pos rfl, join_sign]
    simp only [extendTo, if_true]
    exact signExtend_twice h0 h32 _

end TcgArm.Half
