import Mathlib.Tactic

/-! Signed LEB128 for machine integers of any width: seven bits a byte, the lowest first, the top
bit of a byte set when another one follows, and the second highest bit of the last byte giving the
sign. Loops that have not ended when their fuel is gone, and reads past the last byte, have no
result. -/

namespace Sleb128

open BitVec

variable {w : Nat}

def encodeLoop : Nat → BitVec w → Option (List (BitVec 8))
  | 0, _ => none
  | fuel + 1, val =>
    let byte := val.setWidth 8 &&& 0x7f#8
    let val := val.sshiftRight 7
    if val = 0 ∧ byte &&& 0x40#8 = 0 ∨ val = -1 ∧ byte &&& 0x40#8 ≠ 0 then some [byte]
    else ((byte ||| 0x80#8) :: ·) <$> encodeLoop fuel val

def encode (val : BitVec w) : Option (List (BitVec 8)) := encodeLoop (w / 7 + 1) val

def decodeLoop (val : BitVec w) (shift : Nat) : List (BitVec 8) →
    Option (BitVec w × List (BitVec 8))
  | [] => none
  | byte :: rest =>
    let val := val ||| (byte &&& 0x7f#8).setWidth w <<< shift
    let shift := shift + 7
    if byte &&& 0x80#8 ≠ 0 then decodeLoop val shift rest
    else if shift < w ∧ byte &&& 0x40#8 ≠ 0 then some (val ||| (-1 : BitVec w) <<< shift, rest)
    else some (val, rest)

def decode (bytes : List (BitVec 8)) : Option (BitVec w × List (BitVec 8)) := decodeLoop 0 0 bytes

/-- Bit `i` of a value whose sign goes on for ever. -/
def signBit (val : BitVec w) (i : Nat) : Bool := if i < w then val.getLsbD i else val.msb

theorem signBit_sshiftRight (val : BitVec w) (s i : Nat) :
    signBit (val.sshiftRight s) i = signBit val (s + i) := by
  simp only [signBit, getLsbD_sshiftRight, msb_sshiftRight]
  by_cases hi : i < w
  · simp [hi]
  · have hsum : ¬ s + i < w := by omega
    simp [hi, hsum]

theorem eq_fill_iff (hw : 0 < w) (val : BitVec w) (b : Bool) :
    val = (if b then -1 else 0) ↔ ∀ i, signBit val i = b := by
  constructor
  · rintro rfl i
    cases b <;> simp [signBit, msb_eq_getLsbD_last, neg_one_eq_allOnes]
    omega
  · intro h
    apply eq_of_getLsbD_eq
    intro i hi
    have hbit := h i
    rw [signBit, if_pos hi] at hbit
    rw [hbit]
    cases b <;> simp [neg_one_eq_allOnes, hi]

theorem and_sign_ne_zero (byte : BitVec 8) : byte &&& 0x40#8 ≠ 0 ↔ byte.getLsbD 6 = true := by
  revert byte
  decide

theorem and_more_ne_zero (byte : BitVec 8) : byte &&& 0x80#8 ≠ 0 ↔ byte.getLsbD 7 = true := by
  revert byte
  decide

theorem getLsbD_byte (hw : 7 ≤ w) (val : BitVec w) (i : Nat) :
    (val.setWidth 8 &&& 0x7f#8).getLsbD i = (decide (i < 7) && signBit val i) := by
  have hmask : (0x7f#8).getLsbD i = decide (i < 7) := by
    by_cases hi : i < 8
    · interval_cases i <;> rfl
    · rw [getLsbD_of_ge _ _ (by omega), decide_eq_false (by omega)]
  rw [getLsbD_and, hmask, getLsbD_setWidth]
  by_cases hi : i < 7
  · have hiw : i < w := by omega
    have hi8 : i < 8 := by omega
    simp [hi, hi8, signBit, hiw]
  · simp [hi]

/-- The encoder stops when all the bits that are left are the sign bit of the byte. -/
theorem stops_iff (hw : 7 ≤ w) (val : BitVec w) :
    (val.sshiftRight 7 = 0 ∧ (val.setWidth 8 &&& 0x7f#8) &&& 0x40#8 = 0 ∨
      val.sshiftRight 7 = -1 ∧ (val.setWidth 8 &&& 0x7f#8) &&& 0x40#8 ≠ 0) ↔
      ∀ i, 7 ≤ i → signBit val i = signBit val 6 := by
  have hsign : (val.setWidth 8 &&& 0x7f#8) &&& 0x40#8 ≠ 0 ↔ signBit val 6 = true := by
    rw [and_sign_ne_zero, getLsbD_byte hw]
    simp
  have hzero : (val.setWidth 8 &&& 0x7f#8) &&& 0x40#8 = 0 ↔ signBit val 6 = false := by
    rw [← not_iff_not, ← ne_eq, hsign, Bool.not_eq_false]
  have hfill : ∀ b, (val.sshiftRight 7 = if b then -1 else 0) ↔ ∀ i, 7 ≤ i → signBit val i = b := by
    intro b
    rw [eq_fill_iff (by omega)]
    constructor
    · intro h i hi
      obtain ⟨j, rfl⟩ := Nat.exists_eq_add_of_le hi
      rw [← signBit_sshiftRight, h]
    · intro h i
      rw [signBit_sshiftRight, h _ (by omega)]
  have hfalse := hfill false
  have htrue := hfill true
  simp only [Bool.false_eq_true, if_false, if_true] at hfalse htrue
  rw [hsign, hzero, hfalse, htrue]
  cases signBit val 6 <;> simp

theorem encodeLoop_isSome (hw : 7 ≤ w) (fuel : Nat) (val : BitVec w)
    (h : ∀ i, 7 * (fuel + 1) ≤ i + 1 → signBit val i = val.msb) :
    (encodeLoop (fuel + 1) val).isSome := by
  induction fuel generalizing val with
  | zero =>
    have hstop : ∀ i, 7 ≤ i → signBit val i = signBit val 6 := fun i hi => by
      rw [h i (by omega), h 6 (by omega)]
    rw [encodeLoop, if_pos ((stops_iff hw val).mpr hstop)]
    rfl
  | succ fuel ih =>
    rw [encodeLoop]
    split_ifs with hstop
    · rfl
    · rw [Option.map_eq_map, Option.isSome_map]
      refine ih _ fun i hi => ?_
      rw [signBit_sshiftRight, msb_sshiftRight]
      exact h _ (by omega)

theorem encode_isSome (hw : 7 ≤ w) (val : BitVec w) : (encode val).isSome := by
  refine encodeLoop_isSome hw _ val fun i hi => ?_
  rw [signBit, msb_eq_getLsbD_last]
  split_ifs with hiw
  · rw [show i = w - 1 by omega]
  · rfl

def ReadUpTo (acc val : BitVec w) (shift : Nat) : Prop :=
  ∀ i < w, acc.getLsbD i = (decide (i < shift) && val.getLsbD i)

variable {acc val : BitVec w} {shift : Nat}

theorem ReadUpTo.byte (hw : 7 ≤ w) (byte : BitVec 8) (h : ReadUpTo acc val shift)
    (hbyte : byte &&& 0x7f#8 = (val.sshiftRight shift).setWidth 8 &&& 0x7f#8) :
    ReadUpTo (acc ||| (byte &&& 0x7f#8).setWidth w <<< shift) val (shift + 7) := by
  intro i hi
  rw [getLsbD_or, h i hi, hbyte, getLsbD_shiftLeft, getLsbD_setWidth, getLsbD_byte hw, signBit_sshiftRight]
  by_cases hlow : i < shift
  · simp [hlow, show i < shift + 7 by omega]
  · have hback : shift + (i - shift) = i := by omega
    have hrange : i - shift < 7 ↔ i < shift + 7 := by omega
    simp [hlow, hback, hrange, hi, signBit, show i - shift < w by omega]

/-- The last byte gives all the bits after it. -/
theorem ReadUpTo.finish {acc val : BitVec w} {shift : Nat} {b : Bool} (h : ReadUpTo acc val shift)
    (hsign : ∀ i, shift ≤ i → signBit val i = b) :
    (if shift < w ∧ b = true then acc ||| (-1 : BitVec w) <<< shift else acc) = val := by
  apply eq_of_getLsbD_eq
  intro i hi
  have hbit : shift ≤ i → val.getLsbD i = b := fun hle => by
    have := hsign i hle
    rwa [signBit, if_pos hi] at this
  by_cases hlow : i < shift
  · split_ifs <;> simp [h i hi, hlow]
  · have hval := hbit (Nat.le_of_not_lt hlow)
    have hshift : shift < w := by omega
    cases b with
    | false => simp [h i hi, hlow, hval]
    | true => simp [hlow, hval, hshift, neg_one_eq_allOnes, hi]

variable {rest bytes : List (BitVec 8)} {byte : BitVec 8}

theorem decodeLoop_more (h : byte.getLsbD 7 = true) :
    decodeLoop acc shift (byte :: rest) =
      decodeLoop (acc ||| (byte &&& 0x7f#8).setWidth w <<< shift) (shift + 7) rest := by
  rw [decodeLoop, if_pos ((and_more_ne_zero byte).mpr h)]

theorem decodeLoop_last (h : byte.getLsbD 7 = false) :
    decodeLoop acc shift (byte :: rest) = some (if shift + 7 < w ∧ byte.getLsbD 6 = true then
        (acc ||| (byte &&& 0x7f#8).setWidth w <<< shift) ||| (-1 : BitVec w) <<< (shift + 7)
        else acc ||| (byte &&& 0x7f#8).setWidth w <<< shift, rest) := by
  have hmore : ¬ byte &&& 0x80#8 ≠ 0 := by rw [and_more_ne_zero, h]; decide
  rw [decodeLoop, if_neg hmore]
  simp only [and_sign_ne_zero]
  split_ifs <;> rfl

theorem decodeLoop_encodeLoop (hw : 7 ≤ w) {fuel : Nat} (rest : List (BitVec 8))
    (hacc : ReadUpTo acc val shift) (h : encodeLoop fuel (val.sshiftRight shift) = some bytes) :
    decodeLoop acc shift (bytes ++ rest) = some (val, rest) := by
  induction fuel generalizing shift acc bytes with
  | zero => cases h
  | succ fuel ih =>
    rw [encodeLoop] at h
    have hbits := getLsbD_byte hw (val.sshiftRight shift)
    split_ifs at h with hstop
    · cases h
      rw [stops_iff hw] at hstop
      have hread := hacc.byte hw ((val.sshiftRight shift).setWidth 8 &&& 0x7f#8)
        (by rw [BitVec.and_assoc, BitVec.and_self])
      rw [List.singleton_append, decodeLoop_last (by rw [hbits]; rfl), hbits]
      have hsign : ∀ i, shift + 7 ≤ i → signBit val i = signBit val (shift + 6) := by
        intro i hi
        have heq := hstop (i - shift) (by omega)
        rwa [signBit_sshiftRight, signBit_sshiftRight, Nat.add_sub_cancel' (by omega)] at heq
      rw [signBit_sshiftRight]
      simpa using hread.finish hsign
    · obtain ⟨tail, htail, rfl⟩ := Option.map_eq_some_iff.mp h
      have hmask : ∀ byte : BitVec 8, (byte &&& 0x7f#8 ||| 0x80#8) &&& 0x7f#8 = byte &&& 0x7f#8 := by decide
      rw [List.cons_append, decodeLoop_more (by simp)]
      refine ih (hacc.byte hw _ (hmask _)) ?_
      rwa [sshiftRight_add]

theorem decode_encode (hw : 7 ≤ w) (rest : List (BitVec 8)) (h : encode val = some bytes) :
    decode (bytes ++ rest) = some (val, rest) := by
  have hloop : encodeLoop (w / 7 + 1) (val.sshiftRight 0) = some bytes := by
    rwa [sshiftRight_zero]
  exact decodeLoop_encodeLoop hw rest (fun i _ => by simp) hloop

end Sleb128
