import Mathlib.Tactic

/-! Memory as bytes at word addresses, with loads and stores of up to eight bytes in either byte
order. Addresses wrap around. -/

namespace ByteMemory

open BitVec Nat
open BitVec (ofNat)

variable {w : Nat}

abbrev Mem (w : Nat) := BitVec w → BitVec 8

/-- The byte at `b` is one of the `k` bytes from `a` on. -/
def Covered (a : BitVec w) (k : Nat) (b : BitVec w) : Prop := (b - a).toNat < k

instance (a : BitVec w) (k : Nat) (b : BitVec w) : Decidable (Covered a k b) :=
  inferInstanceAs (Decidable (_ < _))

/-- Where the byte of weight `i` of a `k`-byte value lies. -/
def position (big : Bool) (k i : Nat) : Nat := if big then k - 1 - i else i

/-- The value whose byte of weight `i` is `f i`, for `i` below `k`. -/
def gather (f : Nat → BitVec 8) : Nat → BitVec 64
  | 0 => 0
  | k + 1 => gather f k ||| (f k).setWidth 64 <<< (8 * k)

def load (big : Bool) (k : Nat) (a : BitVec w) (m : Mem w) : BitVec 64 :=
  gather (fun i => m (a + BitVec.ofNat w (position big k i))) k

def store (big : Bool) (k : Nat) (a : BitVec w) (v : BitVec 64) (m : Mem w) : Mem w :=
  fun b =>
    if Covered a k b then (v >>> (8 * position big k (b - a).toNat)).setWidth 8 else m b

variable {k : Nat} {big : Bool} {a : BitVec w} {m : Mem w}

theorem gather_congr {f g : Nat → BitVec 8} (h : ∀ i < k, f i = g i) : gather f k = gather g k := by
  induction k with
  | zero => rfl
  | succ k ih =>
    rw [gather, gather, ih fun i hi => h i (by omega), h k (by omega)]

theorem getLsbD_gather (f : Nat → BitVec 8) (k j : Nat) :
    (gather f k).getLsbD j = (decide (j < 64) && decide (j < 8 * k) && (f (j / 8)).getLsbD (j % 8)) := by
  induction k with
  | zero => simp [gather]
  | succ k ih =>
    rw [gather, getLsbD_or, ih, getLsbD_shiftLeft, getLsbD_setWidth]
    by_cases hbelow : j < 8 * k
    · have hless : j < 8 * (k + 1) := by omega
      simp [hbelow, hless]
    · by_cases hinside : j < 8 * (k + 1)
      · have hdiv : j / 8 = k := by omega
        have hmod : j % 8 = j - 8 * k := by omega
        rw [hdiv, hmod]
        by_cases hj : j < 64
        · have hrest : j - 8 * k < 64 := by omega
          simp [hbelow, hinside, hj, hrest]
        · simp [hj]
      · have hrest : ¬ j - 8 * k < 8 := by omega
        simp [hbelow, hinside, getLsbD_of_ge (f k) (j - 8 * k) (by omega)]

theorem position_lt {big : Bool} {k i : Nat} (h : i < k) : position big k i < k := by
  unfold position
  split <;> omega

theorem position_position {k i : Nat} (h : i < k) : position big k (position big k i) = i := by
  unfold position
  split <;> omega

theorem covered_add {k i : Nat} (h : i < k) : Covered a k (a + ofNat w i) := by
  have hsub : a + ofNat w i - a = ofNat w i := by
    rw [BitVec.add_comm, BitVec.add_sub_cancel]
  rw [Covered, hsub, toNat_ofNat]
  exact (mod_le _ _).trans_lt h

theorem store_of_not_covered {a b : BitVec w} {v : BitVec 64} (h : ¬ Covered a k b) :
    store big k a v m b = m b := if_neg h

theorem store_of_covered {a b : BitVec w} {v : BitVec 64} (m m' : Mem w) (h : Covered a k b) :
    store big k a v m b = store big k a v m' b := by
  rw [store, store, if_pos h, if_pos h]

theorem store_congr {v v' : BitVec 64} (h : ∀ i < 8 * k, v.getLsbD i = v'.getLsbD i) :
    store big k a v m = store big k a v' m := by
  funext b
  unfold store
  split_ifs with hb
  · have hpos : position big k (b - a).toNat < k := position_lt hb
    apply eq_of_getLsbD_eq
    intro j hj
    rw [getLsbD_setWidth, getLsbD_setWidth, getLsbD_ushiftRight, getLsbD_ushiftRight, h _ (by omega)]
  · rfl

theorem load_congr {m m' : Mem w} (h : ∀ b, Covered a k b → m b = m' b) : load big k a m = load big k a m' :=
  gather_congr fun _ hi => h _ (covered_add (position_lt hi))

theorem load_store {v : BitVec 64} (hk : k ≤ 8) (hw : 3 < w) :
    load big k a (store big k a v m) = (v.setWidth (8 * k)).setWidth 64 := by
  have hfit : k < 2 ^ w := by
    calc k < 2 ^ 4 := by omega
      _ ≤ 2 ^ w := Nat.pow_le_pow_right (by omega) hw
  apply eq_of_getLsbD_eq
  intro j hj
  rw [load, getLsbD_gather, getLsbD_setWidth, getLsbD_setWidth]
  by_cases hlow : j < 8 * k
  · have hbyte : j / 8 < k := by omega
    have hsub : a + ofNat w (position big k (j / 8)) - a = ofNat w (position big k (j / 8)) := by
      rw [BitVec.add_comm, BitVec.add_sub_cancel]
    rw [store, if_pos (covered_add (position_lt hbyte)), hsub, toNat_ofNat,
      mod_eq_of_lt ((position_lt hbyte).trans hfit), position_position hbyte,
      getLsbD_setWidth, getLsbD_ushiftRight]
    have hsplit : 8 * (j / 8) + j % 8 = j := div_add_mod j 8
    have hbit : j % 8 < 8 := mod_lt _ (by decide)
    simp [hlow, hj, hsplit, hbit]
  · simp [hlow]

/-- A load of `k` bytes has no more bits than these. -/
theorem load_fits : ((load big k a m).setWidth (8 * k)).setWidth 64 = load big k a m := by
  apply eq_of_getLsbD_eq
  intro j hj
  rw [getLsbD_setWidth, getLsbD_setWidth, load, getLsbD_gather]
  by_cases hlow : j < 8 * k <;> simp [hlow, hj]

/-- Storing what was loaded changes nothing. -/
theorem store_load {a b : BitVec w} (m' : Mem w) (hk : k ≤ 8) (hb : Covered a k b) :
    store big k a (load big k a m) m' b = m b := by
  have hi : (b - a).toNat < k := hb
  have haddr : a + ofNat w (b - a).toNat = b := by
    rw [BitVec.ofNat_toNat, setWidth_eq, BitVec.add_comm, BitVec.sub_add_cancel]
  rw [store, if_pos hb]
  generalize (b - a).toNat = i at hi haddr
  apply eq_of_getLsbD_eq
  intro j hj
  have hpos : position big k i < k := position_lt hi
  rw [getLsbD_setWidth, getLsbD_ushiftRight, load, getLsbD_gather]
  have hdiv : (8 * position big k i + j) / 8 = position big k i := by omega
  have hmod : (8 * position big k i + j) % 8 = j := by omega
  rw [hdiv, hmod, position_position hi, haddr]
  have hlow : 8 * position big k i + j < 8 * k := by omega
  have hword : 8 * position big k i + j < 64 := by omega
  simp [hj, hlow, hword]

end ByteMemory
