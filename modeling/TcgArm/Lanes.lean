import TcgArm.ByteMemory

/-! Registers of 64 bits as lanes, and the transfer of elements between lanes and memory. An element
is a lane of a register together with the address of its bytes; lists of elements are loaded and
stored one after the other, and where they are apart every one of them arrives. -/

namespace Lanes

open BitVec ByteMemory Function List Nat
open BitVec (ofNat)

/-- The number of bits of an element of `2 ^ size` bytes. -/
def width (size : Nat) : Nat := 8 * 2 ^ size

def count (size : Nat) : Nat := 8 / 2 ^ size

def lane (size : Nat) (x : BitVec 64) (l : Nat) : BitVec 64 :=
  (x.extractLsb' (width size * l) (width size)).setWidth 64

def laneMask (size l : Nat) : BitVec 64 :=
  ((BitVec.allOnes (width size)).setWidth 64) <<< (width size * l)

def setLane (size : Nat) (x : BitVec 64) (l : Nat) (v : BitVec 64) : BitVec 64 :=
  (x &&& ~~~ laneMask size l) ||| ((v <<< (width size * l)) &&& laneMask size l)

variable {size l i : Nat} {x y v : BitVec 64}

theorem width_pos (size : Nat) : 0 < width size := by
  unfold width
  positivity

theorem count_pos (hsize : size ≤ 3) : 0 < count size := by
  interval_cases size <;> decide

theorem width_mul_count (hsize : size ≤ 3) : width size * count size = 64 := by
  interval_cases size <;> rfl

theorem getLsbD_lane (size : Nat) (x : BitVec 64) (l i : Nat) :
    (lane size x l).getLsbD i = (decide (i < width size) && x.getLsbD (width size * l + i)) := by
  rw [lane, getLsbD_setWidth, getLsbD_extractLsb']
  by_cases hi : i < 64
  · simp [hi]
  · rw [getLsbD_of_ge x _ (by omega)]
    simp

/-- The bit `i` belongs to the lane `i / width size`. -/
theorem getLsbD_laneMask (hi : i < 64) : (laneMask size l).getLsbD i = decide (i / width size = l) := by
  have hpos := width_pos size
  have hlane : i / width size = l ↔ width size * l ≤ i ∧ i - width size * l < width size := by
    rw [Nat.div_eq_iff hpos, Nat.mul_comm l]
    omega
  rw [laneMask, getLsbD_shiftLeft, getLsbD_setWidth, getLsbD_allOnes]
  by_cases hlow : width size * l ≤ i
  · have hrest : i - width size * l < 64 := by omega
    simp [hi, hlow, hrest, hlane, Nat.not_lt.mpr hlow]
  · simp [hlow, hlane, Nat.lt_of_not_le hlow]

theorem getLsbD_setLane (hi : i < 64) : (setLane size x l v).getLsbD i =
    if i / width size = l then v.getLsbD (i % width size) else x.getLsbD i := by
  rw [setLane, getLsbD_or, getLsbD_and, getLsbD_and, getLsbD_not, getLsbD_laneMask hi, getLsbD_shiftLeft]
  by_cases hlane : i / width size = l
  · have hsplit := div_add_mod i (width size)
    rw [hlane] at hsplit
    have hrest : i - width size * l = i % width size := by omega
    have hlow : ¬ i < width size * l := by omega
    simp [hlane, hi, hrest, hlow]
  · simp [hlane, hi]

theorem lane_inside (hsize : size ≤ 3) (hl : l < count size) (hi : i < width size) :
    width size * l + i < 64 := by
  have hcount := width_mul_count hsize
  have hle : width size * (l + 1) ≤ width size * count size := Nat.mul_le_mul_left _ hl
  rw [Nat.mul_succ] at hle
  omega

theorem lane_setLane_self (hsize : size ≤ 3) (hl : l < count size) :
    lane size (setLane size x l v) l = (v.setWidth (width size)).setWidth 64 := by
  apply eq_of_getLsbD_eq
  intro i hi
  rw [getLsbD_lane, getLsbD_setWidth, getLsbD_setWidth]
  by_cases hwidth : i < width size
  · have hdiv : (width size * l + i) / width size = l := by
      rw [mul_add_div (width_pos size), div_eq_of_lt hwidth, Nat.add_zero]
    rw [getLsbD_setLane (lane_inside hsize hl hwidth), if_pos hdiv, mul_add_mod, mod_eq_of_lt hwidth]
    simp [hwidth, hi]
  · simp [hwidth]

theorem lane_setLane_of_ne {l' : Nat} (hsize : size ≤ 3) (hl : l' < count size) (hne : l' ≠ l) :
    lane size (setLane size x l v) l' = lane size x l' := by
  apply eq_of_getLsbD_eq
  intro i hi
  rw [getLsbD_lane, getLsbD_lane]
  by_cases hwidth : i < width size
  · have hdiv : (width size * l' + i) / width size = l' := by
      rw [mul_add_div (width_pos size), div_eq_of_lt hwidth, Nat.add_zero]
    rw [getLsbD_setLane (lane_inside hsize hl hwidth), if_neg fun heq => hne (hdiv.symm.trans heq)]
  · simp [hwidth]

theorem ext_lanes (hsize : size ≤ 3) (h : ∀ l < count size, lane size x l = lane size y l) : x = y := by
  apply eq_of_getLsbD_eq
  intro i hi
  have hpos := width_pos size
  have hl : i / width size < count size := by
    rw [Nat.div_lt_iff_lt_mul hpos, Nat.mul_comm, width_mul_count hsize]
    exact hi
  have hbit := congrArg (fun z => z.getLsbD (i % width size)) (h _ hl)
  simpa [getLsbD_lane, mod_lt _ hpos, div_add_mod] using hbit

/-- A lane of a register and the address of its bytes. -/
structure Element where
  reg : Nat
  lane : Nat
  addr : BitVec 32
  deriving DecidableEq

def loadElement (big : Bool) (size : Nat) (m : Mem 32) (d : Nat → BitVec 64) (el : Element) :
    Nat → BitVec 64 :=
  Function.update d el.reg (setLane size (d el.reg) el.lane (load big (2 ^ size) el.addr m))

def loadAll (big : Bool) (size : Nat) (m : Mem 32) (els : List Element) (d : Nat → BitVec 64) :
    Nat → BitVec 64 :=
  els.foldl (loadElement big size m) d

def storeElement (big : Bool) (size : Nat) (d : Nat → BitVec 64) (m : Mem 32) (el : Element) :
    Mem 32 :=
  store big (2 ^ size) el.addr (lane size (d el.reg) el.lane) m

def storeAll (big : Bool) (size : Nat) (d : Nat → BitVec 64) (els : List Element) (m : Mem 32) :
    Mem 32 :=
  els.foldl (storeElement big size d) m

variable {big : Bool} {d : Nat → BitVec 64} {m : Mem 32} {els : List Element} {el : Element}
  {reg : Nat}

theorem loadAll_append (els' : List Element) :
    loadAll big size m (els ++ els') d = loadAll big size m els' (loadAll big size m els d) :=
  foldl_append

theorem storeAll_append (els' : List Element) :
    storeAll big size d (els ++ els') m = storeAll big size d els' (storeAll big size d els m) :=
  foldl_append

theorem lane_load (a : BitVec 32) :
    ((load big (2 ^ size) a m).setWidth (width size)).setWidth 64 = load big (2 ^ size) a m :=
  load_fits

theorem lane_loadElement_self (hsize : size ≤ 3) (hlane : el.lane < count size) :
    lane size (loadElement big size m d el el.reg) el.lane = load big (2 ^ size) el.addr m := by
  rw [loadElement, update_self, lane_setLane_self hsize hlane, lane_load]

theorem lane_loadElement_of_ne (hsize : size ≤ 3) (hl : l < count size)
    (hne : ¬ (el.reg = reg ∧ el.lane = l)) :
    lane size (loadElement big size m d el reg) l = lane size (d reg) l := by
  by_cases hreg : reg = el.reg
  · subst hreg
    rw [loadElement, update_self, lane_setLane_of_ne hsize hl fun heq => hne ⟨rfl, heq.symm⟩]
  · rw [loadElement, update_of_ne hreg]

theorem lane_loadAll_of_not_mem (hsize : size ≤ 3) (hl : l < count size)
    (hnot : ∀ el ∈ els, ¬ (el.reg = reg ∧ el.lane = l)) :
    lane size (loadAll big size m els d reg) l = lane size (d reg) l := by
  induction els generalizing d with
  | nil => rfl
  | cons el els ih =>
    calc lane size (loadAll big size m (el :: els) d reg) l = lane size (loadElement big size m d el reg) l :=
          ih fun el' hel' => hnot el' (mem_cons_of_mem _ hel')
      _ = lane size (d reg) l := lane_loadElement_of_ne hsize hl (hnot el mem_cons_self)

theorem loadAll_of_not_mem (hnot : ∀ el ∈ els, el.reg ≠ reg) : loadAll big size m els d reg = d reg := by
  induction els generalizing d with
  | nil => rfl
  | cons el els ih =>
    calc loadAll big size m (el :: els) d reg = loadElement big size m d el reg :=
          ih fun el' hel' => hnot el' (mem_cons_of_mem _ hel')
      _ = d reg := update_of_ne (hnot el mem_cons_self).symm _ _

/-- Elements are all loaded where no lane has two addresses. -/
theorem lane_loadAll_of_mem (hsize : size ≤ 3) (hlanes : ∀ el ∈ els, el.lane < count size)
    (hsame : ∀ a ∈ els, ∀ b ∈ els, a.reg = b.reg → a.lane = b.lane → a.addr = b.addr) (hel : el ∈ els) :
    lane size (loadAll big size m els d el.reg) el.lane = load big (2 ^ size) el.addr m := by
  induction els generalizing d el with
  | nil => cases hel
  | cons first els ih =>
    have hlane := hlanes el hel
    -- A later element of the same lane is loaded from the same address.
    by_cases hlater : ∃ a ∈ els, a.reg = el.reg ∧ a.lane = el.lane
    · obtain ⟨a, ha, hreg, hlaneEq⟩ := hlater
      have hload := @ih (loadElement big size m d first) a
        (fun el' hel' => hlanes el' (mem_cons_of_mem _ hel'))
        (fun b hb c hc => hsame b (mem_cons_of_mem _ hb) c (mem_cons_of_mem _ hc)) ha
      rw [hreg, hlaneEq, hsame a (mem_cons_of_mem _ ha) el hel hreg hlaneEq] at hload
      exact hload
    · have hfirst : el = first := (mem_cons.mp hel).resolve_right fun h => hlater ⟨el, h, rfl, rfl⟩
      subst hfirst
      calc lane size (loadAll big size m (el :: els) d el.reg) el.lane
          = lane size (loadElement big size m d el el.reg) el.lane :=
            lane_loadAll_of_not_mem hsize hlane fun a ha h => hlater ⟨a, ha, h⟩
        _ = load big (2 ^ size) el.addr m := lane_loadElement_self hsize hlane

def Apart (size : Nat) (a b : Element) : Prop :=
  ∀ byte, ¬ (Covered a.addr (2 ^ size) byte ∧ Covered b.addr (2 ^ size) byte)

theorem storeAll_of_not_covered {byte : BitVec 32} (hnot : ∀ el ∈ els, ¬ Covered el.addr (2 ^ size) byte) :
    storeAll big size d els m byte = m byte := by
  induction els generalizing m with
  | nil => rfl
  | cons el els ih =>
    calc storeAll big size d (el :: els) m byte = storeElement big size d m el byte :=
          ih fun el' hel' => hnot el' (mem_cons_of_mem _ hel')
      _ = m byte := store_of_not_covered (hnot el mem_cons_self)

/-- Elements are all stored where different ones are apart. -/
theorem load_storeAll_of_mem (hsize : size ≤ 3)
    (hapart : ∀ a ∈ els, ∀ b ∈ els, a ≠ b → Apart size a b) (hel : el ∈ els) :
    load big (2 ^ size) el.addr (storeAll big size d els m) = lane size (d el.reg) el.lane := by
  induction els generalizing m with
  | nil => cases hel
  | cons first els ih =>
    have hrest : ∀ a ∈ els, ∀ b ∈ els, a ≠ b → Apart size a b := fun a ha b hb =>
      hapart a (mem_cons_of_mem _ ha) b (mem_cons_of_mem _ hb)
    by_cases hlater : el ∈ els
    · exact ih hrest hlater
    · obtain rfl : el = first := (mem_cons.mp hel).resolve_right hlater
      have hbytes : 2 ^ size ≤ 8 := Nat.pow_le_pow_right (by decide) hsize
      calc load big (2 ^ size) el.addr (storeAll big size d (el :: els) m)
          = load big (2 ^ size) el.addr (storeElement big size d m el) :=
            load_congr fun byte hbyte => storeAll_of_not_covered fun a ha hcovered =>
              hapart el hel a (mem_cons_of_mem _ ha) (fun heq => hlater (heq ▸ ha)) byte ⟨hbyte, hcovered⟩
        _ = ((lane size (d el.reg) el.lane).setWidth (width size)).setWidth 64 :=
            load_store hbytes (by decide)
        _ = lane size (d el.reg) el.lane := by
            apply eq_of_getLsbD_eq
            intro i hi
            rw [getLsbD_setWidth, getLsbD_setWidth, getLsbD_lane]
            simp [hi]

/-- Elements at different multiples of their size are apart. -/
theorem apart_of_ne {base : BitVec 32} {x y : Nat} {a b : Element}
    (ha : a.addr = base + ofNat 32 (2 ^ size * x))
    (hb : b.addr = base + ofNat 32 (2 ^ size * y)) (hx : 2 ^ size * (x + 1) ≤ 2 ^ 32)
    (hy : 2 ^ size * (y + 1) ≤ 2 ^ 32) (hne : x ≠ y) : Apart size a b := by
  have hindex : ∀ {el : Element} {z : Nat} {byte : BitVec 32},
      el.addr = base + ofNat 32 (2 ^ size * z) → 2 ^ size * (z + 1) ≤ 2 ^ 32 →
      Covered el.addr (2 ^ size) byte → (byte - base).toNat / 2 ^ size = z := by
    intro el z byte haddr hz hcovered
    rw [Nat.mul_succ] at hz
    have hoffset : byte - el.addr = byte - base - ofNat 32 (2 ^ size * z) := by
      rw [haddr]
      generalize ofNat 32 (2 ^ size * z) = c
      bv_omega
    have hpos : 0 < 2 ^ size := by positivity
    have hsmall : 2 ^ size * z % 2 ^ 32 = 2 ^ size * z := mod_eq_of_lt (by omega)
    rw [Covered, hoffset, toNat_sub, toNat_ofNat, hsmall] at hcovered
    rw [Nat.div_eq_iff hpos, Nat.mul_comm z]
    generalize 2 ^ size * z = p at *
    generalize 2 ^ size = q at *
    omega
  rintro byte ⟨hcovered, hcovered'⟩
  exact hne ((hindex ha hx hcovered).symm.trans (hindex hb hy hcovered'))

/-- Successive lanes of a register, `stride` bytes from each other. -/
def span (reg stride : Nat) : BitVec 32 → Nat → Nat → List Element
  | _, _, 0 => []
  | a, l, n + 1 => ⟨reg, l, a⟩ :: span reg stride (a + BitVec.ofNat 32 stride) (l + 1) n

variable {stride n : Nat} {a : BitVec 32}

theorem mem_span : el ∈ span reg stride a l n ↔ ∃ j < n, el = ⟨reg, l + j, a + ofNat 32 (stride * j)⟩ := by
  induction n generalizing a l with
  | zero => simp [span]
  | succ n ih =>
    have hnext : ∀ j, a + ofNat 32 stride + ofNat 32 (stride * j) =
        a + ofNat 32 (stride * (j + 1)) := fun j => by
      rw [BitVec.add_assoc, ← ofNat_add, Nat.mul_succ, Nat.add_comm stride]
    rw [span, mem_cons, ih]
    constructor
    · rintro (rfl | ⟨j, hj, rfl⟩)
      · exact ⟨0, by omega, by simp⟩
      · exact ⟨j + 1, by omega, by rw [hnext, Nat.add_assoc, Nat.add_comm 1]⟩
    · rintro ⟨j, hj, rfl⟩
      cases j with
      | zero => exact .inl (by simp)
      | succ j => exact .inr ⟨j, by omega, by rw [hnext, Nat.add_assoc, Nat.add_comm 1]⟩

theorem span_append (k : Nat) : span reg stride a l (n + k) =
    span reg stride a l n ++ span reg stride (a + ofNat 32 (stride * n)) (l + n) k := by
  induction n generalizing a l with
  | zero => simp [span]
  | succ n ih =>
    have hnext : a + ofNat 32 stride + ofNat 32 (stride * n) = a + ofNat 32 (stride * (n + 1)) := by
      rw [BitVec.add_assoc, ← ofNat_add, Nat.mul_succ, Nat.add_comm stride]
    rw [Nat.add_right_comm, span, span, ih, hnext, List.cons_append, Nat.add_assoc l, Nat.add_comm 1]

theorem span_same {b b' : Element} (hb : b ∈ span reg stride a l n) (hb' : b' ∈ span reg stride a l n)
    (hlane : b.lane = b'.lane) : b.addr = b'.addr := by
  obtain ⟨j, -, rfl⟩ := mem_span.mp hb
  obtain ⟨j', -, rfl⟩ := mem_span.mp hb'
  obtain rfl : j = j' := Nat.add_left_cancel hlane
  rfl

end Lanes
