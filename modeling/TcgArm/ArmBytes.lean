import TcgArm.ArmEmit

/-! Byte order on a little-endian ARM host: a load or store of big-endian data is a little-endian one
of swapped bytes, and one of eight bytes is two of four. -/

namespace TcgArm.ArmHost

open ByteMemory BitVec
open BitVec (ofNat)

/-- The low `k` bytes of a word in reverse order, without the bytes above. -/
def swapBytes (k : Nat) (x : Word) : Word :=
  (gather (fun i => (x >>> (8 * (k - 1 - i))).setWidth 8) k).setWidth 32

variable {i k j d : Nat}

theorem getLsbD_swapBytes (k : Nat) (x : Word) (hj : j < 32) :
    (swapBytes k x).getLsbD j = (decide (j < 8 * k) && x.getLsbD (8 * (k - 1 - j / 8) + j % 8)) := by
  have hbit : j % 8 < 8 := Nat.mod_lt _ (by decide)
  have hwide : j < 64 := by omega
  rw [swapBytes, getLsbD_setWidth, getLsbD_gather, getLsbD_setWidth, getLsbD_ushiftRight]
  simp [hj, hwide, hbit]

theorem getLsbD_load (big : Bool) (k : Nat) (a : Word) (m : Mem 32) (j : Nat) :
    (load big k a m).getLsbD j = (decide (j < 64) && decide (j < 8 * k) &&
      (m (a + ofNat 32 (position big k (j / 8)))).getLsbD (j % 8)) := by
  rw [load, getLsbD_gather]

theorem getLsbD_loadLe (k : Nat) (a : Word) (m : Mem 32) (hj : j < 32) :
    (loadLe k a m).getLsbD j = (decide (j < 8 * k) && (m (a + ofNat 32 (j / 8))).getLsbD (j % 8)) := by
  have hwide : j < 64 := by omega
  rw [loadLe, getLsbD_setWidth, getLsbD_load]
  simp [hj, hwide, position]

theorem swapBytes_loadLe (hk : k ≤ 4) (a : Word) (m : Mem 32) :
    swapBytes k (loadLe k a m) = (load true k a m).setWidth 32 := by
  apply eq_of_getLsbD_eq
  intro j hj
  rw [getLsbD_swapBytes k _ hj, getLsbD_setWidth, getLsbD_load]
  have hwide : j < 64 := by omega
  by_cases hlow : j < 8 * k
  · have hindex : 8 * (k - 1 - j / 8) + j % 8 < 32 := by omega
    have hbelow : 8 * (k - 1 - j / 8) + j % 8 < 8 * k := by omega
    have hdiv : (8 * (k - 1 - j / 8) + j % 8) / 8 = k - 1 - j / 8 := by omega
    have hmod : (8 * (k - 1 - j / 8) + j % 8) % 8 = j % 8 := by omega
    rw [getLsbD_loadLe k a m hindex, hdiv, hmod]
    simp [hj, hwide, hlow, hbelow, position]
  · simp [hlow]

/-- A load of eight little-endian bytes. -/
theorem load_eight (a : Word) (m : Mem 32) : load false 8 a m = loadLe 4 (a + 4) m ++ loadLe 4 a m := by
  apply eq_of_getLsbD_eq
  intro j hj
  rw [getLsbD_load, getLsbD_append]
  by_cases hlow : j < 32
  · have hfour : j < 8 * 4 := by omega
    rw [getLsbD_loadLe 4 a m hlow]
    simp [hj, hlow, position]
  · have hhigh : j - 32 < 32 := by omega
    have hmod : (j - 32) % 8 = j % 8 := by omega
    have haddr : a + 4 + ofNat 32 ((j - 32) / 8) = a + ofNat 32 (j / 8) := by
      have hdiv : j / 8 = 4 + (j - 32) / 8 := by omega
      rw [hdiv, ofNat_add, ← BitVec.add_assoc]
      rfl
    rw [getLsbD_loadLe 4 (a + 4) m hhigh, haddr, hmod]
    simp [hj, hlow, hhigh, position]

/-- A load of eight big-endian bytes. -/
theorem load_eight_big (a : Word) (m : Mem 32) :
    load true 8 a m = swapBytes 4 (loadLe 4 a m) ++ swapBytes 4 (loadLe 4 (a + 4) m) := by
  rw [swapBytes_loadLe (by omega), swapBytes_loadLe (by omega)]
  apply eq_of_getLsbD_eq
  intro j hj
  rw [getLsbD_load, getLsbD_append, getLsbD_setWidth, getLsbD_setWidth, getLsbD_load, getLsbD_load]
  by_cases hlow : j < 32
  · have hindex : 8 - 1 - j / 8 = 4 + (4 - 1 - j / 8) := by omega
    simp only [position, if_true, hindex, ofNat_add, ← BitVec.add_assoc]
    simp [hj, hlow]
  · have hhigh : j - 32 < 32 := by omega
    have hwide : j - 32 < 64 := by omega
    have hmod : (j - 32) % 8 = j % 8 := by omega
    have hindex : 8 - 1 - j / 8 = 4 - 1 - (j - 32) / 8 := by omega
    simp [hj, hlow, hhigh, hwide, hmod, hindex, position]

/-- The byte of weight `i` of a word. -/
def byteOf (v : BitVec 64) (i : Nat) : BitVec 8 := (v >>> (8 * i)).setWidth 8

theorem getLsbD_byteOf (v : BitVec 64) (i : Nat) (hj : j < 8) :
    (byteOf v i).getLsbD j = v.getLsbD (8 * i + j) := by
  rw [byteOf, getLsbD_setWidth, getLsbD_ushiftRight]
  simp [hj]

theorem store_apply (big : Bool) (k : Nat) (a b : Word) (v : BitVec 64) (m : Mem 32) :
    store big k a v m b = if (b - a).toNat < k then byteOf v (position big k (b - a).toNat) else m b := rfl

theorem byteOf_swapBytes (hk : k ≤ 4) (hd : d < k) (v : Word) :
    byteOf ((swapBytes k v).setWidth 64) d = byteOf (v.setWidth 64) (k - 1 - d) := by
  apply eq_of_getLsbD_eq
  intro j hj
  have hword : 8 * d + j < 32 := by omega
  have hbelow : 8 * d + j < 8 * k := by omega
  have hdiv : (8 * d + j) / 8 = d := by omega
  have hmod : (8 * d + j) % 8 = j := by omega
  rw [getLsbD_byteOf _ _ hj, getLsbD_byteOf _ _ hj, getLsbD_setWidth, getLsbD_setWidth,
    getLsbD_swapBytes k v hword, hdiv, hmod]
  have hwide : 8 * d + j < 64 := by omega
  have hwide' : 8 * (k - 1 - d) + j < 64 := by omega
  simp [hbelow, hwide, hwide']

theorem storeLe_swapBytes (hk : k ≤ 4) (a v : Word) (m : Mem 32) :
    storeLe k a (swapBytes k v) m = store true k a (v.setWidth 64) m := by
  funext b
  rw [storeLe, store_apply, store_apply]
  split
  · rename_i hd
    simp only [position, Bool.false_eq_true, if_false, if_true]
    exact byteOf_swapBytes hk hd v
  · rfl

theorem storeLe_congr {v v' : Word} (a : Word) (m : Mem 32)
    (h : ∀ j < 8 * k, v.getLsbD j = v'.getLsbD j) : storeLe k a v m = storeLe k a v' m := by
  funext b
  rw [storeLe, storeLe, store_apply, store_apply]
  split
  · rename_i hd
    apply eq_of_getLsbD_eq
    intro j hj
    have hindex : 8 * (b - a).toNat + j < 8 * k := by omega
    rw [getLsbD_byteOf _ _ hj, getLsbD_byteOf _ _ hj, getLsbD_setWidth, getLsbD_setWidth]
    simp only [position, Bool.false_eq_true, if_false]
    rw [h _ hindex]
  · rfl

theorem toNat_sub_four (a b : Word) :
    (b - (a + 4)).toNat = if (b - a).toNat < 4 then (b - a).toNat + 2 ^ 32 - 4 else (b - a).toNat - 4 := by
  have hsub : b - (a + 4) = b - a - 4 := (BitVec.sub_sub b a 4).symm
  rw [hsub, toNat_sub, show (4 : Word).toNat = 4 from rfl]
  split <;> omega

theorem byteOf_append_low (hd : d < 4) (hi lo : Word) :
    byteOf (hi ++ lo) d = byteOf (lo.setWidth 64) d := by
  apply eq_of_getLsbD_eq
  intro j hj
  have hindex : 8 * d + j < 32 := by omega
  have hwide : 8 * d + j < 64 := by omega
  rw [getLsbD_byteOf _ _ hj, getLsbD_byteOf _ _ hj, getLsbD_append, getLsbD_setWidth]
  simp [hindex, hwide]

theorem byteOf_append_high (hd : d < 4) (hi lo : Word) :
    byteOf (hi ++ lo) (4 + d) = byteOf (hi.setWidth 64) d := by
  apply eq_of_getLsbD_eq
  intro j hj
  have hindex : ¬ 8 * (4 + d) + j < 32 := by omega
  have hsub : 8 * (4 + d) + j - 32 = 8 * d + j := by omega
  have hwide : 8 * d + j < 64 := by omega
  rw [getLsbD_byteOf _ _ hj, getLsbD_byteOf _ _ hj, getLsbD_append, getLsbD_setWidth]
  simp [hindex, hsub, hwide]

/-- A store of eight bytes is one of the four at the lower addresses and one of the four above. -/
theorem store_halves {big : Bool} {first second v : BitVec 64}
    (hfirst : ∀ d < 4, byteOf first (position big 4 d) = byteOf v (position big 8 d))
    (hsecond : ∀ d < 4, byteOf second (position big 4 d) = byteOf v (position big 8 (4 + d)))
    (a : Word) (m : Mem 32) : store big 4 (a + 4) second (store big 4 a first m) = store big 8 a v m := by
  funext b
  rw [store_apply, store_apply, store_apply, toNat_sub_four]
  by_cases hfour : (b - a).toNat < 4
  · have height : (b - a).toNat < 8 := by omega
    have hnot : ¬ (b - a).toNat + 2 ^ 32 - 4 < 4 := by omega
    simp only [hfour, height, hnot, if_true, if_false, hfirst _ hfour]
  · by_cases height : (b - a).toNat < 8
    · have hsub : (b - a).toNat - 4 < 4 := by omega
      have hadd : 4 + ((b - a).toNat - 4) = (b - a).toNat := by omega
      simp only [hfour, height, hsub, if_true, if_false, hsecond _ hsub, hadd]
    · have hsub : ¬ (b - a).toNat - 4 < 4 := by omega
      simp only [hfour, height, hsub, if_false]

/-- A store of eight little-endian bytes. -/
theorem store_eight (a hi lo : Word) (m : Mem 32) :
    storeLe 4 (a + 4) hi (storeLe 4 a lo m) = store false 8 a (hi ++ lo) m :=
  store_halves (fun _ hd => (byteOf_append_low hd hi lo).symm)
    (fun _ hd => (byteOf_append_high hd hi lo).symm) a m

/-- A store of eight big-endian bytes. -/
theorem store_eight_big (a hi lo : Word) (m : Mem 32) :
    storeLe 4 (a + 4) (swapBytes 4 lo) (storeLe 4 a (swapBytes 4 hi) m) = store true 8 a (hi ++ lo) m := by
  rw [storeLe_swapBytes (by omega), storeLe_swapBytes (by omega)]
  refine store_halves (fun d hd => ?_) (fun d hd => ?_) a m
  · have hindex : 8 - 1 - d = 4 + (4 - 1 - d) := by omega
    simp only [position, if_true, hindex, byteOf_append_high (show 4 - 1 - d < 4 by omega)]
  · have hindex : 8 - 1 - (4 + d) = 4 - 1 - d := by omega
    simp only [position, if_true, hindex, byteOf_append_low (show 4 - 1 - d < 4 by omega)]

/-- Words are compared byte by byte: `j` is a bit of the byte of weight `d`. -/
theorem eq_of_bytes {x y : Word}
    (h : ∀ d < 4, ∀ j < 8, x.getLsbD (8 * d + j) = y.getLsbD (8 * d + j)) : x = y := by
  apply eq_of_getLsbD_eq
  intro i hi
  have hbit := h (i / 8) (by omega) (i % 8) (by omega)
  rwa [Nat.div_add_mod] at hbit

theorem getLsbD_swapBytes_byte (k : Nat) (x : Word) (hd : d < 4) (hj : j < 8) :
    (swapBytes k x).getLsbD (8 * d + j) = (decide (d < k) && x.getLsbD (8 * (k - 1 - d) + j)) := by
  have hdiv : (8 * d + j) / 8 = d := by omega
  have hmod : (8 * d + j) % 8 = j := by omega
  have hlt : 8 * d + j < 8 * k ↔ d < k := by omega
  rw [getLsbD_swapBytes k x (by omega), hdiv, hmod, decide_eq_decide.mpr hlt]

theorem getLsbD_four (x3 x2 x1 x0 : BitVec 8) (hd : d < 4) (hj : j < 8) :
    (x3 ++ x2 ++ x1 ++ x0).getLsbD (8 * d + j) =
      (if d = 0 then x0 else if d = 1 then x1 else if d = 2 then x2 else x3).getLsbD j := by
  simp only [getLsbD_append]
  interval_cases d <;> grind

theorem reverseBytes_eq (x : Word) : reverseBytes x = swapBytes 4 x := by
  refine eq_of_bytes fun d hd j hj => ?_
  rw [getLsbD_swapBytes_byte 4 x hd hj, reverseBytes, getLsbD_four _ _ _ _ hd hj]
  interval_cases d <;> simp [hj]

/-- The four instructions that reverse a word before level 6. -/
theorem reverse_by_rotations (x : Word) :
    x.rotateRight 8 ^^^ (((x ^^^ x.rotateRight 16) &&& ~~~ (0x00ff0000 : Word)) >>> 8) = swapBytes 4 x := by
  have hmask : ∀ i, (0x00ff0000 : Word).getLsbD i = (decide (16 ≤ i) && decide (i < 24)) := by
    intro i
    rw [show (0x00ff0000 : Word) = ofNat 32 ((2 ^ 8 - 1) <<< 16) by decide,
      getLsbD_fieldMask (by omega)]
  refine eq_of_bytes fun d hd j hj => ?_
  rw [getLsbD_swapBytes_byte 4 x hd hj]
  simp only [getLsbD_xor, getLsbD_ushiftRight, getLsbD_and, getLsbD_not, hmask, getLsbD_rotateRight]
  interval_cases d <;> grind

theorem getLsbD_rev16 (x : Word) (hi : i < 16) :
    (ExtendKind.rev16.apply x).getLsbD i = (swapBytes 2 x).getLsbD i := by
  obtain ⟨d, j, hd, hj, rfl⟩ : ∃ d j, d < 2 ∧ j < 8 ∧ i = 8 * d + j :=
    ⟨i / 8, i % 8, by omega, by omega, by omega⟩
  rw [getLsbD_swapBytes_byte 2 x (by omega) hj, ExtendKind.apply, getLsbD_four _ _ _ _ (by omega) hj]
  interval_cases d <;> simp [hj]

variable {x : Word}

theorem rev16_of_half (hx : ∀ i, 16 ≤ i → x.getLsbD i = false) :
    ExtendKind.rev16.apply x = swapBytes 2 x := by
  refine eq_of_bytes fun d hd j hj => ?_
  have hhigh := hx (24 + j) (by omega)
  rw [getLsbD_swapBytes_byte 2 x hd hj, ExtendKind.apply, getLsbD_four _ _ _ _ hd hj]
  interval_cases d <;> simp [hj, hx, hhigh]

theorem swap_half_by_shifts (hx : ∀ i, 16 ≤ i → x.getLsbD i = false) :
    ((x <<< 24) >>> 16) ||| (x >>> 8) = swapBytes 2 x := by
  refine eq_of_bytes fun d hd j hj => ?_
  rw [getLsbD_swapBytes_byte 2 x hd hj, getLsbD_or, getLsbD_ushiftRight, getLsbD_ushiftRight, getLsbD_shiftLeft]
  interval_cases d <;> grind

theorem getLsbD_signed_half (x : Word) (hd : d < 4) (hj : j < 8) :
    (((swapBytes 2 x).setWidth 16).signExtend 32).getLsbD (8 * d + j) =
      if d < 2 then x.getLsbD (8 * (1 - d) + j) else x.getLsbD 7 := by
  have hmsb : ((swapBytes 2 x).setWidth 16).msb = x.getLsbD 7 := by
    rw [msb_eq_getLsbD_last, getLsbD_setWidth, getLsbD_swapBytes_byte 2 x (show 1 < 4 by decide)
      (show 7 < 8 by decide)]
    rfl
  rw [getLsbD_signExtend, getLsbD_setWidth, getLsbD_swapBytes_byte 2 x hd hj, hmsb]
  interval_cases d <;> grind

theorem revsh_eq (x : Word) : ExtendKind.revsh.apply x = ((swapBytes 2 x).setWidth 16).signExtend 32 := by
  refine eq_of_bytes fun d hd j hj => ?_
  rw [getLsbD_signed_half x hd hj, ExtendKind.apply, getLsbD_signExtend, getLsbD_append, msb_append]
  interval_cases d <;> grind

theorem swap_signed_half_by_shifts (hx : ∀ i, 16 ≤ i → x.getLsbD i = false) :
    (x <<< 24).sshiftRight 16 ||| (x >>> 8) = ((swapBytes 2 x).setWidth 16).signExtend 32 := by
  refine eq_of_bytes fun d hd j hj => ?_
  rw [getLsbD_signed_half x hd hj, getLsbD_or, getLsbD_sshiftRight, getLsbD_ushiftRight,
    getLsbD_shiftLeft, msb_eq_getLsbD_last, getLsbD_shiftLeft]
  interval_cases d <;> grind

theorem getLsbD_swap_store (x : Word) (hi : i < 16) :
    (((x >>> 8) &&& (0xff : Word)) ||| (x <<< 8)).getLsbD i = (swapBytes 2 x).getLsbD i := by
  have hmask : (0xff : Word).getLsbD i = decide (i < 8) := by
    rw [show (0xff : Word) = ofNat 32 ((2 ^ 8 - 1) <<< 0) by decide, getLsbD_fieldMask (by omega)]
    simp
  rw [getLsbD_swapBytes 2 x (by omega), getLsbD_or, getLsbD_and, hmask, getLsbD_ushiftRight, getLsbD_shiftLeft]
  grind

end TcgArm.ArmHost
