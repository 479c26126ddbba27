import TcgArm.Lanes

/-! The NEON helpers that zip and unzip the elements of two registers, of 64 or of 128 bits
(`neon_helper.c`). Each of them assembles every word of the result from elements of the operands,
named here by the operand word and the place of the element in it. -/

namespace TcgArm.Neon

open Lanes

/-- The 64-bit words of the register file. -/
abbrev VfpRegs := Nat → BitVec 64

/-- `ELEM(z, n, SIZE) << i * SIZE | ELEM(z', n', SIZE) << (i + 1) * SIZE | …`, for elements of
`2 ^ size` bytes. -/
def assemble (size : Nat) (z : Nat → BitVec 64) : Nat → List (Nat × Nat) → BitVec 64
  | _, [] => 0
  | i, (word, n) :: places =>
    lane size (z word) n <<< (width size * i) ||| assemble size z (i + 1) places

def permute (size : Nat) (d0 m0 : List (Nat × Nat)) (regs : VfpRegs) (rd rm : Nat) : VfpRegs :=
  let z := fun i => regs ([rd, rm].getD i 0)
  Function.update (Function.update regs rm (assemble size z 0 m0)) rd (assemble size z 0 d0)

def qpermute (size : Nat) (d0 d1 m0 m1 : List (Nat × Nat)) (regs : VfpRegs) (rd rm : Nat) :
    VfpRegs :=
  let z := fun i => regs ([rd, rd + 1, rm, rm + 1].getD i 0)
  Function.update (Function.update (Function.update (Function.update regs rm (assemble size z 0 m0))
    (rm + 1) (assemble size z 0 m1)) rd (assemble size z 0 d0)) (rd + 1) (assemble size z 0 d1)

def neonQunzip8 : VfpRegs → Nat → Nat → VfpRegs :=
  qpermute 0 [(0, 0), (0, 2), (0, 4), (0, 6), (1, 0), (1, 2), (1, 4), (1, 6)]
    [(2, 0), (2, 2), (2, 4), (2, 6), (3, 0), (3, 2), (3, 4), (3, 6)]
    [(0, 1), (0, 3), (0, 5), (0, 7), (1, 1), (1, 3), (1, 5), (1, 7)]
    [(2, 1), (2, 3), (2, 5), (2, 7), (3, 1), (3, 3), (3, 5), (3, 7)]

def neonQunzip16 : VfpRegs → Nat → Nat → VfpRegs :=
  qpermute 1 [(0, 0), (0, 2), (1, 0), (1, 2)] [(2, 0), (2, 2), (3, 0), (3, 2)]
    [(0, 1), (0, 3), (1, 1), (1, 3)] [(2, 1), (2, 3), (3, 1), (3, 3)]

def neonQunzip32 : VfpRegs → Nat → Nat → VfpRegs :=
  qpermute 2 [(0, 0), (1, 0)] [(2, 0), (3, 0)] [(0, 1), (1, 1)] [(2, 1), (3, 1)]

def neonUnzip8 : VfpRegs → Nat → Nat → VfpRegs :=
  permute 0 [(0, 0), (0, 2), (0, 4), (0, 6), (1, 0), (1, 2), (1, 4), (1, 6)]
    [(0, 1), (0, 3), (0, 5), (0, 7), (1, 1), (1, 3), (1, 5), (1, 7)]

def neonUnzip16 : VfpRegs → Nat → Nat → VfpRegs :=
  permute 1 [(0, 0), (0, 2), (1, 0), (1, 2)] [(0, 1), (0, 3), (1, 1), (1, 3)]

def neonQzip8 : VfpRegs → Nat → Nat → VfpRegs :=
  qpermute 0 [(0, 0), (2, 0), (0, 1), (2, 1), (0, 2), (2, 2), (0, 3), (2, 3)]
    [(0, 4), (2, 4), (0, 5), (2, 5), (0, 6), (2, 6), (0, 7), (2, 7)]
    [(1, 0), (3, 0), (1, 1), (3, 1), (1, 2), (3, 2), (1, 3), (3, 3)]
    [(1, 4), (3, 4), (1, 5), (3, 5), (1, 6), (3, 6), (1, 7), (3, 7)]

def neonQzip16 : VfpRegs → Nat → Nat → VfpRegs :=
  qpermute 1 [(0, 0), (2, 0), (0, 1), (2, 1)] [(0, 2), (2, 2), (0, 3), (2, 3)]
    [(1, 0), (3, 0), (1, 1), (3, 1)] [(1, 2), (3, 2), (1, 3), (3, 3)]

def neonQzip32 : VfpRegs → Nat → Nat → VfpRegs :=
  qpermute 2 [(0, 0), (2, 0)] [(0, 1), (2, 1)] [(1, 0), (3, 0)] [(1, 1), (3, 1)]

def neonZip8 : VfpRegs → Nat → Nat → VfpRegs :=
  permute 0 [(0, 0), (1, 0), (0, 1), (1, 1), (0, 2), (1, 2), (0, 3), (1, 3)]
    [(0, 4), (1, 4), (0, 5), (1, 5), (0, 6), (1, 6), (0, 7), (1, 7)]

def neonZip16 : VfpRegs → Nat → Nat → VfpRegs :=
  permute 1 [(0, 0), (1, 0), (0, 1), (1, 1)] [(0, 2), (1, 2), (0, 3), (1, 3)]

/-- Element `k` of the words of some registers, one after the other. -/
def laneAt (size : Nat) (regs : VfpRegs) (rs : List Nat) (k : Nat) : BitVec 64 :=
  lane size (regs (rs.getD (k / count size) 0)) (k % count size)

/-- Where element `k` of the result comes from, of `total` elements. -/
def unzipFrom (total k : Nat) : Nat := if 2 * k < total then 2 * k else 2 * k + 1 - total

def zipFrom (total k : Nat) : Nat := k / 2 + if k % 2 = 0 then 0 else total / 2

/-- A helper moves the elements of the registers as given, and changes no other register. -/
structure Moves (size : Nat) (rs : List Nat) (source : Nat → Nat → Nat) (f : VfpRegs → VfpRegs) :
    Prop where
  lanes : ∀ regs, ∀ k < rs.length * count size,
    laneAt size (f regs) rs k = laneAt size regs rs (source (rs.length * count size) k)
  others : ∀ regs, ∀ r ∉ rs, f regs r = regs r

/-- The places name, in order, the elements that the result is made of. -/
def PlacesRight (size : Nat) (places : List (List (Nat × Nat))) (source : Nat → Nat → Nat) : Prop :=
  ∀ k < places.length * count size, (places.getD (k / count size) []).length = count size ∧
    (places.getD (k / count size) []).getD (k % count size) (0, 0) =
      (source (places.length * count size) k / count size, source (places.length * count size) k % count size)

instance (size : Nat) (places : List (List (Nat × Nat))) (source : Nat → Nat → Nat) :
    Decidable (PlacesRight size places source) :=
  inferInstanceAs (Decidable (∀ k < _, _ ∧ _))

section Moves

variable {size rd rm : Nat} {rs : List Nat} {source other : Nat → Nat → Nat}
  {f g : VfpRegs → VfpRegs}

theorem getLsbD_assemble (z : Nat → BitVec 64) {b : Nat} (hb : b < 64) (i : Nat)
    (places : List (Nat × Nat)) : (assemble size z i places).getLsbD b = (decide (i ≤ b / width size) &&
        (places[b / width size - i]?).any fun p => (lane size (z p.1) p.2).getLsbD (b % width size)) := by
  have hpos := width_pos size
  have hsplit := Nat.div_add_mod b (width size)
  have hmod := Nat.mod_lt b hpos
  induction places generalizing i with
  | nil => simp [assemble]
  | cons p places ih =>
    rw [assemble, BitVec.getLsbD_or, ih, BitVec.getLsbD_shiftLeft]
    rcases Nat.lt_trichotomy (b / width size) i with hlt | rfl | hgt
    · have hle := Nat.mul_le_mul_left (width size) (Nat.succ_le_of_lt hlt)
      rw [Nat.mul_succ] at hle
      simp [show b < width size * i by omega, show ¬ i + 1 ≤ b / width size by omega,
        show ¬ i ≤ b / width size by omega]
    · simp [hb, show b - width size * (b / width size) = b % width size by omega,
        show ¬ b < width size * (b / width size) by omega]
    · have hle := Nat.mul_le_mul_left (width size) (Nat.succ_le_of_lt hgt)
      rw [Nat.mul_succ] at hle
      simp [getLsbD_lane, show ¬ b - width size * i < width size by omega,
        show i + 1 ≤ b / width size by omega, hgt.le,
        show b / width size - i = b / width size - (i + 1) + 1 by omega]

theorem lane_assemble (hsize : size ≤ 3) (z : Nat → BitVec 64) {places : List (Nat × Nat)}
    (hlength : places.length = count size) {l : Nat} (hl : l < count size) :
    lane size (assemble size z 0 places) l =
      lane size (z (places.getD l (0, 0)).1) (places.getD l (0, 0)).2 := by
  apply BitVec.eq_of_getLsbD_eq
  intro i hi
  rw [getLsbD_lane]
  by_cases hwidth : i < width size
  · rw [getLsbD_assemble z (lane_inside hsize hl hwidth), Nat.mul_add_div (width_pos size),
      Nat.div_eq_of_lt hwidth, Nat.mul_add_mod, Nat.mod_eq_of_lt hwidth]
    simp [hwidth, hlength, hl, List.getD]
  · rw [getLsbD_lane]
    simp [hwidth]

theorem moves_of_assembled {places : List (List (Nat × Nat))} (hsize : size ≤ 3)
    (hplaces : PlacesRight size places source) (hlength : places.length = rs.length)
    (hword : ∀ regs, ∀ i < rs.length, f regs (rs.getD i 0) =
      assemble size (fun i => regs (rs.getD i 0)) 0 (places.getD i []))
    (hothers : ∀ regs, ∀ r ∉ rs, f regs r = regs r) : Moves size rs source f := by
  refine ⟨fun regs k hk => ?_, hothers⟩
  obtain ⟨hcount, hplace⟩ := hplaces k (hlength ▸ hk)
  have hpos := count_pos hsize
  rw [laneAt, hword regs _ ((Nat.div_lt_iff_lt_mul hpos).mpr hk),
    lane_assemble hsize _ hcount (Nat.mod_lt _ hpos), hplace, hlength]
  rfl

theorem permute_moves {d0 m0 : List (Nat × Nat)} (hne : rd ≠ rm) (hsize : size ≤ 3)
    (hplaces : PlacesRight size [d0, m0] source) :
    Moves size [rd, rm] source fun regs => permute size d0 m0 regs rd rm := by
  refine moves_of_assembled hsize hplaces rfl (fun regs i hi => ?_) fun regs r hr => ?_
  · change i < 2 at hi
    interval_cases i <;> simp [permute, hne.symm]
  · simp only [List.mem_cons, List.not_mem_nil, or_false, not_or] at hr
    simp [permute, hr]

theorem qpermute_moves {d0 d1 m0 m1 : List (Nat × Nat)} (hne : rd ≠ rm) (hsize : size ≤ 3)
    (hplaces : PlacesRight size [d0, d1, m0, m1] source) :
    Moves size [2 * rd, 2 * rd + 1, 2 * rm, 2 * rm + 1] source
      fun regs => qpermute size d0 d1 m0 m1 regs (2 * rd) (2 * rm) := by
  refine moves_of_assembled hsize hplaces rfl (fun regs i hi => ?_) fun regs r hr => ?_
  · change i < 4 at hi
    have hlow : 2 * rm ≠ 2 * rd + 1 := by omega
    have hhigh : 2 * rm + 1 ≠ 2 * rd := by omega
    interval_cases i <;> simp [qpermute, hlow, hhigh, hne.symm]
  · simp only [List.mem_cons, List.not_mem_nil, or_false, not_or] at hr
    simp [qpermute, hr]

/-- Two helpers that move the elements there and back. -/
theorem Moves.cancel (hf : Moves size rs source f) (hg : Moves size rs other g) (hsize : size ≤ 3)
    (hback : ∀ k < rs.length * count size, source (rs.length * count size) k <
      rs.length * count size ∧ other (rs.length * count size) (source (rs.length * count size) k) = k)
    (regs : VfpRegs) : f (g regs) = regs := by
  funext r
  by_cases hr : r ∈ rs
  · obtain ⟨i, hi, rfl⟩ := List.getElem_of_mem hr
    refine ext_lanes hsize fun l hl => ?_
    have hpos := count_pos hsize
    have hk : i * count size + l < rs.length * count size :=
      calc i * count size + l < (i + 1) * count size := by rw [Nat.succ_mul]; omega
        _ ≤ rs.length * count size := Nat.mul_le_mul_right _ hi
    have hget : rs.getD i 0 = rs[i] := by simp [hi]
    have hlane : ∀ regs : VfpRegs, laneAt size regs rs (i * count size + l) = lane size (regs rs[i]) l := by
      intro regs
      rw [laneAt, Nat.mul_comm, Nat.mul_add_div hpos, Nat.div_eq_of_lt hl, Nat.mul_add_mod,
        Nat.mod_eq_of_lt hl, Nat.add_zero, hget]
    rw [← hlane, ← hlane, hf.lanes _ _ hk, hg.lanes _ _ (hback _ hk).1, (hback _ hk).2]
  · rw [hf.others _ r hr, hg.others _ r hr]

end Moves

/-- The pairs of helpers: size of the elements, registers, zip and unzip. -/
def zipPairs (d m : Nat) : List (Nat × List Nat × (VfpRegs → VfpRegs) × (VfpRegs → VfpRegs)) :=
  let q := [2 * d, 2 * d + 1, 2 * m, 2 * m + 1]
  [(0, [d, m], (neonZip8 · d m), (neonUnzip8 · d m)),
    (1, [d, m], (neonZip16 · d m), (neonUnzip16 · d m)),
    (0, q, (neonQzip8 · (2 * d) (2 * m)), (neonQunzip8 · (2 * d) (2 * m))),
    (1, q, (neonQzip16 · (2 * d) (2 * m)), (neonQunzip16 · (2 * d) (2 * m))),
    (2, q, (neonQzip32 · (2 * d) (2 * m)), (neonQunzip32 · (2 * d) (2 * m)))]

/-- On two different registers every helper interleaves or de-interleaves their elements and
changes no other register, and zip and unzip undo each other. -/
theorem zip_unzip_registers (d m : Nat) (hne : d ≠ m) : ∀ p ∈ zipPairs d m,
    Moves p.1 p.2.1 zipFrom p.2.2.1 ∧ Moves p.1 p.2.1 unzipFrom p.2.2.2 ∧
      ∀ regs, p.2.2.1 (p.2.2.2 regs) = regs ∧ p.2.2.2 (p.2.2.1 regs) = regs := by
  have hinverse : ∀ {size rs zip unzip}, size ≤ 3 → rs.length * count size % 2 = 0 →
      Moves size rs zipFrom zip → Moves size rs unzipFrom unzip →
      Moves size rs zipFrom zip ∧ Moves size rs unzipFrom unzip ∧
        ∀ regs, zip (unzip regs) = regs ∧ unzip (zip regs) = regs := by
    intro size rs zip unzip hsize heven hzip hunzip
    refine ⟨hzip, hunzip, fun regs => ⟨hzip.cancel hunzip hsize (fun k hk => ?_) regs,
      hunzip.cancel hzip hsize (fun k hk => ?_) regs⟩⟩ <;>
    · simp only [zipFrom, unzipFrom]
      split_ifs <;> omega
  simp only [zipPairs, List.forall_mem_cons, List.not_mem_nil, false_imp_iff, implies_true, and_true]
  refine ⟨?_, ?_, ?_, ?_, ?_⟩ <;> refine hinverse (by decide) (by simp [count]) ?_ ?_
  all_goals
    first
    | exact permute_moves hne (by decide) (by decide)
    | exact qpermute_moves hne (by decide) (by decide)

/-- The halfwords of d0 and d1, interleaved. -/
theorem zip_unzip_registers_d0_d1 : (0 : Nat) ≠ 1 ∧ Moves 1 [0, 1] zipFrom (neonZip16 · 0 1) :=
  ⟨by decide, (zip_unzip_registers 0 1 (by decide) (1, [0, 1], (neonZip16 · 0 1),
    (neonUnzip16 · 0 1)) (by simp [zipPairs])).1⟩

end TcgArm.Neon
