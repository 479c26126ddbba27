import TcgArm.NeonLsMoves

/-! The element and structure loads and stores of the architecture, by the elements they transfer,
and the ops of `disas_neon_ls_insn` against them. An access of `n`-element structures takes element
`r` of structure `e` from the `r`-th register of the structure's registers. -/

namespace TcgArm.NeonLs

open ByteMemory Lanes BitVec Nat
open BitVec (ofNat)

inductive Access
  /-- All elements of `regs` registers, as structures of `n`. -/
  | multiple (n regs spacing size : Nat)
  /-- One structure, in the same lane of `n` registers. -/
  | single (n spacing size lane : Nat)
  /-- One structure, each element in all lanes of a register, or of two. -/
  | allLanes (n regs spacing size : Nat)
  deriving DecidableEq

namespace Access

def size : Access → Nat
  | .multiple _ _ _ size | .single _ _ size _ | .allLanes _ _ _ size => size

def bytes : Access → Nat
  | .multiple _ regs _ _ => 8 * regs
  | .single n _ size _ | .allLanes n _ _ size => 2 ^ size * n

def last (rd : Nat) : Access → Nat
  | .multiple _ regs spacing _ | .allLanes _ regs spacing _ => rd + spacing * (regs - 1)
  | .single n spacing _ _ => rd + spacing * (n - 1)

def Maps (rd : Nat) (base : Word) (el : Element) : Access → Prop
  | .multiple n regs spacing size => ∃ r < n, ∃ e < regs / n * count size,
      el = ⟨rd + spacing * (r * (regs / n) + e / count size), e % count size,
        base + BitVec.ofNat 32 (2 ^ size * (e * n + r))⟩
  | .single n spacing size lane => ∃ r < n,
      el = ⟨rd + spacing * r, lane, base + BitVec.ofNat 32 (2 ^ size * r)⟩
  | .allLanes n regs spacing size => ∃ k < regs, ∃ l < count size,
      el = ⟨rd + spacing * k, l, base + BitVec.ofNat 32 (2 ^ size * (k % n))⟩

/-- The multiple-structure formats, by `type`, `size` and the two bits of `align`. -/
def ofMultiple (type size align : Nat) : Option Access :=
  match type with
  | 0 => if size = 3 then none else some (.multiple 4 4 1 size)
  | 1 => if size = 3 then none else some (.multiple 4 4 2 size)
  | 2 => some (.multiple 1 4 1 size)
  | 3 => if size = 3 then none else some (.multiple 2 4 1 size)
  | 4 => if size = 3 ∨ align ≥ 2 then none else some (.multiple 3 3 1 size)
  | 5 => if size = 3 ∨ align ≥ 2 then none else some (.multiple 3 3 2 size)
  | 6 => if align ≥ 2 then none else some (.multiple 1 3 1 size)
  | 7 => if align ≥ 2 then none else some (.multiple 1 1 1 size)
  | 8 => if size = 3 ∨ align = 3 then none else some (.multiple 2 2 1 size)
  | 9 => if size = 3 ∨ align = 3 then none else some (.multiple 2 2 2 size)
  | 10 => if align = 3 then none else some (.multiple 1 2 1 size)
  | _ => none

/-- The single-element formats, by the number of elements, `size` and `index_align`. -/
def ofSingle (n size indexAlign : Nat) : Option Access :=
  let low2 := indexAlign % 4
  match size with
  | 0 =>
    if (n = 1 ∨ n = 3) ∧ indexAlign % 2 ≠ 0 then none
    else some (.single n 1 0 (indexAlign / 2))
  | 1 =>
    if (n = 1 ∧ low2 / 2 ≠ 0) ∨ (n = 3 ∧ indexAlign % 2 ≠ 0) then none
    else some (.single n (1 + low2 / 2) 1 (indexAlign / 4))
  | 2 =>
    let spacing := 1 + indexAlign / 4 % 2
    match n with
    | 1 => if spacing = 2 ∨ (low2 ≠ 0 ∧ low2 ≠ 3) then none
        else some (.single 1 1 2 (indexAlign / 8))
    | 2 => if low2 / 2 ≠ 0 then none else some (.single 2 spacing 2 (indexAlign / 8))
    | 3 => if low2 ≠ 0 then none else some (.single 3 spacing 2 (indexAlign / 8))
    | _ => if low2 = 3 then none else some (.single n spacing 2 (indexAlign / 8))
  | _ => none

/-- The formats for one element to all lanes, by the number of elements, `size`, `T` and `a`. -/
def ofAllLanes (n size t a : Nat) : Option Access :=
  match n with
  | 1 => if size = 3 ∨ (size = 0 ∧ a = 1) then none else some (.allLanes 1 (1 + t) 1 size)
  | 2 => if size = 3 then none else some (.allLanes 2 2 (1 + t) size)
  | 3 => if size = 3 ∨ a = 1 then none else some (.allLanes 3 3 (1 + t) size)
  | _ =>
    if size = 3 then (if a = 0 then none else some (.allLanes n n (1 + t) 2))
    else some (.allLanes n n (1 + t) size)

/-- The access of an instruction word; one element to all lanes is a load. -/
def decode (insn : Word) : Option Access :=
  if field insn 23 1 = 0 then ofMultiple (field insn 8 4) (field insn 6 2) (field insn 4 2)
  else if field insn 10 2 = 3 then
    if field insn 21 1 = 0 then none
    else ofAllLanes (field insn 8 2 + 1) (field insn 6 2) (field insn 5 1) (field insn 4 1)
  else ofSingle (field insn 8 2 + 1) (field insn 10 2) (field insn 4 4)

end Access

theorem field_eq (insn : Word) (lo len : Nat) :
    field insn lo len = insn.toNat / 2 ^ lo % 2 ^ len := by
  rw [field, extractLsb'_toNat, shiftRight_eq_div_pow]

section Legal

variable {insn : Word} {acc : Access} {load : Bool} {rn rd : Nat}

set_option synthInstance.maxSize 1000 in
theorem ofMultiple_table : ∀ op < 16, ∀ size < 4, ∀ align < 4, Access.ofMultiple op size align = none ∨
      let (nregs, interleave, spacing) := neonLsElementType op
      ¬ op > 10 ∧ ¬ (op / 4 = 1 ∧ align / 2 = 1) ∧ ¬ (op / 4 = 2 ∧ align = 3) ∧
        ¬ (size = 3 ∧ interleave ||| spacing ≠ 1) ∧
        Access.ofMultiple op size align = some (.multiple interleave nregs spacing size) := by
  decide

theorem multiple_legal (h : Access.ofMultiple (field insn 8 4) (field insn 6 2) (field insn 4 2) = some acc) :
    ∃ n regs spacing, acc = .multiple n regs spacing (field insn 6 2) ∧ Format regs n spacing ∧
      multiple load insn rn rd = some (multipleOps load regs n spacing (field insn 6 2) rn rd, 8 * regs) := by
  have hbit : field insn 5 1 = field insn 4 2 / 2 := by
    simp only [field_eq]
    omega
  have htable := (ofMultiple_table _ (field_lt insn 8 4) _ (field_lt insn 6 2) _
    (field_lt insn 4 2)).resolve_left (by simp [h])
  unfold multiple
  obtain ⟨⟨nregs, interleave, spacing⟩, hentry⟩ :
      ∃ entry, neonLsElementType (field insn 8 4) = entry := ⟨_, rfl⟩
  simp only [hentry] at htable ⊢
  obtain ⟨hop, hlow, hhigh, hlong, hacc⟩ := htable
  refine ⟨interleave, nregs, spacing, Option.some.inj (h.symm.trans hacc), ⟨_, by omega, hentry⟩, ?_⟩
  rw [if_neg hop, hbit, if_neg hlow, if_neg hhigh, if_neg hlong, Nat.mul_comm]

def indexInHalf (size idx : Nat) : Nat :=
  match size with
  | 0 => idx / 2 % 4
  | 1 => idx / 4 % 2
  | _ => 0

def singleSpacing (size idx : Nat) : Nat :=
  match size with
  | 0 => 1
  | 1 => if idx / 2 % 2 = 1 then 2 else 1
  | _ => if idx / 4 % 2 = 1 then 2 else 1

set_option synthInstance.maxSize 1000 in
theorem ofSingle_table : ∀ n < 5, 0 < n → ∀ size < 3, ∀ idx < 16, Access.ofSingle n size idx = none ∨
      singleUndef n size idx = false ∧ indexInHalf size idx < perHalf size ∧
      Access.ofSingle n size idx = some (.single n (singleSpacing size idx) size
        (perHalf size * (idx / 8) + indexInHalf size idx)) := by
  decide

theorem single_legal (hsize : field insn 10 2 ≠ 3)
    (h : Access.ofSingle (field insn 8 2 + 1) (field insn 10 2) (field insn 4 4) = some acc)
    (hlast : acc.last rd ≤ 31) :
    ∃ spacing idx, 0 < spacing ∧ idx < perHalf (field insn 10 2) ∧
      acc = .single (field insn 8 2 + 1) spacing (field insn 10 2)
        (perHalf (field insn 10 2) * field insn 7 1 + idx) ∧
      single load insn rn rd = some (singleOps load (field insn 8 2 + 1) (field insn 10 2) rn rd
        (field insn 7 1) (width (field insn 10 2) * idx) spacing,
        (field insn 8 2 + 1) * 2 ^ field insn 10 2) := by
  have hn := field_lt insn 8 2
  have hwide := field_lt insn 10 2
  have hidx := field_lt insn 4 4
  obtain ⟨hundef, hin, hacc⟩ := (ofSingle_table (field insn 8 2 + 1) (by omega) (succ_pos _)
    (field insn 10 2) (by omega) _ hidx).resolve_left (by rw [h]; simp)
  obtain rfl := Option.some.inj (h.symm.trans hacc)
  have hpass : field insn 7 1 = field insn 4 4 / 8 := by
    simp only [field_eq]
    omega
  have h52 : field insn 5 2 = field insn 4 4 / 2 % 4 := by
    simp only [field_eq]
    omega
  have h61 : field insn 6 1 = field insn 4 4 / 4 % 2 := by
    simp only [field_eq]
    omega
  have h51 : field insn 5 1 = field insn 4 4 / 2 % 2 := by
    simp only [field_eq]
    omega
  have hshift : singleShiftStride insn (field insn 10 2) =
      (width (field insn 10 2) * indexInHalf (field insn 10 2) (field insn 4 4),
        singleSpacing (field insn 10 2) (field insn 4 4)) := by
    unfold singleShiftStride
    simp only [h52, h61, h51]
    generalize field insn 10 2 = size at *
    interval_cases size
    · simp [width, indexInHalf, singleSpacing, Nat.mul_comm]
    · simp [width, indexInHalf, singleSpacing, Nat.mul_comm]
    · simp [indexInHalf, singleSpacing]
    · exact absurd rfl hsize
  have hpos : 0 < singleSpacing (field insn 10 2) (field insn 4 4) := by
    unfold singleSpacing
    split <;> (try split_ifs) <;> decide
  refine ⟨_, _, hpos, hin, by rw [hpass], ?_⟩
  rw [single]
  simp only [hshift, hundef]
  rw [if_neg Bool.false_ne_true]
  exact if_neg (Nat.not_lt.mpr hlast)

theorem ofAllLanes_table {n size t a : Nat} (hpos : 0 < n) (hn : n ≤ 4)
    (h : Access.ofAllLanes n size t a = some acc) :
    ¬ (size = 3 ∧ (n ≠ 4 ∨ a = 0)) ∧
    ¬ (n = 1 ∧ a = 1 ∧ (if size = 3 then 2 else size) = 0) ∧ ¬ (n = 3 ∧ a = 1) ∧
    acc = .allLanes n (if n = 1 then 1 + t else n) (if n = 1 then 1 else 1 + t)
      (if size = 3 then 2 else size) := by
  unfold Access.ofAllLanes at h
  interval_cases n <;> simp only at h <;> split_ifs at h with hsize <;> cases h
  · simp_all
    tauto
  · simp_all
  · simp_all
  · simp_all
  · simp_all

theorem allLanes_legal
    (h : Access.ofAllLanes (field insn 8 2 + 1) (field insn 6 2) (field insn 5 1) (field insn 4 1) =
      some acc) :
    acc = .allLanes (field insn 8 2 + 1)
      (if field insn 8 2 + 1 = 1 then 1 + field insn 5 1 else field insn 8 2 + 1)
      (if field insn 8 2 + 1 = 1 then 1 else 1 + field insn 5 1) (allLanesSize insn) ∧
    allLanes true insn rn rd = some (allLanesOps (field insn 8 2 + 1) (allLanesSize insn) rn rd
      (field insn 5 1 = 1), 2 ^ allLanesSize insn * (field insn 8 2 + 1)) := by
  have hn := field_lt insn 8 2
  obtain ⟨hlong, hbyte, hthree, hacc⟩ := ofAllLanes_table (succ_pos _) (by omega) h
  refine ⟨hacc, ?_⟩
  replace hbyte : ¬ (field insn 8 2 + 1 = 1 ∧ field insn 4 1 = 1 ∧ allLanesSize insn = 0) := hbyte
  unfold allLanes
  simp only
  rw [if_neg (by decide), if_neg hlong, if_neg hbyte, if_neg hthree]

end Legal

section Elements

variable {n regs spacing size rd : Nat} {base : Word} {el : Element}

theorem format_table : ∀ op < 11, let (nregs, interleave, spacing) := neonLsElementType op
    0 < interleave ∧ 0 < spacing ∧ 0 < nregs / interleave ∧ nregs = interleave * (nregs / interleave) ∧
      nregs ≤ 4 := by
  decide

theorem Format.facts (h : Format regs n spacing) : 0 < n ∧ 0 < spacing ∧ 0 < regs / n ∧
    regs = n * (regs / n) ∧ regs ≤ 4 := by
  obtain ⟨op, hop, hentry⟩ := h.mem
  have htable := format_table op hop
  rwa [hentry] at htable

theorem mem_multiple_iff (hformat : Format regs n spacing) (hsize : size ≤ 3) :
    el ∈ (List.range regs).flatMap (multipleEls regs n spacing size rd base) ↔
      (Access.multiple n regs spacing size).Maps rd base el := by
  obtain ⟨hn, -, hgroup, hregs, -⟩ := hformat.facts
  have hcount : 0 < count size := by interval_cases size <;> decide
  have haddr : ∀ q j r : Nat, base + ofNat 32 (2 ^ size * (q * count size * n + r)) +
      ofNat 32 (2 ^ size * n * j) =
        base + ofNat 32 (2 ^ size * ((q * count size + j) * n + r)) := fun q j r => by
    rw [BitVec.add_assoc, ← ofNat_add]
    congr 2
    ring
  simp only [List.mem_flatMap, List.mem_range, multipleEls, mem_span, start, haddr, Access.Maps, Nat.zero_add]
  generalize regs / n = group at *
  constructor
  · rintro ⟨k, hk, j, hj, rfl⟩
    have hquot : (k % group * count size + j) / count size = k % group := by
      rw [Nat.mul_comm, mul_add_div hcount, div_eq_of_lt hj, Nat.add_zero]
    refine ⟨k / group, ?_, k % group * count size + j, ?_, ?_⟩
    · rw [Nat.div_lt_iff_lt_mul hgroup, ← hregs]
      exact hk
    · calc k % group * count size + j < k % group * count size + count size := by omega
        _ = (k % group + 1) * count size := (succ_mul _ _).symm
        _ ≤ group * count size := Nat.mul_le_mul_right _ (mod_lt _ hgroup)
    · rw [hquot, Nat.mul_comm (k / group), div_add_mod, Nat.mul_comm (k % group),
        mul_add_mod, mod_eq_of_lt hj]
  · rintro ⟨r, hr, e, he, rfl⟩
    have hquot : e / count size < group := (Nat.div_lt_iff_lt_mul hcount).mpr he
    refine ⟨r * group + e / count size, ?_, e % count size, mod_lt _ hcount, ?_⟩
    · calc r * group + e / count size < r * group + group := by omega
        _ = (r + 1) * group := (succ_mul _ _).symm
        _ ≤ n * group := Nat.mul_le_mul_right _ hr
        _ = regs := hregs.symm
    · have hdiv : (r * group + e / count size) / group = r := by
        rw [Nat.mul_comm, mul_add_div hgroup, div_eq_of_lt hquot, Nat.add_zero]
      have hmod : (r * group + e / count size) % group = e / count size := by
        rw [Nat.mul_comm, mul_add_mod, mod_eq_of_lt hquot]
      rw [hdiv, hmod, Nat.mul_comm (e / count size), div_add_mod]

theorem mem_single_iff {lane stride : Nat} : el ∈ singleEls n size rd lane stride base ↔
    (Access.single n stride size lane).Maps rd base el := by
  simp only [singleEls, List.mem_flatMap, List.mem_range, List.mem_singleton, Access.Maps]

theorem mem_allLanes_iff {t : Nat} (ht : t < 2) (hn : 0 < n) :
    el ∈ allLanesEls n size rd (t = 1) base ↔
      (Access.allLanes n (if n = 1 then 1 + t else n) (if n = 1 then 1 else 1 + t) size).Maps rd base
        el := by
  have hzero : ∀ a : Word, ∀ j : Nat, a + ofNat 32 (0 * j) = a := fun a j => by simp
  by_cases hone : n = 1
  · subst hone
    -- The second register, if there is one, takes the same element.
    have hcopies : ∀ k, k < 1 + t ↔ k = 0 ∨ (t = 1 ∧ k = 1) := fun k => by omega
    simp only [allLanesEls, if_true, Access.Maps, mod_one, Nat.mul_zero, Nat.one_mul, hcopies,
      List.mem_append, mem_span, hzero, Nat.zero_add,
      show base + ofNat 32 0 = base from BitVec.add_zero base]
    constructor
    · rintro (⟨l, hl, rfl⟩ | hsecond)
      · exact ⟨0, .inl rfl, l, hl, rfl⟩
      · split_ifs at hsecond with hset
        · obtain ⟨l, hl, rfl⟩ := mem_span.mp hsecond
          exact ⟨1, .inr ⟨of_decide_eq_true hset, rfl⟩, l, hl, by rw [hzero, Nat.zero_add]⟩
        · cases hsecond
    · rintro ⟨k, rfl | ⟨hset, rfl⟩, l, hl, rfl⟩
      · exact .inl ⟨l, hl, rfl⟩
      · refine .inr ?_
        rw [if_pos (decide_eq_true hset)]
        exact mem_span.mpr ⟨l, hl, by rw [hzero, Nat.zero_add]⟩
  · have hspacing : (if decide (t = 1) = true then 2 else 1) = 1 + t := by
      interval_cases t <;> rfl
    simp only [allLanesEls, if_neg hone, hspacing, List.mem_flatMap, List.mem_range, mem_span, hzero,
      Access.Maps, Nat.zero_add]
    constructor
    · rintro ⟨k, hk, l, hl, rfl⟩
      exact ⟨k, hk, l, hl, by rw [mod_eq_of_lt hk]⟩
    · rintro ⟨k, hk, l, hl, rfl⟩
      exact ⟨k, hk, l, hl, by rw [mod_eq_of_lt hk]⟩

end Elements

def Access.Proper : Access → Prop
  | .multiple n regs spacing size =>
    0 < n ∧ 0 < spacing ∧ regs = n * (regs / n) ∧ regs ≤ 4 ∧ size ≤ 3
  | .single n spacing size lane => n ≤ 4 ∧ 0 < spacing ∧ size ≤ 2 ∧ lane < count size
  | .allLanes _ _ spacing size => 0 < spacing ∧ size ≤ 2

section Proper

variable {acc : Access} {rd : Nat} {base : Word} {a b : Element}

theorem Access.Proper.size_le (h : acc.Proper) : acc.size ≤ 3 := by
  cases acc with
  | multiple n regs spacing size => exact h.2.2.2.2
  | single n spacing size lane => exact le_succ_of_le h.2.2.1
  | allLanes n regs spacing size => exact le_succ_of_le h.2

theorem Access.Proper.lane_lt (h : acc.Proper) (ha : acc.Maps rd base a) : a.lane < count acc.size := by
  cases acc with
  | multiple n regs spacing size =>
    obtain ⟨r, -, e, -, rfl⟩ := ha
    exact mod_lt _ (count_pos h.size_le)
  | single n spacing size lane =>
    obtain ⟨r, -, rfl⟩ := ha
    exact h.2.2.2
  | allLanes n regs spacing size =>
    obtain ⟨k, -, l, hl, rfl⟩ := ha
    exact hl

/-- A lane has one address. -/
theorem Access.Proper.same (h : acc.Proper) (ha : acc.Maps rd base a) (hb : acc.Maps rd base b)
    (hreg : a.reg = b.reg) (hlane : a.lane = b.lane) : a.addr = b.addr := by
  have hcancel : ∀ {spacing x y : Nat}, 0 < spacing → rd + spacing * x = rd + spacing * y → x = y :=
    fun hpos heq => Nat.eq_of_mul_eq_mul_left hpos (Nat.add_left_cancel heq)
  cases acc with
  | multiple n regs spacing size =>
    obtain ⟨-, hspacing, -⟩ := h
    obtain ⟨r, -, e, he, rfl⟩ := ha
    obtain ⟨r', -, e', he', rfl⟩ := hb
    have hindex : r * (regs / n) + e / count size = r' * (regs / n) + e' / count size := hcancel hspacing hreg
    have hquot : e / count size < regs / n := Nat.div_lt_of_lt_mul (Nat.mul_comm _ _ ▸ he)
    have hquot' : e' / count size < regs / n := Nat.div_lt_of_lt_mul (Nat.mul_comm _ _ ▸ he')
    have hr : r = r' := by
      have hdiv := congrArg (· / (regs / n)) hindex
      simpa [Nat.mul_comm _ (regs / n), mul_add_div (zero_lt_of_lt hquot),
        div_eq_of_lt hquot, div_eq_of_lt hquot'] using hdiv
    subst hr
    have hsame : e = e' := by
      rw [← div_add_mod e (count size), ← div_add_mod e' (count size),
        Nat.add_left_cancel hindex, show e % count size = e' % count size from hlane]
    rw [hsame]
  | single n spacing size lane =>
    obtain ⟨r, -, rfl⟩ := ha
    obtain ⟨r', -, rfl⟩ := hb
    rw [show r = r' from hcancel h.2.1 hreg]
  | allLanes n regs spacing size =>
    obtain ⟨k, -, l, -, rfl⟩ := ha
    obtain ⟨k', -, l', -, rfl⟩ := hb
    rw [show k = k' from hcancel h.1 hreg]

def Access.Stores : Access → Prop
  | .allLanes .. => False
  | _ => True

theorem Access.Proper.apart (h : acc.Proper) (hstores : acc.Stores) (ha : acc.Maps rd base a)
    (hb : acc.Maps rd base b) (hne : a ≠ b) : Apart acc.size a b := by
  have hpow : ∀ {size : Nat}, size ≤ 3 → 2 ^ size ≤ 8 := fun hsize => Nat.pow_le_pow_right (by decide) hsize
  cases acc with
  | multiple n regs spacing size =>
    obtain ⟨hn, -, hregs, hfour, hsize⟩ := h
    obtain ⟨r, hr, e, he, rfl⟩ := ha
    obtain ⟨r', hr', e', he', rfl⟩ := hb
    have hcount : count size ≤ 8 := Nat.div_le_self _ _
    -- There are at most 32 elements.
    have hbound : ∀ {r e}, r < n → e < regs / n * count size → e * n + r < 32 := by
      intro r e hr he
      calc e * n + r < (e + 1) * n := by rw [Nat.succ_mul]; omega
        _ ≤ regs / n * count size * n := Nat.mul_le_mul_right _ he
        _ = regs * count size := by rw [Nat.mul_right_comm, Nat.mul_comm _ n, ← hregs]
        _ ≤ 32 := Nat.mul_le_mul hfour hcount
    have hfits : ∀ {x}, x < 32 → 2 ^ size * (x + 1) ≤ 2 ^ 32 := fun hx =>
      (Nat.mul_le_mul (hpow hsize) hx).trans (by decide)
    refine apart_of_ne rfl rfl (hfits (hbound hr he)) (hfits (hbound hr' he')) fun heq => hne ?_
    have hr : r = r' := by
      have hmod := congrArg (· % n) heq
      simpa [Nat.mul_comm _ n, mul_add_mod, mod_eq_of_lt hr, mod_eq_of_lt hr'] using hmod
    subst hr
    rw [eq_of_mul_eq_mul_right hn (Nat.add_right_cancel heq)]
  | single n spacing size lane =>
    obtain ⟨hfour, -, hsize, -⟩ := h
    obtain ⟨r, hr, rfl⟩ := ha
    obtain ⟨r', hr', rfl⟩ := hb
    have hfits : ∀ {x}, x < n → 2 ^ size * (x + 1) ≤ 2 ^ 32 := fun hx =>
      (Nat.mul_le_mul (hpow (le_succ_of_le hsize)) (hx.trans_le hfour)).trans (by decide)
    refine apart_of_ne rfl rfl (hfits hr) (hfits hr') fun heq => hne ?_
    rw [heq]
  | allLanes n regs spacing size => exact hstores.elim

end Proper

/-- The ops of a legal word move the elements of its access. -/
theorem transfer_legal {insn : Word} {acc : Access} {rn rd : Nat}
    (hacc : Access.decode insn = some acc) (hlast : acc.last rd ≤ 31) :
    acc.Proper ∧ (field insn 21 1 = 0 → acc.Stores) ∧ ∃ ops, transfer insn rn rd = some (ops, acc.bytes) ∧ ∀ (ctx : Context) (s : State),
      ∃ els, (∀ el, el ∈ els ↔ acc.Maps rd (s.readReg ctx rn) el) ∧
        Moved ctx (field insn 21 1 = 1) acc.size els s (run ctx ops s) := by
  have hload := field_lt insn 21 1
  unfold Access.decode at hacc
  unfold transfer
  by_cases hmultiple : field insn 23 1 = 0
  · rw [if_pos hmultiple] at hacc ⊢
    have hsize : field insn 6 2 ≤ 3 := le_of_lt_succ (field_lt insn 6 2)
    obtain ⟨n, regs, spacing, rfl, hformat, hops⟩ := @multiple_legal insn acc (field insn 21 1 = 1) rn rd hacc
    obtain ⟨hn, hspacing, -, hregs, hfour⟩ := hformat.facts
    exact ⟨⟨hn, hspacing, hregs, hfour, hsize⟩, fun _ => trivial, _, hops, fun ctx s =>
      ⟨_, fun el => mem_multiple_iff hformat hsize, moved_multiple hformat hsize⟩⟩
  rw [if_neg hmultiple] at hacc ⊢
  by_cases hall : field insn 10 2 = 3
  · rw [if_pos hall] at hacc ⊢
    by_cases hstore : field insn 21 1 = 0
    · rw [if_pos hstore] at hacc
      cases hacc
    rw [if_neg hstore] at hacc
    have hset : field insn 21 1 = 1 := by omega
    obtain ⟨rfl, hops⟩ := @allLanes_legal insn acc rn rd hacc
    have hsize : allLanesSize insn ≤ 2 := by
      have hfield := field_lt insn 6 2
      unfold allLanesSize
      split_ifs <;> omega
    have hspacing : 0 < if field insn 8 2 + 1 = 1 then 1 else 1 + field insn 5 1 := by
      split_ifs <;> omega
    simp only [hset, decide_true]
    exact ⟨⟨hspacing, hsize⟩, fun h => absurd h (by decide), _, hops, fun ctx s => ⟨_, fun el =>
      mem_allLanes_iff (field_lt insn 5 1) (succ_pos _), moved_allLanes hsize _⟩⟩
  · rw [if_neg hall] at hacc ⊢
    have hsize : field insn 10 2 ≤ 2 := by
      have hfield := field_lt insn 10 2
      omega
    obtain ⟨spacing, idx, hspacing, hidx, rfl, hops⟩ :=
      @single_legal insn acc (field insn 21 1 = 1) rn rd hall hacc hlast
    rw [Nat.mul_comm (field insn 8 2 + 1)] at hops
    have hn := field_lt insn 8 2
    have hlane : perHalf (field insn 10 2) * field insn 7 1 + idx < count (field insn 10 2) := by
      have hpass := field_lt insn 7 1
      generalize field insn 10 2 = size at *
      have hcount : count size = perHalf size * 2 := by interval_cases size <;> rfl
      calc perHalf size * field insn 7 1 + idx < perHalf size * (field insn 7 1 + 1) := by
            rw [Nat.mul_succ]
            omega
        _ ≤ perHalf size * 2 := Nat.mul_le_mul_left _ hpass
        _ = count size := hcount.symm
    exact ⟨⟨hn, hspacing, hsize, hlane⟩, fun _ => trivial, _, hops, fun ctx s =>
      ⟨_, fun el => mem_single_iff, moved_single hsize hidx⟩⟩

/-- What an instruction does: the elements of its access are loaded, or stored, every other lane,
register and byte keeps its value, and the base register is advanced as the word says. -/
structure Transfers (ctx : Context) (insn : Word) (acc : Access) (rd : Nat) (s s' : State) : Prop where
  load : field insn 21 1 = 1 →
    (∀ el, acc.Maps rd (s.core (field insn 16 4)) el → lane acc.size (s'.dreg el.reg) el.lane =
      ByteMemory.load ctx.beData (2 ^ acc.size) el.addr s.mem) ∧
    (∀ reg l, l < count acc.size →
      (∀ el, acc.Maps rd (s.core (field insn 16 4)) el → ¬ (el.reg = reg ∧ el.lane = l)) →
      lane acc.size (s'.dreg reg) l = lane acc.size (s.dreg reg) l) ∧ s'.mem = s.mem
  store : field insn 21 1 = 0 →
    (∀ el, acc.Maps rd (s.core (field insn 16 4)) el →
      ByteMemory.load ctx.beData (2 ^ acc.size) el.addr s'.mem = lane acc.size (s.dreg el.reg) el.lane) ∧
    (∀ byte, (∀ el, acc.Maps rd (s.core (field insn 16 4)) el →
      ¬ Covered el.addr (2 ^ acc.size) byte) → s'.mem byte = s.mem byte) ∧ s'.dreg = s.dreg
  core : s'.core = if field insn 0 4 = 15 then s.core
    else Function.update s.core (field insn 16 4) (s.core (field insn 16 4) +
      if field insn 0 4 = 13 then BitVec.ofNat 32 acc.bytes else s.core (field insn 0 4))

theorem run_writeBack {ctx : Context} {rn rm stride : Nat} (hrn : rn ≠ 15) (s : State) :
    (run ctx (writeBack rn rm stride) s).dreg = s.dreg ∧
    (run ctx (writeBack rn rm stride) s).mem = s.mem ∧
    (run ctx (writeBack rn rm stride) s).core = if rm = 15 then s.core
      else Function.update s.core rn (s.core rn + if rm = 13 then ofNat 32 stride else s.core rm) := by
  unfold writeBack
  split_ifs with hnone hstride
  · exact ⟨rfl, rfl, rfl⟩
  · refine ⟨rfl, rfl, ?_⟩
    simp [run, exec, State.setTemp, State.readReg, hrn]
  · refine ⟨rfl, rfl, ?_⟩
    simp [run, exec, State.setTemp, State.readReg, hrn, hnone]

theorem transfers_legal {ctx : Context} {insn : Word} {acc : Access} {rd : Nat}
    (hfp : ctx.fpExcpEl = 0) (hvfp : ctx.vfpEnabled = true) (hrd : vfpDregD ctx insn = some rd)
    (hacc : Access.decode insn = some acc) (hrn : field insn 16 4 ≠ 15) (hlast : acc.last rd ≤ 31) :
    ∃ ops, disasNeonLsInsn ctx insn = .emit ops ∧ ∀ s, Transfers ctx insn acc rd s (run ctx ops s) := by
  obtain ⟨hproper, hstores, ops, hops, hmoved⟩ := @transfer_legal insn acc (field insn 16 4) rd hacc hlast
  refine ⟨ops ++ writeBack (field insn 16 4) (field insn 0 4) acc.bytes, ?_, fun s => ?_⟩
  · rw [disasNeonLsInsn, if_neg (by simp [hfp]), if_neg (by simp [hvfp])]
    simp only [hrd, Option.bind_some, hops]
  obtain ⟨els, hels, hmove⟩ := hmoved ctx s
  obtain ⟨hdreg, hmem, hcore⟩ := @run_writeBack ctx _ (field insn 0 4) acc.bytes hrn (run ctx ops s)
  have hbase : s.readReg ctx (field insn 16 4) = s.core (field insn 16 4) := if_neg hrn
  rw [hbase] at hels
  rw [run_append]
  refine ⟨fun hload => ?_, fun hstore => ?_, ?_⟩
  · rw [hdreg, hmem]
    simp only [hload, decide_true] at hmove
    rw [hmove.dreg, if_pos rfl]
    refine ⟨fun el hel => ?_, fun reg l hl hnot => ?_, hmove.mem⟩
    · exact lane_loadAll_of_mem hproper.size_le (fun a ha => hproper.lane_lt ((hels a).mp ha))
        (fun a ha b hb => hproper.same ((hels a).mp ha) ((hels b).mp hb)) ((hels el).mpr hel)
    · exact lane_loadAll_of_not_mem hproper.size_le hl fun el hel => hnot el ((hels el).mp hel)
  · rw [hdreg, hmem]
    simp only [hstore, Nat.zero_ne_one, decide_false] at hmove
    rw [hmove.mem, if_neg Bool.false_ne_true]
    refine ⟨fun el hel => ?_, fun byte hnot => ?_, hmove.dreg⟩
    · exact load_storeAll_of_mem hproper.size_le (fun a ha b hb hne =>
        hproper.apart (hstores hstore) ((hels a).mp ha) ((hels b).mp hb) hne) ((hels el).mpr hel)
    · exact storeAll_of_not_covered fun el hel => hnot el ((hels el).mp hel)
  · rw [hcore, hmove.core]

def loadWord (insn : Word) : Word := insn ||| BitVec.twoPow 32 21

theorem field_loadWord (insn : Word) {lo len : Nat} (h : lo + len ≤ 21 ∨ 22 ≤ lo) :
    field (loadWord insn) lo len = field insn lo len := by
  rw [field, field, loadWord]
  congr 1
  apply eq_of_getLsbD_eq
  intro i hi
  have hne : ¬ 21 = lo + i := by omega
  simp [getLsbD_extractLsb', getLsbD_or, getLsbD_twoPow, hne]

theorem field_loadWord_set (insn : Word) : field (loadWord insn) 21 1 = 1 := by
  have hset : (loadWord insn).extractLsb' 21 1 = 1 := by
    apply eq_of_getLsbD_eq
    intro i hi
    obtain rfl : i = 0 := by omega
    simp [loadWord]
  rw [field, hset]
  rfl

theorem decode_loadWord {insn : Word} {acc : Access} (hstore : field insn 21 1 = 0)
    (hacc : Access.decode insn = some acc) : Access.decode (loadWord insn) = some acc := by
  unfold Access.decode at hacc ⊢
  simp (disch := omega) only [field_loadWord]
  by_cases hmultiple : field insn 23 1 = 0
  · rwa [if_pos hmultiple] at hacc ⊢
  · rw [if_neg hmultiple] at hacc ⊢
    by_cases hall : field insn 10 2 = 3
    · rw [if_pos hall, if_pos hstore] at hacc
      cases hacc
    · rwa [if_neg hall] at hacc ⊢

theorem vfpDregD_loadWord (ctx : Context) (insn : Word) :
    vfpDregD ctx (loadWord insn) = vfpDregD ctx insn := by
  unfold vfpDregD
  simp (disch := omega) only [field_loadWord]

/-- **Element and structure loads and stores.** Every legal word is accepted, and its ops transfer
the elements of the architecture's access and nothing else, for every base address, memory and byte
order; element `r` of structure `e` lies at `base + size * (e * n + r)`. The load with the fields of
a store, from the same base, brings the elements back, and if the base is not advanced the two keep
all D registers. -/
theorem neon_ls_transfers_elements {ctx : Context} {insn : Word} {acc : Access} {rd : Nat}
    (hfp : ctx.fpExcpEl = 0) (hvfp : ctx.vfpEnabled = true) (hrd : vfpDregD ctx insn = some rd)
    (hacc : Access.decode insn = some acc) (hrn : field insn 16 4 ≠ 15) (hlast : acc.last rd ≤ 31) :
    ∃ ops, disasNeonLsInsn ctx insn = .emit ops ∧
      (∀ s, Transfers ctx insn acc rd s (run ctx ops s)) ∧
      (field insn 21 1 = 0 → ∃ loads, disasNeonLsInsn ctx (loadWord insn) = .emit loads ∧
        (∀ s t : State, t.mem = (run ctx ops s).mem →
          t.core (field insn 16 4) = s.core (field insn 16 4) →
          ∀ el, acc.Maps rd (s.core (field insn 16 4)) el →
            lane acc.size ((run ctx loads t).dreg el.reg) el.lane = lane acc.size (s.dreg el.reg) el.lane) ∧
        (field insn 0 4 = 15 → ∀ s, (run ctx loads (run ctx ops s)).dreg = s.dreg)) := by
  obtain ⟨ops, hops, htransfers⟩ := transfers_legal hfp hvfp hrd hacc hrn hlast
  refine ⟨ops, hops, htransfers, fun hstore => ?_⟩
  have hbase : field (loadWord insn) 16 4 = field insn 16 4 := field_loadWord insn (.inl (by decide))
  obtain ⟨loads, hloads, hback⟩ := @transfers_legal ctx (loadWord insn) acc rd hfp hvfp
    ((vfpDregD_loadWord ctx insn).trans hrd) (decode_loadWord hstore hacc) (hbase ▸ hrn) hlast
  have hrestored : ∀ s t : State, t.mem = (run ctx ops s).mem →
      t.core (field insn 16 4) = s.core (field insn 16 4) →
      ∀ el, acc.Maps rd (s.core (field insn 16 4)) el →
        lane acc.size ((run ctx loads t).dreg el.reg) el.lane = lane acc.size (s.dreg el.reg) el.lane := by
    intro s t hmem hcore el hel
    obtain ⟨hstored, -⟩ := (htransfers s).store hstore
    obtain ⟨hloaded, -⟩ := (hback t).load (field_loadWord_set insn)
    rw [hbase, hcore, hmem] at hloaded
    rw [hloaded el hel, hstored el hel]
  refine ⟨loads, hloads, hrestored, fun hkeep s => ?_⟩
  have hcore : (run ctx ops s).core = s.core := by
    rw [(htransfers s).core, if_pos hkeep]
  obtain ⟨-, -, hdreg⟩ := (htransfers s).store hstore
  obtain ⟨-, hothers, -⟩ := (hback (run ctx ops s)).load (field_loadWord_set insn)
  rw [hbase, hcore, hdreg] at hothers
  funext reg
  refine ext_lanes (@transfer_legal insn acc 0 rd hacc hlast).1.size_le fun l hl => ?_
  by_cases hel : ∃ el, acc.Maps rd (s.core (field insn 16 4)) el ∧ el.reg = reg ∧ el.lane = l
  · obtain ⟨el, hmaps, rfl, rfl⟩ := hel
    exact hrestored s _ rfl (by rw [hcore]) el hmaps
  · exact hothers reg l hl fun el hmaps heq => hel ⟨el, hmaps, heq⟩

/-- `vst3.16 {d4, d6, d8}, [r1]!`, with big-endian data: the second element of the first register
goes to the fourth halfword from the base, and the base is advanced by 24. -/
theorem neon_ls_transfers_elements_vst3 : Access.decode 0xf401454d = some (.multiple 3 3 2 1) ∧
    ∃ ops, disasNeonLsInsn ⟨0, true, true, false, 0x8000, true⟩ 0xf401454d = .emit ops ∧
      ∀ s : State,
        ByteMemory.load true 2 (s.core 1 + 6) (run ⟨0, true, true, false, 0x8000, true⟩ ops s).mem =
          lane 1 (s.dreg 4) 1 ∧
        (run ⟨0, true, true, false, 0x8000, true⟩ ops s).core 1 = s.core 1 + 24 := by
  obtain ⟨ops, hops, htransfers, -⟩ := @neon_ls_transfers_elements
    ⟨0, true, true, false, 0x8000, true⟩ 0xf401454d (.multiple 3 3 2 1) 4 rfl rfl (by decide)
    (by decide) (by decide) (by decide)
  refine ⟨by decide, ops, hops, fun s => ⟨?_, ?_⟩⟩
  · exact ((htransfers s).store (by decide)).1 ⟨4, 1, s.core 1 + 6⟩ ⟨0, by decide, 1, by decide, rfl⟩
  · rw [(htransfers s).core]
    rfl

end TcgArm.NeonLs
