import TcgArm.ArmEmit

/-! Constants on an ARM host: which of them fit the immediate of a data-processing instruction, and
the sequence that `tcg_out_movi32` emits for any of them. -/

namespace TcgArm.ArmHost

open BitVec Falls Nat Option State
open BitVec (ofNat)

/-- The index of the lowest set bit, or 32. -/
def ctz32 (x : Word) : Nat := ((List.range 32).find? fun i => x.getLsbD i).getD 32

def clz32 (x : Word) : Nat := ((List.range 32).find? fun i => x.getMsbD i).getD 32

/-- A shift by 32 gives 0, as the host computes it. -/
def rotl (val : Word) (n : Nat) : Word := (val <<< n) ||| (val >>> (32 - n))

def encodeImm (imm : Word) : Option Nat :=
  let shift := ctz32 imm / 2 * 2
  if imm &&& ~~~ 0xff = 0 then some 0
  else if (imm >>> shift) &&& ~~~ (0xff : Word) = 0 then some (32 - shift)
  else if rotl imm 2 &&& ~~~ 0xff = 0 then some 2
  else if rotl imm 4 &&& ~~~ 0xff = 0 then some 4
  else if rotl imm 6 &&& ~~~ 0xff = 0 then some 6
  else none

def immField (imm : Word) (rot : Nat) : Word := rotl imm rot ||| BitVec.ofNat 32 (rot <<< 7)

variable {x : Word} {rot : Nat}

theorem getLsbD_ctz32_of_lt {i : Nat} (h : i < ctz32 x) : x.getLsbD i = false := by
  unfold ctz32 at h
  cases hfind : (List.range 32).find? fun i => x.getLsbD i with
  | none =>
    rw [List.find?_range_eq_none] at hfind
    by_cases hi : i < 32
    · simpa using hfind i hi
    · exact getLsbD_of_ge x i (by omega)
  | some k =>
    rw [hfind, getD_some] at h
    rw [List.find?_range_eq_some] at hfind
    simpa using hfind.2.2 i h

theorem getLsbD_ctz32 (h : x ≠ 0) : x.getLsbD (ctz32 x) = true := by
  unfold ctz32
  cases hfind : (List.range 32).find? fun i => x.getLsbD i with
  | none =>
    rw [List.find?_range_eq_none] at hfind
    refine absurd (eq_of_getLsbD_eq fun i hi => ?_) h
    simpa using hfind i hi
  | some k =>
    rw [List.find?_range_eq_some] at hfind
    exact hfind.1

theorem ctz32_lt (h : x ≠ 0) : ctz32 x < 32 := lt_of_getLsbD (getLsbD_ctz32 h)

theorem le_even_ctz32 {m : Nat} (hx : x ≠ 0) (hm : m % 2 = 0) (h : ∀ i < m, x.getLsbD i = false) :
    m ≤ ctz32 x / 2 * 2 := by
  have hle : m ≤ ctz32 x := by
    by_contra hlt
    have hclear := h (ctz32 x) (by omega)
    rw [getLsbD_ctz32 hx] at hclear
    cases hclear
  omega

theorem getLsbD_byteMask (i : Nat) : (0xff : Word).getLsbD i = decide (i < 8) := by
  have h := @getLsbD_fieldMask 0 8 (by omega) i
  simpa using h

/-- A word fits eight bits. -/
theorem fits_iff : x &&& ~~~ 0xff = 0 ↔ ∀ i, 8 ≤ i → x.getLsbD i = false := by
  constructor
  · intro h i hi
    have hbit := congrArg (fun y : Word => y.getLsbD i) h
    rw [getLsbD_and, getLsbD_not, getLsbD_byteMask] at hbit
    by_cases hin : i < 32
    · have hnot : ¬ i < 8 := by omega
      simpa [hin, hnot] using hbit
    · exact getLsbD_of_ge x i (by omega)
  · intro h
    apply eq_of_getLsbD_eq
    intro i hi
    rw [getLsbD_and, getLsbD_not, getLsbD_byteMask]
    by_cases hlow : i < 8
    · simp [hlow]
    · simp [h i (by omega)]

theorem getLsbD_rotl (x : Word) {n : Nat} (hn : n ≤ 32) (i : Nat) :
    (rotl x n).getLsbD i =
      (decide (i < 32) && if i < n then x.getLsbD (32 - n + i) else x.getLsbD (i - n)) := by
  rw [rotl, getLsbD_or, getLsbD_shiftLeft, getLsbD_ushiftRight]
  by_cases hi : i < 32
  · by_cases hin : i < n
    · simp [hi, hin]
    · simp [hi, hin, getLsbD_of_ge x (32 - n + i) (by omega)]
  · simp [hi, getLsbD_of_ge x (32 - n + i) (by omega)]

theorem rotl_zero (x : Word) : rotl x 0 = x := by
  apply eq_of_getLsbD_eq
  intro i hi
  rw [getLsbD_rotl x (by omega)]
  simp [hi]

theorem rotateRight_rotl (x : Word) {n : Nat} (hn : n < 32) : (rotl x n).rotateRight n = x := by
  apply eq_of_getLsbD_eq
  intro i hi
  rw [getLsbD_rotateRight, mod_eq_of_lt hn, getLsbD_rotl x (by omega), getLsbD_rotl x (by omega)]
  by_cases hlow : i < 32 - n
  · have hadd : n + i < 32 := by omega
    simp [hlow, hadd]
  · have hsub : i - (32 - n) < n := by omega
    have hsmall : i - (32 - n) < 32 := by omega
    have hback : 32 - n + (i - (32 - n)) = i := by omega
    simp [hlow, hi, hsub, hsmall, hback]

theorem rotl_rotateRight (x : Word) {n : Nat} (hn : n < 32) : rotl (x.rotateRight n) n = x := by
  apply eq_of_getLsbD_eq
  intro i hi
  rw [getLsbD_rotl _ hn.le, getLsbD_rotateRight, getLsbD_rotateRight, mod_eq_of_lt hn]
  by_cases hin : i < n <;> grind

def immParts (imm : Word) (rot : Nat) : BitVec 12 :=
  BitVec.ofNat 4 (rot / 2) ++ (rotl imm rot).setWidth 8

variable {imm : Word}

/-- What `encode_imm` returns is an even rotation that brings the constant into eight bits. -/
theorem encodeImm_spec (h : encodeImm imm = some rot) :
    rot % 2 = 0 ∧ rot < 32 ∧ rotl imm rot &&& ~~~ 0xff = 0 := by
  simp only [encodeImm] at h
  split_ifs at h with h0 h1 h2 h4 h6 <;> rw [Option.some.injEq] at h
  · subst h
    exact ⟨rfl, by decide, by rwa [rotl_zero]⟩
  · have hne : imm ≠ 0 := by
      rintro rfl
      exact h0 (by decide)
    have hpos : ctz32 imm / 2 * 2 ≠ 0 := by
      intro hzero
      rw [hzero, ushiftRight_zero] at h1
      exact h0 h1
    refine ⟨by omega, by omega, ?_⟩
    rw [fits_iff] at h1 ⊢
    intro i hi
    rw [getLsbD_rotl imm (by omega)]
    by_cases hin : i < rot
    · have hshift := h1 i hi
      rw [getLsbD_ushiftRight] at hshift
      have hsub : 32 - rot = ctz32 imm / 2 * 2 := by omega
      simp [hin, hsub, hshift]
    · by_cases hword : i < 32
      · have hbelow : i - rot < ctz32 imm := by omega
        simp [hin, getLsbD_ctz32_of_lt hbelow]
      · simp [hword]
  · subst h
    exact ⟨rfl, by decide, h2⟩
  · subst h
    exact ⟨rfl, by decide, h4⟩
  · subst h
    exact ⟨rfl, by decide, h6⟩

theorem encodeImm_eq_none (h : encodeImm imm = none) :
    imm &&& ~~~ 0xff ≠ 0 ∧ (imm >>> (ctz32 imm / 2 * 2)) &&& ~~~ (0xff : Word) ≠ 0 ∧
      ∀ k < 4, rotl imm (2 * k) &&& ~~~ 0xff ≠ 0 := by
  simp only [encodeImm] at h
  split_ifs at h with h0 h1 h2 h4 h6
  refine ⟨h0, h1, fun k hk => ?_⟩
  interval_cases k
  · rwa [rotl_zero]
  · exact h2
  · exact h4
  · exact h6

theorem getLsbD_immRot (heven : rot % 2 = 0) (hlt : rot < 32) (i : Nat) (hi : i < 32) :
    (ofNat 32 (rot <<< 7)).getLsbD i = (decide (8 ≤ i) && decide (i < 12) && (rot / 2).testBit (i - 8)) := by
  rw [getLsbD_ofNat, testBit_shiftLeft]
  have hhalf : ∀ j, (rot / 2).testBit j = rot.testBit (j + 1) := fun j => by
    rw [testBit_add_one]
  by_cases hlow : 8 ≤ i
  · have hpred : i - 8 + 1 = i - 7 := by omega
    have hseven : 7 ≤ i := by omega
    rw [hhalf, hpred]
    by_cases hhigh : i < 12
    · simp [hi, hlow, hhigh, hseven]
    · have hzero : rot.testBit (i - 7) = false := by
        apply testBit_lt_two_pow
        calc rot < 2 ^ 5 := hlt
          _ ≤ 2 ^ (i - 7) := Nat.pow_le_pow_right (by decide) (by omega)
      simp [hhigh, hzero]
  · by_cases hseven : 7 ≤ i
    · have hi7 : i - 7 = 0 := by omega
      simp [hlow, hi7, testBit_zero, heven]
    · simp [hlow, hseven]

/-- The immediate field is its two parts. -/
theorem immField_eq (heven : rot % 2 = 0) (hlt : rot < 32) (hfit : rotl imm rot &&& ~~~ 0xff = 0) :
    immField imm rot = placed (immParts imm rot) 0 := by
  rw [fits_iff] at hfit
  apply eq_of_getLsbD_eq
  intro i hi
  rw [immField, getLsbD_or, getLsbD_immRot heven hlt i hi, getLsbD_placed, immParts,
    getLsbD_append, getLsbD_setWidth, getLsbD_ofNat]
  by_cases hlow : i < 8
  · have hnot : ¬ 8 ≤ i := by omega
    simp [hi, hlow, hnot]
  · have hle : 8 ≤ i := by omega
    rw [hfit i hle]
    by_cases hhigh : i < 12
    · have hsub : i - 8 < 4 := by omega
      simp [hi, hlow, hle, hhigh, hsub]
    · have hsub : ¬ i - 8 < 4 := by omega
      simp [hi, hlow, hhigh, hsub]

/-- The processor expands the field to the constant. -/
theorem expandImm_immParts (heven : rot % 2 = 0) (hlt : rot < 32)
    (hfit : rotl imm rot &&& ~~~ 0xff = 0) : expandImm (immParts imm rot) = imm := by
  have hbyte : ((immParts imm rot).extractLsb' 0 8).setWidth 32 = rotl imm rot := by
    rw [fits_iff] at hfit
    apply eq_of_getLsbD_eq
    intro i hi
    rw [immParts, extractLsb'_append_eq_right, getLsbD_setWidth, getLsbD_setWidth]
    by_cases hlow : i < 8
    · simp [hi, hlow]
    · rw [hfit i (by omega)]
      simp [hlow]
  have hrot : 2 * ((immParts imm rot).extractLsb' 8 4).toNat = rot := by
    rw [immParts, extractLsb'_append_eq_left, toNat_ofNat, mod_eq_of_lt (by omega)]
    omega
  rw [expandImm, hbyte, hrot, rotateRight_rotl imm hlt]

/-- `encode_imm` finds every rotated byte. -/
theorem encodeImm_isSome_of_rotated {b : BitVec 8} {k : Nat} (hk : k < 16) :
    (encodeImm ((b.setWidth 32).rotateRight (2 * k))).isSome := by
  set imm : Word := (b.setWidth 32).rotateRight (2 * k) with himm
  have hbit : ∀ i < 32, imm.getLsbD i =
      if i < 32 - 2 * k then b.getLsbD (2 * k + i) else b.getLsbD (i - (32 - 2 * k)) := by
    intro i hi
    rw [himm, getLsbD_rotateRight, mod_eq_of_lt (by omega), getLsbD_setWidth, getLsbD_setWidth]
    by_cases hlow : i < 32 - 2 * k
    · have hadd : 2 * k + i < 32 := by omega
      simp [hlow, hadd]
    · have hsub : i - (32 - 2 * k) < 32 := by omega
      simp [hlow, hi, hsub]
  have hrot : rotl imm (2 * k) &&& ~~~ 0xff = 0 := by
    rw [himm, rotl_rotateRight _ (by omega), fits_iff]
    intro i hi
    rw [getLsbD_setWidth, getLsbD_of_ge b i hi, Bool.and_false]
  -- Rotations below 8 are tried one by one, the others leave the low bits clear.
  have hshift : 4 ≤ k → imm ≠ 0 → (imm >>> (ctz32 imm / 2 * 2)) &&& ~~~ (0xff : Word) = 0 := by
    intro hfour hne
    have hle : 32 - 2 * k ≤ ctz32 imm / 2 * 2 := le_even_ctz32 hne (by omega) fun i hi => by
      rw [hbit i (by omega), if_pos hi, getLsbD_of_ge b _ (by omega)]
    rw [fits_iff]
    intro i hi
    rw [getLsbD_ushiftRight]
    by_cases hword : ctz32 imm / 2 * 2 + i < 32
    · rw [hbit _ hword, if_neg (by omega), getLsbD_of_ge b _ (by omega)]
    · exact getLsbD_of_ge imm _ (by omega)
  rw [isSome_iff_ne_none]
  intro hnone
  obtain ⟨h0, h1, hlow⟩ := encodeImm_eq_none hnone
  rcases Nat.lt_or_ge k 4 with hk4 | hk4
  · exact hlow k hk4 hrot
  · refine h1 (hshift hk4 fun hzero => h0 ?_)
    rw [hzero]
    decide

theorem encodeImm_isSome_iff (imm : Word) :
    (encodeImm imm).isSome ↔ ∃ (b : BitVec 8) (k : Nat), k < 16 ∧
      imm = (b.setWidth 32).rotateRight (2 * k) := by
  constructor
  · intro h
    obtain ⟨rot, hrot⟩ := Option.isSome_iff_exists.mp h
    obtain ⟨heven, hlt, hfit⟩ := encodeImm_spec hrot
    have hexpand := expandImm_immParts heven hlt hfit
    exact ⟨_, _, ((immParts imm rot).extractLsb' 8 4).isLt, hexpand.symm⟩
  · rintro ⟨b, k, hk, rfl⟩
    exact encodeImm_isSome_of_rotated hk

/-- The chunk of eight bits that starts at an even position below the lowest set bit. -/
def chunkField (arg : Word) (i : Nat) : Word :=
  ((arg >>> i) &&& (0xff : Word)) ||| (BitVec.ofNat 32 ((32 - i) <<< 7) &&& (0xf00 : Word))

/-- The loop of `tcg_out_movi32`: a `mov` or `mvn` of the first chunk, and an `eor` for each further
one. -/
def movi32Loop (cond : CondCode) (rd : Reg) : Nat → AluOp → Reg → Word → Option (List Word)
  | 0, _, _, _ => none
  | fuel + 1, opc, rn, arg =>
    let i := ctz32 arg / 2 * 2
    let w := tcgOutDatImm cond opc rd rn (chunkField arg i)
    let arg' := arg &&& ~~~ ((0xff : Word) <<< i)
    if arg' = 0 then some [w] else (movi32Loop cond rd fuel .eor rd arg').map (w :: ·)

/-- A `mov` or `mvn` for a constant that fits. From level 7 on it is only tried where `movt` would be
needed. -/
def movi32Short (t : Target) (arg : Word) : Option (AluOp × Word) :=
  if t.useArmv7 = false ∨ arg &&& 0xffff0000 ≠ 0 then
    match encodeImm arg, encodeImm (~~~ arg) with
    | some rot, _ => some (.mov, immField arg rot)
    | none, some rot => some (.mvn, immField (~~~ arg) rot)
    | none, none => none
  else none

def tcgOutMovi32 (t : Target) (cond : CondCode) (rd : Reg) (arg : Word) : Option (List Word) :=
  match movi32Short t arg with
  | some (opc, im) => some [tcgOutDatImm cond opc rd 0 im]
  | none =>
    if t.useArmv7 then
      some (tcgOutMovw cond rd arg ::
        if arg &&& 0xffff0000 ≠ 0 then [tcgOutMovt cond rd arg] else [])
    else if clz32 (~~~ arg) > clz32 arg then movi32Loop cond rd 32 .mvn 0 (~~~ arg)
    else movi32Loop cond rd 32 .mov 0 arg

def chunkParts (arg : Word) (i : Nat) : BitVec 12 :=
  BitVec.ofNat 4 ((32 - i) / 2) ++ arg.extractLsb' i 8

theorem chunkField_eq (arg : Word) (i : Nat) : chunkField arg i = placed (chunkParts arg i) 0 := by
  have hlow : (arg >>> i) &&& (0xff : Word) = placed (arg.extractLsb' i 8) 0 := by
    rw [show i = i + 0 from rfl, ← extractLsb_ushiftRight]
    exact @and_fieldMask (arg >>> i) 0 8 (by omega)
  have hfield : (ofNat 32 ((32 - i) <<< 7)).extractLsb' 8 4 = ofNat 4 ((32 - i) / 2) := by
    apply eq_of_toNat_eq
    rw [extractLsb'_toNat, toNat_ofNat, toNat_ofNat, Nat.shiftLeft_eq, Nat.shiftRight_eq_div_pow]
    omega
  have hhigh : ofNat 32 ((32 - i) <<< 7) &&& (0xf00 : Word) = placed (ofNat 4 ((32 - i) / 2)) 8 := by
    rw [← hfield]
    exact @and_fieldMask (ofNat 32 ((32 - i) <<< 7)) 8 4 (by omega)
  rw [chunkField, hlow, hhigh, chunkParts, placed_append, BitVec.or_comm]

/-- The value of a chunk is the part of the constant that the loop then clears. -/
theorem expandImm_chunkParts {arg : Word} {i : Nat} (heven : i % 2 = 0) (hlt : i < 32) :
    expandImm (chunkParts arg i) = arg &&& ((0xff : Word) <<< i) := by
  rw [expandImm, chunkParts, extractLsb'_append_eq_left, extractLsb'_append_eq_right, toNat_ofNat]
  apply eq_of_getLsbD_eq
  intro j hj
  rw [getLsbD_rotateRight, getLsbD_setWidth, getLsbD_setWidth,
    getLsbD_extractLsb', getLsbD_extractLsb', getLsbD_and,
    getLsbD_shiftLeft, getLsbD_byteMask]
  -- The byte lies at `i` and ends with the word, so nothing of it is rotated to the other end.
  by_cases hzero : i = 0
  · subst hzero
    by_cases hbyte : j < 8 <;> simp [hj, hbyte]
  · have hmod : 2 * ((32 - i) / 2 % 2 ^ 4) % 32 = 32 - i := by omega
    rw [hmod]
    by_cases hbelow : j < i
    · have hdiff : j < 32 - (32 - i) := by omega
      simp [hbelow, hdiff, getLsbD_of_ge arg (i + (32 - i + j)) (by omega)]
    · have hdiff : ¬ j < 32 - (32 - i) := by omega
      have hsub : j - (32 - (32 - i)) = j - i := by omega
      have hadd : i + (j - i) = j := by omega
      have hword : j - i < 32 := by omega
      simp only [hdiff, hsub, hadd, hbelow, hj, hword, decide_true, decide_false, Bool.true_and,
        cond_false, Bool.not_false]
      rw [Bool.and_comm]

section Effect

variable {t : Target} {cond : CondCode} {rd : Reg} {s : State}

@[simp] theorem State.set_regs (r : Reg) (v : Word) : (s.set r v).regs r = v := by
  simp [set]

@[simp] theorem State.set_flags (r : Reg) (v : Word) : (s.set r v).flags = s.flags := rfl

@[simp] theorem State.set_set (r : Reg) (v v' : Word) : (s.set r v).set r v' = s.set r v' := by
  simp [set]

theorem State.put_eq (hrd : rd ≠ tcgRegPc) (v : Word) : s.put rd v = .fall (s.set rd v) := if_neg hrd

variable {arg : Word} {opc : AluOp}

variable {code : List Word} {rn : Reg} {fuel : Nat}

theorem conditional_movi32Loop (h : movi32Loop cond rd fuel opc rn arg = some code) :
    Conditional cond code := by
  induction fuel generalizing opc rn arg code with
  | zero => cases h
  | succ fuel ih =>
    have hhead : ∃ insn, Encodes (tcgOutDatImm cond opc rd rn
        (chunkField arg (ctz32 arg / 2 * 2))) cond insn := by
      rw [chunkField_eq]
      exact ⟨_, encodes_tcgOutDatImm _ _ _ _⟩
    simp only [movi32Loop] at h
    split at h
    · cases h
      intro w hw
      rw [List.mem_singleton.mp hw]
      exact hhead
    · obtain ⟨rest, hrest, rfl⟩ := Option.map_eq_some_iff.mp h
      intro w hw
      rcases List.mem_cons.mp hw with rfl | hw
      · exact hhead
      · exact ih hrest w hw

theorem exec_chunk (hrd : rd ≠ tcgRegPc) (hpass : cond.passes s.flags) (harg : arg ≠ 0) {r : Word} (pc : Word)
    (hopc : opc.logical (s.read pc rn) (arg &&& ((0xff : Word) <<< (ctz32 arg / 2 * 2))) = some r)
    (hcmp : opc.compares = false) :
    exec t pc (tcgOutDatImm cond opc rd rn (chunkField arg (ctz32 arg / 2 * 2))) s =
      some (.fall (s.set rd r)) := by
  have hlt := ctz32_lt harg
  rw [chunkField_eq, (encodes_tcgOutDatImm _ _ _ _).exec_eq, if_pos hpass, perform, alu, compute]
  simp only [operand, expandImm_chunkParts (show ctz32 arg / 2 * 2 % 2 = 0 by omega)
    (show ctz32 arg / 2 * 2 < 32 by omega), hopc, hcmp, put_eq hrd]
  rfl

theorem chunk_xor_rest (arg mask : Word) : (arg &&& mask) ^^^ (arg &&& ~~~ mask) = arg := by
  apply eq_of_getLsbD_eq
  intro i hi
  rw [getLsbD_xor, getLsbD_and, getLsbD_and, getLsbD_not]
  cases arg.getLsbD i <;> cases mask.getLsbD i <;> simp [hi]

/-- The loop combines the constant with `base`: what is there for `eor`, nothing for `mov`, ones for
`mvn`. -/
theorem falls_movi32Loop (hrd : rd ≠ tcgRegPc) {base : Word}
    (hopc : ∀ pc y, opc.logical (s.read pc rn) y = some (base ^^^ y))
    (hcmp : opc.compares = false) (h : movi32Loop cond rd fuel opc rn arg = some code)
    (harg : arg ≠ 0) (hpass : cond.passes s.flags) :
    Falls t code s (s.set rd (base ^^^ arg)) := by
  induction fuel generalizing arg base code opc rn s with
  | zero => cases h
  | succ fuel ih =>
    set mask : Word := (0xff : Word) <<< (ctz32 arg / 2 * 2) with hmask
    have hexec : ∀ pc, exec t pc (tcgOutDatImm cond opc rd rn
        (chunkField arg (ctz32 arg / 2 * 2))) s =
          some (.fall (s.set rd (base ^^^ (arg &&& mask)))) := fun pc =>
      exec_chunk hrd hpass harg pc (hopc pc _) hcmp
    have hsplit := chunk_xor_rest arg mask
    simp only [movi32Loop, ← hmask] at h
    split at h
    · rename_i hrest
      cases h
      have hwhole : arg &&& mask = arg := by
        rw [hrest] at hsplit
        exact (BitVec.xor_zero).symm.trans hsplit
      rw [hwhole] at hexec
      exact cons hexec nil
    · rename_i hrest
      obtain ⟨rest, hloop, rfl⟩ := Option.map_eq_some_iff.mp h
      refine cons hexec ?_
      have heor : ∀ pc y, AluOp.eor.logical ((s.set rd (base ^^^ (arg &&& mask))).read pc rd) y =
          some (base ^^^ (arg &&& mask) ^^^ y) := fun pc y => by
        simp [AluOp.logical, State.read, hrd]
      have hrestRun := ih heor rfl hloop hrest hpass
      rwa [State.set_set, BitVec.xor_assoc, hsplit] at hrestRun

/-- Every round clears eight more low bits, so four are enough. -/
theorem movi32Loop_isSome {k : Nat} (harg : arg ≠ 0) (hclear : ∀ i < 8 * k, arg.getLsbD i = false)
    (hfuel : 4 ≤ fuel + k) :
    (movi32Loop cond rd fuel opc rn arg).isSome := by
  have hctz : 8 * k ≤ ctz32 arg / 2 * 2 := le_even_ctz32 harg (by omega) hclear
  have hlt := ctz32_lt harg
  induction fuel generalizing k opc rn arg with
  | zero => omega
  | succ fuel ih =>
    simp only [movi32Loop]
    split
    · rfl
    · rename_i hrest
      rw [isSome_map]
      have hnext : ∀ i < 8 * (k + 1),
          (arg &&& ~~~ ((0xff : Word) <<< (ctz32 arg / 2 * 2))).getLsbD i = false := by
        intro i hi
        rw [getLsbD_and, getLsbD_not, getLsbD_shiftLeft, getLsbD_byteMask]
        by_cases hbelow : i < ctz32 arg / 2 * 2
        · rw [getLsbD_ctz32_of_lt (by omega : i < ctz32 arg), Bool.false_and]
        · have hin : i - ctz32 arg / 2 * 2 < 8 := by omega
          have hword : i < 32 := by omega
          simp [hbelow, hin, hword]
      exact ih hrest hnext (by omega) (le_even_ctz32 hrest (by omega) hnext) (ctz32_lt hrest)

/-- The loop as a whole, from an operation that combines its operand with `b`. -/
theorem exists_movi32Loop (cond : CondCode) (hrd : rd ≠ tcgRegPc) (opc : AluOp) (b : Word)
    (hopc : ∀ x y, opc.logical x y = some (b ^^^ y)) (hcmp : opc.compares = false) (harg : arg ≠ 0) :
    ∃ code, movi32Loop cond rd 32 opc 0 arg = some code ∧ Conditional cond code ∧
      ∀ (t : Target) (s : State), cond.passes s.flags → Falls t code s (s.set rd (b ^^^ arg)) := by
  have hclear : ∀ i < 8 * 0, arg.getLsbD i = false := fun i hi => absurd hi (by omega)
  have hsome : (movi32Loop cond rd 32 opc 0 arg).isSome := movi32Loop_isSome harg hclear (by omega)
  obtain ⟨code, hcode⟩ := Option.isSome_iff_exists.mp hsome
  exact ⟨code, hcode, conditional_movi32Loop hcode, fun t s hpass =>
    falls_movi32Loop hrd (fun pc y => hopc _ y) hcmp hcode harg hpass⟩

theorem exec_immField (hrd : rd ≠ tcgRegPc) (hpass : cond.passes s.flags) {imm r : Word}
    (hrot : encodeImm imm = some rot) (hopc : ∀ x, opc.logical x imm = some r)
    (hcmp : opc.compares = false) (pc : Word) :
    exec t pc (tcgOutDatImm cond opc rd 0 (immField imm rot)) s = some (.fall (s.set rd r)) := by
  obtain ⟨heven, hlt, hfit⟩ := encodeImm_spec hrot
  rw [immField_eq heven hlt hfit, (encodes_tcgOutDatImm _ _ _ _).exec_eq, if_pos hpass, perform, alu, compute]
  simp only [operand, expandImm_immParts heven hlt hfit, hopc, hcmp, put_eq hrd]
  rfl

theorem movw_movt (arg : Word) :
    arg.extractLsb' 16 16 ++ ((arg.extractLsb' 0 16).setWidth 32).setWidth 16 = arg := by
  rw [setWidth_setWidth_of_le _ (by decide), setWidth_eq]
  exact (extractLsb'_append_extractLsb'_eq_extractLsb' (by rfl)).trans extractLsb'_eq_self

theorem movw_of_short (h : arg &&& 0xffff0000 = 0) : (arg.extractLsb' 0 16).setWidth 32 = arg := by
  apply eq_of_getLsbD_eq
  intro i hi
  have hbit := congrArg (fun y : Word => y.getLsbD i) h
  rw [getLsbD_and, show (0xffff0000 : Word) = ofNat 32 ((2 ^ 16 - 1) <<< 16) from rfl,
    getLsbD_fieldMask (by omega)] at hbit
  rw [getLsbD_setWidth, getLsbD_extractLsb']
  by_cases hlow : i < 16
  · simp [hlow, hi]
  · have hhigh : 16 ≤ i := by omega
    have hclear : arg.getLsbD i = false := by simpa [hhigh, hi] using hbit
    rw [hclear]
    simp [hlow]

/-- What `movi32Short` finds loads the constant. -/
theorem movi32Short_cases {im : Word} (h : movi32Short t arg = some (opc, im)) :
    ∃ imm rot, encodeImm imm = some rot ∧ im = immField imm rot ∧ opc.compares = false ∧
      ∀ x, opc.logical x imm = some arg := by
  unfold movi32Short at h
  split_ifs at h
  split at h
  · rename_i rot hrot
    cases h
    exact ⟨arg, rot, hrot, rfl, rfl, fun x => rfl⟩
  · rename_i rot _ hrot
    cases h
    exact ⟨~~~ arg, rot, hrot, rfl, rfl, fun x => by simp [AluOp.logical]⟩
  · cases h

theorem movi32Short_eq_none (h : movi32Short t arg = none) (hold : t.useArmv7 = false) :
    arg ≠ 0 ∧ ~~~ arg ≠ 0 := by
  have hzero : encodeImm 0 = some 0 := by decide
  unfold movi32Short at h
  rw [if_pos (.inl hold)] at h
  constructor
  · rintro rfl
    rw [hzero] at h
    cases h
  · intro hnot
    rw [hnot, hzero] at h
    split at h <;> simp_all

/-- The code for a constant loads it. -/
theorem exists_tcgOutMovi32 (t : Target) (cond : CondCode) (hrd : rd ≠ tcgRegPc) (arg : Word) :
    ∃ code, tcgOutMovi32 t cond rd arg = some code ∧ Conditional cond code ∧
      ∀ s : State, cond.passes s.flags → Falls t code s (s.set rd arg) := by
  cases hshort : movi32Short t arg with
  | some found =>
    obtain ⟨opc, im⟩ := found
    obtain ⟨imm, rot, hrot, rfl, hcmp, hopc⟩ := movi32Short_cases hshort
    obtain ⟨heven, hlt, hfit⟩ := encodeImm_spec hrot
    refine ⟨_, by rw [tcgOutMovi32, hshort], fun w hw => ?_, fun s hpass => ?_⟩
    · rw [List.mem_singleton.mp hw, immField_eq heven hlt hfit]
      exact ⟨_, encodes_tcgOutDatImm _ _ _ _⟩
    · exact cons (exec_immField hrd hpass hrot hopc hcmp) nil
  | none =>
    simp only [tcgOutMovi32, hshort]
    by_cases hv7 : t.useArmv7 = true
    · rw [if_pos hv7]
      refine ⟨_, rfl, ?_, fun s hpass => ?_⟩
      · intro w hw
        rcases List.mem_cons.mp hw with rfl | hw
        · exact ⟨_, encodes_tcgOutMovw _ _⟩
        · split at hw
          · rw [List.mem_singleton.mp hw]
            exact ⟨_, encodes_tcgOutMovt _ _⟩
          · cases hw
      · have hmovw : ∀ pc, exec t pc (tcgOutMovw cond rd arg) s =
            some (.fall (s.set rd ((arg.extractLsb' 0 16).setWidth 32))) := fun pc => by
          rw [(encodes_tcgOutMovw _ _).exec_eq, if_pos hpass]
          simp [perform, hv7, hrd]
        refine cons hmovw ?_
        split
        · refine cons (fun pc => ?_) nil
          rw [(encodes_tcgOutMovt _ _).exec_eq, if_pos (by exact hpass)]
          rw [perform, if_pos ⟨hv7, hrd⟩, set_regs, movw_movt, set_set]
        · rename_i hhigh
          rw [movw_of_short (by simpa using hhigh)]
          exact nil
    · rw [if_neg hv7]
      obtain ⟨harg, hnot⟩ := movi32Short_eq_none hshort (by simpa using hv7)
      split
      · obtain ⟨code, hcode, hcond, hfalls⟩ := exists_movi32Loop cond hrd .mvn
          (BitVec.allOnes 32) (fun x y => by rw [allOnes_xor]; rfl) rfl hnot
        rw [allOnes_xor, BitVec.not_not] at hfalls
        exact ⟨code, hcode, hcond, hfalls t⟩
      · obtain ⟨code, hcode, hcond, hfalls⟩ := exists_movi32Loop cond hrd .mov 0
          (fun x y => by simp [AluOp.logical]) rfl harg
        rw [show (0 : Word) ^^^ arg = arg from BitVec.zero_xor] at hfalls
        exact ⟨code, hcode, hcond, hfalls t⟩

/-- **Constants.** `tcg_out_movi32` emits finitely many instructions for every constant; they leave
it in the register when the condition holds and change nothing otherwise. `encode_imm` finds a
rotation for the rotated bytes only, and the fields made from it decode to the constant. -/
theorem movi32_loads_constant :
    (∀ (t : Target) (cond : CondCode) (rd : Reg) (arg pc : Word) (s : State), rd ≠ tcgRegPc →
      ∃ code, tcgOutMovi32 t cond rd arg = some code ∧
        run t pc code s = some (.fall (if cond.passes s.flags then s.set rd arg else s))) ∧
    ∀ imm : Word,
      ((encodeImm imm).isSome ↔ ∃ (b : BitVec 8) (k : Nat), k < 16 ∧
        imm = (b.setWidth 32).rotateRight (2 * k)) ∧
      ∀ rot, encodeImm imm = some rot → ∀ (cond : CondCode) (opc : AluOp) (rd rn : Reg),
        ∃ imm12, Encodes (tcgOutDatImm cond opc rd rn (immField imm rot)) cond
          (.alu opc opc.compares rd rn (.imm imm12)) ∧ expandImm imm12 = imm := by
  refine ⟨fun t cond rd arg pc s hrd => ?_, fun imm => ⟨encodeImm_isSome_iff imm, ?_⟩⟩
  · obtain ⟨code, hcode, hcond, hfalls⟩ := exists_tcgOutMovi32 t cond hrd arg
    refine ⟨code, hcode, ?_⟩
    by_cases hpass : cond.passes s.flags = true
    · rw [if_pos hpass]
      exact hfalls s hpass pc
    · rw [if_neg hpass]
      exact hcond.falls (by simpa using hpass) pc
  · intro rot hrot cond opc rd rn
    obtain ⟨heven, hlt, hfit⟩ := encodeImm_spec hrot
    refine ⟨immParts imm rot, ?_, expandImm_immParts heven hlt hfit⟩
    rw [immField_eq heven hlt hfit]
    exact encodes_tcgOutDatImm _ _ _ _

/-- Level 4, a constant that takes four instructions. -/
theorem movi32_loads_constant_chunks :
    ∃ code, tcgOutMovi32 ⟨4, false, false⟩ .al 4 0x12345678 = some code ∧ code.length = 4 ∧
      run ⟨4, false, false⟩ 0x8000 code ⟨fun _ => 7, ⟨false, false, false, false⟩, fun _ => 0⟩ =
        some (.fall (State.set ⟨fun _ => 7, ⟨false, false, false, false⟩, fun _ => 0⟩ 4 0x12345678)) := by
  obtain ⟨code, hcode, hrun⟩ := movi32_loads_constant.1 ⟨4, false, false⟩ .al 4 0x12345678 0x8000
    ⟨fun _ => 7, ⟨false, false, false, false⟩, fun _ => 0⟩ (by decide)
  refine ⟨code, hcode, ?_, hrun⟩
  have hlength : (tcgOutMovi32 ⟨4, false, false⟩ .al 4 0x12345678).map List.length = some 4 := by
    decide +kernel
  rw [hcode] at hlength
  simpa using hlength

theorem movi32Loop_length (h : movi32Loop cond rd fuel opc rn arg = some code) (more : Nat) :
    movi32Loop cond rd (fuel + more) opc rn arg = some code ∧ 0 < code.length ∧ code.length ≤ fuel := by
  induction fuel generalizing opc rn arg code with
  | zero => cases h
  | succ fuel ih =>
    rw [succ_add_eq_add_succ]
    simp only [movi32Loop] at h ⊢
    split at h
    · cases h
      simp_all
    · obtain ⟨rest, hrest, rfl⟩ := map_eq_some_iff.mp h
      obtain ⟨hmore, hpos, hlen⟩ := ih hrest
      simp_all

theorem rest_ne_zero (harg : arg ≠ 0) (h : encodeImm arg = none) :
    arg &&& ~~~ ((0xff : Word) <<< (ctz32 arg / 2 * 2)) ≠ 0 := by
  intro hrest
  have hchunk := chunk_xor_rest arg ((0xff : Word) <<< (ctz32 arg / 2 * 2))
  have hlt := ctz32_lt harg
  rw [hrest, show (0 : Word) = 0#32 from rfl, BitVec.xor_zero, ← expandImm_chunkParts (by omega) (by omega)] at hchunk
  have hsome := (encodeImm_isSome_iff arg).mpr ⟨_, _, isLt _, hchunk.symm⟩
  rw [h] at hsome
  cases hsome

theorem exists_movi32Loop_length (harg : arg ≠ 0) (h : encodeImm arg = none) :
    ∃ code, movi32Loop cond rd 32 opc rn arg = some code ∧ 2 ≤ code.length ∧ code.length ≤ 4 := by
  have hsome : (movi32Loop cond rd 4 opc rn arg).isSome := movi32Loop_isSome (k := 0) harg (by simp) le_rfl
  obtain ⟨code, hcode⟩ := isSome_iff_exists.mp hsome
  obtain ⟨hmore, -, hle⟩ := movi32Loop_length hcode 28
  refine ⟨code, hmore, ?_, hle⟩
  rw [movi32Loop, if_neg (rest_ne_zero harg h)] at hcode
  obtain ⟨rest, hrest, rfl⟩ := map_eq_some_iff.mp hcode
  exact succ_le_succ (movi32Loop_length hrest 0).2.1

/-- **Length.** One instruction loads a constant exactly if a single `mov`, `mvn` or `movw` can, and no
constant takes more than four, or two where there is `movt`. -/
theorem movi32_length (t : Target) (cond : CondCode) (rd : Reg) (arg : Word) :
    ∃ code, tcgOutMovi32 t cond rd arg = some code ∧ code.length ≤ (if t.useArmv7 then 2 else 4) ∧
      (code.length = 1 ↔ (encodeImm arg).isSome ∨ (encodeImm (~~~ arg)).isSome ∨
        t.useArmv7 ∧ arg &&& 0xffff0000 = 0) := by
  by_cases hv7 : t.useArmv7 = true
  · by_cases hhigh : arg &&& 0xffff0000#32 = 0#32 <;> cases h1 : encodeImm arg <;>
      cases h2 : encodeImm (~~~ arg) <;> simp [tcgOutMovi32, movi32Short, hv7, hhigh, h1, h2]
  · cases h1 : encodeImm arg with
    | some rot => simp [tcgOutMovi32, movi32Short, hv7, h1]
    | none =>
      cases h2 : encodeImm (~~~ arg) with
      | some rot => simp [tcgOutMovi32, movi32Short, hv7, h1, h2]
      | none =>
        have hshort : movi32Short t arg = none := by simp [movi32Short, hv7, h1, h2]
        obtain ⟨harg, hnot⟩ := movi32Short_eq_none hshort (by simpa using hv7)
        obtain ⟨code, hcode, hge, hle⟩ : ∃ code, tcgOutMovi32 t cond rd arg = some code ∧
            2 ≤ code.length ∧ code.length ≤ 4 := by
          simp only [tcgOutMovi32, hshort, hv7, Bool.false_eq_true, if_false]
          split_ifs
          · exact exists_movi32Loop_length hnot h2
          · exact exists_movi32Loop_length harg h1
        exact ⟨code, hcode, by simpa [hv7] using hle, by simp [hv7]; omega⟩

end Effect

end TcgArm.ArmHost
