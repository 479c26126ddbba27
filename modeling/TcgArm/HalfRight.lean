import TcgArm.HalfGen
import TcgArm.HalfWords

/-! What the builders of 64-bit operations do on a 32-bit host. -/

namespace TcgArm.Half

open Tcg SeqCode BitVec Mach Sets
open Nat (le_succ lt_succ_self)
open BitVec (ofNat)

def Mach.get64 (s : Mach) (x : Nat) : BitVec 64 := s.val (.high x) ++ s.val (.low x)

def Mach.set64 (s : Mach) (x : Nat) (v : BitVec 64) : Mach :=
  (s.set (.low x) (lowHalf v)).set (.high x) (highHalf v)

variable {tgt : Target} {free : Nat} {s s' : Mach} {x y z : Nat} {v w : BitVec 64}

@[simp] theorem Mach.lowHalf_get64 : lowHalf (s.get64 x) = s.val (.low x) := lowHalf_append _ _

@[simp] theorem Mach.highHalf_get64 : highHalf (s.get64 x) = s.val (.high x) := highHalf_append _ _

theorem Mach.set64_val (t : Temp) : (s.set64 x v).val t =
    if t = .high x then highHalf v else if t = .low x then lowHalf v else s.val t := by
  simp [set64]

@[simp] theorem Mach.set64_target : (s.set64 x v).target = s.target := rfl

theorem Mach.get64_set64 : (s.set64 x v).get64 y = if y = x then v else s.get64 y := by
  by_cases h : y = x
  · simp [get64, set64_val, h, highHalf_append_lowHalf]
  · simp [get64, set64_val, h]

theorem Same.get64 (h : Same free s s') (hx : x < free) : s'.get64 x = s.get64 x := by
  rw [Mach.get64, Mach.get64, h.val (.low x) hx, h.val (.high x) hx]

theorem Same.get64_set64 (h : Same free (s.set64 x v) s') (hy : y < free) :
    s'.get64 y = if y = x then v else s.get64 y := by rw [h.get64 hy, Mach.get64_set64]

/-- The code leaves `v` in the halves of `x` and keeps every other temporary in use. -/
def Sets64 (tgt : Target) (free : Nat) (code : List Instr) (s : Mach) (x : Nat) (v : BitVec 64) :
    Prop := Ends (exec tgt) code (Same free (s.set64 x v)) s

theorem Sets64.of_eq {code : List Instr} (h : Sets64 tgt free code s x v) (hv : v = w) :
    Sets64 tgt free code s x w := hv ▸ h

variable {code code' : List Instr} {a : BitVec 32} {c : Nat}

variable {b r : BitVec 32}

theorem Sets.lowHigh (h : Sets tgt free code s (.low x) a)
    (h' : ∀ s1, Same free (s.set (.low x) a) s1 → Sets tgt free code' s1 (.high x) b) :
    Sets64 tgt free (code ++ code') s x (b ++ a) := by
  refine h.append fun s1 e1 => (h' s1 e1).mono fun s2 e2 => ?_
  rw [set64, lowHalf_append, highHalf_append]
  exact (e1.set _ _).trans e2

variable {t : Temp}

theorem Mach.set_comm {u : Temp} (h : t ≠ u) (a b : BitVec 32) :
    (s.set t a).set u b = (s.set u b).set t a := by
  simp only [set, Function.update_comm h]

theorem Sets.highLow (h : Sets tgt free code s (.high x) b)
    (h' : ∀ s1, Same free (s.set (.high x) b) s1 → Sets tgt free code' s1 (.low x) a) :
    Sets64 tgt free (code ++ code') s x (b ++ a) := by
  refine h.append fun s1 e1 => (h' s1 e1).mono fun s2 e2 => ?_
  rw [set64, lowHalf_append, highHalf_append, set_comm (by simp)]
  exact (e1.set _ _).trans e2

theorem Same.of_set64_free (h : Same (free + 1) (s.set64 free v) s') : Same free s s' := by
  refine ⟨fun t ht => ?_, h.mem, h.guest, h.target⟩
  have hlow : t ≠ .low free := by
    rintro rfl
    exact absurd ht (lt_irrefl free)
  have hhigh : t ≠ .high free := by
    rintro rfl
    exact absurd ht (lt_irrefl free)
  rw [h.val t (by omega), set64_val, if_neg hhigh, if_neg hlow]

theorem Same.set64 (h : Same free s s') (x : Nat) (v : BitVec 64) :
    Same free (s.set64 x v) (s'.set64 x v) := (h.set _ _).set _ _

theorem Sets64.scratch (h : Sets64 tgt (free + 1) code s free v)
    (h' : ∀ s1, Same (free + 1) (s.set64 free v) s1 → Sets64 tgt (free + 1) code' s1 x w) :
    Sets64 tgt free (code ++ code') s x w :=
  h.append fun s1 e1 => (h' s1 e1).mono fun _ e2 =>
    (e1.of_set64_free.set64 x w).trans (e2.of_le (le_succ free))

theorem Sets.scratch64 (h : Sets tgt (free + 1) code s (.single free) a)
    (h' : ∀ s1, Same (free + 1) (s.set (.single free) a) s1 → Sets64 tgt (free + 1) code' s1 x w) :
    Sets64 tgt free (code ++ code') s x w :=
  h.append fun s1 e1 => (h' s1 e1).mono fun _ e2 =>
    (e1.of_set_free.set64 x w).trans (e2.of_le (le_succ free))

theorem Mach.set64_set64 : (s.set64 x v).set64 x w = s.set64 x w := by
  rw [set64, set64, set64, set_comm (by simp), set_set, set_comm (by simp), set_set]

theorem Sets64.again (h : Sets64 tgt free code s x v)
    (h' : ∀ s1, Same free (s.set64 x v) s1 → Sets64 tgt free code' s1 x w) :
    Sets64 tgt free (code ++ code') s x w := by
  refine h.append fun s1 e1 => (h' s1 e1).mono fun s2 e2 => ?_
  have hset := e1.set64 x w
  rw [set64_set64] at hset
  exact hset.trans e2

theorem name_low (hy : y < free) : (Temp.low y).name < free := hy

theorem name_high (hy : y < free) : (Temp.high y).name < free := hy

theorem Same.high_of_low (e : Same free (s.set (.low x) a) s') (hy : y < free) :
    s'.val (.high y) = s.val (.high y) := by
  rw [e.val_set (name_high hy), if_neg (by simp)]

theorem Same.single_of_low {n : Nat} (e : Same free (s.set (.low x) a) s') (hn : n < free) :
    s'.val (.single n) = s.val (.single n) := by
  rw [e.val_set (show (Temp.single n).name < free from hn), if_neg (by simp)]

theorem Same.low_of_high (e : Same free (s.set (.high x) a) s') (hy : y < free) :
    s'.val (.low y) = s.val (.low y) := by
  rw [e.val_set (name_low hy), if_neg (by simp)]

theorem sets64_mov (hy : y < free) : Sets64 tgt free (tcgGenMovI64 x y) s x (s.get64 y) :=
  sets_mov.lowHigh fun _ e1 => sets_mov.of_eq (e1.high_of_low hy)

open Sets64

theorem sets64_movi : Sets64 tgt free (tcgGenMoviI64 x v) s x v :=
  of_eq (sets_movi.lowHigh fun _ _ => sets_movi) (highHalf_append_lowHalf v)

variable {φ : BitVec 32 → BitVec 32 → BitVec 32}

theorem sets64_eachHalf {gen : Temp → Temp → Temp → List Instr} (hx : x < free) (hy : y < free)
    (hz : z < free) (hgen : ∀ (s : Mach) (r a b : Temp), r.name < free → a.name < free → b.name < free →
      Sets tgt free (gen r a b) s r (φ (s.val a) (s.val b))) :
    Sets64 tgt free (eachHalfI64 gen x y z) s x
      (φ (s.val (.high y)) (s.val (.high z)) ++ φ (s.val (.low y)) (s.val (.low z))) := by
  refine (hgen s (.low x) (.low y) (.low z) hx hy hz).lowHigh fun s1 e1 =>
    (hgen s1 (.high x) (.high y) (.high z) hx hy hz).of_eq ?_
  rw [e1.high_of_low hy, e1.high_of_low hz]

/-- The builder of a bitwise operation on 32 bits. -/
def Logic.genI32 (tgt : Target) (free : Nat) : Logic → Temp → Temp → Temp → List Instr
  | .and => fun r a b => [.binary .and r a b]
  | .or => fun r a b => [.binary .or r a b]
  | .xor => fun r a b => [.binary .xor r a b]
  | .andc => tcgGenAndcI32 tgt free
  | .orc => tcgGenOrcI32 tgt free
  | .eqv => tcgGenEqvI32 tgt free
  | .nand => tcgGenNandI32 tgt free
  | .nor => tcgGenNorI32 tgt free

theorem sets_logic (f : Logic) {r a b : Temp} (hr : r.name < free) (ha : a.name < free) (hb : b.name < free) :
    Sets tgt free (f.genI32 tgt free r a b) s r (f.eval (s.val a) (s.val b)) := by
  cases f with
  | and | or | xor => exact sets_binary rfl
  | andc | orc => exact sets_viaNot rfl rfl ha hb rfl rfl
  | eqv | nand | nor => exact sets_thenNot hr rfl rfl

/-- The builder of a bitwise operation on 64 bits. -/
def Logic.genI64 (tgt : Target) (free : Nat) : Logic → Nat → Nat → Nat → List Instr
  | .and => tcgGenAndI64
  | .or => tcgGenOrI64
  | .xor => tcgGenXorI64
  | .andc => tcgGenAndcI64 tgt free
  | .orc => tcgGenOrcI64 tgt free
  | .eqv => tcgGenEqvI64 tgt free
  | .nand => tcgGenNandI64 tgt free
  | .nor => tcgGenNorI64 tgt free

theorem sets64_logic (f : Logic) (hx : x < free) (hy : y < free) (hz : z < free) :
    Sets64 tgt free (f.genI64 tgt free x y z) s x (f.eval (s.get64 y) (s.get64 z)) := by
  have hgen : f.genI64 tgt free = eachHalfI64 (f.genI32 tgt free) := by cases f <;> rfl
  rw [hgen]
  exact (sets64_eachHalf hx hy hz fun s _ _ _ hr ha hb => sets_logic f hr ha hb).of_eq
    (f.eval_join _ _ _ _).symm

theorem sets64_not (hy : y < free) : Sets64 tgt free (tcgGenNotI64 tgt free x y) s x (~~~ s.get64 y) := by
  refine of_eq (lowHigh (b := ~~~ s.val (.high y)) (sets_not (name_low hy))
    fun s1 e1 => (sets_not (name_high hy)).of_eq ?_) (not_join _ _).symm
  rw [e1.high_of_low hy]

theorem sets64_eachHalfConst {gen : Temp → Temp → BitVec 32 → List Instr} (hy : y < free)
    (hgen : ∀ (s : Mach) (r a : Temp) (c : BitVec 32), a.name < free →
      Sets tgt free (gen r a c) s r (φ (s.val a) c)) :
    Sets64 tgt free (eachHalfConstI64 gen x y v) s x
      (φ (s.val (.high y)) (highHalf v) ++ φ (s.val (.low y)) (lowHalf v)) := by
  refine (hgen s (.low x) (.low y) _ hy).lowHigh fun s1 e1 => (hgen s1 (.high x) (.high y) _ hy).of_eq ?_
  rw [e1.high_of_low hy]

theorem sets64_andi (hy : y < free) :
    Sets64 tgt free (tcgGenAndiI64 tgt free x y v) s x (s.get64 y &&& v) := by
  refine (sets64_eachHalfConst hy fun s _ _ _ ha => sets_andi ha).of_eq ?_
  rw [← and_join, highHalf_append_lowHalf]
  rfl

theorem sets64_ori (hy : y < free) : Sets64 tgt free (tcgGenOriI64 free x y v) s x (s.get64 y ||| v) := by
  refine (sets64_eachHalfConst hy fun s _ _ _ ha => sets_ori ha).of_eq ?_
  rw [← or_join, highHalf_append_lowHalf]
  rfl

theorem sets64_xori (hy : y < free) :
    Sets64 tgt free (tcgGenXoriI64 tgt free x y v) s x (s.get64 y ^^^ v) := by
  refine (sets64_eachHalfConst hy fun s _ _ _ ha => sets_xori ha).of_eq ?_
  rw [← xor_join, highHalf_append_lowHalf]
  rfl

theorem sets64_add : Sets64 tgt free (tcgGenAddI64 x y z) s x (s.get64 y + s.get64 z) :=
  ends_single rfl (Same.refl free _)

theorem sets64_sub : Sets64 tgt free (tcgGenSubI64 x y z) s x (s.get64 y - s.get64 z) :=
  ends_single rfl (Same.refl free _)

theorem Same.get64_free (h : Same (free + 1) (s.set64 free v) s') : s'.get64 free = v := by
  rw [h.get64_set64 (lt_succ_self free), if_pos rfl]

theorem Same.get64_used (h : Same (free + 1) (s.set64 free v) s') (hy : y < free) :
    s'.get64 y = s.get64 y := h.of_set64_free.get64 hy

theorem sets64_addi (hy : y < free) : Sets64 tgt free (tcgGenAddiI64 free x y v) s x (s.get64 y + v) := by
  unfold tcgGenAddiI64
  split_ifs with h
  · exact (sets64_mov hy).of_eq (by simp [h])
  · refine sets64_movi.scratch fun s1 e1 => sets64_add.of_eq ?_
    rw [e1.get64_used hy, e1.get64_free]

theorem sets64_subi (hy : y < free) : Sets64 tgt free (tcgGenSubiI64 free x y v) s x (s.get64 y - v) := by
  unfold tcgGenSubiI64
  split_ifs with h
  · exact (sets64_mov hy).of_eq (by simp [h])
  · refine sets64_movi.scratch fun s1 e1 => sets64_sub.of_eq ?_
    rw [e1.get64_used hy, e1.get64_free]

theorem sets64_subfi (hy : y < free) : Sets64 tgt free (tcgGenSubfiI64 free x v y) s x (v - s.get64 y) := by
  refine sets64_movi.scratch fun s1 e1 => sets64_sub.of_eq ?_
  rw [e1.get64_used hy, e1.get64_free]

theorem sets64_neg (hy : y < free) : Sets64 tgt free (tcgGenNegI64 free x y) s x (-s.get64 y) :=
  (sets64_subfi hy).of_eq (by simp)

theorem sets64_mulu2 {a b : Temp} (ha : a.name < free) (hb : b.name < free) :
    Sets64 tgt free (tcgGenMulu2I32 tgt free (.low x) (.high x) a b) s x
      ((s.val a).setWidth 64 * (s.val b).setWidth 64) := by
  unfold tcgGenMulu2I32
  split_ifs with h
  · exact ends_single rfl (Same.refl _ _)
  · refine scratch64 (sets_binary rfl) fun s1 e1 => ?_
    refine of_eq (highLow (a := s.val a * s.val b)
      (b := highHalf ((s.val a).setWidth 64 * (s.val b).setWidth 64))
      (sets_binary ?_) fun s2 e2 => sets_mov.of_eq ?_) ?_
    · rw [e1.of_set_free.val a ha, e1.of_set_free.val b hb]
      rfl
    · rw [e2.val_set name_free, if_neg (by simp), e1.val_set name_free, if_pos rfl]
    · rw [← lowHalf_mul, highHalf_append_lowHalf]

theorem sets64_mul (hy : y < free) (hz : z < free) :
    Sets64 tgt free (tcgGenMulI64 tgt free x y z) s x (s.get64 y * s.get64 z) := by
  have hlt : free < free + 2 := by omega
  refine Ends.append (P := fun s2 => s2.get64 free = s.get64 y * s.get64 z ∧ Same free s s2)
    ((sets64_mulu2 (name_low (by omega)) (name_low (by omega))).append fun s1 e1 => ?_) fun s2 hs2 => ?_
  · -- the mixed products are added to the high half of the new variable
    have hsame : Same free s s1 := (e1.of_le (le_succ _)).of_set64_free
    refine ⟨_, rfl, ?_, fun t ht => ?_, hsame.mem, hsame.guest, hsame.target⟩
    · have hprod := e1.get64_set64 hlt
      rw [if_pos rfl] at hprod
      have hlow : s1.val (.low free) = s.val (.low y) * s.val (.low z) := by
        rw [← lowHalf_get64, hprod, lowHalf_mul]
      have hhigh : s1.val (.high free) =
          highHalf ((s.val (.low y)).setWidth 64 * (s.val (.low z)).setWidth 64) := by
        rw [← highHalf_get64, hprod]
      simp [get64, hlow, hhigh, hsame.val (.low y) hy, hsame.val (.high y) hy,
        hsame.val (.low z) hz, hsame.val (.high z) hz, hy.ne, mul_join]
    · have h1 : t ≠ .high free := by
        rintro rfl
        exact absurd ht (lt_irrefl free)
      have h2 : t ≠ .single (free + 1) := by
        rintro rfl
        simp [Temp.name] at ht
      simp [h1, h2, hsame.val t ht]
  · refine (sets64_mov (y := free) hlt).mono fun s3 e3 => ?_
    rw [hs2.1] at e3
    exact (hs2.2.set64 x _).trans (e3.of_le (by omega))

theorem sets64_muli (hy : y < free) : Sets64 tgt free (tcgGenMuliI64 tgt free x y v) s x (s.get64 y * v) := by
  refine sets64_movi.scratch fun s1 e1 => (sets64_mul (Nat.lt_succ_of_lt hy) (lt_succ_self free)).of_eq ?_
  rw [e1.get64_used hy, e1.get64_free]

/-- The shift that `tcg_gen_shifti_i64` is told to build. -/
def shifted (right arith : Bool) (c : Nat) (v : BitVec 64) : BitVec 64 :=
  if right then if arith then v.sshiftRight c else v >>> c else v <<< c

variable {free' : Nat}

theorem Sets.of_le (h : Sets tgt free' code s t a) (hle : free ≤ free') :
    Sets tgt free code s t a :=
  h.mono fun _ e => e.of_le hle

theorem sets64_shifti_ge (right arith : Bool) (hy : y < free) (hc : 32 ≤ c) (hc64 : c < 64) :
    Sets64 tgt free (tcgGenShiftiI64 free x y c right arith) s x (shifted right arith c (s.get64 y)) := by
  unfold tcgGenShiftiI64
  rw [if_neg (by omega), if_pos hc]
  cases right with
  | false =>
    exact of_eq ((sets_shli (name_low hy) (by omega)).highLow fun _ _ => sets_movi)
      (shiftLeft_join_of_ge _ _ hc).symm
  | true =>
    cases arith with
    | false =>
      exact of_eq ((sets_shri (name_high hy) (by omega)).lowHigh fun _ _ => sets_movi)
        (ushiftRight_join_of_ge _ _ hc).symm
    | true =>
      exact of_eq ((sets_sari (name_high hy) (by omega)).lowHigh fun s1 e1 =>
        (sets_sari (name_high hy) (by omega)).of_eq (by rw [e1.high_of_low hy]))
        (sshiftRight_join_of_ge _ _ hc).symm

theorem sets_shift_or {r : Temp} (hr : r.name < free) (ht : t.name < free) (hne : t ≠ r)
    (hb : s.val t = b) (h : Sets tgt free code s r a) :
    Sets tgt free (code ++ [.binary .or r r t]) s r (a ||| b) := by
  refine h.again fun s1 e1 => sets_binary ?_
  rw [e1.val_set hr, e1.val_set ht, if_pos rfl, if_neg hne, hb]
  rfl

theorem Sets.scratch_two {codeA codeB : List Instr} (hA : Sets tgt (free + 1) codeA s (.single free) a)
    (hB : ∀ s1, Same (free + 1) (s.set (.single free) a) s1 →
      Sets tgt (free + 2) codeB s1 (.single (free + 1)) b)
    (h : ∀ s2, Same free s s2 → s2.val (.single free) = a → s2.val (.single (free + 1)) = b →
      Sets64 tgt (free + 2) code s2 x w) :
    Sets64 tgt free (codeA ++ (codeB ++ code)) s x w := by
  refine scratch64 hA fun s1 e1 => scratch64 (hB s1 e1) fun s2 e2 => h s2 ?_ ?_ ?_
  · exact e1.of_set_free.trans (e2.of_set_free.of_le (le_succ free))
  · rw [e2.of_set_free.val _ name_free, e1.val_set name_free, if_pos rfl]
  · rw [e2.val_set name_free, if_pos rfl]

theorem sets64_shl_lt (arith : Bool) (hx : x < free) (hy : y < free) (hc0 : 0 < c) (hc : c < 32) :
    Sets64 tgt free (tcgGenShiftiI64 free x y c false arith) s x (s.get64 y <<< c) := by
  have hval : s.get64 y <<< c = (s.val (.high y) <<< c ||| s.val (.low y) >>> (32 - c)) ++
      s.val (.low y) <<< c := shiftLeft_join_of_lt _ _ hc0 hc
  unfold tcgGenShiftiI64
  rw [if_neg (by omega), if_neg (by omega), if_neg (by simp), hval]
  refine scratch_two ((sets_shri (name_low (by omega)) (by omega)).of_le (le_succ _))
    (fun s1 e1 => (sets_shli (name_low (by omega)) hc).of_eq
      (by rw [e1.of_set_free.val _ (name_low hy)])) fun s2 hs h0 h1 => ?_
  refine highLow (sets_shift_or (name_high (by omega)) (by simp [Temp.name]) (by simp) h0
    ((sets_shli (name_high (by omega)) hc).of_eq ?_)) fun s3 e3 => sets_mov.of_eq ?_
  · rw [hs.val _ (name_high hy)]
  · rw [e3.val_set (by simp [Temp.name]), if_neg (by simp), h1]

theorem sets64_shr_lt (arith : Bool) (hx : x < free) (hy : y < free) (hc0 : 0 < c) (hc : c < 32) :
    Sets64 tgt free (tcgGenShiftiI64 free x y c true arith) s x (shifted true arith c (s.get64 y)) := by
  have hval : shifted true arith c (s.get64 y) =
      (if arith then (s.val (.high y)).sshiftRight c else s.val (.high y) >>> c) ++
        (s.val (.low y) >>> c ||| s.val (.high y) <<< (32 - c)) := by
    cases arith with
    | false => exact ushiftRight_join_of_lt _ _ hc0 hc
    | true => exact sshiftRight_join_of_lt _ _ hc0 hc
  unfold tcgGenShiftiI64
  rw [if_neg (by omega), if_neg (by omega), if_pos rfl, hval]
  refine scratch_two
    (b := if arith then (s.val (.high y)).sshiftRight c else s.val (.high y) >>> c)
    ((sets_shli (name_high (by omega)) (by omega)).of_le (le_succ _))
    (fun s1 e1 => ?_) fun s2 hs h0 h1 => ?_
  · have hhigh := e1.of_set_free.val _ (name_high hy)
    cases arith with
    | false => exact (sets_shri (name_high (by omega)) hc).of_eq (by rw [hhigh]; rfl)
    | true => exact (sets_sari (name_high (by omega)) hc).of_eq (by rw [hhigh]; rfl)
  · refine lowHigh (sets_shift_or (name_low (by omega)) (by simp [Temp.name]) (by simp) h0
      ((sets_shri (name_low (by omega)) hc).of_eq ?_)) fun s3 e3 => sets_mov.of_eq ?_
    · rw [hs.val _ (name_low hy)]
    · rw [e3.val_set (by simp [Temp.name]), if_neg (by simp), h1]

theorem sets64_shifti (right arith : Bool) (hx : x < free) (hy : y < free) (hc : c < 64) :
    Sets64 tgt free (tcgGenShiftiI64 free x y c right arith) s x (shifted right arith c (s.get64 y)) := by
  by_cases h0 : c = 0
  · have hval : shifted right arith c (s.get64 y) = s.get64 y := by
      subst h0
      cases right <;> cases arith <;> simp [shifted]
    unfold tcgGenShiftiI64
    rw [if_pos h0, hval]
    exact sets64_mov hy
  · by_cases h32 : 32 ≤ c
    · exact sets64_shifti_ge right arith hy h32 hc
    · cases right with
      | false => exact sets64_shl_lt arith hx hy (by omega) (by omega)
      | true => exact sets64_shr_lt arith hx hy (by omega) (by omega)

theorem sets64_shli (hx : x < free) (hy : y < free) (hc : c < 64) :
    Sets64 tgt free (tcgGenShliI64 free x y c) s x (s.get64 y <<< c) :=
  sets64_shifti false false hx hy hc

theorem sets64_shri (hx : x < free) (hy : y < free) (hc : c < 64) :
    Sets64 tgt free (tcgGenShriI64 free x y c) s x (s.get64 y >>> c) :=
  sets64_shifti true false hx hy hc

theorem sets64_sari (hx : x < free) (hy : y < free) (hc : c < 64) :
    Sets64 tgt free (tcgGenSariI64 free x y c) s x ((s.get64 y).sshiftRight c) :=
  sets64_shifti true true hx hy hc

theorem Sets64.of_le (h : Sets64 tgt free' code s x v) (hle : free ≤ free') :
    Sets64 tgt free code s x v := h.mono fun _ e => e.of_le hle

theorem sets64_rotli (hx : x < free) (hy : y < free) (hc : c < 64) :
    Sets64 tgt free (tcgGenRotliI64 free x y c) s x ((s.get64 y).rotateLeft c) := by
  unfold tcgGenRotliI64
  split_ifs with h
  · exact (sets64_mov hy).of_eq (by simp [h, rotateLeft_def, ushiftRight_eq_zero])
  · refine scratch ((sets64_shli (by omega) (by omega) hc).of_le (le_succ _))
      fun s1 e1 => scratch (sets64_shri (by omega) (by omega) (by omega)) fun s2 e2 => ?_
    refine (sets64_logic .or (by omega) (by omega) (by omega)).of_eq ?_
    rw [Logic.eval, e2.get64_free, e2.get64_used (lt_succ_self free), e1.get64_free,
      e1.get64_used hy, rotateLeft_def, Nat.mod_eq_of_lt hc]

theorem sets64_rotri (hx : x < free) (hy : y < free) (hc : c < 64) :
    Sets64 tgt free (tcgGenRotriI64 free x y c) s x ((s.get64 y).rotateRight c) := by
  unfold tcgGenRotriI64
  split_ifs with h
  · exact (sets64_mov hy).of_eq (by simp [h, rotateRight_def])
  · refine (sets64_rotli hx hy (by omega)).of_eq ?_
    rw [rotateLeft_def, rotateRight_def, Nat.mod_eq_of_lt hc,
      Nat.mod_eq_of_lt (show 64 - c < 64 by omega), Nat.sub_sub_self hc.le, BitVec.or_comm]

def TcgCond.eval (cond : TcgCond) (a b : BitVec 64) : Bool :=
  match cond with
  | .always => true
  | .never => false
  | .test c => evalCond c a b

theorem sets64_setcond (cond : TcgCond) :
    Sets64 tgt free (tcgGenSetcondI64 cond x y z) s x
      (if cond.eval (s.get64 y) (s.get64 z) then 1 else 0) := by
  cases cond with
  | always | never => exact sets64_movi
  | test c =>
    refine of_eq (lowHigh (sets_of_exec rfl) fun _ _ => sets_movi) ?_
    rw [TcgCond.eval, get64, get64]
    split_ifs <;> rfl

theorem sets64_setcondi (cond : TcgCond) (hy : y < free) :
    Sets64 tgt free (tcgGenSetcondiI64 free cond x y v) s x (if cond.eval (s.get64 y) v then 1 else 0) := by
  refine sets64_movi.scratch fun s1 e1 => (sets64_setcond cond).of_eq ?_
  rw [e1.get64_used hy, e1.get64_free]

/-- One half of a choice, by a mask that is all ones or zero. -/
theorem sets_choose {r a b : Temp} {taken : Bool} (hr : r.name < free) (hb : b.name < free)
    (ht : t.name < free) (hmask : s.val t = if taken then allOnes 32 else 0#32) :
    Sets tgt free ([.binary .and (.single free) a t] ++
      (tcgGenAndcI32 tgt (free + 1) r b t ++ [.binary .or r r (.single free)])) s r
      (if taken then s.val a else s.val b) := by
  refine scratch (sets_binary rfl) fun s1 e1 => ?_
  refine (sets_shift_or (b := s.val a &&& s.val t) (by omega) name_free (ne_single_free hr).symm ?_
    (sets_logic .andc (by omega) (by omega) (by omega))).of_eq ?_
  · rw [e1.val_set name_free, if_pos rfl]
  · rw [e1.of_set_free.val b hb, e1.of_set_free.val t ht, hmask]
    cases taken with
    | false =>
      simp only [Logic.eval, Bool.false_eq_true, if_false, not_zero, and_allOnes, and_zero, or_zero]
    | true =>
      simp only [Logic.eval, if_true, not_allOnes, and_zero, and_allOnes, zero_or]

section Movcond

variable {p : Cond} {c d : Nat} {taken : Bool}

theorem get64_choice : (if taken then s.get64 y else s.get64 z) =
    (if taken then s.val (.high y) else s.val (.high z)) ++
      (if taken then s.val (.low y) else s.val (.low z)) := by
  cases taken <;> rfl

theorem sets_compared (htaken : evalCond p (s.get64 c) (s.get64 d) = taken) :
    Sets tgt (free + 1) [.setcond2 p (.single free) (.low c) (.high c) (.low d) (.high d)] s
      (.single free) (if taken then 1 else 0) := by
  rw [← htaken]
  exact sets_of_exec rfl

theorem sets64_movcond_has (hhas : tgt.hasMovcond = true) (hy : y < free) (hz : z < free)
    (htaken : evalCond p (s.get64 c) (s.get64 d) = taken) :
    Sets64 tgt free (tcgGenMovcondI64 tgt free (.test p) x c d y z) s x
      (if taken then s.get64 y else s.get64 z) := by
  have hcode : ∀ r v1 v2 : Temp, tcgGenMovcondI32 tgt (free + 2) (.test .ne) r (.single free)
      (.single (free + 1)) v1 v2 =
        [.movcond .ne r (.single free) (.single (free + 1)) v1 v2] := fun r v1 v2 => if_pos hhas
  rw [get64_choice, tcgGenMovcondI64, if_pos hhas, hcode, hcode]
  refine scratch_two (sets_compared htaken) (fun _ _ => sets_movi) fun s2 hs h0 h1 => ?_
  have hne : evalCond .ne (s2.val (.single free)) (s2.val (.single (free + 1))) = taken := by
    rw [h0, h1]
    cases taken <;> rfl
  refine lowHigh ((sets_of_exec rfl).of_eq ?_) fun s3 e3 => (sets_of_exec rfl).of_eq ?_
  · rw [hne, hs.val _ (name_low hy), hs.val _ (name_low hz)]
  · rw [e3.single_of_low (by omega), e3.single_of_low (by omega), hne, e3.high_of_low (by omega),
      e3.high_of_low (by omega), hs.val _ (name_high hy), hs.val _ (name_high hz)]

theorem sets64_movcond_mask (hhas : ¬ tgt.hasMovcond = true) (hx : x < free) (hy : y < free)
    (hz : z < free) (htaken : evalCond p (s.get64 c) (s.get64 d) = taken) :
    Sets64 tgt free (tcgGenMovcondI64 tgt free (.test p) x c d y z) s x
      (if taken then s.get64 y else s.get64 z) := by
  rw [get64_choice, tcgGenMovcondI64, if_neg hhas, ← List.append_assoc]
  refine scratch64 (a := if taken then allOnes 32 else 0#32) ((sets_compared htaken).again fun s1 e1 =>
      ((sets_neg (by simp [Temp.name])).of_le (le_succ _)).of_eq ?_) fun s1 e1 => ?_
  · rw [e1.val_set name_free, if_pos rfl]
    cases taken <;> rfl
  · have hmask := e1.val_set name_free
    rw [if_pos rfl] at hmask
    refine lowHigh ((sets_choose (name_low (by omega)) (name_low (by omega)) name_free
      hmask).of_eq ?_) fun s2 e2 => ?_
    · rw [e1.of_set_free.val _ (name_low hy), e1.of_set_free.val _ (name_low hz)]
    · refine (sets_choose (name_high (by omega)) (name_high (by omega)) name_free
        ((e2.single_of_low (lt_succ_self free)).trans hmask)).of_eq ?_
      rw [e2.high_of_low (by omega), e2.high_of_low (by omega),
        e1.of_set_free.val _ (name_high hy), e1.of_set_free.val _ (name_high hz)]

end Movcond

theorem sets64_movcond (cond : TcgCond) {d : Nat} (hx : x < free) (hy : y < free) (hz : z < free) :
    Sets64 tgt free (tcgGenMovcondI64 tgt free cond x c d y z) s x
      (if cond.eval (s.get64 c) (s.get64 d) then s.get64 y else s.get64 z) := by
  cases cond with
  | always => exact sets64_mov hy
  | never => exact sets64_mov hz
  | test p =>
    by_cases hhas : tgt.hasMovcond = true
    · exact sets64_movcond_has hhas hy hz rfl
    · exact sets64_movcond_mask hhas hx hy hz rfl

theorem Sets64.insert (hx : x < free) (hy : y < free) (h : Sets64 tgt (free + 1) code s free w) :
    Sets64 tgt free (code ++ (tcgGenAndiI64 tgt (free + 1) x y v ++ tcgGenOrI64 x x free)) s x
      (s.get64 y &&& v ||| w) := by
  refine h.scratch fun s1 e1 => (sets64_andi (by omega)).again fun s2 e2 =>
    (sets64_logic .or (by omega) (by omega) (lt_succ_self free)).of_eq ?_
  rw [Logic.eval, e2.get64_set64 (by omega), e2.get64_set64 (lt_succ_self free), if_pos rfl,
    if_neg hx.ne', e1.get64_used hy, e1.get64_free]

theorem sets64_deposit {ofs len : Nat} (hx : x < free) (hy : y < free) (hz : z < free)
    (hofs : ofs < 64) (h : ofs + len ≤ 64) :
    Sets64 tgt free (tcgGenDepositI64 tgt free x y z ofs len) s x
      (evalDeposit ofs len (s.get64 y) (s.get64 z)) := by
  unfold tcgGenDepositI64
  split_ifs with hfull hhigh hlow hin
  · obtain ⟨rfl, rfl⟩ := hfull
    exact (sets64_mov hz).of_eq (evalDeposit_full _ _).symm
  · refine of_eq (highLow (sets_deposit (by omega) (by omega) hx (name_high hy)
      (name_low hz)) fun s1 e1 => sets_mov.of_eq (e1.low_of_high hy))
      (evalDeposit_join_high _ _ _ _ hhigh h).symm
  · refine of_eq (lowHigh (sets_deposit (by omega) hlow hx (name_low hy) (name_low hz))
      fun s1 e1 => sets_mov.of_eq (e1.high_of_low hy)) (evalDeposit_join_low _ _ _ _ hlow).symm
  · refine (insert hx hy ((sets64_andi (by omega)).again fun s1 e1 =>
      (sets64_shli (lt_succ_self free) (lt_succ_self free) hofs).of_eq ?_)).of_eq
      (deposit_inside hin _ _)
    rw [e1.get64_free]
  · exact (insert hx hy (sets64_shli (lt_succ_self free) (by omega) hofs)).of_eq
      (deposit_top (by omega) (by omega) _ _)

theorem sets64_extSign {gen : Temp → Temp → List Instr} {a : Temp} (hx : x < free)
    (h : Sets tgt free (gen (.low x) a) s (.low x) r) :
    Sets64 tgt free (extSignI64 gen free x a) s x (r.signExtend 64) := by
  refine of_eq (h.lowHigh fun s1 e1 => (sets_sari (name_low hx) (by omega)).of_eq ?_) (join_sign r)
  rw [e1.val_set (name_low hx), if_pos rfl]

theorem sets64_extZero {gen : Temp → Temp → List Instr} {a : Temp}
    (h : Sets tgt free (gen (.low x) a) s (.low x) r) :
    Sets64 tgt free (extZeroI64 gen x a) s x (r.setWidth 64) :=
  of_eq (h.lowHigh fun _ _ => sets_movi) (join_zero r)

/-- The extensions within a 64-bit variable. -/
inductive Ext where
  | s8
  | s16
  | s32
  | u8
  | u16
  | u32
  deriving DecidableEq, Repr

def Ext.eval : Ext → BitVec 64 → BitVec 64
  | .s8, v => (v.setWidth 8).signExtend 64
  | .s16, v => (v.setWidth 16).signExtend 64
  | .s32, v => (v.setWidth 32).signExtend 64
  | .u8, v => (v.setWidth 8).setWidth 64
  | .u16, v => (v.setWidth 16).setWidth 64
  | .u32, v => (v.setWidth 32).setWidth 64

def Ext.gen (tgt : Target) (free : Nat) : Ext → Nat → Nat → List Instr
  | .s8 => tcgGenExt8sI64 tgt free
  | .s16 => tcgGenExt16sI64 tgt free
  | .s32 => tcgGenExt32sI64 free
  | .u8 => tcgGenExt8uI64 tgt free
  | .u16 => tcgGenExt16uI64 tgt free
  | .u32 => tcgGenExt32uI64

theorem sets64_ext (f : Ext) (hx : x < free) (hy : y < free) :
    Sets64 tgt free (f.gen tgt free x y) s x (f.eval (s.get64 y)) := by
  have hw : ∀ k ≤ 32, (s.get64 y).setWidth k = (s.val (.low y)).setWidth k := fun k hk => setWidth_join _ _ hk
  cases f with
  | s8 =>
    refine (sets64_extSign hx (sets_extSign (k := 8) (by omega) (by omega) hx (name_low hy)
      fun _ => rfl)).of_eq ?_
    rw [signExtend_twice (by omega) (by omega), Ext.eval, hw 8 (by omega)]
  | s16 =>
    refine (sets64_extSign hx (sets_extSign (k := 16) (by omega) (by omega) hx (name_low hy)
      fun _ => rfl)).of_eq ?_
    rw [signExtend_twice (by omega) (by omega), Ext.eval, hw 16 (by omega)]
  | s32 =>
    refine (sets64_extSign hx sets_mov).of_eq ?_
    rw [Ext.eval, hw 32 le_rfl, setWidth_eq]
  | u8 =>
    refine (sets64_extZero (sets_extZero (k := 8) (name_low hy) fun _ => rfl)).of_eq ?_
    rw [setWidth_twice (by omega), Ext.eval, hw 8 (by omega)]
  | u16 =>
    refine (sets64_extZero (sets_extZero (k := 16) (name_low hy) fun _ => rfl)).of_eq ?_
    rw [setWidth_twice (by omega), Ext.eval, hw 16 (by omega)]
  | u32 =>
    refine (sets64_extZero sets_mov).of_eq ?_
    rw [Ext.eval, hw 32 le_rfl, setWidth_eq]

/-- The loads from host memory into a 64-bit variable. -/
inductive Load where
  | u8
  | s8
  | u16
  | s16
  | u32
  | s32
  | full
  deriving DecidableEq, Repr

def Load.bytes : Load → Nat
  | .u8 | .s8 => 1
  | .u16 | .s16 => 2
  | .u32 | .s32 => 4
  | .full => 8

def Load.signed : Load → Bool
  | .s8 | .s16 | .s32 => true
  | .u8 | .u16 | .u32 | .full => false

def Load.gen (tgt : Target) (free : Nat) : Load → Nat → Temp → BitVec 32 → List Instr
  | .u8 => tcgGenLd8uI64
  | .s8 => tcgGenLd8sI64 free
  | .u16 => tcgGenLd16uI64
  | .s16 => tcgGenLd16sI64 free
  | .u32 => tcgGenLd32uI64
  | .s32 => tcgGenLd32sI64 free
  | .full => tcgGenLdI64 tgt

def Load.eval (tgt : Target) (f : Load) (m : BitVec 32 → BitVec 8) (a : BitVec 32) : BitVec 64 :=
  extendTo 64 (8 * f.bytes) f.signed (ofBytes tgt.bigEndian (loadBytes m a f.bytes))

variable {base : Temp} {offset : BitVec 32}

theorem sets64_ldZero (kind : LoadKind) (hkind : loadSigned kind = false) :
    Sets64 tgt free (ldZeroI64 kind x base offset) s x
      (extendTo 64 (8 * kind.bytes .w32) false
        (ofBytes tgt.bigEndian (loadBytes s.mem (s.val base + offset) (kind.bytes .w32)))) := by
  refine of_eq ((sets_of_exec rfl).lowHigh fun _ _ => sets_movi) ?_
  rw [hkind]
  refine join_extendTo ?_ ?_ false _ <;> cases kind <;> decide

theorem sets64_ldSign (kind : LoadKind) (hx : x < free) :
    Sets64 tgt free (ldSignI64 kind free x base offset) s x
      ((extendTo 32 (8 * kind.bytes .w32) (loadSigned kind)
        (ofBytes tgt.bigEndian (loadBytes s.mem (s.val base + offset) (kind.bytes .w32)))).signExtend
          64) := by
  refine of_eq ((sets_of_exec rfl).lowHigh fun s1 e1 =>
    (sets_sari (name_low hx) (by omega)).of_eq ?_) (join_sign _)
  rw [e1.val_set (name_low hx), if_pos rfl]

/-- The half of the destination that `tcg_gen_ld_i64` writes first. -/
def firstHalf (tgt : Target) (x : Nat) : Temp := if tgt.bigEndian then .high x else .low x

theorem eval_full (a : BitVec 32) (m : BitVec 32 → BitVec 8) :
    Load.full.eval tgt m a = if tgt.bigEndian then
        ofNat 32 (ofBytes true (loadBytes m a 4)) ++
          ofNat 32 (ofBytes true (loadBytes m (a + 4) 4))
      else
        ofNat 32 (ofBytes false (loadBytes m (a + 4) 4)) ++
          ofNat 32 (ofBytes false (loadBytes m a 4)) := by
  have hlt : ∀ big b, ofBytes big (loadBytes m b 4) < 2 ^ 32 := fun big b => by
    have := ofBytes_lt big (loadBytes m b 4)
    rwa [length_loadBytes] at this
  have hsplit : loadBytes m a 8 = loadBytes m a 4 ++ loadBytes m (a + 4) 4 := loadBytes_add m a 4 4
  simp only [Load.eval, Load.bytes, Load.signed, extendTo, Bool.false_eq_true, if_false, hsplit,
    ofBytes_append, length_loadBytes]
  cases tgt.bigEndian with
  | false | true => exact (setWidth_eq _).trans (ofNat_join (hlt _ _))

theorem sets_ld_full {r : Temp} :
    Sets tgt free [.ld .full r base offset] s r
      (ofNat 32 (ofBytes tgt.bigEndian (loadBytes s.mem (s.val base + offset) 4))) :=
  (sets_of_exec rfl).of_eq (setWidth_eq _)

theorem sets64_ld_full (hbase : base.name < free) (hfirst : base ≠ firstHalf tgt x) :
    Sets64 tgt free (tcgGenLdI64 tgt x base offset) s x (Load.full.eval tgt s.mem (s.val base + offset)) := by
  rw [eval_full]
  unfold tcgGenLdI64
  by_cases hbig : tgt.bigEndian = true
  · rw [firstHalf, if_pos hbig] at hfirst
    rw [if_pos hbig, if_pos hbig]
    refine highLow (sets_ld_full.of_eq ?_) fun s1 e1 => sets_ld_full.of_eq ?_
    · rw [hbig]
    · rw [hbig, e1.mem, set_mem, e1.val_set hbase, if_neg hfirst, BitVec.add_assoc]
  · rw [firstHalf, if_neg hbig] at hfirst
    rw [if_neg hbig, if_neg hbig]
    rw [Bool.not_eq_true] at hbig
    refine lowHigh (sets_ld_full.of_eq ?_) fun s1 e1 => sets_ld_full.of_eq ?_
    · rw [hbig]
    · rw [hbig, e1.mem, set_mem, e1.val_set hbase, if_neg hfirst, BitVec.add_assoc]

theorem sets64_ld (f : Load) (hf : f ≠ .s8) (hfull : f = .full → base ≠ firstHalf tgt x)
    (hx : x < free) (hbase : base.name < free) :
    Sets64 tgt free (f.gen tgt free x base offset) s x (f.eval tgt s.mem (s.val base + offset)) := by
  cases f with
  | u8 => exact sets64_ldZero .u8 rfl
  | s8 => exact absurd rfl hf
  | u16 => exact sets64_ldZero .u16 rfl
  | s16 => exact (sets64_ldSign .s16 hx).of_eq (signExtend_twice (by decide) (by decide) _)
  | u32 => exact sets64_ldZero .full rfl
  | s32 => exact (sets64_ldSign .full hx).of_eq (congrArg _ (setWidth_eq _))
  | full => exact sets64_ld_full hbase (hfull rfl)

theorem ofBytes_single (big big' : Bool) (b : BitVec 8) : ofBytes big [b] = ofBytes big' [b] := by
  cases big <;> cases big' <;> rfl

section

variable (memop : GuestOp)

theorem guestLoad_canonical (hsize : memop.size < 3) (g : BitVec 32 → BitVec 8) (a : BitVec 32) :
    guestLoad tgt 32 (tcgCanonicalizeMemop memop false false) g a = guestLoad tgt 32 memop g a := by
  obtain ⟨size, sign, bswap, rest⟩ := memop
  match size, hsize with
  | 0, _ => exact congrArg (extendTo 32 8 sign) (ofBytes_single _ _ _)
  | 1, _ => rfl
  | 2, _ =>
    cases sign with
    | false => rfl
    | true =>
      refine Eq.trans ?_ (signExtend_eq _).symm
      exact setWidth_eq _

theorem canonical_full (hsize : ¬ memop.size < 3) :
    tcgCanonicalizeMemop memop true false = memop := by
  have h3 : ∀ k : Fin 4, ¬ k < 3 → k = 3 := by decide
  obtain ⟨size, sign, bswap, rest⟩ := memop
  obtain rfl : size = 3 := h3 size hsize
  rfl

theorem sets64_qemuLd (hx : x < free) :
    Sets64 tgt free (tcgGenQemuLdI64 free x base memop) s x
      (guestLoad tgt 64 memop s.guest (s.val base)) := by
  unfold tcgGenQemuLdI64
  by_cases hsize : memop.size < 3
  · rw [if_pos hsize]
    have hbits : 0 < 8 * memop.bytes ∧ 8 * memop.bytes ≤ 32 :=
      (by decide : ∀ k : Fin 4, k < 3 → 0 < 8 * 2 ^ k.val ∧ 8 * 2 ^ k.val ≤ 32) memop.size hsize
    refine of_eq (lowHigh ((sets_of_exec rfl).of_eq (guestLoad_canonical memop hsize _ _))
      fun s1 e1 => ?_) (join_extendTo hbits.1 hbits.2 memop.sign _)
    have hlow := e1.val_set (name_low hx)
    rw [if_pos rfl] at hlow
    split_ifs with hsign
    · exact (sets_sari (name_low hx) (by omega)).of_eq (by rw [hlow]; rfl)
    · exact sets_movi
  · rw [if_neg hsize, canonical_full memop hsize]
    exact ends_single rfl (Same.refl free _)

end

end TcgArm.Half
