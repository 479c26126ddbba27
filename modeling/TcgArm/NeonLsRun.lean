import TcgArm.NeonLs
import TcgArm.Lanes

/-! What the ops of the NEON loads and stores do: they run on the core registers, the D registers
and memory. The ops of one register transfer its lanes one by one, from addresses at equal distances,
and leave the address behind the last. -/

namespace TcgArm.NeonLs

open BitVec ByteMemory Function Lanes
open BitVec (ofNat)

structure State where
  core : Nat → Word
  dreg : Nat → BitVec 64
  mem : Mem 32
  temp : Temp → Word
  temp64 : BitVec 64

namespace State

def setTemp (s : State) (t : Temp) (v : Word) : State :=
  { s with temp := Function.update s.temp t v }

/-- `load_reg_var`: the program counter reads as the address of the next instruction but one. -/
def readReg (ctx : Context) (s : State) (reg : Nat) : Word :=
  if reg = 15 then (if ctx.thumb then ctx.pc + 2 else ctx.pc + 4) else s.core reg

/-- One half of a D register, as `neon_load_reg` reads it. -/
def half (s : State) (reg pass : Nat) : Word := (s.dreg reg).extractLsb' (32 * pass) 32

def setDreg (s : State) (reg : Nat) (v : BitVec 64) : State :=
  { s with dreg := Function.update s.dreg reg v }

end State

/-- `deposit_i32`. -/
def deposit (u v : Word) (ofs len : Nat) : Word :=
  let mask : Word := ((BitVec.allOnes len).setWidth 32) <<< ofs
  (u &&& ~~~ mask) ||| ((v <<< ofs) &&& mask)

theorem getLsbD_deposit (u v : Word) (ofs len : Nat) {i : Nat} (hi : i < 32) :
    (deposit u v ofs len).getLsbD i =
      if ofs ≤ i ∧ i < ofs + len then v.getLsbD (i - ofs) else u.getLsbD i := by
  have hmask : (((BitVec.allOnes len).setWidth 32) <<< ofs : Word).getLsbD i =
      decide (ofs ≤ i ∧ i < ofs + len) := by
    rw [getLsbD_shiftLeft, getLsbD_setWidth, getLsbD_allOnes]
    by_cases hlow : ofs ≤ i
    · have hrest : i - ofs < 32 := by omega
      have hin : i - ofs < len ↔ i < ofs + len := by omega
      simp [hi, hlow, hrest, hin, Nat.not_lt.mpr hlow]
    · simp [hlow, Nat.lt_of_not_le hlow]
  rw [deposit, getLsbD_or, getLsbD_and, getLsbD_and, getLsbD_not, hmask, getLsbD_shiftLeft]
  split_ifs with hin
  · simp [hin, hi, Nat.not_lt.mpr hin.1]
  · simp [hin, hi]

def exec (ctx : Context) (s : State) : Op → State
  | .loadRegVar t reg => s.setTemp t (s.readReg ctx reg)
  | .storeReg reg t =>
    let v := if reg = 15 then s.temp t &&& ~~~ 1 else s.temp t
    { s with core := Function.update s.core reg v }
  | .mov t u => s.setTemp t (s.temp u)
  | .addi t imm => s.setTemp t (s.temp t + BitVec.ofNat 32 imm)
  | .add t u => s.setTemp t (s.temp t + s.temp u)
  | .shli t u n => s.setTemp t (s.temp u <<< n)
  | .shri t u n => s.setTemp t (s.temp u >>> n)
  | .or t u v => s.setTemp t (s.temp u ||| s.temp v)
  | .ext8u t => s.setTemp t (((s.temp t).setWidth 8).setWidth 32)
  | .ext16u t => s.setTemp t (((s.temp t).setWidth 16).setWidth 32)
  | .deposit t u v ofs len => s.setTemp t (deposit (s.temp u) (s.temp v) ofs len)
  | .ld size t => s.setTemp t ((load ctx.beData (2 ^ size) (s.temp .addr) s.mem).setWidth 32)
  | .st size t =>
    { s with mem := store ctx.beData (2 ^ size) (s.temp .addr) ((s.temp t).setWidth 64) s.mem }
  | .ld64 => { s with temp64 := load ctx.beData 8 (s.temp .addr) s.mem }
  | .st64 => { s with mem := store ctx.beData 8 (s.temp .addr) s.temp64 s.mem }
  | .neonLoadReg t reg pass => s.setTemp t (s.half reg pass)
  | .neonStoreReg reg pass t => s.setDreg reg (setLane 2 (s.dreg reg) pass ((s.temp t).setWidth 64))
  | .neonLoadReg64 reg => { s with temp64 := s.dreg reg }
  | .neonStoreReg64 reg => s.setDreg reg s.temp64

def run (ctx : Context) (ops : List Op) (s : State) : State := ops.foldl (exec ctx) s

theorem run_append (ctx : Context) (ops rest : List Op) (s : State) :
    run ctx (ops ++ rest) s = run ctx rest (run ctx ops s) := List.foldl_append

section Halves

variable {size l pass : Nat} {x : BitVec 64} {v : Word}

def laneOf (size : Nat) (v : Word) (j : Nat) : BitVec 64 := lane size (v.setWidth 64) j

def perHalf (size : Nat) : Nat := 4 / 2 ^ size

theorem width_mul_perHalf (hsize : size ≤ 2) : width size * perHalf size = 32 := by
  interval_cases size <;> rfl

theorem lane_inside_half (hsize : size ≤ 2) {i j : Nat} (hj : j < perHalf size)
    (hi : i < width size) : width size * j + i < 32 := by
  have hle : width size * (j + 1) ≤ width size * perHalf size := Nat.mul_le_mul_left _ hj
  rw [width_mul_perHalf hsize, Nat.mul_succ] at hle
  omega

theorem getLsbD_laneOf (v : Word) (j i : Nat) :
    (laneOf size v j).getLsbD i = (decide (i < width size) && v.getLsbD (width size * j + i)) := by
  rw [laneOf, getLsbD_lane, getLsbD_setWidth]
  by_cases hin : width size * j + i < 64
  · simp [hin]
  · rw [getLsbD_of_ge v _ (by omega)]
    simp

/-- Writing a half writes its lanes. -/
theorem lane_setHalf (hsize : size ≤ 2) (hl : l < count size) :
    lane size (setLane 2 x pass (v.setWidth 64)) l =
      if l / perHalf size = pass then laneOf size v (l % perHalf size) else lane size x l := by
  apply eq_of_getLsbD_eq
  intro i hi
  by_cases hwidth : i < width size
  · have hpos := width_pos size
    have hlane : (width size * l + i) / width size = l := by
      rw [Nat.mul_add_div hpos, Nat.div_eq_of_lt hwidth, Nat.add_zero]
    have hdiv : (width size * l + i) / width 2 = l / perHalf size := by
      rw [show width 2 = width size * perHalf size from (width_mul_perHalf hsize).symm,
        ← Nat.div_div_eq_div_mul, hlane]
    have hmod : (width size * l + i) % width 2 = width size * (l % perHalf size) + i := by
      rw [show width 2 = width size * perHalf size from (width_mul_perHalf hsize).symm,
        Nat.mod_mul, hlane, Nat.mul_add_mod, Nat.mod_eq_of_lt hwidth, Nat.add_comm]
    rw [getLsbD_lane, getLsbD_setLane (lane_inside (by omega) hl hwidth), hdiv, hmod]
    split_ifs
    · rw [getLsbD_laneOf, getLsbD_setWidth]
      by_cases hin : width size * (l % perHalf size) + i < 64
      · simp [hin]
      · rw [getLsbD_of_ge v _ (by omega)]
        simp
    · rw [getLsbD_lane]
  · rw [getLsbD_lane]
    split_ifs
    · rw [getLsbD_laneOf]
      simp [hwidth]
    · rw [getLsbD_lane]
      simp [hwidth]

theorem laneOf_or (u v : Word) (j : Nat) : laneOf size (u ||| v) j = laneOf size u j ||| laneOf size v j := by
  apply eq_of_getLsbD_eq
  intro i hi
  rw [getLsbD_or, getLsbD_laneOf, getLsbD_laneOf, getLsbD_laneOf, getLsbD_or]
  exact Bool.and_or_distrib_left _ _ _

section

variable (hsize : size ≤ 2)
include hsize

theorem laneOf_shiftLeft (u : Word) {j k : Nat} (hj : j < perHalf size) :
    laneOf size (u <<< (width size * k)) j = if j < k then 0 else laneOf size u (j - k) := by
  apply eq_of_getLsbD_eq
  intro i hi
  rw [getLsbD_laneOf]
  by_cases hwidth : i < width size
  · have hinside := lane_inside_half hsize hj hwidth
    rw [getLsbD_shiftLeft]
    split_ifs with hjk
    · have hbelow : width size * j + i < width size * k := by
        have hle : width size * (j + 1) ≤ width size * k := Nat.mul_le_mul_left _ hjk
        rw [Nat.mul_succ] at hle
        omega
      simp [hbelow]
    · obtain ⟨e, rfl⟩ := Nat.exists_eq_add_of_le (Nat.le_of_not_lt hjk)
      have hsub : width size * (k + e) + i - width size * k = width size * e + i := by
        rw [Nat.mul_add]
        omega
      have hnot : ¬ width size * (k + e) + i < width size * k := by
        rw [Nat.mul_add]
        omega
      rw [getLsbD_laneOf, hsub, Nat.add_sub_cancel_left]
      simp [hinside, hnot]
  · split_ifs
    · simp [hwidth]
    · rw [getLsbD_laneOf]
      simp [hwidth]

/-- A loaded element is the first lane of its word. -/
theorem laneOf_load (big : Bool) (a : BitVec 32) (m : Mem 32) (j : Nat) :
    laneOf size ((load big (2 ^ size) a m).setWidth 32) j =
      if j = 0 then load big (2 ^ size) a m else 0 := by
  have hword : width size ≤ 32 := by interval_cases size <;> decide
  apply eq_of_getLsbD_eq
  intro i hi
  rw [getLsbD_laneOf, getLsbD_setWidth]
  have hload : ∀ i, (load big (2 ^ size) a m).getLsbD i =
      (decide (i < width size) && (load big (2 ^ size) a m).getLsbD i) := fun i => by
    rw [load, getLsbD_gather, width]
    cases decide (i < 8 * 2 ^ size) <;> simp
  by_cases hwidth : i < width size
  · split_ifs with hj
    · subst hj
      have hi32 : i < 32 := by omega
      simp [hwidth, hi32]
    · rw [hload]
      have hnot : ¬ width size * j + i < width size := by
        have hle : width size * 1 ≤ width size * j := Nat.mul_le_mul_left _ (by omega)
        omega
      simp [hnot]
  · split_ifs
    · rw [hload i]
      simp [hwidth]
    · simp [hwidth]

omit hsize in
theorem extend_load (big : Bool) (a : BitVec 32) (m : Mem 32) :
    (((load big (2 ^ size) a m).setWidth 32).setWidth (width size)).setWidth 32 =
      (load big (2 ^ size) a m).setWidth 32 := by
  apply eq_of_getLsbD_eq
  intro i hi
  rw [getLsbD_setWidth, getLsbD_setWidth, getLsbD_setWidth, load, getLsbD_gather, ← width]
  by_cases hwidth : i < width size <;> simp [hwidth]

theorem laneOf_deposit (u v : Word) {idx j : Nat} (hj : j < perHalf size) :
    laneOf size (deposit u v (width size * idx) (width size)) j =
      if j = idx then laneOf size v 0 else laneOf size u j := by
  apply eq_of_getLsbD_eq
  intro i hi
  by_cases hwidth : i < width size
  · have hinside := lane_inside_half hsize hj hwidth
    rw [getLsbD_laneOf, getLsbD_deposit _ _ _ _ hinside]
    by_cases hidx : j = idx
    · subst hidx
      rw [if_pos ⟨by omega, by omega⟩, if_pos rfl, getLsbD_laneOf, Nat.add_sub_cancel_left,
        Nat.mul_zero, Nat.zero_add]
    · have hout : ¬ (width size * idx ≤ width size * j + i ∧
          width size * j + i < width size * idx + width size) := by
        rintro ⟨hlow, hhigh⟩
        rcases Nat.lt_or_gt_of_ne hidx with hlt | hgt
        · have hle : width size * (j + 1) ≤ width size * idx := Nat.mul_le_mul_left _ hlt
          rw [Nat.mul_succ] at hle
          omega
        · have hle : width size * (idx + 1) ≤ width size * j := Nat.mul_le_mul_left _ hgt
          rw [Nat.mul_succ] at hle
          omega
      rw [if_neg hout, if_neg hidx, getLsbD_laneOf]
  · split_ifs <;> simp [getLsbD_laneOf, hwidth]

end

/-- Writing a half whose lanes are elements in memory is loading these. -/
theorem setHalf_eq_loadAll {big : Bool} {m : Mem 32} {d : Nat → BitVec 64} {rd stride : Nat}
    {a : BitVec 32} (hsize : size ≤ 2) (hpass : pass < 2)
    (hv : ∀ j < perHalf size, laneOf size v j = load big (2 ^ size) (a + ofNat 32 (stride * j)) m) :
    update d rd (setLane 2 (d rd) pass (v.setWidth 64)) =
      loadAll big size m (span rd stride a (perHalf size * pass) (perHalf size)) d := by
  have hthree : size ≤ 3 := by omega
  have hhalf : 0 < perHalf size := by interval_cases size <;> decide
  have hcount : count size = perHalf size * 2 := by interval_cases size <;> rfl
  have hinside : ∀ el ∈ span rd stride a (perHalf size * pass) (perHalf size), el.lane < count size := by
    intro el hel
    obtain ⟨j, hj, rfl⟩ := mem_span.mp hel
    have hle : perHalf size * (pass + 1) ≤ perHalf size * 2 := Nat.mul_le_mul_left _ hpass
    rw [Nat.mul_succ] at hle
    simp only
    omega
  funext r
  by_cases hr : r = rd
  · subst hr
    rw [update_self]
    apply ext_lanes hthree
    intro l hl
    rw [lane_setHalf hsize hl]
    split_ifs with hlane
    · have hmem : (⟨r, l, a + ofNat 32 (stride * (l % perHalf size))⟩ : Element) ∈
          span r stride a (perHalf size * pass) (perHalf size) :=
        mem_span.mpr ⟨l % perHalf size, Nat.mod_lt _ hhalf, by
          rw [← hlane, Nat.div_add_mod]⟩
      rw [hv _ (Nat.mod_lt _ hhalf)]
      exact (lane_loadAll_of_mem hthree hinside (fun _ hb _ hb' _ => span_same hb hb') hmem).symm
    · refine (lane_loadAll_of_not_mem hthree hl fun el hel => ?_).symm
      obtain ⟨j, hj, rfl⟩ := mem_span.mp hel
      rintro ⟨-, rfl⟩
      apply hlane
      rw [Nat.mul_add_div hhalf, Nat.div_eq_of_lt hj, Nat.add_zero]
  · rw [update_of_ne hr]
    refine (loadAll_of_not_mem fun el hel => ?_).symm
    obtain ⟨j, -, rfl⟩ := mem_span.mp hel
    exact Ne.symm hr

end Halves

/-- From `s` to `s'` elements have been loaded or stored, and no more than that has changed. -/
structure Moved (ctx : Context) (load : Bool) (size : Nat) (els : List Element) (s s' : State) :
    Prop where
  dreg : s'.dreg = if load then loadAll ctx.beData size s.mem els s.dreg else s.dreg
  mem : s'.mem = if load then s.mem else storeAll ctx.beData size s.dreg els s.mem
  core : s'.core = s.core

section Runs

variable {ctx : Context} {load : Bool} {size rd pass stride : Nat} {els els' : List Element}
  {s s₁ s' : State}

theorem Moved.nil (hdreg : s'.dreg = s.dreg) (hmem : s'.mem = s.mem) (hcore : s'.core = s.core) :
    Moved ctx load size [] s s' :=
  ⟨by cases load <;> exact hdreg, by cases load <;> exact hmem, hcore⟩

theorem Moved.append (h : Moved ctx load size els s s1) (h' : Moved ctx load size els' s1 s') :
    Moved ctx load size (els ++ els') s s' := by
  cases load with
  | true =>
    have hdreg := h.dreg
    have hmem := h.mem
    simp only [if_true] at hdreg hmem
    refine ⟨?_, h'.mem.trans hmem, h'.core.trans h.core⟩
    rw [h'.dreg, if_pos rfl, if_pos rfl, loadAll_append, hdreg, hmem]
  | false =>
    have hdreg := h.dreg
    have hmem := h.mem
    simp only [Bool.false_eq_true, if_false] at hdreg hmem
    refine ⟨h'.dreg.trans hdreg, ?_, h'.core.trans h.core⟩
    rw [h'.mem, if_neg (by decide), if_neg (by decide), storeAll_append, hdreg, hmem]

def packed (ctx : Context) (size stride : Nat) (a : BitVec 32) (m : Mem 32) : Word :=
  let element := fun a => (ByteMemory.load ctx.beData (2 ^ size) a m).setWidth 32
  let c := BitVec.ofNat 32 stride
  match size with
  | 0 => element a ||| element (a + c) <<< 8 ||| element (a + c + c) <<< 16 |||
      element (a + c + c + c) <<< 24
  | 1 => element a ||| element (a + c) <<< 16
  | _ => element a

section

variable (hsize : size ≤ 2)
include hsize

theorem laneOf_packed (a : BitVec 32) (m : Mem 32) {j : Nat} (hj : j < perHalf size) :
    laneOf size (packed ctx size stride a m) j =
      ByteMemory.load ctx.beData (2 ^ size) (a + ofNat 32 (stride * j)) m := by
  have htwo : ofNat 32 (stride * 2) = ofNat 32 stride + ofNat 32 stride := by
    rw [← ofNat_add, Nat.mul_two]
  have hthree : ofNat 32 (stride * 3) = ofNat 32 stride + ofNat 32 stride + ofNat 32 stride := by
    rw [← ofNat_add, ← ofNat_add, Nat.mul_succ, Nat.mul_two]
  have hshift := fun (u : Word) k => laneOf_shiftLeft hsize u (k := k) hj
  have helement := fun a => laneOf_load hsize ctx.beData a m
  interval_cases size
  · have h8 : ∀ u : Word, laneOf 0 (u <<< 8) j = _ := fun u => hshift u 1
    have h16 : ∀ u : Word, laneOf 0 (u <<< 16) j = _ := fun u => hshift u 2
    have h24 : ∀ u : Word, laneOf 0 (u <<< 24) j = _ := fun u => hshift u 3
    simp only [packed, laneOf_or, h8, h16, h24, helement]
    have hj4 : j < 4 := hj
    interval_cases j <;> simp [htwo, hthree, BitVec.add_assoc]
  · have h16 : ∀ u : Word, laneOf 1 (u <<< 16) j = _ := fun u => hshift u 1
    simp only [packed, laneOf_or, h16, helement]
    have hj2 : j < 2 := hj
    interval_cases j <;> simp
  · have hj1 : j < 1 := hj
    interval_cases j
    simpa [packed] using helement a 0

open State

theorem dreg_run_pass :
    (run ctx (transferPass true size rd pass stride) s).dreg = update s.dreg rd
      (setLane 2 (s.dreg rd) pass ((packed ctx size stride (s.temp .addr) s.mem).setWidth 64)) := by
  interval_cases size <;>
    simp [transferPass, run, exec, setTemp, setDreg, packed, List.range_succ]

theorem store_laneOf (big : Bool) (a : BitVec 32) (u : Word) {j : Nat} (m : Mem 32) :
    store big (2 ^ size) a ((u >>> (width size * j)).setWidth 64) m =
      store big (2 ^ size) a (laneOf size u j) m := by
  apply store_congr
  intro i hi
  have hi' : i < width size := hi
  have hword : width size ≤ 32 := by interval_cases size <;> decide
  have hlong : i < 64 := by omega
  rw [getLsbD_laneOf, getLsbD_setWidth, getLsbD_ushiftRight]
  simp [hi', hlong]

theorem laneOf_half (reg pass j : Nat) (hj : j < perHalf size) :
    laneOf size (s.half reg pass) j = lane size (s.dreg reg) (perHalf size * pass + j) := by
  apply eq_of_getLsbD_eq
  intro i hi
  rw [getLsbD_laneOf, getLsbD_lane, half, getLsbD_extractLsb', Nat.mul_add,
    ← Nat.mul_assoc, width_mul_perHalf hsize, Nat.add_assoc]
  by_cases hwidth : i < width size
  · have hinside := lane_inside_half hsize hj hwidth
    simp [hinside]
  · simp [hwidth]

theorem mem_run_pass :
    (run ctx (transferPass false size rd pass stride) s).mem = storeAll ctx.beData size s.dreg
      (span rd stride (s.temp .addr) (perHalf size * pass) (perHalf size)) s.mem := by
  have hput : ∀ (j : Nat) (a : BitVec 32) (m : Mem 32), j < perHalf size →
      store ctx.beData (2 ^ size) a ((s.half rd pass >>> (width size * j)).setWidth 64) m =
        store ctx.beData (2 ^ size) a (lane size (s.dreg rd) (perHalf size * pass + j)) m :=
    fun j a m hj => by rw [store_laneOf hsize, laneOf_half hsize rd pass j hj]
  interval_cases size <;> simp only [perHalf, width] at hput
  · have h0 := fun a m => hput 0 a m (by decide)
    have h1 := fun a m => hput 1 a m (by decide)
    have h2 := fun a m => hput 2 a m (by decide)
    have h3 := fun a m => hput 3 a m (by decide)
    simp at h0 h1 h2 h3
    simp [transferPass, run, exec, setTemp, List.range_succ, perHalf, span, storeAll,
      storeElement, h0, h1, h2, h3]
  · have h0 := fun a m => hput 0 a m (by decide)
    have h1 := fun a m => hput 1 a m (by decide)
    simp at h0 h1
    simp [transferPass, run, exec, setTemp, perHalf, span, storeAll, storeElement, h0, h1]
  · have h0 := fun a m => hput 0 a m (by decide)
    simp at h0
    simp [transferPass, run, exec, setTemp, perHalf, span, storeAll, storeElement, h0]

theorem addr_run_pass :
    (run ctx (transferPass load size rd pass stride) s).temp .addr =
      s.temp .addr + ofNat 32 (stride * perHalf size) := by
  interval_cases size <;> cases load <;>
    simp [transferPass, run, exec, setTemp, setDreg, List.range_succ, perHalf,
      Nat.mul_succ, ofNat_add, BitVec.add_assoc]

theorem core_run_pass : (run ctx (transferPass load size rd pass stride) s).core = s.core := by
  interval_cases size <;> cases load <;>
    simp [transferPass, run, exec, setTemp, setDreg, List.range_succ]

theorem mem_run_pass_load : (run ctx (transferPass true size rd pass stride) s).mem = s.mem := by
  interval_cases size <;> simp [transferPass, run, exec, setTemp, setDreg, List.range_succ]

theorem dreg_run_pass_store : (run ctx (transferPass false size rd pass stride) s).dreg = s.dreg := by
  interval_cases size <;> simp [transferPass, run, exec, setTemp, List.range_succ]

theorem moved_pass (hpass : pass < 2) :
    Moved ctx load size (span rd stride (s.temp .addr) (perHalf size * pass) (perHalf size)) s
      (run ctx (transferPass load size rd pass stride) s) := by
  cases load with
  | true =>
    refine ⟨?_, mem_run_pass_load hsize, core_run_pass hsize⟩
    rw [dreg_run_pass hsize, if_pos rfl]
    exact setHalf_eq_loadAll hsize hpass fun j hj => laneOf_packed hsize _ _ hj
  | false => exact ⟨dreg_run_pass_store hsize, mem_run_pass hsize, core_run_pass hsize⟩

end

theorem lane_double (x : BitVec 64) : lane 3 x 0 = x := by
  simp [lane, width]

theorem setLane_double (x v : BitVec 64) : setLane 3 x 0 v = v := by
  apply eq_of_getLsbD_eq
  intro i hi
  have hdiv : i / width 3 = 0 := Nat.div_eq_of_lt hi
  rw [getLsbD_setLane hi, if_pos hdiv, show i % width 3 = i from Nat.mod_eq_of_lt hi]

theorem moved_double :
    Moved ctx load 3 (span rd stride (s.temp .addr) 0 1) s (run ctx (transferReg load 3 rd stride) s) := by
  cases load <;> constructor <;>
    simp [transferReg, run, exec, State.setTemp, State.setDreg, span, loadAll, loadElement, storeAll,
      storeElement, lane_double, setLane_double]

/-- The ops of one register move its lanes, and leave the address behind them. -/
theorem moved_reg (hsize : size ≤ 3) :
    Moved ctx load size (span rd stride (s.temp .addr) 0 (count size)) s
      (run ctx (transferReg load size rd stride) s) ∧
    (run ctx (transferReg load size rd stride) s).temp .addr =
      s.temp .addr + ofNat 32 (stride * count size) := by
  by_cases hlong : size = 3
  · subst hlong
    refine ⟨moved_double, ?_⟩
    cases load <;> simp [transferReg, run, exec, State.setTemp, State.setDreg, count]
  · have htwo : size ≤ 2 := by omega
    have hcount : count size = perHalf size + perHalf size := by interval_cases size <;> rfl
    have hops : transferReg load size rd stride =
        transferPass load size rd 0 stride ++ transferPass load size rd 1 stride := by
      rw [transferReg, if_neg hlong]
      simp [List.range_succ]
    rw [hops, run_append]
    have hfirst := @moved_pass ctx load size rd 0 stride s htwo (by decide)
    have hsecond := @moved_pass ctx load size rd 1 stride
      (run ctx (transferPass load size rd 0 stride) s) htwo (by decide)
    rw [addr_run_pass htwo] at hsecond
    refine ⟨?_, ?_⟩
    · rw [hcount, span_append, Nat.zero_add]
      simpa using hfirst.append hsecond
    · rw [addr_run_pass htwo, addr_run_pass htwo, BitVec.add_assoc, ← ofNat_add, ← Nat.mul_add, hcount]

end Runs

end TcgArm.NeonLs
