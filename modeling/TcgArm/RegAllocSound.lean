import TcgArm.RegAllocRun

/-! Storing, freeing and loading temporaries: the tables of the allocator stay consistent, and the
instructions emitted take every value where the tables then say it is. -/

namespace TcgArm.RegAlloc

open ByteMemory List Option

/-- What the allocator needs of the host. -/
structure Target.Valid (T : Target) : Prop where
  word : T.wordBytes = 4 ∨ T.wordBytes = 8
  scratch : T.scratchRegs ⊆ T.reservedRegs
  iargs : T.callIargRegs.Nodup
  iargs_free : ∀ r ∈ T.callIargRegs, r ∉ T.reservedRegs
  clobber : ∀ r ∈ T.callClobberRegs, r < T.nbRegs
  /-- There is a register for the CPU state. -/
  fixed : ∃ r ∈ T.reservedRegs, r ∉ T.scratchRegs ∧ r ∉ T.callClobberRegs
  split : T.split64 = true → T.wordBytes = 8 ∧ T.bigEndian = true ∧ T.stackGrowsUp = false ∧
    T.callAlignArgs = false

theorem Temp.Holds.congr {T : Target} {ts : Temp} {m m' : Machine} {v : BitVec 64}
    (h : ts.Holds T m v) (hmem : ∀ b o, ts.InSlot b o → m'.mem b o = m.mem b o) :
    ts.Holds T m' v := by
  refine ⟨h.1, ?_⟩
  rw [Machine.load_congr hmem]
  exact h.2

theorem Temp.HasValue.congr {T : Target} {ts : Temp} {m m' : Machine} {v : BitVec 64}
    (h : ts.HasValue T m v) (hreg : ∀ r, ts.val = .reg r → m'.regs r = m.regs r)
    (hmem : ts.memAllocated = true → ∀ b o, ts.InSlot b o → m'.mem b o = m.mem b o) :
    ts.HasValue T m' v := by
  rw [HasValue] at h ⊢
  cases hval : ts.val with
  | dead => simp [hval] at h
  | reg r =>
    simp only [hval] at h ⊢
    rw [hreg r hval]
    exact h
  | mem =>
    simp only [hval] at h ⊢
    exact h.congr (hmem h.1)
  | const val =>
    simp only [hval] at h ⊢
    exact h

namespace Ctx

variable {T : Target} {V : Nat → BitVec 64} {live : Set Nat} {area : Reg → Int → Prop}
variable {keep : Reg → Prop} {keepMem : Reg → Int → Prop} {s s' : Ctx}

@[simp] theorem setTemp_temps (s : Ctx) (t : Nat) (ts : Temp) (x : Nat) :
    (s.setTemp t ts).temps x = if x = t then ts else s.temps x :=
  Function.update_apply ..

@[simp] theorem setReg_regToTemp (s : Ctx) (r : Reg) (t : Option Nat) (x : Reg) :
    (s.setReg r t).regToTemp x = if x = r then t else s.regToTemp x :=
  Function.update_apply ..

variable {r : Reg} {t : Nat}

theorem Wf.not_scratch (hT : T.Valid) (h : s.Wf T area) (hval : (s.temps t).val = .reg r) :
    r ∉ T.scratchRegs := by
  cases hfixed : (s.temps t).fixedReg with
  | true =>
    obtain ⟨r', hr', -, hscratch, -⟩ := h.fixed t hfixed
    rw [hval, TempVal.reg.injEq] at hr'
    exact hr' ▸ hscratch
  | false =>
    exact fun hr => (h.reg_temp r t (h.temp_reg t r hval hfixed)).2.2 (hT.scratch hr)

theorem Wf.not_free (h : s.Wf T area) (hr : r ∉ T.reservedRegs) (hfree : s.regToTemp r = none) :
    (s.temps t).val ≠ .reg r := by
  intro hval
  cases hfixed : (s.temps t).fixedReg with
  | true =>
    obtain ⟨r', hr', hres, -⟩ := h.fixed t hfixed
    rw [hval, TempVal.reg.injEq] at hr'
    exact hr (hr' ▸ hres)
  | false => exact absurd (h.temp_reg t r hval hfixed) (by rw [hfree]; simp)

theorem frame_offset_le {offset word : Int} (hword : 0 < word) :
    offset ≤ (offset + word - 1) / word * word := by
  have hdiv := Int.ediv_mul_add_emod (offset + word - 1) word
  have hlt := Int.emod_lt_of_pos (offset + word - 1) hword
  omega

/-- A new slot in the frame, for a temporary without one. -/
theorem tempAllocateFrame_steps (h : s.Wf T area) {t : Nat} {r : Reg} (hval : (s.temps t).val = .reg r)
    (hcoh : (s.temps t).memCoherent = false) (hs : tempAllocateFrame T s t = some s') :
    Steps T V live area keep keepMem s s' ∧ s'.regToTemp = s.regToTemp ∧
      (∀ x, x ≠ t → s'.temps x = s.temps x) ∧ (s'.temps t).val = .reg r ∧
      (s'.temps t).memCoherent = false ∧ (s'.temps t).memAllocated = true ∧
      (s'.temps t).fixedReg = (s.temps t).fixedReg := by
  have hword : 0 < T.wordBytes := by
    refine lt_of_lt_of_le ?_ (h.bytes_le t)
    cases (s.temps t).type <;> decide
  rw [tempAllocateFrame] at hs
  simp only at hs
  set offset : Int := if T.alignFrame then
    (s.currentFrameOffset + T.wordBytes - 1) / T.wordBytes * T.wordBytes else s.currentFrameOffset
    with hoffset
  have hle : s.currentFrameOffset ≤ offset := by
    rw [hoffset]
    split_ifs
    · exact frame_offset_le (by omega)
    · exact le_rfl
  split_ifs at hs with hfull
  obtain rfl := Option.some.inj hs
  have hbytes := h.bytes_le t
  have hslot : ∀ b o, Temp.InSlot { s.temps t with
      memOffset := offset, memBase := s.frameReg, memAllocated := true } b o →
      b = s.frameReg ∧ s.currentFrameOffset ≤ o ∧ o < offset + T.wordBytes := by
    rintro b o ⟨hb, hlow, hhigh⟩
    refine ⟨hb, ?_, ?_⟩
    · exact hle.trans hlow
    · have : o < offset + ((s.temps t).type.bytes : Int) := hhigh
      omega
  refine ⟨⟨fun x => ?_, rfl, ?_, [], (append_nil _).symm, fun m m' hsound hrun => ?_⟩,
    rfl, fun x hx => by simp [hx], by simp [hval], by simp [hcoh], by simp, by simp⟩
  · simp only [setTemp_temps]
    split_ifs with hx
    · rw [hx]
    · rfl
  · constructor
    · intro r' x hr
      simp only [setTemp_temps]
      split_ifs with hx
      · subst hx
        exact h.reg_temp r' x hr
      · exact h.reg_temp r' x hr
    · intro x r'
      simp only [setTemp_temps]
      split_ifs with hx
      · subst hx
        exact h.temp_reg x r'
      · exact h.temp_reg x r'
    · intro x
      simp only [setTemp_temps]
      split_ifs with hx
      · subst hx
        exact h.fixed x
      · exact h.fixed x
    · intro x
      simp only [setTemp_temps]
      split_ifs with hx
      · subst hx
        exact h.bytes_le x
      · exact h.bytes_le x
    · intro x y b o hxy hx hy
      simp only [setTemp_temps] at hx hy ⊢
      split_ifs at hx hy ⊢ with hxt hyt hyt
      · exact absurd (hxt.trans hyt.symm) hxy
      · intro hin hin'
        obtain ⟨rfl, hlow, hhigh⟩ := hslot b o hin
        exact h.frame y o hy hin' hlow (by omega)
      · intro hin hin'
        obtain ⟨rfl, hlow, hhigh⟩ := hslot b o hin'
        exact h.frame x o hx hin hlow (by omega)
      · exact h.apart x y b o hxy hx hy
    · intro x o hx hin hlow
      simp only [setTemp_temps] at hx hin
      split_ifs at hx hin with hxt
      · obtain ⟨-, -, hhigh⟩ := hslot s.frameReg o hin
        exact absurd (show offset + T.wordBytes ≤ o from hlow) (by omega)
      · exact h.frame x o hx hin (hle.trans ((show offset ≤ offset + T.wordBytes by omega).trans hlow))
    · intro x b o hx hin
      simp only [setTemp_temps] at hx hin
      split_ifs at hx hin with hxt
      · obtain ⟨rfl, hlow, hhigh⟩ := hslot b o hin
        exact h.area_frame o hlow (by omega)
      · exact h.area_slot x b o hx hin
    · intro o hlow
      exact h.area_frame o (hle.trans ((show offset ≤ offset + T.wordBytes by omega).trans hlow))
  · obtain rfl : m' = m := hrun
    refine ⟨⟨fun x hx => ?_, fun x hx => ?_⟩, fun _ _ => rfl, fun _ _ _ => rfl⟩
    · have hvalue := hsound.value x hx
      simp only [setTemp_temps]
      split_ifs with hxt
      · subst hxt
        rw [Temp.HasValue, hval] at hvalue ⊢
        exact hvalue
      · exact hvalue
    · simp only [setTemp_temps]
      split_ifs with hxt
      · subst hxt
        intro _ hcoh'
        rw [hcoh] at hcoh'
        cases hcoh'
      · exact hsound.coherent x hx

/-- Where the slots and the frame stay, only the tables of registers have to be checked. -/
theorem Wf.of_slots (h : s.Wf T area) (hslot : ∀ x, (s'.temps x).type = (s.temps x).type ∧
      (s'.temps x).memAllocated = (s.temps x).memAllocated ∧
      (s'.temps x).memBase = (s.temps x).memBase ∧ (s'.temps x).memOffset = (s.temps x).memOffset)
    (hframe : s'.frameReg = s.frameReg ∧ s'.currentFrameOffset = s.currentFrameOffset ∧
      s'.frameEnd = s.frameEnd) (hreg_temp : ∀ r t, s'.regToTemp r = some t →
      (s'.temps t).val = .reg r ∧ (s'.temps t).fixedReg = false ∧ r ∉ T.reservedRegs)
    (htemp_reg : ∀ t r, (s'.temps t).val = .reg r → (s'.temps t).fixedReg = false → s'.regToTemp r = some t)
    (hfixed : ∀ t, (s'.temps t).fixedReg = true → s'.temps t = s.temps t) : s'.Wf T area := by
  have hin : ∀ x b o, (s'.temps x).InSlot b o ↔ (s.temps x).InSlot b o := by
    intro x b o
    obtain ⟨htype, -, hbase, hoff⟩ := hslot x
    rw [Temp.InSlot, Temp.InSlot, htype, hbase, hoff]
  obtain ⟨hreg, hcur, hend⟩ := hframe
  constructor
  · exact hreg_temp
  · exact htemp_reg
  · intro x hx
    have heq := hfixed x hx
    rw [heq] at hx ⊢
    exact h.fixed x hx
  · intro x
    rw [(hslot x).1]
    exact h.bytes_le x
  · intro x y b o hxy
    rw [(hslot x).2.1, (hslot y).2.1, hin, hin]
    exact h.apart x y b o hxy
  · intro x o
    rw [(hslot x).2.1, hin, hreg, hcur, hend]
    exact h.frame x o
  · intro x b o
    rw [(hslot x).2.1, hin]
    exact h.area_slot x b o
  · rw [hreg, hcur, hend]
    exact h.area_frame

/-- Changing only the coherence mark of a temporary keeps the tables consistent. -/
theorem Wf.setCoherent (h : s.Wf T area) (hval : (s.temps t).val = .reg r)
    (hfixed : (s.temps t).fixedReg = false) (ops : List HostOp) :
    Wf T area ({ s with code := ops }.setTemp t { s.temps t with memCoherent := true }) := by
  refine h.of_slots (fun x => ?_) ⟨rfl, rfl, rfl⟩ (fun r' x hr => ?_) (fun x r' => ?_) (fun x hx => ?_)
  · rw [setTemp_temps]
    split_ifs with hx
    · rw [hx]
      exact ⟨rfl, rfl, rfl, rfl⟩
    · exact ⟨rfl, rfl, rfl, rfl⟩
  · rw [setTemp_temps]
    split_ifs with hx
    · subst hx
      exact h.reg_temp r' x hr
    · exact h.reg_temp r' x hr
  · rw [setTemp_temps]
    split_ifs with hx
    · subst hx
      exact h.temp_reg x r'
    · exact h.temp_reg x r'
  · rw [setTemp_temps] at hx ⊢
    split_ifs at hx ⊢ with hxt
    · rw [show _ = (s.temps t).fixedReg from rfl, hfixed] at hx
      cases hx
    · rfl

/-- A store into the slot of a temporary leaves the other live temporaries alone. -/
theorem Sound.other (hT : T.Valid) (h : s.Wf T area) {m m' : Machine} (hsound : s.Sound T V live m)
    {t x : Nat} {v : BitVec 64} (hx : x ∈ live) (hxt : x ≠ t) (halloc : (s.temps t).memAllocated = true)
    (hregs : ∀ r, r ∉ T.scratchRegs → m'.regs r = m.regs r)
    (hmem : m'.mem = m.store T.bigEndian (s.temps t).type v (s.temps t).memBase (s.temps t).memOffset) :
    (s.temps x).HasValue T m' (V x) ∧
      ((s.temps x).fixedReg = false → (s.temps x).memCoherent = true → (s.temps x).Holds T m' (V x)) := by
  have hkept : (s.temps x).memAllocated = true → ∀ b o, (s.temps x).InSlot b o → m'.mem b o = m.mem b o := by
    intro hxalloc b o hin
    rw [hmem]
    exact Machine.store_of_not_inSlot (h.apart x t b o hxt hxalloc halloc hin)
  refine ⟨(hsound.value x hx).congr (fun r hr => hregs r (h.not_scratch hT hr)) hkept, fun hfixed hcoh => ?_⟩
  have hholds := hsound.coherent x hx hfixed hcoh
  exact hholds.congr (hkept hholds.1)

/-- The register of a temporary is stored into its slot. -/
theorem store_steps (hT : T.Valid) (h : s.Wf T area) (hval : (s.temps t).val = .reg r)
    (hfixed : (s.temps t).fixedReg = false) (halloc : (s.temps t).memAllocated = true) :
    Steps T V live area (· ∉ T.scratchRegs) area s
      ((s.emit (.st (s.temps t).type r (s.temps t).memBase (s.temps t).memOffset)).setTemp t
        { s.temps t with memCoherent := true }) where
  type x := by
    rw [setTemp_temps]
    split_ifs with hx
    · rw [hx]
    · rfl
  nbGlobals := rfl
  wf := h.setCoherent hval hfixed _
  code := by
    refine ⟨_, rfl, fun m m' hsound hrun => ?_⟩
    obtain ⟨hregs, hmem⟩ := runs_singleton.mp hrun
    refine ⟨⟨fun x hx => ?_, fun x hx => ?_⟩, hregs, fun b o ho => ?_⟩
    · rw [setTemp_temps]
      split_ifs with hxt
      · subst hxt
        have hvalue := hsound.value x hx
        rw [Temp.HasValue] at hvalue ⊢
        simp only [hval] at hvalue ⊢
        rw [hregs r (h.not_scratch hT hval)]
        exact hvalue
      · exact (hsound.other hT h hx hxt halloc hregs hmem).1
    · rw [setTemp_temps]
      split_ifs with hxt
      · subst hxt
        intro _ _
        have hvalue := hsound.value x hx
        rw [Temp.HasValue] at hvalue
        simp only [hval] at hvalue
        exact ⟨halloc, (Machine.load_store hmem).trans hvalue⟩
      · exact (hsound.other hT h hx hxt halloc hregs hmem).2
    · rw [hmem]
      exact Machine.store_of_not_inSlot fun hin => h.area_slot t b o halloc hin ho

/-- The tables after a temporary has left its register. -/
theorem Wf.leave (h : s.Wf T area) (hval : (s.temps t).val = .reg r)
    (hfixed : (s.temps t).fixedReg = false) {v : TempVal} (hv : ∀ r, v ≠ .reg r) :
    Wf T area ((s.setReg r none).setTemp t { s.temps t with val := v }) := by
  have hreg := h.temp_reg t r hval hfixed
  refine h.of_slots (fun x => ?_) ⟨rfl, rfl, rfl⟩ (fun r' x hr => ?_) (fun x r' hx hxf => ?_) (fun x hx => ?_)
  · rw [setTemp_temps]
    split_ifs with hx
    · rw [hx]
      exact ⟨rfl, rfl, rfl, rfl⟩
    · exact ⟨rfl, rfl, rfl, rfl⟩
  · change (s.setReg r none).regToTemp r' = some x at hr
    rw [setReg_regToTemp] at hr
    split_ifs at hr with hrr
    have hold := h.reg_temp r' x hr
    have hxt : x ≠ t := by
      rintro rfl
      rw [hval, TempVal.reg.injEq] at hold
      exact hrr hold.1.symm
    rw [setTemp_temps, if_neg hxt]
    exact hold
  · rw [setTemp_temps] at hx hxf
    split_ifs at hx hxf with hxt
    · exact absurd hx (hv r')
    · have hold := h.temp_reg x r' hx hxf
      have hrr : r' ≠ r := by
        rintro rfl
        rw [hreg, Option.some.injEq] at hold
        exact hxt hold.symm
      change (s.setReg r none).regToTemp r' = some x
      rw [setReg_regToTemp, if_neg hrr]
      exact hold
  · rw [setTemp_temps] at hx ⊢
    split_ifs at hx ⊢ with hxt
    · rw [show _ = (s.temps t).fixedReg from rfl, hfixed] at hx
      cases hx
    · rfl

/-- A temporary whose slot has its value leaves its register. -/
theorem free_steps (h : s.Wf T area) (hval : (s.temps t).val = .reg r)
    (hfixed : (s.temps t).fixedReg = false) (hcoh : (s.temps t).memCoherent = true) :
    Steps T V live area keep keepMem s (s.tempFreeOrDead t .free) ∧
      (∀ x, (s.tempFreeOrDead t .free).regToTemp x = if x = r then none else s.regToTemp x) ∧
      ∀ x, x ≠ t → (s.tempFreeOrDead t .free).temps x = s.temps x := by
  have hfree : s.tempFreeOrDead t .free = (s.setReg r none).setTemp t { s.temps t with val := .mem } := by
    simp [tempFreeOrDead, hfixed, hval]
  rw [hfree]
  refine ⟨⟨fun x => ?_, rfl, h.leave hval hfixed (by simp), [], (append_nil _).symm,
    fun m m' hsound hrun => ?_⟩, fun x => setReg_regToTemp .., fun x hx => ?_⟩
  · rw [setTemp_temps]
    split_ifs with hx
    · rw [hx]
    · rfl
  · obtain rfl : m' = m := hrun
    refine ⟨⟨fun x hx => ?_, fun x hx => ?_⟩, fun _ _ => rfl, fun _ _ _ => rfl⟩
    · rw [setTemp_temps]
      split_ifs with hxt
      · subst hxt
        exact hsound.coherent x hx hfixed hcoh
      · exact hsound.value x hx
    · rw [setTemp_temps]
      split_ifs with hxt
      · subst hxt
        exact hsound.coherent x hx
      · exact hsound.coherent x hx
  · rw [setTemp_temps, if_neg hx]
    rfl

variable (V live) in
/-- Freeing a register stores the temporary in it, if there is one; no register changes. -/
theorem regFreeWith_steps (hT : T.Valid) (h : s.Wf T area) {load : Ctx → Nat → RegSet → RegSet → Option Ctx}
    {allocated : RegSet} (hs : regFreeWith T load s r allocated = some s') :
    Steps T V live area (· ∉ T.scratchRegs) area s s' ∧
      (∀ x, s'.regToTemp x = if x = r then none else s.regToTemp x) ∧
      ∀ x, (s.temps x).val ≠ .reg r → s'.temps x = s.temps x := by
  rw [regFreeWith] at hs
  cases hreg : s.regToTemp r with
  | none =>
    simp only [hreg, Option.some.injEq] at hs
    subst hs
    refine ⟨.refl h, fun x => ?_, fun _ _ => rfl⟩
    split_ifs with hx
    · rw [hx, hreg]
    · rfl
  | some t =>
    obtain ⟨hval, hfixed, -⟩ := h.reg_temp r t hreg
    simp only [hreg, tempSyncWith, hfixed, Bool.false_eq_true, if_false, map_eq_some_iff, reduceCtorEq] at hs
    obtain ⟨s1, hs1, rfl⟩ := hs
    -- The slot has the value, at once or after a store.
    have hsynced : Steps T V live area (· ∉ T.scratchRegs) area s s1 ∧
        s1.regToTemp = s.regToTemp ∧ (∀ x, x ≠ t → s1.temps x = s.temps x) ∧
        (s1.temps t).val = .reg r ∧ (s1.temps t).memCoherent = true ∧
        (s1.temps t).fixedReg = false := by
      cases hcoh : (s.temps t).memCoherent with
      | true =>
        simp only [hcoh, if_true, Option.some.injEq] at hs1
        subst hs1
        exact ⟨.refl h, rfl, fun _ _ => rfl, hval, hcoh, hfixed⟩
      | false =>
        simp only [hcoh, Bool.false_eq_true, if_false, bind_eq_some_iff, map_eq_some_iff] at hs1
        obtain ⟨s0, hs0, s2, hs2, rfl⟩ := hs1
        have hslot : Steps T V live area (· ∉ T.scratchRegs) area s s0 ∧
            s0.regToTemp = s.regToTemp ∧ (∀ x, x ≠ t → s0.temps x = s.temps x) ∧
            (s0.temps t).val = .reg r ∧ (s0.temps t).memAllocated = true ∧
            (s0.temps t).fixedReg = false := by
          split_ifs at hs0 with halloc
          · obtain rfl := Option.some.inj hs0
            exact ⟨.refl h, rfl, fun _ _ => rfl, hval, halloc, hfixed⟩
          · obtain ⟨hsteps, hregs, htemps, hval0, -, halloc0, hfixed0⟩ :=
              tempAllocateFrame_steps h hval hcoh hs0
            exact ⟨hsteps, hregs, htemps, hval0, halloc0, hfixed0.trans hfixed⟩
        obtain ⟨hsteps, hregs, htemps, hval0, halloc0, hfixed0⟩ := hslot
        simp only [tempStore, hval0, Option.some.injEq] at hs2
        subst hs2
        refine ⟨hsteps.trans (store_steps hT hsteps.wf hval0 hfixed0 halloc0), hregs,
          fun x hx => ?_, ?_, ?_, ?_⟩
        · rw [setTemp_temps, if_neg hx]
          exact htemps x hx
        · rw [setTemp_temps, if_pos rfl]
          exact hval0
        · rw [setTemp_temps, if_pos rfl]
        · rw [setTemp_temps, if_pos rfl]
          exact hfixed0
    obtain ⟨hsteps, hregs, htemps, hval1, hcoh1, hfixed1⟩ := hsynced
    obtain ⟨hfree, hfreed, hother⟩ := free_steps hsteps.wf hval1 hfixed1 hcoh1
    refine ⟨hsteps.trans hfree, fun x => ?_, fun x hx => ?_⟩
    · rw [hfreed, hregs]
    · have hxt : x ≠ t := by
        rintro rfl
        exact hx hval
      rw [hother x hxt, htemps x hxt]

variable (V live) in
/-- A register to load into: one of those asked for, with no temporary in it. -/
theorem regAllocWith_steps (hT : T.Valid) (h : s.Wf T area)
    {load : Ctx → Nat → RegSet → RegSet → Option Ctx} {desired allocated : RegSet} {rev : Bool}
    (hs : regAllocWith T load s desired allocated rev = some (r, s')) :
    Steps T V live area (· ∉ T.scratchRegs) area s s' ∧ r ∈ desired ∧ r ∉ allocated ∧
      s'.regToTemp r = none ∧ ∀ x, (∀ r, (s.temps x).val ≠ .reg r) → s'.temps x = s.temps x := by
  rw [regAllocWith] at hs
  split at hs
  · rename_i r' hfind
    simp only [Option.some.injEq, Prod.mk.injEq] at hs
    obtain ⟨rfl, rfl⟩ := hs
    have hprop := find?_some hfind
    simp only [decide_eq_true_eq, Finset.mem_sdiff] at hprop
    exact ⟨.refl h, hprop.1.1, hprop.1.2, hprop.2, fun _ _ => rfl⟩
  · split at hs
    · rename_i r' hfind
      simp only [map_eq_some_iff, Prod.mk.injEq] at hs
      obtain ⟨s1, hs1, rfl, rfl⟩ := hs
      have hprop := find?_some hfind
      simp only [decide_eq_true_eq, Finset.mem_sdiff] at hprop
      obtain ⟨hsteps, hregs, htemps⟩ := regFreeWith_steps V live hT h hs1
      exact ⟨hsteps, hprop.1, hprop.2, by rw [hregs, if_pos rfl], fun x hx => htemps x (hx _)⟩
    · cases hs

/-- The tables after a temporary has come to a free register. -/
theorem Wf.place (h : s.Wf T area) (hval : ∀ r, (s.temps t).val ≠ .reg r)
    (hfree : s.regToTemp r = none) (hr : r ∉ T.reservedRegs) (coherent : Bool) (ops : List HostOp) :
    Wf T area (({ s with code := ops }.setTemp t
      { s.temps t with memCoherent := coherent, val := .reg r }).setReg r (some t)) := by
  have hfixed : (s.temps t).fixedReg = false := by
    by_contra hne
    obtain ⟨r', hr', -⟩ := h.fixed t (by simpa using hne)
    exact hval r' hr'
  have htemps : ∀ x, (({ s with code := ops }.setTemp t
      { s.temps t with memCoherent := coherent, val := .reg r }).setReg r (some t)).temps x =
      if x = t then { s.temps t with memCoherent := coherent, val := .reg r } else s.temps x :=
    fun x => setTemp_temps ..
  refine h.of_slots (fun x => ?_) ⟨rfl, rfl, rfl⟩ (fun r' x hr' => ?_) (fun x r' hx hxf => ?_)
    (fun x hx => ?_)
  · rw [htemps]
    split_ifs with hx
    · rw [hx]
      exact ⟨rfl, rfl, rfl, rfl⟩
    · exact ⟨rfl, rfl, rfl, rfl⟩
  · rw [setReg_regToTemp] at hr'
    by_cases hrr : r' = r
    · rw [if_pos hrr, Option.some.injEq] at hr'
      rw [htemps, if_pos hr'.symm, hrr]
      exact ⟨rfl, hfixed, hr⟩
    · rw [if_neg hrr] at hr'
      have hold := h.reg_temp r' x hr'
      have hxt : x ≠ t := fun heq => hval r' (heq ▸ hold.1)
      rw [htemps, if_neg hxt]
      exact hold
  · rw [htemps] at hx hxf
    rw [setReg_regToTemp]
    by_cases hxt : x = t
    · rw [if_pos hxt] at hx
      rw [if_pos (TempVal.reg.inj hx).symm, hxt]
    · rw [if_neg hxt] at hx hxf
      have hold := h.temp_reg x r' hx hxf
      have hrr : r' ≠ r := by
        rintro rfl
        rw [hfree] at hold
        cases hold
      rw [if_neg hrr]
      exact hold
  · rw [htemps] at hx ⊢
    split_ifs at hx ⊢ with hxt
    · rw [show _ = (s.temps t).fixedReg from rfl, hfixed] at hx
      cases hx
    · rfl

/-- An instruction that puts the value of a temporary into a free register. -/
theorem place_steps (hT : T.Valid) (h : s.Wf T area) (op : HostOp) (coherent : Bool)
    (hval : ∀ r, (s.temps t).val ≠ .reg r) (hfree : s.regToTemp r = none) (hr : r ∉ T.reservedRegs)
    (hop : ∀ m m', s.Sound T V live m → op.Exec T m m' →
      (t ∈ live → Agree (s.temps t).type (m'.regs r) (V t)) ∧
        (∀ x, x ≠ r → x ∉ T.scratchRegs → m'.regs x = m.regs x) ∧ m'.mem = m.mem)
    (hcoh : coherent = true → ∀ m, s.Sound T V live m → t ∈ live → (s.temps t).Holds T m (V t)) :
    Steps T V live area (fun x => x ≠ r ∧ x ∉ T.scratchRegs) area s
      (((s.emit op).setTemp t
        { s.temps t with memCoherent := coherent, val := .reg r }).setReg r (some t)) := by
  have htemps : ∀ x, (((s.emit op).setTemp t
      { s.temps t with memCoherent := coherent, val := .reg r }).setReg r (some t)).temps x =
      if x = t then { s.temps t with memCoherent := coherent, val := .reg r } else s.temps x :=
    fun x => setTemp_temps ..
  refine ⟨fun x => ?_, rfl, h.place hval hfree hr coherent _, [op], rfl, fun m m' hsound hrun => ?_⟩
  · rw [htemps]
    split_ifs with hx
    · rw [hx]
    · rfl
  · obtain ⟨hvalue, hregs, hmem⟩ := hop m m' hsound (runs_singleton.mp hrun)
    refine ⟨⟨fun x hx => ?_, fun x hx => ?_⟩, fun x hx => hregs x hx.1 hx.2, fun b o _ => by rw [hmem]⟩
    · rw [htemps]
      split_ifs with hxt
      · subst hxt
        exact hvalue hx
      · refine (hsound.value x hx).congr (fun r' hr' => ?_) (fun _ b o _ => by rw [hmem])
        refine hregs r' ?_ (h.not_scratch hT hr')
        rintro rfl
        exact h.not_free hr hfree hr'
    · rw [htemps]
      split_ifs with hxt
      · subst hxt
        intro _ hc
        exact (hcoh hc m hsound hx).congr fun b o _ => by rw [hmem]
      · intro hfixed hc
        exact (hsound.coherent x hx hfixed hc).congr fun b o _ => by rw [hmem]

variable (V live) in
/-- Loading a temporary brings it to a register, one of those asked for unless it was in one, and
keeps the registers already taken. -/
theorem tempLoad_steps (hT : T.Valid) (h : s.Wf T area) {fuel t : Nat} {desired allocated : RegSet}
    (hres : T.reservedRegs ⊆ allocated) (hs : tempLoad T fuel s t desired allocated = some s') :
    Steps T V live area (fun x => x ∈ allocated ∧ x ∉ T.scratchRegs) area s s' ∧
      ∃ r, (s'.temps t).val = .reg r ∧ ((s.temps t).val = .reg r ∨ r ∈ desired) := by
  cases fuel with
  | zero => cases hs
  | succ fuel =>
    rw [tempLoad] at hs
    cases hval : (s.temps t).val with
    | dead => simp [hval] at hs
    | reg r =>
      simp only [hval, Option.some.injEq] at hs
      subst hs
      exact ⟨.refl h, r, hval, .inl rfl⟩
    | const val =>
      simp only [hval, map_eq_some_iff, Prod.exists] at hs
      obtain ⟨r, s1, hs1, rfl⟩ := hs
      obtain ⟨hsteps, hdes, hall, hfree, htemps⟩ := regAllocWith_steps V live hT h hs1
      have htemp : s1.temps t = s.temps t := htemps t (by simp [hval])
      have hout : ∀ r, (s1.temps t).val ≠ .reg r := by simp [htemp, hval]
      have hplace := place_steps hT hsteps.wf (.movi (s.temps t).type r val) false
        hout hfree (fun hr => hall (hres hr))
        (fun m m' (hsound : s1.Sound T V live m) hexec => by
          obtain ⟨hvalue, hregs, hmem⟩ := hexec
          refine ⟨fun ht => ?_, hregs, hmem⟩
          have hconst := hsound.value t ht
          rw [Temp.HasValue, htemp] at hconst
          simp only [hval] at hconst
          rw [htemp]
          exact hvalue.trans hconst)
        (by simp)
      refine ⟨(hsteps.mono (fun x hx => hx.2) fun _ _ ho => ho).trans
        (hplace.mono (fun x hx => ⟨fun heq => hall (heq ▸ hx.1), hx.2⟩) fun _ _ ho => ho),
        r, ?_, .inr hdes⟩
      simp [setReg]
    | mem =>
      simp only [hval, map_eq_some_iff, Prod.exists] at hs
      obtain ⟨r, s1, hs1, rfl⟩ := hs
      obtain ⟨hsteps, hdes, hall, hfree, htemps⟩ := regAllocWith_steps V live hT h hs1
      have htemp : s1.temps t = s.temps t := htemps t (by simp [hval])
      have hout : ∀ r, (s1.temps t).val ≠ .reg r := by simp [htemp, hval]
      have hholds : ∀ m, s1.Sound T V live m → t ∈ live → (s1.temps t).Holds T m (V t) := by
        intro m hsound ht
        have hmem := hsound.value t ht
        rw [Temp.HasValue, htemp] at hmem
        simp only [hval] at hmem
        rw [htemp]
        exact hmem
      have hplace := place_steps hT hsteps.wf
        (.ld (s.temps t).type r (s.temps t).memBase (s.temps t).memOffset) true
        hout hfree (fun hr => hall (hres hr))
        (fun m m' (hsound : s1.Sound T V live m) hexec => by
          obtain ⟨hvalue, hregs, hmem⟩ := hexec
          refine ⟨fun ht => ?_, hregs, hmem⟩
          have hslot := (hholds m hsound ht).2
          rw [htemp] at hslot ⊢
          exact hvalue.trans hslot)
        (fun _ => hholds)
      refine ⟨(hsteps.mono (fun x hx => hx.2) fun _ _ ho => ho).trans
        (hplace.mono (fun x hx => ⟨fun heq => hall (heq ▸ hx.1), hx.2⟩) fun _ _ ho => ho),
        r, ?_, .inr hdes⟩
      simp [setReg]

/-- Freeing a register stores a register, so it never comes to `temp_load`. -/
theorem regFreeWith_load (h : s.Wf T area) (load load' : Ctx → Nat → RegSet → RegSet → Option Ctx)
    (r : Reg) (allocated : RegSet) :
    regFreeWith T load s r allocated = regFreeWith T load' s r allocated := by
  rw [regFreeWith, regFreeWith]
  cases hreg : s.regToTemp r with
  | none => rfl
  | some t =>
    obtain ⟨hval, hfixed, -⟩ := h.reg_temp r t hreg
    have hstore : ∀ s1 : Ctx, (s1.temps t).val = .reg r →
        tempStore T load s1 t allocated .free = tempStore T load' s1 t allocated .free := by
      intro s1 hval1
      simp only [tempStore, hval1]
    simp only [tempSyncWith, hfixed, Bool.false_eq_true, reduceCtorEq, if_false]
    split_ifs with hcoh halloc
    · rfl
    · rw [bind_some, bind_some, hstore s hval]
    · cases hframe : tempAllocateFrame T s t with
      | none => rfl
      | some s1 =>
        have hval1 : (s1.temps t).val = .reg r :=
          (@tempAllocateFrame_steps T (fun _ => 0) ∅ area (fun _ => True) (fun _ _ => True) s s1
            h t r hval (by simpa using hcoh) hframe).2.2.2.1
        rw [bind_some, bind_some, hstore s1 hval1]

theorem tempLoad_fuel (h : s.Wf T area) (fuel t : Nat) (desired allocated : RegSet) :
    tempLoad T (fuel + 1) s t desired allocated = tempLoad T 1 s t desired allocated := by
  have halloc : ∀ rev, regAllocWith T (tempLoad T fuel) s desired allocated rev =
      regAllocWith T (tempLoad T 0) s desired allocated rev := by
    intro rev
    simp only [regAllocWith, regFreeWith_load h (tempLoad T fuel) (tempLoad T 0)]
  rw [tempLoad, tempLoad]
  simp only [halloc]

end Ctx

end TcgArm.RegAlloc
