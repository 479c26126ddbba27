import TcgArm.ThumbItRight

/-! Whole blocks of Thumb code, and runs through one block after the other, wherever the translator
cuts them: the architecture gets to the same state with the same IT bits. -/

namespace TcgArm.Thumb

open List

open TcgArm (ItState)

section Block

variable {σ : Type} {g : Guest σ} {cfg : Config}

/-- What holds between two instructions of a block. The bits in the state are cleared until they are
written back for a helper. -/
structure Inv (dc : Dc) (arch cpu : Cpu σ) (dirty : Bool) : Prop where
  pc : dc.pc = arch.pc
  it : dc.it = ItState.start arch.bits
  valid : ValidIt arch.bits
  state : cpu.s = arch.s
  isJmp : dc.isJmp = .next
  clear : dirty = false → cpu.bits = 0
  block : dirty = true → inItBlock arch.bits

variable {arch cpu : Cpu σ} {dc : Dc} {dirty : Bool}

section

variable (h : Inv dc arch cpu dirty)
include h

theorem Inv.clear_outside (hout : ¬ inItBlock arch.bits) : cpu.bits = 0 := by
  cases dirty with
  | false => exact h.clear rfl
  | true => exact absurd (h.block rfl) hout

theorem Inv.mask : dc.it.mask ≠ 0 ↔ inItBlock arch.bits := by
  rw [h.it, start_mask h.valid.byte]

theorem Inv.block_after (hfine : Fine g cfg dc arch.s)
    (hin : inItBlock arch.bits) (dc' : Dc) (hpc : dc'.pc = dc.pc) (hit : dc'.it = dc.it)
    (hmask : (disasThumbInsn g cfg dc').2.it.mask ≠ 0) :
    inItBlock (itAdvance arch.bits) := by
  have hinner := (hfine.inner (h.mask.mpr hin)).1
  rw [disasThumbInsn_eq] at hmask
  dsimp only at hmask
  rw [hpc, afterInsn_it hinner, testedDc_it, hit, h.it, start_advance h.valid] at hmask
  exact (start_mask (validIt_advance h.valid).byte).mp hmask

/-- The three ways a translated instruction can turn out: the block is left in it, the block ends
behind it, or the block goes on. -/
def Turns (g : Guest σ) (cfg : Config) (dc : Dc) (arch cpu : Cpu σ) (dirty : Bool) (d : Word) : Prop :=
  (∀ rest, ∃ o, run g none ((translateInsn g cfg dc).1 ++ rest) d cpu = some o ∧ Reaches g arch o) ∨
  ((translateInsn g cfg dc).2.2 = false ∧ (translateInsn g cfg dc).2.1.isJmp ≠ .next ∧
    ∃ o, run g none ((translateInsn g cfg dc).1 ++ blockEnd cfg (translateInsn g cfg dc).2.1) d cpu =
      some o ∧ Reaches g arch o) ∨
  ((translateInsn g cfg dc).2.2 = false ∧
    ∀ rest, (∃ o, run g none ((translateInsn g cfg dc).1 ++ rest) d cpu = some o ∧ Reaches g arch o) ∨
      ∃ arch' cpu', archStep g arch = .next arch' ∧
        run g none ((translateInsn g cfg dc).1 ++ rest) d cpu = run g none rest arch.bits cpu' ∧
        Inv (translateInsn g cfg dc).2.1 arch' cpu' (dirty || syncs g cfg dc))

theorem turns_marked (d : Word) (hmask : dc.it.mask = 0)
    (hops : (translateInsn g cfg dc).1 = [.insnStart dc.pc dc.it.packed, .stop]) :
    Turns g cfg dc arch cpu dirty d := by
  have hout : ¬ inItBlock arch.bits := fun hin => h.mask.mpr hin hmask
  have hbits : cpu.bits = arch.bits := by
    rw [h.clear_outside hout, h.valid.mask (not_not.mp hout)]
  refine .inl fun rest => ⟨.stopped arch.bits arch.s, ?_, .stop arch⟩
  rw [hops, ← hbits, ← h.state]
  rfl

theorem run_synced (d : Word) (rest : List Op) :
    run g none (.insnStart dc.pc dc.it.packed :: (genSetCondexec dc.it ++ .setPc dc.pc :: rest)) d cpu =
      run g none rest arch.bits arch := by
  rw [run, h.it, start_packed h.valid.byte, run_settled cpu h.valid h.clear_outside, run, h.state, h.pc]

theorem turns_breakpoint (d : Word) {tail : List Op} (hops : (translateInsn g cfg dc).1 =
      .insnStart dc.pc dc.it.packed :: (genSetCondexec dc.it ++ .setPc dc.pc :: tail))
    (htail : tail = [.stop] ∨ tail = [.checkBreakpoint dc.pc, .stop]) :
    Turns g cfg dc arch cpu dirty d := by
  refine .inl fun rest => ⟨.stopped arch.bits arch.s, ?_, .stop arch⟩
  rw [hops, cons_append, append_assoc, cons_append, run_synced h]
  rcases htail with rfl | rfl
  · rfl
  · simp only [cons_append, nil_append, run, ite_self]

end

theorem disas_isJmp_ne_next (g : Guest σ) (cfg : Config) (dc : Dc) (h : dc.isJmp ≠ .next) :
    (disasThumbInsn g cfg dc).2.isJmp ≠ .next := by
  rw [disasThumbInsn_eq]
  have hjmp := testedDc_isJmp g dc
  cases hkind : g.kind dc.pc <;> simp only [afterInsn, genInsn, hkind, genJmp] <;> (try split) <;> simp_all

section

variable (h : Inv dc arch cpu dirty) (d : Word) (hfine : Fine g cfg dc arch.s)
    (hsync : dirty || syncs g cfg dc → (translateInsn g cfg dc).2.1.it.mask ≠ 0)
include h d hfine hsync

/-- A block with a breakpoint of the processor ends behind the instruction. -/
theorem turns_checked (hpage : cfg.kernelPage dc.pc = false)
    (hbreak : cfg.breakpoint dc.pc = some true) (hstep : ¬ (cfg.ssActive ∧ !cfg.pstateSs)) :
    Turns g cfg dc arch cpu dirty d := by
  have hoff : ¬ cfg.kernelPage dc.pc = true := by simp [hpage]
  have hends := disas_isJmp_ne_next g cfg { dc with isJmp := .update } (by simp)
  have htrans : translateInsn g cfg dc = (.insnStart dc.pc dc.it.packed :: (genSetCondexec dc.it ++
      .setPc dc.pc :: .checkBreakpoint dc.pc :: (disasThumbInsn g cfg { dc with isJmp := .update }).1),
      (disasThumbInsn g cfg { dc with isJmp := .update }).2, false) := by
    rw [translateInsn, if_neg hoff, hbreak]
    dsimp only
    rw [if_neg hstep, placeLabel_ends hends]
    simp only [cons_append, append_assoc, nil_append, append_nil]
  rw [htrans] at hsync
  have hafter : inItBlock arch.bits → inItBlock (itAdvance arch.bits) := by
    intro hin
    have hsyncs : syncs g cfg dc = true := by
      rw [syncs, hbreak, decide_eq_true (h.mask.mpr hin)]
      simp
    exact h.block_after hfine hin { dc with isJmp := .update } rfl rfl (hsync (by simp [hsyncs]))
  have hzero : ¬ inItBlock arch.bits → arch.bits = 0 := fun hout => h.valid.mask (not_not.mp hout)
  refine .inr (.inl ⟨by rw [htrans], by rw [htrans]; exact hends, ?_⟩)
  simp only [htrans, cons_append, append_assoc]
  rw [run_synced h]
  by_cases hbreaks : g.breaks dc.pc arch.s = true
  · refine ⟨.stopped arch.bits arch.s, ?_, .stop arch⟩
    rw [run, if_pos hbreaks]
  · rw [run, if_neg hbreaks]
    exact @disas_ends σ g cfg arch arch { dc with isJmp := .update } h.pc h.it h.valid rfl (.inr rfl)
      (hfine.congr rfl rfl) hzero (fun hout => hzero fun hin => hout (hafter hin)) fun _ _ => hafter

/-- An ordinary instruction. -/
theorem turns_plain (htrans : translateInsn g cfg dc = (.insnStart dc.pc dc.it.packed ::
      (disasThumbInsn g cfg dc).1 ++ (placeLabel (disasThumbInsn g cfg dc).2).1,
      (placeLabel (disasThumbInsn g cfg dc).2).2, false)) : Turns g cfg dc arch cpu dirty d := by
  rw [htrans] at hsync
  dsimp only at hsync
  rw [placeLabel_it] at hsync
  have hstart : ∀ rest, run g none (.insnStart dc.pc dc.it.packed :: rest) d cpu =
      run g none rest arch.bits cpu := by
    intro rest
    rw [run, h.it, start_packed h.valid.byte]
  have hafter : inItBlock arch.bits → (dirty || syncs g cfg dc) = true →
      inItBlock (itAdvance arch.bits) := fun hin hdirty =>
    h.block_after hfine hin dc rfl rfl (hsync hdirty)
  have hsynced : ∀ ends, g.kind arch.pc = .synced ends → inItBlock arch.bits → syncs g cfg dc = true := by
    intro ends hkind hin
    rw [syncs, decide_eq_true (h.mask.mpr hin), h.pc, hkind]
    rfl
  by_cases hnext : (disasThumbInsn g cfg dc).2.isJmp = .next
  · refine .inr (.inr ⟨by rw [htrans], fun rest => ?_⟩)
    simp only [htrans, cons_append, hstart]
    rcases disas_goesOn h.pc h.it h.valid h.state hfine h.clear_outside hnext rest with
      hdone | ⟨arch', cpu', hstep, hrun, hpc, hit, hvalid, hs, hbits⟩
    · exact .inl hdone
    · refine .inr ⟨arch', cpu', hstep, hrun, hpc, hit, hvalid, hs, ?_, ?_, ?_⟩
      · rw [placeLabel_isJmp, hnext]
      · intro hclean
        rw [Bool.or_eq_false_iff] at hclean
        rcases hbits with hbits | ⟨hin, ends, hkind⟩
        · rw [hbits, h.clear hclean.1]
        · rw [hsynced ends hkind hin] at hclean
          exact absurd hclean.2 (by decide)
      · intro hdirty
        have hmask := hsync hdirty
        rw [← placeLabel_it, hit] at hmask
        exact (start_mask hvalid.byte).mp hmask
  · refine .inr (.inl ⟨by rw [htrans], by rw [htrans, placeLabel_isJmp]; exact hnext, ?_⟩)
    simp only [htrans, cons_append, hstart]
    rw [placeLabel_ends hnext, append_nil]
    refine disas_ends h.pc h.it h.valid h.state (.inl h.isJmp) hfine h.clear_outside ?_ ?_
    · intro hout
      cases hdirty : dirty with
      | false => exact h.clear hdirty
      | true =>
        exact absurd (hafter (h.block hdirty) (by rw [hdirty, Bool.true_or])) hout
    · intro ends hkind hin
      exact hafter hin (by rw [hsynced ends hkind hin, Bool.or_true])

/-- Every instruction of a block turns out in one of the three ways. -/
theorem insn_turns : Turns g cfg dc arch cpu dirty d := by
  by_cases hpage : cfg.kernelPage dc.pc = true
  · refine turns_marked h d (hfine.marked (.inl hpage)) ?_
    rw [translateInsn, if_pos hpage]
  · cases hbreak : cfg.breakpoint dc.pc with
    | none =>
      by_cases hss : cfg.ssActive ∧ !cfg.pstateSs
      · refine turns_marked h d (hfine.marked (.inr ⟨hss.1, by simpa using hss.2, hbreak⟩)) ?_
        rw [translateInsn, if_neg hpage, hbreak]
        dsimp only
        rw [if_pos hss]
      · refine turns_plain h d hfine hsync ?_
        rw [translateInsn, if_neg hpage, hbreak]
        dsimp only
        rw [if_neg hss]
    | some fromCpu =>
      cases fromCpu with
      | false =>
        refine turns_breakpoint h d ?_ (.inl rfl)
        rw [translateInsn, if_neg hpage, hbreak]
        rfl
      | true =>
        by_cases hss : cfg.ssActive ∧ !cfg.pstateSs
        · refine turns_breakpoint h d ?_ (.inr rfl)
          rw [translateInsn, if_neg hpage, hbreak]
          dsimp only
          rw [if_pos hss]
          rfl
        · exact turns_checked h d hfine hsync (by simpa using hpage) hbreak hss

end

def finish (cfg : Config) (r : List Op × Dc × Bool) : List Op :=
  if r.2.2 then r.1 else r.1 ++ blockEnd cfg r.2.1

theorem run_blockEnd (h : Inv dc arch cpu dirty) (d : Word) :
    run g none (blockEnd cfg dc) d cpu = some (.next arch) := by
  rw [blockEnd, run_exit_update dc cpu h.it h.valid h.clear_outside _ _ (.inl h.isJmp), h.pc, h.state]

theorem insn_finish {d : Word} (h : Turns g cfg dc arch cpu dirty d) :
    ∃ o, run g none (finish cfg (translateInsn g cfg dc)) d cpu = some o ∧ Reaches g arch o := by
  rw [finish]
  rcases h with hleft | ⟨hopen, -, hends⟩ | ⟨hopen, hgo⟩
  · split
    · simpa only [append_nil] using hleft []
    · exact hleft _
  · rw [hopen, if_neg (by decide)]
    exact hends
  · rw [hopen, if_neg (by decide)]
    rcases hgo (blockEnd cfg (translateInsn g cfg dc).2.1) with hdone | ⟨arch', cpu', hstep, hrun, hinv⟩
    · exact hdone
    · exact ⟨.next arch', hrun.trans (run_blockEnd hinv _), .step hstep (.here arch')⟩

theorem finish_more {n : Nat} (hopen : (translateInsn g cfg dc).2.2 = false)
    (hmore : continues cfg (translateInsn g cfg dc).2.1) :
    finish cfg (translateLoop g cfg (n + 1) dc) =
      (translateInsn g cfg dc).1 ++ finish cfg (translateLoop g cfg n (translateInsn g cfg dc).2.1) := by
  rcases htrans : translateInsn g cfg dc with ⟨ops, dc', finished⟩
  rw [htrans] at hopen hmore
  dsimp only at hopen hmore ⊢
  rw [translateLoop, htrans, hopen]
  dsimp only
  rw [if_pos hmore, finish, finish]
  dsimp only
  split <;> simp only [append_assoc]

theorem translateLoop_last {n : Nat}
    (h : ¬ ((translateInsn g cfg dc).2.2 = false ∧ continues cfg (translateInsn g cfg dc).2.1)) :
    translateLoop g cfg (n + 1) dc = translateInsn g cfg dc := by
  rcases htrans : translateInsn g cfg dc with ⟨ops, dc', finished⟩
  rw [htrans] at h
  rw [translateLoop, htrans]
  cases finished with
  | true => rfl
  | false => exact if_neg fun hmore => h ⟨rfl, hmore⟩

/-- The rest of a block, from an instruction on. -/
theorem loop_reaches (n : Nat) (h : Inv dc arch cpu dirty) (hclean : Clean g cfg n dc dirty arch)
    (d : Word) :
    ∃ o, run g none (finish cfg (translateLoop g cfg n dc)) d cpu = some o ∧ Reaches g arch o := by
  induction n generalizing dc arch cpu dirty d with
  | zero =>
    rw [Clean] at hclean
    exact insn_finish (insn_turns h d hclean.1 hclean.2.1)
  | succ n ih =>
    rw [Clean] at hclean
    obtain ⟨hfine, hsync, hrest⟩ := hclean
    have hturns := insn_turns h d hfine hsync
    by_cases hmore : (translateInsn g cfg dc).2.2 = false ∧ continues cfg (translateInsn g cfg dc).2.1
    · rw [finish_more hmore.1 hmore.2]
      rcases hturns with hleft | ⟨-, hends, -⟩ | ⟨-, hgo⟩
      · exact hleft _
      · have hnext : (translateInsn g cfg dc).2.1.isJmp = .next := by
          have hmore' := hmore.2
          simp only [continues, Bool.and_eq_true, beq_iff_eq] at hmore'
          exact hmore'.1.1
        exact absurd hnext hends
      · rcases hgo (finish cfg (translateLoop g cfg n (translateInsn g cfg dc).2.1)) with
          hdone | ⟨arch', cpu', hstep, hrun, hinv⟩
        · exact hdone
        · obtain ⟨o, ho, hreach⟩ := ih hinv (hrest hmore.1 hmore.2 arch' hstep) arch.bits
          exact ⟨o, hrun.trans ho, .step hstep hreach⟩
    · rw [translateLoop_last hmore]
      exact insn_finish hturns

theorem genIntermediateCode_eq (max : Nat) (pc bits : Word) : genIntermediateCode g cfg max pc bits =
    (if (startDc pc bits).it.mask ≠ 0 ∨ (startDc pc bits).it.cond ≠ 0 then [Op.storeCondexec 0] else []) ++
      finish cfg (translateLoop g cfg max (startDc pc bits)) := by
  rw [genIntermediateCode, finish]
  rcases translateLoop g cfg max (startDc pc bits) with ⟨ops, dc, finished⟩
  cases finished with
  | true => rfl
  | false => exact append_assoc _ _ _

/-- A whole block, entered with the IT bits that it was translated for. -/
theorem block_reaches {max : Nat} {cpu : Cpu σ} (hvalid : ValidIt cpu.bits)
    (hclean : Clean g cfg max (startDc cpu.pc cpu.bits) false cpu) :
    ∃ o, run g none (genIntermediateCode g cfg max cpu.pc cpu.bits) cpu.bits cpu = some o ∧
      Reaches g cpu o := by
  have hinv : Inv (startDc cpu.pc cpu.bits) cpu { cpu with bits := 0 } false :=
    ⟨rfl, rfl, hvalid, rfl, rfl, fun _ => rfl, fun h => absurd h (by decide)⟩
  obtain ⟨o, hrun, hreach⟩ := loop_reaches max hinv hclean cpu.bits
  refine ⟨o, ?_, hreach⟩
  rw [← hrun, genIntermediateCode_eq]
  split
  · rfl
  · rename_i hzero
    rw [not_or, not_not, not_not] at hzero
    have hmask : (ItState.start cpu.bits).mask = 0 := hzero.1
    have hcond : (ItState.start cpu.bits).cond = 0 := hzero.2
    have hbits : cpu.bits = 0 := by
      rw [← start_packed hvalid.byte, ItState.packed, hmask, hcond]
      rfl
    rw [nil_append]
    exact congrArg (fun bits => run g none _ cpu.bits ⟨cpu.pc, bits, cpu.s⟩) hbits

end Block

section Runs

variable {σ : Type} (g : Guest σ)

/-- Run one block after the other, each with its own configuration and limit, from the state that the
last one has left. An exception ends the run. -/
def runBlocks : List (Config × Nat) → Cpu σ → Option (Outcome σ)
  | [], cpu => some (.next cpu)
  | (cfg, max) :: blocks, cpu =>
    match run g none (genIntermediateCode g cfg max cpu.pc cpu.bits) cpu.bits cpu with
    | some (.next cpu') => runBlocks blocks cpu'
    | o => o

/-- Every block of the run is clean, and entered with IT bits that are not reserved. -/
def CleanRun : List (Config × Nat) → Cpu σ → Prop
  | [], _ => True
  | (cfg, max) :: blocks, cpu =>
    ValidIt cpu.bits ∧ Clean g cfg max (startDc cpu.pc cpu.bits) false cpu ∧
      ∀ cpu', run g none (genIntermediateCode g cfg max cpu.pc cpu.bits) cpu.bits cpu =
        some (.next cpu') → CleanRun blocks cpu'

variable {g}

theorem Reaches.trans {cpu cpu' : Cpu σ} {m o : Outcome σ} (h : Reaches g cpu m) (hm : m = .next cpu')
    (hrest : Reaches g cpu' o) : Reaches g cpu o := by
  induction h with
  | here cpu =>
    cases hm
    exact hrest
  | stop | raise => cases hm
  | step hstep _ ih => exact .step hstep (ih hm)

/-- Wherever the code is cut into blocks, a clean run ends in a state of the architecture, IT bits
included, or with an exception that finds the IT bits of the architecture. -/
theorem it_bits_architectural (blocks : List (Config × Nat)) (cpu : Cpu σ)
    (hclean : CleanRun g blocks cpu) : ∃ o, runBlocks g blocks cpu = some o ∧ Reaches g cpu o := by
  induction blocks generalizing cpu with
  | nil => exact ⟨.next cpu, rfl, .here cpu⟩
  | cons block blocks ih =>
    obtain ⟨cfg, max⟩ := block
    obtain ⟨hvalid, hblock, hrest⟩ := hclean
    obtain ⟨o, hrun, hreach⟩ := block_reaches hvalid hblock
    rw [runBlocks, hrun]
    cases o with
    | next cpu' =>
      obtain ⟨o', hrun', hreach'⟩ := ih cpu' (hrest cpu' hrun)
      exact ⟨o', hrun', hreach.trans rfl hreach'⟩
    | exception | stopped => exact ⟨_, rfl, hreach⟩

end Runs

/-- `it eq` with one instruction in its block, which may be a coprocessor read with an access check,
and the zero flag set. -/
def guarded (checked : Bool) : Guest Nat where
  kind pc := if pc = 0 then .ifThen 0xbf08 else if pc = 2 ∧ checked then .synced false else .plain
  ifThen_mask pc insn hkind := by
    split at hkind
    · cases hkind
      decide
    · split at hkind <;> cases hkind
  length pc := if pc = 2 ∧ checked then 4 else 2
  flags _ := ⟨0, 0, false, 0⟩
  work _ s := .ok (s + 1)
  dest pc _ := pc
  savedBits _ _ := 0
  taken _ _ := false
  refused _ _ := false
  breaks _ _ := false

def quietConfig : Config := ⟨false, false, false, fun _ => none, fun _ => false, fun _ => false⟩

theorem fine_guarded {dc : Dc} {s : Nat} (hcond : dc.it.cond ≠ 0xf)
    (hstart : dc.pc = 0 → dc.it.mask = 0) : Fine (guarded false) quietConfig dc s := by
  have hkind : (guarded false).kind dc.pc = .plain ∨ dc.it.mask = 0 ∧
      (guarded false).kind dc.pc = .ifThen 0xbf08 := by
    by_cases hpc : dc.pc = 0
    · exact .inr ⟨hstart hpc, by simp only [guarded, hpc, if_pos]⟩
    · refine .inl ?_
      simp only [guarded, if_neg hpc]
      exact if_neg fun h => absurd h.2 (by decide)
  refine ⟨fun _ => hcond, fun hmask => ?_, fun _ h => ?_, fun _ h => ?_, fun h => ?_, fun h => ?_⟩
  · rcases hkind with h | h <;> simp_all
  · rcases hkind with hk | hk <;> simp [hk] at h
  · rcases hkind with hk | hk <;> simp [hk] at h
  · simp [quietConfig, Config.stepping] at h
  · simp [quietConfig] at h

/-- The block is cut behind `it`, and once more behind the instruction that it guards. -/
theorem it_bits_architectural_guarded :
    CleanRun (guarded false) [(quietConfig, 0), (quietConfig, 1)] ⟨0, 0, 0⟩ ∧
      ∃ o, runBlocks (guarded false) [(quietConfig, 0), (quietConfig, 1)] ⟨0, 0, 0⟩ = some o ∧
        Reaches (guarded false) ⟨0, 0, 0⟩ o := by
  have hclean : CleanRun (guarded false) [(quietConfig, 0), (quietConfig, 1)] ⟨0, 0, 0⟩ := by
    refine ⟨by decide, ⟨fine_guarded (by decide) (by decide), by decide, trivial⟩, ?_⟩
    intro cpu' hrun
    cases hrun
    refine ⟨by decide, ⟨fine_guarded (by decide) (by decide), by decide, fun _ _ _ _ =>
      ⟨fine_guarded (by decide) (by decide), by decide, trivial⟩⟩, ?_⟩
    intro cpu' hrun
    trivial
  exact ⟨hclean, it_bits_architectural _ _ hclean⟩

theorem itAdvance_last {bits : Word} (h : bits &&& 7 = 0) : itAdvance bits = 0 := if_pos h

variable {cpu cpu' : Cpu Nat}

/-- In the architecture only the guarded instruction is in an IT block. -/
theorem guarded_step (h : cpu.bits = 0 ∨ cpu.pc = 2 ∧ cpu.bits = 8)
    (hstep : archStep (guarded true) cpu = .next cpu') :
    cpu'.bits = 0 ∨ cpu'.pc = 2 ∧ cpu'.bits = 8 := by
  obtain ⟨pc, bits, s⟩ := cpu
  rcases h with hbits | ⟨hpc, hbits⟩ <;> dsimp only at hbits <;> subst hbits
  · have hpass : conditionPassed (guarded true) 0 s = true := rfl
    rw [archStep, if_pos hpass] at hstep
    by_cases hzero : pc = 0
    · subst hzero
      cases hstep
      exact .inr ⟨rfl, rfl⟩
    · by_cases htwo : pc = 2
      · subst htwo
        cases hstep
        exact .inl (itAdvance_last (by dsimp only; decide))
      · have hkind : (guarded true).kind pc = .plain := by
          simp only [guarded, if_neg hzero]
          exact if_neg fun h => htwo h.1
        simp only [archExec, hkind] at hstep
        cases hstep
        exact .inl (itAdvance_last (by dsimp only; decide))
  · dsimp only at hpc
    subst hpc
    have hpass : conditionPassed (guarded true) 8 s = true := by
      rw [conditionPassed, if_pos (by decide)]
      exact (by decide : conditionHolds (8 >>> 4) ⟨0, 0, false, 0⟩ = true)
    rw [archStep, if_pos hpass] at hstep
    cases hstep
    exact .inl (itAdvance_last (by dsimp only; decide))

theorem guarded_reaches {o : Outcome Nat} (hreach : Reaches (guarded true) cpu o)
    (h : cpu.bits = 0 ∨ cpu.pc = 2 ∧ cpu.bits = 8) (ho : o = .next cpu') :
    cpu'.bits = 0 ∨ cpu'.pc = 2 ∧ cpu'.bits = 8 := by
  induction hreach with
  | here cpu =>
    cases ho
    exact h
  | stop | raise => cases ho
  | step hstep _ ih => exact ih (guarded_step h hstep) ho

/-- The access check of the guarded instruction has written the IT bits back, and nothing clears them
when the IT block is over. -/
theorem it_bits_left_behind :
    runBlocks (guarded true) [(quietConfig, 2)] ⟨0, 0, 0⟩ = some (.next ⟨8, 8, 2⟩) ∧
      ¬ Reaches (guarded true) ⟨0, 0, 0⟩ (.next ⟨8, 8, 2⟩) := by
  refine ⟨rfl, fun hreach => ?_⟩
  have hbits := guarded_reaches hreach (.inl rfl) rfl
  exact absurd hbits (by decide)

end TcgArm.Thumb
