import TcgArm.IndirectRun

/-! `liveness_pass_2` as a whole. Every run of a list, on globals in their homes, is followed by a
run of the list it makes: the same values, calls and exits, and the same memory wherever an op may
look at the homes. No list may discard a global in host memory: the pass takes `discard` for a
write, and the next read behind a helper call finds a temporary never loaded. -/

namespace TcgArm.Tcg

open ByteMemory Transition List Option DirTemps

variable {n : Nat} {R : Type} {ctx : Ctx n} {ind : Indirect ctx} {dirs : DirTemps ind}

section Step

variable {host : HostEnv n R} {s s' : State n (Mem 64 × R)} {l : LiveOp n} {marks st : Marks n}

variable {ts : List (Fin n)} {ms : List Mark} {big : Bool} {ops : List (Op n)} {g : Fin n}

theorem exists_of_mapM {f : Fin n → Option Word} {xs : List Word} (h : ts.mapM f = some xs) :
    ∀ t ∈ ts, ∃ v, f t = some v := by
  induction ts generalizing xs with
  | nil => simp
  | cons t ts ih =>
    simp only [mapM_cons, Option.bind_eq_bind, Option.pure_def, Option.bind_eq_some_iff,
      Option.some.injEq] at h
    obtain ⟨x, hx, ys, hys, -⟩ := h
    intro u hu
    rcases mem_cons.mp hu with rfl | hu
    · exact ⟨x, hx⟩
    · exact ih hys u hu

/-- Straight-line code within a list. -/
theorem runN_of_run {prog code rest : List (Op n)} {s1 : State n (Mem 64 × R)}
    (h : SeqCode.run (ind.fall host) code s = some s1) :
    runN (ind.step host prog) code.length (.run (code ++ rest) s) = some (.run rest s1) := by
  induction code generalizing s with
  | nil =>
    cases h
    rfl
  | cons op code ih =>
    rw [SeqCode.run_cons] at h
    obtain ⟨s2, hfall, hrest⟩ := Option.bind_eq_some_iff.mp h
    have hexec : ind.exec host op s = some (.fall s2) := by
      simp only [Indirect.fall] at hfall
      split at hfall
      · cases hfall
        assumption
      · cases hfall
    simp only [length_cons, cons_append, runN, Indirect.step, hexec, bind_some, Next.resume]
    exact ih hrest

/-- The states between the loads of an op and the op. -/
theorem DirTemps.Agree.loads (hfit : ind.Fits (marksBefore ctx l.op marks) st)
    (h : dirs.Agree host.big (ind.Cached st) (ind.Stale (marksBefore ctx l.op marks) st) s s')
    (hapart : ind.Apart s.val) (hval : ∀ g ∈ l.op.ins, ∃ v, ind.value host.big s g = some v) :
    SeqCode.Ends (ind.fall host) (dirs.loadIns l.op.ins st).1
      (dirs.Agree host.big (ind.Cached (dirs.loaded l st))
        (ind.Stale (marksBefore ctx l.op marks) st) s) s' := by
  refine (h.loadIns hapart (fun g hg hne => ⟨hg, ?_⟩) ?_ hval).mono
    fun s1 hs1 => hs1.mono (fun g hg hgc => ⟨hg, fun hdead => ?_⟩) fun _ _ hg => hg
  · by_contra hdead
    exact hne (hfit.dead hg (by simpa using hdead))
  · intro g hg hdead
    exact Indirect.not_stale_of_mem_ins hg (by rw [hdead]; rfl)
  · have hlive := hgc.2
    rw [loaded, hdead] at hlive
    cases hlive

section

variable (hlife : l.life = lifeOf ctx l.op marks)
include hlife

theorem cached_of_dropped
    (h : ind.Cached (dirs.dropped l st) g) : ind.Cached (dirs.loaded l st) g := by
  obtain ⟨hg, hlive⟩ := h
  rw [dropped_apply hlife] at hlive
  split at hlive
  · cases hlive
  · exact ⟨hg, hlive⟩

theorem cached_of_marksAfter (hnodup : l.op.outs.Nodup)
    (hdis : ¬ ind.Discards l.op) (h : ind.Cached (dirs.marksAfter l st) g) :
    ind.Cached (dirs.dropped l st) g ∨ g ∈ l.op.outs := by
  obtain ⟨hg, hlive⟩ := h
  rw [marksAfter_apply hlife hnodup hdis] at hlive
  split at hlive
  · rename_i hout
    exact .inr hout.1
  · exact .inl ⟨hg, hlive⟩

/-- The states behind the stores of an op. -/
theorem DirTemps.Agree.stores (hfine : dirs.Fine l.op)
    (h : dirs.Agree host.big (fun g => ind.Cached (dirs.dropped l st) g ∨ g ∈ l.op.outs)
      (fun g => ind.Stale (marksAt ctx l.op marks) (dirs.dropped l st) g ∨ g ∈ l.op.outs) s s')
    (hhomes : ∀ t ∈ l.op.outs, (ind.base t).isSome → ∃ a, ind.home s.val t = some a) :
    SeqCode.Ends (ind.fall host)
      (dirs.storeOuts l.op.outs l.life.outs (dirs.dropped l st)).1
      (dirs.Agree host.big (ind.Cached (dirs.marksAfter l st))
        (ind.Stale marks (dirs.marksAfter l st)) s) s' := by
  have hnodup := hfine.shaped.distinct
  have hdis := hfine.respects.discard
  refine (h.storeOuts fun g hg hbase =>
    ⟨.inr hg, (Indirect.exists_value hbase).mpr (hhomes g hg hbase)⟩).mono
    fun s1 hs1 => hs1.mono (fun g _ hgc => cached_of_marksAfter hlife hnodup hdis hgc) fun g hbase hg => ?_
  apply Indirect.Stale.marksAfter hlife hnodup hdis
  by_cases hout : g ∈ l.op.outs
  · refine .inr ⟨hout, hbase, ?_⟩
    have hop : l.op.isDiscard = false := by
      by_contra hop
      exact hdis ⟨by simpa using hop, g, hout, hbase⟩
    have hzip : (g, marks g) ∈ l.op.outs.zip l.life.outs := by
      have houts : l.life.outs = l.op.outs.map marks := by
        rw [hlife, ← outMarks_eq hnodup]
        simp [lifeOf, hop]
      have hpairs : l.op.outs.zip (l.op.outs.map marks) = l.op.outs.map fun t => (t, marks t) := by
        simpa using zip_map' (f := id) (g := marks) (l := l.op.outs)
      rw [houts, hpairs]
      exact mem_map_of_mem hout
    exact hg.2 hbase _ hzip
  · exact .inl ⟨hout, hg.1.resolve_right hout⟩

end

/-- Where the run stands behind an op, and the list it was made from. -/
structure DirTemps.Stands (dirs : DirTemps ind) (big : Bool) (live : List (LiveOp n))
    (marks st : Marks n) (s s' : State n (Mem 64 × R)) : Prop where
  annotated : Annotated ctx marks live
  fits : ind.Fits marks st
  fine : ∀ l ∈ live, dirs.Fine l.op
  agree : dirs.Agree big (ind.Cached st) (ind.Stale marks st) s s'

/-- A configuration of the list before the pass and one of the list it makes. -/
inductive DirTemps.Sim (dirs : DirTemps ind) (big : Bool) :
    Cfg n (Mem 64 × R) → Cfg n (Mem 64 × R) → Prop
  | run {live : List (LiveOp n)} {marks st : Marks n} {s s' : State n (Mem 64 × R)}
      (h : dirs.Stands big live marks st s s') :
      Sim dirs big (.run (live.map LiveOp.op) s) (.run (dirs.lowerAll st live) s')
  | done (e) {s s' : State n (Mem 64 × R)}
      (h : dirs.Agree big (fun _ => False) (fun _ => False) s s') :
      Sim dirs big (.done e s) (.done e s')

def Indirect.Safe (ind : Indirect ctx) (big : Bool) : Cfg n (Mem 64 × R) → Prop
  | .run (op :: _) s => ind.Apart s.val ∧ ind.Outside big op s
  | .run [] s | .done _ s => ind.Apart s.val

theorem Indirect.Safe.apart (h : ind.Safe big (.run ops s)) :
    ind.Apart s.val := by
  cases ops with
  | nil => exact h
  | cons op ops => exact h.1

theorem DirTemps.label_loadIns :
    ∀ op ∈ (dirs.loadIns ts st).1, op.label? = none := by
  induction ts generalizing st with
  | nil => simp [loadIns]
  | cons t ts ih =>
    rw [loadIns]
    cases ind.base t with
    | none => exact ih
    | some b =>
      by_cases hdead : st t = tsDead
      · simp only [hdead, if_true, mem_cons, forall_eq_or_imp]
        exact ⟨rfl, ih⟩
      · simp only [hdead, if_false]
        exact ih

theorem DirTemps.label_storeOuts :
    ∀ op ∈ (dirs.storeOuts ts ms st).1, op.label? = none := by
  induction ts generalizing ms st with
  | nil => simp [storeOuts]
  | cons t ts ih =>
    cases ms with
    | nil => simp [storeOuts]
    | cons m ms =>
      rw [storeOuts]
      cases ind.base t with
      | none => exact ih
      | some b =>
        simp only
        split
        · simp only [mem_append, mem_singleton]
          rintro op (hop | rfl)
          · exact ih op hop
          · rfl
        · exact ih

variable {k : Nat} {live : List (LiveOp n)} {op : Op n}

theorem afterLabel_append {first second : List (Op n)} (h : ∀ op ∈ first, op.label? = none) :
    afterLabel k (first ++ second) = afterLabel k second := by
  induction first with
  | nil => rfl
  | cons op first ih =>
    rw [cons_append, afterLabel, h op mem_cons_self, if_neg (by simp)]
    exact ih fun op hop => h op (mem_cons_of_mem _ hop)

@[simp] theorem DirTemps.substOp_label (op : Op n) : (dirs.substOp op).label? = op.label? := by
  cases op with
  | call func flags oargs iargs => rfl
  | plain opc oargs iargs => cases opc <;> rfl

theorem Op.bbEnd_of_label (h : op.label? = some k) : op.bbEnd = true := by
  unfold Op.label? at h
  split at h
  · rfl
  · cases h

/-- The place behind a label in both lists. No global is cached there. -/
theorem DirTemps.afterLabel_lowerAll {front : Marks n}
    {rest : List (Op n)} (hann : Annotated ctx front live) (hfit : ind.Fits front st)
    (hfine : ∀ l ∈ live, dirs.Fine l.op) (h : afterLabel k (live.map LiveOp.op) = some rest) :
    ∃ live' marks' st', rest = live'.map LiveOp.op ∧
      afterLabel k (dirs.lowerAll st live) = some (dirs.lowerAll st' live') ∧
      Annotated ctx marks' live' ∧ ind.Fits marks' st' ∧ (∀ l ∈ live', dirs.Fine l.op) ∧
      ∀ g, ¬ ind.Cached st' g := by
  induction live generalizing front st with
  | nil => cases h
  | cons l live ih =>
    obtain ⟨marks, hann', rfl, hlife⟩ := hann
    have hl := hfine l mem_cons_self
    have hfit2 : ind.Fits (marksAt ctx l.op marks) (dirs.dropped l st) := hfit.dropped hlife
    have hfit' : ind.Fits marks (dirs.marksAfter l st) :=
      hfit2.marksAfter hlife hl.shaped.distinct hl.respects.discard
    have hfine' := fun l hl => hfine l (mem_cons_of_mem _ hl)
    rw [map_cons, afterLabel] at h
    rw [lowerAll, lower, append_assoc,
      afterLabel_append label_loadIns, cons_append, afterLabel,
      substOp_label, afterLabel_append label_storeOuts]
    by_cases hlab : l.op.label? = some k
    · rw [if_pos hlab] at h ⊢
      cases h
      have hend := Op.bbEnd_of_label hlab
      have houts := hl.shaped.ends hend
      refine ⟨live, marks, _, rfl, ?_, hann', hfit', hfine', fun g hg => ?_⟩
      · rw [houts]
        rfl
      · rcases cached_of_marksAfter hlife hl.shaped.distinct hl.respects.discard hg with hg | hg
        · have hdead := hfit2.dead_of_clobbers (Op.clobbers_of_bbEnd hend) hg.1
          rw [hg.2] at hdead
          cases hdead
        · simp [houts] at hg
    · rw [if_neg hlab] at h ⊢
      exact ih hann' hfit' hfine' h

theorem Indirect.fits_start (marks : Marks n) : ind.Fits marks (fun _ => tsDead) where
  dead := fun _ _ => rfl
  live := fun _ h => by cases h
  mem := fun _ h => by cases h

/-- A step of the list before the pass is answered by the op with its loads and stores. -/
theorem DirTemps.Sim.step {whole : List (LiveOp n)} {front : Marks n} {c c1 c' : Cfg n (Mem 64 × R)}
    (hann : Annotated ctx front whole) (hwhole : ∀ l ∈ whole, dirs.Fine l.op) (h : dirs.Sim host.big c c')
    (hsafe : ind.Safe host.big c) (hsafe1 : ind.Safe host.big c1)
    (hstep : ind.step host (whole.map LiveOp.op) c = some c1) :
    ∃ m c1', runN (ind.step host (dirs.livenessPass2 whole)) m c' = some c1' ∧ dirs.Sim host.big c1 c1' := by
  cases h with
  | done e h => cases hstep
  | @run live front' st s s' h =>
    cases live with
    | nil => cases hstep
    | cons l live =>
      obtain ⟨marks, hann', rfl, hlife⟩ := h.annotated
      have hl := h.fine l mem_cons_self
      have hfine' := fun l hl => h.fine l (mem_cons_of_mem _ hl)
      have hfit2 : ind.Fits (marksAt ctx l.op marks) (dirs.dropped l st) := h.fits.dropped hlife
      obtain ⟨nx, hexec, hnext⟩ := Option.bind_eq_some_iff.mp hstep
      have hval : ∀ g ∈ l.op.ins, ∃ v, ind.value host.big s g = some v := by
        obtain ⟨xs, hxs, -⟩ := Option.bind_eq_some_iff.mp hexec
        exact exists_of_mapM hxs
      -- the loads
      obtain ⟨s1', hloads, hread⟩ := h.agree.loads h.fits hsafe.1 hval
      have hstale : ∀ g, (ind.base g).isSome → ind.Stale (marksBefore ctx l.op marks) st g →
          ind.Stale (marksAt ctx l.op marks) (dirs.dropped l st) g :=
        fun g _ hg => hg.dropped h.fits hlife
      have hread1 := hread.mono (fun _ _ hg => hg) hstale
      have hagree1 := hread.mono (fun _ _ hg => cached_of_dropped hlife hg) hstale
      -- the op
      obtain ⟨nx', hexec', hnx⟩ := hread1.exec hagree1
        (fun t ht hbase => ⟨hbase, h.fits.loaded_dead hbase ht⟩)
        (fun hlook g => hfit2.not_stale_of_looks hlook)
        (fun hclob g hbase hg => by
          have hdead := hfit2.dead_of_clobbers hclob hbase
          rw [hg.2] at hdead
          cases hdead)
        hl hsafe.2 hsafe.1
        (fun s1 heq => by
          subst heq
          cases hnext
          exact hsafe1.apart)
        hexec
      have hrun : ∀ rest, runN (ind.step host (dirs.livenessPass2 whole))
          ((dirs.loadIns l.op.ins st).1.length + 1)
          (.run ((dirs.loadIns l.op.ins st).1 ++ dirs.substOp l.op :: rest) s') =
          Next.resume (dirs.livenessPass2 whole) rest nx' := by
        intro rest
        rw [runN_add, runN_of_run hloads]
        simp only [bind_some, runN, Indirect.step, hexec']
        cases Next.resume (dirs.livenessPass2 whole) rest nx' <;> rfl
      rw [lowerAll, lower, append_assoc, cons_append]
      cases hnx with
      | @fall s2 s2' hagree hhomes =>
        cases hnext
        obtain ⟨s3', hstores, hagree3⟩ := hagree.stores hlife hl hhomes
        refine ⟨(dirs.loadIns l.op.ins st).1.length + 1 +
          (dirs.storeOuts l.op.outs l.life.outs (dirs.dropped l st)).1.length, _, ?_,
          .run ⟨hann', hfit2.marksAfter hlife hl.shaped.distinct hl.respects.discard, hfine', hagree3⟩⟩
        rw [runN_add, hrun]
        exact runN_of_run hstores
      | @jump k s2 s2' hagree =>
        obtain ⟨rest, hrest, rfl⟩ := map_eq_some_iff.mp hnext
        obtain ⟨live', marks', st', rfl, hafter, hann'', hfit'', hfine'', hnone⟩ :=
          afterLabel_lowerAll hann (Indirect.fits_start front) hwhole hrest
        refine ⟨_, _, (hrun _).trans ?_, .run ⟨hann'', hfit'', hfine'',
          hagree.mono (fun g _ hg => absurd hg (hnone g)) fun _ _ hg => hg.elim⟩⟩
        simp only [Next.resume, livenessPass2, hafter, map_some]
      | exit e hagree =>
        cases hnext
        exact ⟨_, _, hrun _, .done e hagree⟩

end Step

/-- The temporaries that have a value behind an op, from those that have one in front of it. -/
def Op.given (op : Op n) (given : Fin n → Prop) (t : Fin n) : Prop :=
  op.bbEnd = false ∧ if t ∈ op.outs then op.isDiscard = false else given t

/-- Within each basic block, a direct temporary gets a value before it is an input of an op. `given`
are those that have a value in front of the list. -/
def DirTemps.LoadedFirst (dirs : DirTemps ind) : (Fin n → Prop) → List (Op n) → Prop
  | _, [] => True
  | given, op :: ops =>
    (∀ t ∈ op.ins, dirs.IsDir t → given t) ∧ LoadedFirst dirs (op.given given) ops

section Loaded

variable {l : LiveOp n} {marks st : Marks n} {given : Fin n → Prop}

theorem DirTemps.base_not_isDir {g b : Fin n} (hb : ind.base g = some b) : ¬ dirs.IsDir b :=
  not_isDir_of_isGlobal (ind.baseGlobal hb)

variable {ts : List (Fin n)} {rest : List (Op n)}

theorem DirTemps.loadedFirst_loadIns
    (hst : ∀ g, (ind.base g).isSome → st g ≠ tsDead → given (dirs.dir g)) (hrest : ∀ given' : Fin n → Prop,
      (∀ g, (ind.base g).isSome → (dirs.loadIns ts st).2 g ≠ tsDead → given' (dirs.dir g)) →
      dirs.LoadedFirst given' rest) :
    dirs.LoadedFirst given ((dirs.loadIns ts st).1 ++ rest) := by
  induction ts generalizing st given with
  | nil => exact hrest given hst
  | cons t ts ih =>
    rw [loadIns] at hrest ⊢
    cases hb : ind.base t with
    | none =>
      simp only [hb] at hrest ⊢
      exact ih hst hrest
    | some b =>
      simp only [hb] at hrest ⊢
      by_cases hdead : st t = tsDead
      · simp only [hdead, if_true] at hrest ⊢
        refine ⟨?_, ih (fun g hg hgd => ⟨rfl, ?_⟩) hrest⟩
        · intro u hu hdir
          rw [mem_singleton.mp hu] at hdir
          exact absurd hdir (base_not_isDir hb)
        · split
          · rfl
          · rename_i hout
            have heq : g ≠ t := by
              rintro rfl
              exact hout (by simp [Op.outs, loadOp])
            exact hst g hg (by simpa [heq] using hgd)
      · simp only [hdead, if_false] at hrest ⊢
        exact ih hst hrest

theorem DirTemps.loadedFirst_storeOuts (hts : ∀ g ∈ ts, (ind.base g).isSome → given (dirs.dir g))
    (hrest : ∀ given' : Fin n → Prop, (∀ t, given t → given' t) → dirs.LoadedFirst given' rest) :
    dirs.LoadedFirst given ((dirs.storeOuts ts ms st).1 ++ rest) := by
  induction ts generalizing ms st rest with
  | nil => exact hrest given fun _ ht => ht
  | cons t ts ih =>
    have hts' := fun g hg => hts g (mem_cons_of_mem t hg)
    cases ms with
    | nil => exact hrest given fun _ ht => ht
    | cons m ms =>
      rw [storeOuts]
      cases hb : ind.base t with
      | none => exact ih hts' hrest
      | some b =>
        by_cases hmem : m.mem = true
        · simp only [hmem, if_true, append_assoc]
          refine ih hts' fun given' hle => ⟨?_, hrest _ fun u hu => ⟨rfl, hle u hu⟩⟩
          intro u hu hdir
          rcases mem_cons.mp hu with rfl | hu
          · exact hle _ (hts t mem_cons_self (by simp [hb]))
          · rw [mem_singleton.mp hu] at hdir
            exact absurd hdir (base_not_isDir hb)
        · simp only [hmem]
          exact ih hts' hrest

theorem DirTemps.isDir_subst {t : Fin n} (ht : ¬ dirs.IsDir t) (h : dirs.IsDir (dirs.subst t)) :
    (ind.base t).isSome ∧ dirs.subst t = dirs.dir t := by
  by_cases hbase : (ind.base t).isSome
  · exact ⟨hbase, if_pos hbase⟩
  · rw [subst, if_neg hbase] at h
    exact absurd h ht

@[simp] theorem DirTemps.substOp_bbEnd (op : Op n) : (dirs.substOp op).bbEnd = op.bbEnd := by
  cases op <;> rfl

theorem DirTemps.Fine.isDiscard_of_dir (h : dirs.Fine op)
    (hg : (ind.base g).isSome) (hmem : dirs.dir g ∈ (dirs.substOp op).outs) :
    (dirs.substOp op).isDiscard = false := by
  have hdis : (dirs.substOp op).isDiscard = op.isDiscard := by
    cases op with
    | call func flags oargs iargs => rfl
    | plain opc oargs iargs => cases opc <;> rfl
  rw [hdis]
  by_contra hop
  rw [substOp_outs] at hmem
  obtain ⟨u, hu, heq⟩ := mem_map.mp hmem
  obtain ⟨hbase, -⟩ := isDir_subst (h.avoids.1 u hu) ⟨g, hg, heq.symm⟩
  exact h.respects.discard ⟨by simpa using hop, u, hu, hbase⟩

theorem DirTemps.loadedFirst_lowerAll {front : Marks n}
    (hann : Annotated ctx front live) (hfit : ind.Fits front st) (hfine : ∀ l ∈ live, dirs.Fine l.op)
    (hst : ∀ g, ind.Cached st g → given (dirs.dir g)) :
    dirs.LoadedFirst given (dirs.lowerAll st live) := by
  induction live generalizing front st given with
  | nil => trivial
  | cons l live ih =>
    obtain ⟨marks, hann', rfl, hlife⟩ := hann
    have hl := hfine l mem_cons_self
    have hfit2 : ind.Fits (marksAt ctx l.op marks) (dirs.dropped l st) := hfit.dropped hlife
    have hfit' := hfit2.marksAfter hlife hl.shaped.distinct hl.respects.discard
    rw [lowerAll, lower, append_assoc, cons_append]
    refine loadedFirst_loadIns (fun g hg hne => hst g ⟨hg, ?_⟩) fun given' hgiven => ?_
    · by_contra hdead
      exact hne (hfit.dead hg (by simpa using hdead))
    refine ⟨fun t ht hdir => ?_, ?_⟩
    · rw [substOp_ins] at ht
      obtain ⟨u, hu, rfl⟩ := mem_map.mp ht
      obtain ⟨hbase, heq⟩ := isDir_subst (hl.avoids.2 u hu) hdir
      rw [heq]
      refine hgiven u hbase fun hdead => ?_
      have hlive : (dirs.loaded l st u).dead = false := hfit.loaded_dead hbase hu
      rw [loaded, hdead] at hlive
      cases hlive
    · have hnone : l.op.bbEnd = true → ∀ g, ¬ ind.Cached (dirs.dropped l st) g := fun hend g hg => by
        have hdead := hfit2.dead_of_clobbers (Op.clobbers_of_bbEnd hend) hg.1
        rw [hg.2] at hdead
        cases hdead
      have hend : ∀ g ∈ l.op.outs, (dirs.substOp l.op).bbEnd = false := fun g hg => by
        rw [substOp_bbEnd]
        by_contra hend
        rw [hl.shaped.ends (by simpa using hend)] at hg
        cases hg
      have hout : ∀ g ∈ l.op.outs, (ind.base g).isSome →
          (dirs.substOp l.op).given given' (dirs.dir g) := fun g hg hbase => by
        have hmem : dirs.dir g ∈ (dirs.substOp l.op).outs := by
          rw [substOp_outs]
          exact mem_map.mpr ⟨g, hg, if_pos hbase⟩
        refine ⟨hend g hg, ?_⟩
        rw [if_pos hmem]
        exact hl.isDiscard_of_dir hbase hmem
      refine loadedFirst_storeOuts hout fun given'' hle => ?_
      refine ih hann' hfit' (fun l hl => hfine l (mem_cons_of_mem _ hl)) fun g hg => hle _ ?_
      rcases cached_of_marksAfter hlife hl.shaped.distinct hl.respects.discard hg with hgd | hgo
      · refine ⟨?_, ?_⟩
        · rw [substOp_bbEnd]
          by_contra hend
          exact hnone (by simpa using hend) g hgd
        · split
          · exact hl.isDiscard_of_dir hg.1 (by assumption)
          · refine hgiven g hg.1 fun hdead => ?_
            have hlive := (cached_of_dropped hlife hgd).2
            rw [loaded, hdead] at hlive
            cases hlive
      · exact hout g hgo hg.1

end Loaded

/-- What the pass before leaves of a list is fine if the list is. -/
theorem DirTemps.fine_livenessPass1 (hok : ∀ op ∈ ops, ctx.OpOk op)
    (havoid : ∀ op ∈ ops, dirs.Avoids op) (hrespect : ∀ op ∈ ops, ind.Respects op) :
    ∀ l ∈ (livenessPass1 ctx ops).2, dirs.Fine l.op := by
  refine forall_livenessPass1
    (fun op hop => ⟨(hok op hop).shaped, havoid op hop, hrespect op hop⟩)
    fun op w f r a b hop hr ha hb => ⟨⟨by simp [Op.outs], by simp [Op.bbEnd, Opcode.bbEnd]⟩, ?_, ?_⟩
  · refine ⟨fun t ht => ?_, fun t ht => ?_⟩
    · rw [mem_singleton.mp ht]
      exact hop.avoids.1 r hr
    · rcases mem_cons.mp ht with rfl | ht
      · exact hop.avoids.2 t ha
      · rw [mem_singleton.mp ht]
        exact hop.avoids.2 b hb
  · refine ⟨fun hdis => ?_, fun t ht => ?_⟩
    · cases hdis.1
    · rw [mem_singleton.mp ht]
      exact hop.respects.base r hr

/-- The two runs show the same: the values of all temporaries and globals that are not in host
memory, what is outside host memory, and what is observed. -/
structure DirTemps.Same (dirs : DirTemps ind) (s s' : State n (Mem 64 × R)) : Prop where
  val : ∀ t, ind.base t = none → ¬ dirs.IsDir t → s'.val t = s.val t
  rest : s'.world.2 = s.world.2
  trace : s'.trace.filter Event.outward = s.trace.filter Event.outward

/-- A configuration of the list before the pass, and where the list it makes then is. Host memory is
the same where the next op may look at the homes of globals, and at every exit. -/
inductive DirTemps.Matches (dirs : DirTemps ind) :
    Cfg n (Mem 64 × R) → Cfg n (Mem 64 × R) → Prop
  | run {ops ops' : List (Op n)} {s s' : State n (Mem 64 × R)} (same : dirs.Same s s')
      (stored : ∀ op ∈ ops.head?, op.looks = true → s'.world.1 = s.world.1) :
      Matches dirs (.run ops s) (.run ops' s')
  | done (e) {s s' : State n (Mem 64 × R)} (same : dirs.Same s s')
      (stored : s'.world.1 = s.world.1) : Matches dirs (.done e s) (.done e s')

theorem DirTemps.Sim.matches {c c' : Cfg n (Mem 64 × R)} (h : dirs.Sim big c c') :
    dirs.Matches c c' := by
  cases h with
  | done e h =>
    exact .done e ⟨fun _ => h.val, h.rest, h.trace⟩ (congrArg Prod.fst (h.world fun _ hg => hg.elim))
  | @run live front st s s' h =>
    refine .run ⟨fun _ => h.agree.val, h.agree.rest, h.agree.trace⟩ fun op hop hlook => ?_
    cases live with
    | nil => cases hop
    | cons l live =>
      cases hop
      obtain ⟨marks, -, rfl, hlife⟩ := h.annotated
      have hfit2 : ind.Fits (marksAt ctx l.op marks) (dirs.dropped l st) := h.fits.dropped hlife
      refine congrArg Prod.fst (h.agree.world fun g hg => ?_)
      exact hfit2.not_stale_of_looks hlook (hg.dropped h.fits hlife)

/-- The list that `liveness_pass_2` makes does what the list before it does. Every direct temporary
is written before it is read, and host memory is up to date wherever it may be looked at. -/
theorem livenessPass2_simulates {host : HostEnv n R} {ops : List (Op n)}
    {s : State n (Mem 64 × R)} {k : Nat} {c : Cfg n (Mem 64 × R)}
    (hok : ∀ op ∈ ops, ctx.OpOk op) (havoid : ∀ op ∈ ops, dirs.Avoids op)
    (hrespect : ∀ op ∈ ops, ind.Respects op)
    (hsafe : ∀ i ≤ k, ∀ c₁, runN (ind.step host ((livenessPass1 ctx ops).2.map LiveOp.op)) i
      (.run ((livenessPass1 ctx ops).2.map LiveOp.op) s) = some c₁ → ind.Safe host.big c₁)
    (hrun : runN (ind.step host ((livenessPass1 ctx ops).2.map LiveOp.op)) k
      (.run ((livenessPass1 ctx ops).2.map LiveOp.op) s) = some c) :
    (∃ m c', runN (ind.step host (dirs.livenessPass2 (livenessPass1 ctx ops).2)) m
      (.run (dirs.livenessPass2 (livenessPass1 ctx ops).2) s) = some c' ∧ dirs.Matches c c') ∧
    dirs.LoadedFirst (fun _ => False) (dirs.livenessPass2 (livenessPass1 ctx ops).2) := by
  have hann := annotated_livenessPass1 ctx ops
  have hfine := fine_livenessPass1 hok havoid hrespect
  refine ⟨?_, loadedFirst_lowerAll hann (Indirect.fits_start _) hfine fun g hg => by cases hg.2⟩
  have hstart : dirs.Agree host.big (ind.Cached fun _ => tsDead)
      (ind.Stale (livenessPass1 ctx ops).1 fun _ => tsDead) s s :=
    ⟨fun _ _ => rfl, fun _ hg => (by cases hg.2), fun _ => rfl, rfl, rfl⟩
  obtain ⟨m, c', hrun', hsim⟩ := runN_simulates_of
    (fun c t c₁ hc hc₁ hsim hstep => DirTemps.Sim.step hann hfine hsim hc hc₁ hstep) hsafe hrun
    (.run ⟨hann, Indirect.fits_start _, hfine, hstart⟩)
  exact ⟨m, c', hrun', hsim.matches⟩

/-- A window pointer, a register of the window, a plain global, and a temporary. -/
def windowCtx : Ctx 4 where
  host := .bits64
  nbGlobals := 3
  ty := fun t => if t = 0 then .w64 else .w32
  tempLocal := fun _ => false
  hasMuluh := fun _ => false
  hasMulsh := fun _ => false
  wide := fun _ _ => rfl

def window : Indirect windowCtx where
  base := fun t => if t = 1 then some 0 else none
  offset := fun _ => 8
  global := by decide
  baseGlobal := by decide
  direct := by decide

def windowDirs : DirTemps window where
  dir := fun _ => 3
  inj := by decide
  temp := by decide
  ty := by decide

/-- A helper that puts 5 into the register of the window. -/
def windowHost : HostEnv 4 Unit where
  env :=
    { helper := fun _ _ g w => some ⟨[], g, (store false 4 0x1008 5 w.1, ()), false⟩
      load := fun k a w => some (load false k a w.1)
      store := fun k a v w => some (store false k a v w.1, w.2)
      guestLoad := fun _ _ _ => none
      guestStore := fun _ _ _ _ => none
      chained := fun _ _ => false
      helper_mono := by
        intro func args g g' w r hle hr
        cases hr
        exact ⟨_, rfl, ⟨rfl, hle, rfl, rfl⟩⟩ }
  big := false
  load_eq := fun _ _ _ => rfl
  store_eq := fun _ _ _ _ => rfl

def windowOps : List (Op 4) :=
  [.call 0 ⟨false, false, false⟩ [] [], .plain (.mov .w32) [2] [1], .plain (.exitTb 0) [] []]

def windowState : State 4 (Mem 64 × Unit) :=
  ⟨fun t => if t = 0 then some 0x1000 else some 7, (fun _ => 0, ()), []⟩

def windowRun (ops : List (Op 4)) (k : Nat) : Option (Cfg 4 (Mem 64 × Unit)) :=
  runN (window.step windowHost ((livenessPass1 windowCtx ops).2.map LiveOp.op)) k
    (.run ((livenessPass1 windowCtx ops).2.map LiveOp.op) windowState)

def windowRunDirect (ops : List (Op 4)) (k : Nat) : Option (Cfg 4 (Mem 64 × Unit)) :=
  runN (window.step windowHost (windowDirs.livenessPass2 (livenessPass1 windowCtx ops).2)) k
    (.run (windowDirs.livenessPass2 (livenessPass1 windowCtx ops).2) windowState)

theorem window_isDir (t : Fin 4) : windowDirs.IsDir t ↔ t = 3 := by
  unfold DirTemps.IsDir
  revert t
  decide

theorem window_apart (val : Fin 4 → Option Word) : window.Apart val := by
  have hone : ∀ g, (window.base g).isSome → g = 1 := by decide
  intro g h hne b hg hh
  exact hne ((hone g hg.base).trans (hone h hh.base).symm)

theorem window_outside {op : Op 4} (h : ∀ xs, op.access windowCtx.host xs = none)
    (s : State 4 (Mem 64 × Unit)) : window.Outside false op s := by
  intro xs _ k a hacc
  rw [h xs] at hacc
  cases hacc

theorem windowOps_ok : ∀ op ∈ windowOps, windowCtx.OpOk op ∧ windowDirs.Avoids op := by
  intro op hop
  simp only [windowOps, mem_cons, not_mem_nil, or_false] at hop
  rcases hop with rfl | rfl | rfl
  · exact ⟨nodup_nil, by simp [DirTemps.Avoids, Op.outs, Op.ins]⟩
  · exact ⟨⟨.cons rfl .nil, .cons (by decide) .nil, by simp, trivial⟩,
      by simp [DirTemps.Avoids, Op.outs, Op.ins, window_isDir]⟩
  · exact ⟨⟨.nil, .nil, by simp, trivial⟩, by simp [DirTemps.Avoids, Op.outs, Op.ins]⟩

theorem livenessPass2_simulates_window :
    ∃ c, windowRun windowOps 3 = some c ∧
      (∃ m c', windowRunDirect windowOps m = some c' ∧ windowDirs.Matches c c') ∧
      windowDirs.LoadedFirst (fun _ => False)
        (windowDirs.livenessPass2 (livenessPass1 windowCtx windowOps).2) := by
  have hends : (windowRun windowOps 3).isSome := by decide +kernel
  obtain ⟨c, hc⟩ := isSome_iff_exists.mp hends
  refine ⟨c, hc, livenessPass2_simulates (fun op hop => (windowOps_ok op hop).1)
    (fun op hop => (windowOps_ok op hop).2) ?_ ?_ hc⟩
  · intro op hop
    simp only [windowOps, mem_cons, not_mem_nil, or_false] at hop
    rcases hop with rfl | rfl | rfl
    · exact ⟨fun h => (by cases h.1), by simp [Op.outs]⟩
    · exact ⟨fun h => (by cases h.1), by decide⟩
    · exact ⟨fun h => (by cases h.1), by simp [Op.outs]⟩
  · intro i hi c₁ h
    interval_cases i
    case «3» =>
      have h : some (Cfg.done _ _) = some c₁ := h
      cases h
      exact window_apart _
    all_goals
      have h : some (Cfg.run _ _) = some c₁ := h
      cases h
      exact ⟨window_apart _, window_outside (fun _ => rfl) _⟩

def windowExit : Cfg 4 (Mem 64 × Unit) → Option (Exit × Option Word)
  | .run _ _ => none
  | .done e s => some (e, s.val 2)

/-- The same ops behind a `discard` of the register. -/
def windowDiscard : List (Op 4) := .plain (.discard .w32) [1] [] :: windowOps

/-- The list before the pass leaves the helper's value in the global. The list that the pass makes
reads the direct temporary without a load, where it has no value. -/
theorem livenessPass2_discard :
    (∀ op ∈ windowDiscard, windowCtx.OpOk op ∧ windowDirs.Avoids op) ∧
      (windowRun windowDiscard 4).bind windowExit = some (.exitTb 0, some 5) ∧
      windowRunDirect windowDiscard 3 = none ∧
      ¬ windowDirs.LoadedFirst (fun _ => False)
        (windowDirs.livenessPass2 (livenessPass1 windowCtx windowDiscard).2) := by
  refine ⟨?_, by decide +kernel, ?_, ?_⟩
  · intro op hop
    rcases mem_cons.mp hop with rfl | hop
    · exact ⟨⟨.cons rfl .nil, .nil, by simp, trivial⟩,
        by simp [DirTemps.Avoids, Op.outs, Op.ins, window_isDir]⟩
    · exact windowOps_ok op hop
  · exact isNone_iff_eq_none.mp (by decide +kernel)
  · intro h
    have hcall := h.2.2.1 3 (by decide) ((window_isDir 3).mpr rfl)
    have hdiscard : Op.given (.plain (.discard .w32) [3] []) (fun _ => False) 3 := hcall.2
    have hvalue : true = false := hdiscard.2
    cases hvalue

end TcgArm.Tcg
