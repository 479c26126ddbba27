import TcgArm.Indirect

/-! How the states that `liveness_pass_2` keeps for indirect globals go with the marks of the pass
before it. A global that is cached in its direct temporary is live, and one that is newer than
memory need not be in memory before its next write. -/

namespace TcgArm.Tcg

open DirTemps List

variable {n : Nat} {ctx : Ctx n} {ind : Indirect ctx} (dirs : DirTemps ind) {m : Mark}

/-- The direct temporary of `g` holds its value. -/
def Indirect.Cached (ind : Indirect ctx) (st : Marks n) (g : Fin n) : Prop :=
  (ind.base g).isSome ∧ (st g).dead = false

/-- The home of `g` may be behind: `g` was modified, or nobody looks at it before its next write. -/
def Indirect.Stale (ind : Indirect ctx) (marks st : Marks n) (g : Fin n) : Prop :=
  (ind.base g).isSome ∧ (st g = tsModified ∨ (st g).dead = true ∧ marks g = tsDead)

/-- The states `st` of the indirect globals go with the liveness marks. -/
structure Indirect.Fits (ind : Indirect ctx) (marks st : Marks n) : Prop where
  dead : ∀ {g}, (ind.base g).isSome → (st g).dead = true → st g = tsDead
  live : ∀ {g}, (ind.base g).isSome → (st g).dead = false → (marks g).dead = false
  mem : ∀ {g}, (ind.base g).isSome → st g = tsModified → (marks g).mem = false

/-- The op is a `discard` of an indirect global. -/
def Indirect.Discards (ind : Indirect ctx) (op : Op n) : Prop :=
  op.isDiscard = true ∧ ∃ t ∈ op.outs, (ind.base t).isSome

theorem loadIns_marks (ts : List (Fin n)) (st : Marks n) (g : Fin n) :
    (dirs.loadIns ts st).2 g = if g ∈ ts ∧ (ind.base g).isSome ∧ st g = tsDead then tsMem else st g := by
  induction ts generalizing st with
  | nil => simp [loadIns]
  | cons t ts ih =>
    rw [loadIns]
    cases hbase : ind.base t with
    | none =>
      simp only [ih, mem_cons]
      by_cases hg : g = t
      · subst hg
        simp [hbase]
      · simp [hg]
    | some b =>
      by_cases hdead : st t = tsDead
      · simp only [hdead, if_true, ih, mem_cons]
        by_cases hg : g = t
        · subst hg
          simp [hbase, hdead, tsDead, tsMem]
        · simp [hg]
      · simp only [hdead, if_false, ih, mem_cons]
        by_cases hg : g = t
        · subst hg
          simp [hdead]
        · simp [hg]

theorem dropIns_marks (ts : List (Fin n)) (deads : Fin n → Bool) (st : Marks n) (g : Fin n) :
    ind.dropIns ts (ts.map deads) st g = if g ∈ ts ∧ (ind.base g).isSome ∧ deads g then tsDead else st g := by
  induction ts generalizing st with
  | nil => simp [Indirect.dropIns]
  | cons t ts ih =>
    rw [map_cons, Indirect.dropIns, ih]
    by_cases hg : g = t
    · subst hg
      by_cases hdrop : (ind.base g).isSome ∧ deads g
      · simp [hdrop]
      · simp [hdrop]
    · have hkeep : (if (ind.base t).isSome ∧ deads t then Function.update st t tsDead else st) g = st g := by
        split
        · simp [hg]
        · rfl
      simp [hg, hkeep]

def Mark.written (m : Mark) : Mark := if m.dead then tsDead else if m.mem then tsMem else tsModified

theorem Mark.written_dead (m : Mark) : m.written.dead = m.dead := by
  rcases m with ⟨_ | _, _ | _⟩ <;> rfl

theorem Mark.written_eq_tsDead (h : m.dead = true) : m.written = tsDead := by
  simp [Mark.written, h]

theorem Mark.mem_of_written (h : m.written = tsModified) : m.mem = false := by
  rcases m with ⟨_ | _, _ | _⟩ <;> first | rfl | cases h

variable {ts : List (Fin n)}

theorem storeOuts_marks (hts : ts.Nodup) (marks st : Marks n) (g : Fin n) :
    (dirs.storeOuts ts (ts.map marks) st).2 g =
      if g ∈ ts ∧ (ind.base g).isSome then (marks g).written else st g := by
  induction ts generalizing st with
  | nil => simp [storeOuts]
  | cons t ts ih =>
    obtain ⟨hnot, hts⟩ := List.nodup_cons.mp hts
    rw [map_cons, storeOuts]
    cases hbase : ind.base t with
    | none =>
      simp only [ih hts, mem_cons]
      by_cases hg : g = t
      · subst hg
        simp [hbase, hnot]
      · simp [hg]
    | some b =>
      simp only [ih hts, mem_cons]
      by_cases hg : g = t
      · subst hg
        simp [hbase, hnot, Mark.written]
      · simp [hg]

theorem storeOuts_of_direct (h : ∀ t ∈ ts, ind.base t = none) (ms : List Mark) (st : Marks n) :
    dirs.storeOuts ts ms st = ([], st) := by
  induction ts generalizing ms with
  | nil => simp [storeOuts]
  | cons t ts ih =>
    cases ms with
    | nil => simp [storeOuts]
    | cons m ms =>
      rw [storeOuts, h t mem_cons_self]
      exact ih (fun u hu => h u (mem_cons_of_mem _ hu)) ms

namespace DirTemps

def loaded (l : LiveOp n) (st : Marks n) : Marks n := (dirs.loadIns l.op.ins st).2

def dropped (l : LiveOp n) (st : Marks n) : Marks n :=
  ind.dropIns l.op.ins l.life.ins (dirs.loaded l st)

variable {dirs} {l : LiveOp n} {marks st : Marks n}

theorem loaded_apply (g : Fin n) :
    dirs.loaded l st g = if g ∈ l.op.ins ∧ (ind.base g).isSome ∧ st g = tsDead then tsMem else st g :=
  loadIns_marks dirs _ st g

theorem dropped_apply (hlife : l.life = lifeOf ctx l.op marks) (g : Fin n) :
    dirs.dropped l st g = if g ∈ l.op.ins ∧ (ind.base g).isSome ∧ (marksAt ctx l.op marks g).dead then tsDead
      else dirs.loaded l st g := by
  rw [dropped, hlife, lifeOf]
  exact dropIns_marks _ (fun t => (marksAt ctx l.op marks t).dead) _ g

theorem marksAfter_apply (hlife : l.life = lifeOf ctx l.op marks) (hnodup : l.op.outs.Nodup)
    (hdis : ind.Discards l.op → False) (g : Fin n) :
    dirs.marksAfter l st g =
      if g ∈ l.op.outs ∧ (ind.base g).isSome then (marks g).written else dirs.dropped l st g := by
  by_cases hop : l.op.isDiscard = true
  · have hdirect : ∀ t ∈ l.op.outs, ind.base t = none := fun t ht => by
      by_contra hsome
      exact hdis ⟨hop, t, ht, Option.isSome_iff_ne_none.mpr hsome⟩
    have hnot : ¬ (g ∈ l.op.outs ∧ (ind.base g).isSome) := fun ⟨hg, hsome⟩ => by
      rw [hdirect g hg] at hsome
      cases hsome
    rw [marksAfter, storeOuts_of_direct dirs hdirect, if_neg hnot]
    rfl
  · rw [← storeOuts_marks dirs hnodup, ← outMarks_eq hnodup]
    simp only [marksAfter, dropped, loaded, hlife, lifeOf, hop]
    rfl

end DirTemps

variable {marks : Marks n} {g : Fin n} {op : Op n}

theorem demand_global (hg : ctx.isGlobal g = true) :
    demand ctx op marks g = if op.clobbers then ⟨true, true⟩ else if op.looks then ⟨(marks g).dead, true⟩
      else marks g := by
  have hend : op.bbEnd = true → op.clobbers = true := by
    cases op <;> simp [Op.bbEnd, Op.clobbers]
  by_cases hbb : op.bbEnd = true
  · simp [demand, hbb, hend hbb, tcgLaBbEnd, Ctx.persists, hg]
  · by_cases hclob : op.clobbers = true
    · simp [demand, hbb, hclob, saveGlobals, hg]
    · by_cases hlook : op.looks = true
      · simp [demand, hbb, hclob, hlook, syncGlobals, hg]
      · simp [demand, hbb, hclob, hlook]

theorem marksAt_global (hg : ctx.isGlobal g = true) (hout : g ∉ op.outs) (hclob : op.clobbers = false) :
    marksAt ctx op marks g = if op.looks then ⟨(marks g).dead, true⟩ else marks g := by
  simp [marksAt, demand_global hg, hclob, killOuts, hout]

theorem Indirect.not_stale_of_mem_ins {st : Marks n} (hg : g ∈ op.ins) (hdead : (st g).dead = true) :
    ¬ ind.Stale (marksBefore ctx op marks) st g := by
  rintro ⟨-, hmod | ⟨-, hmark⟩⟩
  · rw [hmod] at hdead
    cases hdead
  · simp [marksBefore, reviveIns, hg, tsDead] at hmark

namespace Indirect.Fits

variable {dirs} {l : LiveOp n} {marks st : Marks n} {g : Fin n} {op : Op n}

theorem loaded_dead (hfit : ind.Fits marks st) (hbase : (ind.base g).isSome)
    (hg : g ∈ l.op.ins) : (dirs.loaded l st g).dead = false := by
  rw [loaded_apply]
  by_cases hdead : (st g).dead = true
  · simp [hg, hbase, hfit.dead hbase hdead, tsMem]
  · split
    · rfl
    · simpa using hdead

/-- While the op runs, the states go with the marks between its reads and its writes. -/
theorem dropped (hfit : ind.Fits (marksBefore ctx l.op marks) st) (hlife : l.life = lifeOf ctx l.op marks) :
    ind.Fits (marksAt ctx l.op marks) (dirs.dropped l st) := by
  constructor
  · intro g hbase hdead
    rw [dropped_apply hlife] at hdead ⊢
    split
    · rfl
    · rename_i hdrop
      rw [if_neg hdrop, loaded_apply] at hdead
      rw [loaded_apply]
      split
      · rename_i hload
        simp [hload, tsMem] at hdead
      · rename_i hload
        rw [if_neg hload] at hdead
        exact hfit.dead hbase hdead
  · intro g hbase hdead
    rw [dropped_apply hlife] at hdead
    split at hdead
    · cases hdead
    · rename_i hdrop
      by_cases hg : g ∈ l.op.ins
      · simpa [hg, hbase] using hdrop
      · rw [loaded_apply, if_neg fun h => hg h.1] at hdead
        simpa [marksBefore, reviveIns, hg] using hfit.live hbase hdead
  · intro g hbase hmod
    rw [dropped_apply hlife] at hmod
    split at hmod
    · cases hmod
    · rw [loaded_apply] at hmod
      split at hmod
      · cases hmod
      · have hmem := hfit.mem hbase hmod
        simp only [marksBefore, reviveIns] at hmem
        split at hmem <;> exact hmem

theorem dead_of_clobbers (hfit : ind.Fits (marksAt ctx op marks) st)
    (hop : op.clobbers = true) (hbase : (ind.base g).isSome) : (st g).dead = true := by
  by_contra hlive
  have hmark := hfit.live hbase (by simpa using hlive)
  obtain ⟨b, hb⟩ := Option.isSome_iff_exists.mp hbase
  simp [marksAt, demand_global (ind.global hb), hop] at hmark

theorem not_stale_of_looks (hfit : ind.Fits (marksAt ctx op marks) st)
    (hop : op.looks = true) : ¬ ind.Stale (marksAt ctx op marks) st g := by
  rintro ⟨hbase, hstale⟩
  obtain ⟨b, hb⟩ := Option.isSome_iff_exists.mp hbase
  have hmem : (marksAt ctx op marks g).mem = true := by
    rw [marksAt, demand_global (ind.global hb), hop]
    split <;> rfl
  rcases hstale with hmod | ⟨-, hmark⟩
  · rw [hfit.mem hbase hmod] at hmem
    cases hmem
  · rw [hmark] at hmem
    cases hmem

/-- Behind the op, the states go with the marks there. -/
theorem marksAfter (hfit : ind.Fits (marksAt ctx l.op marks) (dirs.dropped l st))
    (hlife : l.life = lifeOf ctx l.op marks) (hnodup : l.op.outs.Nodup)
    (hdis : ¬ ind.Discards l.op) : ind.Fits marks (dirs.marksAfter l st) := by
  constructor
  · intro g hbase hdead
    rw [marksAfter_apply hlife hnodup hdis] at hdead ⊢
    split
    · rename_i hout
      rw [if_pos hout, Mark.written_dead] at hdead
      exact Mark.written_eq_tsDead hdead
    · rename_i hout
      rw [if_neg hout] at hdead
      exact hfit.dead hbase hdead
  · intro g hbase hdead
    rw [marksAfter_apply hlife hnodup hdis] at hdead
    split at hdead
    · rwa [Mark.written_dead] at hdead
    · rename_i hout
      have hout : g ∉ l.op.outs := fun h => hout ⟨h, hbase⟩
      have hclob : l.op.clobbers = false := by
        by_contra hclob
        rw [hfit.dead_of_clobbers (by simpa using hclob) hbase] at hdead
        cases hdead
      obtain ⟨b, hb⟩ := Option.isSome_iff_exists.mp hbase
      have hlive := hfit.live hbase hdead
      rw [marksAt_global (ind.global hb) hout hclob] at hlive
      split at hlive <;> exact hlive
  · intro g hbase hmod
    rw [marksAfter_apply hlife hnodup hdis] at hmod
    split at hmod
    · exact Mark.mem_of_written hmod
    · rename_i hout
      have hout : g ∉ l.op.outs := fun h => hout ⟨h, hbase⟩
      have hclob : l.op.clobbers = false := by
        by_contra hclob
        have hdead := hfit.dead_of_clobbers (by simpa using hclob) hbase
        rw [hmod] at hdead
        cases hdead
      obtain ⟨b, hb⟩ := Option.isSome_iff_exists.mp hbase
      have hmem := hfit.mem hbase hmod
      rw [marksAt_global (ind.global hb) hout hclob] at hmem
      split_ifs at hmem
      exact hmem

end Indirect.Fits

section Stale

variable {dirs} {l : LiveOp n} {marks st : Marks n} {g : Fin n}

/-- A home that is behind in front of the op is still so while it runs. -/
theorem Indirect.Stale.dropped (hfit : ind.Fits (marksBefore ctx l.op marks) st)
    (hlife : l.life = lifeOf ctx l.op marks) (h : ind.Stale (marksBefore ctx l.op marks) st g) :
    ind.Stale (marksAt ctx l.op marks) (dirs.dropped l st) g := by
  obtain ⟨hbase, hmod | ⟨hdead, hmark⟩⟩ := h
  · refine ⟨hbase, ?_⟩
    have hloaded : dirs.loaded l st g = tsModified := by
      rw [loaded_apply, if_neg fun h => by simp [hmod, tsModified, tsDead] at h, hmod]
    have hmem : (marksAt ctx l.op marks g).mem = false := by
      have hmem := hfit.mem hbase hmod
      simp only [marksBefore, reviveIns] at hmem
      split at hmem <;> exact hmem
    rw [dropped_apply hlife, hloaded]
    split
    · rename_i hdrop
      refine .inr ⟨rfl, ?_⟩
      cases hm : marksAt ctx l.op marks g
      simp_all [tsDead]
    · exact .inl rfl
  · have hg : g ∉ l.op.ins := fun hg => Indirect.not_stale_of_mem_ins hg hdead ⟨hbase, .inr ⟨hdead, hmark⟩⟩
    refine ⟨hbase, .inr ⟨?_, by simpa [marksBefore, reviveIns, hg] using hmark⟩⟩
    rw [dropped_apply hlife, if_neg fun h => hg h.1, loaded_apply, if_neg fun h => hg h.1]
    exact hdead

/-- A home that is behind stays so, and so may that of an output that is not stored. -/
theorem Indirect.Stale.marksAfter (hlife : l.life = lifeOf ctx l.op marks)
    (hnodup : l.op.outs.Nodup) (hdis : ¬ ind.Discards l.op)
    (h : (g ∉ l.op.outs ∧ ind.Stale (marksAt ctx l.op marks) (dirs.dropped l st) g) ∨
      (g ∈ l.op.outs ∧ (ind.base g).isSome ∧ (marks g).mem = false)) :
    ind.Stale marks (dirs.marksAfter l st) g := by
  rcases h with ⟨hout, hbase, hstale⟩ | ⟨hout, hbase, hmem⟩
  · have hafter : dirs.marksAfter l st g = dirs.dropped l st g := by
      rw [marksAfter_apply hlife hnodup hdis, if_neg fun h => hout h.1]
    refine ⟨hbase, ?_⟩
    rw [hafter]
    rcases hstale with hmod | ⟨hdead, hmark⟩
    · exact .inl hmod
    · refine .inr ⟨hdead, ?_⟩
      obtain ⟨b, hb⟩ := Option.isSome_iff_exists.mp hbase
      rw [marksAt, demand_global (ind.global hb)] at hmark
      split at hmark
      · simp [tsDead] at hmark
      · split at hmark
        · simp [tsDead] at hmark
        · simpa [killOuts, hout] using hmark
  · refine ⟨hbase, ?_⟩
    rw [marksAfter_apply hlife hnodup hdis, if_pos ⟨hout, hbase⟩]
    unfold Mark.written
    by_cases hdead : (marks g).dead = true
    · refine .inr ⟨by simp [hdead, tsDead], ?_⟩
      cases hm : marks g
      simp_all [tsDead]
    · exact .inl (by simp [hdead, hmem])

end Stale

end TcgArm.Tcg
