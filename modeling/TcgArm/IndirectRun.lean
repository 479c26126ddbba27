import TcgArm.IndirectAgree

/-! The list that `liveness_pass_2` makes does what the list before it does. -/

namespace TcgArm.Tcg

open TcgArm.Tcg.Action BitVec ByteMemory DirTemps Function Indirect List Op Option

variable {n : Nat} {R : Type} {ctx : Ctx n} {ind : Indirect ctx} {dirs : DirTemps ind}

theorem setWidth_lowBytes (k : Nat) (v : Word) :
    ((lowBytes k v).setWidth (8 * k)).setWidth 64 = lowBytes k v := by
  apply eq_of_getLsbD_eq
  intro i hi
  rw [lowBytes, getLsbD_setWidth, getLsbD_setWidth, getLsbD_setWidth, getLsbD_setWidth]
  by_cases hlow : i < 8 * k <;> simp [hlow, hi]

section Outputs

variable {big : Bool} {cached stale : Fin n → Prop} {s s' : State n (Mem 64 × R)} {t : Fin n}

theorem Indirect.exists_value {g : Fin n} (hg : (ind.base g).isSome) :
    (∃ v, ind.value big s g = some v) ↔ ∃ a, ind.home s.val g = some a := by
  simp only [value, hg, if_true, map_eq_some_iff]
  constructor
  · rintro ⟨v, a, ha, -⟩
    exact ⟨a, ha⟩
  · rintro ⟨a, ha⟩
    exact ⟨_, a, ha, rfl⟩

variable {y : Option Word} {val : Fin n → Option Word}

theorem Indirect.home_update (hbase : ∀ g, ind.base g ≠ some t) :
    ind.home (update val t y) = ind.home val := by
  refine home_congr fun {g b} hb => ?_
  have hne : b ≠ t := by
    rintro rfl
    exact hbase g hb
  exact update_of_ne hne _ _

/-- Writing a temporary that is no base leaves the homes where they are. -/
theorem Indirect.put_home (hbase : ∀ g, ind.base g ≠ some t) (h : ind.put big s t y = some s1) :
    ind.home s1.val = ind.home s.val := by
  cases y with
  | none =>
    cases h
    split
    · rfl
    · exact home_update hbase
  | some v =>
    simp only [put] at h
    split at h
    · obtain ⟨a, -, rfl⟩ := map_eq_some_iff.mp h
      rfl
    · cases h
      exact home_update hbase

variable {ys : List (Option Word)} {ts : List (Fin n)}

theorem Indirect.putAll_home (hbase : ∀ t ∈ ts, ∀ g, ind.base g ≠ some t)
    (h : ind.putAll big ts ys s = some s1) :
    ind.home s1.val = ind.home s.val := by
  induction ts generalizing ys s with
  | nil =>
    cases ys <;> cases h
    rfl
  | cons t ts ih =>
    cases ys with
    | nil => cases h
    | cons y ys =>
      obtain ⟨s2, hput, hrest⟩ := bind_eq_some_iff.mp h
      exact (ih (fun u hu => hbase u (mem_cons_of_mem _ hu)) hrest).trans
        (put_home (hbase t mem_cons_self) hput)

theorem Indirect.apart_congr {val' : Fin n → Option Word} (h : ind.home val' = ind.home val) :
    ind.Apart val' ↔ ind.Apart val := by
  simp only [Indirect.Apart, homeOf_congr h]

section

variable (h : dirs.Agree big cached stale s s')
include h

theorem DirTemps.Agree.put_direct (hbase : ∀ g, ind.base g ≠ some t) (hdir : ¬ dirs.IsDir t) :
    dirs.Agree big cached stale { s with val := update s.val t y } { s' with val := update s'.val t y } := by
  have hhome : ind.home (update s.val t y) = ind.home s.val := home_update hbase
  refine ⟨?_, ?_, ?_, h.rest, h.trace⟩
  · intro u hu hudir
    by_cases heq : u = t
    · simp [heq]
    · simpa [heq] using h.val hu hudir
  · intro g hg hgc
    have hne : dirs.dir g ≠ t := fun heq => hdir ⟨g, hg, heq⟩
    have hvalue : ind.value big { s with val := update s.val t y } g = ind.value big s g :=
      value_congr hg hhome fun _ _ => rfl
    rw [hvalue, ← h.cached hg hgc]
    simp [State.read, hne]
  · intro b hb
    exact h.mem fun g hg hgb => hb g hg ((homeOf_congr hhome g b).mpr hgb)

/-- A write to a home against one to the direct temporary. -/
theorem DirTemps.Agree.put_home {v a : Word} (hapart : ind.Apart s.val) (ht : (ind.base t).isSome)
    (ha : ind.home s.val t = some a) :
    dirs.Agree big (fun g => cached g ∨ g = t) (fun g => stale g ∨ g = t)
      { s with world := (store big (ind.size t) a (lowBytes (ind.size t) v) s.world.1, s.world.2) }
      { s' with val := update s'.val (dirs.dir t) (some v) } := by
  set written :=
    { s with world := (store big (ind.size t) a (lowBytes (ind.size t) v) s.world.1, s.world.2) }
  have hother : ∀ g, (ind.base g).isSome → g ≠ t → ind.value big written g = ind.value big s g :=
    fun g hg hne => value_congr hg rfl fun b hb => store_of_not_covered fun hcov =>
      hapart t g (Ne.symm hne) b ⟨a, ha, hcov⟩ hb
  have hagree : dirs.Agree big (fun g => cached g ∧ g ≠ t) (fun g => stale g ∨ g = t)
      written s' := by
    refine ⟨h.val, ?_, ?_, h.rest, h.trace⟩
    · intro g hg ⟨hgc, hne⟩
      rw [h.cached hg hgc, hother g hg hne]
    · intro b hb
      have hcov : ¬ Covered a (ind.size t) b := fun hcov => hb t (.inr rfl) ⟨a, ha, hcov⟩
      exact (h.mem fun g hg => hb g (.inl hg)).trans (store_of_not_covered hcov).symm
  have hvalue : ind.value big written t = some ((ctx.ty t).norm v) := by
    simp only [written, value, ht, if_true, ha, map_some,
      load_store (size_le t) (by decide : 3 < 64), Option.some.injEq]
    rw [setWidth_lowBytes, size, Width.norm_lowBytes]
  have hcache : dirs.Agree big _ _ _ ⟨_, _, s'.trace ++ []⟩ :=
    hagree.cache (y := some v) ht (by rw [hvalue]; rfl) rfl
  rw [append_nil] at hcache
  refine hcache.mono (fun g _ hg => ?_) fun _ _ hg => hg
  by_cases heq : g = t
  · exact .inr heq
  · exact .inl ⟨hg.resolve_right heq, heq⟩

/-- One output on both sides. -/
theorem DirTemps.Agree.put (hapart : ind.Apart s.val) (hbase : ∀ g, ind.base g ≠ some t)
    (hdir : ¬ dirs.IsDir t) (hy : (ind.base t).isSome → y.isSome) (hput : ind.put big s t y = some s1) :
    ∃ s1', ind.put big s' (dirs.subst t) y = some s1' ∧
      dirs.Agree big (fun g => cached g ∨ g = t) (fun g => stale g ∨ g = t) s1 s1' ∧
      ((ind.base t).isSome → ∃ a, ind.home s1.val t = some a) := by
  by_cases ht : (ind.base t).isSome
  · obtain ⟨v, rfl⟩ := isSome_iff_exists.mp (hy ht)
    simp only [put, ht, if_true] at hput
    obtain ⟨a, ha, rfl⟩ := map_eq_some_iff.mp hput
    refine ⟨_, ?_, h.put_home hapart ht ha, fun _ => ⟨a, ha⟩⟩
    simp [put, subst, ht, dirs.base_dir ht]
  · have hs1 : s1 = { s with val := update s.val t y } := by
      cases y <;> (simp only [put, ht] at hput; cases hput; rfl)
    subst hs1
    refine ⟨{ s' with val := update s'.val t y }, ?_, ?_, fun hsome => absurd hsome ht⟩
    · cases y <;> simp [put, subst, ht]
    · refine (h.put_direct hbase hdir).mono (fun g hg hgc => ?_) fun _ _ hg => .inl hg
      exact hgc.resolve_right fun heq => ht (heq ▸ hg)

/-- All outputs on both sides. -/
theorem DirTemps.Agree.putAll (hapart : ind.Apart s.val) (hbase : ∀ t ∈ ts, ∀ g, ind.base g ≠ some t)
    (hdir : ∀ t ∈ ts, ¬ dirs.IsDir t) (hys : (∀ t ∈ ts, ind.base t = none) ∨ ∀ y ∈ ys, y.isSome)
    (hput : ind.putAll big ts ys s = some s1) :
    ∃ s1', ind.putAll big (ts.map dirs.subst) ys s' = some s1' ∧
      dirs.Agree big (fun g => cached g ∨ g ∈ ts) (fun g => stale g ∨ g ∈ ts) s1 s1' ∧
      ∀ t ∈ ts, (ind.base t).isSome → ∃ a, ind.home s1.val t = some a := by
  induction ts generalizing ys s s' cached stale with
  | nil =>
    cases ys with
    | nil =>
      cases hput
      exact ⟨s', rfl, h.mono (fun _ _ hg => by simpa using hg) fun _ _ hg => .inl hg, by simp⟩
    | cons y ys => cases hput
  | cons t ts ih =>
    cases ys with
    | nil => cases hput
    | cons y ys =>
      obtain ⟨s2, hput1, hput2⟩ := bind_eq_some_iff.mp hput
      have hy : (ind.base t).isSome → y.isSome := fun hsome => by
        rcases hys with hnone | hys
        · rw [hnone t mem_cons_self] at hsome
          cases hsome
        · exact hys y mem_cons_self
      obtain ⟨s2', hput1', hagree, hhome⟩ := h.put hapart (hbase t mem_cons_self)
        (hdir t mem_cons_self) hy hput1
      have hsame := Indirect.put_home (hbase t mem_cons_self) hput1
      have hapart2 : ind.Apart s2.val := (Indirect.apart_congr hsame).mpr hapart
      have hbase2 := fun u hu => hbase u (mem_cons_of_mem t hu)
      obtain ⟨s3', hput2', hagree', hhome'⟩ := ih hagree hapart2 hbase2
        (fun u hu => hdir u (mem_cons_of_mem _ hu))
        (hys.imp (fun hnone u hu => hnone u (mem_cons_of_mem _ hu))
          fun hys z hz => hys z (mem_cons_of_mem _ hz)) hput2
      refine ⟨s3', ?_, ?_, ?_⟩
      · rw [map_cons, putAll, hput1', bind_some, hput2']
      · refine hagree'.mono (fun g _ hg => ?_) fun g _ hg => ?_
        · rcases hg with hg | hg
          · exact .inl (.inl hg)
          · exact (mem_cons.mp hg).imp .inr id
        · rcases hg with (hg | hg) | hg
          · exact .inl hg
          · exact .inr (mem_cons.mpr (.inl hg))
          · exact .inr (mem_cons_of_mem _ hg)
      · intro u hu hsome
        rcases mem_cons.mp hu with rfl | hu
        · rw [putAll_home hbase2 hput2]
          exact hhome hsome
        · exact hhome' u hu hsome

end

end Outputs

/-- The same action, with surroundings related by `P`. -/
inductive Action.Paired {W : Type} (P : W → W → Prop) : Action n W → Action n W → Prop
  | assign (ys) {w w' : W} (h : P w w') : Paired P (.assign ys w) (.assign ys w')
  | helper (ys g) {w w' : W} (h : P w w') : Paired P (.helper ys g w) (.helper ys g w')
  | raise (g) {w w' : W} (h : P w w') : Paired P (.raise g w) (.raise g w')
  | endBlock (target) {w w' : W} (h : P w w') : Paired P (.endBlock target w) (.endBlock target w')
  | leave (e) {w w' : W} (h : P w w') : Paired P (.leave e w) (.leave e w')

variable {W : Type}

theorem Action.paired_mapWorld {P : W → W → Prop} {f f' : W → W}
    (h : ∀ w, P (f w) (f' w)) (act : Action n W) :
    Action.Paired P (act.mapWorld f) (act.mapWorld f') := by
  cases act with
  | assign ys w => exact .assign ys (h w)
  | helper ys g w => exact .helper ys g (h w)
  | raise g w => exact .raise g (h w)
  | endBlock target w => exact .endBlock target (h w)
  | leave e w => exact .leave e (h w)

/-- Surroundings behind an op: they differ in stale homes only, and the homes of cached globals are
as they were. -/
structure Indirect.Beside (ind : Indirect ctx) (cached stale : Fin n → Prop)
    (s : State n (Mem 64 × R)) (w w' : Mem 64 × R) : Prop where
  mem : ∀ {b}, (∀ g, stale g → ¬ ind.HomeOf s.val g b) → w'.1 b = w.1 b
  rest : w'.2 = w.2
  kept : ∀ {g}, (ind.base g).isSome → cached g → ∀ {b}, ind.HomeOf s.val g b → w.1 b = s.world.1 b

section Perform

variable {host : HostEnv n R} {cached stale : Fin n → Prop} {s s' : State n (Mem 64 × R)}
  {op : Op n}

variable {big : Bool}

theorem DirTemps.Agree.inHome (h : dirs.Agree big cached stale s s') (b : Word) :
    ind.InHome s'.val b ↔ ind.InHome s.val b := by
  unfold Indirect.InHome
  simp only [homeOf_congr h.home]

theorem DirTemps.Agree.seen (h : dirs.Agree big cached stale s s')
    (hlooks : op.looks = true → ∀ g, ¬ stale g) (hop : op.looks = true ∨ op.shielded = true) :
    ind.seen op s' = ind.seen op s := by
  by_cases hlook : op.looks = true
  · simp [Indirect.seen, hlook, h.world (hlooks hlook)]
  · have hhide : ¬ (op.looks = true ∨ op.shielded = false) := by
      simp [hlook, hop.resolve_left hlook]
    rw [Indirect.seen, Indirect.seen, if_neg hhide, if_neg hhide]
    refine Prod.ext (funext fun b => ?_) h.rest
    simp only [h.inHome b]
    by_cases hb : ind.InHome s.val b
    · simp [hb]
    · simpa [hb] using h.mem fun g _ hgb => hb ⟨g, hgb⟩

theorem Op.clobbers_of_not_shielded (hlook : op.looks = true) (hshield : op.shielded = false) :
    op.clobbers = true := by
  cases op with
  | call func flags oargs iargs => simpa [shielded, clobbers] using hshield
  | plain opc oargs iargs =>
    simp only [shielded] at hshield
    simpa [looks, clobbers, hshield] using hlook

/-- What such an op leaves. -/
theorem DirTemps.Agree.left {big : Bool} (h : dirs.Agree big cached stale s s')
    (hclob : op.clobbers = true → ∀ g, (ind.base g).isSome → ¬ cached g)
    (hop : op.looks = true ∨ op.shielded = true) (w : Mem 64 × R) :
    ind.Beside cached stale s (ind.left op s w) (ind.left op s' w) := by
  by_cases hshield : op.shielded = true
  · simp only [Indirect.left, hshield, if_true, h.inHome]
    refine ⟨fun {b} hb => ?_, rfl, fun {g} _ _ {b} hb => ?_⟩
    · by_cases hin : ind.InHome s.val b
      · simpa [hin] using h.mem hb
      · simp [hin]
    · have hin : ind.InHome s.val b := ⟨g, hb⟩
      simp [hin]
  · have hshield : op.shielded = false := by simpa using hshield
    have hlook : op.looks = true := hop.resolve_right (by simp [hshield])
    simp only [Indirect.left, hshield]
    refine ⟨fun _ => rfl, rfl, fun hg hgc => ?_⟩
    exact absurd hgc (hclob (Op.clobbers_of_not_shielded hlook hshield) _ hg)

/-- An op does the same in both runs. -/
theorem DirTemps.Agree.perform {xs : List Word} {act : Action n (Mem 64 × R)} {ev : List Event}
    (h : dirs.Agree host.big cached stale s s') (hlooks : op.looks = true → ∀ g, ¬ stale g)
    (hclob : op.clobbers = true → ∀ g, (ind.base g).isSome → ¬ cached g)
    (houtside : ∀ k a, op.access ctx.host xs = some (k, a) → ∀ b, Covered a k b → ¬ ind.InHome s.val b)
    (hperf : op.perform ctx.host host.env xs (ind.globals s) (ind.seen op s) = some (act, ev)) :
    ∃ act', op.perform ctx.host host.env xs (ind.globals s') (ind.seen op s') = some (act', ev) ∧
      Action.Paired (ind.Beside cached stale s) (act.mapWorld (ind.left op s))
        (act'.mapWorld (ind.left op s')) := by
  by_cases hop : op.looks = true ∨ op.shielded = true
  · refine ⟨act, ?_, paired_mapWorld (h.left hclob hop) act⟩
    rw [h.seen hlooks hop, h.globals, hperf]
  · obtain ⟨hlook, hshield⟩ : op.looks = false ∧ op.shielded = false := by
      simpa using hop
    cases op with
    | call func flags oargs iargs =>
      simp [looks, shielded, CallFlags.writesGlobals] at hlook hshield
      simp [hlook] at hshield
    | plain opc oargs iargs =>
      obtain ⟨hend, hse⟩ : opc.bbEnd = false ∧ opc.sideEffects = false := by
        simpa [looks] using hlook
      have hseen : ∀ s : State n (Mem 64 × R), ind.seen (.plain opc oargs iargs) s = s.world :=
        fun s => by simp [Indirect.seen, hshield]
      have hleft : ∀ s : State n (Mem 64 × R), ind.left (.plain opc oargs iargs) s = id :=
        fun s => by
          funext w
          simp [Indirect.left, hshield]
      rw [hseen] at hperf ⊢
      have hacc : ∀ k a, opc.access ctx.host xs = some (k, a) → ∀ b, Covered a k b →
          s'.world.1 b = s.world.1 b := fun k a hka b hb =>
        h.mem fun g _ hgb => houtside k a hka b hb ⟨g, hgb⟩
      obtain ⟨ys, v, v', rfl, hperf', hv, hv', hbytes⟩ := Opcode.perform_quiet host hend hse hperf hacc
      refine ⟨.assign ys v', ?_, ?_⟩
      · rw [h.globals]
        exact hperf'
      · rw [hleft, hleft]
        refine .assign ys ⟨fun {b} hb => ?_, ?_, fun {g} _ _ {b} hb => ?_⟩
        · rcases hbytes b with ⟨hvb, hvb'⟩ | ⟨-, hvb⟩
          · exact hvb'.trans ((h.mem hb).trans hvb.symm)
          · exact hvb
        · exact hv'.trans (h.rest.trans hv.symm)
        · rcases hbytes b with ⟨hvb, -⟩ | ⟨⟨k, a, hka, hcov⟩, -⟩
          · exact hvb
          · exact absurd ⟨g, hb⟩ (houtside k a hka b hcov)

end Perform

section Exec

variable {host : HostEnv n R} {cached stale : Fin n → Prop} {s s' : State n (Mem 64 × R)}
  {op : Op n}

section

variable (op : Op n)

@[simp] theorem DirTemps.substOp_ins :
    (dirs.substOp op).ins = op.ins.map dirs.subst := by
  cases op with
  | call func flags oargs iargs =>
    simp only [substOp, ins, filterMap_map, map_filterMap]
    rfl
  | plain opc oargs iargs => rfl

@[simp] theorem DirTemps.substOp_outs :
    (dirs.substOp op).outs = op.outs.map dirs.subst := by
  cases op <;> rfl

theorem DirTemps.substOp_perform {hst : Host} {env : Env n W} (op : Op n) :
    (dirs.substOp op).perform hst env = op.perform hst env := by
  cases op <;> rfl

theorem DirTemps.substOp_seen (s : State n (Mem 64 × R)) :
    ind.seen (dirs.substOp op) s = ind.seen op s := by
  cases op <;> rfl

theorem DirTemps.substOp_left (s : State n (Mem 64 × R)) :
    ind.left (dirs.substOp op) s = ind.left op s := by
  cases op <;> rfl

end

theorem Op.looks_of_clobbers (h : op.clobbers = true) : op.looks = true := by
  cases op with
  | call func flags oargs iargs =>
    simp only [clobbers, CallFlags.writesGlobals, Bool.not_eq_true', Bool.or_eq_false_iff] at h
    simp [looks, h.1]
  | plain opc oargs iargs =>
    simp only [clobbers] at h
    simp [looks, h]

theorem Op.clobbers_of_bbEnd (h : op.bbEnd = true) : op.clobbers = true := by
  cases op with
  | call func flags oargs iargs => cases h
  | plain opc oargs iargs => exact h

@[simp] theorem Action.results_mapWorld (f : W → W) (act : Action n W) :
    (act.mapWorld f).results = act.results := by
  cases act <;> rfl

theorem Action.allowed_mapWorld (f : Mem 64 × R → Mem 64 × R) {act : Action n (Mem 64 × R)}
    (h : act.Allowed op) : (act.mapWorld f).Allowed op := by
  cases act <;> exact h

/-- How an op ends in the two runs. -/
inductive DirTemps.NextAgree (dirs : DirTemps ind) (big : Bool) (outs : List (Fin n))
    (cached stale : Fin n → Prop) : Next n (Mem 64 × R) → Next n (Mem 64 × R) → Prop
  | fall {s s' : State n (Mem 64 × R)}
      (h : dirs.Agree big (fun g => cached g ∨ g ∈ outs) (fun g => stale g ∨ g ∈ outs) s s')
      (homes : ∀ t ∈ outs, (ind.base t).isSome → ∃ a, ind.home s.val t = some a) :
      NextAgree dirs big outs cached stale (.fall s) (.fall s')
  | jump (l) {s s' : State n (Mem 64 × R)}
      (h : dirs.Agree big (fun _ => False) (fun _ => False) s s') :
      NextAgree dirs big outs cached stale (.jump l s) (.jump l s')
  | exit (e) {s s' : State n (Mem 64 × R)}
      (h : dirs.Agree big (fun _ => False) (fun _ => False) s s') :
      NextAgree dirs big outs cached stale (.exit e s) (.exit e s')

variable {big : Bool}

section

variable (h : dirs.Agree big cached stale s s')
include h

variable {val val' : Fin n → Option Word} {w w' : Mem 64 × R}

/-- The states that an action leaves before the outputs are written. -/
theorem DirTemps.Agree.mid {ev : List Event} (hw : ind.Beside cached stale s w w')
    (hval : ∀ {t}, ind.base t = none → ¬ dirs.IsDir t → val' t = val t)
    (hsame : (val = s.val ∧ val' = s'.val) ∨ ((∀ g, (ind.base g).isSome → ¬ cached g) ∧ ∀ g, ¬ stale g)) :
    dirs.Agree big cached stale ⟨val, w, s.trace ++ ev⟩ ⟨val', w', s'.trace ++ ev⟩ := by
  refine ⟨hval, ?_, ?_, hw.rest, by simp [h.trace]⟩
  · intro g hg hgc
    rcases hsame with ⟨rfl, rfl⟩ | ⟨hnone, -⟩
    · have hvalue : ind.value big ⟨s.val, w, s.trace ++ ev⟩ g = ind.value big s g :=
        value_congr hg rfl fun b hb => hw.kept hg hgc hb
      rw [hvalue]
      exact h.cached hg hgc
    · exact absurd hgc (hnone g hg)
  · intro b hb
    rcases hsame with ⟨rfl, rfl⟩ | ⟨-, hnone⟩
    · exact hw.mem hb
    · exact hw.mem fun g hg => absurd hg (hnone g)

theorem DirTemps.Agree.withGlobals (g : Globals n) {t : Fin n} (ht : ind.base t = none)
    (hdir : ¬ dirs.IsDir t) :
    withGlobals ctx s'.val g t = withGlobals ctx s.val g t := by
  simp only [Tcg.withGlobals, h.val ht hdir]

theorem DirTemps.Agree.endOfBlock {t : Fin n} (ht : ind.base t = none) (hdir : ¬ dirs.IsDir t) :
    endOfBlock ctx s'.val t = endOfBlock ctx s.val t := by
  simp only [Tcg.endOfBlock, h.val ht hdir]

theorem DirTemps.Agree.leave (ev : List Event) (hw : ind.Beside cached stale s w w')
    (hval : ∀ {t}, ind.base t = none → ¬ dirs.IsDir t → val' t = val t) (hnone : ∀ g, ¬ stale g) :
    dirs.Agree big (fun _ => False) (fun _ => False) ⟨val, w, s.trace ++ ev⟩ ⟨val', w', s'.trace ++ ev⟩ where
  val := hval
  cached := fun _ hg => hg.elim
  mem := fun _ => hw.mem fun g hg => absurd hg (hnone g)
  rest := hw.rest
  trace := by simp [h.trace]

end

theorem mapM_subst {ts : List (Fin n)} {f g : Fin n → Option Word}
    (h : ∀ t ∈ ts, g (dirs.subst t) = f t) : (ts.map dirs.subst).mapM g = ts.mapM f := by
  induction ts with
  | nil => rfl
  | cons t ts ih =>
    rw [map_cons, mapM_cons, mapM_cons, h t mem_cons_self, ih fun u hu => h u (mem_cons_of_mem _ hu)]

/-- The op neither discards a global in host memory nor writes the base of one. -/
structure Indirect.Respects (ind : Indirect ctx) (op : Op n) : Prop where
  discard : ¬ ind.Discards op
  base : ∀ t ∈ op.outs, ∀ g, ind.base g ≠ some t

def Indirect.Outside (ind : Indirect ctx) (big : Bool) (op : Op n) (s : State n (Mem 64 × R)) :
    Prop :=
  ∀ xs, op.ins.mapM (ind.value big s) = some xs →
    ∀ k a, op.access ctx.host xs = some (k, a) → ∀ b, Covered a k b → ¬ ind.InHome s.val b

def DirTemps.Avoids (dirs : DirTemps ind) (op : Op n) : Prop :=
  (∀ t ∈ op.outs, ¬ dirs.IsDir t) ∧ ∀ t ∈ op.ins, ¬ dirs.IsDir t

/-- What the pass relies on in an op of the list. -/
structure DirTemps.Fine (dirs : DirTemps ind) (op : Op n) : Prop where
  shaped : op.Shaped
  avoids : dirs.Avoids op
  respects : ind.Respects op

/-- One op in both runs. -/
theorem DirTemps.Agree.exec {read : Fin n → Prop} {nx : Next n (Mem 64 × R)}
    (hread : dirs.Agree host.big read stale s s') (h : dirs.Agree host.big cached stale s s')
    (hins : ∀ t ∈ op.ins, (ind.base t).isSome → read t) (hlooks : op.looks = true → ∀ g, ¬ stale g)
    (hclob : op.clobbers = true → ∀ g, (ind.base g).isSome → ¬ cached g) (hfine : dirs.Fine op)
    (hout : ind.Outside host.big op s) (hapart : ind.Apart s.val)
    (hapart' : ∀ s1, nx = .fall s1 → ind.Apart s1.val) (hexec : ind.exec host op s = some nx) :
    ∃ nx', ind.exec host (dirs.substOp op) s' = some nx' ∧
      dirs.NextAgree host.big op.outs cached stale nx nx' := by
  obtain ⟨xs, hxs, hexec⟩ := bind_eq_some_iff.mp hexec
  obtain ⟨⟨act, ev⟩, hperf, hexec⟩ := bind_eq_some_iff.mp hexec
  obtain ⟨act', hperf', hpair⟩ := h.perform hlooks hclob (hout xs hxs) hperf
  have hallow := allowed_mapWorld (ind.left op s) (perform_allowed hperf)
  have hxs' : (op.ins.map dirs.subst).mapM (ind.value host.big s') = some xs := by
    rw [mapM_subst fun t ht => hread.value_subst (hfine.avoids.2 t ht) (hins t ht), hxs]
  simp only [Indirect.exec, DirTemps.substOp_ins, DirTemps.substOp_outs, hxs', bind_some,
    DirTemps.substOp_perform, DirTemps.substOp_seen, DirTemps.substOp_left, hperf']
  simp only [← Action.results_mapWorld (ind.left op s) act] at hexec
  simp only [← results_mapWorld (ind.left op s') act']
  generalize act.mapWorld (ind.left op s) = m at hexec hpair hallow
  generalize act'.mapWorld (ind.left op s') = m' at hpair
  cases hpair with
  | assign ys hw =>
    obtain ⟨s1, hput, rfl⟩ := map_eq_some_iff.mp hexec
    have hmid : dirs.Agree host.big cached stale ⟨s.val, _, s.trace ++ ev⟩ _ :=
      h.mid hw h.val (.inl ⟨rfl, rfl⟩)
    have hys : (∀ t ∈ op.outs, ind.base t = none) ∨ ∀ y ∈ ys, y.isSome := by
      by_cases hdis : op.isDiscard = true
      · refine .inl fun t ht => ?_
        by_contra hsome
        exact hfine.respects.discard ⟨hdis, t, ht, isSome_iff_ne_none.mpr hsome⟩
      · exact .inr (hallow (by simpa using hdis))
    obtain ⟨s1', hput', hagree, hhomes⟩ := hmid.putAll hapart hfine.respects.base hfine.avoids.1 hys hput
    refine ⟨.fall s1', ?_, .fall hagree hhomes⟩
    simp only [apply, results, writeAll]
    rw [hput']
    rfl
  | helper ys g hw =>
    obtain ⟨hop, -, hys⟩ := hallow
    obtain ⟨s1, hput, rfl⟩ := map_eq_some_iff.mp hexec
    have hmid : dirs.Agree host.big cached stale ⟨Tcg.withGlobals ctx s.val g, _, s.trace ++ ev⟩
        ⟨Tcg.withGlobals ctx s'.val g, _, _⟩ :=
      h.mid hw (h.withGlobals g) (.inr ⟨hclob hop, hlooks (looks_of_clobbers hop)⟩)
    have hapart1 := (apart_congr (putAll_home hfine.respects.base hput)).mp (hapart' s1 rfl)
    obtain ⟨s1', hput', hagree, hhomes⟩ :=
      hmid.putAll hapart1 hfine.respects.base hfine.avoids.1 (.inr hys) hput
    refine ⟨.fall s1', ?_, .fall hagree hhomes⟩
    simp only [apply, results, writeAll]
    rw [hput']
    rfl
  | raise g hw =>
    cases hexec
    refine ⟨_, rfl, .exit _ ?_⟩
    exact h.leave ev hw (h.withGlobals g) (hlooks hallow)
  | endBlock target hw =>
    have hop := clobbers_of_bbEnd hallow
    have hagree := h.leave ev hw h.endOfBlock (hlooks (looks_of_clobbers hop))
    cases target with
    | none =>
      have houts := hfine.shaped.ends hallow
      simp only [apply, results, houts] at hexec ⊢
      cases hexec
      refine ⟨_, rfl, .fall (hagree.mono (fun g hg hgc => ?_) fun _ _ hg => hg.elim) (by simp)⟩
      exact hclob hop g hg (by simpa using hgc)
    | some l =>
      cases hexec
      exact ⟨_, rfl, .jump l hagree⟩
  | leave e hw =>
    have hop := looks_of_clobbers (clobbers_of_bbEnd hallow)
    cases hexec
    exact ⟨_, rfl, .exit e (h.leave ev hw h.endOfBlock (hlooks hop))⟩

end Exec

end TcgArm.Tcg
