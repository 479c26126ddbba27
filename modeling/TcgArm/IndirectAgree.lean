import TcgArm.IndirectOps

/-! What an op leaves in the two runs, and that the states still agree. -/

namespace TcgArm.Tcg

open BitVec ByteMemory List Option Width

def Event.outward : Event → Bool
  | .load _ _ | .store _ _ _ => false
  | _ => true

variable {n : Nat} {R : Type} {ctx : Ctx n} {ind : Indirect ctx} {dirs : DirTemps ind}
  {val val' : Fin n → Option Word} {big : Bool}

def Indirect.Apart (ind : Indirect ctx) (val : Fin n → Option Word) : Prop :=
  ∀ g h, g ≠ h → ∀ b, ind.HomeOf val g b → ¬ ind.HomeOf val h b

def DirTemps.IsDir (dirs : DirTemps ind) (t : Fin n) : Prop :=
  ∃ g, (ind.base g).isSome ∧ dirs.dir g = t

/-- The second state has the globals of the first in their homes or their direct temporaries. -/
structure DirTemps.Agree (dirs : DirTemps ind) (big : Bool) (cached stale : Fin n → Prop)
    (s s' : State n (Mem 64 × R)) : Prop where
  val : ∀ {t}, ind.base t = none → ¬ dirs.IsDir t → s'.val t = s.val t
  cached : ∀ {g}, (ind.base g).isSome → cached g → s'.read ctx (dirs.dir g) = ind.value big s g
  mem : ∀ {b}, (∀ g, stale g → ¬ ind.HomeOf s.val g b) → s'.world.1 b = s.world.1 b
  rest : s'.world.2 = s.world.2
  trace : s'.trace.filter Event.outward = s.trace.filter Event.outward

theorem DirTemps.base_dir (dirs : DirTemps ind) {g : Fin n} (hg : (ind.base g).isSome) : ind.base (dirs.dir g) = none := by
  by_contra hsome
  obtain ⟨b, hb⟩ := ne_none_iff_exists'.mp hsome
  have htemp := dirs.temp hg
  simp [Ctx.persists, ind.global hb] at htemp

theorem DirTemps.not_isDir_of_isGlobal {t : Fin n} (ht : ctx.isGlobal t = true) : ¬ dirs.IsDir t := by
  rintro ⟨g, hg, rfl⟩
  have htemp := dirs.temp hg
  simp [Ctx.persists, ht] at htemp

theorem Indirect.home_congr
    (h : ∀ {g b}, ind.base g = some b → val' b = val b) : ind.home val' = ind.home val := by
  funext t
  unfold Indirect.home
  cases hb : ind.base t with
  | none => rfl
  | some b => simp [readVal, h hb]

theorem Indirect.homeOf_congr (h : ind.home val' = ind.home val)
    (t : Fin n) (b : Word) : ind.HomeOf val' t b ↔ ind.HomeOf val t b := by
  unfold Indirect.HomeOf
  rw [h]

theorem Width.norm_norm (w : Width) (v : Word) : w.norm (w.norm v) = w.norm v := by
  cases w with
  | w32 =>
    apply eq_of_getLsbD_eq
    intro i hi
    simp [norm, getLsbD_setWidth]
  | w64 => rfl

/-- A value of `bits` bits is that of its low bytes. -/
theorem Width.norm_lowBytes (w : Width) (v : Word) : w.norm (lowBytes (w.bits / 8) v) = w.norm v := by
  cases w with
  | w32 =>
    apply eq_of_getLsbD_eq
    intro i hi
    simp [norm, bits, lowBytes, getLsbD_setWidth]
  | w64 => simp [norm, bits, lowBytes]

theorem Width.lowBytes_norm (w : Width) (v : Word) :
    lowBytes (w.bits / 8) (w.norm v) = lowBytes (w.bits / 8) v := by
  cases w with
  | w32 =>
    apply eq_of_getLsbD_eq
    intro i hi
    simp [norm, bits, lowBytes, getLsbD_setWidth]
  | w64 => simp [norm]

theorem Indirect.size_le (t : Fin n) : ind.size t ≤ 8 := by
  unfold Indirect.size
  cases ctx.ty t <;> simp [bits]

theorem Indirect.value_congr {s s' : State n (Mem 64 × R)} {g : Fin n}
    (hbase : (ind.base g).isSome) (hhome : ind.home s'.val = ind.home s.val)
    (hmem : ∀ b, ind.HomeOf s.val g b → s'.world.1 b = s.world.1 b) :
    ind.value big s' g = ind.value big s g := by
  simp only [Indirect.value, hbase, if_true, hhome]
  cases ha : ind.home s.val g with
  | none => rfl
  | some a =>
    rw [Option.map_some, Option.map_some, load_congr fun b hb => hmem b ⟨a, ha, hb⟩]

theorem Indirect.HomeOf.base {val : Fin n → Option Word} {g : Fin n} {b : Word}
    (h : ind.HomeOf val g b) : (ind.base g).isSome := by
  obtain ⟨a, ha, -⟩ := h
  obtain ⟨c, hc, -⟩ := bind_eq_some_iff.mp ha
  simp [hc]

namespace DirTemps.Agree

variable {big : Bool} {cached stale : Fin n → Prop} {s s' : State n (Mem 64 × R)}

section

variable (h : dirs.Agree big cached stale s s')
include h

theorem mono {cached' stale' : Fin n → Prop} (hcached : ∀ g, (ind.base g).isSome → cached' g → cached g)
    (hstale : ∀ g, (ind.base g).isSome → stale g → stale' g) :
    dirs.Agree big cached' stale' s s' where
  val := h.val
  cached := fun hbase hg => h.cached hbase (hcached _ hbase hg)
  mem := fun hb => h.mem fun g hg hgb => hb g (hstale g hgb.base hg) hgb
  rest := h.rest
  trace := h.trace

theorem home : ind.home s'.val = ind.home s.val :=
  Indirect.home_congr fun hb => h.val (ind.direct hb) (not_isDir_of_isGlobal (ind.baseGlobal hb))

theorem read_of_direct {t : Fin n} (ht : ind.base t = none) (hdir : ¬ dirs.IsDir t) :
    s'.read ctx t = s.read ctx t := by
  rw [State.read, State.read, h.val ht hdir]

theorem value_subst {t : Fin n} (hdir : ¬ dirs.IsDir t) (ht : (ind.base t).isSome → cached t) :
    ind.value big s' (dirs.subst t) = ind.value big s t := by
  by_cases hbase : (ind.base t).isSome
  · have hdirect := dirs.base_dir hbase
    rw [subst, if_pos hbase, Indirect.value, if_neg (by simp [hdirect]), h.cached hbase (ht hbase)]
  · have hnone : ind.base t = none := by simpa using hbase
    rw [subst, if_neg hbase, Indirect.value, Indirect.value, if_neg hbase, if_neg hbase,
      h.read_of_direct hnone hdir]

theorem globals : ind.globals s' = ind.globals s := by
  funext t
  unfold Indirect.globals
  split
  · rename_i ht
    exact h.read_of_direct ht.2 (not_isDir_of_isGlobal ht.1)
  · rfl

theorem mem_of_homeOf {g : Fin n} {b : Word} (hapart : ind.Apart s.val) (hg : ¬ stale g)
    (hb : ind.HomeOf s.val g b) :
    s'.world.1 b = s.world.1 b := by
  refine h.mem fun k hk hkb => ?_
  have hne : g ≠ k := fun heq => hg (heq ▸ hk)
  exact hapart g k hne b hb hkb

theorem world (hnone : ∀ g, ¬ stale g) : s'.world = s.world :=
  Prod.ext (funext fun _ => h.mem fun g hg => absurd hg (hnone g)) h.rest

/-- A direct temporary gets the value of its global. -/
theorem cache {g : Fin n} {y : Option Word} {events : List Event} (hg : (ind.base g).isSome)
    (hy : y.map (ctx.ty g).norm = ind.value big s g) (hev : events.filter Event.outward = []) :
    dirs.Agree big (fun k => cached k ∨ k = g) stale s
      ⟨Function.update s'.val (dirs.dir g) y, s'.world, s'.trace ++ events⟩ where
  val := by
    intro t ht hdir
    have hne : t ≠ dirs.dir g := fun heq => hdir ⟨g, hg, heq.symm⟩
    simpa [hne] using h.val ht hdir
  cached := by
    intro k hk hkg
    by_cases heq : k = g
    · subst heq
      simp [State.read, dirs.ty hg, hy]
    · have hne : dirs.dir k ≠ dirs.dir g := fun hdir => heq (dirs.inj hk hg hdir)
      simpa [State.read, hne] using h.cached hk (hkg.resolve_right heq)
  mem := h.mem
  rest := h.rest
  trace := by simp [hev, h.trace]

end

end DirTemps.Agree

def Indirect.fall (ind : Indirect ctx) (host : HostEnv n R) (op : Op n)
    (s : State n (Mem 64 × R)) : Option (State n (Mem 64 × R)) :=
  match ind.exec host op s with
  | some (.fall s') => some s'
  | _ => none

section Inserted

variable {host : HostEnv n R} {cached stale : Fin n → Prop} {s s' : State n (Mem 64 × R)}
  {g b : Fin n}

theorem value_base {g b : Fin n} (hb : ind.base g = some b)
    (s : State n (Mem 64 × R)) : ind.value big s b = s.read ctx b := by
  simp [Indirect.value, ind.direct hb]

theorem value_eq_some {big : Bool} {g b : Fin n} {v : Word} (hb : ind.base g = some b)
    (hv : ind.value big s g = some v) :
    ∃ a, s.read ctx b = some a ∧ ind.home s.val g = some (hostAddr ctx.host a (ind.offset g)) ∧
      v = (ctx.ty g).norm (load big (ind.size g) (hostAddr ctx.host a (ind.offset g)) s.world.1) := by
  simp only [Indirect.value, hb, isSome_some, if_true] at hv
  obtain ⟨a, ha, rfl⟩ := map_eq_some_iff.mp hv
  simp only [Indirect.home, hb, Option.bind_some] at ha
  obtain ⟨x, hx, rfl⟩ := map_eq_some_iff.mp ha
  refine ⟨x, hx, ?_, rfl⟩
  simp [Indirect.home, hb, hx]

theorem fall_loadOp {a : Word} (hg : (ind.base g).isSome) (ha : ind.value host.big s b = some a) :
    ind.fall host (dirs.loadOp g b) s = some ⟨Function.update s.val (dirs.dir g) (some ((ctx.ty g).norm
          (load host.big (ind.size g) (hostAddr ctx.host a (ind.offset g)) s.world.1))),
        s.world, s.trace ++ [.load (ind.size g) (hostAddr ctx.host a (ind.offset g))]⟩ := by
  have hdirect := dirs.base_dir hg
  simp only [Indirect.fall, Indirect.exec, DirTemps.loadOp, Op.ins, mapM_cons, mapM_nil,
    ha, Option.pure_def, Option.bind_eq_bind, Option.bind_some, Op.perform, Opcode.perform,
    Indirect.seen, Op.looks, Op.shielded, Opcode.bbEnd, Opcode.sideEffects, host.load_eq,
    Option.map_some, Action.mapWorld, Action.apply, Indirect.left, writeAll, Action.results,
    Op.outs, Indirect.putAll, Indirect.put, hdirect, LoadKind.extend, LoadKind.bytes,
    Indirect.size]
  rfl

theorem fall_storeOp {a v : Word} (ha : ind.value host.big s b = some a)
    (hv : ind.value host.big s (dirs.dir g) = some v) :
    ind.fall host (dirs.storeOp g b) s =
      some ⟨s.val, (store host.big (ind.size g) (hostAddr ctx.host a (ind.offset g))
          (lowBytes (ind.size g) v) s.world.1, s.world.2),
        s.trace ++ [.store (ind.size g) (hostAddr ctx.host a (ind.offset g)) (lowBytes (ind.size g) v)]⟩ := by
  simp only [Indirect.fall, Indirect.exec, DirTemps.storeOp, Op.ins, mapM_cons, mapM_nil,
    ha, hv, Option.pure_def, Option.bind_eq_bind, Option.bind_some, Op.perform, Opcode.perform,
    Indirect.seen, Op.looks, Op.shielded, Opcode.bbEnd, Opcode.sideEffects, host.store_eq,
    Option.map_some, Action.mapWorld, Action.apply, Indirect.left, writeAll, Action.results,
    Op.outs, Indirect.putAll, StoreKind.bytes, Indirect.size]
  rfl

section

variable (h : dirs.Agree host.big cached stale s s')
include h

/-- The load in front of a use. -/
theorem DirTemps.Agree.loadOp {g b : Fin n} {v : Word} (hapart : ind.Apart s.val)
    (hb : ind.base g = some b) (hg : ¬ stale g) (hv : ind.value host.big s g = some v) :
    ∃ s'', ind.fall host (dirs.loadOp g b) s' = some s'' ∧
      dirs.Agree host.big (fun k => cached k ∨ k = g) stale s s'' := by
  obtain ⟨a, ha, hhome, rfl⟩ := value_eq_some hb hv
  have hbase : (ind.base g).isSome := by simp [hb]
  have hread : ind.value host.big s' b = some a := by
    rw [value_base hb, h.read_of_direct (ind.direct hb) (not_isDir_of_isGlobal (ind.baseGlobal hb)), ha]
  have hload : load host.big (ind.size g) (hostAddr ctx.host a (ind.offset g)) s'.world.1 =
      load host.big (ind.size g) (hostAddr ctx.host a (ind.offset g)) s.world.1 :=
    load_congr fun x hx => h.mem_of_homeOf hapart hg ⟨_, hhome, hx⟩
  refine ⟨_, fall_loadOp hbase hread, h.cache hbase ?_ (by simp [Event.outward])⟩
  rw [hload, Option.map_some, norm_norm, hv]

/-- The store behind a write. -/
theorem DirTemps.Agree.storeOp {g b : Fin n} {v : Word} (hb : ind.base g = some b) (hg : cached g)
    (hv : ind.value host.big s g = some v) :
    ∃ s'', ind.fall host (dirs.storeOp g b) s' = some s'' ∧
      dirs.Agree host.big cached (fun k => stale k ∧ k ≠ g) s s'' := by
  obtain ⟨a, ha, hhome, hval⟩ := value_eq_some hb hv
  have hbase : (ind.base g).isSome := by simp [hb]
  have hread : ind.value host.big s' b = some a := by
    rw [value_base hb, h.read_of_direct (ind.direct hb) (not_isDir_of_isGlobal (ind.baseGlobal hb)), ha]
  have hdir : ind.value host.big s' (dirs.dir g) = some v := by
    rw [Indirect.value, if_neg (by simp [dirs.base_dir hbase]), h.cached hbase hg, hv]
  refine ⟨_, fall_storeOp hread hdir, ⟨h.val, h.cached, ?_, h.rest, ?_⟩⟩
  · intro x hx
    by_cases hcov : Covered (hostAddr ctx.host a (ind.offset g)) (ind.size g) x
    · have hlow : lowBytes (ind.size g) v =
          load host.big (ind.size g) (hostAddr ctx.host a (ind.offset g)) s.world.1 := by
        rw [hval, Indirect.size, lowBytes_norm]
        exact load_fits
      rw [hlow]
      exact store_load _ (Indirect.size_le g) hcov
    · refine (store_of_not_covered hcov).trans (h.mem fun k hk hkx => ?_)
      by_cases heq : k = g
      · subst heq
        obtain ⟨a', ha', hcov'⟩ := hkx
        rw [mem_def, hhome, Option.some.injEq] at ha'
        exact hcov (ha' ▸ hcov')
      · exact hx k ⟨hk, heq⟩ hkx
  · simp [Event.outward, h.trace]

variable {ts : List (Fin n)}

/-- All the loads in front of an op. -/
theorem DirTemps.Agree.loadIns {st : Marks n} (hapart : ind.Apart s.val)
    (hcached : ∀ g, (ind.base g).isSome → st g ≠ tsDead → cached g)
    (hstale : ∀ g ∈ ts, st g = tsDead → ¬ stale g) (hval : ∀ g ∈ ts, ∃ v, ind.value host.big s g = some v) :
    SeqCode.Ends (ind.fall host) (dirs.loadIns ts st).1
      (dirs.Agree host.big
        (fun g => (ind.base g).isSome ∧ (dirs.loadIns ts st).2 g ≠ tsDead) stale s) s' := by
  induction ts generalizing st s' cached with
  | nil => exact SeqCode.ends_nil (h.mono (fun g hbase hg => hcached g hbase hg.2) fun _ _ hg => hg)
  | cons t ts ih =>
    have hval' : ∀ g ∈ ts, ∃ v, ind.value host.big s g = some v := fun g hg => hval g (mem_cons_of_mem _ hg)
    have hstale' : ∀ g ∈ ts, st g = tsDead → ¬ stale g := fun g hg => hstale g (mem_cons_of_mem _ hg)
    rw [DirTemps.loadIns]
    cases hb : ind.base t with
    | none => exact ih h hcached hstale' hval'
    | some b =>
      by_cases hdead : st t = tsDead
      · simp only [hdead, if_true]
        obtain ⟨v, hv⟩ := hval t mem_cons_self
        obtain ⟨s1, hfall, hagree⟩ := h.loadOp hapart hb (hstale t mem_cons_self hdead) hv
        refine SeqCode.Ends.append (SeqCode.ends_single hfall hagree) fun s2 hs2 => ?_
        refine ih hs2 ?_ ?_ hval'
        · intro g hbase hg
          by_cases heq : g = t
          · exact .inr heq
          · exact .inl (hcached g hbase (by simpa [heq] using hg))
        · intro g hg hgd
          by_cases heq : g = t
          · subst heq
            simp [tsMem, tsDead] at hgd
          · exact hstale' g hg (by simpa [heq] using hgd)
      · simp only [hdead, if_false]
        exact ih h hcached hstale' hval'

/-- All the stores behind an op. -/
theorem DirTemps.Agree.storeOuts {ms : List Mark} {st : Marks n}
    (hcached : ∀ g ∈ ts, (ind.base g).isSome → cached g ∧ ∃ v, ind.value host.big s g = some v) :
    SeqCode.Ends (ind.fall host) (dirs.storeOuts ts ms st).1
      (dirs.Agree host.big cached
        (fun g => stale g ∧ ((ind.base g).isSome → ∀ m, (g, m) ∈ ts.zip ms → m.mem = false)) s)
      s' := by
  induction ts generalizing ms st s' stale with
  | nil =>
    refine SeqCode.ends_nil (h.mono (fun _ _ hg => hg) fun g _ hg => ⟨hg, by simp⟩)
  | cons t ts ih =>
    cases ms with
    | nil => exact SeqCode.ends_nil (h.mono (fun _ _ hg => hg) fun g _ hg => ⟨hg, by simp⟩)
    | cons m ms =>
      have hrest := fun st' : Marks n => @ih stale s' h ms st' fun g hg => hcached g (mem_cons_of_mem t hg)
      rw [DirTemps.storeOuts]
      cases hb : ind.base t with
      | none =>
        refine (hrest st).mono fun s1 hs1 => hs1.mono (fun _ _ hg => hg) fun g _ hg => ?_
        refine ⟨hg.1, fun hbase m' hm' => ?_⟩
        rcases mem_cons.mp hm' with heq | htail
        · cases heq
          simp [hb] at hbase
        · exact hg.2 hbase m' htail
      | some b =>
        by_cases hmem : m.mem = true
        · simp only [hmem, if_true]
          refine SeqCode.Ends.append (hrest _) fun s1 hs1 => ?_
          obtain ⟨hc, v, hv⟩ := hcached t mem_cons_self (by simp [hb])
          obtain ⟨s2, hfall, hagree⟩ := hs1.storeOp hb hc hv
          refine SeqCode.ends_single hfall (hagree.mono (fun _ _ hg => hg) fun g _ hg => ?_)
          refine ⟨hg.1.1, fun hbase m' hm' => ?_⟩
          rcases mem_cons.mp hm' with heq | htail
          · cases heq
            exact absurd rfl hg.2
          · exact hg.1.2 hbase m' htail
        · simp only [hmem]
          refine (hrest _).mono fun s1 hs1 => hs1.mono (fun _ _ hg => hg) fun g _ hg => ?_
          refine ⟨hg.1, fun hbase m' hm' => ?_⟩
          rcases mem_cons.mp hm' with heq | htail
          · cases heq
            simpa using hmem
          · exact hg.2 hbase m' htail

end

end Inserted

end TcgArm.Tcg
