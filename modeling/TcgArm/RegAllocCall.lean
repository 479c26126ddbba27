import TcgArm.RegAllocSound

/-! The moves before a call: the arguments are stored to their stack words and moved to their
registers one after the other, while the temporaries in the way are freed. What has been placed
stays placed, and in the end no temporary is left in a register that the call may change. -/

namespace TcgArm.RegAlloc

open List

/-- Where the stack word `k` of a call lies. -/
def Target.stackWord (T : Target) (k : Nat) : Int :=
  if T.stackGrowsUp then T.callStackOffset - (k + 1) * T.wordBytes
  else T.callStackOffset + k * T.wordBytes

/-- The bytes of the first `n` stack words. -/
def Target.argArea (T : Target) (n : Nat) (b : Reg) (o : Int) : Prop :=
  b = T.callStack ∧ ∃ k < n, T.stackWord k ≤ o ∧ o < T.stackWord k + T.wordBytes

/-- Stack words do not overlap. -/
theorem Target.stackWord_apart {T : Target} {j k : Nat} (hjk : j ≠ k) {o : Int}
    (hj : T.stackWord j ≤ o ∧ o < T.stackWord j + T.wordBytes) :
    ¬ (T.stackWord k ≤ o ∧ o < T.stackWord k + T.wordBytes) := by
  have hmul : ∀ {a b : Nat}, a < b → ((a : Int) + 1) * T.wordBytes ≤ b * T.wordBytes := by
    intro a b hab
    exact mul_le_mul_of_nonneg_right (by exact_mod_cast hab) (by positivity)
  simp only [stackWord] at hj ⊢
  rcases Nat.lt_or_gt_of_ne hjk with hlt | hlt
  all_goals
    have := hmul hlt
    rw [Int.add_mul, Int.one_mul] at this
    split_ifs at hj ⊢
    · rw [Int.add_mul, Int.one_mul] at hj ⊢
      omega
    · omega

/-- What is known while the arguments are placed: the temporaries whose values are still wanted, the
stack words and the registers that have their argument. -/
structure Stage where
  live : Set Nat
  stack : Set (Nat × Nat)
  regs : Set (Reg × Nat)

/-- The machine has what the stage says. -/
structure Stage.At (T : Target) (V : Nat → BitVec 64) (types : Nat → TcgType) (σ : Stage) (s : Ctx)
    (m : Machine) : Prop where
  sound : s.Sound T V σ.live m
  stack : ∀ k t, (k, t) ∈ σ.stack →
    Agree (types t) (m.load T.bigEndian (types t) T.callStack (T.stackWord k)) (V t)
  regs : ∀ r t, (r, t) ∈ σ.regs → Agree (types t) (m.regs r) (V t)

/-- The instructions emitted between two states of the allocator lead from one stage to another. -/
structure Leads (T : Target) (V : Nat → BitVec 64) (types : Nat → TcgType) (n : Nat) (σ : Stage)
    (s : Ctx) (σ' : Stage) (s' : Ctx) : Prop where
  wf : s'.Wf T (T.argArea n)
  typed : ∀ t, (s'.temps t).type = types t
  code : ∃ ops, s'.code = s.code ++ ops ∧ ∀ m m', σ.At T V types s m → Runs T ops m m' → σ'.At T V types s' m'

section Leads

variable {T : Target} {V : Nat → BitVec 64} {types : Nat → TcgType} {n : Nat}
variable {σ σ' σ'' : Stage} {s s' s'' : Ctx}

theorem Leads.refl (hwf : s.Wf T (T.argArea n)) (htypes : ∀ t, (s.temps t).type = types t) :
    Leads T V types n σ s σ s := by
  refine ⟨hwf, htypes, [], (append_nil _).symm, fun m m' hat hrun => ?_⟩
  obtain rfl : m' = m := hrun
  exact hat

theorem Leads.trans (h : Leads T V types n σ s σ' s') (h' : Leads T V types n σ' s' σ'' s'') :
    Leads T V types n σ s σ'' s'' := by
  obtain ⟨ops, hcode, hops⟩ := h.code
  obtain ⟨ops', hcode', hops'⟩ := h'.code
  refine ⟨h'.wf, h'.typed, ops ++ ops', by rw [hcode', hcode, append_assoc], fun m m' hat hrun => ?_⟩
  obtain ⟨m1, hrun, hrun'⟩ := runs_append.mp hrun
  exact hops' m1 m' (hops m m1 hat hrun) hrun'

/-- Steps that keep what has been placed. -/
theorem Leads.of_steps {keep : Reg → Prop} (htypes : ∀ t, (s.temps t).type = types t)
    (h : Ctx.Steps T V σ.live (T.argArea n) keep (T.argArea n) s s')
    (hstack : ∀ k t, (k, t) ∈ σ.stack → k < n) (hregs : ∀ r t, (r, t) ∈ σ.regs → keep r) :
    Leads T V types n σ s σ s' := by
  obtain ⟨ops, hcode, hops⟩ := h.code
  refine ⟨h.wf, fun t => (h.type t).trans (htypes t), ops, hcode, fun m m' hat hrun => ?_⟩
  obtain ⟨hsound, hkeep, hmem⟩ := hops m m' hat.sound hrun
  refine ⟨hsound, fun k t hk => ?_, fun r t hr => ?_⟩
  · rw [Machine.load_congr]
    · exact hat.stack k t hk
    · rintro b o ⟨hb, hlow, hhigh⟩
      have hbytes := h.wf.bytes_le t
      rw [h.type, htypes] at hbytes
      exact hmem b o ⟨hb, k, hstack k t hk, hlow, by omega⟩
  · rw [hkeep r (hregs r t hr)]
    exact hat.regs r t hr

end Leads

namespace Ctx

variable {T : Target} {V : Nat → BitVec 64} {types : Nat → TcgType} {n fuel : Nat}
variable {σ : Stage} {s s' : Ctx}

variable {area : Reg → Int → Prop}

theorem Wf.emit (h : s.Wf T area) (op : HostOp) : (s.emit op).Wf T area :=
  ⟨h.reg_temp, h.temp_reg, h.fixed, h.bytes_le, h.apart, h.frame, h.area_slot, h.area_frame⟩

variable {t : Nat} {r : Reg}

/-- The register of a temporary is stored to a stack word that is still empty. -/
theorem storeArg_leads (hT : T.Valid) (h : s.Wf T (T.argArea n))
    (htypes : ∀ t, (s.temps t).type = types t) {k : Nat} (hk : k < n)
    (hnew : ∀ j t, (j, t) ∈ σ.stack → j ≠ k) (hregs : σ.regs = ∅)
    (hval : (s.temps t).val = .reg r) (ht : t ∈ σ.live) :
    Leads T V types n σ s { σ with stack := insert (k, t) σ.stack }
      (s.emit (.st (s.temps t).type r T.callStack (T.stackWord k))) := by
  refine ⟨h.emit _, htypes, _, rfl, fun m m' hat hrun => ?_⟩
  obtain ⟨hkeep, hmem⟩ := runs_singleton.mp hrun
  have hbytes := h.bytes_le t
  have hslot : ∀ x, (s.temps x).memAllocated = true → ∀ b o, (s.temps x).InSlot b o →
      m'.mem b o = m.mem b o := by
    intro x hx b o hin
    rw [hmem]
    refine Machine.store_of_not_inSlot fun hword => h.area_slot x b o hx hin ?_
    obtain ⟨hb, hlow, hhigh⟩ := hword
    exact ⟨hb, k, hk, hlow, by omega⟩
  have hvalue : Agree (types t) (m.regs r) (V t) := by
    have hvalue := hat.sound.value t ht
    rw [Temp.HasValue, htypes] at hvalue
    simpa only [hval] using hvalue
  refine ⟨⟨fun x hx => ?_, fun x hx hfixed hcoh => ?_⟩, fun j x hj => ?_, fun r' x hr => ?_⟩
  · exact (hat.sound.value x hx).congr (fun r' hr' => hkeep r' (h.not_scratch hT hr')) (hslot x)
  · have hholds := hat.sound.coherent x hx hfixed hcoh
    exact hholds.congr (hslot x hholds.1)
  · rcases hj with hj | hj
    · obtain ⟨rfl, rfl⟩ := Prod.ext_iff.mp hj
      rw [htypes] at hmem
      exact (Machine.load_store hmem).trans hvalue
    · rw [Machine.load_congr]
      · exact hat.stack j x hj
      · rintro b o ⟨hb, hlow, hhigh⟩
        rw [hmem]
        refine Machine.store_of_not_inSlot fun hword => ?_
        obtain ⟨-, hlow', hhigh'⟩ := hword
        have hbytes' := h.bytes_le x
        rw [htypes] at hbytes'
        exact Target.stackWord_apart (hnew j x hj) ⟨hlow, by omega⟩ ⟨hlow', by omega⟩
  · rw [hregs] at hr
    exact absurd hr (Set.notMem_empty _)

/-- The stack words from `k` on, for the arguments given. -/
def stackSet (args : List (Option Nat)) (k : Nat) : Set (Nat × Nat) :=
  { p | ∃ i, p.1 = k + i ∧ args[i]? = some (some p.2) }

theorem stackSet_cons (arg : Option Nat) (args : List (Option Nat)) (k : Nat) :
    stackSet (arg :: args) k = { p | p.1 = k ∧ arg = some p.2 } ∪ stackSet args (k + 1) := by
  ext ⟨j, t⟩
  simp only [stackSet, Set.mem_ofPred_eq, Set.mem_union]
  constructor
  · rintro ⟨i, hi, harg⟩
    cases i with
    | zero => exact .inl ⟨hi, by simpa using harg⟩
    | succ i => exact .inr ⟨i, by omega, by simpa using harg⟩
  · rintro (⟨hj, harg⟩ | ⟨i, hi, harg⟩)
    · exact ⟨0, by omega, by simpa using harg⟩
    · exact ⟨i + 1, by omega, by simpa using harg⟩

/-- The offset at which the loop comes to the stack word `k`. -/
def stackStart (T : Target) (k : Nat) : Int :=
  if T.stackGrowsUp then T.callStackOffset - k * T.wordBytes
  else T.callStackOffset + k * T.wordBytes

theorem stackStart_word (T : Target) (k : Nat) :
    (if T.stackGrowsUp then stackStart T k - T.wordBytes else stackStart T k) = T.stackWord k ∧
      (if T.stackGrowsUp then T.stackWord k else T.stackWord k + T.wordBytes) = stackStart T (k + 1) := by
  simp only [stackStart, Target.stackWord]
  push_cast
  split_ifs <;> constructor <;> ring

variable {args : List (Option Nat)}

theorem stackArgs_leads (hT : T.Valid) {k : Nat} (h : s.Wf T (T.argArea n))
    (htypes : ∀ t, (s.temps t).type = types t) (hn : k + args.length ≤ n)
    (hstack : ∀ j t, (j, t) ∈ σ.stack → j < k) (hregs : σ.regs = ∅)
    (hlive : ∀ t, some t ∈ args → t ∈ σ.live) (hs : stackArgs T fuel args (stackStart T k) s = some s') :
    Leads T V types n σ s { σ with stack := σ.stack ∪ stackSet args k } s' := by
  induction args generalizing k s σ with
  | nil =>
    obtain rfl := Option.some.inj hs
    have hempty : stackSet [] k = ∅ := by simp [stackSet]
    rw [hempty, Set.union_empty]
    exact .refl h htypes
  | cons arg args ih =>
    unfold stackArgs at hs
    simp only [(stackStart_word T k).1, (stackStart_word T k).2] at hs
    rw [length_cons] at hn
    obtain ⟨s1, hs1, hrest⟩ := Option.bind_eq_some_iff.mp hs
    have hone : Leads T V types n σ s { σ with stack := σ.stack ∪ { p | p.1 = k ∧ arg = some p.2 } } s1 := by
      cases arg with
      | none =>
        obtain rfl := Option.some.inj hs1
        have hempty : { p : Nat × Nat | p.1 = k ∧ none = some p.2 } = ∅ := by simp
        rw [hempty, Set.union_empty]
        exact .refl h htypes
      | some t =>
        obtain ⟨s0, hs0, hstore⟩ := Option.bind_eq_some_iff.mp hs1
        obtain ⟨hsteps, r, hval, -⟩ := tempLoad_steps V σ.live hT h subset_rfl hs0
        simp only [hval, Option.some.injEq] at hstore
        have hload : Leads T V types n σ s σ s0 :=
          .of_steps htypes hsteps (fun j t hj => by have := hstack j t hj; omega)
            (fun r t hr => by rw [hregs] at hr; exact absurd hr (Set.notMem_empty _))
        have hset : σ.stack ∪ { p : Nat × Nat | p.1 = k ∧ some t = some p.2 } = insert (k, t) σ.stack := by
          ext ⟨j, x⟩
          simp only [Set.mem_union, Set.mem_ofPred_eq, Set.mem_insert_iff, Prod.mk.injEq,
            Option.some.injEq, eq_comm, or_comm]
        rw [hset, ← hstore]
        exact hload.trans (storeArg_leads hT hload.wf hload.typed (by omega)
          (fun j t hj => (hstack j t hj).ne) hregs hval (hlive t mem_cons_self))
    rw [stackSet_cons, ← Set.union_assoc]
    refine hone.trans (ih hone.wf hone.typed (by omega) (fun j t hj => by
        rcases hj with hj | hj
        · have := hstack j t hj
          omega
        · have : j = k := hj.1
          omega)
      hregs (fun t ht => hlive t (mem_cons_of_mem _ ht)) hrest)

/-- A register is copied to the register of an argument, which has been freed. -/
theorem moveArg_leads (hT : T.Valid) (h : s.Wf T (T.argArea n))
    (htypes : ∀ t, (s.temps t).type = types t) {src : Reg}
    (hregs : ∀ x t, (x, t) ∈ σ.regs → x ≠ r ∧ x ∉ T.scratchRegs) (hr : r ∉ T.reservedRegs)
    (hfree : s.regToTemp r = none) (hval : (s.temps t).val = .reg src) (ht : t ∈ σ.live) :
    Leads T V types n σ s { σ with regs := insert (r, t) σ.regs } (s.emit (.mov (s.temps t).type r src)) := by
  refine ⟨h.emit _, htypes, _, rfl, fun m m' hat hrun => ?_⟩
  obtain ⟨hmove, hkeep, hmem⟩ := runs_singleton.mp hrun
  have hvalue : Agree (types t) (m.regs src) (V t) := by
    have hvalue := hat.sound.value t ht
    rw [Temp.HasValue, htypes] at hvalue
    simpa only [hval] using hvalue
  refine ⟨⟨fun x hx => ?_, fun x hx hfixed hcoh => ?_⟩, fun k x hk => ?_, fun r' x hr' => ?_⟩
  · refine (hat.sound.value x hx).congr (fun r' hr' => hkeep r' ?_ (h.not_scratch hT hr'))
      (fun _ b o _ => by rw [hmem])
    rintro rfl
    exact h.not_free hr hfree hr'
  · exact (hat.sound.coherent x hx hfixed hcoh).congr fun b o _ => by rw [hmem]
  · have hsame : m'.load T.bigEndian (types x) T.callStack (T.stackWord k) =
        m.load T.bigEndian (types x) T.callStack (T.stackWord k) :=
      Machine.load_congr fun b o _ => by rw [hmem]
    rw [hsame]
    exact hat.stack k x hk
  · rcases hr' with hr' | hr'
    · obtain ⟨rfl, rfl⟩ := Prod.ext_iff.mp hr'
      rw [htypes] at hmove
      exact hmove.trans hvalue
    · obtain ⟨hne, hscratch⟩ := hregs r' x hr'
      rw [hkeep r' hne hscratch]
      exact hat.regs r' x hr'

theorem loadedArg_leads (h : s.Wf T (T.argArea n)) (htypes : ∀ t, (s.temps t).type = types t)
    (hval : (s.temps t).val = .reg r) (ht : t ∈ σ.live) :
    Leads T V types n σ s { σ with regs := insert (r, t) σ.regs } s := by
  refine ⟨h, htypes, [], (append_nil _).symm, fun m m' hat hrun => ?_⟩
  obtain rfl : m' = m := hrun
  refine ⟨hat.sound, hat.stack, fun r' x hr' => ?_⟩
  rcases hr' with hr' | hr'
  · obtain ⟨rfl, rfl⟩ := Prod.ext_iff.mp hr'
    have hvalue := hat.sound.value x ht
    rw [Temp.HasValue, htypes] at hvalue
    simpa only [hval] using hvalue
  · exact hat.regs r' x hr'

variable {allocated : RegSet}

theorem regArg_leads (hT : T.Valid) (h : s.Wf T (T.argArea n))
    (htypes : ∀ t, (s.temps t).type = types t) (hstack : ∀ k t, (k, t) ∈ σ.stack → k < n)
    (hregs : ∀ x t, (x, t) ∈ σ.regs → x ∈ allocated ∧ x ∉ T.scratchRegs)
    (hres : T.reservedRegs ⊆ allocated) (hr : r ∉ allocated) (ht : t ∈ σ.live)
    (hs : regArg T fuel s r t allocated = some s') :
    Leads T V types n σ s { σ with regs := insert (r, t) σ.regs } s' := by
  obtain ⟨s1, hs1, hrest⟩ := Option.bind_eq_some_iff.mp hs
  obtain ⟨hsteps, htable, -⟩ := regFreeWith_steps V σ.live hT h hs1
  have hfreed : Leads T V types n σ s σ s1 := .of_steps htypes hsteps hstack fun x t hx => (hregs x t hx).2
  have hfree : s1.regToTemp r = none := by rw [htable, if_pos rfl]
  have hload : ∀ {s2}, tempLoad T fuel s1 t {r} allocated = some s2 → (∀ r, (s1.temps t).val ≠ .reg r) →
      Leads T V types n σ s1 { σ with regs := insert (r, t) σ.regs } s2 := by
    intro s2 hs2 hout
    obtain ⟨hsteps', r', hval, hwhere⟩ := tempLoad_steps V σ.live hT hfreed.wf hres hs2
    have hr' : r' = r := by
      rcases hwhere with hold | hnew
      · exact absurd hold (hout r')
      · exact Finset.mem_singleton.mp hnew
    have hloaded : Leads T V types n σ s1 σ s2 := .of_steps hfreed.typed hsteps' hstack hregs
    exact hloaded.trans (loadedArg_leads hloaded.wf hloaded.typed (hr' ▸ hval) ht)
  cases hval : (s1.temps t).val with
  | reg src =>
    simp only [hval] at hrest
    split_ifs at hrest with hsrc
    · obtain rfl := Option.some.inj hrest
      exact hfreed.trans (moveArg_leads hT hfreed.wf hfreed.typed
        (fun x t hx => ⟨fun heq => hr (heq ▸ (hregs x t hx).1), (hregs x t hx).2⟩)
        (fun hmem => hr (hres hmem)) hfree hval ht)
    · obtain rfl := Option.some.inj hrest
      rw [not_not] at hsrc
      exact hfreed.trans (loadedArg_leads hfreed.wf hfreed.typed (hsrc ▸ hval) ht)
  | dead | mem | const =>
    simp only [hval] at hrest
    exact hfreed.trans (hload hrest (by simp [hval]))

/-- All arguments in registers. -/
theorem regArgs_leads (hT : T.Valid) {args : List (Reg × Option Nat)} {allocated' : RegSet}
    (h : s.Wf T (T.argArea n)) (htypes : ∀ t, (s.temps t).type = types t)
    (hstack : ∀ k t, (k, t) ∈ σ.stack → k < n)
    (hregs : ∀ x t, (x, t) ∈ σ.regs → x ∈ allocated ∧ x ∉ T.scratchRegs)
    (hres : T.reservedRegs ⊆ allocated) (hnodup : (args.map Prod.fst).Nodup)
    (hnew : ∀ r ∈ args.map Prod.fst, r ∉ allocated) (hlive : ∀ r t, (r, some t) ∈ args → t ∈ σ.live)
    (hs : regArgs T fuel args allocated s = some (s', allocated')) :
    Leads T V types n σ s
      { σ with regs := σ.regs ∪ { p | (p.1, some p.2) ∈ args } } s' ∧
      ∀ x t, (x, t) ∈ σ.regs ∪ { p | (p.1, some p.2) ∈ args } → x ∉ T.scratchRegs := by
  induction args generalizing s σ allocated with
  | nil =>
    simp only [regArgs, Option.some.injEq, Prod.mk.injEq] at hs
    obtain ⟨rfl, -⟩ := hs
    have hempty : { p : Reg × Nat | (p.1, some p.2) ∈ ([] : List (Reg × Option Nat)) } = ∅ := by
      simp
    rw [hempty, Set.union_empty]
    exact ⟨.refl h htypes, fun x t hx => (hregs x t hx).2⟩
  | cons arg args ih =>
    obtain ⟨r, arg⟩ := arg
    rw [map_cons, nodup_cons] at hnodup
    have hnew' : ∀ x ∈ args.map Prod.fst, x ∉ allocated := fun x hx => hnew x (mem_cons_of_mem _ hx)
    cases arg with
    | none =>
      rw [regArgs] at hs
      have hset : { p : Reg × Nat | (p.1, some p.2) ∈ (r, none) :: args } =
          { p | (p.1, some p.2) ∈ args } := by
        ext p
        simp
      rw [hset]
      exact ih h htypes hstack hregs hres hnodup.2 hnew' (fun x t hx => hlive x t (mem_cons_of_mem _ hx)) hs
    | some t =>
      rw [regArgs] at hs
      obtain ⟨s1, hs1, hrest⟩ := Option.bind_eq_some_iff.mp hs
      have hr : r ∉ allocated := hnew r mem_cons_self
      have hone := regArg_leads (V := V) hT h htypes hstack hregs hres hr (hlive r t mem_cons_self) hs1
      have hset : σ.regs ∪ { p : Reg × Nat | (p.1, some p.2) ∈ (r, some t) :: args } =
          insert (r, t) σ.regs ∪ { p | (p.1, some p.2) ∈ args } := by
        ext ⟨x, y⟩
        simp only [Set.mem_union, Set.mem_ofPred_eq, mem_cons, Prod.mk.injEq,
          Option.some.injEq, Set.mem_insert_iff]
        tauto
      have hall := @ih { σ with regs := insert (r, t) σ.regs } s1 (insert r allocated) hone.wf
        hone.typed hstack (fun x y hx => by
          rcases hx with hx | hx
          · obtain ⟨rfl, -⟩ := Prod.ext_iff.mp hx
            exact ⟨Finset.mem_insert_self .., fun hmem => hr (hres (hT.scratch hmem))⟩
          · exact ⟨Finset.mem_insert_of_mem (hregs x y hx).1, (hregs x y hx).2⟩)
        (hres.trans (Finset.subset_insert ..)) hnodup.2
        (fun x hx hmem => by
          rcases Finset.mem_insert.mp hmem with rfl | hmem
          · exact hnodup.1 hx
          · exact hnew' x hx hmem)
        (fun x y hx => hlive x y (mem_cons_of_mem _ hx)) hrest
      rw [hset]
      exact ⟨hone.trans hall.1, hall.2⟩

/-- The tables after a temporary outside the registers has been given up. -/
theorem Wf.forget (h : s.Wf T area) (hval : ∀ r, (s.temps t).val ≠ .reg r) {v : TempVal}
    (hv : ∀ r, v ≠ .reg r) :
    Wf T area (s.setTemp t { s.temps t with val := v }) := by
  have hfixed : ∀ x, (s.temps x).fixedReg = true → x ≠ t := by
    rintro x hx rfl
    obtain ⟨r, hr, -⟩ := h.fixed x hx
    exact hval r hr
  refine h.of_slots (fun x => ?_) ⟨rfl, rfl, rfl⟩ (fun r x hr => ?_) (fun x r hx hxf => ?_) (fun x hx => ?_)
  · rw [setTemp_temps]
    split_ifs with hx
    · rw [hx]
      exact ⟨rfl, rfl, rfl, rfl⟩
    · exact ⟨rfl, rfl, rfl, rfl⟩
  · have hold := h.reg_temp r x hr
    have hxt : x ≠ t := fun heq => hval r (heq ▸ hold.1)
    rw [setTemp_temps, if_neg hxt]
    exact hold
  · rw [setTemp_temps] at hx hxf
    split_ifs at hx hxf with hxt
    · exact absurd hx (hv r)
    · exact h.temp_reg x r hx hxf
  · rw [setTemp_temps] at hx ⊢
    split_ifs at hx ⊢ with hxt
    · exact absurd rfl (hfixed t hx)
    · rfl

/-- A temporary whose last use this was is no longer live. -/
theorem tempDead_leads (h : s.Wf T (T.argArea n)) (htypes : ∀ t, (s.temps t).type = types t)
    (t : Nat) : Leads T V types n σ s { σ with live := σ.live \ {t} } (s.tempDead t) := by
  set v : TempVal :=
    if FreeOrDead.dead = .free ∨ (s.temps t).tempLocal = true ∨ t < s.nbGlobals then .mem else .dead
    with hvdef
  have hv : ∀ r, v ≠ .reg r := by
    intro r
    rw [hvdef]
    split_ifs <;> simp
  have hcases : s.tempDead t = s ∨ ∃ s1 : Ctx, s.tempDead t =
      s1.setTemp t { s.temps t with val := v } ∧ s1.temps = s.temps ∧ s1.code = s.code ∧
      Wf T (T.argArea n) (s1.setTemp t { s.temps t with val := v }) := by
    cases hfixed : (s.temps t).fixedReg with
    | true => exact .inl (by simp [tempDead, tempFreeOrDead, hfixed])
    | false =>
      right
      cases hval : (s.temps t).val with
      | reg r =>
        exact ⟨s.setReg r none, by simp [tempDead, tempFreeOrDead, hfixed, hval, hvdef, setReg],
          rfl, rfl, h.leave hval hfixed hv⟩
      | dead | mem | const =>
        exact ⟨s, by simp [tempDead, tempFreeOrDead, hfixed, hval, hvdef], rfl, rfl,
          h.forget (by simp [hval]) hv⟩
  rcases hcases with hsame | ⟨s1, heq, htemps, hcode, hwf⟩
  · rw [hsame]
    refine ⟨h, htypes, [], (append_nil _).symm, fun m m' hat hrun => ?_⟩
    obtain rfl : m' = m := hrun
    exact ⟨⟨fun x hx => hat.sound.value x hx.1, fun x hx => hat.sound.coherent x hx.1⟩, hat.stack, hat.regs⟩
  · rw [heq]
    have hother : ∀ x, x ≠ t → (s1.setTemp t { s.temps t with val := v }).temps x = s.temps x := by
      intro x hx
      rw [setTemp_temps, if_neg hx, htemps]
    refine ⟨hwf, fun x => ?_, [], (hcode.trans (append_nil _).symm), fun m m' hat hrun => ?_⟩
    · rw [setTemp_temps]
      split_ifs with hx
      · rw [hx]
        exact htypes t
      · rw [htemps]
        exact htypes x
    · obtain rfl : m' = m := hrun
      refine ⟨⟨fun x hx => ?_, fun x hx => ?_⟩, hat.stack, hat.regs⟩
      · rw [hother x hx.2]
        exact hat.sound.value x hx.1
      · rw [hother x hx.2]
        exact hat.sound.coherent x hx.1

theorem deadArgs_leads {args : List (Option Nat × Bool)} (h : s.Wf T (T.argArea n))
    (htypes : ∀ t, (s.temps t).type = types t) (hs : deadArgs args s = some s') :
    Leads T V types n σ s { σ with live := σ.live \ { t | (some t, true) ∈ args } } s' := by
  induction args generalizing s σ with
  | nil =>
    obtain rfl := Option.some.inj hs
    have hempty : { t : Nat | (some t, true) ∈ ([] : List (Option Nat × Bool)) } = ∅ := by simp
    rw [hempty, Set.sdiff_empty]
    exact .refl h htypes
  | cons arg args ih =>
    obtain ⟨arg, mark⟩ := arg
    cases mark with
    | false =>
      have hset : { t : Nat | (some t, true) ∈ (arg, false) :: args } = { t | (some t, true) ∈ args } := by
        ext t
        simp
      rw [hset]
      exact ih h htypes hs
    | true =>
      cases arg with
      | none => cases hs
      | some t =>
        have hset : σ.live \ { x : Nat | (some x, true) ∈ (some t, true) :: args } =
            (σ.live \ {t}) \ { x | (some x, true) ∈ args } := by
          ext x
          simp only [Set.mem_sdiff, Set.mem_ofPred_eq, mem_cons, Prod.mk.injEq,
            Option.some.injEq, and_true, Set.mem_singleton_iff]
          tauto
        have hdead := tempDead_leads (V := V) (σ := σ) h htypes t
        rw [hset]
        exact hdead.trans (ih hdead.wf hdead.typed hs)

/-- Every register that the call may change is freed. -/
theorem clobberRegs_leads (hT : T.Valid) {l : List Reg} (h : s.Wf T (T.argArea n))
    (htypes : ∀ t, (s.temps t).type = types t) (hstack : ∀ k t, (k, t) ∈ σ.stack → k < n)
    (hregs : ∀ x t, (x, t) ∈ σ.regs → x ∉ T.scratchRegs) (hs : clobberRegs T fuel allocated l s = some s') :
    Leads T V types n σ s σ s' ∧ (∀ r, s.regToTemp r = none → s'.regToTemp r = none) ∧
      ∀ r ∈ l, r ∈ T.callClobberRegs → s'.regToTemp r = none := by
  induction l generalizing s with
  | nil =>
    obtain rfl := Option.some.inj hs
    exact ⟨.refl h htypes, fun _ hr => hr, fun r hr => absurd hr not_mem_nil⟩
  | cons r l ih =>
    obtain ⟨s1, hs1, hrest⟩ := Option.bind_eq_some_iff.mp hs
    have hone : Leads T V types n σ s σ s1 ∧ (∀ x, s.regToTemp x = none → s1.regToTemp x = none) ∧
        (r ∈ T.callClobberRegs → s1.regToTemp r = none) := by
      split_ifs at hs1 with hclobber
      · obtain ⟨hsteps, htable, -⟩ := regFreeWith_steps V σ.live hT h hs1
        refine ⟨.of_steps htypes hsteps hstack hregs, fun x hx => ?_, fun _ => ?_⟩
        · rw [htable]
          split_ifs
          · rfl
          · exact hx
        · rw [htable, if_pos rfl]
      · obtain rfl := Option.some.inj hs1
        exact ⟨.refl h htypes, fun _ hx => hx, fun hr => absurd hr hclobber⟩
    obtain ⟨hleads, hkept, hfreed⟩ := hone
    obtain ⟨hall, hkept', hfreed'⟩ := ih hleads.wf hleads.typed hrest
    refine ⟨hleads.trans hall, fun x hx => hkept' x (hkept x hx), fun x hx hclobber => ?_⟩
    rcases mem_cons.mp hx with rfl | hx
    · exact hkept' x (hfreed hclobber)
    · exact hfreed' x hx hclobber

/-- The stage at the call instruction: every argument is in its stack word or register, and the
temporaries that the call does not end are where the tables say. -/
def atCall (T : Target) (args : List (Option Nat)) (deadMarks : List Bool) (live : Set Nat) :
    Stage where
  live := live \ { t | (some t, true) ∈ args.zip deadMarks }
  stack := stackSet (args.drop (min T.callIargRegs.length args.length)) 0
  regs := { p | (p.1, some p.2) ∈ T.callIargRegs.zip args }

theorem map_fst_zip_sublist {α β : Type*} (l : List α) (l' : List β) :
    ((l.zip l').map Prod.fst).Sublist l := by
  induction l generalizing l' with
  | nil => simp
  | cons a l ih =>
    cases l' with
    | nil => simp
    | cons b l' =>
      rw [zip_cons_cons, map_cons]
      exact (ih l').cons_cons a

theorem prepareCall_leads (hT : T.Valid) {deadMarks : List Bool} {flags : CallFlags}
    {live : Set Nat} (h : s.Wf T (T.argArea (args.length - T.callIargRegs.length)))
    (htypes : ∀ t, (s.temps t).type = types t) (hlive : ∀ t, some t ∈ args → t ∈ live)
    (hs : prepareCall T fuel args deadMarks flags s = some s') :
    Leads T V types (args.length - T.callIargRegs.length) ⟨live, ∅, ∅⟩ s
        (atCall T args deadMarks live) s' ∧
      ∀ r ∈ T.callClobberRegs, r < T.nbRegs → s'.regToTemp r = none := by
  rw [prepareCall] at hs
  split_ifs at hs
  obtain ⟨s1, hs1, hs⟩ := Option.bind_eq_some_iff.mp hs
  obtain ⟨⟨s2, allocated⟩, hs2, hs⟩ := Option.bind_eq_some_iff.mp hs
  obtain ⟨s3, hs3, hs⟩ := Option.bind_eq_some_iff.mp hs
  obtain ⟨s4, hs4, hs⟩ := Option.bind_eq_some_iff.mp hs
  split_ifs at hs
  obtain rfl := Option.some.inj hs
  have hstart : T.callStackOffset = stackStart T 0 := by simp [stackStart]
  rw [hstart] at hs1
  have hstack := stackArgs_leads (V := V) (σ := ⟨live, ∅, ∅⟩) hT h htypes
    (by rw [length_drop]; omega) (fun j t hj => absurd hj (Set.notMem_empty _)) rfl
    (fun t ht => hlive t (mem_of_mem_drop ht)) hs1
  rw [Set.empty_union] at hstack
  have hwords : ∀ k t, (k, t) ∈ stackSet (args.drop (min T.callIargRegs.length args.length)) 0 →
      k < args.length - T.callIargRegs.length := by
    rintro k t ⟨i, hi, harg⟩
    have hlt := (List.getElem?_eq_some_iff.mp harg).1
    rw [length_drop] at hlt
    omega
  have hzip : ((T.callIargRegs.zip args).map Prod.fst).Sublist T.callIargRegs := map_fst_zip_sublist ..
  obtain ⟨hregs, hplaced⟩ := regArgs_leads
    (σ := ⟨live, stackSet (args.drop (min T.callIargRegs.length args.length)) 0, ∅⟩) hT
    hstack.wf hstack.typed hwords
    (fun x t hx => absurd hx (Set.notMem_empty _)) subset_rfl (hT.iargs.sublist hzip)
    (fun r hr => hT.iargs_free r (hzip.subset hr))
    (fun r t hr => hlive t (of_mem_zip hr).2) hs2
  rw [Set.empty_union] at hregs hplaced
  have hdead := (hstack.trans hregs).trans (deadArgs_leads hregs.wf hregs.typed hs3)
  obtain ⟨hclobber, -, hfreed⟩ := clobberRegs_leads (σ := atCall T args deadMarks live) hT hdead.wf
    hdead.typed hwords hplaced hs4
  exact ⟨hdead.trans hclobber, fun r hr hlt => hfreed r (mem_range.mpr hlt) hr⟩

end Ctx

end TcgArm.RegAlloc
