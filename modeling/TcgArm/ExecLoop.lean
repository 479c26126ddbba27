import TcgArm.TbStoreRun

/-! The loop of `exec`: CPUs run blocks of generated code and, when the code returns, look up the
next block and chain the last exit to it. Generated code leaves a block through one of its two
`goto_tb` slots, which may have been patched to lead into another block, through an exit with value
zero, or at once for a requested exit. The loop chains the block that `cpu_tb_exec` was called for,
which need not be the block that was left. -/

namespace TcgArm.Tb

open Transition Option Function

variable {host : Host}

/-- What the generated code returns: zero, or a block with a tag in the low two bits. -/
inductive TbRet
  | zero
  | exit (tb : Nat) (tag : Fin 4)
  deriving DecidableEq

/-- `ret & TB_EXIT_MASK`. -/
def TbRet.tbExit : TbRet → Nat
  | .zero => 0
  | .exit _ tag => tag

/-- `TB_EXIT_ICOUNT_EXPIRED`; the one value above it is `TB_EXIT_REQUESTED`. -/
def tbExitIcountExpired : Nat := 2

/-- `(uintptr_t)tb + n`. -/
def TbRet.slot (tb : Nat) (n : Fin 2) : TbRet := .exit tb ⟨n, by omega⟩

/-- Where a CPU is in `exec`: in no call of it, in generated code about to execute the block `tb`
after `cpu_tb_exec` was called for `entered`, back from `cpu_tb_exec`, or past a `tb_from_cache`
that has found a block. The last two have the value returned and the CPU state at that point. -/
inductive CpuState
  | idle
  | running (entered tb : Nat)
  | returned (entered : Nat) (ret : TbRet) (key : Store.Key)
  | cached (entered : Nat) (ret : TbRet) (key : Store.Key)
  deriving DecidableEq

/-- How the code of a block is left: by a slot, by an indirect jump to a computed address, or at its
start when an exit was requested. -/
inductive Leave
  | slot (n : Fin 2)
  | indirect (key : Store.Key)
  | requested

/-- The code of one block. A slot that is not patched to another block falls through to the code
that sets the program counter and returns. A block with a slot 0 ends in a branch to a known address
and has no exit with value zero; one that ends in a computed jump has at most slot 1, for the case
that its condition fails. After a requested exit `cpu_tb_exec` reads a pointer that was never
assigned, and there is no next state. -/
def leaveBlock (s : Store host) (entered tb : Nat) : Leave → Option CpuState
  | .slot n =>
    match (s.tbs tb).exits n, s.jumps.dest tb n with
    | some _, .entry tbNext => some (.running entered tbNext)
    | some key, .reset => some (.returned entered (.slot tb n) key)
    | _, _ => none
  | .indirect key => if ((s.tbs tb).exits 0).isNone then some (.returned entered .zero key) else none
  | .requested => none

/-- An exit with value zero, or a patched jump into a block other than the one entered. -/
def strays (s : Store host) (entered tb : Nat) : Leave → Bool
  | .slot n =>
    match s.jumps.dest tb n with
    | .entry tbNext => tbNext != entered
    | _ => false
  | .indirect _ | .requested => true

/-- The store and the CPUs of the pool. The history variable `strayed` tells of each CPU whether it
has strayed since `cpu_tb_exec` was called. -/
structure Machine (host : Host) where
  store : Store host
  cpus : Nat → CpuState
  strayed : Nat → Bool

/-- The steps of the machine: `exec` is called, a block is executed, generated code that has been
flushed meanwhile returns something, the loop calls `tb_from_cache` and then `tb_find_fast`, and
anything that invalidates blocks or changes the flags of pages. -/
inductive ExecCall
  | start (cpu : Nat) (key : Store.Key) (cflags : BitVec 32) (attempts : List Store.Generated)
  | block (cpu : Nat) (leave : Leave)
  | stale (cpu : Nat) (ret : TbRet) (key : Store.Key)
  | fromCache (cpu : Nat)
  | find (cpu : Nat) (cflags : BitVec 32) (attempts : List Store.Generated)
  | invalidate (call : StoreCall)

def StoreCall.maintains : StoreCall → Bool
  | .invalidate _ | .invalidatePage _ | .invalidateRange _ _ | .flush | .setFlags _ _ _
  | .unprotect _ => true
  | .genCode .. | .findFast .. | .addJump .. | .free _ => false

namespace Machine

variable (cfg : Config) (x : Machine host)

def initial (s : Store host) : Machine host := ⟨s, fun _ => .idle, fun _ => false⟩

def setCpu (s : Store host) (cpu : Nat) (state : CpuState) (strayed : Bool) : Machine host :=
  ⟨s, update x.cpus cpu state, update x.strayed cpu strayed⟩

def exec : ExecCall → Option (Machine host)
  | .start cpu key cflags attempts =>
    match x.cpus cpu with
    | .idle => do
      -- `pre_cpu_exec` resets `tb_flushed` before the first lookup
      let s := { x.store with tbFlushed := update x.store.tbFlushed cpu false }
      let (tb, s) ← s.tbFindFast cfg cpu key none 0 cflags attempts
      return x.setCpu s cpu (.running tb tb) false
    | _ => none
  | .block cpu leave =>
    match x.cpus cpu with
    | .running entered tb =>
      if x.store.tbFlushed cpu then none
      else (leaveBlock x.store entered tb leave).map fun state =>
        x.setCpu x.store cpu state (x.strayed cpu || strays x.store entered tb leave)
    | _ => none
  | .stale cpu ret key =>
    match x.cpus cpu with
    | .running entered _ =>
      if x.store.tbFlushed cpu then
        some (x.setCpu x.store cpu (.returned entered ret key) (x.strayed cpu))
      else none
    | _ => none
  | .fromCache cpu =>
    match x.cpus cpu with
    | .returned entered ret key =>
      if tbExitIcountExpired ≤ ret.tbExit then none
      else
        match x.store.tbFromCache cpu key with
        | none => some (x.setCpu x.store cpu .idle (x.strayed cpu))
        | some _ => some (x.setCpu x.store cpu (.cached entered ret key) (x.strayed cpu))
    | _ => none
  | .find cpu cflags attempts =>
    match x.cpus cpu with
    | .cached entered ret key => do
      -- `last_tb = prev_tb` replaces the block decoded from the returned value
      let (tb, s) ← x.store.tbFindFast cfg cpu key (some entered) ret.tbExit cflags attempts
      return x.setCpu s cpu (.running tb tb) false
    | _ => none
  | .invalidate call =>
    if call.maintains then (x.store.exec cfg call).map ({ x with store := · }) else none

/-- A call of `tb_add_jump (tb, n, tb_next)`, with the store at that moment. -/
structure AddJump (host : Host) where
  store : Store host
  tb : Nat
  n : Nat
  tbNext : Nat

/-- The call of `tb_add_jump` that the `tb_find_fast` of the loop makes. -/
def addJumpCall (cpu : Nat) (cflags : BitVec 32) (attempts : List Store.Generated) :
    Option (AddJump host) :=
  match x.cpus cpu with
  | .cached entered ret key => do
    let (tb, s) ← x.store.tbLookup cfg cpu key cflags attempts
    if s.tbFlushed cpu then none else some ⟨s, entered, ret.tbExit, tb⟩
  | _ => none

end Machine

/-- The generated code has just returned slot `n` of the block, the block has that slot, and the
next block is the one for the CPU state in which the guest leaves by the slot. -/
def Machine.AddJump.Right (call : Machine.AddJump host) (ret : TbRet) : Prop :=
  ∃ n : Fin 2, call.n = n ∧ ret = .slot call.tb n ∧
    ∃ key, (call.store.tbs call.tb).exits n = some key ∧
      Store.keyMatches key (call.store.tbs call.tbNext) = true

/-- Every patched jump of a block leads to the block for the CPU state in which the guest leaves by
that slot. -/
def PatchedRight (s : Store host) : Prop :=
  ∀ t < s.nbTbs, ∀ n u, s.jumps.dest t n = .entry u → u < s.nbTbs ∧
    ∃ key, (s.tbs t).exits n = some key ∧ Store.keyMatches key (s.tbs u) = true

/-- A CPU that has strayed ends its call of `exec`: no next block is in the cache, or a flush keeps
the loop from chaining. -/
def Machine.Straight (x : Machine host) : ExecCall → Prop
  | .fromCache cpu => x.strayed cpu = true → ∀ entered ret key, x.cpus cpu = .returned entered ret key →
      x.store.tbFlushed cpu = true ∨ x.store.tbFromCache cpu key = none
  | _ => True

variable {cfg : Config} {s s' : Store host} {lists : PageIndex → List (Nat × Fin 2)}

/-- The blocks of a store are still there, perhaps with others after them. -/
structure Grown (s s' : Store host) : Prop where
  nbTbs_le : s.nbTbs ≤ s'.nbTbs
  tbs : ∀ t < s.nbTbs, s'.tbs t = s.tbs t
  tbFlushed : s'.tbFlushed = s.tbFlushed

theorem PatchedRight.mono (h : PatchedRight s) (hnb : s'.nbTbs = s.nbTbs) (htbs : s'.tbs = s.tbs)
    (hdest : ∀ u n, s'.jumps.dest u n = s.jumps.dest u n ∨ s'.jumps.dest u n = .reset) :
    PatchedRight s' := by
  intro t ht n u hu
  rw [hnb, htbs]
  rcases hdest t n with heq | hreset
  · exact h t (hnb ▸ ht) n u (heq ▸ hu)
  · rw [hreset] at hu
    cases hu

variable {t cpu entered : Nat}

theorem PatchedRight.added {tb : TranslationBlock} (h : PatchedRight s) (hadded : Added s s' t tb) :
    PatchedRight s' := by
  intro v hv n u hu
  rw [hadded.dest] at hu
  rcases hadded.lt_cases hv with rfl | ⟨hlt, hne⟩
  · rw [update_self] at hu
    split at hu <;> cases hu
  · rw [update_of_ne hne] at hu
    obtain ⟨hult, key, hexit, hkey⟩ := h v hlt n u hu
    have hune : u ≠ t := hadded.index ▸ hult.ne
    rw [hadded.nbTbs, hadded.tbs_of_ne hne, hadded.tbs_of_ne hune]
    exact ⟨Nat.lt_succ_of_lt hult, key, hexit, hkey⟩

theorem PatchedRight.of_flushed (hflushed : Flushed cfg s s') : PatchedRight s' := by
  intro t ht
  rw [hflushed.nbTbs] at ht
  exact absurd ht (Nat.not_lt_zero t)

variable {attempts : List Store.Generated} {cflags : BitVec 32} {key : Store.Key}
    {x : Machine host}

/-- The lookup keeps every block, or the CPUs learn that it has not. -/
theorem tbLookup_grown (hinv : Inv cfg s none lists) (h : PatchedRight s)
    (hrun : s.tbLookup cfg cpu key cflags attempts = some (t, s')) :
    PatchedRight s' ∧ (Grown s s' ∨ s'.tbFlushed = fun _ => true) := by
  obtain ⟨s1, cache, rfl, hcases⟩ := tbLookup_cases hrun
  rcases hcases with rfl | hgen
  · exact ⟨h, Or.inl ⟨le_rfl, fun _ _ => rfl, rfl⟩⟩
  · obtain ⟨-, s2, hs2, g, -, hadded, -⟩ := tbGenCode_spec hinv hgen
    rcases hs2 with rfl | hflushed
    · have hpatched : PatchedRight s1 := h.added hadded
      refine ⟨hpatched, Or.inl ⟨?_, fun u hu => ?_, hadded.tbFlushed⟩⟩
      · exact (Nat.le_succ _).trans hadded.nbTbs.ge
      · exact hadded.tbs_of_ne (hadded.index ▸ hu.ne)
    · have hpatched : PatchedRight s1 := (PatchedRight.of_flushed hflushed).added hadded
      refine ⟨hpatched, Or.inr ?_⟩
      exact hadded.tbFlushed.trans hflushed.tbFlushed

theorem Calm.grown (h : Calm s s') : Grown s s' := ⟨h.nbTbs.ge, fun t _ => congrFun h.tbs t, h.tbFlushed⟩

/-- A maintenance call flushes the buffer, or only takes blocks out of the lists. -/
theorem maintains_cases {call : StoreCall} (hcall : call.maintains = true)
    (hinv : Inv cfg s none lists) (hstep : s.exec cfg call = some s') :
    Flushed cfg s s' ∨ Calm s s' := by
  cases call with
  | flush =>
    obtain ⟨s1, hrun, -, hflushed⟩ := tbFlush_spec hinv.flushable
    cases hrun.symm.trans hstep
    exact Or.inl hflushed
  | invalidate | invalidatePage | invalidateRange | setFlags | unprotect =>
    exact Or.inr (calm_step rfl hinv hstep).choose_spec.2
  | genCode | findFast | addJump | free => cases hcall

variable {lastTb : Option Nat}

theorem tbChain_cases {tbExit : Nat} (hrun : s.tbChain cpu lastTb tbExit t = some s') :
    s' = { s with tbFlushed := update s.tbFlushed cpu false } ∨
      ∃ last ∈ lastTb, ∃ n : Fin 2, s.tbFlushed cpu = false ∧ tbExit = n ∧ s' = { s with
          tbFlushed := update s.tbFlushed cpu false
          jumps := s.jumps.tbAddJump last n t } := by
  simp only [Store.tbChain] at hrun
  split at hrun
  · cases hrun
    exact Or.inl rfl
  · rename_i last hlast
    split_ifs at hlast with hflushed
    split_ifs at hrun with hexit
    cases hrun
    exact Or.inr ⟨last, hlast, ⟨tbExit, hexit⟩, Bool.eq_false_iff.mpr hflushed, rfl, rfl⟩

theorem tbAddJump_dest (jumps : TbJump.JumpLists) (tb : Nat) (n : Fin 2) (tbNext u : Nat)
    (k : Fin 2) : (jumps.tbAddJump tb n tbNext).dest u k = jumps.dest u k ∨
      u = tb ∧ k = n ∧ (jumps.tbAddJump tb n tbNext).dest u k = .entry tbNext := by
  unfold TbJump.JumpLists.tbAddJump
  split
  · exact Or.inl rfl
  · by_cases hslot : u = tb ∧ k = n
    · exact Or.inr ⟨hslot.1, hslot.2, by simp [hslot]⟩
    · exact Or.inl (by simp [hslot])

theorem PatchedRight.addJump {last : Nat} {n : Fin 2} (h : PatchedRight s) (ht : t < s.nbTbs)
    (hexit : (s.tbs last).exits n = some key) (hkey : Store.keyMatches key (s.tbs t) = true) :
    PatchedRight { s with jumps := s.jumps.tbAddJump last n t } := by
  intro v hv k u hu
  have hnb : (s.jumps.tbAddJump last n t).nbTbs = s.nbTbs := nbTbs_tbAddJump ..
  change v < (s.jumps.tbAddJump last n t).nbTbs at hv
  change u < (s.jumps.tbAddJump last n t).nbTbs ∧ _
  rw [hnb] at hv ⊢
  rcases tbAddJump_dest s.jumps last n t v k with heq | ⟨rfl, rfl, heq⟩
  · exact h v hv k u (heq ▸ hu)
  · cases heq.symm.trans hu
    exact ⟨ht, key, hexit, hkey⟩

/-- A CPU that has not strayed is in the block it entered, and then leaves it by a slot. -/
def CpuOk (s : Store host) (strayed : Bool) : CpuState → Prop
  | .idle => True
  | .running entered tb => entered < s.nbTbs ∧ tb < s.nbTbs ∧ (strayed = false → tb = entered)
  | .returned entered ret key => entered < s.nbTbs ∧
      (strayed = false → ∃ n, ret = .slot entered n ∧ (s.tbs entered).exits n = some key)
  | .cached entered ret key =>
    entered < s.nbTbs ∧ ∃ n, ret = .slot entered n ∧ (s.tbs entered).exits n = some key

variable {c : CpuState} {strayed : Bool}

theorem CpuOk.mono (h : CpuOk s strayed c) (hnb : s.nbTbs ≤ s'.nbTbs)
    (htbs : ∀ t < s.nbTbs, s'.tbs t = s.tbs t) : CpuOk s' strayed c := by
  cases c with
  | idle => trivial
  | running entered tb => exact ⟨h.1.trans_le hnb, h.2.1.trans_le hnb, h.2.2⟩
  | returned entered ret key | cached entered ret key =>
    refine ⟨h.1.trans_le hnb, ?_⟩
    rw [htbs entered h.1]
    exact h.2

structure Machine.Sound (cfg : Config) (x : Machine host) : Prop where
  inv : ∃ lists, Inv cfg x.store none lists
  patched : PatchedRight x.store
  cpu : ∀ cpu, x.store.tbFlushed cpu = false → CpuOk x.store (x.strayed cpu) (x.cpus cpu)

theorem Machine.Sound.of_grown (h : x.Sound cfg) (hinv : ∃ lists, Inv cfg s' none lists)
    (hpatched : PatchedRight s') (hgrown : Grown x.store s' ∨ s'.tbFlushed = fun _ => true) :
    Machine.Sound cfg { x with store := s' } := by
  refine ⟨hinv, hpatched, fun cpu hflushed => ?_⟩
  rcases hgrown with hgrown | hall
  · have hbefore : x.store.tbFlushed cpu = false := hgrown.tbFlushed ▸ hflushed
    exact (h.cpu cpu hbefore).mono hgrown.nbTbs_le hgrown.tbs
  · rw [show s'.tbFlushed cpu = true from congrFun hall cpu] at hflushed
    cases hflushed

theorem Machine.Sound.setCpu (h : x.Sound cfg) (hinv : ∃ lists, Inv cfg s' none lists)
    (hpatched : PatchedRight s') (hnb : s'.nbTbs = x.store.nbTbs) (htbs : s'.tbs = x.store.tbs)
    (hflushed : ∀ d, d ≠ cpu → s'.tbFlushed d = x.store.tbFlushed d)
    (hc : s'.tbFlushed cpu = false → CpuOk s' strayed c) : (x.setCpu s' cpu c strayed).Sound cfg := by
  refine ⟨hinv, hpatched, fun d hd => ?_⟩
  change CpuOk s' (update x.strayed cpu strayed d) (update x.cpus cpu c d)
  by_cases hdc : d = cpu
  · subst hdc
    rw [update_self, update_self]
    exact hc hd
  · rw [update_of_ne hdc, update_of_ne hdc]
    have hbefore : x.store.tbFlushed d = false := hflushed d hdc ▸ hd
    exact (h.cpu d hbefore).mono hnb.ge fun t _ => congrFun htbs t

/-- `tb_find_fast` keeps the machine sound, if the jump it patches is right. -/
theorem Machine.Sound.findFast (h : x.Sound cfg) {tbExit : Nat}
    (hright : ∀ last ∈ lastTb, ∀ tb s1, x.store.tbLookup cfg cpu key cflags attempts =
      some (tb, s1) → s1.tbFlushed cpu = false → last < s1.nbTbs ∧ ∃ n : Fin 2, tbExit = n ∧
        ∃ key', (s1.tbs last).exits n = some key' ∧ Store.keyMatches key' (s1.tbs tb) = true)
    (hrun : x.store.tbFindFast cfg cpu key lastTb tbExit cflags attempts = some (t, s')) :
    (x.setCpu s' cpu (.running t t) false).Sound cfg := by
  obtain ⟨⟨u, s1⟩, hlookup, hrun⟩ := bind_eq_some_iff.mp hrun
  obtain ⟨s2, hchain, heq⟩ := bind_eq_some_iff.mp hrun
  cases heq
  obtain ⟨lists, hinv⟩ := h.inv
  obtain ⟨⟨lists1, hinv1⟩, hfound⟩ := tbLookup_spec hinv hlookup
  obtain ⟨hpatched, hgrown⟩ := tbLookup_grown hinv h.patched hlookup
  have h1 : Machine.Sound cfg { x with store := s1 } := h.of_grown ⟨lists1, hinv1⟩ hpatched hgrown
  have ht := hinv1.live_lt hfound.live
  have hlast : ∀ last ∈ lastTb, s1.tbFlushed cpu = true ∨ last < s1.nbTbs := fun last hmem => by
    cases hflushed : s1.tbFlushed cpu with
    | true => exact Or.inl rfl
    | false => exact Or.inr (hright last hmem t s1 hlookup hflushed).1
  obtain ⟨hinv2, -, htbs⟩ := tbChain_inv hinv1 hfound.live hlast hchain
  have hupdate : ∀ d, d ≠ cpu → update s1.tbFlushed cpu false d = s1.tbFlushed d :=
    fun d hd => update_of_ne hd ..
  rcases tbChain_cases hchain with rfl | ⟨last, hmem, n, hflushed, hexit, rfl⟩
  · have hsame : PatchedRight { s1 with tbFlushed := update s1.tbFlushed cpu false } := hpatched
    exact h1.setCpu ⟨lists1, hinv2⟩ hsame rfl rfl hupdate fun _ => ⟨ht, ht, fun _ => rfl⟩
  · obtain ⟨-, k, hk, key', hslot, hkey⟩ := hright last hmem t s1 hlookup hflushed
    obtain rfl : n = k := Fin.ext (hexit.symm.trans hk)
    have hnb : (s1.jumps.tbAddJump last n t).nbTbs = s1.nbTbs := nbTbs_tbAddJump ..
    have hpatched' : PatchedRight { s1 with jumps := s1.jumps.tbAddJump last n t } :=
      hpatched.addJump ht hslot hkey
    refine h1.setCpu ⟨lists1, hinv2⟩ hpatched' hnb rfl hupdate fun _ => ?_
    exact ⟨ht.trans_eq hnb.symm, ht.trans_eq hnb.symm, fun _ => rfl⟩

variable {ret : TbRet}

open Machine

theorem addJump_right (h : x.Sound cfg) {call : Machine.AddJump host}
    (hcpu : x.cpus cpu = .cached entered ret key)
    (hcall : x.addJumpCall cfg cpu cflags attempts = some call) :
    call.tb < call.store.nbTbs ∧ call.Right ret := by
  simp only [addJumpCall, hcpu] at hcall
  obtain ⟨⟨tb, s1⟩, hlookup, hcall⟩ := bind_eq_some_iff.mp hcall
  simp only at hcall
  split_ifs at hcall with hflushed
  cases hcall
  obtain ⟨lists, hinv⟩ := h.inv
  obtain ⟨-, hfound⟩ := tbLookup_spec hinv hlookup
  obtain ⟨-, hgrown | hall⟩ := tbLookup_grown hinv h.patched hlookup
  · have hok := h.cpu cpu (by rw [← hgrown.tbFlushed]; exact Bool.eq_false_iff.mpr hflushed)
    rw [hcpu] at hok
    obtain ⟨hlt, n, rfl, hexit⟩ := hok
    refine ⟨hlt.trans_le hgrown.nbTbs_le, n, rfl, rfl, key, ?_, hfound.key⟩
    rw [← hexit, ← hgrown.tbs entered hlt]
  · exact absurd (congrFun hall cpu) hflushed

/-- The code of a block leads to a block of the store, or returns with what a CPU has to know. -/
theorem leaveBlock_ok {tb : Nat} {leave : Leave} (h : PatchedRight s)
    (hc : CpuOk s strayed (.running entered tb)) (hrun : leaveBlock s entered tb leave = some c) :
    CpuOk s (strayed || strays s entered tb leave) c := by
  obtain ⟨hentered, htb, hself⟩ := hc
  cases leave with
  | slot n =>
    simp only [leaveBlock] at hrun
    split at hrun
    · rename_i hdest
      cases hrun
      refine ⟨hentered, (h tb htb n _ hdest).1, fun hstays => ?_⟩
      simp only [strays, hdest, Bool.or_eq_false_iff, bne_eq_false_iff_eq] at hstays
      exact hstays.2
    · rename_i key hexit hdest
      cases hrun
      refine ⟨hentered, fun hstays => ?_⟩
      obtain rfl := hself (Bool.or_eq_false_iff.mp hstays).1
      exact ⟨n, rfl, hexit⟩
    · cases hrun
  | indirect key =>
    obtain ⟨-, heq⟩ := ite_none_right_eq_some.mp hrun
    cases heq
    exact ⟨hentered, by simp [strays]⟩
  | requested => cases hrun

theorem Machine.Sound.step {y : Machine host} {call : ExecCall} (h : x.Sound cfg)
    (hok : x.Straight call) (hstep : x.exec cfg call = some y) : y.Sound cfg := by
  cases call with
  | start cpu key cflags attempts =>
    simp only [exec] at hstep
    split at hstep
    swap
    · cases hstep
    obtain ⟨⟨t, s'⟩, hfind, heq⟩ := bind_eq_some_iff.mp hstep
    cases heq
    obtain ⟨lists, hinv⟩ := h.inv
    have hidle : (x.setCpu { x.store with
        tbFlushed := update x.store.tbFlushed cpu false } cpu .idle false).Sound cfg := by
      have hsame : PatchedRight { x.store with
          tbFlushed := update x.store.tbFlushed cpu false } := h.patched
      refine h.setCpu ⟨lists, hinv.set_flushed _⟩ hsame rfl rfl (fun d hd => ?_) fun _ => trivial
      exact update_of_ne hd ..
    have hrun := hidle.findFast (fun last hlast => by cases hlast) hfind
    rwa [Machine.setCpu, Machine.setCpu, update_idem, update_idem] at hrun
  | block cpu leave =>
    simp only [Machine.exec] at hstep
    split at hstep
    swap
    · cases hstep
    rename_i entered tb hcpu
    split at hstep
    · cases hstep
    rename_i hflushed
    obtain ⟨c, hleave, rfl⟩ := map_eq_some_iff.mp hstep
    have hc := h.cpu cpu (Bool.eq_false_iff.mpr hflushed)
    rw [hcpu] at hc
    exact h.setCpu h.inv h.patched rfl rfl (fun _ _ => rfl) fun _ => leaveBlock_ok h.patched hc hleave
  | stale cpu ret key =>
    simp only [exec] at hstep
    split at hstep
    swap
    · cases hstep
    split at hstep
    · rename_i hflushed
      cases hstep
      refine h.setCpu h.inv h.patched rfl rfl (fun _ _ => rfl) fun hfalse => ?_
      rw [hflushed] at hfalse
      cases hfalse
    · cases hstep
  | fromCache cpu =>
    simp only [exec] at hstep
    split at hstep
    swap
    · cases hstep
    rename_i entered ret key hcpu
    split at hstep
    · cases hstep
    split at hstep
    · cases hstep
      exact h.setCpu h.inv h.patched rfl rfl (fun _ _ => rfl) fun _ => trivial
    · rename_i hfound
      cases hstep
      refine h.setCpu h.inv h.patched rfl rfl (fun _ _ => rfl) fun hflushed => ?_
      have hc := h.cpu cpu hflushed
      rw [hcpu] at hc
      refine ⟨hc.1, hc.2 (Bool.eq_false_iff.mpr fun hstrayed => ?_)⟩
      rcases hok hstrayed entered ret key hcpu with htrue | hnone
      · cases htrue.symm.trans hflushed
      · cases hnone.symm.trans hfound
  | find cpu cflags attempts =>
    simp only [exec] at hstep
    split at hstep
    swap
    · cases hstep
    rename_i entered ret key hcpu
    obtain ⟨⟨t, s'⟩, hfind, heq⟩ := bind_eq_some_iff.mp hstep
    cases heq
    refine h.findFast (fun last hlast tb s1 hlookup hflushed => ?_) hfind
    cases hlast
    have hcall : x.addJumpCall cfg cpu cflags attempts = some ⟨s1, entered, ret.tbExit, tb⟩ := by
      simp only [addJumpCall, hcpu, hlookup, bind_eq_bind, bind_some, hflushed]
      rfl
    obtain ⟨hlt, n, hn, -, key', hexit, hkey⟩ := addJump_right h hcpu hcall
    exact ⟨hlt, n, hn, key', hexit, hkey⟩
  | invalidate call =>
    simp only [exec] at hstep
    split_ifs at hstep with hcall
    obtain ⟨s', hrun, rfl⟩ := map_eq_some_iff.mp hstep
    obtain ⟨lists, hinv⟩ := h.inv
    rcases maintains_cases hcall hinv hrun with hflushed | hc
    · exact h.of_grown (inv_step hinv hrun) (.of_flushed hflushed) (Or.inr hflushed.tbFlushed)
    · exact h.of_grown (inv_step hinv hrun) (h.patched.mono hc.nbTbs hc.tbs hc.dest) (Or.inl hc.grown)

def keyAt (pc : TargetUlong) : Store.Key := ⟨pc, 0, 0⟩

def codeWithExits (exit0 exit1 : Option Store.Key) : List Store.Generated :=
  [⟨4, ![exit0, exit1], 40, 8, armWord_le_page, smallCode_pos⟩]

def idleMachine : Machine .bits32 := .initial (emptyStore smallConfig)

def afterCalls (calls : List ExecCall) : Option (Machine .bits32) :=
  execAll (Machine.exec smallConfig) idleMachine calls

/-- The state of the first CPU and the arguments of the call of `tb_add_jump` it would make. -/
def Machine.observe (x : Machine .bits32) : CpuState × Option (Nat × Nat × Nat) :=
  (x.cpus 0, (x.addJumpCall smallConfig 0 0 []).map fun call => (call.tb, call.n, call.tbNext))

variable {calls : List ExecCall}

theorem run_of_observe {tb n tbNext : Nat} (h : (afterCalls calls).map Machine.observe =
      some (.cached entered ret key, some (tb, n, tbNext))) :
    ∃ x call, Run (fun x call y => x.exec smallConfig call = some y) idleMachine calls x ∧
      x.cpus 0 = .cached entered ret key ∧ x.addJumpCall smallConfig 0 0 [] = some call ∧
      call.tb = tb ∧ call.n = n := by
  obtain ⟨x, hx, hobserve⟩ := map_eq_some_iff.mp h
  obtain ⟨hcpu, hcall⟩ := Prod.mk.inj hobserve
  obtain ⟨call, hcall, harg⟩ := map_eq_some_iff.mp hcall
  obtain ⟨htb, harg⟩ := Prod.mk.inj harg
  exact ⟨x, call, run_of_execAll hx, hcpu, hcall, htb, (Prod.mk.inj harg).1⟩

def ExecCall.stays (x : Machine host) : ExecCall → Bool
  | .fromCache cpu => !x.strayed cpu
  | _ => true

theorem run_straight {y : Machine host} (hrun : Run (fun x call y =>
      (if call.stays x then x.exec cfg call else none) = some y) x calls y) :
    Run (fun x call y => x.Straight call ∧ x.exec cfg call = some y) x calls y := by
  induction hrun with
  | nil => exact .nil _
  | @cons x _ _ call _ head _ ih =>
    obtain ⟨hstays, hexec⟩ := ite_none_right_eq_some.mp head
    refine .cons ⟨?_, hexec⟩ ih
    cases call with
    | fromCache cpu => exact fun hstrayed => by simp [ExecCall.stays, hstrayed] at hstays
    | start | block | stale | find | invalidate => trivial

/-- A block that branches to itself, and then falls through to the block after it. -/
def selfLoop : List ExecCall :=
  [.start 0 (keyAt 0x1000) 0 (codeWithExits (keyAt 0x1000) (keyAt 0x1004)),
    .start 1 (keyAt 0x1004) 0 (codeWithExits none none), .block 0 (.slot 0), .fromCache 0,
    .find 0 0 [], .block 0 (.slot 0), .block 0 (.slot 1), .fromCache 0]

/-- The CPU executes `bxeq lr` at `0x1000` with that address in `lr`. -/
def computedJump : List ExecCall :=
  [.start 0 (keyAt 0x1000) 0 (codeWithExits none (keyAt 0x1004)), .block 0 (.indirect (keyAt 0x1000)),
    .fromCache 0]

/-- A branch at `0x1004` to `0x1000` is chained to the branch there; then it is taken again, and the
second branch falls through to it. -/
def fallThrough : List ExecCall :=
  [.start 0 (keyAt 0x1004) 0 (codeWithExits (keyAt 0x1000) (keyAt 0x1008)),
    .start 1 (keyAt 0x1000) 0 (codeWithExits (keyAt 0x3000) (keyAt 0x1004)),
    .block 0 (.slot 0), .fromCache 0, .find 0 0 [], .block 0 (.slot 0), .fromCache 0,
    .start 0 (keyAt 0x1004) 0 [], .block 0 (.slot 0), .block 0 (.slot 1), .fromCache 0]

end TcgArm.Tb
