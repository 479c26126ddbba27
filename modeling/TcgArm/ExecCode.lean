import TcgArm.ExecLoop
import TcgArm.TbFind

/-! The code buffer under the threads that call `exec`. A block is looked up and generated under the
lock, but its code is executed without it. Every byte of the buffer carries the number of the code
generation that wrote it last, and a thread that enters a block remembers the bytes it was given. A
lookup writes to the buffer too: to chain a slot for which a block has no `goto_tb`, `tb_add_jump`
writes a jump somewhere into its code. -/

namespace TcgArm.Tb

open CpuState Function List Option Transition

variable {host : Host} {cfg : Config} {s s' : Store host} {lists : PageIndex → List (Nat × Fin 2)}

/-- An area of the code buffer. -/
structure CodeArea where
  start : Nat
  size : Nat
  deriving DecidableEq

def CodeArea.Mem (area : CodeArea) (a : Nat) : Prop := area.start ≤ a ∧ a < area.start + area.size

instance (area : CodeArea) (a : Nat) : Decidable (area.Mem a) :=
  inferInstanceAs (Decidable (_ ∧ _))

/-- The bytes of the code buffer, each named by the number of the generation that wrote it. -/
structure CodeBytes where
  byte : Nat → Nat
  generations : Nat

def CodeBytes.write (code : CodeBytes) (area : CodeArea) : CodeBytes where
  byte a := if area.Mem a then code.generations else code.byte a
  generations := code.generations + 1

/-- What an attempt to generate a block writes from `code_gen_ptr` on; an attempt that passes the
high water mark is given up before the end of the buffer. -/
def attemptArea (cfg : Config) (s : Store host) (g : Store.Generated) : CodeArea :=
  ⟨s.codeGenPtr, min (g.genCodeSize + g.searchSize)
    (cfg.codeGenBuffer + cfg.codeGenBufferSize - s.codeGenPtr)⟩

namespace Store

/-- The areas that the attempts of `genLoop` write. -/
def genLoopAreas (cfg : Config) (key : Key) : List Generated → Nat × Store host → List CodeArea
  | [], _ => []
  | g :: attempts, (_, s) =>
    attemptArea cfg s g ::
      if s.codeGenPtr + g.genCodeSize + g.searchSize ≤ cfg.codeGenHighwater then []
      else
        match (s.tbFlush cfg).bind fun s => s.tbAlloc cfg key.pc with
        | none => []
        | some start => genLoopAreas cfg key attempts start

/-- The areas that `tb_gen_code` writes. -/
def genAreas (cfg : Config) (s : Store host) (key : Key) (attempts : List Generated) :
    List CodeArea :=
  match s.tbAlloc cfg key.pc with
  | some start => genLoopAreas cfg key attempts start
  | none =>
    match (s.tbFlush cfg).bind fun s => s.tbAlloc cfg key.pc with
    | none => []
    | some start => genLoopAreas cfg key attempts start

def findSlowAreas (cfg : Config) (s : Store host) (key : Key) (attempts : List Generated) :
    List CodeArea :=
  match s.tbFindPhysical key with
  | some _ => []
  | none => s.genAreas cfg key attempts

/-- The next block is generated without a flush: there is a free descriptor, and the first attempt
stays below the high water mark. -/
def HasRoom (cfg : Config) (s : Store host) (attempts : List Generated) : Prop :=
  s.nbTbs < cfg.codeGenMaxBlocks ∧ ∀ g ∈ attempts.head?,
    s.codeGenPtr + g.genCodeSize + g.searchSize ≤ cfg.codeGenHighwater

/-- What the end of a lookup writes when the block to chain from has no `goto_tb` in the slot: a jump,
at a `jmp_insn_offset` that was never assigned. -/
def patchAreas (s : Store host) (cpu : Nat) (lookup : Pending) (offset : Nat) : List CodeArea :=
  match if s.tbFlushed cpu then none else lookup.lastTb with
  | none => []
  | some last =>
    if hexit : lookup.tbExit < 2 then
      if (s.jumps.link (.next last ⟨lookup.tbExit, hexit⟩)).isSome ∨
        ((s.tbs last).exits ⟨lookup.tbExit, hexit⟩).isSome then []
      else [⟨(s.tbs last).tcPtr + offset, 4⟩]
    else []

/-- The block to chain from has a `goto_tb` in the slot, unless a flush keeps it from being chained. -/
def HasSlot (s : Store host) (cpu : Nat) (lookup : Pending) : Prop :=
  ∀ last ∈ lookup.lastTb, s.tbFlushed cpu = true ∨
    ∀ n : Fin 2, lookup.tbExit = n → ((s.tbs last).exits n).isSome = true

end Store

/-- The code of a block as a thread was given it. -/
structure Handed where
  area : CodeArea
  byte : Nat → Nat

/-- The store, the code buffer and the threads, each with its CPU: where it is in `exec`, whether it
waits for the lock in the middle of a lookup, and the block it was given. -/
structure Threads (host : Host) where
  store : Store host
  code : CodeBytes
  cpus : Nat → CpuState
  pending : Nat → Option Pending
  handed : Nat → Handed

/-- The steps of a thread, with what a `jmp_insn_offset` holds that was never assigned, and an
operation on the store by anyone. -/
inductive ThreadLabel
  | start (cpu : Nat) (key : Store.Key) (cflags : BitVec 32)
  | find (cpu : Nat) (cflags : BitVec 32) (offset : Nat)
  | generate (cpu : Nat) (attempts : List Store.Generated) (offset : Nat)
  | block (cpu : Nat) (leave : Leave)
  | stale (cpu : Nat) (ret : TbRet) (key : Store.Key)
  | fromCache (cpu : Nat)
  | maintain (call : StoreCall)

def ThreadLabel.cpu : ThreadLabel → Option Nat
  | .start cpu _ _ | .find cpu _ _ | .generate cpu _ _ | .block cpu _ | .stale cpu _ _
  | .fromCache cpu => some cpu
  | .maintain _ => none

namespace Threads

variable (cfg : Config) (x : Threads host)

def setCpu (cpu : Nat) (state : CpuState) : Threads host :=
  { x with cpus := update x.cpus cpu state }

def enter (cpu entered tb : Nat) : Threads host :=
  let area : CodeArea := ⟨(x.store.tbs tb).tcPtr, (x.store.tbs tb).genCodeSize⟩
  { x with
    cpus := update x.cpus cpu (.running entered tb)
    pending := update x.pending cpu none
    handed := update x.handed cpu ⟨area, x.code.byte⟩ }

/-- The end of `tb_find_fast`. -/
def finish (cpu : Nat) (lookup : Pending) (offset : Nat) : Nat × Store host → Option (Threads host)
  | (tb, s) => do
    let areas := s.patchAreas cpu lookup offset
    let s ← s.tbChain cpu lookup.lastTb lookup.tbExit tb
    return { x with store := s, code := areas.foldl CodeBytes.write x.code }.enter cpu tb tb

/-- The first part of `tb_find_fast`. -/
def lookUp (cpu : Nat) (lookup : Pending) (offset : Nat) : Option (Threads host) :=
  match x.store.tbFindFirst cpu lookup.key with
  | none => some { x with pending := update x.pending cpu (some lookup) }
  | some found => x.finish cpu lookup offset found

def exec : ThreadLabel → Option (Threads host)
  | .start cpu key cflags =>
    match x.cpus cpu, x.pending cpu with
    | .idle, none =>
      let s := { x.store with tbFlushed := update x.store.tbFlushed cpu false }
      { x with store := s }.lookUp cpu ⟨key, none, 0, cflags⟩ 0
    | _, _ => none
  | .find cpu cflags offset =>
    match x.cpus cpu, x.pending cpu with
    | .cached entered ret key, none => x.lookUp cpu ⟨key, some entered, ret.tbExit, cflags⟩ offset
    | _, _ => none
  | .generate cpu attempts offset =>
    match x.pending cpu with
    | none => none
    | some lookup => do
      let areas := x.store.findSlowAreas cfg lookup.key attempts
      let found ← x.store.tbFindSlow cfg cpu lookup.key lookup.cflags attempts
      { x with code := areas.foldl CodeBytes.write x.code }.finish cpu lookup offset found
  | .block cpu leave =>
    match x.cpus cpu with
    | .running entered tb =>
      if x.store.tbFlushed cpu then none
      else
        match leaveBlock x.store entered tb leave with
        | none => none
        | some (.running entered tbNext) => some (x.enter cpu entered tbNext)
        | some state => some (x.setCpu cpu state)
    | _ => none
  | .stale cpu ret key =>
    match x.cpus cpu with
    | .running entered _ =>
      if x.store.tbFlushed cpu then some (x.setCpu cpu (.returned entered ret key)) else none
    | _ => none
  | .fromCache cpu =>
    match x.cpus cpu with
    | .returned entered ret key =>
      if tbExitIcountExpired ≤ ret.tbExit then none
      else
        match x.store.tbFromCache cpu key with
        | none => some (x.setCpu cpu .idle)
        | some _ => some (x.setCpu cpu (.cached entered ret key))
    | _ => none
  | .maintain call =>
    if call.maintains then (x.store.exec cfg call).map ({ x with store := · }) else none

def InBlock (cpu : Nat) : Prop := ∃ entered tb, x.cpus cpu = .running entered tb

/-- Code is generated only while no other thread is in a block that it was given before a flush,
the flushes of this generation included, and only slots with a `goto_tb` are chained. -/
def Quiet : ThreadLabel → Prop
  | .find cpu cflags _ => ∀ entered ret key, x.cpus cpu = .cached entered ret key →
      x.store.HasSlot cpu ⟨key, some entered, ret.tbExit, cflags⟩
  | .generate cpu attempts _ => ∀ lookup ∈ x.pending cpu, x.store.HasSlot cpu lookup ∧
      (x.store.tbFindPhysical lookup.key = none → ∀ d, d ≠ cpu → x.InBlock d →
        x.store.tbFlushed d = false ∧ x.store.HasRoom cfg attempts)
  | .start .. | .block .. | .stale .. | .fromCache _ | .maintain _ => True

def Untouched : Prop :=
  ∀ cpu, x.InBlock cpu → ∀ a, (x.handed cpu).area.Mem a → x.code.byte a = (x.handed cpu).byte a

end Threads

variable {attempts : List Store.Generated} {key : Store.Key}

/-- With room for a block, the one attempt writes from `code_gen_ptr` on. -/
theorem genAreas_of_hasRoom (hroom : s.HasRoom cfg attempts) :
    ∀ area ∈ s.genAreas cfg key attempts, s.codeGenPtr ≤ area.start := by
  obtain ⟨⟨tb, s1⟩, halloc⟩ := tbAlloc_of_lt key.pc hroom.1
  obtain ⟨-, rfl⟩ := tbAlloc_eq_some halloc
  simp only [Store.genAreas, halloc]
  cases attempts with
  | nil => exact fun area harea => absurd harea not_mem_nil
  | cons g attempts =>
    intro area harea
    rw [Store.genLoopAreas, if_pos (hroom.2 g rfl), mem_singleton] at harea
    rw [harea]
    exact le_rfl

theorem CodeBytes.write_of_lt {areas : List CodeArea} {bound a : Nat} (code : CodeBytes)
    (hareas : ∀ area ∈ areas, bound ≤ area.start) (ha : a < bound) :
    (areas.foldl CodeBytes.write code).byte a = code.byte a := by
  induction areas generalizing code with
  | nil => rfl
  | cons area areas ih =>
    rw [foldl_cons, ih _ fun area' harea' => hareas area' (mem_cons_of_mem _ harea')]
    have hle := hareas area mem_cons_self
    exact if_neg fun hmem => absurd hmem.1 (by omega)

theorem patchAreas_of_hasSlot {cpu : Nat} {lookup : Pending} (h : s.HasSlot cpu lookup) (offset : Nat) :
    s.patchAreas cpu lookup offset = [] := by
  unfold Store.patchAreas
  split
  · rfl
  · rename_i last hlast
    split_ifs at hlast with hflushed
    split_ifs with hexit hdone
    · rfl
    · exact absurd (Or.inr (((h last hlast).resolve_left hflushed) ⟨_, hexit⟩ rfl)) hdone
    · rfl

/-- Patched jumps of the blocks lead to blocks that have not been flushed. -/
def JumpsInside (s : Store host) : Prop :=
  ∀ t < s.nbTbs, ∀ n u, s.jumps.dest t n = .entry u → u < s.nbTbs

theorem JumpsInside.calm (h : JumpsInside s) (hcalm : Calm s s') : JumpsInside s' := by
  intro t ht n u hu
  rw [hcalm.nbTbs] at ht ⊢
  rcases hcalm.dest t n with heq | hreset
  · exact h t ht n u (heq ▸ hu)
  · rw [hreset] at hu
    cases hu

theorem JumpsInside.of_flushed (hflushed : Flushed cfg s s') : JumpsInside s' := by
  intro t ht
  rw [hflushed.nbTbs] at ht
  exact absurd ht (Nat.not_lt_zero t)

variable {t : Nat}

theorem JumpsInside.added {tb : TranslationBlock} (h : JumpsInside s) (hadded : Added s s' t tb) :
    JumpsInside s' := by
  intro v hv n u hu
  rw [hadded.dest] at hu
  rw [hadded.nbTbs]
  rcases hadded.lt_cases hv with rfl | ⟨hlt, hne⟩
  · rw [update_self] at hu
    split at hu <;> cases hu
  · rw [update_of_ne hne] at hu
    exact Nat.lt_succ_of_lt (h v hlt n u hu)

theorem Generation.grown {cflags : BitVec 32} (h : Generation cfg s s' key cflags attempts t)
    (hjumps : JumpsInside s) :
    JumpsInside s' ∧ (Grown s s' ∨ s'.tbFlushed = fun _ => true) := by
  obtain ⟨-, s1, hs1, g, -, hadded, -⟩ := h
  rcases hs1 with rfl | hflushed
  · refine ⟨hjumps.added hadded, Or.inl ⟨?_, fun u hu => ?_, hadded.tbFlushed⟩⟩
    · exact (Nat.le_succ _).trans hadded.nbTbs.ge
    · exact hadded.tbs_of_ne (hadded.index ▸ hu.ne)
  · refine ⟨(JumpsInside.of_flushed hflushed).added hadded, Or.inr ?_⟩
    exact hadded.tbFlushed.trans hflushed.tbFlushed

theorem JumpsInside.chain {cpu tbExit : Nat} {lastTb : Option Nat} (h : JumpsInside s)
    (ht : t < s.nbTbs) (hrun : s.tbChain cpu lastTb tbExit t = some s') : JumpsInside s' := by
  rcases tbChain_cases hrun with rfl | ⟨last, -, n, -, -, rfl⟩
  · exact h
  · intro v hv k u hu
    have hnb : (s.jumps.tbAddJump last n t).nbTbs = s.nbTbs := nbTbs_tbAddJump ..
    change u < (s.jumps.tbAddJump last n t).nbTbs
    change v < (s.jumps.tbAddJump last n t).nbTbs at hv
    rw [hnb] at hv ⊢
    rcases tbAddJump_dest s.jumps last n t v k with heq | ⟨-, -, heq⟩
    · exact h v hv k u (heq ▸ hu)
    · cases heq.symm.trans hu
      exact ht

theorem Store.HasSlot.grown {cpu : Nat} {lookup : Pending} (h : s.HasSlot cpu lookup)
    (hlast : s.tbFlushed cpu = false → ∀ last ∈ lookup.lastTb, last < s.nbTbs)
    (hgrown : Grown s s' ∨ s'.tbFlushed = fun _ => true) : s'.HasSlot cpu lookup := by
  intro last hmem
  rcases hgrown with hgrown | hall
  · rw [hgrown.tbFlushed]
    cases hflushed : s.tbFlushed cpu with
    | true => exact Or.inl rfl
    | false =>
      rw [hgrown.tbs last (hlast hflushed last hmem)]
      exact Or.inr ((h last hmem).resolve_left (Bool.eq_false_iff.mp hflushed))
  · exact Or.inl (congrFun hall cpu)

variable {leave : Leave}

theorem leaveBlock_inside {entered tb tbNext : Nat} (h : JumpsInside s) (htb : tb < s.nbTbs)
    (hrun : leaveBlock s entered tb leave = some (.running entered tbNext)) :
    tbNext < s.nbTbs := by
  cases leave with
  | slot n =>
    simp only [leaveBlock] at hrun
    split at hrun
    · rename_i hdest
      cases hrun
      exact h tb htb n _ hdest
    · cases hrun
    · cases hrun
  | indirect => cases (ite_none_right_eq_some.mp hrun).2
  | requested => cases hrun

variable {c : CpuState}

/-- The block that the code of a call of `exec` was entered by stays the same. -/
theorem leaveBlock_entered {entered tb : Nat} (hrun : leaveBlock s entered tb leave = some c) :
    (∃ tbNext, c = .running entered tbNext) ∨ ∃ ret key, c = .returned entered ret key := by
  cases leave with
  | slot n =>
    simp only [leaveBlock] at hrun
    split at hrun
    · cases hrun
      exact Or.inl ⟨_, rfl⟩
    · cases hrun
      exact Or.inr ⟨_, _, rfl⟩
    · cases hrun
  | indirect =>
    cases (ite_none_right_eq_some.mp hrun).2
    exact Or.inr ⟨_, _, rfl⟩
  | requested => cases hrun

def CpuState.blocks : CpuState → List Nat
  | .idle => []
  | .running entered tb => [entered, tb]
  | .returned entered _ _ | .cached entered _ _ => [entered]

/-- What a thread knows of blocks that have not been flushed. -/
structure ThreadOk (s : Store host) (c : CpuState) (pending : Option Pending) (area : CodeArea) :
    Prop where
  blocks : ∀ b ∈ c.blocks, b < s.nbTbs
  last : ∀ lookup ∈ pending, ∀ last ∈ lookup.lastTb, last < s.nbTbs
  area : ∀ entered tb, c = .running entered tb → area = ⟨(s.tbs tb).tcPtr, (s.tbs tb).genCodeSize⟩

theorem ThreadOk.mono {pending : Option Pending} {area : CodeArea} (h : ThreadOk s c pending area)
    (hnb : s.nbTbs ≤ s'.nbTbs) (htbs : ∀ t < s.nbTbs, s'.tbs t = s.tbs t) :
    ThreadOk s' c pending area := by
  refine ⟨fun b hb => (h.blocks b hb).trans_le hnb,
    fun lookup hp last hl => (h.last lookup hp last hl).trans_le hnb, fun entered tb hc => ?_⟩
  have htb : tb < s.nbTbs := h.blocks tb (by simp [hc, CpuState.blocks])
  rw [htbs tb htb]
  exact h.area entered tb hc

namespace Threads

structure Sound (cfg : Config) (x : Threads host) : Prop where
  inv : ∃ lists, Inv cfg x.store none lists
  jumps : JumpsInside x.store
  thread : ∀ d, x.store.tbFlushed d = false → ThreadOk x.store (x.cpus d) (x.pending d) (x.handed d).area
  waits : ∀ d, x.pending d ≠ none → ¬ x.InBlock d
  untouched : x.Untouched

variable {x y : Threads host}

theorem Sound.of_grown (h : x.Sound cfg) (hinv : ∃ lists, Inv cfg s' none lists)
    (hjumps : JumpsInside s') (hgrown : Grown x.store s' ∨ s'.tbFlushed = fun _ => true) :
    Sound cfg { x with store := s' } := by
  refine ⟨hinv, hjumps, fun d hd => ?_, h.waits, h.untouched⟩
  rcases hgrown with hgrown | hall
  · have hbefore : x.store.tbFlushed d = false := hgrown.tbFlushed ▸ hd
    exact (h.thread d hbefore).mono hgrown.nbTbs_le hgrown.tbs
  · rw [show s'.tbFlushed d = true from congrFun hall d] at hd
    cases hd

/-- Everything but one thread stays, and the blocks as well. -/
structure OnlyThread (x y : Threads host) (cpu : Nat) : Prop where
  nbTbs : y.store.nbTbs = x.store.nbTbs
  tbs : y.store.tbs = x.store.tbs
  code : y.code = x.code
  tbFlushed : ∀ d ≠ cpu, y.store.tbFlushed d = x.store.tbFlushed d
  cpus : ∀ d ≠ cpu, y.cpus d = x.cpus d
  pending : ∀ d ≠ cpu, y.pending d = x.pending d
  handed : ∀ d ≠ cpu, y.handed d = x.handed d

variable {cpu : Nat}

theorem OnlyThread.trans {z : Threads host} (h : OnlyThread x y cpu) (h' : OnlyThread y z cpu) :
    OnlyThread x z cpu :=
  ⟨h'.nbTbs.trans h.nbTbs, h'.tbs.trans h.tbs, h'.code.trans h.code,
    fun d hd => (h'.tbFlushed d hd).trans (h.tbFlushed d hd),
    fun d hd => (h'.cpus d hd).trans (h.cpus d hd),
    fun d hd => (h'.pending d hd).trans (h.pending d hd),
    fun d hd => (h'.handed d hd).trans (h.handed d hd)⟩

theorem InBlock.congr {d : Nat} (h : y.InBlock d) (hcpus : y.cpus d = x.cpus d) : x.InBlock d := by
  obtain ⟨entered, tb, hc⟩ := h
  exact ⟨entered, tb, hcpus ▸ hc⟩

theorem Sound.of_onlyThread (h : x.Sound cfg) (honly : OnlyThread x y cpu)
    (hinv : ∃ lists, Inv cfg y.store none lists) (hjumps : JumpsInside y.store)
    (hok : y.store.tbFlushed cpu = false → ThreadOk y.store (y.cpus cpu) (y.pending cpu) (y.handed cpu).area)
    (hwaits : y.pending cpu ≠ none → ¬ y.InBlock cpu)
    (hbytes : y.InBlock cpu → (y.handed cpu).byte = y.code.byte) : y.Sound cfg := by
  refine ⟨hinv, hjumps, fun d hd => ?_, fun d hd => ?_, fun d hd a ha => ?_⟩
  · by_cases hdc : d = cpu
    · subst hdc
      exact hok hd
    · rw [honly.cpus d hdc, honly.pending d hdc, honly.handed d hdc]
      have hbefore : x.store.tbFlushed d = false := honly.tbFlushed d hdc ▸ hd
      exact (h.thread d hbefore).mono honly.nbTbs.ge fun t _ => congrFun honly.tbs t
  · by_cases hdc : d = cpu
    · subst hdc
      exact hwaits hd
    · rw [honly.pending d hdc] at hd
      exact fun hin => h.waits d hd (hin.congr (honly.cpus d hdc))
  · by_cases hdc : d = cpu
    · subst hdc
      rw [hbytes hd]
    · rw [honly.handed d hdc] at ha ⊢
      rw [honly.code]
      exact h.untouched d (hd.congr (honly.cpus d hdc)) a ha

/-- A thread is given a block of the store. -/
theorem Sound.finish {cpu t offset : Nat} {lookup : Pending} (h : x.Sound cfg) (ht : t ∈ x.store.live)
    (hchain : x.store.CanChain cpu lookup.lastTb) (hslot : x.store.HasSlot cpu lookup)
    (hrun : x.finish cpu lookup offset (t, x.store) = some y) : y.Sound cfg ∧ OnlyThread x y cpu := by
  simp only [Threads.finish, patchAreas_of_hasSlot hslot, foldl_nil] at hrun
  obtain ⟨s', hs', heq⟩ := bind_eq_some_iff.mp hrun
  cases heq
  obtain ⟨lists, hinv⟩ := h.inv
  obtain ⟨hinv', -, htbs⟩ := tbChain_inv hinv ht hchain hs'
  have hnb := (tbChain_keeps hs').nbTbs
  have hlt := hinv.live_lt ht
  have honly : OnlyThread x ({ x with store := s' }.enter cpu t t) cpu := by
    refine ⟨hnb, htbs, rfl, fun d hd => ?_, fun d hd => update_of_ne hd ..,
      fun d hd => update_of_ne hd .., fun d hd => update_of_ne hd ..⟩
    rcases tbChain_cases hs' with rfl | ⟨_, _, _, _, _, rfl⟩ <;> exact update_of_ne hd ..
  refine ⟨h.of_onlyThread honly ⟨lists, hinv'⟩ (h.jumps.chain hlt hs') ?_ ?_ ?_, honly⟩
  · intro _
    simp only [enter, update_self]
    refine ⟨fun b hb => ?_, by simp, fun entered tb hc => ?_⟩
    · rw [show b = t by simpa [blocks] using hb]
      exact hlt.trans_eq hnb.symm
    · cases hc
      rfl
  · simp [enter]
  · simp [enter]

/-- The other threads stay where they are, and so does the code they execute. -/
def LeavesOthers (x y : Threads host) (cpu : Option Nat) : Prop :=
  ∀ d, cpu ≠ some d → y.cpus d = x.cpus d ∧ y.handed d = x.handed d ∧
    (x.InBlock d → ∀ a, (x.handed d).area.Mem a → y.code.byte a = x.code.byte a)

theorem OnlyThread.leavesOthers (h : OnlyThread x y cpu) : LeavesOthers x y (some cpu) := by
  intro d hd
  have hdc : d ≠ cpu := fun heq => hd (congrArg some heq.symm)
  exact ⟨h.cpus d hdc, h.handed d hdc, fun _ a _ => by rw [h.code]⟩

variable {cache : Nat → TargetUlong → Option Nat}

theorem OnlyThread.of_cache
    (h : OnlyThread { x with store := { x.store with tbJmpCache := cache } } y cpu) :
    OnlyThread x y cpu :=
  ⟨h.nbTbs, h.tbs, h.code, h.tbFlushed, h.cpus, h.pending, h.handed⟩

theorem Sound.set_cache (h : x.Sound cfg)
    (hinv : ∃ lists, Inv cfg { x.store with tbJmpCache := cache } none lists) :
    Sound cfg { x with store := { x.store with tbJmpCache := cache } } :=
  h.of_grown hinv h.jumps (Or.inl ⟨le_rfl, fun _ _ => rfl, rfl⟩)

variable {lookup : Pending} {offset : Nat}

open Threads

/-- The first part of a lookup. -/
theorem Sound.lookUp (h : x.Sound cfg) (hout : ¬ x.InBlock cpu)
    (hchain : x.store.CanChain cpu lookup.lastTb) (hslot : x.store.HasSlot cpu lookup)
    (hrun : x.lookUp cpu lookup offset = some y) : y.Sound cfg ∧ OnlyThread x y cpu := by
  obtain ⟨lists, hinv⟩ := h.inv
  unfold Threads.lookUp at hrun
  split at hrun
  · cases hrun
    have honly : OnlyThread x { x with pending := update x.pending cpu (some lookup) }
        cpu :=
      ⟨rfl, rfl, rfl, fun _ _ => rfl, fun _ _ => rfl, fun d hd => update_of_ne hd .., fun _ _ => rfl⟩
    refine ⟨h.of_onlyThread honly h.inv h.jumps (fun hflushed => ?_) (fun _ => hout)
      fun hin => absurd hin hout, honly⟩
    have hok := h.thread cpu hflushed
    refine ⟨hok.blocks, fun lookup' hlookup' last hlast => ?_, hok.area⟩
    simp only [update_self, mem_some_iff] at hlookup'
    rw [← hlookup'] at hlast
    refine (hchain last hlast).resolve_left fun htrue => ?_
    rw [show x.store.tbFlushed cpu = false from hflushed] at htrue
    cases htrue
  · rename_i found hfind
    obtain ⟨t, s1⟩ := found
    obtain ⟨hinv1, -, hfound⟩ := tbFindFirst_spec hinv hfind
    obtain ⟨cache, rfl⟩ := tbFindFirst_cache hfind
    obtain ⟨hy, honly⟩ := (h.set_cache ⟨lists, hinv1⟩).finish hfound.live hchain hslot hrun
    exact ⟨hy, honly.of_cache⟩

/-- The second part of a lookup, before the thread is given the block. -/
theorem Sound.generated {t : Nat} {attempts : List Store.Generated} (h : x.Sound cfg)
    (hquiet : x.Quiet cfg (.generate cpu attempts offset)) (hpending : x.pending cpu = some lookup)
    (hrun : x.store.tbFindSlow cfg cpu lookup.key lookup.cflags attempts = some (t, s')) :
    Sound cfg ⟨s', (x.store.findSlowAreas cfg lookup.key attempts).foldl CodeBytes.write x.code,
        x.cpus, x.pending, x.handed⟩ ∧ (Grown x.store s' ∨ s'.tbFlushed = fun _ => true) ∧
      ∀ d ≠ cpu, x.InBlock d → ∀ a, (x.handed d).area.Mem a →
        ((x.store.findSlowAreas cfg lookup.key attempts).foldl CodeBytes.write x.code).byte a =
          x.code.byte a := by
  obtain ⟨lists, hinv⟩ := h.inv
  obtain ⟨hinv', -⟩ := tbFindSlow_spec hinv hrun
  cases hfind : x.store.tbFindPhysical lookup.key with
  | some u =>
    simp only [Store.tbFindSlow, hfind, bind_eq_bind, bind_some] at hrun
    cases hrun
    simp only [Store.findSlowAreas, hfind, foldl_nil]
    exact ⟨h.set_cache hinv', .inl ⟨le_rfl, fun _ _ => rfl, rfl⟩, fun _ _ _ _ _ => trivial⟩
  | none =>
    simp only [Store.tbFindSlow, hfind, bind_eq_bind, bind_eq_some_iff] at hrun
    obtain ⟨⟨u, s1⟩, hgen, heq⟩ := hrun
    cases heq
    simp only [Store.findSlowAreas, hfind]
    have hkept : ∀ d ≠ cpu, x.InBlock d → ∀ a, (x.handed d).area.Mem a →
        ((x.store.genAreas cfg lookup.key attempts).foldl CodeBytes.write x.code).byte a = x.code.byte a := by
      intro d hd hin a ha
      obtain ⟨hflushed, hroom⟩ := (hquiet lookup hpending).2 hfind d hd hin
      refine CodeBytes.write_of_lt _ (genAreas_of_hasRoom hroom) ?_
      -- the block of the other thread lies before `code_gen_ptr`
      obtain ⟨entered, tb, hc⟩ := hin
      have hok := h.thread d hflushed
      have htb : tb < x.store.nbTbs := hok.blocks tb (by simp [hc, blocks])
      obtain ⟨-, -, hend⟩ := hinv.areas.inside tb htb
      rw [hok.area entered tb hc] at ha
      have hlt := ha.2
      simp only at hlt
      omega
    obtain ⟨hjumps, hgrown⟩ := (tbGenCode_spec hinv hgen).grown h.jumps
    have hgrown' : Grown x.store (s1.setJmpCache cpu (tbJmpCacheHashFunc lookup.key.pc) u) ∨
        s1.tbFlushed = fun _ => true := hgrown.imp_left fun hg => ⟨hg.nbTbs_le, hg.tbs, hg.tbFlushed⟩
    refine ⟨⟨hinv', hjumps, (h.of_grown hinv' hjumps hgrown').thread, h.waits, fun d hd a ha => ?_⟩,
      hgrown', hkept⟩
    have hdc : d ≠ cpu := by
      rintro rfl
      exact h.waits d (by rw [hpending]; simp) hd
    exact (hkept d hdc hd a ha).trans (h.untouched d hd a ha)

/-- A thread goes on outside of generated code. -/
theorem Sound.setCpu {c : CpuState} (h : x.Sound cfg) (hc : ∀ entered tb, c ≠ .running entered tb)
    (hblocks : x.store.tbFlushed cpu = false → ∀ b ∈ c.blocks, b < x.store.nbTbs) :
    (x.setCpu cpu c).Sound cfg ∧ OnlyThread x (x.setCpu cpu c) cpu := by
  have honly : OnlyThread x (x.setCpu cpu c) cpu :=
    ⟨rfl, rfl, rfl, fun _ _ => rfl, fun d hd => update_of_ne hd .., fun _ _ => rfl, fun _ _ => rfl⟩
  have hself : (x.setCpu cpu c).cpus cpu = c := update_self ..
  have hout : ¬ (x.setCpu cpu c).InBlock cpu := by
    rintro ⟨entered, tb, hrunning⟩
    exact hc entered tb (hself.symm.trans hrunning)
  refine ⟨h.of_onlyThread honly h.inv h.jumps (fun hflushed => ?_) (fun _ => hout)
    fun hin => absurd hin hout, honly⟩
  have hok := h.thread cpu hflushed
  rw [hself]
  exact ⟨hblocks hflushed, hok.last, fun entered tb hrunning => absurd hrunning (hc entered tb)⟩

/-- The code of a block. -/
theorem Sound.block {leave : Leave} (h : x.Sound cfg)
    (hrun : x.exec cfg (.block cpu leave) = some y) : y.Sound cfg ∧ OnlyThread x y cpu := by
  simp only [exec] at hrun
  split at hrun
  swap
  · cases hrun
  rename_i entered tb hcpu
  split at hrun
  · cases hrun
  rename_i hflushed
  have hok := h.thread cpu (Bool.eq_false_iff.mpr hflushed)
  rw [hcpu] at hok
  have hentered : entered < x.store.nbTbs := hok.blocks entered (by simp [blocks])
  have htb : tb < x.store.nbTbs := hok.blocks tb (by simp [blocks])
  split at hrun
  · cases hrun
  · rename_i entered' tbNext hleave
    cases hrun
    obtain ⟨_, heq⟩ | ⟨_, _, heq⟩ := leaveBlock_entered hleave
    · cases heq
      have hnext := leaveBlock_inside h.jumps htb hleave
      have honly : OnlyThread x (x.enter cpu entered tbNext) cpu :=
        ⟨rfl, rfl, rfl, fun _ _ => rfl, fun d hd => update_of_ne hd ..,
          fun d hd => update_of_ne hd .., fun d hd => update_of_ne hd ..⟩
      refine ⟨h.of_onlyThread honly h.inv h.jumps (fun _ => ?_) ?_ ?_, honly⟩
      · simp only [enter, update_self]
        refine ⟨fun b hb => ?_, by simp, fun entered' tb' hc => ?_⟩
        · rcases (by simpa [blocks] using hb : b = entered ∨ b = tbNext) with rfl | rfl
          · exact hentered
          · exact hnext
        · cases hc
          rfl
      · simp [enter]
      · simp [enter]
    · cases heq
  · rename_i c hnot hleave
    cases hrun
    obtain ⟨tbNext, rfl⟩ | ⟨ret, key, rfl⟩ := leaveBlock_entered hleave
    · exact absurd rfl (hnot entered tbNext)
    · refine h.setCpu (fun _ _ heq => by cases heq) fun _ b hb => ?_
      rw [show b = entered by simpa [blocks] using hb]
      exact hentered

/-- A step within the condition keeps the invariant and leaves the other threads their code. -/
theorem Sound.step {label : ThreadLabel} (h : x.Sound cfg) (hquiet : x.Quiet cfg label)
    (hstep : x.exec cfg label = some y) : y.Sound cfg ∧ LeavesOthers x y label.cpu := by
  have honly : ∀ {cpu : Nat}, label.cpu = some cpu → y.Sound cfg ∧ OnlyThread x y cpu →
      y.Sound cfg ∧ LeavesOthers x y label.cpu := fun hcpu hy =>
    ⟨hy.1, hcpu ▸ hy.2.leavesOthers⟩
  cases label with
  | start cpu key cflags =>
    refine honly rfl ?_
    simp only [exec] at hstep
    split at hstep
    swap
    · cases hstep
    rename_i hcpu hpending
    obtain ⟨lists, hinv⟩ := h.inv
    let x1 : Threads host := { x with
      store := { x.store with tbFlushed := update x.store.tbFlushed cpu false } }
    have honly1 : OnlyThread x x1 cpu :=
      ⟨rfl, rfl, rfl, fun d hd => update_of_ne hd .., fun _ _ => rfl, fun _ _ => rfl, fun _ _ => rfl⟩
    have hout : ¬ x1.InBlock cpu := by
      rintro ⟨entered, tb, hc⟩
      cases hcpu.symm.trans hc
    have h1 : x1.Sound cfg := by
      refine h.of_onlyThread honly1 ⟨lists, hinv.set_flushed _⟩ h.jumps (fun _ => ?_)
        (fun _ => hout) fun hin => absurd hin hout
      rw [show x1.cpus cpu = .idle from hcpu, show x1.pending cpu = none from hpending]
      exact ⟨by simp [blocks], by simp, fun _ _ heq => by cases heq⟩
    obtain ⟨hy, honly2⟩ := h1.lookUp hout (fun last hlast => by cases hlast)
      (fun last hlast => by cases hlast) hstep
    exact ⟨hy, honly1.trans honly2⟩
  | find cpu cflags offset =>
    refine honly rfl ?_
    simp only [exec] at hstep
    split at hstep
    swap
    · cases hstep
    rename_i entered ret key hcpu hpending
    have hout : ¬ x.InBlock cpu := by
      rintro ⟨entered', tb, hc⟩
      cases hcpu.symm.trans hc
    refine h.lookUp hout (fun last hlast => ?_) (hquiet entered ret key hcpu) hstep
    cases hlast
    cases hflushed : x.store.tbFlushed cpu with
    | true => exact Or.inl rfl
    | false =>
      refine Or.inr ((h.thread cpu hflushed).blocks entered ?_)
      simp [hcpu, blocks]
  | generate cpu attempts offset =>
    simp only [exec] at hstep
    split at hstep
    · cases hstep
    rename_i lookup hpending
    obtain ⟨⟨t, s1⟩, hslow, hstep⟩ := bind_eq_some_iff.mp hstep
    obtain ⟨lists, hinv⟩ := h.inv
    obtain ⟨-, hfound⟩ := tbFindSlow_spec hinv hslow
    obtain ⟨h1, hgrown, hkept⟩ := h.generated hquiet hpending hslow
    have hchain : s1.CanChain cpu lookup.lastTb := by
      intro last hlast
      cases hflushed : s1.tbFlushed cpu with
      | true => exact Or.inl rfl
      | false => exact Or.inr ((h1.thread cpu hflushed).last lookup hpending last hlast)
    have hslot : s1.HasSlot cpu lookup := (hquiet lookup hpending).1.grown
      (fun hflushed => (h.thread cpu hflushed).last lookup hpending) hgrown
    obtain ⟨hy, honly1⟩ := h1.finish hfound.live hchain hslot hstep
    refine ⟨hy, fun d hd => ?_⟩
    have hdc : d ≠ cpu := fun heq => hd (congrArg some heq.symm)
    refine ⟨honly1.cpus d hdc, honly1.handed d hdc, fun hin a ha => ?_⟩
    rw [honly1.code]
    exact hkept d hdc hin a ha
  | block cpu leave => exact honly rfl (h.block hstep)
  | stale cpu ret key =>
    refine honly rfl ?_
    simp only [exec] at hstep
    split at hstep
    swap
    · cases hstep
    split at hstep
    · rename_i hflushed
      cases hstep
      refine h.setCpu (fun _ _ heq => by cases heq) fun hfalse => ?_
      rw [hflushed] at hfalse
      cases hfalse
    · cases hstep
  | fromCache cpu =>
    refine honly rfl ?_
    simp only [exec] at hstep
    split at hstep
    swap
    · cases hstep
    rename_i entered ret key hcpu
    split at hstep
    · cases hstep
    split at hstep
    · cases hstep
      exact h.setCpu (fun _ _ heq => by cases heq) (by simp [blocks])
    · cases hstep
      refine h.setCpu (fun _ _ heq => by cases heq) fun hflushed => ?_
      have hblocks := (h.thread cpu hflushed).blocks
      rwa [hcpu] at hblocks
  | maintain call =>
    simp only [exec] at hstep
    split_ifs at hstep with hcall
    obtain ⟨s', hrun, rfl⟩ := map_eq_some_iff.mp hstep
    obtain ⟨lists, hinv⟩ := h.inv
    refine ⟨?_, fun _ _ => ⟨rfl, rfl, fun _ _ _ => rfl⟩⟩
    rcases maintains_cases hcall hinv hrun with hflushed | hc
    · exact h.of_grown (inv_step hinv hrun) (.of_flushed hflushed) (Or.inr hflushed.tbFlushed)
    · exact h.of_grown (inv_step hinv hrun) (h.jumps.calm hc) (Or.inl hc.grown)

/-- All threads outside of `exec`. -/
def initial (s : Store host) : Threads host :=
  ⟨s, ⟨fun _ => 0, 1⟩, fun _ => .idle, fun _ => none, fun _ => ⟨⟨0, 0⟩, fun _ => 0⟩⟩

theorem sound_initial (h : s.Initial cfg) : (initial s).Sound cfg := by
  have hout : ∀ d, ¬ (initial s).InBlock d := by
    rintro d ⟨entered, tb, hc⟩
    cases hc
  refine ⟨⟨_, inv_initial h⟩, fun t ht => ?_, fun d _ => ?_, fun d _ => hout d,
    fun d hd => absurd hd (hout d)⟩
  · exact absurd (h.nbTbs ▸ ht) (Nat.not_lt_zero t)
  · exact ⟨by simp [initial, blocks], by simp [initial], fun _ _ heq => by cases heq⟩

end Threads

/-- In every interleaving of the threads in which code is generated only while no other thread is in
a block that it was given before a flush, every thread in a block executes the bytes it was given,
and no step changes the code of a block that another thread is in. -/
theorem handed_code_untouched {s₀ : Store host} {labels : List ThreadLabel} {x : Threads host}
    (hinit : s₀.Initial cfg)
    (hrun : Run (fun x label y => x.Quiet cfg label ∧ x.exec cfg label = some y)
      (Threads.initial s₀) labels x) :
    x.Untouched ∧ ∀ label y, x.Quiet cfg label → x.exec cfg label = some y →
      Threads.LeavesOthers x y label.cpu := by
  have h : x.Sound cfg := hrun.invariant (Threads.Sound cfg)
    (fun _ _ _ h hstep => (h.step hstep.1 hstep.2).1) (Threads.sound_initial hinit)
  exact ⟨h.untouched, fun label y hquiet hstep => (h.step hquiet hstep).2⟩

/-- A thread calls `exec` at a guest address and generates the block itself. -/
def startsAt (cpu : Nat) (pc : TargetUlong) : List ThreadLabel :=
  [.start cpu (keyAt pc) 0, .generate cpu (codeWithExits none none) 0]

def smallThreads : Threads .bits32 := Threads.initial (emptyStore smallConfig)

/-- The first thread, the code at the start of the buffer as it executes it, and as it was given. -/
def Threads.observe (x : Threads .bits32) : CpuState × CodeArea × Nat × Nat :=
  (x.cpus 0, (x.handed 0).area, x.code.byte 4096, (x.handed 0).byte 4096)

/-- The second block of the buffer is generated while the first one is executed. -/
theorem handed_code_untouched_two_blocks : ∃ x : Threads .bits32,
    Run (fun x label y => x.Quiet smallConfig label ∧ x.exec smallConfig label = some y)
      smallThreads (startsAt 0 0x1000 ++ startsAt 1 0x2000) x ∧
    x.cpus 0 = .running 0 0 ∧ x.cpus 1 = .running 1 1 ∧ x.Untouched := by
  have hend : (execAll (Threads.exec smallConfig) smallThreads
      (startsAt 0 0x1000 ++ startsAt 1 0x2000)).map (fun x => (x.cpus 0, x.cpus 1)) =
      some (.running 0 0, .running 1 1) := by decide +kernel
  have hlast : (smallThreads.exec smallConfig (.start 0 (keyAt 0x1000) 0)).map
      (fun x => (x.pending 0).bind Pending.lastTb) = some none := by decide +kernel
  have hroom : (execAll (Threads.exec smallConfig) smallThreads
      (startsAt 0 0x1000 ++ [.start 1 (keyAt 0x2000) 0])).map
        (fun x => (x.store.tbFlushed 0, x.store.nbTbs, x.store.codeGenPtr,
          (x.pending 1).bind Pending.lastTb)) = some (false, 1, 4144, none) := by decide +kernel
  obtain ⟨x, hx, hcpus⟩ := map_eq_some_iff.mp hend
  obtain ⟨hcpu0, hcpu1⟩ := Prod.mk.inj hcpus
  obtain ⟨x₁, h₁, hx⟩ := bind_eq_some_iff.mp hx
  obtain ⟨x₂, h₂, hx⟩ := bind_eq_some_iff.mp hx
  obtain ⟨x₃, h₃, hx⟩ := bind_eq_some_iff.mp hx
  obtain ⟨x₄, h₄, hx⟩ := bind_eq_some_iff.mp hx
  cases hx
  simp only [startsAt, List.cons_append, List.nil_append, execAll, h₁, h₂, h₃, bind_some,
    map_some, Option.some.injEq, Prod.mk.injEq] at hroom hlast
  have hsound₀ : smallThreads.Sound smallConfig := Threads.sound_initial (emptyStore_initial smallConfig)
  have hquiet₁ : smallThreads.Quiet smallConfig (.start 0 (keyAt 0x1000) 0) := trivial
  obtain ⟨hsound₁, hothers₁⟩ := hsound₀.step hquiet₁ h₁
  have hquiet₂ : x₁.Quiet smallConfig (.generate 0 (codeWithExits none none) 0) := by
    refine fun lookup hlookup => ⟨fun last hmem => ?_, fun _ d hd hin => ?_⟩
    · cases hlast.symm.trans (bind_eq_some_iff.mpr ⟨lookup, hlookup, hmem⟩)
    · obtain ⟨entered, tb, hc⟩ := hin
      rw [(hothers₁ d (mt Option.some.inj hd.symm)).1] at hc
      cases hc
  obtain ⟨hsound₂, hothers₂⟩ := hsound₁.step hquiet₂ h₂
  have hquiet₃ : x₂.Quiet smallConfig (.start 1 (keyAt 0x2000) 0) := trivial
  obtain ⟨-, hothers₃⟩ := hsound₂.step hquiet₃ h₃
  have hquiet₄ : x₃.Quiet smallConfig (.generate 1 (codeWithExits none none) 0) := by
    refine fun lookup hlookup => ⟨fun last hmem => ?_, fun _ d hd hin => ?_⟩
    · cases hroom.2.2.2.symm.trans (bind_eq_some_iff.mpr ⟨lookup, hlookup, hmem⟩)
    · by_cases hzero : d = 0
      · subst hzero
        refine ⟨hroom.1, by rw [hroom.2.1]; decide, fun g hg => ?_⟩
        cases hg
        rw [hroom.2.2.1]
        decide
      · obtain ⟨entered, tb, hc⟩ := hin
        have hother : some 0 ≠ some d := mt Option.some.inj (Ne.symm hzero)
        rw [(hothers₃ d (mt Option.some.inj hd.symm)).1, (hothers₂ d hother).1, (hothers₁ d hother).1] at hc
        cases hc
  have hrun : Run (fun x label y => x.Quiet smallConfig label ∧ x.exec smallConfig label = some y)
      smallThreads (startsAt 0 0x1000 ++ startsAt 1 0x2000) x :=
    Run.cons ⟨hquiet₁, h₁⟩ (Run.cons ⟨hquiet₂, h₂⟩ (Run.cons ⟨hquiet₃, h₃⟩
      (Run.cons ⟨hquiet₄, h₄⟩ (Run.nil x))))
  exact ⟨x, hrun, hcpu0, hcpu1, (handed_code_untouched (emptyStore_initial smallConfig) hrun).1⟩

/-- The third block of a buffer for two blocks is generated while a thread is in the first one: the
buffer is flushed, and the code of the new block is written over the code that the thread
executes. -/
theorem handed_code_overwritten : ∃ labels, ∃ x : Threads .bits32,
    Run (fun x label y => x.exec smallConfig label = some y) smallThreads labels x ∧
    x.cpus 0 = .running 0 0 ∧ (x.handed 0).area.Mem 4096 ∧
    (x.handed 0).byte 4096 = 1 ∧ x.code.byte 4096 = 3 ∧ ¬ x.Untouched := by
  have hobserve : (execAll (Threads.exec smallConfig) smallThreads
      (startsAt 0 0x1000 ++ startsAt 1 0x2000 ++
        [.block 1 (.indirect (keyAt 0x3000)), .fromCache 1] ++ startsAt 1 0x3000)).map
      Threads.observe = some (.running 0 0, ⟨4096, 40⟩, 3, 1) := by decide +kernel
  obtain ⟨x, hx, hseen⟩ := map_eq_some_iff.mp hobserve
  have hrun := run_of_execAll hx
  simp only [Threads.observe, Prod.mk.injEq] at hseen
  obtain ⟨hcpu, harea, hbyte, hgiven⟩ := hseen
  have hmem : (x.handed 0).area.Mem 4096 := by
    rw [harea]
    decide
  refine ⟨_, x, hrun, hcpu, hmem, hgiven, hbyte, fun h => ?_⟩
  have heq := h 0 ⟨0, 0, hcpu⟩ 4096 hmem
  rw [hbyte, hgiven] at heq
  cases heq

end TcgArm.Tb
