import TcgArm.Transition

/-! The pool of CPUs behind `exec` (`tcg-arm.c`). Every call scans the locks of the pool with
`pthread_mutex_trylock` until it gets one, works on that CPU and unlocks it. The calls of any number
of threads interleave between any two lock operations. -/

namespace TcgArm.Pool

open Finset Function List Transition

/-- `N_CPUS`. -/
def nCpus : Nat := 2

/-- Where a thread is: in no call of `exec`, in `acquire_cpu` about to try the lock `i` (past the
last lock it yields and starts over), holding a CPU it has not looked at yet, or past the check that
the CPU has its state. -/
inductive Phase
  | idle
  | scanning (i : Nat)
  | acquired (cpuid : Nat)
  | running (cpuid : Nat)
  deriving DecidableEq

def Phase.cpu? : Phase → Option Nat
  | .idle | .scanning _ => none
  | .acquired cpuid | .running cpuid => some cpuid

inductive LockOp
  | lock (cpuid : Nat)
  | unlock (cpuid : Nat)
  deriving DecidableEq

/-- The locks of the pool and its callers. The program does not store `log`: it lists what the
current or last call of a thread did to the locks. -/
structure Calls (Θ : Type) where
  localCpuLock : Nat → Bool
  phase : Θ → Phase
  log : Θ → List LockOp

/-- A thread calls `exec`, takes one step in it, or reaches the end of its block loop. -/
inductive Label (Θ : Type)
  | call (t : Θ)
  | step (t : Θ)
  | finish (t : Θ)
  deriving DecidableEq

namespace Calls

variable {Θ : Type} [DecidableEq Θ]

def initial : Calls Θ := ⟨fun _ => false, fun _ => .idle, fun _ => []⟩

section Steps

variable (n : Nat) (envPtr : Nat → Bool) (s : Calls Θ) (t : Θ)

def setPhase (phase : Phase) : Calls Θ := { s with phase := update s.phase t phase }

/-- A lock operation of `t`. -/
def setLock (cpuid : Nat) (held : Bool) (op : LockOp) : Calls Θ :=
  { s with
    localCpuLock := update s.localCpuLock cpuid held
    log := update s.log t (s.log t ++ [op]) }

/-- One iteration of the loops of `acquire_cpu`. -/
def acquireStep (i : Nat) : Calls Θ :=
  if i < n then
    if s.localCpuLock i then s.setPhase t (.scanning (i + 1))
    else (s.setLock t i true (.lock i)).setPhase t (.acquired i)
  else s.setPhase t (.scanning 0)

def releaseCpu (cpuid : Nat) : Calls Θ :=
  if cpuid < n then s.setLock t cpuid false (.unlock cpuid) else s

/-- `exec`, with `envPtr` saying which CPUs of the pool have their `env_ptr`. -/
def exec : Label Θ → Option (Calls Θ)
  | .call t =>
    match s.phase t with
    | .idle => some ({ s with log := update s.log t [] }.setPhase t (.scanning 0))
    | _ => none
  | .step t =>
    match s.phase t with
    | .idle => none
    | .scanning i => some (s.acquireStep n t i)
    -- without its state the call returns at once
    | .acquired cpuid => some (s.setPhase t (if envPtr cpuid then .running cpuid else .idle))
    | .running _ => some s
  | .finish t =>
    match s.phase t with
    | .running cpuid => some ((s.releaseCpu n t cpuid).setPhase t .idle)
    | _ => none

end Steps

def InFlight (s : Calls Θ) (t : Θ) : Prop := s.phase t ≠ .idle

instance (s : Calls Θ) (t : Θ) : Decidable (s.InFlight t) :=
  inferInstanceAs (Decidable (_ ≠ _))

/-- The call of `t` uses the CPU. -/
def Uses (s : Calls Θ) (t : Θ) (cpuid : Nat) : Prop := (s.phase t).cpu? = some cpuid

/-- The calls in flight apart from that of `t`. -/
def others [Fintype Θ] (s : Calls Θ) (t : Θ) : Finset Θ :=
  Finset.univ.filter fun u => u ≠ t ∧ s.InFlight u

end Calls

variable {Θ : Type} [DecidableEq Θ] {n : Nat} {envPtr : Nat → Bool}

def after (n : Nat) (envPtr : Nat → Bool) (labels : List (Label Θ)) : Option (Calls Θ) :=
  execAll (Calls.exec n envPtr) Calls.initial labels

/-- What the pool promises along a run: a CPU has one user; a call that returns has locked one CPU
and unlocked that CPU; and a call takes at most `n` steps to get a CPU while fewer than `n` others
are in flight. -/
structure RunRight [Fintype Θ] (n : Nat) (envPtr : Nat → Bool) (labels : List (Label Θ)) :
    Prop where
  exclusive : ∀ pre s, pre <+: labels → after n envPtr pre = some s →
    ∀ t u cpuid, s.Uses t cpuid → s.Uses u cpuid → t = u
  released : ∀ pre label s s', pre ++ [label] <+: labels → after n envPtr pre = some s →
    s.exec n envPtr label = some s' → ∀ t, s.InFlight t → ¬ s'.InFlight t →
      ∃ cpuid < n, s'.log t = [.lock cpuid, .unlock cpuid]
  served : ∀ pre t more s', pre ++ .call t :: more <+: labels → .call t ∉ more →
    (∀ mid s, mid <+: more → after n envPtr (pre ++ .call t :: mid) = some s → (s.others t).card < n) →
    after n envPtr (pre ++ .call t :: more) = some s' → n ≤ more.count (.step t) →
      ∃ cpuid < n, .lock cpuid ∈ s'.log t

def StatePresent (n : Nat) (envPtr : Nat → Bool) (labels : List (Label Θ)) : Prop :=
  ∀ pre t s cpuid, pre ++ [.step t] <+: labels → after n envPtr pre = some s →
    s.phase t = .acquired cpuid → envPtr cpuid = true

/-- The steps of `exec`, one constructor for each branch. -/
inductive Move (n : Nat) (envPtr : Nat → Bool) (s : Calls Θ) : Label Θ → Calls Θ → Prop
  | start {t : Θ} (hphase : s.phase t = .idle) :
      Move n envPtr s (.call t) ({ s with log := update s.log t [] }.setPhase t (.scanning 0))
  | taken {t : Θ} {i : Nat} (hphase : s.phase t = .scanning i) (hi : i < n)
      (hfree : s.localCpuLock i = false) :
      Move n envPtr s (.step t) ((s.setLock t i true (.lock i)).setPhase t (.acquired i))
  | busy {t : Θ} {i : Nat} (hphase : s.phase t = .scanning i) (hi : i < n)
      (hbusy : s.localCpuLock i = true) : Move n envPtr s (.step t) (s.setPhase t (.scanning (i + 1)))
  | restart {t : Θ} {i : Nat} (hphase : s.phase t = .scanning i) (hi : n ≤ i) :
      Move n envPtr s (.step t) (s.setPhase t (.scanning 0))
  | enter {t : Θ} {cpuid : Nat} (hphase : s.phase t = .acquired cpuid)
      (henv : envPtr cpuid = true) : Move n envPtr s (.step t) (s.setPhase t (.running cpuid))
  | leak {t : Θ} {cpuid : Nat} (hphase : s.phase t = .acquired cpuid)
      (henv : envPtr cpuid = false) : Move n envPtr s (.step t) (s.setPhase t .idle)
  | work {t : Θ} {cpuid : Nat} (hphase : s.phase t = .running cpuid) : Move n envPtr s (.step t) s
  | finish {t : Θ} {cpuid : Nat} (hphase : s.phase t = .running cpuid) :
      Move n envPtr s (.finish t) ((s.releaseCpu n t cpuid).setPhase t .idle)

variable {s s' : Calls Θ} {label : Label Θ}

open Calls

theorem move_of_exec (h : s.exec n envPtr label = some s') : Move n envPtr s label s' := by
  cases label with
  | call t =>
    simp only [exec] at h
    split at h
    · cases h
      exact .start ‹_›
    · cases h
  | step t =>
    simp only [exec] at h
    split at h
    · cases h
    · cases h
      unfold acquireStep
      split_ifs with hi hlock
      · exact .busy ‹_› hi hlock
      · exact .taken ‹_› hi (Bool.eq_false_iff.mpr hlock)
      · exact .restart ‹_› (Nat.le_of_not_lt hi)
    · cases h
      split_ifs with henv
      · exact .enter ‹_› henv
      · exact .leak ‹_› (Bool.eq_false_iff.mpr henv)
    · cases h
      exact .work ‹_›
  | finish t =>
    simp only [exec] at h
    split at h
    · cases h
      exact .finish ‹_›
    · cases h

namespace Calls

section

variable (s : Calls Θ)

section

variable (t : Θ) {cpuid : Nat}

@[simp]
theorem setPhase_phase (p : Phase) : (s.setPhase t p).phase = update s.phase t p := rfl

@[simp]
theorem setPhase_localCpuLock (p : Phase) :
    (s.setPhase t p).localCpuLock = s.localCpuLock := rfl

@[simp]
theorem setPhase_log (p : Phase) : (s.setPhase t p).log = s.log := rfl

@[simp]
theorem setLock_phase (cpuid : Nat) (held : Bool) (op : LockOp) :
    (s.setLock t cpuid held op).phase = s.phase := rfl

@[simp]
theorem setLock_localCpuLock (cpuid : Nat) (held : Bool) (op : LockOp) :
    (s.setLock t cpuid held op).localCpuLock = update s.localCpuLock cpuid held := rfl

@[simp]
theorem setLock_log (cpuid : Nat) (held : Bool) (op : LockOp) :
    (s.setLock t cpuid held op).log = update s.log t (s.log t ++ [op]) := rfl

theorem releaseCpu_of_lt (h : cpuid < n) :
    s.releaseCpu n t cpuid = s.setLock t cpuid false (.unlock cpuid) := if_pos h

end

end

end Calls

variable {p : Phase} {t : Θ} {i : Nat}

variable {u : Θ}

theorem uses_setPhase (h : (s.setPhase t p).Uses u cpuid) :
    u = t ∧ p.cpu? = some cpuid ∨ u ≠ t ∧ s.Uses u cpuid := by
  by_cases hut : u = t
  · subst hut
    left
    simpa [Calls.Uses] using h
  · right
    simpa [Calls.Uses, hut] using h

/-- The invariant of all runs: the users of CPUs hold their locks, and a call has locked just the
CPU it uses. -/
structure Inv (n : Nat) (s : Calls Θ) : Prop where
  lt : ∀ t cpuid, s.Uses t cpuid → cpuid < n
  locked : ∀ t cpuid, s.Uses t cpuid → s.localCpuLock cpuid = true
  unique : ∀ t u cpuid, s.Uses t cpuid → s.Uses u cpuid → t = u
  log : ∀ t, s.InFlight t → s.log t = (s.phase t).cpu?.toList.map .lock

omit [DecidableEq Θ] in
theorem Inv.initial : Inv n (Calls.initial : Calls Θ) where
  lt := nofun
  locked := nofun
  unique := nofun
  log := fun _ h => absurd rfl h

omit [DecidableEq Θ] in
theorem Inv.log_eq (h : Inv n s) (hphase : s.phase t = p) (hp : p ≠ .idle) :
    s.log t = p.cpu?.toList.map .lock := by
  rw [h.log t (hphase.trans_ne hp), hphase]

/-- A call goes on without using another CPU than before. -/
theorem Inv.setPhase (h : Inv n s) (hcpu : ∀ cpuid, p.cpu? = some cpuid → s.Uses t cpuid)
    (hlog : p ≠ .idle → s.log t = p.cpu?.toList.map .lock) : Inv n (s.setPhase t p) := by
  have huses : ∀ u cpuid, (s.setPhase t p).Uses u cpuid → s.Uses u cpuid := by
    intro u cpuid hu
    rcases uses_setPhase hu with ⟨rfl, hp⟩ | ⟨-, hold⟩
    · exact hcpu cpuid hp
    · exact hold
  refine ⟨fun u c hu => h.lt u c (huses u c hu), fun u c hu => h.locked u c (huses u c hu),
    fun u v c hu hv => h.unique u v c (huses u c hu) (huses v c hv), fun u hu => ?_⟩
  by_cases hut : u = t
  · subst hut
    simp only [Calls.InFlight, setPhase_phase, update_self] at hu ⊢
    exact hlog hu
  · simp only [Calls.InFlight, setPhase_phase, update_of_ne hut] at hu ⊢
    exact h.log u hu

theorem Inv.clearLog (h : Inv n s) (hphase : s.phase t = .idle) :
    Inv n { s with log := update s.log t [] } := by
  refine ⟨h.lt, h.locked, h.unique, fun u hu => ?_⟩
  have hut : u ≠ t := fun heq => hu (heq ▸ hphase)
  simpa only [update_of_ne hut] using h.log u hu

open Phase

theorem Inv.taken {t : Θ} {i : Nat} (h : Inv n s) (hphase : s.phase t = .scanning i) (hi : i < n)
    (hfree : s.localCpuLock i = false) :
    Inv n ((s.setLock t i true (.lock i)).setPhase t (.acquired i)) := by
  -- a free lock has no user, so `t` is the only one
  have hfresh : ∀ u, ¬ s.Uses u i := fun u hu => by simp [h.locked u i hu] at hfree
  have huses : ∀ u cpuid, ((s.setLock t i true (.lock i)).setPhase t (.acquired i)).Uses u cpuid →
      u = t ∧ cpuid = i ∨ u ≠ t ∧ cpuid ≠ i ∧ s.Uses u cpuid := by
    intro u cpuid hu
    rcases uses_setPhase hu with ⟨hut, hp⟩ | ⟨hut, hold⟩
    · exact Or.inl ⟨hut, (Option.some.inj hp).symm⟩
    · exact Or.inr ⟨hut, fun heq => hfresh u (heq ▸ hold), hold⟩
  refine ⟨fun u c hu => ?_, fun u c hu => ?_, fun u v c hu hv => ?_, fun u hu => ?_⟩
  · rcases huses u c hu with ⟨-, rfl⟩ | ⟨-, -, hold⟩
    · exact hi
    · exact h.lt u c hold
  · rcases huses u c hu with ⟨-, rfl⟩ | ⟨-, hci, hold⟩
    · simp
    · simpa [hci] using h.locked u c hold
  · rcases huses u c hu with ⟨rfl, rfl⟩ | ⟨hut, hci, hold⟩ <;>
      rcases huses v c hv with ⟨rfl, hci'⟩ | ⟨-, hci', hold'⟩
    · rfl
    · exact absurd rfl hci'
    · exact absurd hci' hci
    · exact h.unique u v c hold hold'
  · by_cases hut : u = t
    · subst hut
      simp [h.log_eq hphase (by simp), cpu?]
    · simp only [Calls.InFlight, setPhase_phase, setLock_phase, update_of_ne hut] at hu
      simpa [hut] using h.log u hu

theorem Inv.finish {t : Θ} {cpuid : Nat} (h : Inv n s) (hphase : s.phase t = .running cpuid) :
    Inv n ((s.releaseCpu n t cpuid).setPhase t .idle) := by
  have huser : s.Uses t cpuid := by simp [Calls.Uses, hphase, cpu?]
  rw [releaseCpu_of_lt s t (h.lt t cpuid huser)]
  have huses : ∀ u c, ((s.setLock t cpuid false (.unlock cpuid)).setPhase t .idle).Uses u c →
      u ≠ t ∧ c ≠ cpuid ∧ s.Uses u c := by
    intro u c hu
    rcases uses_setPhase hu with ⟨-, hp⟩ | ⟨hut, hold⟩
    · cases hp
    · exact ⟨hut, fun heq => hut (h.unique u t cpuid (heq ▸ hold) huser), hold⟩
  refine ⟨fun u c hu => h.lt u c (huses u c hu).2.2, fun u c hu => ?_,
    fun u v c hu hv => h.unique u v c (huses u c hu).2.2 (huses v c hv).2.2, fun u hu => ?_⟩
  · obtain ⟨-, hc, hold⟩ := huses u c hu
    simpa [hc] using h.locked u c hold
  · by_cases hut : u = t
    · subst hut
      simp [Calls.InFlight] at hu
    · simp only [Calls.InFlight, setPhase_phase, setLock_phase, update_of_ne hut] at hu
      simpa [hut] using h.log u hu

theorem Inv.move (h : Inv n s) (hmove : Move n envPtr s label s') : Inv n s' := by
  cases hmove with
  | start hphase => exact (h.clearLog hphase).setPhase nofun fun _ => by simp [cpu?]
  | taken hphase hi hfree => exact h.taken hphase hi hfree
  | busy hphase _ _ | restart hphase _ =>
    exact h.setPhase nofun fun _ => by rw [h.log_eq hphase (by simp)]; rfl
  | enter hphase _ =>
    refine h.setPhase (fun cpuid hp => ?_) fun _ => by rw [h.log_eq hphase (by simp)]; rfl
    simpa [Calls.Uses, hphase, cpu?] using hp
  | leak _ _ => exact h.setPhase nofun fun hp => absurd rfl hp
  | work _ => exact h
  | finish hphase => exact h.finish hphase

def Owned (s : Calls Θ) : Prop := ∀ i, s.localCpuLock i = true → ∃ t, s.Uses t i

omit [DecidableEq Θ] in
theorem Owned.initial : Owned (Calls.initial : Calls Θ) := nofun

/-- No lock is lost by a step of a call that finds its CPU's state. -/
theorem Owned.move (h : Owned s) (hinv : Inv n s) (hmove : Move n envPtr s label s')
    (hpresent : ∀ t cpuid, label = .step t → s.phase t = .acquired cpuid →
      envPtr cpuid = true) : Owned s' := by
  -- the users apart from the thread that moves stay
  have hkeep : ∀ {t : Θ} {p : Phase} {x : Calls Θ}, x.phase = s.phase →
      (∀ cpuid, s.Uses t cpuid → p.cpu? = some cpuid) → ∀ i, s.localCpuLock i = true →
      ∃ u, (x.setPhase t p).Uses u i := by
    intro t p x hx hcpu i hi
    obtain ⟨u, hu⟩ := h i hi
    refine ⟨u, ?_⟩
    by_cases hut : u = t
    · subst hut
      simpa [Calls.Uses] using hcpu i hu
    · simpa [Calls.Uses, hut, hx] using hu
  cases hmove with
  | start hphase => exact hkeep rfl fun c hc => by simp [Calls.Uses, hphase, cpu?] at hc
  | @taken t i hphase _ _ =>
    intro j hj
    by_cases hji : j = i
    · exact ⟨t, by simp [Calls.Uses, cpu?, hji]⟩
    · simp only [setPhase_localCpuLock, setLock_localCpuLock, update_of_ne hji] at hj
      exact hkeep rfl (fun c hc => by simp [Calls.Uses, hphase, cpu?] at hc) j hj
  | busy hphase _ _ | restart hphase _ =>
    exact hkeep rfl fun c hc => by simp [Calls.Uses, hphase, cpu?] at hc
  | enter hphase _ =>
    exact hkeep rfl fun c hc => by simpa [Calls.Uses, hphase, cpu?] using hc
  | leak hphase henv => simp [hpresent _ _ rfl hphase] at henv
  | work _ => exact h
  | @finish t cpuid hphase =>
    have huser : s.Uses t cpuid := by simp [Calls.Uses, hphase, cpu?]
    rw [releaseCpu_of_lt s t (hinv.lt t cpuid huser)]
    intro j hj
    by_cases hj' : j = cpuid
    · simp [hj'] at hj
    · simp only [setPhase_localCpuLock, setLock_localCpuLock, update_of_ne hj'] at hj
      obtain ⟨u, hu⟩ := h j hj
      have hut : u ≠ t := by
        rintro rfl
        exact hj' (Option.some.inj (hu.symm.trans huser))
      exact ⟨u, by simpa [Calls.Uses, hut] using hu⟩

/-- The place of a call in the order of the locks: the lock it tries next or holds. -/
def Phase.place? : Phase → Option Nat
  | .idle => none
  | .scanning i | .acquired i | .running i => some i

variable [Fintype Θ]

/-- The calls in flight apart from that of `t` that are at the lock `i` or past it. -/
def Calls.beyond (s : Calls Θ) (t : Θ) (i : Nat) : Finset Θ :=
  Finset.univ.filter fun u => u ≠ t ∧ ∃ j ∈ (s.phase u).place?, i ≤ j

theorem mem_beyond : u ∈ s.beyond t i ↔ u ≠ t ∧ ∃ j, (s.phase u).place? = some j ∧ i ≤ j := by
  simp [beyond]

theorem beyond_zero (s : Calls Θ) (t : Θ) : s.beyond t 0 = s.others t := by
  ext u
  rw [mem_beyond, others, Finset.mem_filter, Calls.InFlight]
  cases s.phase u <;> simp [place?]

/-- While `t` tries the lock `k`, so many calls have stayed at the locks before that fewer than
`n - i` others are at the lock `i` or past it, for every `i` up to `k`. -/
structure Climbing (n : Nat) (s : Calls Θ) (t : Θ) (k : Nat) : Prop where
  phase : s.phase t = .scanning k
  room : ∀ i ≤ k, (s.beyond t i).card + i < n

variable {k : Nat}

theorem Climbing.lt (h : Climbing n s t k) : k < n :=
  (Nat.le_add_left _ _).trans_lt (h.room k le_rfl)

theorem Climbing.of_subset (h : Climbing n s t k) (hphase : s'.phase t = s.phase t)
    (hothers : (s'.others t).card < n) (hsub : ∀ i, 0 < i → s'.beyond t i ⊆ s.beyond t i) :
    Climbing n s' t k := by
  refine ⟨hphase.trans h.phase, fun i hi => ?_⟩
  rcases Nat.eq_zero_or_pos i with rfl | hpos
  · rwa [beyond_zero]
  · have hle := card_le_card (hsub i hpos)
    have hroom := h.room i hi
    omega

theorem beyond_setPhase_subset {x : Calls Θ} (hx : x.phase = s.phase)
    (hplace : ∀ j, p.place? = some j → i ≤ j → ∃ j', (s.phase u).place? = some j' ∧ i ≤ j') :
    (x.setPhase u p).beyond t i ⊆ s.beyond t i := by
  intro v hv
  obtain ⟨hvt, j, hj, hij⟩ := mem_beyond.mp hv
  refine mem_beyond.mpr ⟨hvt, ?_⟩
  by_cases hvu : v = u
  · subst hvu
    rw [setPhase_phase, update_self] at hj
    exact hplace j hj hij
  · rw [setPhase_phase, update_of_ne hvu, hx] at hj
    exact ⟨j, hj, hij⟩

omit [DecidableEq Θ] [Fintype Θ] in
theorem Calls.Uses.place (h : s.Uses u i) : (s.phase u).place? = some i := by
  unfold Calls.Uses at h
  cases hphase : s.phase u with
  | idle | scanning => simp [hphase, cpu?] at h
  | acquired | running => simpa [hphase, cpu?, place?] using h

theorem beyond_succ {v w : Θ} (huser : s.Uses v i) (hw : w ∈ s.beyond t (i + 1)) :
    w ≠ v ∧ w ∈ s.beyond t i := by
  obtain ⟨hwt, j, hj, hij⟩ := mem_beyond.mp hw
  refine ⟨?_, mem_beyond.mpr ⟨hwt, j, hj, by omega⟩⟩
  rintro rfl
  cases huser.place.symm.trans hj
  omega

theorem card_beyond_succ_lt {v : Θ} (hvt : v ≠ t) (huser : s.Uses v i)
    (hpast : ∀ w ∈ s'.beyond t (i + 1), w ≠ v ∧ w ∈ s.beyond t i) :
    (s'.beyond t (i + 1)).card < (s.beyond t i).card := by
  apply card_lt_card
  rw [ssubset_iff_of_subset fun w hw => (hpast w hw).2]
  exact ⟨v, mem_beyond.mpr ⟨hvt, i, huser.place, le_rfl⟩, fun hmem => (hpast v hmem).1 rfl⟩

/-- A step of another call keeps the room that `t` has. -/
theorem Climbing.other (h : Climbing n s t k) (hinv : Inv n s) (howned : Owned s)
    (hmove : Move n envPtr s label s') (hcall : label ≠ .call t) (hstep : label ≠ .step t)
    (hothers : (s'.others t).card < n) : Climbing n s' t k := by
  have hne : ∀ {u : Θ}, label = .call u ∨ label = .step u → t ≠ u := by
    rintro u (rfl | rfl) rfl
    · exact hcall rfl
    · exact hstep rfl
  cases hmove with
  | @start u _ | @restart u _ _ _ =>
    have hut : t ≠ u := hne (by simp)
    refine h.of_subset (by simp [hut]) hothers fun i hi => ?_
    refine beyond_setPhase_subset rfl fun j hj hij => ?_
    cases hj
    omega
  | @taken u _ hphase _ _ | @enter u _ hphase _ =>
    have hut := hne (Or.inr rfl)
    refine h.of_subset (by simp [hut]) hothers fun _ _ => ?_
    refine beyond_setPhase_subset rfl fun j hj hij => ⟨j, ?_, hij⟩
    simpa [hphase, place?] using hj
  | @busy u j hphase hj hbusy =>
    have hut := hne (Or.inr rfl)
    obtain ⟨v, hv⟩ := howned j hbusy
    have huv : u ≠ v := by
      rintro rfl
      simp [Calls.Uses, hphase, cpu?] at hv
    have hvt : v ≠ t := by
      rintro rfl
      simp [Calls.Uses, h.phase, cpu?] at hv
    have hu : u ∈ s.beyond t j := mem_beyond.mpr ⟨hut.symm, j, by simp [hphase, place?], le_rfl⟩
    refine ⟨by simpa [hut] using h.phase, fun i hi => ?_⟩
    by_cases hij : i = j + 1
    · subst hij
      have hlt : ((s.setPhase u (.scanning (j + 1))).beyond t (j + 1)).card < (s.beyond t j).card := by
        refine card_beyond_succ_lt hvt hv fun w hw => ?_
        by_cases hwu : w = u
        · exact ⟨hwu.trans_ne huv, hwu ▸ hu⟩
        · refine beyond_succ hv (mem_beyond.mpr ?_)
          simpa [hwu] using mem_beyond.mp hw
      have hroom := h.room j (by omega)
      omega
    · have hsub : (s.setPhase u (.scanning (j + 1))).beyond t i ⊆ s.beyond t i := by
        refine beyond_setPhase_subset rfl fun j' hj' hij' => ?_
        cases hj'
        exact ⟨j, by simp [hphase, place?], by omega⟩
      exact (Nat.add_le_add_right (card_le_card hsub) i).trans_lt (h.room i hi)
  | @leak u cpuid hphase _ =>
    have hut := hne (Or.inr rfl)
    refine h.of_subset (by simp [hut]) hothers fun _ _ => ?_
    exact beyond_setPhase_subset rfl nofun
  | work _ => exact h
  | @finish u cpuid hphase =>
    have hut : t ≠ u := by
      rintro rfl
      cases hphase.symm.trans h.phase
    have huser : s.Uses u cpuid := by simp [Calls.Uses, hphase, cpu?]
    rw [releaseCpu_of_lt s u (hinv.lt u cpuid huser)] at hothers ⊢
    refine h.of_subset (by simp [hut]) hothers fun _ _ => ?_
    exact beyond_setPhase_subset rfl nofun

/-- A step of `t` gets a lock, or leaves a lock behind that another call holds. -/
theorem Climbing.own (h : Climbing n s t k) (howned : Owned s) (hmove : Move n envPtr s (.step t) s') :
    Climbing n s' t (k + 1) ∨ s'.log t = s.log t ++ [.lock k] := by
  cases hmove with
  | taken hphase _ _ =>
    cases hphase.symm.trans h.phase
    exact Or.inr (by simp)
  | @busy _ i hphase _ hbusy =>
    cases hphase.symm.trans h.phase
    obtain ⟨v, hv⟩ := howned k hbusy
    have hvt : v ≠ t := by
      rintro rfl
      simp [Calls.Uses, h.phase, cpu?] at hv
    have hsub : ∀ i, (s.setPhase t (.scanning (k + 1))).beyond t i ⊆ s.beyond t i := by
      intro i w hw
      have hwt := (mem_beyond.mp hw).1
      refine mem_beyond.mpr ?_
      simpa [hwt] using mem_beyond.mp hw
    refine Or.inl ⟨by simp, fun i hi => ?_⟩
    by_cases hik : i = k + 1
    · subst hik
      have hlt := card_beyond_succ_lt hvt hv fun w hw => beyond_succ hv (hsub _ hw)
      have hroom := h.room k le_rfl
      omega
    · have hle := card_le_card (hsub i)
      have hroom := h.room i (by omega)
      omega
  | restart hphase hi =>
    cases hphase.symm.trans h.phase
    exact absurd h.lt (Nat.not_lt.mpr hi)
  | enter hphase _ | leak hphase _ | work hphase => cases hphase.symm.trans h.phase

variable {labels : List (Label Θ)}

omit [Fintype Θ] in
theorem after_concat :
    after n envPtr (labels ++ [label]) = some s' ↔
      ∃ s, after n envPtr labels = some s ∧ s.exec n envPtr label = some s' :=
  execAll_concat

omit [Fintype Θ] in
theorem inv_after (h : after n envPtr labels = some s) : Inv n s :=
  (run_of_execAll h).invariant (Inv n) (fun _ _ _ hinv hstep => hinv.move (move_of_exec hstep)) Inv.initial

omit [Fintype Θ] in
theorem owned_after {pre : List (Label Θ)} (hpresent : StatePresent n envPtr labels)
    (hpre : pre <+: labels) (h : after n envPtr pre = some s) : Owned s := by
  induction pre using reverseRecOn generalizing s with
  | nil =>
    cases h
    exact Owned.initial
  | append_singleton pre label ih =>
    obtain ⟨s0, h0, hstep⟩ := after_concat.mp h
    have hpre0 := (prefix_append pre [label]).trans hpre
    refine (ih hpre0 h0).move (inv_after h0) (move_of_exec hstep) ?_
    rintro t cpuid rfl hphase
    exact hpresent pre t s0 cpuid hpre h0 hphase

omit [Fintype Θ] in
/-- What a call has done to the locks stays recorded until the thread's next call. -/
theorem Move.log_mem {op : LockOp} (h : Move n envPtr s label s') (hcall : label ≠ .call t)
    (hop : op ∈ s.log t) : op ∈ s'.log t := by
  have hset : ∀ {u : Θ} {op' : LockOp}, op ∈ update s.log u (s.log u ++ [op']) t := by
    intro u op'
    by_cases hut : t = u
    · subst hut
      simp [hop]
    · simp [hut, hop]
  cases h with
  | @start u _ =>
    have hut : t ≠ u := fun heq => hcall (heq ▸ rfl)
    simpa [hut] using hop
  | taken _ _ _ => exact hset
  | busy _ _ _ | restart _ _ | enter _ _ | leak _ _ | work _ => exact hop
  | finish _ =>
    unfold releaseCpu
    split_ifs
    · exact hset
    · exact hop

/-- A new call climbs by one lock with each of its steps until it gets one. -/
theorem climbs {pre more mid : List (Label Θ)} (hpresent : StatePresent n envPtr labels)
    (hrun : pre ++ .call t :: more <+: labels) (hcall : .call t ∉ more)
    (hfew : ∀ mid s, mid <+: more → after n envPtr (pre ++ .call t :: mid) = some s →
      (s.others t).card < n) (hmid : mid <+: more) (h : after n envPtr (pre ++ .call t :: mid) = some s) :
    Climbing n s t (mid.count (.step t)) ∨ ∃ cpuid < n, .lock cpuid ∈ s.log t := by
  induction mid using reverseRecOn generalizing s with
  | nil =>
    left
    have hothers := hfew [] s nil_prefix h
    obtain ⟨s0, -, hstep⟩ := after_concat.mp h
    cases move_of_exec hstep with
    | start hphase =>
      refine ⟨by simp, fun i hi => ?_⟩
      rw [Nat.le_zero.mp hi, beyond_zero]
      exact hothers
  | append_singleton mid label ih =>
    have hmid0 := (prefix_append mid [label]).trans hmid
    have hassoc : pre ++ .call t :: (mid ++ [label]) = (pre ++ .call t :: mid) ++ [label] := by
      simp
    have hothers := hfew _ s hmid h
    rw [hassoc] at h
    obtain ⟨s0, h0, hstep⟩ := after_concat.mp h
    have hmove := move_of_exec hstep
    have hlabel : label ≠ .call t := by
      rintro rfl
      exact hcall (hmid.subset (by simp))
    rcases ih hmid0 h0 with hclimb | ⟨cpuid, hlt, hmem⟩
    · have howned : Owned s0 := by
        refine owned_after hpresent (List.IsPrefix.trans ?_ hrun) h0
        exact (prefix_append_right_inj _).mpr (List.cons_prefix_cons.mpr ⟨rfl, hmid0⟩)
      by_cases hown : label = .step t
      · subst hown
        rw [count_append, count_singleton_self]
        rcases hclimb.own howned hmove with hnext | hlog
        · exact Or.inl hnext
        · exact Or.inr ⟨_, hclimb.lt, by simp [hlog]⟩
      · left
        rw [count_append, count_singleton, beq_eq_false_iff_ne.mpr hown]
        exact hclimb.other (inv_after h0) howned hmove hlabel hown hothers
    · exact Or.inr ⟨cpuid, hlt, hmove.log_mem hlabel hmem⟩

omit [Fintype Θ] in
/-- The only steps by which a call returns are the one that finds no CPU state and the last one. -/
theorem returns_right (hinv : Inv n s) (hmove : Move n envPtr s label s')
    (hpresent : ∀ t cpuid, label = .step t → s.phase t = .acquired cpuid → envPtr cpuid = true)
    (hin : s.InFlight t) (hout : ¬ s'.InFlight t) :
    ∃ cpuid < n, s'.log t = [.lock cpuid, .unlock cpuid] := by
  have hself : ∀ {u : Θ} {p : Phase} {x : Calls Θ}, x.phase = s.phase →
      ¬ (x.setPhase u p).InFlight t → t = u ∧ p = .idle := by
    intro u p x hx hidle
    by_cases htu : t = u
    · subst htu
      exact ⟨rfl, by simpa [Calls.InFlight] using hidle⟩
    · refine absurd hin ?_
      simpa [Calls.InFlight, htu, hx] using hidle
  cases hmove with
  | start _ | busy _ _ _ | restart _ _ | enter _ _ => cases (hself rfl hout).2
  | taken _ _ _ => cases (hself rfl hout).2
  | leak hphase henv => simp [hpresent _ _ rfl hphase] at henv
  | work _ => exact absurd hin hout
  | @finish u cpuid hphase =>
    have huser : s.Uses u cpuid := by simp [Calls.Uses, hphase, cpu?]
    have hlt := hinv.lt u cpuid huser
    rw [releaseCpu_of_lt s u hlt] at hout ⊢
    obtain ⟨rfl, -⟩ := hself rfl hout
    exact ⟨cpuid, hlt, by simp [hinv.log_eq hphase (by simp), cpu?]⟩

/-- The pool keeps its promises along exactly the runs in which no call gets a CPU without its
state: such a call returns without unlocking the CPU. -/
theorem run_right_iff (n : Nat) (envPtr : Nat → Bool) (labels : List (Label Θ)) :
    RunRight n envPtr labels ↔ StatePresent n envPtr labels := by
  constructor
  · intro h pre t s cpuid hpre hs hphase
    by_contra henv
    have hstep : s.exec n envPtr (.step t) = some (s.setPhase t .idle) := by
      simp [exec, hphase, henv]
    obtain ⟨c, -, hlog⟩ := h.released pre _ s _ hpre hs hstep t (by simp [Calls.InFlight, hphase])
      (by simp [Calls.InFlight])
    simp [(inv_after hs).log_eq hphase (by simp), cpu?] at hlog
  · intro hpresent
    refine ⟨fun pre s _ hs => (inv_after hs).unique, ?_, ?_⟩
    · intro pre label s s' hpre hs hstep t hin hout
      refine returns_right (inv_after hs) (move_of_exec hstep) ?_ hin hout
      rintro u cpuid rfl hphase
      exact hpresent pre u s cpuid hpre hs hphase
    · intro pre t more s' hpre hcall hfew hs' hcount
      rcases climbs hpresent hpre hcall hfew (prefix_refl more) hs' with hclimb | hserved
      · exact absurd hclimb.lt (Nat.not_lt.mpr hcount)
      · exact hserved

/-- A call that finds no CPU state returns with its CPU still locked. After two such calls the next
one finds no lock free, although no other call is in flight. -/
theorem missing_state_keeps_lock :
    ¬ RunRight nCpus (fun _ => false) [.call (0 : Fin 1), .step 0, .step 0] ∧
      ∃ s, after nCpus (fun _ => false) [.call (0 : Fin 1), .step 0, .step 0, .call 0, .step 0,
        .step 0, .step 0, .call 0, .step 0, .step 0] = some s ∧ s.phase 0 = .scanning nCpus ∧
        s.others 0 = ∅ := by
  constructor
  · intro h
    obtain ⟨cpuid, -, hlog⟩ := h.released [.call 0, .step 0] (.step 0) _ _ (prefix_refl _) rfl
      rfl 0 (by decide) (by decide)
    cases hlog
  · exact ⟨_, rfl, by decide, by decide⟩

end TcgArm.Pool
