import TcgArm.CallArgs
import TcgArm.RegAllocCall

/-! Helper calls, from the arguments of a front end to the call instruction: every word of the call
is where the host's calling convention looks for it, and no live temporary is left in a register
that the call may change. The allocator counts stack words of `sizeof(tcg_target_long)` bytes; SPARC
with 64-bit registers and the 32-bit convention has words of four, so there every stack word but the
first is misplaced. -/

namespace TcgArm.RegAlloc

open Ctx Function List Option

def Target.abiSlot (T : Target) : Nat := if T.split64 then 4 else T.wordBytes

/-- Where the called function looks for its stack word `k`. -/
def Target.abiStackWord (T : Target) (k : Nat) : Int :=
  if T.stackGrowsUp then T.callStackOffset - (k + 1) * T.abiSlot
  else T.callStackOffset + k * T.abiSlot

/-- The word `k` of the call, in a register or on the stack, has the value. -/
def WordHeld (T : Target) (m : Machine) (k : Nat) (ty : TcgType) (v : BitVec 64) : Prop :=
  match T.callIargRegs[k]? with
  | some r => Agree ty (m.regs r) v
  | none =>
    Agree ty (m.load T.bigEndian ty T.callStack (T.abiStackWord (k - T.callIargRegs.length))) v

/-- What has to be true when the call instruction is reached. -/
structure ReachedRight (T : Target) (V V' : Nat → BitVec 64) (args : List CallArg) (live : Set Nat)
    (s : Ctx) (m : Machine) : Prop where
  words : ∀ k ty v, (abiWords T V args 0)[k]? = some (some (ty, v)) → WordHeld T m k ty v
  value : ∀ t ∈ live, (s.temps t).HasValue T m (V' t)
  saved : ∀ t r, (s.temps t).val = .reg r → r ∉ T.callClobberRegs

/-- A call with these arguments is right: from every placement of the temporaries, with every choice
of new temporaries, the code emitted up to the call instruction brings every argument to its
place. `V` are the values before the arguments are split or extended. -/
def CallRight (T : Target) (args : List CallArg) : Prop :=
  ∀ (fuel : Nat) (types : Nat → TcgType) (supply : List Nat) (ops : List ArgOp)
    (params : List (Option Nat)) (V : Nat → BitVec 64) (live : Set Nat) (deadMarks : List Bool)
    (flags : Ctx.CallFlags) (s s' : Ctx) (code : List HostOp) (m m' : Machine),
    Typed T types supply args → Fresh supply args →
    tcgGenCallN T supply args = some (ops, params) →
    s.Wf T (T.argArea (params.length - T.callIargRegs.length)) →
    (∀ t, (s.temps t).type = types t) → (∀ t, some t ∈ params → t ∈ live) →
    Ctx.prepareCall T fuel params deadMarks flags s = some s' → s'.code = s.code ++ code →
    s.Sound T (evalOps V ops) live m → Runs T code m m' →
    ReachedRight T V (evalOps V ops) args (live \ { t | (some t, true) ∈ params.zip deadMarks }) s' m'

variable {T : Target} {V : Nat → BitVec 64} {types : Nat → TcgType} {supply : List Nat}
variable {args : List CallArg} {ops : List ArgOp} {params : List (Option Nat)}

section

variable (hT : T.Valid) (htyped : Typed T types supply args) (hfresh : Fresh supply args)
    (h : tcgGenCallN T supply args = some (ops, params))
include hT htyped hfresh h

theorem tcgGenCallN_stands : List.Forall₂ (Stands types (evalOps V ops)) params (abiWords T V args 0) := by
  obtain ⟨⟨ops1, args1⟩, hmade, hpush⟩ := Option.bind_eq_some_iff.mp h
  simp only at hpush
  split_ifs at hpush
  obtain ⟨rfl, rfl⟩ := Prod.mk.inj (Option.some.inj hpush)
  split_ifs at hmade with hsplit hext
  · obtain ⟨hword, hbig, hgrows, halign⟩ := hT.split hsplit
    exact splitArgs_stands hword hsplit (by rw [hbig, hgrows]; rfl) halign htyped hfresh hmade V 0
  · exact extendArgs_stands hext.2 (by simpa using hsplit) hext.1 htyped hfresh hmade V 0
  · obtain ⟨rfl, rfl⟩ := Prod.mk.inj (Option.some.inj hmade)
    exact pushArgs_stands hT.word (by simpa using hsplit) hext
      ⟨htyped.arg, htyped.second, fun t ht => absurd ht not_mem_nil⟩ 0

theorem tcgGenCallN_length :
    params.length = (abiWords T (fun _ => 0) args 0).length ∧ params.length < 16 := by
  refine ⟨(tcgGenCallN_stands hT htyped hfresh h).length_eq, ?_⟩
  obtain ⟨r, -, hpush⟩ := Option.bind_eq_some_iff.mp h
  simp only at hpush
  split_ifs at hpush with hlen
  obtain ⟨-, rfl⟩ := Prod.mk.inj (Option.some.inj hpush)
  exact hlen

end

def wordCount (T : Target) (args : List CallArg) : Nat := (abiWords T (fun _ => 0) args 0).length

def StackFits (T : Target) (words : Nat) : Prop :=
  ((words - min T.callIargRegs.length words) * T.wordBytes + T.stackAlign - 1) / T.stackAlign *
    T.stackAlign ≤ T.staticCallArgsSize

/-- Two words or more go on the stack of a host whose stack words are shorter than its registers. -/
def Misplaced (T : Target) (args : List CallArg) : Prop :=
  T.split64 = true ∧ T.callIargRegs.length + 2 ≤ wordCount T args ∧ wordCount T args < 16 ∧
    StackFits T (wordCount T args)

theorem stackWord_eq_abi (hT : T.Valid) {words k : Nat}
    (h : T.split64 = true → words < T.callIargRegs.length + 2) (hk : k < words)
    (hstack : T.callIargRegs.length ≤ k) :
    T.stackWord (k - T.callIargRegs.length) = T.abiStackWord (k - T.callIargRegs.length) := by
  rw [Target.stackWord, Target.abiStackWord, Target.abiSlot]
  cases hsplit : T.split64 with
  | true =>
    obtain ⟨-, -, hgrows, -⟩ := hT.split hsplit
    have hfirst : k - T.callIargRegs.length = 0 := by
      have := h hsplit
      omega
    rw [hgrows, hfirst]
    simp
  | false => rfl

/-- Every call that keeps to one stack word on such a host is right, and every call on others. -/
theorem callRight_of_not_misplaced (hT : T.Valid) (hplace : ¬ Misplaced T args) : CallRight T args := by
  intro fuel types supply ops params V live deadMarks flags s s' code m m' htyped hfresh hgen hwf
    htypes hlive hprep hcode hsound hrun
  obtain ⟨hcount, hlimit⟩ := tcgGenCallN_length hT htyped hfresh hgen
  have hstands := tcgGenCallN_stands (V := V) hT htyped hfresh hgen
  have hfits : StackFits T params.length := by
    rw [prepareCall] at hprep
    split_ifs at hprep with hbig
    exact not_lt.mp hbig
  have hshort : T.split64 = true → params.length < T.callIargRegs.length + 2 := by
    intro hsplit
    by_contra hge
    refine hplace ⟨hsplit, ?_, ?_, ?_⟩
    · rw [wordCount, ← hcount]
      omega
    · rw [wordCount, ← hcount]
      exact hlimit
    · rw [wordCount, ← hcount]
      exact hfits
  obtain ⟨hleads, hfreed⟩ := prepareCall_leads (V := evalOps V ops) hT hwf htypes hlive hprep
  obtain ⟨ops', hcode', hops⟩ := hleads.code
  obtain rfl : code = ops' := append_cancel_left (hcode.symm.trans hcode')
  have hat := hops m m' ⟨hsound, fun k t hk => absurd hk (Set.notMem_empty _),
    fun r t hr => absurd hr (Set.notMem_empty _)⟩ hrun
  refine ⟨fun k ty v hword => ?_, hat.sound.value, fun t r hval hr => ?_⟩
  · -- The parameter that stands for the word.
    obtain ⟨hk, hget⟩ := List.getElem?_eq_some_iff.mp hword
    have hkp : k < params.length := by rw [hstands.length_eq]; exact hk
    have hstand := hstands.get hkp hk
    simp only [get_eq_getElem, hget] at hstand
    cases hparam : params[k] with
    | none => simp [hparam, Stands] at hstand
    | some t =>
      rw [hparam] at hstand
      obtain ⟨rfl, hagree⟩ := hstand
      rw [WordHeld]
      split
      · rename_i r hr
        obtain ⟨hrk, hreg⟩ := List.getElem?_eq_some_iff.mp hr
        refine (hat.regs r t ?_).trans hagree
        change (r, some t) ∈ T.callIargRegs.zip params
        rw [mem_iff_getElem]
        exact ⟨k, by rw [length_zip]; omega, by rw [getElem_zip, hreg, hparam]⟩
      · rename_i hr
        have hge : T.callIargRegs.length ≤ k := List.getElem?_eq_none_iff.mp hr
        rw [← stackWord_eq_abi hT hshort hkp hge]
        refine (hat.stack _ t ⟨k - T.callIargRegs.length, (Nat.zero_add _).symm, ?_⟩).trans hagree
        rw [getElem?_drop, Nat.min_eq_left (by omega), Nat.add_sub_cancel' hge,
          getElem?_eq_getElem hkp, hparam]
  · cases hfixed : (s'.temps t).fixedReg with
    | true =>
      obtain ⟨r', hr', -, -, hsaved⟩ := hleads.wf.fixed t hfixed
      rw [hval, TempVal.reg.injEq] at hr'
      exact hsaved (hr' ▸ hr)
    | false =>
      have hreg := hleads.wf.temp_reg t r hval hfixed
      rw [hfreed r hr (hT.clobber r hr)] at hreg
      cases hreg

theorem exists_runs (T : Target) (code : List HostOp) (m : Machine) : ∃ m', Runs T code m m' := by
  induction code generalizing m with
  | nil => exact ⟨m, rfl⟩
  | cons op code ih =>
    have hexec : ∃ m1, op.Exec T m m1 := by
      cases op with
      | mov ty dst src =>
        refine ⟨⟨update m.regs dst (m.regs src), m.mem⟩, ?_, fun r hr _ => ?_, rfl⟩
        · simp only [update_self]
          exact fun _ _ => rfl
        · exact update_of_ne hr ..
      | movi ty dst val =>
        refine ⟨⟨update m.regs dst val, m.mem⟩, ?_, fun r hr _ => ?_, rfl⟩
        · simp only [update_self]
          exact fun _ _ => rfl
        · exact update_of_ne hr ..
      | ld ty dst base offset =>
        refine ⟨⟨update m.regs dst (m.load T.bigEndian ty base offset), m.mem⟩, ?_, fun r hr _ => ?_, rfl⟩
        · simp only [update_self]
          exact fun _ _ => rfl
        · exact update_of_ne hr ..
      | st ty src base offset =>
        exact ⟨⟨m.regs, m.store T.bigEndian ty (m.regs src) base offset⟩, fun _ _ => rfl, rfl⟩
      | sti ty val base offset =>
        exact ⟨⟨m.regs, m.store T.bigEndian ty val base offset⟩, fun _ _ => rfl, rfl⟩
    obtain ⟨m1, hop⟩ := hexec
    obtain ⟨m', hrest⟩ := ih m1
    exact ⟨m', m1, hop, hrest⟩

def parked (types : Nat → TcgType) (f : Reg) (code : List HostOp) : Ctx where
  temps t := ⟨types t, .reg f, false, false, 0, 0, true, false, false⟩
  nbGlobals := 0
  regToTemp _ := none
  frameReg := 0
  currentFrameOffset := 0
  frameEnd := 0
  code := code

/-- The instruction writes none of the four bytes behind the first four of the stack words. -/
def Away (T : Target) (op : HostOp) : Prop :=
  ∀ m m', op.Exec T m m' → ∀ o : Int, T.callStackOffset + 4 ≤ o → o < T.callStackOffset + 8 →
    m'.mem T.callStack o = m.mem T.callStack o

theorem away_runs {code : List HostOp} (h : ∀ op ∈ code, Away T op) {m m' : Machine}
    (hrun : Runs T code m m') {o : Int} (hlow : T.callStackOffset + 4 ≤ o)
    (hhigh : o < T.callStackOffset + 8) : m'.mem T.callStack o = m.mem T.callStack o := by
  induction code generalizing m with
  | nil =>
    obtain rfl : m' = m := hrun
    rfl
  | cons op code ih =>
    obtain ⟨m1, hop, hrest⟩ := hrun
    rw [ih (fun op hop => h op (mem_cons_of_mem _ hop)) hrest]
    exact h op mem_cons_self m m1 hop o hlow hhigh

variable {f : Reg}

theorem parked_wf (hword : T.wordBytes = 8) (hf : f ∈ T.reservedRegs)
    (hscratch : f ∉ T.scratchRegs) (hsaved : f ∉ T.callClobberRegs) (area : Reg → Int → Prop)
    (code : List HostOp) : (parked types f code).Wf T area where
  reg_temp r t h := by cases h
  temp_reg t r _ h := by cases h
  fixed t _ := ⟨f, rfl, hf, hscratch, hsaved⟩
  bytes_le t := by
    rw [hword]
    change (types t).bytes ≤ 8
    cases types t <;> decide
  apart t t' b o _ h := by cases h
  frame t o h := by cases h
  area_slot t b o h := by cases h
  area_frame o hlow hhigh := absurd (show o < 0 from hhigh) (by
    have : (0 : Int) ≤ o := hlow
    omega)

theorem parked_stackArgs (hword : T.wordBytes = 8) (hgrows : T.stackGrowsUp = false)
    {args : List (Option Nat)} (htypes : ∀ t, some t ∈ args → types t = .i32) (k : Nat) (code : List HostOp) :
    ∃ code', Ctx.stackArgs T 1 args (Ctx.stackStart T k) (parked types f code) =
        some (parked types f (code ++ code')) ∧ ∀ op ∈ code', Away T op := by
  induction args generalizing k code with
  | nil => exact ⟨[], by rw [append_nil]; rfl, fun op hop => absurd hop not_mem_nil⟩
  | cons arg args ih =>
    have htail := ih fun t ht => htypes t (mem_cons_of_mem _ ht)
    unfold stackArgs
    simp only [(stackStart_word T k).1, (stackStart_word T k).2]
    cases arg with
    | none => exact htail (k + 1) code
    | some t =>
      obtain ⟨code', hrest, haway⟩ := htail (k + 1) (code ++ [.st (types t) f T.callStack (T.stackWord k)])
      refine ⟨.st (types t) f T.callStack (T.stackWord k) :: code', ?_, fun op hop => ?_⟩
      · rw [append_cons]
        exact hrest
      · rcases mem_cons.mp hop with rfl | hop
        · intro m m' hexec o hlow hhigh
          rw [hexec.2]
          refine Machine.store_of_not_inSlot fun hin => ?_
          obtain ⟨-, hle, hlt⟩ := hin
          rw [htypes t mem_cons_self] at hlt
          simp only [Target.stackWord, hgrows, hword, TcgType.bytes, Bool.false_eq_true, if_false] at hle hlt
          omega
        · exact haway op hop

theorem parked_regArgs (hf : f ∈ T.reservedRegs) {args : List (Reg × Option Nat)}
    (hargs : ∀ p ∈ args, p.1 ∉ T.reservedRegs) (allocated : RegSet) (code : List HostOp) :
    ∃ code' allocated', Ctx.regArgs T 1 args allocated (parked types f code) =
        some (parked types f (code ++ code'), allocated') ∧ ∀ op ∈ code', Away T op := by
  induction args generalizing allocated code with
  | nil =>
    exact ⟨[], allocated, by rw [append_nil]; rfl, fun op hop => absurd hop not_mem_nil⟩
  | cons p args ih =>
    obtain ⟨r, arg⟩ := p
    have htail := ih fun q hq => hargs q (mem_cons_of_mem _ hq)
    cases arg with
    | none => exact htail allocated code
    | some t =>
      have hne : f ≠ r := fun heq => hargs (r, some t) mem_cons_self (heq ▸ hf)
      obtain ⟨code', allocated', hrest, haway⟩ := htail (insert r allocated) (code ++ [.mov (types t) r f])
      refine ⟨.mov (types t) r f :: code', allocated', ?_, fun op hop => ?_⟩
      · have hone : regArg T 1 (parked types f code) r t allocated =
            some (parked types f (code ++ [.mov (types t) r f])) := by
          simp [regArg, regFree, regFreeWith, parked, hne, emit]
        rw [regArgs, hone, bind_some, hrest, append_assoc]
        rfl
      · rcases mem_cons.mp hop with rfl | hop
        · intro m m' hexec o _ _
          rw [hexec.2.2]
        · exact haway op hop

theorem parked_clobberRegs (allocated : RegSet) (l : List Reg) (code : List HostOp) :
    Ctx.clobberRegs T 1 allocated l (parked types f code) = some (parked types f code) := by
  induction l with
  | nil => rfl
  | cons r l ih =>
    rw [clobberRegs]
    split_ifs
    · exact ih
    · exact ih

/-- A call from the parked state comes to its call instruction, without a store to the four bytes
behind the first four of the stack words. -/
theorem parked_prepareCall (hT : T.Valid) (hword : T.wordBytes = 8) (hgrows : T.stackGrowsUp = false)
    (hf : f ∈ T.reservedRegs) (htypes : ∀ t, some t ∈ params → types t = .i32)
    (hfits : StackFits T params.length) (flags : Ctx.CallFlags) :
    ∃ code, Ctx.prepareCall T 1 params [] flags (parked types f []) = some (parked types f code) ∧
      ∀ op ∈ code, Away T op := by
  obtain ⟨code1, hstack, haway1⟩ := parked_stackArgs (f := f) hword hgrows
    (fun t ht => htypes t (mem_of_mem_drop ht) :
      ∀ t, some t ∈ params.drop (min T.callIargRegs.length params.length) → types t = .i32) 0 []
  obtain ⟨code2, allocated, hregs, haway2⟩ := @parked_regArgs T types f hf _
    (fun p hp => hT.iargs_free p.1 (of_mem_zip hp).1 :
      ∀ p ∈ T.callIargRegs.zip params, p.1 ∉ T.reservedRegs) T.reservedRegs ([] ++ code1)
  have hstart : T.callStackOffset = stackStart T 0 := by simp [stackStart]
  refine ⟨[] ++ code1 ++ code2, ?_, fun op hop => ?_⟩
  · rw [prepareCall, if_neg (not_lt.mpr hfits), hstart, hstack, bind_some, hregs, bind_some]
    simp only [zip_nil_right, deadArgs, bind_some, parked_clobberRegs]
    refine if_pos ?_
    simp [globalsSaved, parked]
  · rw [nil_append, mem_append] at hop
    rcases hop with hop | hop
    · exact haway1 op hop
    · exact haway2 op hop

/-- The words of a call under the 32-bit convention of SPARC. -/
theorem abiWords_split (hT : T.Valid) (hsplit : T.split64 = true) (V : Nat → BitVec 64)
    (args : List CallArg) (k : Nat) : ∀ word ∈ abiWords T V args k, ∃ v, word = some (.i32, v) := by
  obtain ⟨-, hbig, hgrows, halign⟩ := hT.split hsplit
  have horder : (T.bigEndian != T.stackGrowsUp) = true := by
    rw [hbig, hgrows]
    rfl
  induction args generalizing k with
  | nil => exact fun word hword => absurd hword not_mem_nil
  | cons a args ih =>
    intro word hmem
    rw [abiWords] at hmem
    simp only [hsplit, horder, halign, or_true, if_true, Bool.false_eq_true, false_and,
      not_true_eq_false, and_false, if_false] at hmem
    split_ifs at hmem
    · simp only [cons_append, nil_append, mem_cons] at hmem
      rcases hmem with rfl | rfl | hmem
      · exact ⟨_, rfl⟩
      · exact ⟨_, rfl⟩
      · exact ih _ word hmem
    · rcases mem_cons.mp hmem with rfl | hmem
      · exact ⟨_, rfl⟩
      · exact ih _ word hmem

theorem exists_splitArgs (args : List CallArg) (supply : List Nat)
    (h : 2 * args.length ≤ supply.length) : ∃ r, splitArgs supply args = some r := by
  induction args generalizing supply with
  | nil => exact ⟨_, by unfold splitArgs; rfl⟩
  | cons a args ih =>
    rw [length_cons] at h
    obtain ⟨hi, supply, rfl⟩ := exists_cons_of_length_pos (show 0 < supply.length by omega)
    rw [length_cons] at h
    obtain ⟨lo, supply, rfl⟩ := exists_cons_of_length_pos (show 0 < supply.length by omega)
    rw [length_cons] at h
    unfold splitArgs
    split_ifs
    · obtain ⟨r, hr⟩ := ih supply (by omega)
      exact ⟨_, by simp only [hr]; rfl⟩
    · obtain ⟨r, hr⟩ := ih (hi :: lo :: supply) (by simp only [length_cons]; omega)
      exact ⟨_, by rw [hr]; rfl⟩

theorem evalOps_zero (ops : List ArgOp) : evalOps (fun _ => 0) ops = fun _ => 0 := by
  induction ops with
  | nil => rfl
  | cons op ops ih =>
    have hop : op.eval (fun _ => 0) = fun _ => 0 := by
      funext t
      cases op <;> simp [ArgOp.eval, update_apply, low32, sext32]
    rw [evalOps, hop, ih]

/-- On such a host the second stack word is not stored where the called function looks for it: with
all values zero and all bytes of the memory `0xff`, it finds `0xffffffff`. -/
theorem not_callRight_of_misplaced (hT : T.Valid) (hargs : ∃ types, Typed T types [] args)
    (h : Misplaced T args) : ¬ CallRight T args := by
  intro hright
  obtain ⟨hsplit, hmany, hlimit, hfits⟩ := h
  obtain ⟨hword, hbig, hgrows, halign⟩ := hT.split hsplit
  obtain ⟨types0, htyped0⟩ := hargs
  obtain ⟨f, hf, hscratch, hsaved⟩ := hT.fixed
  -- New temporaries above all those of the arguments.
  set supply : List Nat := range' ((args.map CallArg.temp).sum + 1) (2 * args.length) with hsupply
  set types : Nat → TcgType := fun t => if t ∈ supply then .i32 else types0 t with htypes
  have hfresh : Fresh supply args := by
    refine ⟨nodup_range', fun a ha hmem => ?_⟩
    have hle := le_sum_of_mem (mem_map_of_mem (f := CallArg.temp) ha)
    rw [hsupply, mem_range'_1] at hmem
    omega
  have htyped : Typed T types supply args := by
    refine ⟨fun a ha => ?_, fun a ha _ hsmall => by omega, fun t ht => ?_⟩
    · simp only [htypes, if_neg (hfresh.arg a ha)]
      exact htyped0.arg a ha
    · simp only [htypes, if_pos ht, hsplit, if_true]
  obtain ⟨⟨ops, args'⟩, hmade⟩ := exists_splitArgs args supply (by rw [hsupply, length_range'])
  have horder : (T.bigEndian != T.stackGrowsUp) = true := by
    rw [hbig, hgrows]
    rfl
  have hstands := splitArgs_stands hword hsplit horder halign htyped hfresh hmade (fun _ => 0) 0
  rw [evalOps_zero] at hstands
  have hlen : (pushArgs T args' 0).length = wordCount T args := hstands.length_eq
  have hgen : tcgGenCallN T supply args = some (ops, pushArgs T args' 0) := by
    rw [tcgGenCallN]
    simp only [hsplit, if_true, hmade, bind_some]
    rw [if_pos (by rw [hlen]; exact hlimit)]
  have hi32 : ∀ t, some t ∈ pushArgs T args' 0 → types t = .i32 := by
    intro t ht
    obtain ⟨k, hk, hget⟩ := mem_iff_getElem.mp ht
    have hk' : k < (abiWords T (fun _ => 0) args 0).length := by rw [← hstands.length_eq]; exact hk
    have hstand := hstands.get hk hk'
    obtain ⟨v, hv⟩ := abiWords_split hT hsplit (fun _ => 0) args 0 _ (getElem_mem hk')
    simp only [get_eq_getElem, hget, hv] at hstand
    exact hstand.1
  obtain ⟨code, hprep, haway⟩ := parked_prepareCall (f := f) hT hword hgrows hf hi32
    (by rw [hlen]; exact hfits) ⟨true, true⟩
  set m : Machine := ⟨fun _ => 0, fun _ _ => 0xff⟩ with hm
  obtain ⟨m', hrun⟩ := exists_runs T code m
  have hreached := hright 1 types supply ops (pushArgs T args' 0) (fun _ => 0) Set.univ []
    ⟨true, true⟩ (parked types f []) (parked types f code) code m m' htyped hfresh hgen
    (parked_wf hword hf hscratch hsaved _ _) (fun _ => rfl) (fun _ _ => trivial) hprep rfl
    (by
      rw [evalOps_zero]
      exact ⟨fun t _ => fun _ _ => rfl, fun t _ hfixed => by cases hfixed⟩)
    hrun
  have hk : T.callIargRegs.length + 1 < (abiWords T (fun _ => 0) args 0).length := hmany
  obtain ⟨v, hv⟩ := abiWords_split hT hsplit (fun _ => 0) args 0 _ (getElem_mem hk)
  have hheld := hreached.words (T.callIargRegs.length + 1) .i32 v (by rw [getElem?_eq_getElem hk, hv])
  have hout : T.callIargRegs[T.callIargRegs.length + 1]? = none := List.getElem?_eq_none_iff.mpr (by omega)
  rw [WordHeld, hout] at hheld
  have hbit := hheld 0 (by decide)
  have hzero : v.getLsbD 0 = false := by
    have hk' : T.callIargRegs.length + 1 < (pushArgs T args' 0).length := by rw [hlen]; exact hk
    have hstand := hstands.get hk' hk
    simp only [get_eq_getElem, hv] at hstand
    cases hparam : (pushArgs T args' 0)[T.callIargRegs.length + 1] with
    | none => simp [hparam, Stands] at hstand
    | some t =>
      rw [hparam] at hstand
      rw [← hstand.2 0 (by decide)]
      simp
  have hbyte : m'.mem T.callStack (T.callStackOffset + 7) = 0xff := away_runs haway hrun (by omega) (by omega)
  have hplace : T.abiStackWord (T.callIargRegs.length + 1 - T.callIargRegs.length) +
      (ByteMemory.position T.bigEndian TcgType.i32.bytes 0 : Nat) = T.callStackOffset + 7 := by
    rw [Nat.add_sub_cancel_left, Target.abiStackWord, Target.abiSlot, hsplit, hgrows, hbig]
    simp only [Bool.false_eq_true, if_false, if_true, ByteMemory.position, TcgType.bytes]
    omega
  rw [hzero, Machine.load, ByteMemory.getLsbD_gather, Nat.zero_div, hplace, hbyte] at hbit
  revert hbit
  decide

/-- A helper call is right unless it is made under the 32-bit convention of SPARC with two words or
more on the stack. -/
theorem helper_call_right_iff (hT : T.Valid) (hargs : ∃ types, Typed T types [] args) :
    CallRight T args ↔ ¬ Misplaced T args :=
  ⟨fun hright hmis => not_callRight_of_misplaced hT hargs hmis hright, callRight_of_not_misplaced hT⟩

def armTarget : Target where
  wordBytes := 4
  bigEndian := false
  nbRegs := 16
  availableRegs _ := Finset.range 16
  reservedRegs := {6, 12, 13, 15}
  scratchRegs := {12}
  regAllocOrder := [4, 5, 6, 7, 8, 9, 10, 11, 13, 0, 1, 2, 3, 12, 14]
  indirectRegAllocOrder := [13, 11, 10, 9, 8, 7, 6, 5, 4, 0, 1, 2, 3, 12, 14]
  callIargRegs := [0, 1, 2, 3]
  callClobberRegs := {0, 1, 2, 3, 12, 14}
  callStack := 13
  callStackOffset := 0
  stackAlign := 8
  staticCallArgsSize := 128
  stackGrowsUp := false
  callAlignArgs := true
  extendArgs := false
  split64 := false
  alignFrame := true
  outSti _ _ _ _ := false

/-- The SPARC backend under the 32-bit convention. -/
def sparcTarget : Target where
  wordBytes := 8
  bigEndian := true
  nbRegs := 32
  availableRegs
    | .i32 => Finset.range 32
    | .i64 => Finset.range 16
  reservedRegs := {0, 1, 6, 7, 14, 15, 24, 30, 31}
  scratchRegs := {1, 15}
  regAllocOrder := [16, 17, 18, 19, 20, 21, 22, 23, 24, 25, 26, 27, 28, 29, 2, 3, 4, 5, 8, 9, 10, 11, 12, 13]
  indirectRegAllocOrder := [29, 28, 27, 26, 25, 24, 23, 22, 21, 20, 19, 18, 17, 16, 2, 3, 4, 5, 8,
    9, 10, 11, 12, 13]
  callIargRegs := [8, 9, 10, 11, 12, 13]
  callClobberRegs := {1, 2, 3, 4, 5, 6, 7, 8, 9, 10, 11, 12, 13, 15}
  callStack := 14
  callStackOffset := 92
  stackAlign := 8
  staticCallArgsSize := 128
  stackGrowsUp := false
  callAlignArgs := false
  extendArgs := false
  split64 := true
  alignFrame := false
  outSti _ val _ _ := val = 0

theorem armTarget_valid : armTarget.Valid where
  word := .inl rfl
  scratch := by decide
  iargs := by decide
  iargs_free := by decide
  clobber := by decide
  fixed := ⟨6, by decide, by decide, by decide⟩
  split h := by cases h

theorem sparcTarget_valid : sparcTarget.Valid where
  word := .inr rfl
  scratch := by decide
  iargs := by decide
  iargs_free := by decide
  clobber := by decide
  fixed := ⟨24, by decide, by decide, by decide⟩
  split _ := ⟨rfl, rfl, rfl, rfl⟩

/-- Temporaries 1 and 2 in each other's argument registers, on the ARM backend. -/
def crossed : Ctx where
  temps t := ⟨.i32, if t = 1 then .reg 1 else if t = 2 then .reg 0 else .reg 6, false, false, 0, 0,
    !(t == 1 || t == 2), false, false⟩
  nbGlobals := 1
  regToTemp r := if r = 1 then some 1 else if r = 0 then some 2 else none
  frameReg := 13
  currentFrameOffset := 128
  frameEnd := 640
  code := []

/-- A call with temporaries 1 and 2 as its arguments on the ARM backend is right. From the crossed
placement each of them is stored before its register is overwritten. -/
theorem helper_call_right_iff_arm :
    CallRight armTarget [⟨1, false, false⟩, ⟨2, false, false⟩] ∧
      (Ctx.prepareCall armTarget 1 [some 1, some 2] [true, true] ⟨true, true⟩ crossed).map
          Ctx.code =
        some [.st .i32 0 13 128, .mov .i32 0 1, .st .i32 1 13 132, .ld .i32 1 13 128] := by
  refine ⟨(helper_call_right_iff armTarget_valid ⟨fun _ => .i32, ?_⟩).mpr ?_, by decide +kernel⟩
  · refine ⟨fun a ha => ?_, fun _ _ _ _ => rfl, fun _ ht => absurd ht not_mem_nil⟩
    simp only [mem_cons, not_mem_nil, or_false] at ha
    rcases ha with rfl | rfl <;> rfl
  · rintro ⟨hsplit, -⟩
    cases hsplit

/-- `env` in its register, the other words in local registers. -/
def inLocals : Ctx where
  temps t := ⟨.i32, if t = 0 then .reg 24 else if t = 4 then .reg 16 else
    if 9 < t ∧ t < 16 then .reg (t + 7) else .dead, false, false, 0, 0, t == 0, false, false⟩
  nbGlobals := 1
  regToTemp r := if r = 16 then some 4 else if 16 < r ∧ r < 23 then some (r - 7) else none
  frameReg := 14
  currentFrameOffset := 220
  frameEnd := 1244
  code := []

/-- A helper with a pointer, three 64-bit arguments and a 32-bit one has eight words. The SPARC
backend stores the last two of them at offsets 92 and 100 from the stack pointer; the called
function reads them at 92 and 96. -/
theorem helper_call_misplaced_sparc :
    let args : List CallArg :=
      [⟨0, false, false⟩, ⟨1, true, false⟩, ⟨2, true, false⟩, ⟨3, true, false⟩, ⟨4, false, false⟩]
    (tcgGenCallN sparcTarget [10, 11, 12, 13, 14, 15] args).map Prod.snd =
        some [some 0, some 10, some 11, some 12, some 13, some 14, some 15, some 4] ∧
      (prepareCall sparcTarget 1
          [some 0, some 10, some 11, some 12, some 13, some 14, some 15, some 4] [] ⟨true, true⟩
          inLocals).map code =
        some [.st .i32 22 14 92, .st .i32 16 14 100, .mov .i32 8 24, .mov .i32 9 17,
          .mov .i32 10 18, .mov .i32 11 19, .mov .i32 12 20, .mov .i32 13 21] ∧
      sparcTarget.abiStackWord 0 = 92 ∧ sparcTarget.abiStackWord 1 = 96 ∧
      ¬ CallRight sparcTarget args := by
  refine ⟨by decide +kernel, by decide +kernel, by decide, by decide,
    not_callRight_of_misplaced sparcTarget_valid
      ⟨fun t => if t = 0 ∨ t = 4 then .i32 else .i64, ?_⟩ ⟨rfl, by decide, by decide, ?_⟩⟩
  · refine ⟨fun a ha => ?_, fun a ha _ hsmall => absurd hsmall (by decide), fun _ ht => absurd ht not_mem_nil⟩
    simp only [mem_cons, not_mem_nil, or_false] at ha
    rcases ha with rfl | rfl | rfl | rfl | rfl <;> rfl
  · rw [StackFits]
    decide

end TcgArm.RegAlloc
