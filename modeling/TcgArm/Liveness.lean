import TcgArm.TcgOps

/-! The backward liveness pass over an op list. It carries two marks for every temporary: whether
its value is dead in registers, and whether its memory slot must hold the value. Ops with dead
outputs go away, double-width ops with one dead half are narrowed, and every op that stays gets the
marks of its operands. -/

namespace TcgArm.Tcg

open List

/-- `TS_DEAD` and `TS_MEM`. As a mark of an output operand, `DEAD_ARG` and `SYNC_ARG`. -/
structure Mark where
  dead : Bool
  mem : Bool
  deriving DecidableEq, Repr

/-- `temp_state`. -/
abbrev Marks (n : Nat) := Fin n → Mark

/-- `TS_DEAD` alone. -/
def tsDead : Mark := ⟨true, false⟩

/-- `op->life`: the marks of the outputs, and which inputs die in the op. An input that only aligns
the next one has no entry. -/
structure Life where
  outs : List Mark
  ins : List Bool
  deriving DecidableEq, Repr

/-- An op with its operands' lifetimes. -/
structure LiveOp (n : Nat) where
  op : Op n
  life : Life
  deriving DecidableEq, Repr

section Passes

variable {n : Nat} {ctx : Ctx n}

/-- The end of the list: all temporaries are dead, the globals are in memory. -/
def tcgLaFuncEnd (ctx : Ctx n) : Marks n := fun t => ⟨true, ctx.isGlobal t⟩

def tcgLaBbEnd (ctx : Ctx n) : Marks n := fun t => ⟨true, ctx.persists t⟩

def saveGlobals (ctx : Ctx n) (st : Marks n) : Marks n :=
  fun t => if ctx.isGlobal t then ⟨true, true⟩ else st t

def syncGlobals (ctx : Ctx n) (st : Marks n) : Marks n :=
  fun t => if ctx.isGlobal t then ⟨(st t).dead, true⟩ else st t

def Op.looks : Op n → Bool
  | .call _ flags _ _ => !flags.noReadGlobals
  | .plain opc _ _ => opc.bbEnd || opc.sideEffects

def Op.clobbers : Op n → Bool
  | .call _ flags _ _ => flags.writesGlobals
  | .plain opc _ _ => opc.bbEnd

/-- What an op demands of the memory of the globals, and a basic block end of local temporaries. -/
def demand (ctx : Ctx n) (op : Op n) (st : Marks n) : Marks n :=
  if op.bbEnd then tcgLaBbEnd ctx
  else if op.clobbers then saveGlobals ctx st
  else if op.looks then syncGlobals ctx st
  else st

instance lawfulBEq_fin : LawfulBEq (Fin n) := inferInstance

/-- The marks in front of the writes to `outs`. -/
def killOuts (outs : List (Fin n)) (st : Marks n) : Marks n :=
  fun t => if t ∈ outs then tsDead else st t

def reviveIns (ins : List (Fin n)) (st : Marks n) : Marks n :=
  fun t => if t ∈ ins then ⟨false, (st t).mem⟩ else st t

/-- The marks of the outputs, one after the other: an output written twice is dead the second
time. -/
def outMarks : List (Fin n) → Marks n → List Mark
  | [], _ => []
  | t :: ts, st => st t :: outMarks ts (killOuts [t] st)

def Op.isDiscard : Op n → Bool
  | .plain (.discard _) _ _ => true
  | _ => false

def marksAt (ctx : Ctx n) (op : Op n) (st : Marks n) : Marks n := demand ctx op (killOuts op.outs st)

def marksBefore (ctx : Ctx n) (op : Op n) (st : Marks n) : Marks n :=
  reviveIns op.ins (marksAt ctx op st)

/-- The lifetimes of the operands, from the marks behind the op. `discard` gets none. -/
def lifeOf (ctx : Ctx n) (op : Op n) (st : Marks n) : Life where
  outs := if op.isDiscard then op.outs.map fun _ => ⟨false, false⟩ else outMarks op.outs st
  ins := op.ins.map fun t => (marksAt ctx op st t).dead

/-- `do_addsub2`: only the low half is computed when the high half is dead. -/
def narrowSum (st : Marks n) (w : Width) (f : Double) (low : Binary) (rl rh al ah bl bh : Fin n) :
    Option (Op n) :=
  if st rh = tsDead then
    if st rl = tsDead then none else some (.plain (.binary w low) [rl] [al, bl])
  else some (.plain (.double w f) [rl, rh] [al, ah, bl, bh])

/-- `do_mul2`: only the half that is used is computed, the high one if the host can. -/
def narrowProduct (st : Marks n) (w : Width) (f : Double) (high : Binary) (hasHigh : Bool)
    (rl rh a b : Fin n) : Option (Op n) :=
  if st rh = tsDead then
    if st rl = tsDead then none else some (.plain (.binary w .mul) [rl] [a, b])
  else if st rl = tsDead ∧ hasHigh then some (.plain (.binary w high) [rh] [a, b])
  else some (.plain (.double w f) [rl, rh] [a, b])

/-- The op that stays in place of `op`, if any, from the marks behind it. -/
def reduce (ctx : Ctx n) (st : Marks n) : Op n → Option (Op n)
  | .call func flags oargs iargs =>
    if flags.noSideEffects ∧ ∀ t ∈ oargs, st t = tsDead then none
    else some (.call func flags oargs iargs)
  | .plain (.discard w) oargs iargs => some (.plain (.discard w) oargs iargs)
  | .plain (.double w .add2) [rl, rh] [al, ah, bl, bh] =>
    narrowSum st w .add2 .add rl rh al ah bl bh
  | .plain (.double w .sub2) [rl, rh] [al, ah, bl, bh] =>
    narrowSum st w .sub2 .sub rl rh al ah bl bh
  | .plain (.double w .mulu2) [rl, rh] [a, b] =>
    narrowProduct st w .mulu2 .muluh (ctx.hasMuluh w) rl rh a b
  | .plain (.double w .muls2) [rl, rh] [a, b] =>
    narrowProduct st w .muls2 .mulsh (ctx.hasMulsh w) rl rh a b
  | .plain opc oargs iargs =>
    if opc.sideEffects = false ∧ oargs ≠ [] ∧ ∀ t ∈ oargs, st t = tsDead then none
    else some (.plain opc oargs iargs)

/-- `liveness_pass_1`: the marks in front of the list and the ops that stay. -/
def livenessPass1 (ctx : Ctx n) : List (Op n) → Marks n × List (LiveOp n)
  | [] => (tcgLaFuncEnd ctx, [])
  | op :: ops =>
    let (st, live) := livenessPass1 ctx ops
    match reduce ctx st op with
    | none => (st, live)
    | some op => (marksBefore ctx op st, ⟨op, lifeOf ctx op st⟩ :: live)

/-- The list carries lifetimes as the pass gives them, and `st` are the marks in front of it. -/
def Annotated (ctx : Ctx n) : Marks n → List (LiveOp n) → Prop
  | st, [] => st = tcgLaFuncEnd ctx
  | st, l :: live =>
    ∃ st', Annotated ctx st' live ∧ st = marksBefore ctx l.op st' ∧ l.life = lifeOf ctx l.op st'

theorem annotated_livenessPass1 (ctx : Ctx n) (ops : List (Op n)) :
    Annotated ctx (livenessPass1 ctx ops).1 (livenessPass1 ctx ops).2 := by
  induction ops with
  | nil => rfl
  | cons op ops ih =>
    simp only [livenessPass1]
    split
    · exact ih
    · exact ⟨_, ih, rfl, rfl⟩

/-- What the passes rely on in the operands of an op: outputs are distinct, and an op that ends a
basic block has none. -/
structure Op.Shaped (op : Op n) : Prop where
  distinct : op.outs.Nodup
  ends : op.bbEnd = true → op.outs = []

theorem Ctx.OpOk.shaped {op : Op n} (h : ctx.OpOk op) : op.Shaped := by
  cases op with
  | call func flags oargs iargs => exact ⟨h, by simp [Op.bbEnd]⟩
  | plain opc oargs iargs =>
    refine ⟨h.distinct, fun hend => ?_⟩
    have hlen := h.outs.length_eq
    have hnone : opc.outWidths ctx.host = [] := by
      cases opc <;> simp_all [Op.bbEnd, Opcode.bbEnd, Opcode.outWidths]
    rw [hnone, length_nil, length_eq_zero_iff] at hlen
    exact hlen

/-- The op that stays is the op itself, or a half of it. -/
theorem reduce_cases {st : Marks n} {op op' : Op n} (h : reduce ctx st op = some op') :
    op' = op ∨ ∃ w f r a b, op' = .plain (.binary w f) [r] [a, b] ∧ r ∈ op.outs ∧
      a ∈ op.ins ∧ b ∈ op.ins := by
  -- what is left of an op with two outputs
  let Part (op : Op n) : Prop := op' = op ∨ ∃ w f r a b, op' = .plain (.binary w f) [r] [a, b] ∧
    r ∈ op.outs ∧ a ∈ op.ins ∧ b ∈ op.ins
  have hsum : ∀ {w f low rl rh al ah bl bh}, narrowSum st w f low rl rh al ah bl bh = some op' →
      Part (.plain (.double w f) [rl, rh] [al, ah, bl, bh]) := by
    intro w f low rl rh al ah bl bh hop
    unfold narrowSum at hop
    split at hop
    · split_ifs at hop
      exact .inr ⟨_, _, _, _, _, (Option.some.inj hop).symm, by simp [Op.outs], by simp [Op.ins]⟩
    · exact .inl (Option.some.inj hop).symm
  have hproduct : ∀ {w f high hasHigh rl rh a b}, narrowProduct st w f high hasHigh rl rh a b = some op' →
      Part (.plain (.double w f) [rl, rh] [a, b]) := by
    intro w f high hasHigh rl rh a b hop
    unfold narrowProduct at hop
    split at hop
    · split_ifs at hop
      exact .inr ⟨_, _, _, _, _, (Option.some.inj hop).symm, by simp [Op.outs], by simp [Op.ins]⟩
    · split at hop
      · exact .inr ⟨_, _, _, _, _, (Option.some.inj hop).symm, by simp [Op.outs], by simp [Op.ins]⟩
      · exact .inl (Option.some.inj hop).symm
  unfold reduce at h
  split at h
  · split_ifs at h
    exact .inl (Option.some.inj h).symm
  · exact .inl (Option.some.inj h).symm
  · exact hsum h
  · exact hsum h
  · exact hproduct h
  · exact hproduct h
  · split_ifs at h
    exact .inl (Option.some.inj h).symm

/-- A property of the ops of a list that the halves of an op share holds of the ops that stay. -/
theorem forall_livenessPass1 {P : Op n → Prop} {ops : List (Op n)} (h : ∀ op ∈ ops, P op)
    (hhalf : ∀ op w f r a b, P op → r ∈ op.outs → a ∈ op.ins → b ∈ op.ins →
      P (.plain (.binary w f) [r] [a, b])) :
    ∀ l ∈ (livenessPass1 ctx ops).2, P l.op := by
  induction ops with
  | nil => simp [livenessPass1]
  | cons op ops ih =>
    have ih := ih fun op hop => h op (mem_cons_of_mem _ hop)
    have hop := h op mem_cons_self
    simp only [livenessPass1]
    split
    · exact ih
    · rename_i op' hred
      intro l hl
      rcases List.mem_cons.mp hl with rfl | hl
      · rcases reduce_cases hred with rfl | ⟨w, f, r, a, b, rfl, hr, ha, hb⟩
        · exact hop
        · exact hhalf op w f r a b hop hr ha hb
      · exact ih l hl

theorem outMarks_eq {outs : List (Fin n)} {st : Marks n} (h : outs.Nodup) :
    outMarks outs st = outs.map st := by
  induction outs generalizing st with
  | nil => rfl
  | cons t ts ih =>
    obtain ⟨hnot, hts⟩ := List.nodup_cons.mp h
    rw [outMarks, ih hts, map_cons]
    congr 1
    apply map_congr_left
    intro u hu
    have hne : u ≠ t := fun heq => hnot (heq ▸ hu)
    simp [killOuts, hne]

end Passes

end TcgArm.Tcg
