import TcgArm.ByteMemory
import TcgArm.Liveness
import TcgArm.TcgSemantics

/-! Globals whose base is another global, and the pass that replaces them. Such a global lives in
host memory, at an offset from the value of its base: its home, which an op list that names it reads
and writes. `liveness_pass_2` gives every such global a direct temporary, loads it in front of a use
and stores it behind its last write. -/

namespace TcgArm.Tcg

open ByteMemory

/-- `TS_MEM` alone. -/
def tsMem : Mark := ⟨false, true⟩

def tsModified : Mark := ⟨false, false⟩

/-- The globals with `indirect_reg`: their `mem_base` and `mem_offset`. There are no double-indirect
ones. -/
structure Indirect {n : Nat} (ctx : Ctx n) where
  base : Fin n → Option (Fin n)
  offset : Fin n → Int
  global : ∀ {g b}, base g = some b → ctx.isGlobal g = true
  baseGlobal : ∀ {g b}, base g = some b → ctx.isGlobal b = true
  direct : ∀ {g b}, base g = some b → base b = none

/-- Surroundings of an op list in which the host accesses of ops go to byte memory. -/
structure HostEnv (n : Nat) (R : Type) where
  env : Env n (Mem 64 × R)
  big : Bool
  load_eq : ∀ k a w, env.load k a w = some (load big k a w.1)
  store_eq : ∀ k a v w, env.store k a v w = some (store big k a v w.1, w.2)

def Action.results {n : Nat} {W : Type} : Action n W → List (Option Word)
  | .assign ys _ | .helper ys _ _ => ys
  | _ => []

def Action.mapWorld {n : Nat} {W : Type} (f : W → W) : Action n W → Action n W
  | .assign ys w => .assign ys (f w)
  | .helper ys g w => .helper ys g (f w)
  | .raise g w => .raise g (f w)
  | .endBlock target w => .endBlock target (f w)
  | .leave e w => .leave e (f w)

/-- The op cannot change the home of a global: a helper that does not write globals, or an access
to guest memory. -/
def Op.shielded {n : Nat} : Op n → Bool
  | .call _ flags _ _ => !flags.writesGlobals
  | .plain opc _ _ => opc.sideEffects

namespace Indirect

variable {n : Nat} {R : Type} {ctx : Ctx n} (ind : Indirect ctx)

def size (_ : Indirect ctx) (t : Fin n) : Nat := (ctx.ty t).bits / 8

def home (val : Fin n → Option Word) (t : Fin n) : Option Word :=
  (ind.base t).bind fun b => (readVal ctx val b).map fun v => hostAddr ctx.host v (ind.offset t)

/-- The byte at `b` belongs to the home of `t`. -/
def HomeOf (val : Fin n → Option Word) (t : Fin n) (b : Word) : Prop :=
  ∃ a ∈ ind.home val t, Covered a (ind.size t) b

instance (val : Fin n → Option Word) (t : Fin n) (b : Word) : Decidable (ind.HomeOf val t b) :=
  inferInstanceAs (Decidable (∃ a ∈ ind.home val t, Covered a (ind.size t) b))

def InHome (val : Fin n → Option Word) (b : Word) : Prop := ∃ t, ind.HomeOf val t b

instance (val : Fin n → Option Word) (b : Word) : Decidable (ind.InHome val b) :=
  inferInstanceAs (Decidable (∃ t, ind.HomeOf val t b))

def value (big : Bool) (s : State n (Mem 64 × R)) (t : Fin n) : Option Word :=
  if (ind.base t).isSome then
    (ind.home s.val t).map fun a => (ctx.ty t).norm (load big (ind.size t) a s.world.1)
  else s.read ctx t

/-- Write one output. A home keeps its content when the global is discarded. -/
def put (big : Bool) (s : State n (Mem 64 × R)) (t : Fin n) :
    Option Word → Option (State n (Mem 64 × R))
  | none => some (if (ind.base t).isSome then s else { s with val := Function.update s.val t none })
  | some v =>
    if (ind.base t).isSome then
      (ind.home s.val t).map fun a =>
        { s with
          world := (store big (ind.size t) a (lowBytes (ind.size t) v) s.world.1, s.world.2) }
    else some { s with val := Function.update s.val t (some v) }

def putAll (big : Bool) :
    List (Fin n) → List (Option Word) → State n (Mem 64 × R) → Option (State n (Mem 64 × R))
  | [], [], s => some s
  | t :: ts, y :: ys, s => (ind.put big s t y).bind (putAll big ts ys)
  | _, _, _ => none

def globals (s : State n (Mem 64 × R)) : Globals n :=
  fun t => if ctx.isGlobal t ∧ ind.base t = none then s.read ctx t else none

/-- The surroundings as the op sees them: a helper that does not read globals does not see their
homes. -/
def seen (op : Op n) (s : State n (Mem 64 × R)) : Mem 64 × R :=
  if op.looks ∨ op.shielded = false then s.world
  else (fun b => if ind.InHome s.val b then 0 else s.world.1 b, s.world.2)

def left (op : Op n) (s : State n (Mem 64 × R)) (w : Mem 64 × R) : Mem 64 × R :=
  if op.shielded then (fun b => if ind.InHome s.val b then s.world.1 b else w.1 b, w.2) else w

def exec (host : HostEnv n R) (op : Op n) (s : State n (Mem 64 × R)) :
    Option (Next n (Mem 64 × R)) :=
  (op.ins.mapM (ind.value host.big s)).bind fun xs =>
    (op.perform ctx.host host.env xs (ind.globals s) (ind.seen op s)).bind fun r =>
      match (r.1.mapWorld (ind.left op s)).apply ctx [] s r.2 with
      | .fall s' => (ind.putAll host.big op.outs r.1.results s').map .fall
      | .jump l s' => some (.jump l s')
      | .exit e s' => some (.exit e s')

def step (host : HostEnv n R) (prog : List (Op n)) :
    Cfg n (Mem 64 × R) → Option (Cfg n (Mem 64 × R))
  | .run (op :: rest) s => (ind.exec host op s).bind (Next.resume prog rest)
  | _ => none

end Indirect

def Indirect.dropIns {n : Nat} {ctx : Ctx n} (ind : Indirect ctx) :
    List (Fin n) → List Bool → Marks n → Marks n
  | t :: ts, dead :: deads, st =>
    ind.dropIns ts deads (if (ind.base t).isSome ∧ dead then Function.update st t tsDead else st)
  | _, _, st => st

/-- The temporaries that `tcg_temp_alloc` gives to the indirect globals. -/
structure DirTemps {n : Nat} {ctx : Ctx n} (ind : Indirect ctx) where
  dir : Fin n → Fin n
  inj : ∀ {g h}, (ind.base g).isSome → (ind.base h).isSome → dir g = dir h → g = h
  temp : ∀ {g}, (ind.base g).isSome → ctx.persists (dir g) = false
  ty : ∀ {g}, (ind.base g).isSome → ctx.ty (dir g) = ctx.ty g

namespace DirTemps

variable {n : Nat} {ctx : Ctx n} {ind : Indirect ctx} (dirs : DirTemps ind)

/-- `dir_temps`, with every other operand left as it is. -/
def subst (t : Fin n) : Fin n := if (ind.base t).isSome then dirs.dir t else t

def substOp : Op n → Op n
  | .call func flags oargs iargs =>
    .call func flags (oargs.map dirs.subst) (iargs.map (Option.map dirs.subst))
  | .plain opc oargs iargs => .plain opc (oargs.map dirs.subst) (iargs.map dirs.subst)

def loadOp (g b : Fin n) : Op n := .plain (.ld (ctx.ty g) .full (ind.offset g)) [dirs.dir g] [b]

def storeOp (g b : Fin n) : Op n := .plain (.st (ctx.ty g) .full (ind.offset g)) [] [dirs.dir g, b]

def loadIns : List (Fin n) → Marks n → List (Op n) × Marks n
  | [], st => ([], st)
  | t :: ts, st =>
    match ind.base t with
    | none => loadIns ts st
    | some b =>
      if st t = tsDead then
        let r := loadIns ts (Function.update st t tsMem)
        (dirs.loadOp t b :: r.1, r.2)
      else loadIns ts st

/-- Outputs become available: the stores behind the op. Each is put right behind the op, in front
of those before it. -/
def storeOuts : List (Fin n) → List Mark → Marks n → List (Op n) × Marks n
  | t :: ts, m :: ms, st =>
    match ind.base t with
    | none => storeOuts ts ms st
    | some b =>
      let r := storeOuts ts ms (Function.update st t
        (if m.dead then tsDead else if m.mem then tsMem else tsModified))
      (if m.mem then r.1 ++ [dirs.storeOp t b] else r.1, r.2)
  | _, _, st => ([], st)

def marksAfter (l : LiveOp n) (st : Marks n) : Marks n :=
  (dirs.storeOuts l.op.outs l.life.outs (ind.dropIns l.op.ins l.life.ins (dirs.loadIns l.op.ins st).2)).2

def lower (l : LiveOp n) (st : Marks n) : List (Op n) :=
  (dirs.loadIns l.op.ins st).1 ++ dirs.substOp l.op ::
    (dirs.storeOuts l.op.outs l.life.outs (ind.dropIns l.op.ins l.life.ins (dirs.loadIns l.op.ins st).2)).1

/-- The walk of `liveness_pass_2` over the rest of the list. -/
def lowerAll : Marks n → List (LiveOp n) → List (Op n)
  | _, [] => []
  | st, l :: live => dirs.lower l st ++ lowerAll (dirs.marksAfter l st) live

/-- `liveness_pass_2`. -/
def livenessPass2 (live : List (LiveOp n)) : List (Op n) := dirs.lowerAll (fun _ => tsDead) live

end DirTemps

end TcgArm.Tcg
