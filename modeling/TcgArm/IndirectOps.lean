import TcgArm.IndirectMarks
import TcgArm.SeqCode

/-! Two runs side by side: ops on globals in their homes, and ops on the direct temporaries of these
globals. The states agree when a cached global has its value in its temporary, and memory differs
at most in the homes that are behind. -/

namespace TcgArm.Tcg

open ByteMemory Option Opcode

/-- The bytes of host memory that an op names: their number and the address. -/
def Opcode.access (host : Host) : Opcode → List Word → Option (Nat × Word)
  | .ld wd kind ofs, [base] => some (kind.bytes wd, hostAddr host base ofs)
  | .ld32 _ ofs, [base] => some (4, hostAddr host base ofs)
  | .st wd kind ofs, [_, base] => some (kind.bytes wd, hostAddr host base ofs)
  | .st32 ofs, [_, base] => some (4, hostAddr host base ofs)
  | _, _ => none

def Op.access {n : Nat} (host : Host) : Op n → List Word → Option (Nat × Word)
  | .call _ _ _ _, _ => none
  | .plain opc _ _, xs => opc.access host xs

section Perform

variable {n : Nat} {R : Type} {hst : Host} (host : HostEnv n R)

/-- The two memories are changed in the same way, in bytes that the op names. -/
def SameAccess (bytes : Option (Nat × Word)) (w w' v v' : Mem 64 × R) : Prop :=
  v.2 = w.2 ∧ v'.2 = w'.2 ∧
    ∀ b, (v.1 b = w.1 b ∧ v'.1 b = w'.1 b) ∨ ((∃ k a, bytes = some (k, a) ∧ Covered a k b) ∧ v'.1 b = v.1 b)

theorem sameAccess_store {big : Bool} {k : Nat} {a : Word} {v : Word} {w w' : Mem 64 × R} :
    SameAccess (some (k, a)) w w' (store big k a v w.1, w.2) (store big k a v w'.1, w'.2) := by
  refine ⟨rfl, rfl, fun b => ?_⟩
  by_cases hb : Covered a k b
  · exact .inr ⟨⟨k, a, rfl, hb⟩, store_of_covered _ _ hb⟩
  · exact .inl ⟨store_of_not_covered hb, store_of_not_covered hb⟩

variable {act : Action n (Mem 64 × R)} {ev : List Event} {g : Globals n} {xs : List Word}
    {env : Env n (Mem 64 × R)} {w : Mem 64 × R} {opc : Opcode}

/-- An op that neither ends a block nor has side effects sees the bytes it names and no others. -/
theorem Opcode.perform_quiet {w w' : Mem 64 × R} (hend : opc.bbEnd = false)
    (hse : opc.sideEffects = false) (h : opc.perform hst host.env xs g w = some (act, ev))
    (hacc : ∀ k a, opc.access hst xs = some (k, a) → ∀ b, Covered a k b → w'.1 b = w.1 b) :
    ∃ ys v v', act = .assign ys v ∧ opc.perform hst host.env xs g w' = some (.assign ys v', ev) ∧
      SameAccess (opc.access hst xs) w w' v v' := by
  have hsame : SameAccess (opc.access hst xs) w w' w w' := ⟨rfl, rfl, fun b => .inl ⟨rfl, rfl⟩⟩
  have hload : ∀ k a, opc.access hst xs = some (k, a) → load host.big k a w'.1 = load host.big k a w.1 :=
    fun k a haccess => load_congr (hacc k a haccess)
  cases opc with
  | ld | ld32 =>
    rcases xs with _ | ⟨base, _ | ⟨y, zs⟩⟩
    · simp [perform, eval] at h
    · simp only [perform, host.load_eq, map_some, Option.some.injEq, Prod.mk.injEq] at h ⊢
      obtain ⟨rfl, rfl⟩ := h
      exact ⟨_, _, _, rfl, ⟨by rw [hload _ _ rfl], rfl⟩, hsame⟩
    · simp [perform, eval] at h
  | st | st32 =>
    rcases xs with _ | ⟨x, _ | ⟨base, _ | ⟨y, zs⟩⟩⟩
    · simp [perform, eval] at h
    · simp [perform, eval] at h
    · simp only [perform, host.store_eq, map_some, Option.some.injEq, Prod.mk.injEq] at h ⊢
      obtain ⟨rfl, rfl⟩ := h
      exact ⟨_, _, _, rfl, ⟨rfl, rfl⟩, sameAccess_store⟩
    · simp [perform, eval] at h
  | setLabel | br | brcond | brcond2 | exitTb | gotoTb => simp [bbEnd] at hend
  | qemuLd | qemuSt => simp [sideEffects] at hse
  | discard | insnStart =>
    cases xs with
    | nil =>
      simp only [perform, Option.some.injEq, Prod.mk.injEq] at h ⊢
      obtain ⟨rfl, rfl⟩ := h
      exact ⟨_, _, _, rfl, ⟨rfl, rfl⟩, hsame⟩
    | cons x xs => simp [perform, eval] at h
  | _ =>
    simp only [perform, map_eq_some_iff] at h ⊢
    obtain ⟨ys, hys, heq⟩ := h
    cases heq
    exact ⟨_, _, _, rfl, ⟨ys, hys, rfl⟩, hsame⟩

/-- Only some ops hand back control to anything but the next op, and only some see the globals. -/
def Action.Allowed (op : Op n) : Action n (Mem 64 × R) → Prop
  | .assign ys _ => op.isDiscard = false → ∀ y ∈ ys, y.isSome
  | .helper ys _ _ => op.clobbers = true ∧ op.bbEnd = false ∧ ∀ y ∈ ys, y.isSome
  | .raise _ _ => op.looks = true
  | .endBlock _ _ | .leave _ _ => op.bbEnd = true

theorem callAction_allowed {func : Nat} {flags : CallFlags} {oargs : List (Fin n)}
    {iargs : List (Option (Fin n))} (h : callAction env func flags xs g w = some act) :
    act.Allowed (.call func flags oargs iargs) := by
  obtain ⟨reply, -, hact⟩ := bind_eq_some_iff.mp h
  have hsome : ∀ y ∈ reply.results.map some, y.isSome := by
    intro y hy
    obtain ⟨v, -, rfl⟩ := List.mem_map.mp hy
    rfl
  split at hact
  · split at hact
    · cases hact
    · cases hact
      exact fun _ => hsome
  · split at hact
    · split at hact
      · cases hact
      · rename_i hread
        cases hact
        simpa [Action.Allowed, Op.looks] using hread
    · split at hact
      · rename_i hwrites
        cases hact
        exact ⟨hwrites, rfl, hsome⟩
      · cases hact
        exact fun _ => hsome

theorem Opcode.perform_allowed {oargs iargs : List (Fin n)}
    (h : opc.perform hst env xs g w = some (act, ev)) :
    act.Allowed (.plain opc oargs iargs) := by
  unfold perform at h
  split at h
  case h_1 =>
    cases h
    simp [Action.Allowed, Op.isDiscard]
  case h_2 | h_3 | h_7 =>
    cases h
    rfl
  case h_4 | h_5 =>
    simp only [Action.jumpIf, Action.jump, Option.some.injEq] at h
    split at h <;> (cases h; rfl)
  case h_6 =>
    cases h
    simp [Action.Allowed]
  case h_8 =>
    simp only [Option.some.injEq, Prod.mk.injEq] at h
    obtain ⟨h, -⟩ := h
    split at h <;> (cases h; rfl)
  case h_9 | h_10 | h_11 | h_12 =>
    obtain ⟨v, -, heq⟩ := map_eq_some_iff.mp h
    cases heq
    simp [Action.Allowed]
  case h_13 =>
    obtain ⟨b, hb, heq⟩ := map_eq_some_iff.mp h
    cases heq
    obtain ⟨⟨w', v⟩, -, hact⟩ := map_eq_some_iff.mp hb
    cases v <;> (cases hact; simp [Action.Allowed, Op.looks, sideEffects])
  case h_14 =>
    obtain ⟨addr, -, h⟩ := bind_eq_some_iff.mp h
    obtain ⟨b, hb, heq⟩ := map_eq_some_iff.mp h
    cases heq
    obtain ⟨⟨w', raised⟩, -, hact⟩ := map_eq_some_iff.mp hb
    cases raised <;> (cases hact; simp [Action.Allowed, Op.looks, sideEffects])
  case h_15 =>
    obtain ⟨ys, -, heq⟩ := map_eq_some_iff.mp h
    cases heq
    simp [Action.Allowed]

theorem Op.perform_allowed {op : Op n} (h : op.perform hst env xs g w = some (act, ev)) : act.Allowed op := by
  cases op with
  | plain opc oargs iargs => exact Opcode.perform_allowed h
  | call func flags oargs iargs =>
    obtain ⟨act', hact, heq⟩ := map_eq_some_iff.mp h
    cases heq
    exact callAction_allowed hact

end Perform

end TcgArm.Tcg
