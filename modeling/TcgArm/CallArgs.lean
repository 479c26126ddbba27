import TcgArm.RegAllocRun

/-! The parameters of a helper call (`tcg_gen_callN`): 64-bit arguments are split or padded and
32-bit arguments are extended as the host wants them. Beside it the words that the calling
convention of the host asks for, as a function of the values of the arguments. -/

namespace TcgArm.RegAlloc

open Function List Option

/-- An argument: its temporary and its two bits of `sizemask`. On a host with 32-bit registers a
64-bit argument is in the temporary and the one behind it. -/
structure CallArg where
  temp : Nat
  is64 : Bool
  isSigned : Bool

/-- The ops emitted before the call. -/
inductive ArgOp
  | extr (lo hi src : Nat)
  | ext32s (dst src : Nat)
  | ext32u (dst src : Nat)

/-- SPARC with the 32-bit convention: each 64-bit argument becomes two new temporaries. The list
`supply` has the temporaries that `tcg_temp_new` returns. -/
def splitArgs : List Nat → List CallArg → Option (List ArgOp × List CallArg)
  | _, [] => some ([], [])
  | supply, a :: args =>
    if a.is64 then
      match supply with
      | h :: l :: supply =>
        (splitArgs supply args).map fun r =>
          (.extr l h a.temp :: r.1, ⟨h, false, false⟩ :: ⟨l, false, false⟩ :: r.2)
      | _ => none
    else (splitArgs supply args).map fun r => (r.1, { a with isSigned := false } :: r.2)

/-- `TCG_TARGET_EXTEND_ARGS`: each 32-bit argument becomes a new 64-bit temporary. -/
def extendArgs : List Nat → List CallArg → Option (List ArgOp × List CallArg)
  | _, [] => some ([], [])
  | supply, a :: args =>
    if a.is64 then (extendArgs supply args).map fun r => (r.1, a :: r.2)
    else
      match supply with
      | t :: supply =>
        (extendArgs supply args).map fun r =>
          ((if a.isSigned then .ext32s t a.temp else .ext32u t a.temp) :: r.1, { a with temp := t } :: r.2)
      | [] => none

/-- The parameters of the call op, where `none` is `TCG_CALL_DUMMY_ARG`. -/
def pushArgs (T : Target) : List CallArg → Nat → List (Option Nat)
  | [], _ => []
  | a :: args, realArgs =>
    if T.wordBytes < 8 ∧ a.is64 then
      let pair := if T.bigEndian != T.stackGrowsUp then [some (a.temp + 1), some a.temp]
        else [some a.temp, some (a.temp + 1)]
      if T.callAlignArgs ∧ realArgs % 2 = 1 then
        none :: (pair ++ pushArgs T args (realArgs + 3))
      else pair ++ pushArgs T args (realArgs + 2)
    else some a.temp :: pushArgs T args (realArgs + 1)

/-- `tcg_gen_callN`: the ops before the call and its parameters. The count of the parameters has
four bits. -/
def tcgGenCallN (T : Target) (supply : List Nat) (args : List CallArg) :
    Option (List ArgOp × List (Option Nat)) :=
  let made :=
    if T.split64 then splitArgs supply args
    else if T.extendArgs ∧ T.wordBytes = 8 then extendArgs supply args
    else some ([], args)
  made.bind fun r =>
    let params := pushArgs T r.2 0
    if params.length < 16 then some (r.1, params) else none

def low32 (v : BitVec 64) : BitVec 64 := (v.setWidth 32).setWidth 64

def sext32 (v : BitVec 64) : BitVec 64 := (v.setWidth 32).signExtend 64

def ArgOp.eval (V : Nat → BitVec 64) : ArgOp → Nat → BitVec 64
  | .extr lo hi src => update (update V lo (low32 (V src))) hi (V src >>> 32)
  | .ext32s dst src => update V dst (sext32 (V src))
  | .ext32u dst src => update V dst (low32 (V src))

def evalOps (V : Nat → BitVec 64) : List ArgOp → Nat → BitVec 64
  | [] => V
  | op :: ops => evalOps (op.eval V) ops

/-- The value of an argument, of which a 32-bit argument has the low half only. -/
def CallArg.value (T : Target) (V : Nat → BitVec 64) (a : CallArg) : BitVec 64 :=
  if a.is64 ∧ T.wordBytes < 8 then V (a.temp + 1) <<< 32 ||| low32 (V a.temp) else V a.temp

/-- The words of a call as the host's convention counts them, from word `k` on: the type says how
much of a word has to be right, and `none` is padding. -/
def abiWords (T : Target) (V : Nat → BitVec 64) :
    List CallArg → Nat → List (Option (TcgType × BitVec 64))
  | [], _ => []
  | a :: args, k =>
    let v := a.value T V
    if a.is64 then
      if T.wordBytes < 8 ∨ T.split64 then
        let pair := if T.bigEndian != T.stackGrowsUp then
            [some (TcgType.i32, v >>> 32), some (.i32, v)]
          else [some (.i32, v), some (.i32, v >>> 32)]
        if T.callAlignArgs ∧ k % 2 = 1 then none :: (pair ++ abiWords T V args (k + 3))
        else pair ++ abiWords T V args (k + 2)
      else some (.i64, v) :: abiWords T V args (k + 1)
    else if T.extendArgs ∧ T.wordBytes = 8 ∧ ¬ T.split64 then
      some (.i64, if a.isSigned then sext32 v else low32 v) :: abiWords T V args (k + 1)
    else some (.i32, v) :: abiWords T V args (k + 1)

/-- The temporaries have the types that their arguments ask for. -/
structure Typed (T : Target) (types : Nat → TcgType) (supply : List Nat) (args : List CallArg) :
    Prop where
  arg : ∀ a ∈ args, types a.temp = if a.is64 ∧ T.wordBytes = 8 then .i64 else .i32
  second : ∀ a ∈ args, a.is64 = true → T.wordBytes < 8 → types (a.temp + 1) = .i32
  supply : ∀ t ∈ supply, types t = if T.split64 then .i32 else .i64

/-- New temporaries are different from each other and from the arguments. -/
structure Fresh (supply : List Nat) (args : List CallArg) : Prop where
  nodup : supply.Nodup
  arg : ∀ a ∈ args, a.temp ∉ supply

def Stands (types : Nat → TcgType) (V : Nat → BitVec 64) :
    Option Nat → Option (TcgType × BitVec 64) → Prop
  | none, none => True
  | some t, some (ty, v) => types t = ty ∧ Agree ty (V t) v
  | _, _ => False

theorem agree_low32 (v : BitVec 64) : Agree .i32 (low32 v) v := by
  intro i hi
  have hi32 : i < 32 := hi
  rw [low32, BitVec.getLsbD_setWidth, BitVec.getLsbD_setWidth]
  simp [hi32, show i < 64 by omega]

theorem agree_halves (hi lo : BitVec 64) :
    Agree .i32 lo (hi <<< 32 ||| low32 lo) ∧ Agree .i32 hi ((hi <<< 32 ||| low32 lo) >>> 32) := by
  constructor
  · intro i hlt
    have hlt32 : i < 32 := hlt
    have hlow := agree_low32 lo i hlt
    rw [BitVec.getLsbD_or, BitVec.getLsbD_shiftLeft, hlow]
    simp [hlt32]
  · intro i hlt
    have hlt32 : i < 32 := hlt
    rw [BitVec.getLsbD_ushiftRight, BitVec.getLsbD_or, BitVec.getLsbD_shiftLeft, low32,
      BitVec.getLsbD_setWidth, BitVec.getLsbD_setWidth]
    simp [show 32 + i < 64 by omega, show ¬ 32 + i < 32 by omega]

variable {T : Target} {V : Nat → BitVec 64} {types : Nat → TcgType} {ops : List ArgOp}
    {a : CallArg} {args args' : List CallArg} {supply : List Nat} {supply' : List Nat}

open CallArg

/-- Where no argument is split or extended, the parameters stand for the words. -/
theorem pushArgs_stands (hword : T.wordBytes = 4 ∨ T.wordBytes = 8) (hsplit : T.split64 = false)
    (hext : ¬ (T.extendArgs = true ∧ T.wordBytes = 8)) (htyped : Typed T types [] args) (k : Nat) :
    List.Forall₂ (Stands types V) (pushArgs T args k) (abiWords T V args k) := by
  induction args generalizing k with
  | nil => exact .nil
  | cons a args ih =>
    have htail : Typed T types [] args :=
      ⟨fun b hb => htyped.arg b (mem_cons_of_mem _ hb),
        fun b hb => htyped.second b (mem_cons_of_mem _ hb), htyped.supply⟩
    have htype := htyped.arg a mem_cons_self
    rw [pushArgs, abiWords]
    by_cases h64 : a.is64 = true
    · by_cases hsmall : T.wordBytes < 8
      · have hne : T.wordBytes ≠ 8 := by omega
        have hsecond := htyped.second a mem_cons_self h64 hsmall
        have hhalves := agree_halves (V (a.temp + 1)) (V a.temp)
        have hlo : Stands types V (some a.temp) (some (.i32, a.value T V)) := by
          refine ⟨by simpa [hne] using htype, ?_⟩
          rw [value, if_pos ⟨h64, hsmall⟩]
          exact hhalves.1
        have hhi : Stands types V (some (a.temp + 1)) (some (.i32, a.value T V >>> 32)) := by
          refine ⟨hsecond, ?_⟩
          rw [value, if_pos ⟨h64, hsmall⟩]
          exact hhalves.2
        simp only [hsmall, h64, and_self, true_or, if_true]
        by_cases horder : (T.bigEndian != T.stackGrowsUp) = true <;>
          by_cases hpad : T.callAlignArgs = true ∧ k % 2 = 1
        · simp only [horder, hpad, and_self, if_true]
          exact .cons trivial (.cons hhi (.cons hlo (ih htail _)))
        · simp only [horder, hpad, if_true, if_false]
          exact .cons hhi (.cons hlo (ih htail _))
        · simp only [horder, hpad, and_self, if_true]
          exact .cons trivial (.cons hlo (.cons hhi (ih htail _)))
        · simp only [horder, hpad, if_false]
          exact .cons hlo (.cons hhi (ih htail _))
      · have height : T.wordBytes = 8 := by omega
        simp only [hsmall, h64, hsplit, false_and, false_or, Bool.false_eq_true, if_true, if_false]
        refine .cons ⟨by simpa [h64, height] using htype, ?_⟩ (ih htail _)
        rw [value, if_neg fun h => hsmall h.2]
        exact fun _ _ => rfl
    · have hplain : ¬ (T.extendArgs = true ∧ T.wordBytes = 8 ∧ ¬ T.split64 = true) :=
        fun h => hext ⟨h.1, h.2.1⟩
      simp only [h64, hplain, and_false, Bool.false_eq_true, if_false]
      refine .cons ⟨by simpa [h64] using htype, ?_⟩ (ih htail _)
      rw [value, if_neg fun h => h64 h.1]
      exact fun _ _ => rfl

def ArgOp.writes : ArgOp → List Nat
  | .extr lo hi _ => [lo, hi]
  | .ext32s dst _ => [dst]
  | .ext32u dst _ => [dst]

theorem ArgOp.eval_of_not_mem {op : ArgOp} {t : Nat} (h : t ∉ op.writes) : op.eval V t = V t := by
  cases op with
  | extr lo hi src =>
    simp only [writes, mem_cons, not_mem_nil, or_false, not_or] at h
    rw [eval, update_of_ne h.2, update_of_ne h.1]
  | ext32s | ext32u =>
    simp only [writes, mem_cons, not_mem_nil, or_false] at h
    rw [eval, update_of_ne h]

open ArgOp

theorem evalOps_of_not_mem {t : Nat} (h : ∀ op ∈ ops, t ∉ op.writes) : evalOps V ops t = V t := by
  induction ops generalizing V with
  | nil => rfl
  | cons op ops ih =>
    rw [evalOps, ih fun op' hop' => h op' (mem_cons_of_mem _ hop'), eval_of_not_mem (h op mem_cons_self)]

theorem abiWords_congr {V' : Nat → BitVec 64} (h : ∀ a ∈ args, a.value T V = a.value T V') (k : Nat) :
    abiWords T V args k = abiWords T V' args k := by
  induction args generalizing k with
  | nil => rfl
  | cons a args ih =>
    have htail := ih fun b hb => h b (mem_cons_of_mem _ hb)
    rw [abiWords, abiWords, h a mem_cons_self, htail, htail, htail]

theorem CallArg.value_eq (hword : T.wordBytes = 8) (V : Nat → BitVec 64) (a : CallArg) :
    a.value T V = V a.temp := by
  rw [value, if_neg (by omega)]

theorem Typed.tail (h : Typed T types supply (a :: args)) (hsub : supply' ⊆ supply) :
    Typed T types supply' args :=
  ⟨fun b hb => h.arg b (mem_cons_of_mem _ hb),
    fun b hb => h.second b (mem_cons_of_mem _ hb), fun t ht => h.supply t (hsub ht)⟩

theorem Fresh.tail (h : Fresh supply (a :: args)) (hsub : supply'.Sublist supply) : Fresh supply' args :=
  ⟨h.nodup.sublist hsub, fun b hb hmem => h.arg b (mem_cons_of_mem _ hb) (hsub.subset hmem)⟩

/-- What extending the first argument can do. -/
theorem extendArgs_cons (h : extendArgs supply (a :: args) = some (ops, args')) :
    (a.is64 = true ∧ ∃ args1, extendArgs supply args = some (ops, args1) ∧ args' = a :: args1) ∨
      (a.is64 = false ∧ ∃ t supply1 ops1 args1, supply = t :: supply1 ∧
        extendArgs supply1 args = some (ops1, args1) ∧
        ops = (if a.isSigned then .ext32s t a.temp else .ext32u t a.temp) :: ops1 ∧
        args' = { a with temp := t } :: args1) := by
  unfold extendArgs at h
  cases h64 : a.is64 with
  | true =>
    simp only [h64, if_true, map_eq_some_iff, Prod.mk.injEq, Prod.exists] at h
    obtain ⟨ops1, args1, hr, rfl, rfl⟩ := h
    exact .inl ⟨rfl, args1, hr, rfl⟩
  | false =>
    cases supply with
    | nil => simp [h64] at h
    | cons t supply =>
      simp only [h64, Bool.false_eq_true, if_false, map_eq_some_iff, Prod.mk.injEq, Prod.exists] at h
      obtain ⟨ops1, args1, hr, rfl, rfl⟩ := h
      exact .inr ⟨rfl, t, supply, ops1, args1, rfl, hr, rfl, rfl⟩

theorem extendArgs_writes (h : extendArgs supply args = some (ops, args')) :
    ∀ op ∈ ops, op.writes ⊆ supply := by
  induction args generalizing supply ops args' with
  | nil =>
    simp only [extendArgs, Option.some.injEq, Prod.mk.injEq] at h
    simp [← h.1]
  | cons a args ih =>
    obtain ⟨-, args1, hr, -⟩ | ⟨-, t, supply, ops1, args1, rfl, hr, rfl, -⟩ := extendArgs_cons h
    · exact ih hr
    · intro op hop
      rcases mem_cons.mp hop with rfl | hop
      · split_ifs <;> simp [writes]
      · exact List.Subset.trans (ih hr op hop) (subset_cons_self ..)

/-- An op that writes fresh temporaries leaves the words of the other arguments alone. -/
theorem abiWords_eval {a : CallArg} {op : ArgOp} (hword : T.wordBytes = 8) (hfresh : Fresh supply (a :: args))
    (hop : op.writes ⊆ supply) (V : Nat → BitVec 64) (k : Nat) :
    abiWords T (op.eval V) args k = abiWords T V args k := by
  refine abiWords_congr (fun b hb => ?_) k
  rw [value_eq hword, value_eq hword]
  exact eval_of_not_mem fun hmem => hfresh.arg b (mem_cons_of_mem _ hb) (hop hmem)

/-- Where 32-bit arguments are extended, the parameters stand for the words. -/
theorem extendArgs_stands (hword : T.wordBytes = 8) (hsplit : T.split64 = false)
    (hext : T.extendArgs = true) (htyped : Typed T types supply args) (hfresh : Fresh supply args)
    (hs : extendArgs supply args = some (ops, args')) (V : Nat → BitVec 64) (k : Nat) :
    List.Forall₂ (Stands types (evalOps V ops)) (pushArgs T args' k) (abiWords T V args k) := by
  have hnot : ¬ T.wordBytes < 8 := by omega
  induction args generalizing supply ops args' V k with
  | nil =>
    simp only [extendArgs, Option.some.injEq, Prod.mk.injEq] at hs
    obtain ⟨rfl, rfl⟩ := hs
    exact .nil
  | cons a args ih =>
    obtain ⟨h64, args1, hr, rfl⟩ | ⟨h64, t, supply, ops1, args1, rfl, hr, rfl, rfl⟩ := extendArgs_cons hs
    · have hrest := ih (htyped.tail (List.Subset.refl _)) (hfresh.tail (List.Sublist.refl _)) hr V (k + 1)
      rw [pushArgs, abiWords]
      simp only [h64, hnot, hsplit, false_and, false_or, Bool.false_eq_true, if_true, if_false]
      refine .cons ⟨by simpa [h64, hword] using htyped.arg a mem_cons_self, ?_⟩ hrest
      have hkept : evalOps V ops a.temp = V a.temp := evalOps_of_not_mem fun op hop hmem =>
        hfresh.arg a mem_cons_self (extendArgs_writes hr op hop hmem)
      rw [hkept, value_eq hword]
      exact fun _ _ => rfl
    · set op : ArgOp := if a.isSigned then .ext32s t a.temp else .ext32u t a.temp with hop
      have hnodup := nodup_cons.mp hfresh.nodup
      have hwrites : op.writes = [t] := by
        rw [hop]
        split_ifs <;> rfl
      have hsame := abiWords_eval hword hfresh (show op.writes ⊆ _ by simp [hwrites]) V (k + 1)
      have hrest := ih (htyped.tail (subset_cons_self ..))
        (hfresh.tail (sublist_cons_self ..)) hr (op.eval V) (k + 1)
      rw [hsame] at hrest
      rw [pushArgs, abiWords]
      simp only [h64, hext, hword, hsplit, Bool.false_eq_true, and_false, if_false,
        not_false_eq_true, and_self, if_true]
      refine .cons ⟨by simpa [hsplit] using htyped.supply t mem_cons_self, ?_⟩ hrest
      have hkept : evalOps (op.eval V) ops1 t = op.eval V t :=
        evalOps_of_not_mem fun op' hop' hmem => hnodup.1 (extendArgs_writes hr op' hop' hmem)
      have hvalue : op.eval V t = if a.isSigned then sext32 (V a.temp) else low32 (V a.temp) := by
        rw [hop]
        split_ifs <;> simp [ArgOp.eval]
      rw [evalOps, hkept, hvalue, value_eq hword]
      exact fun _ _ => rfl

/-- What splitting the first argument can do. -/
theorem splitArgs_cons (h : splitArgs supply (a :: args) = some (ops, args')) :
    (a.is64 = true ∧ ∃ h l supply1 ops1 args1, supply = h :: l :: supply1 ∧
        splitArgs supply1 args = some (ops1, args1) ∧ ops = .extr l h a.temp :: ops1 ∧
        args' = ⟨h, false, false⟩ :: ⟨l, false, false⟩ :: args1) ∨
      (a.is64 = false ∧ ∃ args1, splitArgs supply args = some (ops, args1) ∧
        args' = { a with isSigned := false } :: args1) := by
  unfold splitArgs at h
  cases h64 : a.is64 with
  | true =>
    match supply with
    | [] => simp [h64] at h
    | [_] => simp [h64] at h
    | hi :: lo :: supply =>
      simp only [h64, if_true, map_eq_some_iff, Prod.mk.injEq, Prod.exists] at h
      obtain ⟨ops1, args1, hr, rfl, rfl⟩ := h
      exact .inl ⟨rfl, hi, lo, supply, ops1, args1, rfl, hr, rfl, rfl⟩
  | false =>
    simp only [h64, Bool.false_eq_true, if_false, map_eq_some_iff, Prod.mk.injEq, Prod.exists] at h
    obtain ⟨ops1, args1, hr, rfl, rfl⟩ := h
    exact .inr ⟨rfl, args1, hr, rfl⟩

theorem splitArgs_writes (h : splitArgs supply args = some (ops, args')) :
    ∀ op ∈ ops, op.writes ⊆ supply := by
  induction args generalizing supply ops args' with
  | nil =>
    simp only [splitArgs, Option.some.injEq, Prod.mk.injEq] at h
    simp [← h.1]
  | cons a args ih =>
    obtain ⟨-, hi, lo, supply, ops1, args1, rfl, hr, rfl, -⟩ | ⟨-, args1, hr, -⟩ := splitArgs_cons h
    · intro op hop
      rcases mem_cons.mp hop with rfl | hop
      · simp [writes]
      · exact List.Subset.trans (ih hr op hop) (List.Subset.trans (subset_cons_self ..) (subset_cons_self ..))
    · exact ih hr

/-- Where 64-bit arguments are split, the parameters stand for the words. -/
theorem splitArgs_stands (hword : T.wordBytes = 8) (hsplit : T.split64 = true)
    (horder : (T.bigEndian != T.stackGrowsUp) = true) (halign : T.callAlignArgs = false)
    (htyped : Typed T types supply args) (hfresh : Fresh supply args)
    (hs : splitArgs supply args = some (ops, args')) (V : Nat → BitVec 64) (k : Nat) :
    List.Forall₂ (Stands types (evalOps V ops)) (pushArgs T args' k) (abiWords T V args k) := by
  have hnot : ¬ T.wordBytes < 8 := by omega
  induction args generalizing supply ops args' V k with
  | nil =>
    simp only [splitArgs, Option.some.injEq, Prod.mk.injEq] at hs
    obtain ⟨rfl, rfl⟩ := hs
    exact .nil
  | cons a args ih =>
    obtain ⟨h64, h, l, supply, ops1, args1, rfl, hr, rfl, rfl⟩ | ⟨h64, args1, hr, rfl⟩ := splitArgs_cons hs
    · have hnodup := nodup_cons.mp hfresh.nodup
      have hnodup' := nodup_cons.mp hnodup.2
      have hne : l ≠ h := fun heq => hnodup.1 (heq ▸ mem_cons_self)
      have hsub : supply.Sublist (h :: l :: supply) := (sublist_cons_self ..).trans (sublist_cons_self ..)
      have hsame := abiWords_eval hword hfresh (show (extr l h a.temp).writes ⊆ _ by simp [writes]) V (k + 2)
      have hrest := ih (htyped.tail hsub.subset) (hfresh.tail hsub) hr
        ((extr l h a.temp).eval V) (k + 2)
      rw [hsame] at hrest
      have hkept : ∀ t ∉ supply, evalOps ((extr l h a.temp).eval V) ops1 t =
          (extr l h a.temp).eval V t := fun t ht =>
        evalOps_of_not_mem fun op hop hmem => ht (splitArgs_writes hr op hop hmem)
      have hhigh : Stands types (evalOps V (.extr l h a.temp :: ops1)) (some h)
          (some (.i32, V a.temp >>> 32)) := by
        refine ⟨by simpa [hsplit] using htyped.supply h mem_cons_self, ?_⟩
        rw [evalOps, hkept h fun hmem => hnodup.1 (mem_cons_of_mem _ hmem)]
        simp only [ArgOp.eval, update_self]
        exact fun _ _ => rfl
      have hlow : Stands types (evalOps V (.extr l h a.temp :: ops1)) (some l) (some (.i32, V a.temp)) := by
        refine ⟨by simpa [hsplit] using htyped.supply l (mem_cons_of_mem _ mem_cons_self), ?_⟩
        rw [evalOps, hkept l hnodup'.1]
        simp only [ArgOp.eval, update_of_ne hne, update_self]
        exact agree_low32 _
      rw [pushArgs, abiWords]
      simp only [pushArgs, h64, hnot, hsplit, horder, halign, Bool.false_eq_true, false_and,
        and_false, or_true, if_true, if_false]
      rw [value_eq hword]
      exact .cons hhigh (.cons hlow hrest)
    · have hrest := ih (htyped.tail (List.Subset.refl _)) (hfresh.tail (List.Sublist.refl _)) hr V (k + 1)
      rw [pushArgs, abiWords]
      simp only [h64, hsplit, not_true_eq_false, Bool.false_eq_true, and_false, if_false]
      refine .cons ⟨by simpa [h64] using htyped.arg a mem_cons_self, ?_⟩ hrest
      have hkept : evalOps V ops a.temp = V a.temp := evalOps_of_not_mem fun op hop hmem =>
        hfresh.arg a mem_cons_self (splitArgs_writes hr op hop hmem)
      rw [hkept, value_eq hword]
      exact fun _ _ => rfl

end TcgArm.RegAlloc
