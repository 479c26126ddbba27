import Mathlib.Tactic

/-! Labelled transition relations and their finite runs. An invariant of single steps is lifted to
whole runs once, and so is a forward simulation between two relations with the same labels, or
between two deterministic machines. -/

namespace Transition

open List

variable {σ τ ℓ : Type}

/-- A finite run of a labelled step relation, with the labels in the order they were taken. -/
inductive Run (step : σ → ℓ → σ → Prop) : σ → List ℓ → σ → Prop
  | nil (s : σ) : Run step s [] s
  | cons {s s₁ s₂ : σ} {label : ℓ} {labels : List ℓ} (head : step s label s₁)
      (tail : Run step s₁ labels s₂) : Run step s (label :: labels) s₂

variable {step : σ → ℓ → σ → Prop} {astep : τ → ℓ → τ → Prop}

def execAll (exec : σ → ℓ → Option σ) : σ → List ℓ → Option σ
  | s, [] => some s
  | s, label :: labels => (exec s label).bind fun s => execAll exec s labels

variable {exec : σ → ℓ → Option σ} {labels : List ℓ} {s s' : σ} {next : σ → Option σ}

theorem execAll_append (s : σ) (first second : List ℓ) :
    execAll exec s (first ++ second) = (execAll exec s first).bind fun s => execAll exec s second := by
  induction first generalizing s with
  | nil => rfl
  | cons label first ih =>
    simp only [cons_append, execAll, Option.bind_assoc]
    congr 1
    funext s'
    exact ih s'

theorem execAll_concat {label : ℓ} :
    execAll exec s (labels ++ [label]) = some s' ↔
      ∃ s1, execAll exec s labels = some s1 ∧ exec s1 label = some s' := by
  simp [execAll_append, execAll, Option.bind_eq_some_iff]

theorem run_of_execAll (h : execAll exec s labels = some s') :
    Run (fun s label s' => exec s label = some s') s labels s' := by
  induction labels generalizing s with
  | nil =>
    cases h
    exact Run.nil _
  | cons label labels ih =>
    obtain ⟨s1, hhead, htail⟩ := Option.bind_eq_some_iff.mp h
    exact Run.cons hhead (ih htail)

theorem Run.admitted {ok : σ → ℓ → Prop} (hrun : Run step s labels s')
    (hok : ∀ l ∈ labels, ∀ s, ok s l) : Run (fun s l s' => ok s l ∧ step s l s') s labels s' := by
  induction hrun with
  | nil => exact Run.nil _
  | cons head _ ih =>
    exact Run.cons ⟨hok _ mem_cons_self _, head⟩ (ih fun l hl => hok l (mem_cons_of_mem _ hl))

theorem Run.invariant (Inv : σ → Prop) (hstep : ∀ s label s', Inv s → step s label s' → Inv s')
    (hrun : Run step s labels s') (hinit : Inv s) : Inv s' := by
  induction hrun with
  | nil => exact hinit
  | cons head _ ih => exact ih (hstep _ _ _ hinit head)

theorem Run.simulates {R : σ → τ → Prop} {ok : ℓ → Prop}
    (hsim : ∀ s t label s', ok label → R s t → step s label s' →
      ∃ t', astep t label t' ∧ R s' t') {t : τ} (hrun : Run step s labels s')
    (hok : ∀ l ∈ labels, ok l) (hrel : R s t) :
    ∃ t', Run astep t labels t' ∧ R s' t' := by
  induction hrun generalizing t with
  | nil => exact ⟨t, Run.nil t, hrel⟩
  | cons head _ ih =>
    obtain ⟨t1, hhead, hrel1⟩ := hsim _ _ _ _ (hok _ mem_cons_self) hrel head
    obtain ⟨t', htail, hrel'⟩ := ih (fun l hl => hok l (mem_cons_of_mem _ hl)) hrel1
    exact ⟨t', Run.cons hhead htail, hrel'⟩

/-- `k` steps of a machine that may stop. -/
def runN (next : σ → Option σ) : Nat → σ → Option σ
  | 0, s => some s
  | k + 1, s => (next s).bind (runN next k)

theorem runN_add (k m : Nat) (s : σ) :
    runN next (k + m) s = (runN next k s).bind (runN next m) := by
  induction k generalizing s with
  | zero => simp [runN]
  | succ k ih =>
    rw [Nat.succ_add]
    simp only [runN, Option.bind_assoc]
    congr 1
    funext s'
    exact ih s'

/-- When every step of one machine between admitted states is answered by some number of steps of
another one, so is every run through admitted states. -/
theorem runN_simulates_of {anext : τ → Option τ} {R : σ → τ → Prop} {ok : σ → Prop}
    (hsim : ∀ s t s', ok s → ok s' → R s t → next s = some s' →
      ∃ m t', runN anext m t = some t' ∧ R s' t') {k : Nat} {t : τ}
    (hok : ∀ i ≤ k, ∀ s1, runN next i s = some s1 → ok s1) (hrun : runN next k s = some s') (hrel : R s t) :
    ∃ m t', runN anext m t = some t' ∧ R s' t' := by
  induction k generalizing s t with
  | zero =>
    cases hrun
    exact ⟨0, t, rfl, hrel⟩
  | succ k ih =>
    obtain ⟨s1, hhead, htail⟩ := Option.bind_eq_some_iff.mp hrun
    have hok1 : ∀ i ≤ k, ∀ s2, runN next i s1 = some s2 → ok s2 := fun i hi s2 hs2 =>
      hok (i + 1) (by omega) s2 (by simp [runN, hhead, hs2])
    obtain ⟨m1, t1, hrun1, hrel1⟩ :=
      hsim s t s1 (hok 0 (by omega) s rfl) (hok1 0 (by omega) s1 rfl) hrel hhead
    obtain ⟨m2, t2, hrun2, hrel2⟩ := ih hok1 htail hrel1
    exact ⟨m1 + m2, t2, by rw [runN_add, hrun1]; exact hrun2, hrel2⟩

end Transition
