import Mathlib.Tactic

/-! Straight-line code: a list of instructions, each of which may have no meaning in a state. The
rules put together what the parts of the code are known to do. -/

namespace TcgArm.SeqCode

variable {ι σ : Type*}

def run (exec : ι → σ → Option σ) (code : List ι) (s : σ) : Option σ :=
  code.foldlM (fun s i => exec i s) s

/-- The code runs to its end, in a state with `Q`. -/
def Ends (exec : ι → σ → Option σ) (code : List ι) (Q : σ → Prop) (s : σ) : Prop :=
  ∃ s', run exec code s = some s' ∧ Q s'

variable {exec : ι → σ → Option σ} {code code' : List ι} {P Q : σ → Prop} {s : σ}

@[simp] theorem run_nil : run exec [] s = some s := rfl

@[simp] theorem run_cons (i : ι) : run exec (i :: code) s = (exec i s).bind (run exec code) := by
  simp only [run, List.foldlM_cons, Option.bind_eq_bind]
  rfl

theorem run_append : run exec (code ++ code') s = (run exec code s).bind (run exec code') := by
  simp only [run, List.foldlM_append, Option.bind_eq_bind]
  rfl

theorem ends_nil (h : Q s) : Ends exec [] Q s := ⟨s, rfl, h⟩

theorem ends_single {i : ι} {s' : σ} (hi : exec i s = some s') (h : Q s') :
    Ends exec [i] Q s := ⟨s', by simp [hi], h⟩

section

variable (h : Ends exec code P s)
include h

theorem Ends.mono (hPQ : ∀ s', P s' → Q s') : Ends exec code Q s := by
  obtain ⟨s', hrun, hs'⟩ := h
  exact ⟨s', hrun, hPQ s' hs'⟩

theorem Ends.append (h' : ∀ s', P s' → Ends exec code' Q s') :
    Ends exec (code ++ code') Q s := by
  obtain ⟨s1, hrun, hs1⟩ := h
  obtain ⟨s2, hrun', hs2⟩ := h' s1 hs1
  exact ⟨s2, by rw [run_append, hrun, Option.bind_some, hrun'], hs2⟩

theorem Ends.both (h' : Ends exec code Q s) : ∃ s', P s' ∧ Q s' := by
  obtain ⟨s1, hrun, hs1⟩ := h
  obtain ⟨s2, hrun', hs2⟩ := h'
  rw [hrun, Option.some.injEq] at hrun'
  exact ⟨s1, hs1, hrun' ▸ hs2⟩

end

end TcgArm.SeqCode
