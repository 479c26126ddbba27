import TcgArm.ExecContext

/-! Sequences of `vfp_set_fpscr`. Each call sets the rounding mode, the flushing of denormals and
the default-NaN mode only where the value differs from the register stored before, so the parts of
the FPSCR agree after a call when the fields that did not change agreed before it. -/

namespace TcgArm.Cpu

/-- The modes of the standard status, in the encoding of the FPSCR: rounding to nearest,
flush-to-zero and default NaN. -/
def standardFpscr : BitVec 32 := 0x03000000#32

/-- The places that hold the FPSCR agree: modes and exception flags of the two statuses with the
register, which holds neither vector length nor stride. -/
structure Env.FpscrConsistent (env : Env) : Prop where
  follows : env.fpStatus.Follows env.fpscr
  standard : env.standardFpStatus.Follows standardFpscr
  flags : vfpExceptbitsFromHost (env.fpStatus.exceptionFlags |||
    env.standardFpStatus.exceptionFlags) = env.fpscr &&& 0x9f#32
  apart : env.fpscr &&& ~~~ fpscrKept = 0

variable {env : Env}

theorem follows_and_fpscrKept (status : FloatStatus) (val : BitVec 32) :
    status.Follows (val &&& fpscrKept) ↔ status.Follows val :=
  ⟨fun h => h.congr (fun _ hlow hhigh => getLsbD_and_fpscrKept val hlow hhigh) _,
    fun h => h.congr (fun _ hlow hhigh => (getLsbD_and_fpscrKept val hlow hhigh).symm) _⟩

theorem vfpExceptbitsFromHost_toHost (val : BitVec 32) :
    vfpExceptbitsFromHost (vfpExceptbitsToHost val ||| 0) = val &&& fpscrKept &&& 0x9f#32 := by
  apply BitVec.eq_of_getLsbD_eq
  intro i hi
  simp only [vfpExceptbitsFromHost, vfpExceptbitsToHost, fpscrKept, getLsbD_bitFor,
    BitVec.getLsbD_or, BitVec.getLsbD_and]
  interval_cases i <;> simp

theorem fpscrConsistent_vfpSetFpscr_iff (env : Env) (val : BitVec 32) :
    (vfpSetFpscr env val).FpscrConsistent ↔
      (vfpSetFpscr env val).fpStatus.Follows val ∧ env.standardFpStatus.Follows standardFpscr := by
  constructor
  · intro h
    exact ⟨(follows_and_fpscrKept _ val).mp h.follows, h.standard.congr (fun _ _ _ => rfl) _⟩
  · rintro ⟨hfollows, hstandard⟩
    refine ⟨(follows_and_fpscrKept _ val).mpr hfollows, hstandard.congr (fun _ _ _ => rfl) _,
      vfpExceptbitsFromHost_toHost val, ?_⟩
    change val &&& fpscrKept &&& ~~~ fpscrKept = 0
    rw [BitVec.and_assoc, BitVec.and_not_self]
    exact BitVec.and_zero

theorem fpscrConsistent_vfpSetFpscr (hfollows : env.fpStatus.Follows env.fpscr)
    (hstandard : env.standardFpStatus.Follows standardFpscr) (val : BitVec 32) :
    (vfpSetFpscr env val).FpscrConsistent :=
  (fpscrConsistent_vfpSetFpscr_iff env val).mpr ⟨follows_vfpSetFpscr hfollows val, hstandard⟩

theorem fpscrConsistent_foldl (h : env.FpscrConsistent) (vals : List (BitVec 32)) :
    (vals.foldl vfpSetFpscr env).FpscrConsistent := by
  induction vals generalizing env with
  | nil => exact h
  | cons val vals ih => exact ih (fpscrConsistent_vfpSetFpscr h.follows h.standard val)

/-- In every state a read returns the value written last. The places agree after a write exactly
when the standard status has its modes and each mode that the write does not change was right
before; a state in which the places agree is left so by every sequence of writes, and reset gives
one. -/
theorem fpscr_writes_consistent (env : Env) (vals : List (BitVec 32)) (val : BitVec 32) :
    vfpGetFpscr ((vals ++ [val]).foldl vfpSetFpscr env) = val ∧
      ((vfpSetFpscr env val).FpscrConsistent ↔
        env.standardFpStatus.Follows standardFpscr ∧
        ((env.fpscr ^^^ val) &&& 0x00c00000#32 = 0 → env.fpStatus.roundingMode = roundingOf val) ∧
        ((env.fpscr ^^^ val) &&& 0x01000000#32 = 0 →
          env.fpStatus.flushToZero = val.getLsbD 24 ∧ env.fpStatus.flushInputsToZero = val.getLsbD 24) ∧
        ((env.fpscr ^^^ val) &&& 0x02000000#32 = 0 → env.fpStatus.defaultNanMode = val.getLsbD 25)) ∧
      (env.FpscrConsistent → (vals.foldl vfpSetFpscr env).FpscrConsistent) ∧
      resetEnv.FpscrConsistent := by
  refine ⟨?_, ?_, fun h => fpscrConsistent_foldl h vals, ?_⟩
  · rw [List.foldl_append]
    exact vfpGetFpscr_vfpSetFpscr _ val
  · rw [fpscrConsistent_vfpSetFpscr_iff, follows_vfpSetFpscr_iff, and_comm]
  · exact ⟨sound_reset.follows, ⟨by decide, by decide, by decide, by decide⟩, by decide, by decide⟩

/-- Rounding upwards in the status, to nearest in the register: a write of the same register leaves
both as they are. -/
theorem fpscr_write_keeps_stale_rounding :
    let env := { resetEnv with fpStatus := { resetEnv.fpStatus with roundingMode := .up } }
    (vfpSetFpscr env 0).fpStatus.roundingMode = .up ∧ roundingOf (vfpSetFpscr env 0).fpscr =
      .nearestEven ∧ ¬ (vfpSetFpscr env 0).FpscrConsistent := by
  refine ⟨by decide, by decide, fun h => ?_⟩
  exact absurd h.follows.roundingMode (by decide)

end TcgArm.Cpu
