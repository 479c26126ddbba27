import Mathlib.Tactic

/-! Maximal runs of equal values in a list. A scan from left to right, which keeps the run it is in,
lists exactly the maximal runs of values other than a blank one, in order. -/

namespace ValueRuns

open List

variable {α : Type}

/-- The positions from `first` up to `last` and the value they hold. -/
@[ext]
structure Segment (α : Type) where
  first : Nat
  last : Nat
  value : α

/-- A run of one value other than `blank` that cannot be extended on either side. -/
structure IsMaximal (blank : α) (values : List α) (r : Segment α) : Prop where
  lt : r.first < r.last
  value_ne : r.value ≠ blank
  inside : ∀ k, r.first ≤ k → k < r.last → values[k]? = some r.value
  before : ∀ k, k + 1 = r.first → values[k]? ≠ some r.value
  behind : values[r.last]? ≠ some r.value

/-- Every value other than `blank` is part of a maximal run. -/
theorem exists_isMaximal {blank : α} {values : List α} {k : Nat} {value : α}
    (hvalue : values[k]? = some value) (hne : value ≠ blank) :
    ∃ r, IsMaximal blank values r ∧ r.first ≤ k ∧ k < r.last := by
  classical
  have hfirst : ∃ i, ∀ j, i ≤ j → j ≤ k → values[j]? = some value :=
    ⟨k, fun j hlow hhigh => le_antisymm hlow hhigh ▸ hvalue⟩
  have hlast : ∃ i, k < i ∧ values[i]? ≠ some value :=
    ⟨values.length, (List.getElem?_eq_some_iff.mp hvalue).1, by
      rw [getElem?_eq_none le_rfl]
      exact fun h => by cases h⟩
  have hfirst_le : Nat.find hfirst ≤ k :=
    Nat.find_min' hfirst fun j hlow hhigh => le_antisymm hlow hhigh ▸ hvalue
  obtain ⟨hbehind, hother⟩ := Nat.find_spec hlast
  refine ⟨⟨Nat.find hfirst, Nat.find hlast, value⟩, ⟨hfirst_le.trans_lt hbehind, hne, fun j hlow hhigh => ?_,
    fun j hj hsame => ?_, hother⟩, hfirst_le, hbehind⟩
  · rcases Nat.lt_or_ge k j with hlt | hge
    · by_contra hdiff
      exact Nat.find_min hlast hhigh ⟨hlt, hdiff⟩
    · exact Nat.find_spec hfirst j hlow hge
  · -- the run could start one position earlier
    replace hj : j + 1 = Nat.find hfirst := hj
    refine Nat.find_min hfirst (show j < Nat.find hfirst by omega) fun i hlow hhigh => ?_
    rcases Nat.eq_or_lt_of_le hlow with rfl | hlt
    · exact hsame
    · exact Nat.find_spec hfirst i (by omega) hhigh

/-- The run a scan is in at position `k` ends there. -/
def close (k : Nat) : Option (Nat × α) → List (Segment α)
  | none => []
  | some (first, value) => [⟨first, k, value⟩]

def current (blank : α) : Option (Nat × α) → α
  | none => blank
  | some (_, value) => value

/-- Where the runs that have not ended at position `k` start at the earliest. -/
def openFrom (k : Nat) : Option (Nat × α) → Nat
  | none => k
  | some (first, _) => first

/-- What a scan knows at position `k` of the list. -/
structure Scanned (blank : α) (values : List α) (k : Nat) (run : Option (Nat × α)) : Prop where
  blank_before : run = none → ∀ j, j + 1 = k → values[j]? = some blank
  run_open : ∀ first value, run = some (first, value) → value ≠ blank ∧ first < k ∧
    (∀ j, first ≤ j → j < k → values[j]? = some value) ∧
    ∀ j, j + 1 = first → values[j]? ≠ some value

variable {blank : α} {values : List α} {k : Nat} {run : Option (Nat × α)}

theorem scanned_zero (blank : α) (values : List α) : Scanned blank values 0 none :=
  ⟨fun _ j hj => (by omega), fun _ _ h => (by cases h)⟩

section

variable (h : Scanned blank values k run)
include h

theorem Scanned.openFrom_le : openFrom k run ≤ k := by
  cases run with
  | none => exact le_rfl
  | some r => exact (h.run_open r.1 r.2 rfl).2.1.le

theorem Scanned.step_same {value : α} (hvalue : values[k]? = some value) (hsame : value = current blank run) :
    Scanned blank values (k + 1) run := by
  refine ⟨fun hnone j hj => ?_, fun first v hrun => ?_⟩
  · obtain rfl : j = k := by omega
    rw [hvalue, hsame, hnone, current]
  · obtain ⟨hne, hlt, hin, hbefore⟩ := h.run_open first v hrun
    refine ⟨hne, by omega, fun j hlow hhigh => ?_, hbefore⟩
    rcases Nat.lt_succ_iff_lt_or_eq.mp hhigh with hj | rfl
    · exact hin j hlow hj
    · rw [hvalue, hsame, hrun, current]

/-- When the value behind it is another one, the run of the scan is the only maximal run that starts
before position `k` and had not ended. -/
theorem Scanned.mem_close
    (hend : values[k]? ≠ some (current blank run)) (r : Segment α) :
    r ∈ close k run ↔ IsMaximal blank values r ∧ openFrom k run ≤ r.first ∧ r.first < k := by
  cases run with
  | none =>
    simp only [close, not_mem_nil, openFrom, false_iff]
    omega
  | some cur =>
    obtain ⟨first, value⟩ := cur
    obtain ⟨hne, hlt, hin, hbefore⟩ := h.run_open first value rfl
    simp only [close, mem_singleton, openFrom]
    constructor
    · rintro rfl
      exact ⟨⟨hlt, hne, hin, hbefore, hend⟩, le_rfl, hlt⟩
    · rintro ⟨hmax, hlow, hhigh⟩
      have hvalue : value = r.value := by
        have := hmax.inside r.first le_rfl hmax.lt
        rw [hin r.first hlow hhigh] at this
        exact Option.some.inj this
      have hfirst : r.first = first := by
        by_contra hne'
        exact hmax.before (r.first - 1) (by omega) (hvalue ▸ hin (r.first - 1) (by omega) (by omega))
      have hlast : r.last = k := by
        rcases Nat.lt_trichotomy r.last k with hsmall | heq | hlarge
        · exact absurd (hvalue ▸ hin r.last (by have := hmax.lt; omega) hsmall) hmax.behind
        · exact heq
        · exact absurd (hvalue ▸ hmax.inside k (by omega) hlarge) hend
      exact Segment.ext hfirst hlast hvalue.symm

end

variable [DecidableEq α] {rest : List α}

def startRun (blank : α) (k : Nat) (value : α) : Option (Nat × α) :=
  if value = blank then none else some (k, value)

/-- The runs that end behind position `k`, scanned in the run `run`. -/
def segmentsFrom (blank : α) : List α → Nat → Option (Nat × α) → List (Segment α)
  | [], k, run => close k run
  | value :: rest, k, run =>
    if value = current blank run then segmentsFrom blank rest (k + 1) run
    else close k run ++ segmentsFrom blank rest (k + 1) (startRun blank k value)

def segments (blank : α) (values : List α) : List (Segment α) := segmentsFrom blank values 0 none

/-- Another value starts a run of its own. -/
theorem Scanned.step_other (h : Scanned blank values k run) {value : α}
    (hvalue : values[k]? = some value) (hother : value ≠ current blank run) :
    Scanned blank values (k + 1) (startRun blank k value) := by
  refine ⟨fun hnone j hj => ?_, fun first v hrun => ?_⟩
  · obtain rfl : j = k := by omega
    rw [startRun] at hnone
    split_ifs at hnone with hblank
    rw [hvalue, hblank]
  · rw [startRun] at hrun
    split_ifs at hrun with hblank
    cases hrun
    refine ⟨hblank, by omega, fun j hlow hhigh => ?_, fun j hj hsame => ?_⟩
    · obtain rfl : j = k := by omega
      exact hvalue
    · cases run with
      | none =>
        rw [h.blank_before rfl j hj] at hsame
        exact hblank (Option.some.inj hsame).symm
      | some r =>
        obtain ⟨-, hlt, hin, -⟩ := h.run_open r.1 r.2 rfl
        rw [hin j (by omega) (by omega)] at hsame
        exact hother (Option.some.inj hsame).symm

omit [DecidableEq α] in
theorem next_of_drop {value : α} {rest : List α} (h : values.drop k = value :: rest) :
    values[k]? = some value ∧ values.drop (k + 1) = rest := by
  rw [← drop_drop, h, ← head?_drop, h]
  exact ⟨rfl, rfl⟩

omit [DecidableEq α] in
/-- A blank value is in no run. -/
theorem IsMaximal.first_ne {r : Segment α} (h : IsMaximal blank values r) (hk : values[k]? = some blank) :
    r.first ≠ k := by
  rintro rfl
  have := h.inside r.first le_rfl h.lt
  rw [hk] at this
  exact h.value_ne (Option.some.inj this).symm

/-- A scan from position `k` on lists the maximal runs that had not ended there. -/
theorem mem_segmentsFrom (h : Scanned blank values k run) (hrest : values.drop k = rest) (r : Segment α) :
    r ∈ segmentsFrom blank rest k run ↔ IsMaximal blank values r ∧ openFrom k run ≤ r.first := by
  induction rest generalizing k run with
  | nil =>
    have hlen : values.length ≤ k := List.drop_eq_nil_iff.mp hrest
    have hout : values[k]? = none := getElem?_eq_none hlen
    rw [segmentsFrom, h.mem_close (by rw [hout]; exact fun h => by cases h)]
    refine and_congr_right fun hmax => and_iff_left ?_
    by_contra hge
    have := hmax.inside r.first le_rfl hmax.lt
    rw [getElem?_eq_none (by omega)] at this
    cases this
  | cons value rest ih =>
    obtain ⟨hvalue, hrest'⟩ := next_of_drop hrest
    rw [segmentsFrom]
    split_ifs with hsame
    · rw [ih (h.step_same hvalue hsame) hrest']
      refine and_congr_right fun hmax => ?_
      cases run with
      | some cur => rfl
      | none =>
        have hne := hmax.first_ne (hsame ▸ hvalue)
        simp only [openFrom]
        omega
    · have hend : values[k]? ≠ some (current blank run) := by
        rw [hvalue]
        exact fun heq => hsame (Option.some.inj heq)
      rw [mem_append, h.mem_close hend, ih (h.step_other hvalue hsame) hrest', ← and_or_left]
      refine and_congr_right fun hmax => ?_
      have hle := h.openFrom_le
      have hstart : openFrom (k + 1) (startRun blank k value) ≤ r.first ↔ k ≤ r.first := by
        rw [startRun]
        split_ifs with hblank
        · have hne := hmax.first_ne (hblank ▸ hvalue)
          simp only [openFrom]
          omega
        · rfl
      rw [hstart]
      omega

/-- The runs come in order and do not overlap. -/
theorem segmentsFrom_pairwise (h : Scanned blank values k run) (hrest : values.drop k = rest) :
    (segmentsFrom blank rest k run).Pairwise fun a b => a.last ≤ b.first := by
  induction rest generalizing k run with
  | nil =>
    rw [segmentsFrom]
    cases run <;> simp only [close, List.Pairwise.nil, pairwise_singleton]
  | cons value rest ih =>
    obtain ⟨hvalue, hrest'⟩ := next_of_drop hrest
    rw [segmentsFrom]
    split_ifs with hsame
    · exact ih (h.step_same hvalue hsame) hrest'
    · refine List.pairwise_append.mpr ⟨?_, ih (h.step_other hvalue hsame) hrest', ?_⟩
      · cases run <;> simp only [close, List.Pairwise.nil, pairwise_singleton]
      · intro a ha b hb
        have hlast : a.last = k := by
          cases run with
          | none => cases ha
          | some cur =>
            rw [close, mem_singleton] at ha
            rw [ha]
        have hfirst := ((mem_segmentsFrom (h.step_other hvalue hsame) hrest' b).mp hb).2
        have hle : k ≤ openFrom (k + 1) (startRun blank k value) := by
          rw [startRun]
          split_ifs
          · exact Nat.le_succ k
          · exact le_rfl
        omega

theorem mem_segments (r : Segment α) : r ∈ segments blank values ↔ IsMaximal blank values r := by
  rw [segments, mem_segmentsFrom (scanned_zero blank values) drop_zero]
  exact and_iff_left (Nat.zero_le _)

theorem segments_pairwise (blank : α) (values : List α) :
    (segments blank values).Pairwise fun a b => a.last ≤ b.first :=
  segmentsFrom_pairwise (scanned_zero blank values) drop_zero

end ValueRuns
