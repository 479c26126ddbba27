import Mathlib.Tactic

/-! The sorted lists of 64-bit address ranges of `range.c`. A failed assertion is `none`. -/

namespace TcgArm.Ranges

open Option (bind_eq_bind bind_some)

structure Range where
  lob : BitVec 64
  upb : BitVec 64

def rangeIsEmpty (r : Range) : Option Bool :=
  if r.lob ≤ r.upb ∨ r.lob = r.upb + 1 then some (r.upb < r.lob) else none

def rangeContains (r : Range) (val : BitVec 64) : Prop := r.lob ≤ val ∧ val ≤ r.upb

def rangeExtend (r extendBy : Range) : Option Range := do
  if ← rangeIsEmpty extendBy then return r
  if ← rangeIsEmpty r then return extendBy
  let r := if r.lob > extendBy.lob then { r with lob := extendBy.lob } else r
  let r := if r.upb < extendBy.upb then { r with upb := extendBy.upb } else r
  let _ ← rangeIsEmpty r
  return r

def rangeCompare (a b : Range) : Option Ordering := do
  if (← rangeIsEmpty a) || (← rangeIsEmpty b) then none
  else if b.lob ≠ 0 ∧ b.lob - 1 > a.upb then return .lt
  else if a.lob ≠ 0 ∧ a.lob - 1 > b.upb then return .gt
  else return .eq

/-- The last loop of `range_list_insert`, at an element `r` in front of the rest of the list. -/
def absorb (r : Range) : List Range → Option (List Range)
  | [] => some [r]
  | next :: l => do
    if (← rangeCompare r next) = .eq then absorb (← rangeExtend r next) l
    else return r :: next :: l

/-- From the element on that the first loop of `range_list_insert` has come to. -/
def insertFrom (data : Range) : List Range → Option (List Range)
  | [] => some [data]
  | x :: l => do
    match ← rangeCompare x data with
    | .lt => return x :: (← insertFrom data l)
    | .gt => return data :: x :: l
    | .eq => absorb (← rangeExtend x data) l

def rangeListInsert (list : List Range) (data : Range) : Option (List Range) := do
  if ← rangeIsEmpty data then none else insertFrom data list

def Nonempty (r : Range) : Prop := r.lob ≤ r.upb

/-- `a` lies below `b` and does not touch it. -/
abbrev Below (a b : Range) : Prop := a.upb.toNat + 1 < b.lob.toNat

/-- The least range around two. -/
def hull (a b : Range) : Range :=
  ⟨if a.lob > b.lob then b.lob else a.lob, if a.upb < b.upb then b.upb else a.upb⟩

/-- The list is increasing, and no two of its ranges overlap or touch. -/
structure Apart (l : List Range) : Prop where
  nonempty : ∀ r ∈ l, Nonempty r
  below : l.Pairwise Below

/-- What a list covers. -/
def Covers (l : List Range) (x : BitVec 64) : Prop := ∃ r ∈ l, rangeContains r x

variable {a b : Range} {l : List Range}

theorem rangeIsEmpty_eq (h : Nonempty a) : rangeIsEmpty a = some false := by
  rw [Nonempty] at h
  rw [rangeIsEmpty, if_pos (.inl h)]
  simpa using h

theorem rangeCompare_eq (ha : Nonempty a) (hb : Nonempty b) : rangeCompare a b =
    some (if Below a b then .lt else if Below b a then .gt else .eq) := by
  have hlt : ∀ x y : BitVec 64, y ≠ 0 ∧ y - 1 > x ↔ x.toNat + 1 < y.toNat := by
    intro x y
    bv_omega
  simp only [rangeCompare, rangeIsEmpty_eq ha, rangeIsEmpty_eq hb, hlt, Below, bind_eq_bind,
    bind_some, Bool.or_false, Bool.false_eq_true, if_false]
  split_ifs <;> rfl

theorem rangeExtend_eq (ha : Nonempty a) (hb : Nonempty b) :
    rangeExtend a b = some (hull a b) ∧ Nonempty (hull a b) := by
  have hne : Nonempty (hull a b) := by
    simp only [Nonempty, hull] at *
    split_ifs <;> bv_omega
  refine ⟨?_, hne⟩
  have hwrite : (if (if a.lob > b.lob then { a with lob := b.lob } else a).upb < b.upb then
      { (if a.lob > b.lob then { a with lob := b.lob } else a) with upb := b.upb }
      else if a.lob > b.lob then { a with lob := b.lob } else a) = hull a b := by
    rw [hull]
    split_ifs <;> simp_all
  simp only [rangeExtend, rangeIsEmpty_eq ha, rangeIsEmpty_eq hb, bind_eq_bind,
    bind_some, Bool.false_eq_true, if_false, hwrite, rangeIsEmpty_eq hne]
  rfl

theorem contains_hull (hab : ¬ Below a b) (hba : ¬ Below b a) (x : BitVec 64) :
    rangeContains (hull a b) x ↔ rangeContains a x ∨ rangeContains b x := by
  simp only [Below, rangeContains, hull] at *
  split_ifs <;> bv_omega

theorem covers_cons (x : BitVec 64) : Covers (a :: l) x ↔ rangeContains a x ∨ Covers l x := by
  simp [Covers]

theorem apart_cons : Apart (a :: l) ↔ (Nonempty a ∧ ∀ b ∈ l, Below a b) ∧ Apart l := by
  constructor
  · rintro ⟨hne, hbelow⟩
    rw [List.forall_mem_cons] at hne
    rw [List.pairwise_cons] at hbelow
    exact ⟨⟨hne.1, hbelow.1⟩, hne.2, hbelow.2⟩
  · rintro ⟨⟨hne, hbelow⟩, hl⟩
    exact ⟨List.forall_mem_cons.mpr ⟨hne, hl.nonempty⟩, List.pairwise_cons.mpr ⟨hbelow, hl.below⟩⟩

theorem absorb_spec (ha : Nonempty a) (hl : Apart l) (hlow : ∀ b ∈ l, a.lob ≤ b.lob) :
    ∃ l', absorb a l = some l' ∧ Apart l' ∧ (∀ b ∈ l', a.lob ≤ b.lob) ∧
      ∀ x, Covers l' x ↔ rangeContains a x ∨ Covers l x := by
  induction l generalizing a with
  | nil => exact ⟨[a], rfl, apart_cons.mpr ⟨⟨ha, by simp⟩, hl⟩, by simp, covers_cons⟩
  | cons b l ih =>
    obtain ⟨⟨hb, hbelow⟩, hl⟩ := apart_cons.mp hl
    have hle := hlow b (by simp)
    have hba : ¬ Below b a := by
      simp only [Nonempty] at hb
      bv_omega
    simp only [absorb, rangeCompare_eq ha hb, if_neg hba, bind_eq_bind, bind_some]
    by_cases hab : Below a b
    · refine ⟨a :: b :: l, by simp [hab], ?_, ?_, covers_cons⟩
      · refine apart_cons.mpr ⟨⟨ha, List.forall_mem_cons.mpr ⟨hab, fun c hc => ?_⟩⟩,
          apart_cons.mpr ⟨⟨hb, hbelow⟩, hl⟩⟩
        have hbc := hbelow c hc
        simp only [Nonempty] at hb
        bv_omega
      · exact List.forall_mem_cons.mpr ⟨BitVec.le_refl _, hlow⟩
    · obtain ⟨hrun, hne⟩ := rangeExtend_eq ha hb
      have hlob : (hull a b).lob = a.lob := if_neg (by bv_omega)
      obtain ⟨l', hl', hapart, hlow', hcov⟩ := @ih (hull a b) hne hl fun c hc => by
        rw [hlob]
        exact hlow c (List.mem_cons_of_mem _ hc)
      rw [hlob] at hlow'
      refine ⟨l', by simpa [hab, hrun] using hl', hapart, hlow', fun x => ?_⟩
      rw [hcov, contains_hull hab hba, covers_cons, or_assoc]

theorem insertFrom_spec (ha : Nonempty a) (hl : Apart l) : ∃ l', insertFrom a l = some l' ∧ Apart l' ∧
    (∀ b, Below b a → (∀ c ∈ l, Below b c) → ∀ c ∈ l', Below b c) ∧
      ∀ x, Covers l' x ↔ rangeContains a x ∨ Covers l x := by
  induction l with
  | nil =>
    exact ⟨[a], rfl, apart_cons.mpr ⟨⟨ha, by simp⟩, hl⟩, fun b hb _ => by simpa using hb, covers_cons⟩
  | cons b l ih =>
    obtain ⟨⟨hb, hbelow⟩, hl'⟩ := apart_cons.mp hl
    simp only [insertFrom, rangeCompare_eq hb ha, bind_eq_bind, bind_some]
    by_cases hba : Below b a
    · obtain ⟨l', hrun, hapart, hbound, hcov⟩ := ih hl'
      refine ⟨b :: l', by simp [hba, hrun], apart_cons.mpr ⟨⟨hb, hbound b hba hbelow⟩, hapart⟩,
        fun c hc hall => ?_, fun x => ?_⟩
      · rw [List.forall_mem_cons] at hall ⊢
        exact ⟨hall.1, hbound c hc hall.2⟩
      · rw [covers_cons, hcov, covers_cons, or_left_comm]
    by_cases hab : Below a b
    · refine ⟨a :: b :: l, by simp [hba, hab], apart_cons.mpr ⟨⟨ha, List.forall_mem_cons.mpr
        ⟨hab, fun c hc => ?_⟩⟩, hl⟩, fun c hc hall => List.forall_mem_cons.mpr ⟨hc, hall⟩, covers_cons⟩
      have hbc := hbelow c hc
      simp only [Nonempty] at hb
      bv_omega
    · obtain ⟨hrun, hne⟩ := rangeExtend_eq hb ha
      obtain ⟨l', hl1, hapart, hlow, hcov⟩ := absorb_spec hne hl' fun c hc => by
        have hbc := hbelow c hc
        simp only [Nonempty, hull] at *
        split_ifs <;> bv_omega
      refine ⟨l', by simpa [hba, hab, hrun] using hl1, hapart, fun c hc hall d hd => ?_, fun x => ?_⟩
      · have hcb := hall b (by simp)
        have hle := hlow d hd
        rw [hull] at hle
        split_ifs at hle <;> bv_omega
      · rw [hcov, contains_hull hba hab, covers_cons, or_left_comm, or_assoc]

/-- However ranges are inserted, no assertion fails, the list stays sorted and its ranges apart, and it
covers what was inserted. -/
theorem range_list_right (ranges : List Range) (h : ∀ r ∈ ranges, Nonempty r) :
    ∃ l, ranges.foldlM rangeListInsert [] = some l ∧ Apart l ∧ ∀ x, Covers l x ↔ Covers ranges x := by
  induction ranges using List.reverseRecOn with
  | nil => exact ⟨[], rfl, ⟨by simp, .nil⟩, fun _ => Iff.rfl⟩
  | append_singleton ranges r ih =>
    rw [List.forall_mem_append, List.forall_mem_singleton] at h
    obtain ⟨l, hrun, hapart, hcov⟩ := ih h.1
    obtain ⟨l', hrun', hapart', -, hcov'⟩ := insertFrom_spec h.2 hapart
    refine ⟨l', ?_, hapart', fun x => ?_⟩
    · simpa [List.foldlM_append, hrun, rangeListInsert, rangeIsEmpty_eq h.2] using hrun'
    · rw [hcov', hcov]
      simp [Covers, or_comm]

/-- The two ends of the address space and what lies between them. -/
theorem range_list_right_ends : ∃ l, [⟨0, 0⟩, ⟨-1, -1⟩, ⟨1, -2⟩].foldlM rangeListInsert [] = some l ∧
    Apart l ∧ ∀ x, Covers l x ↔ Covers [⟨0, 0⟩, ⟨-1, -1⟩, ⟨1, -2⟩] x :=
  range_list_right _ (by simp [Nonempty])

end TcgArm.Ranges
