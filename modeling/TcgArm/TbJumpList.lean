import TcgArm.Transition
import TcgArm.FieldChain
import TcgArm.Literals

/-! Direct block chaining: the native jump of each of the two `goto_tb` slots of a translation
block, and the circular tagged lists of who jumps to it (`exec-all.h`, `translate-all.c`). A block
is named by its index in `tbs[]`; a `uintptr_t` with a tag in its low bits is an index with a tag,
and a `uintptr_t *` the name of a field. -/

namespace TcgArm.TbJump

open FieldChain Finset Function Transition

/-- The low two bits of a list pointer: the slot of a jumping block, or 2 for the way back to the
block that the list belongs to. -/
inductive Tag
  | jump (n : Fin 2)
  | target
  deriving DecidableEq, Repr

/-- A non-null `(uintptr_t)tb | tag`. -/
structure TaggedTb where
  tb : Nat
  tag : Tag
  deriving DecidableEq, Repr

/-- The fields the lists are threaded through: `tb->jmp_list_first`, `tb->jmp_list_next[n]`. -/
inductive Field
  | first (tb : Nat)
  | next (tb : Nat) (n : Fin 2)
  deriving DecidableEq, Repr

/-- Where the native jump of a slot leads: back into its own block (`jmp_reset_offset`), to the
code of a block, or nowhere known for a slot that was never given an address. -/
inductive JumpDest
  | unset
  | reset
  | entry (tb : Nat)
  deriving DecidableEq, Repr

/-- The chaining fields of `tbs[0 .. nb_tbs - 1]`. -/
structure JumpLists where
  nbTbs : Nat
  link : Field → Option TaggedTb
  dest : Nat → Fin 2 → JumpDest

namespace JumpLists

variable (s : JumpLists)

/-- A store through a `uintptr_t *`. -/
def setLink (ptb : Field) (v : Option TaggedTb) : JumpLists :=
  { s with link := update s.link ptb v }

def tbSetJmpTarget (tb : Nat) (n : Fin 2) (addr : JumpDest) : JumpLists :=
  { s with dest := update s.dest tb (update (s.dest tb) n addr) }

def tbAddJump (tb : Nat) (n : Fin 2) (tbNext : Nat) : JumpLists :=
  if (s.link (.next tb n)).isSome then s
  else
    let s₁ := s.tbSetJmpTarget tb n (.entry tbNext)
    let s₂ := s₁.setLink (.next tb n) (s₁.link (.first tbNext))
    s₂.setLink (.first tbNext) (some ⟨tb, .jump n⟩)

def walkBound : Nat := 2 * s.nbTbs + 2

/-- The search of `tb_remove_from_jmp_list` for the field that points to `tb(n)`. There is no
result when it meets a null pointer or does not end. -/
def findInJmpList (tb : Nat) (n : Fin 2) : Nat → Field → Option Field
  | 0, _ => none
  | fuel + 1, ptb =>
    match s.link ptb with
    | none => none
    | some ⟨tb1, n1⟩ =>
      if n1 = .jump n ∧ tb1 = tb then some ptb
      else
        match n1 with
        | .target => findInJmpList tb n fuel (.first tb1)
        | .jump n1 => findInJmpList tb n fuel (.next tb1 n1)

def tbRemoveFromJmpList (tb : Nat) (n : Fin 2) : Option JumpLists :=
  if (s.link (.next tb n)).isSome then do
    let ptb ← s.findInJmpList tb n s.walkBound (.next tb n)
    let s₁ := s.setLink ptb (s.link (.next tb n))
    return s₁.setLink (.next tb n) none
  else
    some s

def tbResetJump (tb : Nat) (n : Fin 2) : JumpLists :=
  s.tbSetJmpTarget tb n .reset

/-- The loop of `tb_jmp_unlink`, with a bound on its iterations. -/
def tbJmpUnlink (tb : Nat) : Nat → JumpLists → Option JumpLists
  | 0, _ => none
  | fuel + 1, s =>
    match s.link (.first tb) with
    | none => none
    | some ⟨_, .target⟩ => some s
    | some ⟨tb1, .jump n1⟩ =>
      let s₁ := s.tbResetJump tb1 n1
      let s₂ := s₁.setLink (.first tb) (s₁.link (.next tb1 n1))
      tbJmpUnlink tb fuel (s₂.setLink (.next tb1 n1) none)

/-- The chaining part of `tb_phys_invalidate`. -/
def invalidate (tb : Nat) : Option JumpLists := do
  let s₁ ← s.tbRemoveFromJmpList tb 0
  let s₂ ← s₁.tbRemoveFromJmpList tb 1
  tbJmpUnlink tb s₂.walkBound s₂

/-- The next entry of `tbs[]` is taken. -/
def tbAlloc : JumpLists :=
  { s with nbTbs := s.nbTbs + 1 }

/-- `tb_gen_code` starts the lists of a new block; `hasGoto n` says that code generation recorded
a reset offset for slot `n`. -/
def initJmpList (tb : Nat) (hasGoto : Fin 2 → Bool) : JumpLists :=
  let dest (n : Fin 2) : JumpDest := if hasGoto n then .reset else .unset
  { s with
    link := update (update (update s.link
      (.first tb) (some ⟨tb, .target⟩)) (.next tb 0) none) (.next tb 1) none
    dest := update s.dest tb dest }

/-- The chaining part of `tb_gen_code`. -/
def genCode (hasGoto : Fin 2 → Bool) : JumpLists :=
  s.tbAlloc.initJmpList s.nbTbs hasGoto

/-- The chaining part of `tb_flush`: every block is forgotten, the fields are left as they are. -/
def flush : JumpLists :=
  { s with nbTbs := 0 }

/-- The walk along the circular list of `tb`: the jumping slots, up to the way back to `tb`. -/
def jmpListFrom (tb : Nat) : Nat → Field → Option (List (Nat × Fin 2))
  | 0, _ => none
  | fuel + 1, ptb =>
    match s.link ptb with
    | none => none
    | some ⟨tb1, .target⟩ => if tb1 = tb then some [] else none
    | some ⟨tb1, .jump n1⟩ => ((tb1, n1) :: ·) <$> jmpListFrom tb fuel (.next tb1 n1)

/-- The slots on the list that starts at `tb->jmp_list_first`. -/
def jmpList (tb : Nat) : Option (List (Nat × Fin 2)) :=
  s.jmpListFrom tb s.walkBound (.first tb)

@[simp] theorem setLink_dest (ptb : Field) (v : Option TaggedTb) :
    (s.setLink ptb v).dest = s.dest := rfl

@[simp] theorem setLink_nbTbs (ptb : Field) (v : Option TaggedTb) :
    (s.setLink ptb v).nbTbs = s.nbTbs := rfl

@[simp] theorem setLink_link (ptb : Field) (v : Option TaggedTb) (f : Field) :
    (s.setLink ptb v).link f = if f = ptb then v else s.link f := by
  simp only [setLink, update_apply]

@[simp] theorem tbSetJmpTarget_link (tb : Nat) (n : Fin 2) (addr : JumpDest) :
    (s.tbSetJmpTarget tb n addr).link = s.link := rfl

@[simp] theorem tbSetJmpTarget_nbTbs (tb : Nat) (n : Fin 2) (addr : JumpDest) :
    (s.tbSetJmpTarget tb n addr).nbTbs = s.nbTbs := rfl

@[simp] theorem tbSetJmpTarget_dest (tb : Nat) (n : Fin 2) (addr : JumpDest) (t : Nat)
    (k : Fin 2) : (s.tbSetJmpTarget tb n addr).dest t k = if t = tb ∧ k = n then addr else s.dest t k := by
  by_cases ht : t = tb
  · subst ht
    by_cases hk : k = n <;> simp [tbSetJmpTarget, hk]
  · simp [tbSetJmpTarget, ht]

end JumpLists

def slotPtr (p : Nat × Fin 2) : Option TaggedTb := some ⟨p.1, .jump p.2⟩

def slotField (p : Nat × Fin 2) : Field := .next p.1 p.2

/-- The circular list of `tb` consists of the slots `l`. -/
def ListOf (s : JumpLists) (tb : Nat) (l : List (Nat × Fin 2)) : Prop :=
  Chain slotPtr slotField (some ⟨tb, .target⟩) s.link (.first tb) l

theorem slotField_injective : Function.Injective slotField := by
  rintro ⟨a, n⟩ ⟨b, k⟩ h
  simpa [slotField] using h

theorem slotField_ne_first (p : Nat × Fin 2) (tb : Nat) : slotField p ≠ .first tb := by
  simp [slotField]

/-- The lists `lists t` of the blocks in `targets` hold exactly the slots that are linked, each
of them patched to the block it is listed for; a patched slot in `sources` is linked. -/
structure Consistent (s : JumpLists) (targets : Finset Nat) (sources : Set (Nat × Fin 2))
    (lists : Nat → List (Nat × Fin 2)) : Prop where
  target_lt : ∀ t ∈ targets, t < s.nbTbs
  listOf : ∀ t ∈ targets, ListOf s t (lists t)
  nodup : ∀ t ∈ targets, (lists t).Nodup
  listed : ∀ t ∈ targets, ∀ p ∈ lists t, p.1 < s.nbTbs ∧ s.dest p.1 p.2 = .entry t
  linked : ∀ p : Nat × Fin 2, p.1 < s.nbTbs → s.link (slotField p) ≠ none → ∃ t ∈ targets, p ∈ lists t
  patched : ∀ p ∈ sources, ∀ t, s.dest p.1 p.2 = .entry t → s.link (slotField p) ≠ none

variable {s : JumpLists} {targets : Finset Nat} {sources : Set (Nat × Fin 2)}
  {lists : Nat → List (Nat × Fin 2)}

theorem headValue_slotPtr_ne_none (t : Nat) (l : List (Nat × Fin 2)) :
    headValue slotPtr (some ⟨t, .target⟩) l ≠ none := by
  cases l <;> simp [headValue, slotPtr]

namespace Consistent

section

variable (hc : Consistent s targets sources lists)
include hc

theorem link_ne_none {t : Nat} (ht : t ∈ targets)
    {p : Nat × Fin 2} (hp : p ∈ lists t) : s.link (slotField p) ≠ none := by
  obtain ⟨post, hpost⟩ := (hc.listOf t ht).next_eq hp
  rw [hpost]
  exact headValue_slotPtr_ne_none t post

theorem target_unique {t t' : Nat} (ht : t ∈ targets)
    (ht' : t' ∈ targets) {p : Nat × Fin 2} (hp : p ∈ lists t) (hp' : p ∈ lists t') : t = t' := by
  have hdest := (hc.listed t ht p hp).2
  rw [(hc.listed t' ht' p hp').2] at hdest
  exact (JumpDest.entry.inj hdest).symm

theorem length_lists {t : Nat} (ht : t ∈ targets) :
    (lists t).length ≤ 2 * s.nbTbs := by
  have hsub : (lists t).toFinset ⊆ range s.nbTbs ×ˢ univ := by
    intro p hp
    rw [mem_product, mem_range]
    exact ⟨(hc.listed t ht p (List.mem_toFinset.mp hp)).1, mem_univ _⟩
  have hcard := card_le_card hsub
  rw [List.toFinset_card_of_nodup (hc.nodup t ht), card_product, card_range,
    card_univ, Fintype.card_fin] at hcard
  omega

end

end Consistent

open JumpLists

variable {t : Nat} {p : Nat × Fin 2} {f : Field}

theorem jmpListFrom_of_chain {l : List (Nat × Fin 2)} {fuel : Nat}
    (h : Chain slotPtr slotField (some ⟨t, .target⟩) s.link f l) (hfuel : l.length < fuel) :
    s.jmpListFrom t fuel f = some l := by
  induction l generalizing f fuel with
  | nil =>
    obtain ⟨k, rfl⟩ := Nat.exists_eq_add_of_lt hfuel
    simp [jmpListFrom, show s.link f = _ from h]
  | cons p l ih =>
    obtain ⟨k, rfl⟩ : ∃ k, fuel = k + 1 := ⟨fuel - 1, by simp at hfuel; omega⟩
    have htail : s.jmpListFrom t k (.next p.1 p.2) = some l := ih h.2 (by simpa using hfuel)
    simp [jmpListFrom, show s.link f = _ from h.1, slotPtr, htail]

theorem jmpList_of_consistent (hc : Consistent s targets sources lists) {t : Nat}
    (ht : t ∈ targets) : s.jmpList t = some (lists t) := by
  refine jmpListFrom_of_chain (hc.listOf t ht) ?_
  have := hc.length_lists ht
  simp only [walkBound]
  omega

/-- The search passes the slots before the one it looks for. -/
theorem other_slot {p q : Nat × Fin 2} (h : p ≠ q) : ¬(Tag.jump q.2 = .jump p.2 ∧ q.1 = p.1) := by
  rintro ⟨h2, h1⟩
  exact h (Prod.ext h1.symm (Tag.jump.inj h2).symm)

theorem findInJmpList_append {pre post : List (Nat × Fin 2)}
    {fuel : Nat} (h : Chain slotPtr slotField (some ⟨t, .target⟩) s.link f (pre ++ p :: post)) (hp : p ∉ pre)
    (hfuel : pre.length < fuel) :
    s.findInJmpList p.1 p.2 fuel f = some (lastField slotField f pre) := by
  induction pre generalizing f fuel with
  | nil =>
    obtain ⟨k, rfl⟩ := Nat.exists_eq_add_of_lt hfuel
    simp [findInJmpList, show s.link f = _ from h.1, slotPtr, lastField]
  | cons q pre ih =>
    obtain ⟨k, rfl⟩ : ∃ k, fuel = k + 1 := ⟨fuel - 1, by simp at hfuel; omega⟩
    rw [List.mem_cons, not_or] at hp
    have htail : s.findInJmpList p.1 p.2 k (.next q.1 q.2) =
        some (lastField slotField (.next q.1 q.2) pre) := ih h.2 hp.2 (by simpa using hfuel)
    simp only [findInJmpList, show s.link f = _ from h.1, slotPtr, if_neg (other_slot hp.1), lastField]
    exact htail

/-- The search passes the rest of a list and goes on at the head of the circle. -/
theorem findInJmpList_wrap {post : List (Nat × Fin 2)}
    {fuel : Nat} (h : Chain slotPtr slotField (some ⟨t, .target⟩) s.link f post) (hp : p ∉ post) :
    s.findInJmpList p.1 p.2 (post.length + 1 + fuel) f = s.findInJmpList p.1 p.2 fuel (.first t) := by
  induction post generalizing f with
  | nil =>
    rw [show ([] : List (Nat × Fin 2)).length + 1 + fuel = fuel + 1 by simp; omega]
    simp [findInJmpList, show s.link f = _ from h]
  | cons q post ih =>
    rw [List.mem_cons, not_or] at hp
    rw [show (q :: post).length + 1 + fuel = (post.length + 1 + fuel) + 1 by simp; omega]
    simp only [findInJmpList, show s.link f = _ from h.1, slotPtr, if_neg (other_slot hp.1)]
    exact ih h.2 hp.2

end TcgArm.TbJump
