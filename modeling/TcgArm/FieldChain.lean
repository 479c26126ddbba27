import Mathlib.Tactic

/-! Intrusive singly linked lists. The pointer fields live in a store `m`; a list starts at some
field, every node `b` is stored as the pointer `enc b` and continues in its own field `next b`, and
the last field holds `stop`. Nodes can be threaded through several kinds of fields, so head and
links are treated alike. -/

namespace FieldChain

open List Function

variable {F V ν : Type} (enc : ν → V) (next : ν → F) (stop : V)

/-- The fields from `f` on spell out the nodes of the list, in order. -/
def Chain (m : F → V) : F → List ν → Prop
  | f, [] => m f = stop
  | f, b :: l => m f = enc b ∧ Chain m (next b) l

/-- The field that holds the pointer following the nodes `pre` of a list that starts at `f`. -/
def lastField : F → List ν → F
  | f, [] => f
  | _, b :: pre => lastField (next b) pre

variable {enc next stop} {m m' : F → V} {f : F} {b : ν} {l : List ν}

def headValue (enc : ν → V) (stop : V) : List ν → V
  | [] => stop
  | b :: _ => enc b

theorem Chain.head (h : Chain enc next stop m f l) : m f = headValue enc stop l := by
  cases l with
  | nil => exact h
  | cons b l => exact h.1

theorem Chain.frame (h : Chain enc next stop m f l) (hf : m' f = m f)
    (hl : ∀ c ∈ l, m' (next c) = m (next c)) : Chain enc next stop m' f l := by
  induction l generalizing f with
  | nil => exact hf.trans h
  | cons b l ih =>
    refine ⟨hf.trans h.1, ih h.2 (hl b mem_cons_self) fun c hc => ?_⟩
    exact hl c (mem_cons_of_mem _ hc)

theorem Chain.move {g : F} (h : Chain enc next stop m f l) (hg : m' g = m f)
    (hl : ∀ c ∈ l, m' (next c) = m (next c)) : Chain enc next stop m' g l := by
  cases l with
  | nil => exact hg.trans h
  | cons b l =>
    refine ⟨hg.trans h.1, h.2.frame (hl b mem_cons_self) fun c hc => ?_⟩
    exact hl c (mem_cons_of_mem _ hc)

theorem Chain.push (h : Chain enc next stop m f l) (hf : m' f = enc b) (hb : m' (next b) = m f)
    (hl : ∀ c ∈ l, m' (next c) = m (next c)) : Chain enc next stop m' f (b :: l) :=
  ⟨hf, h.move hb hl⟩

theorem Chain.suffix {pre post : List ν}
    (h : Chain enc next stop m f (pre ++ b :: post)) : Chain enc next stop m (next b) post := by
  induction pre generalizing f with
  | nil => exact h.2
  | cons c pre ih => exact ih h.2

theorem Chain.next_eq (h : Chain enc next stop m f l) (hb : b ∈ l) :
    ∃ post, m (next b) = headValue enc stop post := by
  obtain ⟨pre, post, rfl⟩ := append_of_mem hb
  exact ⟨post, h.suffix.head⟩

theorem lastField_eq_or (f : F) (pre : List ν) :
    lastField next f pre = f ∨ ∃ c ∈ pre, lastField next f pre = next c := by
  induction pre generalizing f with
  | nil => exact Or.inl rfl
  | cons c pre ih =>
    right
    rcases ih (next c) with h | ⟨d, hd, h⟩
    · exact ⟨c, mem_cons_self, h⟩
    · exact ⟨d, mem_cons_of_mem _ hd, h⟩

/-- Fields of nodes outside `pre` are not the one behind `pre`. -/
theorem next_ne_lastField {pre : List ν} (hinj : Function.Injective next)
    (hfresh : ∀ c, next c ≠ f) (hb : b ∉ pre) : next b ≠ lastField next f pre := by
  intro he
  rcases lastField_eq_or f pre with h | ⟨c, hc, h⟩
  · exact hfresh b (he.trans h)
  · exact hb (hinj (he.trans h) ▸ hc)

section Unlink

variable [DecidableEq F] {pre post : List ν}

/-- Taking a node out of a list without repetition: the field before it takes the node's own
pointer. -/
theorem Chain.unlink (h : Chain enc next stop m f (pre ++ b :: post))
    (hnodup : ((pre ++ b :: post).map next).Nodup) (hfresh : ∀ c ∈ pre ++ b :: post, next c ≠ f) :
    Chain enc next stop (update m (lastField next f pre) (m (next b))) f (pre ++ post) := by
  induction pre generalizing f with
  | nil =>
    refine h.2.move (update_self ..) fun c hc => ?_
    exact update_of_ne (hfresh c (mem_cons_of_mem _ hc)) ..
  | cons c pre ih =>
    simp only [cons_append, map_cons, nodup_cons] at hnodup
    have hne : f ≠ lastField next (next c) pre := by
      rcases lastField_eq_or (next c) pre with he | ⟨d, hd, he⟩
      · rw [he]
        exact (hfresh c mem_cons_self).symm
      · rw [he]
        exact (hfresh d (mem_cons_of_mem _ (mem_append_left _ hd))).symm
    refine ⟨(update_of_ne hne ..).trans h.1, ih h.2 hnodup.2 fun d hd hdc => ?_⟩
    exact hnodup.1 (hdc ▸ mem_map_of_mem hd)

theorem Chain.frame_update {g : F} {v : V} (h : Chain enc next stop m f l) (hf : f ≠ g)
    (hl : ∀ c ∈ l, next c ≠ g) : Chain enc next stop (update m g v) f l :=
  h.frame (update_of_ne hf ..) fun c hc => update_of_ne (hl c hc) ..

end Unlink

end FieldChain
