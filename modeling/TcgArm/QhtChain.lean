import TcgArm.QhtTable

/-! What the loops over one chain of buckets do to its entries. A chain is read as one long row of
entries; the used ones come first, and every operation keeps it that way. -/

namespace TcgArm.Qht

open List List Slot

variable {P : Type} {size : Nat}

def filled (e : P × UInt32) : Slot P := ⟨e.2, some e.1⟩

def flat (chain : Chain P size) : List (Slot P) := chain.flatMap Bucket.slots

/-- The row of entries starts with `es` and has only NULL pointers after it. -/
def Holds (slots : List (Slot P)) (es : List (P × UInt32)) : Prop :=
  ∃ nulls, slots = es.map filled ++ nulls ∧ ∀ s ∈ nulls, s.pointer = none

/-- The chain stores exactly `es`, without holes. -/
def Represents (chain : Chain P size) (es : List (P × UInt32)) : Prop := Holds (flat chain) es

@[simp] theorem filled_pointer (e : P × UInt32) : (filled e).pointer = some e.1 := rfl

@[simp] theorem filled_hash (e : P × UInt32) : (filled e).hash = e.2 := rfl

@[simp] theorem flat_nil : flat ([] : Chain P size) = [] := rfl

@[simp] theorem flat_cons (b : Bucket P size) (next : Chain P size) :
    flat (b :: next) = b.slots ++ flat next := rfl

theorem represents_nil : Represents ([] : Chain P size) [] := ⟨[], rfl, by simp⟩

variable {es : List (P × UInt32)} {b : Bucket P size} {next : Chain P size} {chain : Chain P size}
    {last : P × UInt32}

theorem represents_nil_iff : Represents ([] : Chain P size) es ↔ es = [] := by
  constructor
  · rintro ⟨nulls, hflat, -⟩
    simpa using (append_eq_nil_iff.mp hflat.symm).1
  · rintro rfl
    exact represents_nil

/-- A first bucket is either where the used entries end, or it is full and the rest of the chain
stores the remaining entries. -/
theorem represents_cons_iff :
    Represents (b :: next) es ↔
      (∃ s nulls, b.slots = es.map filled ++ s :: nulls ∧ (∀ t ∈ s :: nulls, t.pointer = none) ∧
        ∀ t ∈ flat next, t.pointer = none) ∨
      ∃ es1 es2, es = es1 ++ es2 ∧ b.slots = es1.map filled ∧ Represents next es2 := by
  constructor
  · rintro ⟨nulls, hflat, hnulls⟩
    rw [flat_cons, append_eq_append_iff] at hflat
    rcases hflat with ⟨tail, hmap, hnext⟩ | ⟨tail, hslots, hnulls'⟩
    · -- the bucket ends inside the used entries
      obtain ⟨es1, es2, hes, h1, h2⟩ := map_eq_append_iff.mp hmap
      exact Or.inr ⟨es1, es2, hes, h1.symm, nulls, by rw [hnext, h2], hnulls⟩
    · cases tail with
      | nil =>
        rw [append_nil] at hslots
        exact Or.inr ⟨es, [], by simp, hslots, nulls, by simpa using hnulls'.symm, hnulls⟩
      | cons s tail =>
        subst hnulls'
        refine Or.inl ⟨s, tail, hslots, fun t ht => hnulls t ?_, fun t ht => hnulls t ?_⟩
        · exact mem_append_left _ ht
        · exact mem_append_right _ ht
  · rintro (⟨s, nulls, hslots, hnulls, hnext⟩ | ⟨es1, es2, rfl, hslots, nulls, hflat, hnulls⟩)
    · refine ⟨s :: nulls ++ flat next, by simp [hslots], fun t ht => ?_⟩
      rcases mem_append.mp ht with h | h
      · exact hnulls t h
      · exact hnext t h
    · exact ⟨nulls, by simp [hslots, hflat], hnulls⟩

theorem iterSlots_append (left right : List (Slot P)) (rest : List (P × UInt32)) :
    iterSlots (left ++ right) rest = iterSlots left (iterSlots right rest) := by
  induction left with
  | nil => rfl
  | cons s left ih =>
    cases hs : s.pointer <;> simp [iterSlots, hs, ih]

theorem bucketIter_eq_iterSlots (chain : Chain P size) : bucketIter chain = iterSlots (flat chain) [] := by
  induction chain with
  | nil => rfl
  | cons b next ih => rw [bucketIter, flat_cons, iterSlots_append, ih]

theorem iterSlots_filled (es rest : List (P × UInt32)) : iterSlots (es.map filled) rest = es ++ rest := by
  induction es with
  | nil => rfl
  | cons e es ih => simp [iterSlots, ih]

theorem bucketIter_of_represents (h : Represents chain es) : bucketIter chain = es := by
  obtain ⟨nulls, hflat, hnulls⟩ := h
  rw [bucketIter_eq_iterSlots, hflat, iterSlots_append, iterSlots_filled]
  cases nulls with
  | nil => simp [iterSlots]
  | cons s nulls =>
    have hs : s.pointer = none := hnulls s mem_cons_self
    simp [iterSlots, hs]

/-- The lookup finds the first stored entry with this hash that satisfies the comparison. -/
theorem doLookup_of_represents (func : P → Bool) (hash : UInt32) (h : Represents chain es) :
    doLookup func hash chain = es.findSome? fun e => if e.2 = hash then (some e.1).filter func else none := by
  obtain ⟨nulls, hflat, hnulls⟩ := h
  have hrow : doLookup func hash chain = (flat chain).findSome? fun s =>
      if s.hash = hash then s.pointer.filter func else none := by
    clear hflat hnulls
    induction chain with
    | nil => rfl
    | cons b next ih =>
      rw [flat_cons, findSome?_append, ← ih, doLookup, findSome?_cons]
      split <;> rename_i hfound <;> rw [hfound] <;> rfl
  rw [hrow, hflat, findSome?_append, findSome?_map]
  have hnone : nulls.findSome? (fun s => if s.hash = hash then s.pointer.filter func else none) = none := by
    rw [findSome?_eq_none_iff]
    intro s hs
    simp [hnulls s hs]
  rw [hnone, Option.or_none]
  rfl

variable {slots : List (Slot P)}

theorem pointer_resetSlots (h : Holds slots es) : ∀ s ∈ resetSlots slots, s.pointer = none := by
  obtain ⟨nulls, rfl, hnulls⟩ := h
  induction es with
  | nil =>
    cases nulls with
    | nil => simp [resetSlots]
    | cons s nulls =>
      have hs : s.pointer = none := hnulls s mem_cons_self
      simpa [resetSlots, hs] using hnulls
  | cons e es ih =>
    intro s hs
    simp only [map_cons, cons_append, resetSlots, filled_pointer, Option.isNone_some,
      Bool.false_eq_true, if_false, mem_cons] at hs
    rcases hs with rfl | hs
    · rfl
    · exact ih s hs

theorem flat_bucketReset_null (h : Represents chain es) :
    ∀ s ∈ flat (bucketReset chain), s.pointer = none := by
  induction chain generalizing es with
  | nil => simp [bucketReset]
  | cons b next ih =>
    rw [represents_cons_iff] at h
    rcases h with ⟨s, nulls, hslots, hnulls, hnext⟩ | ⟨es1, es2, rfl, hslots, hrest⟩
    · have hany : b.slots.any (fun t => t.pointer.isNone) = true := by
        rw [hslots]
        have hs : s.pointer = none := hnulls s mem_cons_self
        simp [hs]
      have hb : ∀ t ∈ resetSlots b.slots, t.pointer = none := pointer_resetSlots ⟨s :: nulls, hslots, hnulls⟩
      intro t ht
      simp only [bucketReset, hany, if_true, flat_cons, mem_append] at ht
      rcases ht with ht | ht
      · exact hb t ht
      · exact hnext t ht
    · have hany : b.slots.any (fun t => t.pointer.isNone) = false := by
        rw [hslots]
        simp
      have hb : ∀ t ∈ resetSlots b.slots, t.pointer = none :=
        pointer_resetSlots ⟨[], by simpa using hslots, by simp⟩
      intro t ht
      simp only [bucketReset, hany, Bool.false_eq_true, if_false, flat_cons, mem_append] at ht
      rcases ht with ht | ht
      · exact hb t ht
      · exact ih hrest t ht

theorem represents_bucketReset (h : Represents chain es) : Represents (bucketReset chain) [] :=
  ⟨flat (bucketReset chain), by simp, flat_bucketReset_null h⟩

theorem represents_empty : Represents ([Bucket.empty] : Chain P size) [] := by
  refine ⟨flat ([Bucket.empty] : Chain P size), rfl, fun s hs => ?_⟩
  rw [flat_cons, flat_nil, append_nil] at hs
  rw [eq_of_mem_replicate hs, empty]

section Insert

variable [DecidableEq P]

theorem probeSlots_of_mem (p : P) (nulls : List (Slot P)) (hp : p ∈ es.map Prod.fst) (i : Nat) :
    probeSlots p (es.map filled ++ nulls) i = .present := by
  induction es generalizing i with
  | nil => simp at hp
  | cons e es ih =>
    by_cases he : e.1 = p
    · simp [probeSlots, he]
    · have hp' : p ∈ es.map Prod.fst := (mem_cons.mp hp).resolve_left fun h => he h.symm
      simpa [probeSlots, he] using ih hp' (i + 1)

theorem probeSlots_of_not_mem (p : P) (nulls : List (Slot P)) (hp : p ∉ es.map Prod.fst) (i : Nat) :
    probeSlots p (es.map filled ++ nulls) i = probeSlots p nulls (i + es.length) := by
  induction es generalizing i with
  | nil => simp
  | cons e es ih =>
    have he : e.1 ≠ p := fun h => hp (by simp [h])
    have hp' : p ∉ es.map Prod.fst := fun h => hp (mem_cons_of_mem _ h)
    have hstep := ih hp' (i + 1)
    simp only [map_cons, cons_append, probeSlots, filled_pointer, he, if_false, length_cons]
    rw [hstep, Nat.add_assoc, Nat.add_comm 1]

/-- An entry whose pointer is already in the chain changes nothing. -/
theorem insertNodes_of_mem (p : P) (hash : UInt32) (h : Represents chain es) (hp : p ∈ es.map Prod.fst) :
    insertNodes p hash chain = (false, chain, false) := by
  induction chain generalizing es with
  | nil =>
    rw [represents_nil_iff] at h
    simp [h] at hp
  | cons b next ih =>
    rw [represents_cons_iff] at h
    rcases h with ⟨s, nulls, hslots, -, -⟩ | ⟨es1, es2, rfl, hslots, hrest⟩
    · rw [insertNodes, hslots, probeSlots_of_mem p _ hp]
    · by_cases hp1 : p ∈ es1.map Prod.fst
      · rw [insertNodes, hslots, ← append_nil (es1.map filled), probeSlots_of_mem p _ hp1]
      · have hp2 : p ∈ es2.map Prod.fst := by
          rw [map_append, mem_append] at hp
          exact hp.resolve_left hp1
        have hfull : probeSlots p b.slots 0 = .full := by
          rw [hslots, ← append_nil (es1.map filled), probeSlots_of_not_mem p _ hp1]
          rfl
        rw [insertNodes, hfull]
        simp only [ih hrest hp2]

/-- A new pointer goes behind the used entries, in a fresh bucket when the chain is full. -/
theorem insertNodes_of_not_mem (hsize : 0 < size) (p : P) (hash : UInt32)
    (h : Represents chain es) (hp : p ∉ es.map Prod.fst) :
    (insertNodes p hash chain).1 = true ∧ Represents (insertNodes p hash chain).2.1 (es ++ [(p, hash)]) := by
  induction chain generalizing es with
  | nil =>
    rw [represents_nil_iff] at h
    subst h
    obtain ⟨n, rfl⟩ : ∃ n, size = n + 1 := ⟨size - 1, by omega⟩
    refine ⟨rfl, replicate n empty, ?_, fun s hs => ?_⟩
    · simp [insertNodes, Bucket.set, Bucket.empty, replicate_succ, filled]
    · rw [eq_of_mem_replicate hs, empty]
  | cons b next ih =>
    rw [represents_cons_iff] at h
    rcases h with ⟨s, nulls, hslots, hnulls, hnext⟩ | ⟨es1, es2, rfl, hslots, hrest⟩
    · have hs : s.pointer = none := hnulls s mem_cons_self
      have hprobe : probeSlots p b.slots 0 = .free es.length := by
        rw [hslots, probeSlots_of_not_mem p _ hp]
        simp [probeSlots, hs]
      have hset : (b.set es.length ⟨hash, some p⟩).slots = (es ++ [(p, hash)]).map filled ++ nulls := by
        simp [Bucket.set, hslots, filled]
      rw [insertNodes, hprobe]
      refine ⟨rfl, nulls ++ flat next, by simp [hset], fun t ht => ?_⟩
      rcases mem_append.mp ht with h | h
      · exact hnulls t (mem_cons_of_mem _ h)
      · exact hnext t h
    · have hp1 : p ∉ es1.map Prod.fst := fun h => hp (by simp_all)
      have hp2 : p ∉ es2.map Prod.fst := fun h => hp (by simp_all)
      have hfull : probeSlots p b.slots 0 = .full := by
        rw [hslots, ← append_nil (es1.map filled), probeSlots_of_not_mem p _ hp1]
        rfl
      obtain ⟨hret, nulls, hflat, hnulls⟩ := ih hrest hp2
      rw [insertNodes, hfull]
      exact ⟨hret, nulls, by simp [hslots, hflat], hnulls⟩

end Insert

theorem Bucket.past_slots (b : Bucket P size) (k i : Nat) : b.slots.length ≤ (k + 1) * size + i ∧
    (k + 1) * size + i - b.slots.length = k * size + i := by
  rw [b.length_slots, Nat.add_mul]
  omega

theorem flat_setSlot {k i : Nat} (hk : k < chain.length) (hi : i < size) (s : Slot P) :
    flat (setSlot chain k i s) = (flat chain).set (k * size + i) s := by
  induction chain generalizing k with
  | nil => simp at hk
  | cons b next ih =>
    cases k with
    | zero =>
      have hlt : i < b.slots.length := by rw [b.length_slots]; exact hi
      rw [setSlot, modify_zero_cons, flat_cons, flat_cons, Nat.zero_mul, Nat.zero_add,
        set_append_left _ _ hlt]
      rfl
    | succ k =>
      obtain ⟨hge, hsub⟩ := b.past_slots k i
      have htail := ih (k := k) (by simpa using hk)
      rw [setSlot] at htail
      rw [setSlot, modify_succ_cons, flat_cons, flat_cons, htail, set_append_right _ _ hge, hsub]

theorem getSlot_eq {k i : Nat} (hk : k < chain.length) (hi : i < size) :
    some (getSlot chain k i) = (flat chain)[k * size + i]? := by
  induction chain generalizing k with
  | nil => simp at hk
  | cons b next ih =>
    cases k with
    | zero =>
      have hlt : i < b.slots.length := by rw [b.length_slots]; exact hi
      rw [flat_cons, Nat.zero_mul, Nat.zero_add, getElem?_append_left hlt]
      simp [getSlot, getElem?_eq_getElem hlt]
    | succ k =>
      obtain ⟨hge, hsub⟩ := b.past_slots k i
      rw [flat_cons, getElem?_append_right hge, hsub, ← ih (by simpa using hk)]
      simp [getSlot]

theorem findIdx?_null {nulls : List (Slot P)} {s : Slot P}
    (hslots : slots = es.map filled ++ s :: nulls) (hs : s.pointer = none) :
    slots.findIdx? (fun t => t.pointer.isNone) = some es.length := by
  subst hslots
  induction es with
  | nil => simp [findIdx?_cons, hs]
  | cons e es ih => simp [findIdx?_cons, ih]

theorem findIdx?_filled (es : List (P × UInt32)) :
    (es.map filled).findIdx? (fun t => t.pointer.isNone) = none := by
  simp [findIdx?_eq_none_iff]

/-- The position found by the loop is that of the last used entry. -/
theorem lastEntry_of_represents (hsize : 0 < size) (h : Represents chain es) (k : Nat) :
    (es = [] → lastEntry chain k = (k - 1, size - 1)) ∧
      (es ≠ [] → ∃ k' j, lastEntry chain k = (k + k', j) ∧ k' < chain.length ∧ j < size ∧
        k' * size + j + 1 = es.length) := by
  induction chain generalizing es k with
  | nil =>
    rw [represents_nil_iff] at h
    exact ⟨fun _ => rfl, fun hne => absurd h hne⟩
  | cons b next ih =>
    rw [represents_cons_iff] at h
    rcases h with ⟨s, nulls, hslots, hnulls, -⟩ | ⟨es1, es2, rfl, hslots, hrest⟩
    · have hidx := findIdx?_null hslots (hnulls s mem_cons_self)
      have hlen : es.length < size := by
        have := b.length_slots
        simp [hslots] at this
        omega
      constructor
      · rintro rfl
        simp only [lastEntry, hidx, length_nil]
      · intro hne
        obtain ⟨i, hi⟩ : ∃ i, es.length = i + 1 := Nat.exists_eq_succ_of_ne_zero (by simpa using hne)
        refine ⟨0, i, ?_, by simp, by omega, by omega⟩
        simp only [lastEntry, hidx, hi, Nat.add_zero]
    · have hidx : b.slots.findIdx? (fun t => t.pointer.isNone) = none := by
        rw [hslots, findIdx?_filled]
      have hlen : es1.length = size := by
        have := b.length_slots
        simpa [hslots] using this
      obtain ⟨hnil, hcons⟩ := ih hrest (k + 1)
      constructor
      · intro hes
        have : es1 = [] := (append_eq_nil_iff.mp hes).1
        simp [this] at hlen
        omega
      · intro _
        by_cases hes2 : es2 = []
        · refine ⟨0, size - 1, ?_, by simp, by omega, ?_⟩
          · simp only [lastEntry, hidx, hnil hes2, Nat.add_sub_cancel, Nat.add_zero]
          · rw [hes2, append_nil, hlen]
            omega
        · obtain ⟨k', j, hlast, hk', hj, hsum⟩ := hcons hes2
          refine ⟨k' + 1, j, ?_, by simpa using hk', hj, ?_⟩
          · simp only [lastEntry, hidx, hlast, Nat.add_assoc, Nat.add_comm 1 k']
          · rw [length_append, ← hsum, hlen, Nat.add_mul]
            omega

/-- The entries left when the entry at `pos` gives its place to the last one. -/
def swapRemove (es : List (P × UInt32)) (pos : Nat) (last : P × UInt32) : List (P × UInt32) :=
  (es.set pos last).dropLast

variable {pos : Nat} {n : Nat}

theorem perm_swapRemove (hpos : pos < es.length) (hlast : es.getLast? = some last) :
    es.Perm (es[pos] :: swapRemove es pos last) := by
  obtain ⟨init, rfl⟩ := List.getLast?_eq_some_iff.mp hlast
  rw [length_append, length_singleton] at hpos
  rcases Nat.lt_or_ge pos init.length with hlt | hge
  · have hset : swapRemove (init ++ [last]) pos last = init.set pos last := by
      rw [swapRemove, set_append_left _ _ hlt, dropLast_concat]
    rw [hset, getElem_append_left hlt]
    calc
      (init ++ [last]).Perm (last :: init) := perm_append_singleton _ _
      _ |>.Perm (last :: init[pos] :: init.eraseIdx pos) := ((getElem_cons_eraseIdx_perm hlt).symm).cons _
      _ |>.Perm (init[pos] :: last :: init.eraseIdx pos) := List.Perm.swap _ _ _
      _ |>.Perm (init[pos] :: init.set pos last) := (set_perm_cons_eraseIdx hlt last).symm.cons _
  · have hpos' : pos = init.length := by omega
    subst hpos'
    have hset : swapRemove (init ++ [last]) init.length last = init := by
      rw [swapRemove, set_append_right _ _ (Nat.le_refl _)]
      simp
    rw [hset]
    simp

theorem holds_swapRemove (last : P × UInt32) (h : Holds slots es)
    (hpos : pos < es.length) (hn : n + 1 = es.length) :
    Holds ((slots.set pos (filled last)).set n Slot.empty) (swapRemove es pos last) := by
  obtain ⟨nulls, rfl, hnulls⟩ := h
  have hmap : ((es.map filled).set pos (filled last)) = (es.set pos last).map filled := by
    rw [map_set]
  obtain ⟨init, x, hinit⟩ : ∃ init x, es.set pos last = init ++ [x] := by
    refine ⟨(es.set pos last).dropLast, (es.set pos last).getLast ?_, ?_⟩
    · intro hnil
      have := congrArg length hnil
      simp at this
      simp [this] at hpos
    · rw [dropLast_append_getLast]
  have hlen : init.length = n := by
    have := congrArg length hinit
    simp at this
    omega
  refine ⟨empty :: nulls, ?_, fun s hs => ?_⟩
  · rw [swapRemove, hinit, dropLast_concat, set_append_left _ _ (by simpa using hpos),
      hmap, hinit, map_append, append_assoc,
      set_append_right _ _ (by simp [hlen])]
    simp [hlen]
  · rcases mem_cons.mp hs with rfl | hs
    · rfl
    · exact hnulls s hs

theorem getElem?_flat_last (h : Represents chain es) (hn : n + 1 = es.length)
    (hlast : es.getLast? = some last) : (flat chain)[n]? = some (filled last) := by
  obtain ⟨nulls, hflat, -⟩ := h
  have hget : es[n]? = some last := by
    rw [← hlast, getLast?_eq_getElem?, ← hn, Nat.add_sub_cancel]
  rw [hflat, getElem?_append_left (by simp; omega), getElem?_map, hget]
  rfl

/-- Whether an entry is the last one is decided by the pointer that follows it. -/
theorem entryIsLast_iff (hsize : 0 < size) (h : Represents (b :: next) es) (hpos : pos < size)
    (hlt : pos < es.length) :
    entryIsLast b next pos = true ↔ pos + 1 = es.length := by
  have hnull : ∀ i, ((flat (b :: next))[i]?.bind pointer).isNone ↔ es.length ≤ i := by
    obtain ⟨nulls, hflat, hnulls⟩ := h
    intro i
    rw [hflat]
    rcases Nat.lt_or_ge i es.length with hi | hi
    · rw [getElem?_append_left (by simpa using hi)]
      simp [hi]
    · rw [getElem?_append_right (by simpa using hi)]
      simp only [hi, iff_true]
      cases hget : nulls[i - (es.map filled).length]? with
      | none => rfl
      | some s => simp [hnulls s (mem_of_getElem? hget)]
  have hb := b.length_slots
  unfold entryIsLast
  split
  · rename_i hend
    have hnext := hnull size
    rw [flat_cons, getElem?_append_right (by omega), hb, Nat.sub_self] at hnext
    cases next with
    | nil =>
      have hle : es.length ≤ size := by simpa using hnext
      simp
      omega
    | cons b' next' =>
      have hb' : 0 < b'.slots.length := by rw [b'.length_slots]; exact hsize
      rw [flat_cons, getElem?_append_left hb'] at hnext
      change (b'.slots[0]?.bind pointer).isNone = true ↔ _
      rw [hnext]
      omega
  · rename_i hend
    have hnext := hnull (pos + 1)
    rw [flat_cons, getElem?_append_left (by omega)] at hnext
    change (b.slots[pos + 1]?.bind pointer).isNone = true ↔ _
    rw [hnext]
    omega

/-- Removing the entry at `pos` of the first bucket moves the last entry of the chain there. -/
theorem represents_bucketRemoveEntry (hsize : 0 < size) (h : Represents (b :: next) es)
    (hpos : pos < size) (hlt : pos < es.length) (hlast : es.getLast? = some last) :
    Represents (bucketRemoveEntry (b :: next) pos) (swapRemove es pos last) := by
  have hne : es ≠ [] := by
    rintro rfl
    simp at hlt
  rw [bucketRemoveEntry]
  split
  · rename_i hend
    have hn := (entryIsLast_iff hsize h hpos hlt).mp hend
    have hflat : flat (b.set pos empty :: next) =
        ((flat (b :: next)).set pos (filled last)).set pos empty := by
      rw [set_set, flat_cons, flat_cons, set_append_left _ _ (by rw [b.length_slots]; exact hpos)]
      rfl
    rw [Represents, hflat]
    exact holds_swapRemove last h hlt hn
  · obtain ⟨k, j, hentry, hk, hj, hsum⟩ := (lastEntry_of_represents hsize h 0).2 hne
    rw [hentry, Nat.zero_add]
    have hget : getSlot (b :: next) k j = filled last := by
      have := getSlot_eq hk hj
      rw [getElem?_flat_last h hsum hlast] at this
      exact Option.some.inj this
    have hk' : k < (setSlot (b :: next) 0 pos (filled last)).length := by
      simpa [setSlot] using hk
    rw [Represents, entryMove, hget, flat_setSlot hk' hj, flat_setSlot (by simp) hpos,
      Nat.zero_mul, Nat.zero_add]
    exact holds_swapRemove last h hlt hsum

section Remove

variable [DecidableEq P]

theorem searchSlots_of_not_mem (p : P) (nulls : List (Slot P)) (hp : p ∉ es.map Prod.fst) (i : Nat) :
    searchSlots p (es.map filled ++ nulls) i = searchSlots p nulls (i + es.length) := by
  induction es generalizing i with
  | nil => simp
  | cons e es ih =>
    have he : e.1 ≠ p := fun h => hp (by simp [h])
    have hp' : p ∉ es.map Prod.fst := fun h => hp (mem_cons_of_mem _ h)
    have hstep := ih hp' (i + 1)
    simp only [map_cons, cons_append, searchSlots, filled_pointer, he, if_false, length_cons]
    rw [hstep, Nat.add_assoc, Nat.add_comm 1]

theorem searchSlots_filled (p : P) (hp : p ∉ es.map Prod.fst) : searchSlots p (es.map filled) 0 = .absent := by
  rw [← append_nil (es.map filled), searchSlots_of_not_mem p _ hp]
  rfl

theorem searchSlots_of_mem (p : P) (nulls : List (Slot P)) (hp : p ∈ es.map Prod.fst) (i : Nat) :
    ∃ j hash, searchSlots p (es.map filled ++ nulls) i = .found (i + j) ∧ es[j]? = some (p, hash) := by
  induction es generalizing i with
  | nil => simp at hp
  | cons e es ih =>
    by_cases he : e.1 = p
    · exact ⟨0, e.2, by simp [searchSlots, he], by simp [← he]⟩
    · have hp' : p ∈ es.map Prod.fst := (mem_cons.mp hp).resolve_left fun h => he h.symm
      obtain ⟨j, hash, hfound, hget⟩ := ih hp' (i + 1)
      refine ⟨j + 1, hash, ?_, by simpa using hget⟩
      rw [Nat.add_assoc, Nat.add_comm 1] at hfound
      simpa [searchSlots, he] using hfound

theorem removeNodes_of_not_mem (p : P) (h : Represents chain es) (hp : p ∉ es.map Prod.fst) :
    removeNodes p chain = (false, chain) := by
  induction chain generalizing es with
  | nil => rfl
  | cons b next ih =>
    rw [represents_cons_iff] at h
    rcases h with ⟨s, nulls, hslots, hnulls, -⟩ | ⟨es1, es2, rfl, hslots, hrest⟩
    · have hs : s.pointer = none := hnulls s mem_cons_self
      rw [removeNodes, hslots, searchSlots_of_not_mem p _ hp]
      simp [searchSlots, hs]
    · have hp1 : p ∉ es1.map Prod.fst := fun h => hp (by simp_all)
      have hp2 : p ∉ es2.map Prod.fst := fun h => hp (by simp_all)
      rw [removeNodes, hslots, searchSlots_filled p hp1]
      simp only [ih hrest hp2]

/-- Removing a stored pointer takes out one entry with it and keeps all others. -/
theorem removeNodes_of_mem (hsize : 0 < size) (p : P) (h : Represents chain es) (hp : p ∈ es.map Prod.fst) :
    (removeNodes p chain).1 = true ∧
      ∃ hash es', Represents (removeNodes p chain).2 es' ∧ es.Perm ((p, hash) :: es') := by
  induction chain generalizing es with
  | nil =>
    rw [represents_nil_iff] at h
    simp [h] at hp
  | cons b next ih =>
    have hwhole := h
    rw [represents_cons_iff] at h
    -- the bucket in which the pointer is found removes it from the chain behind it
    have hfound : ∀ j hash, searchSlots p b.slots 0 = .found j → es[j]? = some (p, hash) →
        j < size → (removeNodes p (b :: next)).1 = true ∧ ∃ hash es',
          Represents (removeNodes p (b :: next)).2 es' ∧ es.Perm ((p, hash) :: es') := by
      intro j hash hsearch hget hj
      obtain ⟨hlt, hentry⟩ := List.getElem?_eq_some_iff.mp hget
      obtain ⟨last, hlast⟩ : ∃ last, es.getLast? = some last :=
        ⟨_, getLast?_eq_some_getLast (ne_nil_of_length_pos (by omega))⟩
      rw [removeNodes, hsearch]
      refine ⟨rfl, hash, swapRemove es j last, represents_bucketRemoveEntry hsize hwhole hj hlt hlast, ?_⟩
      rw [← hentry]
      exact perm_swapRemove hlt hlast
    rcases h with ⟨s, nulls, hslots, hnulls, -⟩ | ⟨es1, es2, rfl, hslots, hrest⟩
    · obtain ⟨j, hash, hsearch, hget⟩ := searchSlots_of_mem p (s :: nulls) hp 0
      rw [← hslots, Nat.zero_add] at hsearch
      have hlt := (List.getElem?_eq_some_iff.mp hget).1
      refine hfound j hash hsearch hget ?_
      have := b.length_slots
      simp [hslots] at this
      omega
    · have hlen : es1.length = size := by simpa [hslots] using b.length_slots
      by_cases hp1 : p ∈ es1.map Prod.fst
      · obtain ⟨j, hash, hsearch, hget⟩ := searchSlots_of_mem p [] hp1 0
        rw [append_nil, ← hslots, Nat.zero_add] at hsearch
        have hlt := (List.getElem?_eq_some_iff.mp hget).1
        refine hfound j hash hsearch ?_ (by omega)
        rw [getElem?_append_left hlt, hget]
      · have hp2 : p ∈ es2.map Prod.fst := by
          rw [map_append, mem_append] at hp
          exact hp.resolve_left hp1
        obtain ⟨hret, hash, es', ⟨nulls, hflat, hnulls⟩, hperm⟩ := ih hrest hp2
        rw [removeNodes, hslots, searchSlots_filled p hp1]
        refine ⟨hret, hash, es1 ++ es', ⟨nulls, by simp [hslots, hflat], hnulls⟩, ?_⟩
        exact (hperm.append_left es1).trans perm_middle

end Remove

end TcgArm.Qht
