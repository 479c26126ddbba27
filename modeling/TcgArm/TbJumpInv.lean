import TcgArm.TbJumpList

/-! The chaining operations keep the jump lists consistent: every list of a live block names the
live slots patched to it, once each, and an invalidated block is left by every list and every
native jump of a live block. -/

namespace TcgArm.TbJump

open FieldChain Transition Function List JumpLists

variable {s : JumpLists} {targets live : Finset Nat} {sources : Set (Nat × Fin 2)}
  {lists : Nat → List (Nat × Fin 2)}

variable {p : Nat × Fin 2} {t : Nat} {s' : JumpLists}

/-- What the search of `tb_remove_from_jmp_list` finds for a listed slot. -/
theorem findInJmpList_of_consistent (hc : Consistent s targets sources lists) (ht : t ∈ targets)
    {pre post : List (Nat × Fin 2)} (hsplit : lists t = pre ++ p :: post) :
    s.findInJmpList p.1 p.2 s.walkBound (slotField p) = some (lastField slotField (.first t) pre) := by
  have hlist := hc.listOf t ht
  have hnodup := hc.nodup t ht
  have hlen := hc.length_lists ht
  unfold ListOf at hlist
  rw [hsplit] at hlist hnodup hlen
  rw [length_append, length_cons] at hlen
  have hpre : p ∉ pre := fun h => by
    rw [nodup_append] at hnodup
    exact hnodup.2.2 p h p mem_cons_self rfl
  have hpost : p ∉ post := by
    rw [nodup_append, nodup_cons] at hnodup
    exact hnodup.2.1.1
  obtain ⟨k, hk⟩ : ∃ k, s.walkBound = post.length + 1 + k :=
    ⟨s.walkBound - (post.length + 1), by simp only [walkBound]; omega⟩
  rw [hk, findInJmpList_wrap hlist.suffix hpost]
  refine findInJmpList_append hlist hpre ?_
  simp only [walkBound] at hk
  omega

/-- The state `tb_remove_from_jmp_list` leaves when the field before the slot is `ptb`. -/
def cutSlot (s : JumpLists) (ptb : Field) (p : Nat × Fin 2) : JumpLists :=
  (s.setLink ptb (s.link (slotField p))).setLink (slotField p) none

theorem cutSlot_link (ptb : Field) (p : Nat × Fin 2) (f : Field) :
    (cutSlot s ptb p).link f =
      if f = slotField p then none else if f = ptb then s.link (slotField p) else s.link f := by
  simp [cutSlot]

section CutSlot

variable {t : Nat} {p : Nat × Fin 2} {pre post : List (Nat × Fin 2)} {t' : Nat}

theorem slotField_ne_lastField {q : Nat × Fin 2} (hq : q ∉ pre) :
    slotField q ≠ lastField slotField (.first t) pre :=
  next_ne_lastField slotField_injective (fun c => slotField_ne_first c t) hq

theorem first_ne_lastField (ht : t' ≠ t) :
    Field.first t' ≠ lastField slotField (.first t) pre := by
  intro he
  rcases lastField_eq_or (Field.first t) pre with h | ⟨c, _, h⟩
  · exact ht (Field.first.inj (he.trans h))
  · exact slotField_ne_first c t' (he.trans h).symm

theorem listOf_cutSlot (hlist : ListOf s t (pre ++ p :: post)) (hnodup : (pre ++ p :: post).Nodup) :
    ListOf (cutSlot s (lastField slotField (.first t) pre) p) t (pre ++ post) := by
  have hp : p ∉ pre ++ post := (nodup_cons.mp (nodup_middle.mp hnodup)).1
  refine (hlist.unlink (hnodup.map slotField_injective) fun c _ =>
    slotField_ne_first c t).frame_update (slotField_ne_first p t).symm fun c hc he => ?_
  exact hp (slotField_injective he ▸ hc)

theorem listOf_cutSlot_of_ne {l : List (Nat × Fin 2)} (hlist : ListOf s t' l)
    (ht : t' ≠ t) (hl : ∀ c ∈ l, c ∉ pre ∧ c ≠ p) :
    ListOf (cutSlot s (lastField slotField (.first t) pre) p) t' l := by
  have hlink := hlist.frame_update (v := s.link (slotField p)) (first_ne_lastField ht)
    fun c hc => slotField_ne_lastField (hl c hc).1
  refine hlink.frame_update (slotField_ne_first p t').symm fun c hc he => ?_
  exact (hl c hc).2 (slotField_injective he)

theorem cutSlot_link_eq_none (hc : Consistent s targets sources lists) (ht : t ∈ targets)
    (hsplit : lists t = pre ++ p :: post) {q : Nat × Fin 2} (hq : q ≠ p) :
    (cutSlot s (lastField slotField (.first t) pre) p).link (slotField q) = none ↔
      s.link (slotField q) = none := by
  have hp : p ∈ lists t := hsplit ▸ mem_append_right _ mem_cons_self
  rw [cutSlot_link, if_neg (fun he => hq (slotField_injective he))]
  split
  · rename_i he
    have hqpre : q ∈ pre := by
      by_contra h
      exact slotField_ne_lastField h he
    have hql : q ∈ lists t := hsplit ▸ mem_append_left _ hqpre
    simp only [hc.link_ne_none ht hp, hc.link_ne_none ht hql]
  · rfl

/-- Cutting a slot out of its list keeps the lists consistent; the slot may now be patched
without being linked. -/
theorem consistent_cutSlot (hc : Consistent s targets sources lists) (ht : t ∈ targets)
    (hsplit : lists t = pre ++ p :: post) :
    Consistent (cutSlot s (lastField slotField (.first t) pre) p) targets (sources \ {p})
      (update lists t (pre ++ post)) := by
  have hsub : ∀ q ∈ pre ++ post, q ∈ lists t := by
    rw [hsplit]
    exact (List.Sublist.append_left (sublist_cons_self p post) pre).subset
  constructor
  case target_lt => exact hc.target_lt
  case listOf =>
    intro t' ht'
    rcases eq_or_ne t' t with rfl | hne
    · rw [update_self]
      exact listOf_cutSlot (hsplit ▸ hc.listOf t' ht') (hsplit ▸ hc.nodup t' ht')
    · rw [update_of_ne hne]
      refine listOf_cutSlot_of_ne (hc.listOf t' ht') hne fun c hcl => ?_
      have hnot : c ∉ pre ++ p :: post := fun h => hne (hc.target_unique ht' ht hcl (hsplit ▸ h))
      rw [mem_append, mem_cons, not_or, not_or] at hnot
      exact ⟨hnot.1, hnot.2.1⟩
  case nodup =>
    intro t' ht'
    rcases eq_or_ne t' t with rfl | hne
    · rw [update_self]
      exact (nodup_cons.mp (nodup_middle.mp (hsplit ▸ hc.nodup t' ht'))).2
    · rw [update_of_ne hne]
      exact hc.nodup t' ht'
  case listed =>
    intro t' ht' q hq
    rcases eq_or_ne t' t with rfl | hne
    · rw [update_self] at hq
      exact hc.listed t' ht' q (hsub q hq)
    · rw [update_of_ne hne] at hq
      exact hc.listed t' ht' q hq
  case linked =>
    intro q hq hlink
    have hqp : q ≠ p := by
      rintro rfl
      exact hlink (by rw [cutSlot_link, if_pos rfl])
    rw [ne_eq, cutSlot_link_eq_none hc ht hsplit hqp] at hlink
    obtain ⟨t', ht', hmem⟩ := hc.linked q hq hlink
    refine ⟨t', ht', ?_⟩
    rcases eq_or_ne t' t with rfl | hne
    · rw [update_self]
      rw [hsplit, mem_append, mem_cons] at hmem
      rw [mem_append]
      exact hmem.imp_right fun h => h.resolve_left hqp
    · rwa [update_of_ne hne]
  case patched =>
    intro q hq t' hdest
    rw [ne_eq, cutSlot_link_eq_none hc ht hsplit hq.2]
    exact hc.patched q hq.1 t' hdest

end CutSlot

/-- `tb_remove_from_jmp_list` takes the slot out of the list it is on, if it is on one. -/
theorem tbRemoveFromJmpList_spec (hc : Consistent s targets sources lists) (p : Nat × Fin 2)
    (hp : p.1 < s.nbTbs) :
    ∃ s' lists', s.tbRemoveFromJmpList p.1 p.2 = some s' ∧
      Consistent s' targets (sources \ {p}) lists' ∧ s'.nbTbs = s.nbTbs ∧
      s'.link (slotField p) = none ∧
      ∀ q, s.link (slotField q) = none → s'.link (slotField q) = none := by
  by_cases hlink : s.link (slotField p) = none
  · refine ⟨s, lists, ?_, ?_, rfl, hlink, fun q hq => hq⟩
    · rw [tbRemoveFromJmpList, show s.link (.next p.1 p.2) = none from hlink]
      rfl
    · exact { hc with patched := fun q hq => hc.patched q hq.1 }
  · obtain ⟨t, ht, hmem⟩ := hc.linked p hp hlink
    obtain ⟨pre, post, hsplit⟩ := append_of_mem hmem
    refine ⟨_, _, ?_, consistent_cutSlot hc ht hsplit, rfl, ?_, fun q hq => ?_⟩
    · have hfind := findInJmpList_of_consistent hc ht hsplit
      have hsome : (s.link (.next p.1 p.2)).isSome = true := Option.isSome_iff_ne_none.mpr hlink
      simp only [slotField] at hfind
      simp only [tbRemoveFromJmpList, hsome, if_true, hfind]
      rfl
    · rw [cutSlot_link, if_pos rfl]
    · rcases eq_or_ne q p with rfl | hne
      · exact absurd hq hlink
      · exact (cutSlot_link_eq_none hc ht hsplit hne).mpr hq

theorem consistent_tbResetJump (hc : Consistent s targets sources lists) (hp : s.link (slotField p) = none) :
    Consistent (s.tbResetJump p.1 p.2) targets (insert p sources) lists where
  target_lt := hc.target_lt
  listOf := hc.listOf
  nodup := hc.nodup
  listed t ht q hq := by
    have hqp : ¬(q.1 = p.1 ∧ q.2 = p.2) := fun h => hc.link_ne_none ht hq (Prod.ext h.1 h.2 ▸ hp)
    rw [tbResetJump, tbSetJmpTarget_dest, if_neg hqp]
    exact hc.listed t ht q hq
  linked := hc.linked
  patched q hq t hdest := by
    rw [tbResetJump, tbSetJmpTarget_dest] at hdest
    split at hdest
    · exact absurd hdest (by simp)
    · rename_i hqp
      rcases hq with rfl | hq
      · exact absurd ⟨rfl, rfl⟩ hqp
      · exact hc.patched q hq t hdest

def slotsOf (live : Finset Nat) : Set (Nat × Fin 2) := {p | p.1 ∈ live}

/-- `tb_jmp_unlink` empties the list of a block and resets the slots that were on it. -/
theorem tbJmpUnlink_spec (ht : t ∈ targets) {l : List (Nat × Fin 2)} {fuel : Nat}
    (hfuel : l.length < fuel) (hc : Consistent s targets sources lists) (hl : lists t = l) :
    ∃ s' lists', JumpLists.tbJmpUnlink t fuel s = some s' ∧
      Consistent s' targets sources lists' ∧ lists' t = [] ∧ s'.nbTbs = s.nbTbs ∧
      ∀ q, s.link (slotField q) = none → s'.link (slotField q) = none := by
  induction l generalizing s lists fuel with
  | nil =>
    obtain ⟨k, rfl⟩ := Nat.exists_eq_add_of_lt hfuel
    refine ⟨s, lists, ?_, hc, hl, rfl, fun q hq => hq⟩
    have hfirst : s.link (.first t) = some ⟨t, .target⟩ := (hl ▸ hc.listOf t ht).head
    simp [tbJmpUnlink, hfirst]
  | cons p l ih =>
    obtain ⟨k, rfl⟩ : ∃ k, fuel = k + 1 := ⟨fuel - 1, by simp at hfuel; omega⟩
    have hfirst : s.link (.first t) = slotPtr p := (hl ▸ hc.listOf t ht).head
    -- one iteration is a cut at the head of the list followed by the reset of the slot
    have hsplit : lists t = [] ++ p :: l := hl
    have hcut := consistent_cutSlot hc ht hsplit
    have hreset := consistent_tbResetJump hcut (p := p) (by rw [cutSlot_link, if_pos rfl])
    have hsources : Consistent ((cutSlot s (.first t) p).tbResetJump p.1 p.2) targets sources
        (update lists t l) :=
      { hreset with
        patched := fun q hq => hreset.patched q (by
          rcases eq_or_ne q p with rfl | hne
          · exact Set.mem_insert _ _
          · exact Set.mem_insert_of_mem _ ⟨hq, hne⟩) }
    obtain ⟨s', lists', hrun, hc', hnil, hnb, hnone⟩ := ih (by simpa using hfuel) hsources (update_self ..)
    refine ⟨s', lists', ?_, hc', hnil, hnb, fun q hq => hnone q ?_⟩
    · rw [tbJmpUnlink, hfirst]
      exact hrun
    · rcases eq_or_ne q p with rfl | hne
      · exact (cutSlot_link ..).trans (if_pos rfl)
      · exact (cutSlot_link_eq_none hc ht hsplit hne).mpr hq

/-- The blocks in `live` are both the targets and the sources the lists account for. -/
def Sound (s : JumpLists) (live : Finset Nat) (lists : Nat → List (Nat × Fin 2)) : Prop :=
  Consistent s live (slotsOf live) lists

theorem consistent_erase_target (hc : Consistent s targets sources lists) (hl : lists t = []) :
    Consistent s (targets.erase t) sources lists where
  target_lt t' ht' := hc.target_lt t' (Finset.mem_of_mem_erase ht')
  listOf t' ht' := hc.listOf t' (Finset.mem_of_mem_erase ht')
  nodup t' ht' := hc.nodup t' (Finset.mem_of_mem_erase ht')
  listed t' ht' := hc.listed t' (Finset.mem_of_mem_erase ht')
  linked q hq hlink := by
    obtain ⟨t', ht', hmem⟩ := hc.linked q hq hlink
    refine ⟨t', Finset.mem_erase.mpr ⟨?_, ht'⟩, hmem⟩
    rintro rfl
    simp [hl] at hmem
  patched := hc.patched

theorem tbRemoveFromJmpList_dest {n : Fin 2} (h : s.tbRemoveFromJmpList t n = some s') :
    s'.dest = s.dest := by
  unfold tbRemoveFromJmpList at h
  split at h
  · obtain ⟨ptb, -, heq⟩ := Option.bind_eq_some_iff.mp h
    cases heq
    rfl
  · cases h
    rfl

theorem tbJmpUnlink_dest {t fuel : Nat} (h : JumpLists.tbJmpUnlink t fuel s = some s') (u : Nat) (n : Fin 2) :
    s'.dest u n = s.dest u n ∨ s'.dest u n = .reset := by
  induction fuel generalizing s with
  | zero => cases h
  | succ fuel ih =>
    unfold tbJmpUnlink at h
    split at h
    · cases h
    · cases h
      exact Or.inl rfl
    · rename_i tb1 n1 _
      have hdest := ih h
      simp only [tbResetJump, setLink_dest, tbSetJmpTarget_dest] at hdest
      split at hdest
      · exact Or.inr (hdest.elim id id)
      · exact hdest

theorem invalidate_dest (h : s.invalidate t = some s') (u : Nat) (n : Fin 2) :
    s'.dest u n = s.dest u n ∨ s'.dest u n = .reset := by
  obtain ⟨s1, hrun1, h⟩ := Option.bind_eq_some_iff.mp h
  obtain ⟨s2, hrun2, hrun3⟩ := Option.bind_eq_some_iff.mp h
  have hdest := tbJmpUnlink_dest hrun3 u n
  rwa [tbRemoveFromJmpList_dest hrun2, tbRemoveFromJmpList_dest hrun1] at hdest

/-- Invalidating a live block always ends, and the block is on no list afterwards. -/
theorem invalidate_spec (hc : Sound s live lists) (ht : t ∈ live) :
    ∃ s' lists', s.invalidate t = some s' ∧ Sound s' (live.erase t) lists' ∧
      s'.nbTbs = s.nbTbs ∧ s'.link (.first t) = some ⟨t, .target⟩ ∧
      ∀ n, s'.link (.next t n) = none := by
  have hlt := hc.target_lt t ht
  obtain ⟨s1, lists1, hrun1, hc1, hnb1, hnone1, -⟩ := tbRemoveFromJmpList_spec hc (t, 0) hlt
  obtain ⟨s2, lists2, hrun2, hc2, hnb2, hnone2, hkeep2⟩ := tbRemoveFromJmpList_spec hc1 (t, 1) (hnb1 ▸ hlt)
  have hfuel : (lists2 t).length < s2.walkBound := by
    have := hc2.length_lists ht
    simp only [walkBound]
    omega
  obtain ⟨s3, lists3, hrun3, hc3, hnil, hnb3, hkeep3⟩ := tbJmpUnlink_spec ht hfuel hc2 rfl
  refine ⟨s3, lists3, ?_, ?_, hnb3.trans (hnb2.trans hnb1), (hnil ▸ hc3.listOf t ht).head, Fin.forall_fin_two.mpr ⟨?_, ?_⟩⟩
  · simp only [invalidate, hrun1, hrun2, hrun3, Option.bind_eq_bind, Option.bind_some]
  · have herase := consistent_erase_target hc3 hnil
    refine { herase with patched := fun q hq => herase.patched q ?_ }
    rw [slotsOf, Set.mem_ofPred_eq, Finset.mem_erase] at hq
    refine ⟨⟨hq.2, ?_⟩, ?_⟩ <;> rintro rfl <;> exact hq.1 rfl
  · exact hkeep3 (t, 0) (hkeep2 (t, 0) hnone1)
  · exact hkeep3 (t, 1) hnone2

theorem sound_flush (s : JumpLists) (lists : Nat → List (Nat × Fin 2)) :
    Sound s.flush ∅ lists where
  target_lt t ht := by simp at ht
  listOf t ht := by simp at ht
  nodup t ht := by simp at ht
  listed t ht := by simp at ht
  linked p hp := by simp [flush] at hp
  patched p hp := by simp [slotsOf] at hp

section

variable (hasGoto : Fin 2 → Bool)

@[simp] theorem genCode_link_next_self (n : Fin 2) :
    (s.genCode hasGoto).link (.next s.nbTbs n) = none := by
  match n with
  | 0 => simp [genCode, initJmpList]
  | 1 => simp [genCode, initJmpList]

theorem genCode_link_next_of_ne (ht : t ≠ s.nbTbs) (n : Fin 2) :
    (s.genCode hasGoto).link (.next t n) = s.link (.next t n) := by
  simp [genCode, initJmpList, tbAlloc, ht]

theorem genCode_link_first (t : Nat) :
    (s.genCode hasGoto).link (.first t) = if t = s.nbTbs then some ⟨t, .target⟩ else s.link (.first t) := by
  by_cases ht : t = s.nbTbs <;> simp [genCode, initJmpList, tbAlloc, ht]

theorem genCode_dest_self (n : Fin 2) (t : Nat) :
    (s.genCode hasGoto).dest s.nbTbs n ≠ .entry t := by
  simp only [genCode, initJmpList, update_self]
  split <;> simp

theorem genCode_dest_of_ne (ht : t ≠ s.nbTbs) :
    (s.genCode hasGoto).dest t = s.dest t := by
  simp [genCode, initJmpList, tbAlloc, ht]

end

/-- A fresh block has an empty list and unlinked slots. -/
theorem sound_genCode (hc : Sound s live lists) (hasGoto : Fin 2 → Bool) :
    Sound (s.genCode hasGoto) (insert s.nbTbs live) (update lists s.nbTbs []) := by
  have hold : ∀ t ∈ live, t ≠ s.nbTbs := fun t ht => (hc.target_lt t ht).ne
  constructor
  case target_lt =>
    intro t ht
    change t < s.nbTbs + 1
    rcases Finset.mem_insert.mp ht with rfl | ht
    · exact Nat.lt_succ_self _
    · exact Nat.lt_succ_of_lt (hc.target_lt t ht)
  case listOf =>
    intro t ht
    rcases Finset.mem_insert.mp ht with rfl | ht
    · rw [update_self]
      exact (genCode_link_first ..).trans (if_pos rfl)
    · rw [update_of_ne (hold t ht)]
      refine (hc.listOf t ht).frame ?_ fun c hcl => ?_
      · rw [genCode_link_first, if_neg (hold t ht)]
      · exact genCode_link_next_of_ne hasGoto (hc.listed t ht c hcl).1.ne c.2
  case nodup =>
    intro t ht
    rcases Finset.mem_insert.mp ht with rfl | ht
    · simp
    · rw [update_of_ne (hold t ht)]
      exact hc.nodup t ht
  case listed =>
    intro t ht p hp
    rcases Finset.mem_insert.mp ht with rfl | ht
    · simp at hp
    · rw [update_of_ne (hold t ht)] at hp
      have hlisted := hc.listed t ht p hp
      rw [genCode_dest_of_ne hasGoto hlisted.1.ne]
      exact ⟨Nat.lt_succ_of_lt hlisted.1, hlisted.2⟩
  case linked =>
    intro p hp hlink
    have hne : p.1 ≠ s.nbTbs := by
      intro h
      rw [slotField, h, genCode_link_next_self] at hlink
      exact hlink rfl
    rw [slotField, genCode_link_next_of_ne hasGoto hne] at hlink
    have hlt : p.1 < s.nbTbs := lt_of_le_of_ne (Nat.lt_succ_iff.mp hp) hne
    obtain ⟨t, ht, hmem⟩ := hc.linked p hlt hlink
    exact ⟨t, Finset.mem_insert_of_mem ht, by rwa [update_of_ne (hold t ht)]⟩
  case patched =>
    intro p hp t hdest
    rcases Finset.mem_insert.mp hp with h | h
    · rw [h] at hdest
      exact absurd hdest (genCode_dest_self hasGoto p.2 t)
    · rw [genCode_dest_of_ne hasGoto (hold _ h)] at hdest
      rw [slotField, genCode_link_next_of_ne hasGoto (hold _ h)]
      exact hc.patched p h t hdest

/-- Chaining a slot to a live block puts it in front of that block's list. -/
theorem sound_tbAddJump (hc : Sound s live lists) {tb tbNext : Nat} (n : Fin 2)
    (htb : tb < s.nbTbs) (hnext : tbNext ∈ live) :
    ∃ lists', Sound (s.tbAddJump tb n tbNext) live lists' := by
  by_cases hlink : s.link (.next tb n) = none
  swap
  · refine ⟨lists, ?_⟩
    rw [tbAddJump, if_pos (Option.isSome_iff_ne_none.mpr hlink)]
    exact hc
  have hfresh : ∀ t ∈ live, (tb, n) ∉ lists t := fun t ht h => hc.link_ne_none ht h hlink
  have hadd : s.tbAddJump tb n tbNext = ((s.tbSetJmpTarget tb n (.entry tbNext)).setLink
      (.next tb n) (s.link (.first tbNext))).setLink (.first tbNext) (some ⟨tb, .jump n⟩) := by
    rw [tbAddJump, hlink]
    rfl
  have hother : ∀ q : Nat × Fin 2, q ≠ (tb, n) →
      (s.tbAddJump tb n tbNext).link (slotField q) = s.link (slotField q) ∧
      (s.tbAddJump tb n tbNext).dest q.1 q.2 = s.dest q.1 q.2 := by
    intro q hq
    have hcomp : ¬(q.1 = tb ∧ q.2 = n) := fun h => hq (Prod.ext h.1 h.2)
    simp [hadd, slotField, hcomp]
  have hself : (s.tbAddJump tb n tbNext).link (.next tb n) = s.link (.first tbNext) := by
    simp [hadd]
  have hfirst : ∀ t, (s.tbAddJump tb n tbNext).link (.first t) =
      if t = tbNext then some ⟨tb, .jump n⟩ else s.link (.first t) := by
    intro t
    simp [hadd]
  have hnb : (s.tbAddJump tb n tbNext).nbTbs = s.nbTbs := by rw [hadd]; rfl
  have hdest : (s.tbAddJump tb n tbNext).dest tb n = .entry tbNext := by simp [hadd]
  have hkeep : ∀ t ∈ live, ∀ c ∈ lists t, c ≠ (tb, n) := fun t ht c hcl he => hfresh t ht (he ▸ hcl)
  refine ⟨update lists tbNext ((tb, n) :: lists tbNext), ?_⟩
  constructor
  case target_lt => exact fun t ht => hnb ▸ hc.target_lt t ht
  case listOf =>
    intro t ht
    rcases eq_or_ne t tbNext with rfl | hne
    · rw [update_self]
      refine (hc.listOf t ht).push ?_ hself fun c hcl => (hother c (hkeep t ht c hcl)).1
      rw [hfirst, if_pos rfl]
      rfl
    · rw [update_of_ne hne]
      refine (hc.listOf t ht).frame ?_ fun c hcl => (hother c (hkeep t ht c hcl)).1
      rw [hfirst, if_neg hne]
  case nodup =>
    intro t ht
    rcases eq_or_ne t tbNext with rfl | hne
    · rw [update_self]
      exact nodup_cons.mpr ⟨hfresh t ht, hc.nodup t ht⟩
    · rw [update_of_ne hne]
      exact hc.nodup t ht
  case listed =>
    intro t ht p hp
    rw [hnb]
    rcases eq_or_ne p (tb, n) with rfl | hpne
    · rcases eq_or_ne t tbNext with rfl | hne
      · exact ⟨htb, hdest⟩
      · rw [update_of_ne hne] at hp
        exact absurd hp (hfresh t ht)
    · rw [(hother p hpne).2]
      refine hc.listed t ht p ?_
      rcases eq_or_ne t tbNext with rfl | hne
      · rw [update_self] at hp
        exact (mem_cons.mp hp).resolve_left hpne
      · rwa [update_of_ne hne] at hp
  case linked =>
    intro p hp hplink
    rcases eq_or_ne p (tb, n) with rfl | hpne
    · exact ⟨tbNext, hnext, by rw [update_self]; exact mem_cons_self⟩
    · rw [(hother p hpne).1] at hplink
      obtain ⟨t, ht, hmem⟩ := hc.linked p (hnb ▸ hp) hplink
      refine ⟨t, ht, ?_⟩
      rcases eq_or_ne t tbNext with rfl | hne
      · rw [update_self]
        exact mem_cons_of_mem _ hmem
      · rwa [update_of_ne hne]
  case patched =>
    intro p hp t hpdest
    rcases eq_or_ne p (tb, n) with rfl | hpne
    · rw [slotField, hself, (hc.listOf tbNext hnext).head]
      exact headValue_slotPtr_ne_none tbNext (lists tbNext)
    · rw [(hother p hpne).2] at hpdest
      rw [(hother p hpne).1]
      exact hc.patched p hp t hpdest

/-- The jump lists with the set of live blocks: generated since the last flush and not
invalidated. -/
structure ChainState where
  lists : JumpLists
  live : Finset Nat

/-- A call that touches the jump lists. Code generation may flush before it takes a block. -/
inductive ChainCall
  | genCode (flushed : Bool) (hasGoto : Fin 2 → Bool)
  | addJump (tb : Nat) (n : Fin 2) (tbNext : Nat)
  | invalidate (tb : Nat)

/-- One call. The callers of `tb_add_jump` pass a block that has been generated since the last
flush and a target found in the hash table; those of `tb_phys_invalidate` pass a block found in
the hash table or in a page list. -/
def ChainState.exec (s : ChainState) : ChainCall → Option ChainState
  | .genCode flushed hasGoto =>
    let lists := if flushed then s.lists.flush else s.lists
    let live := if flushed then ∅ else s.live
    some ⟨lists.genCode hasGoto, insert lists.nbTbs live⟩
  | .addJump tb n tbNext =>
    if tb < s.lists.nbTbs ∧ tbNext ∈ s.live then some ⟨s.lists.tbAddJump tb n tbNext, s.live⟩
    else none
  | .invalidate tb =>
    if tb ∈ s.live then (⟨·, s.live.erase tb⟩) <$> s.lists.invalidate tb else none

def ChainStep (s : ChainState) (call : ChainCall) (s' : ChainState) : Prop :=
  s.exec call = some s'

open ChainState

theorem sound_exec {s s' : ChainState} {call : ChainCall} (hstep : ChainStep s call s')
    (hc : Sound s.lists s.live lists) : ∃ lists', Sound s'.lists s'.live lists' := by
  cases call with
  | genCode flushed hasGoto =>
    simp only [ChainStep, exec, Option.some.injEq] at hstep
    subst hstep
    cases flushed with
    | false => exact ⟨_, sound_genCode hc hasGoto⟩
    | true => exact ⟨_, sound_genCode (sound_flush s.lists lists) hasGoto⟩
  | addJump tb n tbNext =>
    simp only [ChainStep, exec] at hstep
    split_ifs at hstep with hcall
    cases hstep
    exact sound_tbAddJump hc n hcall.1 hcall.2
  | invalidate tb =>
    simp only [ChainStep, exec] at hstep
    split_ifs at hstep with htb
    obtain ⟨s1, lists1, hrun, hc1, -⟩ := invalidate_spec hc htb
    rw [hrun] at hstep
    cases hstep
    exact ⟨lists1, hc1⟩

theorem sound_run {s s' : ChainState} {calls : List ChainCall} (hrun : Run ChainStep s calls s')
    (hc : ∃ lists, Sound s.lists s.live lists) : ∃ lists, Sound s'.lists s'.live lists := by
  refine hrun.invariant (fun s => ∃ lists, Sound s.lists s.live lists) ?_ hc
  rintro s call s' ⟨lists, hc⟩ hstep
  exact sound_exec hstep hc

def ChainState.Initial (s : ChainState) : Prop := s.lists.nbTbs = 0 ∧ s.live = ∅

theorem sound_initial {s : ChainState} (h : s.Initial) : Sound s.lists s.live fun _ => [] := by
  have hflush : s.lists = s.lists.flush := by
    rw [flush, ← h.1]
  rw [hflush, h.2]
  exact sound_flush s.lists _

theorem mem_lists_iff (hc : Sound s live lists) (ht : t ∈ live) (hp : p.1 ∈ live) :
    p ∈ lists t ↔ s.dest p.1 p.2 = .entry t := by
  refine ⟨fun h => (hc.listed t ht p h).2, fun h => ?_⟩
  obtain ⟨t', ht', hmem⟩ := hc.linked p (hc.target_lt p.1 hp) (hc.patched p hp t h)
  have hdest := (hc.listed t' ht' p hmem).2
  rw [h] at hdest
  exact JumpDest.entry.inj hdest ▸ hmem

def ChainState.start : ChainState := ⟨⟨0, fun _ => none, fun _ _ => .unset⟩, ∅⟩

/-- Two blocks, one chained to itself and to the other, and the other chained to itself. -/
def selfLoopCalls : List ChainCall :=
  [.genCode false fun _ => true, .genCode false fun _ => true, .addJump 0 0 0, .addJump 0 1 1, .addJump 1 0 1]

/-- The calls in order, as far as they are made within the callers' rules. -/
def ChainState.execAll (s : ChainState) (calls : List ChainCall) : Option ChainState :=
  Transition.execAll ChainState.exec s calls

end TcgArm.TbJump
