import TcgArm.HBitmapInv

/-! Iteration over a bitmap. An iterator that stands before a number has, on each level, the bits behind
its own path; so the next member is found by going up to a level that has a bit left, and down again by
the lowest bits. -/

namespace TcgArm.HBitmaps

open Function Nat Option TcgArm.BitScan

variable {h : Long}

/-- The bit of level `i`, above the last one, that stands for a word of the last level. -/
def node (h : Long) (pos i : Nat) : Nat := pos / h.bitsPerLong ^ (h.last - 1 - i)

theorem node_last (pos : Nat) : node h pos (h.last - 1) = pos := by
  rw [node, Nat.sub_self, pow_zero, Nat.div_one]

variable {i pos : Nat}

theorem node_succ (hi : i + 1 < h.last) (pos : Nat) : node h pos (i + 1) / h.bitsPerLong = node h pos i := by
  have hexp : h.last - 1 - i = h.last - 1 - (i + 1) + 1 := by omega
  rw [node, node, hexp, pow_succ, Nat.div_div_eq_div_mul]

theorem node_mono {p q : Nat} (hpq : p ≤ q) (i : Nat) : node h p i ≤ node h q i := Nat.div_le_div_right hpq

theorem node_above {j : Nat} (hj : j < i) (hi : i < h.last) (pos : Nat) :
    node h pos j = node h pos i / h.bitsPerLong / h.bitsPerLong ^ (i - j - 1) := by
  have hexp : h.last - 1 - j = h.last - 1 - i + (1 + (i - j - 1)) := by omega
  rw [node, node, hexp, pow_add, pow_add, pow_one, Nat.div_div_eq_div_mul, Nat.div_div_eq_div_mul]

variable {hb : HBitmap h} {word : Word h} {it : Iter h} {m : Nat}

/-- Upper levels say where the members are. -/
theorem Wf.bit_iff (hwf : Wf hb) (hi : i < h.last) (n : Nat) :
    (bitAt (hb.levels i) n = true ∧ ¬ IsSentinel h i n) ↔
      ∃ x, bitAt (hb.levels h.last) x = true ∧ node h (x / h.bitsPerLong) i = n := by
  have hw := bitsPerLong_pos h
  obtain ⟨d, hd⟩ : ∃ d, h.last - 1 - i = d := ⟨_, rfl⟩
  induction d generalizing i n with
  | zero =>
    have hlast : i = h.last - 1 := by omega
    rw [hwf.linked i hi n, wordAt_ne_zero_iff hw, show i + 1 = h.last by omega, hlast]
    simp only [node_last, and_comm]
  | succ d ih =>
    rw [hwf.linked i hi n, wordAt_ne_zero_iff hw]
    constructor
    · rintro ⟨y, hy, hbit⟩
      obtain ⟨x, hx, hnode⟩ := (@ih (i + 1) (by omega) y (by omega)).mp
        ⟨hbit, fun hsent => absurd hsent.1 (by omega)⟩
      exact ⟨x, hx, by rw [← node_succ (by omega), hnode, hy]⟩
    · rintro ⟨x, hx, rfl⟩
      exact ⟨node h (x / h.bitsPerLong) (i + 1), node_succ (by omega) _,
        ((@ih (i + 1) (by omega) _ (by omega)).mpr ⟨x, hx, rfl⟩).1⟩

def Behind (hb : HBitmap h) (pos i : Nat) (word : Word h) : Prop :=
  ∀ b < h.bitsPerLong, word.getLsbD b =
    (bitAt (hb.levels i) (node h pos i / h.bitsPerLong * h.bitsPerLong + b) &&
      decide (node h pos i < node h pos i / h.bitsPerLong * h.bitsPerLong + b))

/-- The iterator stands before the number `m`, if `word` is what is left of its own word. -/
structure Rest (hb : HBitmap h) (it : Iter h) (m : Nat) (word : Word h) : Prop where
  low : it.pos * h.bitsPerLong ≤ m
  high : m ≤ it.pos * h.bitsPerLong + h.bitsPerLong
  inside : it.pos < (hb.levels h.last).length
  word : ∀ b < h.bitsPerLong, word.getLsbD b =
    (bitAt (hb.levels h.last) (it.pos * h.bitsPerLong + b) && decide (m ≤ it.pos * h.bitsPerLong + b))
  path : ∀ i < h.last, Behind hb it.pos i (it.cur i)

/-- The iterator stands before the number `m`. -/
abbrev Before (hb : HBitmap h) (it : Iter h) (m : Nat) : Prop := Rest hb it m (it.cur h.last)

theorem Wf.node_lt (hwf : Wf hb) (hpos : pos < (hb.levels h.last).length) (hi : i < h.last) :
    node h pos i < (hb.levels (i + 1)).length := by
  obtain ⟨d, hd⟩ : ∃ d, h.last - 1 - i = d := ⟨_, rfl⟩
  induction d generalizing i with
  | zero =>
    rw [show i = h.last - 1 by omega, node_last, show h.last - 1 + 1 = h.last by omega]
    exact hpos
  | succ d ih =>
    rw [← node_succ (by omega), hwf.length_up (i + 1) (by omega)]
    exact div_lt_numWords (ih (by omega) (by omega))

theorem Wf.node_zero (hwf : Wf hb) (hpos : pos < (hb.levels h.last).length) :
    node h pos 0 < h.bitsPerLong - 1 :=
  (hwf.node_lt hpos (by rw [last_eq]; decide)).trans_le (le_sub_one_of_lt hwf.free)

theorem Wf.member_inside (hwf : Wf hb) {x : Nat} (hx : bitAt (hb.levels h.last) x = true) :
    x / h.bitsPerLong < (hb.levels h.last).length :=
  hwf.lt_length (hwf.inside x hx)

theorem Behind.member (hwf : Wf hb) {x : Nat} (hi : i < h.last) (hbehind : Behind hb pos i word)
    (hx : bitAt (hb.levels h.last) x = true) (hlt : node h pos i < node h (x / h.bitsPerLong) i)
    (hsame : node h (x / h.bitsPerLong) i / h.bitsPerLong = node h pos i / h.bitsPerLong) :
    word.getLsbD (node h (x / h.bitsPerLong) i % h.bitsPerLong) = true := by
  have hdiv := div_add_mod' (node h (x / h.bitsPerLong) i) h.bitsPerLong
  rw [hsame] at hdiv
  rw [hbehind _ (mod_lt _ (bitsPerLong_pos h)), hdiv,
    ((hwf.bit_iff hi _).mpr ⟨x, hx, rfl⟩).1, decide_eq_true hlt]
  rfl

theorem Behind.lowest_gt (hbehind : Behind hb pos i word) (hne : word ≠ 0) :
    node h pos i < node h pos i / h.bitsPerLong * h.bitsPerLong + word.ctz.toNat := by
  have hlowest := hbehind _ (ctz_lt hne)
  rw [BitVec.getLsbD_true_ctz_of_ne_zero hne] at hlowest
  exact of_decide_eq_true (Bool.and_eq_true_iff.mp hlowest.symm).2

theorem Behind.lowest_le (hwf : Wf hb) {x : Nat} (hi : i < h.last)
    (hbehind : Behind hb pos i word) (hne : word ≠ 0) (hx : bitAt (hb.levels h.last) x = true)
    (hlt : node h pos i < node h (x / h.bitsPerLong) i) :
    node h pos i / h.bitsPerLong * h.bitsPerLong + word.ctz.toNat ≤ node h (x / h.bitsPerLong) i := by
  have hdiv := div_add_mod' (node h (x / h.bitsPerLong) i) h.bitsPerLong
  rcases (Nat.div_le_div_right (c := h.bitsPerLong) hlt.le).eq_or_lt with hsame | hless
  · have hle := ctz_le (hbehind.member hwf hi hx hlt hsame.symm)
    rw [← hsame] at hdiv
    omega
  · have hmul := Nat.mul_le_mul_right h.bitsPerLong (succ_le_of_lt hless)
    rw [succ_mul] at hmul
    have hc := ctz_lt hne
    omega

/-- Up to a level that has a bit left. No member that is left is under the nodes passed. -/
theorem climb_spec (hwf : Wf hb) (hbefore : Before hb it m) (i : Nat) (hi : i < h.last)
    (hclear : ∀ x, bitAt (hb.levels h.last) x = true → m ≤ x →
      node h it.pos i < node h (x / h.bitsPerLong) i) :
    ∃ j < h.last, climb it.cur (i + 1) (node h it.pos i) =
        some (j, node h it.pos j / h.bitsPerLong, it.cur j) ∧ it.cur j ≠ 0 ∧
      ∀ x, bitAt (hb.levels h.last) x = true → m ≤ x → node h it.pos j < node h (x / h.bitsPerLong) j := by
  induction i with
  | zero =>
    have htop := hwf.node_zero hbefore.inside
    have hne : it.cur 0 ≠ 0 := by
      rw [ne_zero_iff]
      refine ⟨h.bitsPerLong - 1, ?_⟩
      rw [hbefore.path 0 hi _ (by omega), div_eq_of_lt (by omega), Nat.zero_mul, Nat.zero_add,
        hwf.sentinel, decide_eq_true htop]
      rfl
    exact ⟨0, hi, by rw [climb, if_neg hne], hne, hclear⟩
  | succ i ih =>
    by_cases hzero : it.cur (i + 1) = 0
    · rw [climb, if_pos hzero, node_succ hi]
      refine ih (by omega) fun x hx hm => ?_
      have hlt := hclear x hx hm
      rw [← node_succ hi, ← node_succ hi]
      refine lt_of_le_of_ne (Nat.div_le_div_right hlt.le) fun hsame => ?_
      have hbit := (hbefore.path (i + 1) hi).member hwf hi hx hlt hsame.symm
      rw [hzero] at hbit
      exact absurd hbit (by simp)
    · exact ⟨i + 1, hi, by rw [climb, if_neg hzero], hzero, hclear⟩

theorem behind_dropLowest {q : Nat} (hne : word ≠ 0)
    (hnode : node h pos i = q * h.bitsPerLong + word.ctz.toNat)
    (hword : ∀ b < h.bitsPerLong, word.ctz.toNat ≤ b →
      word.getLsbD b = bitAt (hb.levels i) (q * h.bitsPerLong + b)) :
    Behind hb pos i (word &&& (word - 1#_)) := by
  have hc := ctz_lt hne
  have hdiv : node h pos i / h.bitsPerLong = q := by
    rw [hnode, Nat.add_comm, add_mul_div_right _ _ (by omega), div_eq_of_lt hc, Nat.zero_add]
  intro b hb
  rw [getLsbD_dropLowest hne, hdiv, hnode]
  rcases lt_trichotomy b word.ctz.toNat with hlt | heq | hgt
  · rw [BitVec.getLsbD_false_of_lt_ctz hlt, Bool.false_and, decide_eq_false (by omega), Bool.and_false]
  · rw [heq, decide_eq_false (by omega), decide_eq_false (by omega), Bool.and_false, Bool.and_false]
  · rw [hword b hb hgt.le, decide_eq_true (by omega), decide_eq_true (by omega)]

theorem Wf.word_below (hwf : Wf hb) {n : Nat} (hi : i < h.last)
    (hbit : bitAt (hb.levels i) n = true ∧ ¬ IsSentinel h i n) :
    (hb.levels (i + 1))[n]? = some (wordAt (hb.levels (i + 1)) n) ∧ n < (hb.levels (i + 1)).length ∧
      wordAt (hb.levels (i + 1)) n ≠ 0 := by
  have hne := (hwf.linked i hi n).mp hbit
  have hlt : n < (hb.levels (i + 1)).length := by
    by_contra hge
    exact hne (wordAt_of_le (by omega))
  exact ⟨getElem?_wordAt hlt, hlt, hne⟩

/-- The lowest bit of a whole word comes before all members under it. -/
theorem Wf.lowest_le (hwf : Wf hb) {n x : Nat} (hi : i + 1 < h.last) (hne : wordAt (hb.levels (i + 1)) n ≠ 0)
    (hx : bitAt (hb.levels h.last) x = true) (hle : n ≤ node h (x / h.bitsPerLong) i) :
    n * h.bitsPerLong + (wordAt (hb.levels (i + 1)) n).ctz.toNat ≤ node h (x / h.bitsPerLong) (i + 1) := by
  have hbit := ((hwf.bit_iff hi _).mpr ⟨x, hx, rfl⟩).1
  have hdiv := div_add_mod' (node h (x / h.bitsPerLong) (i + 1)) h.bitsPerLong
  rw [node_succ hi] at hdiv
  rw [bitAt, node_succ hi] at hbit
  rcases hle.eq_or_lt with heq | hlt
  · rw [← heq] at hbit hdiv
    have hle' := ctz_le hbit
    omega
  · have hmul : (n + 1) * h.bitsPerLong ≤ node h (x / h.bitsPerLong) i * h.bitsPerLong :=
      Nat.mul_le_mul_right _ hlt
    rw [Nat.add_mul, Nat.one_mul] at hmul
    have hc := ctz_lt hne
    omega

theorem descend_step {n q : Nat} {next : Word h} {cur : Nat → Word h} (hne : word ≠ 0)
    (hread : (hb.levels (i + 1))[q * h.bitsPerLong + word.ctz.toNat]? = some next) :
    descend hb (n + 1) i q word cur = descend hb n (i + 1) (q * h.bitsPerLong + word.ctz.toNat) next
      (update cur i (word &&& (word - 1#_))) := by
  rw [descend, if_neg hne]
  dsimp only
  rw [hread]
  rfl

/-- Down from a node that comes before all the members that are left. -/
theorem descend_spec {hb : HBitmap h} (hwf : Wf hb) (left : Nat → Prop)
    (hleft : ∀ x, left x → bitAt (hb.levels h.last) x = true) (n : Nat) {i q : Nat} {word : Word h}
    {cur : Nat → Word h} (hi : i + (n + 1) = h.last) (hne : word ≠ 0)
    (hword : ∀ b < h.bitsPerLong, word.ctz.toNat ≤ b →
      word.getLsbD b = bitAt (hb.levels i) (q * h.bitsPerLong + b))
    (hsent : ¬ IsSentinel h i (q * h.bitsPerLong + word.ctz.toNat))
    (hmin : ∀ x, left x → q * h.bitsPerLong + word.ctz.toNat ≤ node h (x / h.bitsPerLong) i) :
    ∃ pos cur', descend hb (n + 1) i q word cur = some (pos, wordAt (hb.levels h.last) pos, cur') ∧
      wordAt (hb.levels h.last) pos ≠ 0 ∧ pos < (hb.levels h.last).length ∧
      node h pos i = q * h.bitsPerLong + word.ctz.toNat ∧ (∀ j < i, cur' j = cur j) ∧
      (∀ j, i ≤ j → j < h.last → Behind hb pos j (cur' j)) ∧
      ∀ x, left x → pos ≤ x / h.bitsPerLong := by
  have hw := bitsPerLong_pos h
  have hbit : bitAt (hb.levels i) (q * h.bitsPerLong + word.ctz.toNat) = true := by
    rw [← hword _ (ctz_lt hne) (le_refl _)]
    exact BitVec.getLsbD_true_ctz_of_ne_zero hne
  obtain ⟨hread, hlen, hbelow⟩ := hwf.word_below (by omega) ⟨hbit, hsent⟩
  induction n generalizing i q word cur with
  | zero =>
    obtain rfl : i = h.last - 1 := by omega
    have hlast : h.last - 1 + 1 = h.last := by omega
    rw [hlast] at hread hlen hbelow
    refine ⟨_, update cur (h.last - 1) (word &&& (word - 1#_)), ?_, hbelow, hlen,
      node_last _, fun j hj => update_of_ne (by omega) _ _, fun j hj1 hj2 => ?_, ?_⟩
    · rw [descend_step hne (hlast.symm ▸ hread), descend, hlast]
    · obtain rfl : j = h.last - 1 := by omega
      rw [update_self]
      exact behind_dropLowest hne (node_last _) hword
    · simpa only [node_last] using hmin
  | succ n ih =>
    have hroom : i + 1 < h.last := by omega
    have hwhole : ∀ b < h.bitsPerLong,
        (wordAt (hb.levels (i + 1)) (q * h.bitsPerLong + word.ctz.toNat)).getLsbD b =
          bitAt (hb.levels (i + 1)) ((q * h.bitsPerLong + word.ctz.toNat) * h.bitsPerLong + b) :=
      fun b hb => (bitAt_mul_add hb).symm
    have hc := ctz_lt hbelow
    have hnext : ¬ IsSentinel h (i + 1) ((q * h.bitsPerLong + word.ctz.toNat) * h.bitsPerLong +
        (wordAt (hb.levels (i + 1)) (q * h.bitsPerLong + word.ctz.toNat)).ctz.toNat) :=
      fun hs => absurd hs.1 (by omega)
    have hbit' : bitAt (hb.levels (i + 1)) ((q * h.bitsPerLong + word.ctz.toNat) * h.bitsPerLong +
        (wordAt (hb.levels (i + 1)) (q * h.bitsPerLong + word.ctz.toNat)).ctz.toNat) = true := by
      rw [← hwhole _ hc]
      exact BitVec.getLsbD_true_ctz_of_ne_zero hbelow
    obtain ⟨hread', hlen', hbelow'⟩ := hwf.word_below hroom ⟨hbit', hnext⟩
    obtain ⟨pos, cur', hrun, hfound, hin, hnode, hkeep, hbehind, hmin'⟩ :=
      @ih (i + 1) _ _ (update cur i (word &&& (word - 1#_))) (by omega) hbelow
        (fun b hb _ => hwhole b hb) hnext
        (fun x hx => hwf.lowest_le hroom hbelow (hleft x hx) (hmin x hx)) hbit' hread' hlen' hbelow'
    have hnode' : node h pos i = q * h.bitsPerLong + word.ctz.toNat := by
      rw [← node_succ hroom, hnode, Nat.add_comm, add_mul_div_right _ _ hw, div_eq_of_lt hc,
        Nat.zero_add]
    refine ⟨pos, cur', by rw [descend_step hne hread, hrun], hfound, hin, hnode', fun j hj => ?_,
      fun j hj1 hj2 => ?_, hmin'⟩
    · rw [hkeep j (by omega), update_of_ne (by omega)]
    · by_cases hji : j = i
      · subst hji
        rw [hkeep j (by omega), update_self]
        exact behind_dropLowest hne hnode' hword
      · exact hbehind j (by omega) hj2

theorem getLsbD_sentinel (b : Nat) (hb : b < h.bitsPerLong) :
    (sentinel h).getLsbD b = decide (b = h.bitsPerLong - 1) := by
  rw [sentinel, getLsbD_one_shiftLeft, decide_eq_true hb, Bool.true_and]

theorem Behind.lowest (hwf : Wf hb) (hi : i < h.last) (hpos : pos < (hb.levels h.last).length)
    (hbehind : Behind hb pos i word) (hne : word ≠ 0) (hend : ¬ (i = 0 ∧ word = sentinel h)) :
    ¬ IsSentinel h i (node h pos i / h.bitsPerLong * h.bitsPerLong + word.ctz.toNat) := by
  rintro ⟨rfl, hlowest⟩
  have htop := hwf.node_zero hpos
  have hzero : node h pos 0 / h.bitsPerLong = 0 := div_eq_of_lt (by omega)
  rw [hzero, Nat.zero_mul, Nat.zero_add] at hlowest
  refine hend ⟨rfl, BitVec.eq_of_getLsbD_eq fun b hb => ?_⟩
  rw [getLsbD_sentinel b hb]
  by_cases hlast : b = h.bitsPerLong - 1
  · rw [decide_eq_true hlast, hlast, ← hlowest]
    exact BitVec.getLsbD_true_ctz_of_ne_zero hne
  · rw [decide_eq_false hlast, BitVec.getLsbD_false_of_lt_ctz (by omega)]

/-- The next word with members, or the end if there is none. -/
theorem hbitmapIterSkipWords_spec (hwf : Wf hb) (hbefore : Before hb it m) (hzero : it.cur h.last = 0) :
    (hbitmapIterSkipWords hb it = some (0, it) ∧
        ∀ x, bitAt (hb.levels h.last) x = true → ¬ m ≤ x) ∨
      ∃ it', hbitmapIterSkipWords hb it = some (wordAt (hb.levels h.last) it'.pos, it') ∧
        wordAt (hb.levels h.last) it'.pos ≠ 0 ∧ it'.pos < (hb.levels h.last).length ∧
        it.pos < it'.pos ∧ (∀ i < h.last, Behind hb it'.pos i (it'.cur i)) ∧
        ∀ x, bitAt (hb.levels h.last) x = true → m ≤ x → it'.pos ≤ x / h.bitsPerLong := by
  have hw := bitsPerLong_pos h
  have hlast : h.last - 1 + 1 = h.last := by
    rw [last_eq]
  -- The word of the iterator itself has nothing left.
  have hclear : ∀ x, bitAt (hb.levels h.last) x = true → m ≤ x →
      node h it.pos (h.last - 1) < node h (x / h.bitsPerLong) (h.last - 1) := by
    intro x hx hm
    rw [node_last, node_last]
    have hlow := hbefore.low
    refine lt_of_le_of_ne ((Nat.le_div_iff_mul_le hw).mpr (by omega)) fun hsame => ?_
    have hbit := hbefore.word (x % h.bitsPerLong) (mod_lt _ hw)
    have hdiv := div_add_mod' x h.bitsPerLong
    rw [hsame, hdiv, hx, decide_eq_true hm, hzero] at hbit
    exact absurd hbit (by simp)
  obtain ⟨i, hi, hclimb, hne, hfar⟩ := climb_spec hwf hbefore (h.last - 1) (by omega) hclear
  rw [hlast, node_last] at hclimb
  have hbehind := hbefore.path i hi
  by_cases hend : i = 0 ∧ it.cur i = sentinel h
  · refine .inl ⟨?_, fun x hx hm => ?_⟩
    · rw [hbitmapIterSkipWords, hclimb]
      simp only [bind_eq_bind, bind_some, if_pos hend]
    · -- A member that is left would have a bit in the top word.
      obtain ⟨rfl, hsent⟩ := hend
      have htop := hwf.node_zero (hwf.member_inside hx)
      have htop' := hwf.node_zero hbefore.inside
      have hbit := hbehind.member hwf hi hx (hfar x hx hm) (by
        rw [div_eq_of_lt (by omega), div_eq_of_lt (by omega)])
      rw [hsent, mod_eq_of_lt (by omega), getLsbD_sentinel _ (by omega), decide_eq_true_eq] at hbit
      omega
  · have hafter := hbehind.lowest_gt hne
    have hword : ∀ b < h.bitsPerLong, (it.cur i).ctz.toNat ≤ b → (it.cur i).getLsbD b =
        bitAt (hb.levels i) (node h it.pos i / h.bitsPerLong * h.bitsPerLong + b) := by
      intro b hb hle
      rw [hbehind b hb, decide_eq_true (by omega), Bool.and_true]
    obtain ⟨pos, cur, hrun, hfound, hin, hnode, hkeep, hpath, hmin⟩ := @descend_spec h hb hwf
      (fun x => bitAt (hb.levels h.last) x = true ∧ m ≤ x) (fun x hx => hx.1) (h.last - i - 1) i _ _ it.cur
      (by omega) hne hword (hbehind.lowest hwf hi hbefore.inside hne hend)
      (fun x hx => hbehind.lowest_le hwf hi hne hx.1 (hfar x hx.1 hx.2))
    rw [show h.last - i - 1 + 1 = h.last - i by omega] at hrun
    refine .inr ⟨⟨pos, cur⟩, ?_, hfound, hin, ?_, fun j hj => ?_, fun x hx hm => hmin x ⟨hx, hm⟩⟩
    · rw [hbitmapIterSkipWords, hclimb]
      simp only [bind_eq_bind, bind_some, if_neg hend, hrun, if_neg hfound]
    · by_contra hle
      have := node_mono (h := h) (not_lt.mp hle) i
      dsimp only at this
      omega
    · by_cases hji : j < i
      · have hdiv : node h pos i / h.bitsPerLong = node h it.pos i / h.bitsPerLong := by
          rw [hnode, Nat.add_comm, add_mul_div_right _ _ hw, div_eq_of_lt (ctz_lt hne), Nat.zero_add]
        have hsame : node h pos j = node h it.pos j := by
          rw [node_above hji hi, node_above hji hi, hdiv]
        dsimp only
        rw [hkeep j hji, Behind, hsame]
        exact hbefore.path j hj
      · exact hpath j (by omega) hj

def Iter.rest (it : Iter h) (word : Word h) : Iter h := ⟨it.pos, update it.cur h.last word⟩

theorem rest_last (it : Iter h) (word : Word h) : (it.rest word).cur h.last = word := update_self _ _ _

theorem rest_above (it : Iter h) (word : Word h) (hi : i < h.last) :
    (it.rest word).cur i = it.cur i := update_of_ne (by omega) _ _

theorem Rest.before (hrest : Rest hb it m word) : Before hb (it.rest word) m := by
  refine ⟨hrest.low, hrest.high, hrest.inside, fun b hb => ?_, fun i hi => ?_⟩
  · rw [rest_last]
    exact hrest.word b hb
  · rw [rest_above it word hi]
    exact hrest.path i hi

/-- The word to go on with has the members that are left in it. -/
theorem iterWord_spec (hwf : Wf hb) (hbefore : Before hb it m) :
    (iterWord hb it = some (0, it) ∧ ∀ x, bitAt (hb.levels h.last) x = true → ¬ m ≤ x) ∨
      ∃ it' word m', iterWord hb it = some (word, it') ∧ word ≠ 0 ∧ Rest hb it' m' word ∧
        m ≤ m' ∧ ∀ x, bitAt (hb.levels h.last) x = true → m ≤ x → m' ≤ x := by
  have hw := bitsPerLong_pos h
  by_cases hzero : it.cur h.last = 0
  · rw [iterWord, if_pos hzero]
    rcases hbitmapIterSkipWords_spec hwf hbefore hzero with
      hend | ⟨it', hrun, hne, hin, hlt, hpath, hmin⟩
    · exact .inl hend
    · refine .inr ⟨it', wordAt (hb.levels h.last) it'.pos, it'.pos * h.bitsPerLong, hrun, hne,
        ⟨le_refl _, by omega, hin, fun b hb => ?_, hpath⟩, ?_,
        fun x hx hm => (Nat.le_div_iff_mul_le hw).mp (hmin x hx hm)⟩
      · rw [bitAt_mul_add hb, decide_eq_true (by omega), Bool.and_true]
      · have hmul := Nat.mul_le_mul_right h.bitsPerLong (succ_le_of_lt hlt)
        rw [succ_mul] at hmul
        exact hbefore.high.trans hmul
  · refine .inr ⟨it, it.cur h.last, m, ?_, hzero, hbefore, le_refl _, fun _ _ hm => hm⟩
    rw [iterWord, if_neg hzero]

/-- One turn of an iteration: the least member that is left, and the iterator before the next number. -/
theorem hbitmapIterNext_spec (hwf : Wf hb) (hbefore : Before hb it m) :
    (hbitmapIterNext hb it = some (-1, it) ∧ ∀ x, bitAt (hb.levels h.last) x = true → ¬ m ≤ x) ∨
      ∃ it' item, hbitmapIterNext hb it = some (Int.bmod (item <<< hb.granularity : Nat) (2 ^ 64), it') ∧
        bitAt (hb.levels h.last) item = true ∧ m ≤ item ∧ Before hb it' (item + 1) ∧
        ∀ x, bitAt (hb.levels h.last) x = true → m ≤ x → item ≤ x := by
  have hw := bitsPerLong_pos h
  rcases iterWord_spec hwf hbefore with ⟨hrun, hend⟩ | ⟨it', word, m', hrun, hne, hrest, hle, hleft⟩
  · refine .inl ⟨?_, hend⟩
    rw [hbitmapIterNext, hrun]
    rfl
  · have hc := ctz_lt hne
    have hlow := hrest.low
    have hlowest := hrest.word _ hc
    rw [BitVec.getLsbD_true_ctz_of_ne_zero hne] at hlowest
    obtain ⟨hmem, hge⟩ := Bool.and_eq_true_iff.mp hlowest.symm
    have hge' := of_decide_eq_true hge
    refine .inr ⟨it'.rest (word &&& (word - 1#_)), it'.pos * h.bitsPerLong + word.ctz.toNat, ?_, hmem,
      hle.trans hge', ?_, fun x hx hm => ?_⟩
    · rw [hbitmapIterNext, hrun]
      simp only [bind_eq_bind, bind_some, if_neg hne]
      rfl
    · refine Rest.before ⟨by omega, by omega, hrest.inside, fun b hb => ?_, hrest.path⟩
      rw [getLsbD_dropLowest hne]
      rcases lt_trichotomy b word.ctz.toNat with hlt | heq | hgt
      · rw [BitVec.getLsbD_false_of_lt_ctz hlt, Bool.false_and, decide_eq_false (by omega), Bool.and_false]
      · rw [heq, decide_eq_false (by omega), decide_eq_false (by omega), Bool.and_false, Bool.and_false]
      · rw [hrest.word b hb, decide_eq_true (by omega), decide_eq_true (by omega),
          decide_eq_true (by omega), Bool.and_true]
    · have hm' := hleft x hx hm
      have hdiv := div_add_mod' x h.bitsPerLong
      have hpos : it'.pos ≤ x / h.bitsPerLong := (Nat.le_div_iff_mul_le hw).mpr (hlow.trans hm')
      rcases hpos.eq_or_lt with hsame | hless
      · have hbit := hrest.word (x % h.bitsPerLong) (mod_lt _ hw)
        rw [hsame, hdiv, hx, decide_eq_true hm'] at hbit
        have hle' := ctz_le hbit
        rw [← hsame] at hdiv
        omega
      · have hmul := Nat.mul_le_mul_right h.bitsPerLong (succ_le_of_lt hless)
        rw [succ_mul] at hmul
        omega

/-- The same with whole words. -/
theorem hbitmapIterNextWord_spec (hwf : Wf hb) (hbefore : Before hb it m) :
    (hbitmapIterNextWord hb it = some (none, 0, it) ∧
        ∀ x, bitAt (hb.levels h.last) x = true → ¬ m ≤ x) ∨
      ∃ it' word m', hbitmapIterNextWord hb it = some (some it'.pos, word, it') ∧
        Before hb it' (it'.pos * h.bitsPerLong + h.bitsPerLong) ∧
        it'.pos * h.bitsPerLong ≤ m' ∧ m' ≤ it'.pos * h.bitsPerLong + h.bitsPerLong ∧ m ≤ m' ∧
        m / h.bitsPerLong ≤ it'.pos ∧
        (∀ x, bitAt (hb.levels h.last) x = true → m ≤ x → m' ≤ x) ∧
        ∀ b < h.bitsPerLong, word.getLsbD b =
          (bitAt (hb.levels h.last) (it'.pos * h.bitsPerLong + b) &&
            decide (m' ≤ it'.pos * h.bitsPerLong + b)) := by
  have hw := bitsPerLong_pos h
  rcases iterWord_spec hwf hbefore with ⟨hrun, hend⟩ | ⟨it', word, m', hrun, hne, hrest, hle, hleft⟩
  · refine .inl ⟨?_, hend⟩
    rw [hbitmapIterNextWord, hrun]
    rfl
  · refine .inr ⟨it'.rest 0, word, m', ?_, ?_, hrest.low, hrest.high, hle, ?_, hleft, hrest.word⟩
    · rw [hbitmapIterNextWord, hrun]
      simp only [bind_eq_bind, bind_some, if_neg hne]
      rfl
    · refine Rest.before ⟨Nat.le_add_right _ _, le_refl _, hrest.inside, fun b hb => ?_, hrest.path⟩
      have hnot : ¬ (it'.rest 0).pos * h.bitsPerLong + h.bitsPerLong ≤ it'.pos * h.bitsPerLong + b :=
        not_le.mpr (Nat.add_lt_add_left hb _)
      exact (BitVec.getLsbD_zero).trans (by rw [decide_eq_false hnot, Bool.and_false])
    · -- The word has a member, which is not before the iterator.
      obtain ⟨b, hbit⟩ := (ne_zero_iff word).mp hne
      have hb : b < h.bitsPerLong := BitVec.lt_of_getLsbD hbit
      rw [hrest.word b hb] at hbit
      have hge := of_decide_eq_true (Bool.and_eq_true_iff.mp hbit).2
      have hpos : (it'.rest 0).pos = it'.pos := rfl
      rw [hpos, ← Nat.lt_succ_iff, Nat.div_lt_iff_lt_mul hw, succ_mul]
      omega

end TcgArm.HBitmaps
