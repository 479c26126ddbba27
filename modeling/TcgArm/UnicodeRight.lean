import Mathlib.Data.List.Basic
import TcgArm.Unicode

/-! What `mod_utf8_codepoint` reads, accepts and skips. The memory behind `s` is now a partial map:
a byte that may not be read is `none`, and reading it leaves the function without a result. -/

namespace TcgArm.Unicode

open List

/-- `i < n ? *p : 0`, with `p` at `s[i]`. -/
def readIn (mem : Nat → Option Byte) (n i : Nat) : Option Nat :=
  if i < n then (mem i).map BitVec.toNat else some 0

/-- The loop over the continuation bytes, at the byte `s[i]`. -/
def continuationIn (mem : Nat → Option Byte) (n : Nat) : Nat → Nat → Nat → Option (Option Nat × Nat)
  | 0, i, cp => some (some cp, i)
  | more + 1, i, cp => do
    let byte ← readIn mem n i
    if byte &&& 0xC0 ≠ 0x80 then some (none, i)
    else continuationIn mem n more (i + 1) (cp <<< 6 ||| (byte &&& 0x3F))

/-- `mod_utf8_codepoint`, with the position of the end. -/
def modUtf8CodepointIn (mem : Nat → Option Byte) (n : Nat) : Option (Option Nat × Nat) :=
  if n = 0 then some (none, 0)
  else do
    let byte ← (mem 0).map BitVec.toNat
    if byte = 0 then some (none, 0)
    else if byte < 0x80 then some (some byte, 1)
    else if byte ≥ 0xFE then some (none, 1)
    else if byte &&& 0x40 = 0 then some (none, 1)
    else
      let (mask, len) := lengthMask byte 8 0x80 0
      let (cp, i) ← continuationIn mem n (len - 1) 1 (byte &&& (mask - 1))
      some (cp.bind (checkCodepoint · len), i)

/-- What stands in front of the limit and of the first zero byte. Nothing is known of the memory
behind. -/
structure Holds (mem : Nat → Option Byte) (n : Nat) (s : List Byte) : Prop where
  bytes : ∀ i (h : i < s.length), mem i = some (s.get ⟨i, h⟩)
  nonzero : 0 ∉ s
  stop : s.length = n ∨ s.length < n ∧ mem s.length = some 0

/-- The end that the documentation gives. -/
def documentedEnd : List Byte → Nat
  | [] => 0
  | lead :: p => 1 + ((p.take (expected lead)).takeWhile isContinuation).length

variable {mem : Nat → Option Byte} {n : Nat} {s : List Byte} {b : Byte}

theorem Holds.read (h : Holds mem n s) {i : Nat} (hi : i ≤ s.length) :
    readIn mem n i = some (if i < n then deref (s.drop i) else 0) := by
  unfold readIn
  rcases hi.eq_or_lt with rfl | hlt
  · rcases h.stop with hn | ⟨hn, hzero⟩
    · rw [if_neg (by omega), if_neg (by omega)]
    · rw [if_pos hn, if_pos hn, hzero, drop_length]
      rfl
  · have hn : i < n := by rcases h.stop with hn | ⟨hn, -⟩ <;> omega
    rw [if_pos hn, if_pos hn, h.bytes i hlt, drop_eq_getElem_cons hlt]
    rfl

theorem continuationIn_eq (h : Holds mem n s) (more : Nat) {i : Nat} (hi : i ≤ s.length) (cp : Nat) :
    continuationIn mem n more i cp = some ((continuation n more i cp (s.drop i)).1,
      s.length - (continuation n more i cp (s.drop i)).2.length) := by
  induction more generalizing i cp with
  | zero => simp [continuationIn, continuation, Nat.sub_sub_self hi]
  | succ more ih =>
    rw [continuationIn, continuation, h.read hi, Option.bind_eq_bind, Option.bind_some]
    obtain ⟨byte, hbyte⟩ : ∃ byte, byte = if i < n then deref (s.drop i) else 0 := ⟨_, rfl⟩
    simp only [← hbyte]
    split
    · simp [Nat.sub_sub_self hi]
    · rename_i hcont
      have hlt : i < s.length := by
        by_contra hge
        simp [hbyte, drop_of_length_le (not_lt.mp hge), deref] at hcont
      rw [ih hlt, tail_drop]

theorem modUtf8CodepointIn_eq (h : Holds mem n s) :
    modUtf8CodepointIn mem n =
      some ((modUtf8Codepoint s n).1, s.length - (modUtf8Codepoint s n).2.length) := by
  by_cases hn : n = 0
  · simp [modUtf8CodepointIn, modUtf8Codepoint, hn]
  have hread := h.read (Nat.zero_le _)
  rw [readIn, if_pos (Nat.pos_of_ne_zero hn), if_pos (Nat.pos_of_ne_zero hn), drop_zero] at hread
  rw [modUtf8CodepointIn, modUtf8Codepoint, if_neg hn, hread, Option.bind_eq_bind, Option.bind_some]
  by_cases hzero : deref s = 0
  · simp [hzero]
  have hpos : 0 < s.length := by
    rw [length_pos_iff]
    rintro rfl
    exact hzero rfl
  have hone : s.length - s.tail.length = 1 := by rw [length_tail]; omega
  have hcont := fun more cp => @continuationIn_eq mem n s h more 1 hpos cp
  simp only [drop_one] at hcont
  simp only [hn, hzero, or_self, if_false, hcont]
  split_ifs
  · rw [hone]
  · rw [hone]
  · rw [hone]
  · rfl

theorem continuation_end {more i cp : Nat} {p : List Byte} (hp : i + p.length ≤ n) :
    (continuation n more i cp p).2 = p.drop ((p.take more).takeWhile isContinuation).length := by
  induction more generalizing i cp p with
  | zero => simp [continuation]
  | succ more ih =>
    cases p with
    | nil => simp [continuation, deref]
    | cons b p =>
      rw [length_cons] at hp
      simp only [continuation, if_pos (show i < n by omega), deref, headD_cons, ne_eq,
        continuation_mark, tail_cons, take_succ_cons, takeWhile_cons]
      split
      · simp
      · rename_i hcont
        rw [if_pos (not_not.mp hcont), length_cons, drop_succ_cons]
        exact ih (by omega)

theorem Holds.end_eq (h : Holds mem n s) :
    s.length - (modUtf8Codepoint s n).2.length = documentedEnd s := by
  cases s with
  | nil => simp [modUtf8Codepoint, deref, documentedEnd]
  | cons b p =>
    have hlen : p.length + 1 ≤ n := by
      have := h.stop
      rw [length_cons] at this
      omega
    have hb : b ≠ 0 := fun hb => h.nonzero (hb ▸ mem_cons_self)
    rw [modUtf8Codepoint_cons hb (by omega), documentedEnd]
    split
    · rename_i hzero
      simp [hzero]
    · have hfront := takeWhile_prefix isContinuation (l := take (expected b) p)
      have hle := hfront.length_le.trans (length_take_le' (expected b) p)
      rw [continuation_end (by omega), length_drop, length_cons]
      omega

theorem continuation_some {more i cp v : Nat} {p q : List Byte}
    (h : continuation n more i cp p = (some v, q)) :
    ∃ cs, p = cs ++ q ∧ cs.length = more ∧ (∀ b ∈ cs, isContinuation b = true) ∧ v = value cp cs := by
  induction more generalizing i cp p with
  | zero =>
    cases h
    exact ⟨[], rfl, rfl, by simp, rfl⟩
  | succ more ih =>
    rw [continuation] at h
    split_ifs at h with hi hcont hcont
    · cases h
    · cases p with
      | nil => exact absurd hcont (by decide)
      | cons b p =>
        have hmark : b.toNat &&& 0xC0 = 0x80 := not_not.mp hcont
        simp only [deref, headD_cons, low_bits, add_bits, tail_cons] at h
        obtain ⟨cs, rfl, hlen, hall, rfl⟩ := ih h
        refine ⟨b :: cs, rfl, by rw [length_cons, hlen], ?_, rfl⟩
        exact forall_mem_cons.mpr ⟨(continuation_mark b).mp hmark, hall⟩
    · cases h
    · exact absurd hcont (by decide)

theorem checkCodepoint_some {cp len c : Nat} (h : checkCodepoint cp len = some c) :
    c = cp ∧ ValidCodepoint cp ∧ (minCp len ≤ cp ∨ cp = 0 ∧ len = 2) := by
  unfold checkCodepoint at h
  split_ifs at h with hrange hassigned hscalar hlong
  obtain ⟨hgap, hplane⟩ := not_or.mp hassigned
  refine ⟨(Option.some.inj h).symm, ⟨not_lt.mp hrange, hgap, hplane, hscalar⟩, ?_⟩
  rcases not_and_or.mp hlong with hle | hzero
  · exact .inl (not_lt.mp hle)
  · exact .inr (not_not.mp hzero)

theorem toNat_continuation (h : isContinuation b = true) : 0x80 ≤ b.toNat ∧ b.toNat < 0xC0 := by
  simpa [isContinuation, BitVec.le_def, BitVec.lt_def] using h

/-- The bits that a first byte carries stand above its mark. -/
theorem lead_bits : ∀ b : Byte, (expected b = 1 → b.toNat = 0xC0 + b.toNat % 2 ^ 5) ∧
    (expected b = 2 → b.toNat = 0xE0 + b.toNat % 2 ^ 4) ∧
    (expected b = 3 → b.toNat = 0xF0 + b.toNat % 2 ^ 3) ∧ expected b ≤ 5 := by
  decide +kernel

theorem eq_ofNat {x : Nat} (h : b.toNat = x) : BitVec.ofNat 8 x = b := by
  rw [← h, BitVec.ofNat_toNat, BitVec.setWidth_eq]

/-- A sequence whose code point needs its length is the encoding of it. -/
theorem encode_value {cs : List Byte} {v : Nat} (h : Sequence b cs v)
    (hrange : v ≤ 0x10FFFF) : encode v = b :: cs := by
  obtain ⟨hpos, hlen, hcs, hv, hlong⟩ := h
  obtain ⟨htwo, hthree, hfour, hfive⟩ := lead_bits b
  generalize expected b = k at *
  have hk : k = 1 ∨ k = 2 ∨ k = 3 := by
    rcases (by omega : k = 4 ∨ k = 5 ∨ k ≤ 3) with rfl | rfl | hk
    · simp [minCp] at hlong
      omega
    · simp [minCp] at hlong
      omega
    · omega
  unfold encode
  rcases hk with rfl | rfl | rfl
  · obtain ⟨c, rfl⟩ := length_eq_one_iff.mp hlen
    have hc := toNat_continuation (hcs c (by simp))
    have hb := htwo rfl
    simp [minCp, value] at hlong hv
    by_cases hzero : v = 0
    · rw [if_pos hzero, ← @eq_ofNat b 0xC0 (by omega), ← @eq_ofNat c 0x80 (by omega)]
      rfl
    · rw [if_neg hzero, if_neg (by omega), if_pos (by omega), @eq_ofNat b _ (by omega),
        @eq_ofNat c _ (by omega)]
  · obtain ⟨c, d, rfl⟩ := length_eq_two.mp hlen
    have hc := toNat_continuation (hcs c (by simp))
    have hd := toNat_continuation (hcs d (by simp))
    have hb := hthree rfl
    simp [minCp, value] at hlong hv
    rw [if_neg (by omega), if_neg (by omega), if_neg (by omega), if_pos (by omega),
      @eq_ofNat b _ (by omega), @eq_ofNat c _ (by omega), @eq_ofNat d _ (by omega)]
  · obtain ⟨c, d, e, rfl⟩ := length_eq_three.mp hlen
    have hc := toNat_continuation (hcs c (by simp))
    have hd := toNat_continuation (hcs d (by simp))
    have he := toNat_continuation (hcs e (by simp))
    have hb := hfour rfl
    simp [minCp, value] at hlong hv
    rw [if_neg (by omega), if_neg (by omega), if_neg (by omega), if_neg (by omega),
      @eq_ofNat b _ (by omega), @eq_ofNat c _ (by omega), @eq_ofNat d _ (by omega), @eq_ofNat e _ (by omega)]

theorem Holds.accepted (h : Holds mem n s) {c : Nat} (hc : (modUtf8Codepoint s n).1 = some c) :
    ValidCodepoint c ∧ encode c <+: s := by
  cases s with
  | nil => simp [modUtf8Codepoint, deref] at hc
  | cons b p =>
    have hb : b ≠ 0 := fun hb => h.nonzero (hb ▸ mem_cons_self)
    have hn : n ≠ 0 := by
      rintro rfl
      simp [modUtf8Codepoint] at hc
    rw [modUtf8Codepoint_cons hb hn] at hc
    split_ifs at hc with hpos hone
    · -- a byte of its own
      obtain rfl := Option.some.inj hc
      have hzero : b.toNat ≠ 0 := fun h => hb (BitVec.eq_of_toNat_eq h)
      refine ⟨⟨by omega, by omega, fun h => ?_, by omega⟩, ?_⟩
      · have := @Nat.and_le_left b.toNat 0xFFFE
        omega
      · rw [encode, if_neg hzero, if_pos hone, eq_ofNat rfl]
        exact prefix_append [b] p
    · obtain ⟨v, hv, hcheck⟩ := Option.bind_eq_some_iff.mp hc
      obtain ⟨cs, hp, hlen, hcs, hvalue⟩ := continuation_some (Prod.ext hv rfl)
      obtain ⟨rfl, hvalid, hlong⟩ := checkCodepoint_some hcheck
      rw [encode_value ⟨hpos, hlen, hcs, hvalue.symm, hlong⟩ hvalid.range, hp]
      exact ⟨hvalid, prefix_append (b :: cs) _⟩

/-- **Reading one code point.** Whatever the memory holds behind the limit and behind the first zero
byte, and whether it can be read or not, the function returns. The end is the documented one, and a
code point is returned exactly when its encoding stands in front. -/
theorem mod_utf8_codepoint_right (h : Holds mem n s) :
    ∃ cp, modUtf8CodepointIn mem n = some (cp, documentedEnd s) ∧
      ∀ c, cp = some c ↔ ValidCodepoint c ∧ encode c <+: s := by
  refine ⟨_, h.end_eq ▸ modUtf8CodepointIn_eq h, fun c => ⟨h.accepted, ?_⟩⟩
  rintro ⟨hvalid, p, rfl⟩
  have hlen : (encode c).length ≤ n := by
    have := h.stop
    rw [length_append] at this
    omega
  rw [modUtf8Codepoint_encode hvalid hlen]

/-- The euro sign, and memory that ends with the zero byte behind it. -/
theorem mod_utf8_codepoint_euro :
    ∃ cp, modUtf8CodepointIn (fun i => [0xE2#8, 0x82, 0xAC, 0][i]?) 6 = some (cp, 3) ∧
      (cp = some 0x20AC ↔ ValidCodepoint 0x20AC ∧ encode 0x20AC <+: [0xE2, 0x82, 0xAC]) := by
  have h : Holds (fun i => [0xE2#8, 0x82, 0xAC, 0][i]?) 6 [0xE2, 0x82, 0xAC] :=
    ⟨by decide, by decide, .inr (by decide)⟩
  obtain ⟨cp, hcp, hiff⟩ := mod_utf8_codepoint_right h
  exact ⟨cp, hcp, hiff _⟩

end TcgArm.Unicode
