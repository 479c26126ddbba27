import Mathlib.Data.Nat.Bitwise
import Mathlib.Tactic.IntervalCases

/-! Modified UTF-8 as `util/unicode.c` reads it. A string is the list of its bytes without the final
zero, so reading behind its end reads a zero byte. `encode` is the encoding itself: UTF-8, but for
U+0000, which is `C0 80`. The decoder gives every valid code point back from its encoding and stops
behind it. -/

namespace TcgArm.Unicode

open List Nat
open BitVec (ofNat)

abbrev Byte := BitVec 8

/-- The byte that `*p` reads; the terminator where the string has ended. -/
def deref (p : List Byte) : Nat := (p.headD 0).toNat

/-- `for (mask = 0x80; byte & mask; mask >>= 1) len++`; eight turns bring the mask to zero. -/
def lengthMask (byte : Nat) : Nat → Nat → Nat → Nat × Nat
  | 0, mask, len => (mask, len)
  | turns + 1, mask, len =>
    if byte &&& mask ≠ 0 then lengthMask byte turns (mask >>> 1) (len + 1) else (mask, len)

/-- The loop over the continuation bytes: `more` of them are still expected, `i` have been read. -/
def continuation (n : Nat) : Nat → Nat → Nat → List Byte → Option Nat × List Byte
  | 0, _, cp, p => (some cp, p)
  | more + 1, i, cp, p =>
    let byte := if i < n then deref p else 0
    if byte &&& 0xC0 ≠ 0x80 then (none, p)
    else continuation n more (i + 1) (cp <<< 6 ||| (byte &&& 0x3F)) p.tail

def minCp (len : Nat) : Nat := [0x80, 0x800, 0x10000, 0x200000, 0x4000000].getD (len - 2) 0

/-- The tests on a code point read from a well-formed sequence of `len` bytes. -/
def checkCodepoint (cp len : Nat) : Option Nat :=
  if cp > 0x10FFFF then none
  else if (cp ≥ 0xFDD0 ∧ cp ≤ 0xFDEF) ∨ cp &&& 0xFFFE = 0xFFFE then none
  else if cp ≥ 0xD800 ∧ cp ≤ 0xDFFF then none
  else if cp < minCp len ∧ ¬ (cp = 0 ∧ len = 2) then none
  else some cp

/-- `mod_utf8_codepoint`: the code point, `none` for -1, and the end of the sequence. -/
def modUtf8Codepoint (s : List Byte) (n : Nat) : Option Nat × List Byte :=
  if n = 0 ∨ deref s = 0 then (none, s)
  else
    let byte := deref s
    let p := s.tail
    if byte < 0x80 then (some byte, p)
    else if byte ≥ 0xFE then (none, p)
    else if byte &&& 0x40 = 0 then (none, p)
    else
      let (mask, len) := lengthMask byte 8 0x80 0
      let (cp, p) := continuation n (len - 1) 1 (byte &&& (mask - 1)) p
      (cp.bind (checkCodepoint · len), p)

/-- The modified UTF-8 encoding of a code point. -/
def encode (cp : Nat) : List Byte :=
  if cp = 0 then [0xC0, 0x80]
  else if cp < 0x80 then [BitVec.ofNat 8 cp]
  else if cp < 0x800 then [BitVec.ofNat 8 (0xC0 + cp / 64), BitVec.ofNat 8 (0x80 + cp % 64)]
  else if cp < 0x10000 then
    [BitVec.ofNat 8 (0xE0 + cp / 4096), BitVec.ofNat 8 (0x80 + cp / 64 % 64), BitVec.ofNat 8 (0x80 + cp % 64)]
  else
    [BitVec.ofNat 8 (0xF0 + cp / 262144), BitVec.ofNat 8 (0x80 + cp / 4096 % 64),
      BitVec.ofNat 8 (0x80 + cp / 64 % 64), BitVec.ofNat 8 (0x80 + cp % 64)]

theorem length_encode_le (cp : Nat) : (encode cp).length ≤ 4 := by
  unfold encode
  split_ifs <;> simp

/-- The code points a string may hold: in range, no surrogate, none of the noncharacters. -/
structure ValidCodepoint (cp : Nat) : Prop where
  range : cp ≤ 0x10FFFF
  assigned : ¬ (cp ≥ 0xFDD0 ∧ cp ≤ 0xFDEF)
  plane : cp &&& 0xFFFE ≠ 0xFFFE
  scalar : ¬ (cp ≥ 0xD800 ∧ cp ≤ 0xDFFF)

theorem checkCodepoint_valid {cp len : Nat} (hvalid : ValidCodepoint cp)
    (hlong : minCp len ≤ cp ∨ (cp = 0 ∧ len = 2)) : checkCodepoint cp len = some cp := by
  obtain ⟨hrange, hassigned, hplane, hscalar⟩ := hvalid
  have hshort : ¬ (cp < minCp len ∧ ¬ (cp = 0 ∧ len = 2)) := by
    rintro ⟨hlt, hne⟩
    rcases hlong with hle | hzero
    · omega
    · exact hne hzero
  rw [checkCodepoint, if_neg (by omega), if_neg (by tauto), if_neg hscalar, if_neg hshort]

theorem deref_ofNat {x : Nat} (hx : x < 256) (p : List Byte) : deref (ofNat 8 x :: p) = x := by
  simp [deref, mod_eq_of_lt hx]

variable {n cp : Nat} {b : Byte}

/-- How many continuation bytes the documentation expects behind a first byte. -/
def expected (lead : Byte) : Nat :=
  if lead < 0xC0 then 0 else if lead < 0xE0 then 1 else if lead < 0xF0 then 2
  else if lead < 0xF8 then 3 else if lead < 0xFC then 4 else if lead < 0xFE then 5 else 0

def isContinuation (b : Byte) : Bool := 0x80 ≤ b ∧ b < 0xC0

/-- The code point of a first byte's bits and the continuation bytes. -/
def value (cp : Nat) (cs : List Byte) : Nat := cs.foldl (fun cp b => cp * 64 + b.toNat % 64) cp

theorem low_bits : ∀ b : Byte, b.toNat &&& 0x3F = b.toNat % 64 := by decide +kernel

/-- The bytes `b :: cs` are a sequence of more than one byte for `cp`, and `cp` needs them all. -/
structure Sequence (b : Byte) (cs : List Byte) (cp : Nat) : Prop where
  more : expected b ≠ 0
  length : cs.length = expected b
  marks : ∀ c ∈ cs, isContinuation c = true
  value : value (b.toNat % 2 ^ (6 - expected b)) cs = cp
  long : minCp (expected b + 1) ≤ cp ∨ cp = 0 ∧ expected b + 1 = 2

/-- What the first byte of a longer sequence says. -/
theorem lead_spec : ∀ b : Byte, 0x80 ≤ b.toNat → b.toNat < 0xFE →
    (b.toNat &&& 0x40 = 0 → expected b = 0) ∧ (b.toNat &&& 0x40 ≠ 0 → 0 < expected b ∧
      (lengthMask b.toNat 8 0x80 0).2 = expected b + 1 ∧
      b.toNat &&& ((lengthMask b.toNat 8 0x80 0).1 - 1) = b.toNat % 2 ^ (6 - expected b)) := by
  decide +kernel

theorem expected_eq_zero : ∀ b : Byte, b.toNat < 0x80 ∨ 0xFE ≤ b.toNat → expected b = 0 := by
  decide +kernel

/-- The result on a string with a first byte. -/
theorem modUtf8Codepoint_cons {p : List Byte} (hb : b ≠ 0) (hn : n ≠ 0) :
    modUtf8Codepoint (b :: p) n =
      if expected b = 0 then (if b.toNat < 0x80 then some b.toNat else none, p)
      else
        let r := continuation n (expected b) 1 (b.toNat % 2 ^ (6 - expected b)) p
        (r.1.bind (checkCodepoint · (expected b + 1)), r.2) := by
  have hzero : b.toNat ≠ 0 := fun h => hb (BitVec.eq_of_toNat_eq h)
  simp only [modUtf8Codepoint, deref, headD_cons, tail_cons, hn, hzero, or_self, if_false]
  by_cases hone : b.toNat < 0x80
  · simp only [hone, if_true, expected_eq_zero b (.inl hone)]
  by_cases htop : b.toNat ≥ 0xFE
  · simp only [hone, htop, if_true, if_false, expected_eq_zero b (.inr htop)]
  obtain ⟨hstray, hlead⟩ := lead_spec b (not_lt.mp hone) (not_le.mp htop)
  by_cases hbit : b.toNat &&& 0x40 = 0
  · simp only [hone, htop, hbit, if_true, if_false, hstray hbit]
  · obtain ⟨hpos, hlen, hlow⟩ := hlead hbit
    simp only [hone, htop, hbit, if_false, hpos.ne', hlen, hlow, Nat.add_sub_cancel]

theorem continuation_mark : ∀ b : Byte, b.toNat &&& 0xC0 = 0x80 ↔ isContinuation b = true := by
  decide +kernel

theorem add_bits (cp x : Nat) : cp <<< 6 ||| x % 64 = cp * 64 + x % 64 := by
  rw [← shiftLeft_add_eq_or_of_lt (mod_lt x (by decide)), shiftLeft_eq]

theorem continuation_append {cs q : List Byte} (hcs : ∀ c ∈ cs, isContinuation c = true) {i cp : Nat}
    (hn : i + cs.length ≤ n) : continuation n cs.length i cp (cs ++ q) = (some (value cp cs), q) := by
  induction cs generalizing i cp with
  | nil => rfl
  | cons c cs ih =>
    obtain ⟨hc, hcs⟩ := forall_mem_cons.mp hcs
    rw [length_cons] at hn
    simp only [length_cons, cons_append, continuation, if_pos (show i < n by omega), deref, headD_cons,
      (continuation_mark c).mpr hc, low_bits, add_bits, ne_eq, not_true_eq_false, if_false, tail_cons]
    exact ih hcs (by omega)

theorem Sequence.decode {cs : List Byte} {cp : Nat} (h : Sequence b cs cp)
    (hvalid : ValidCodepoint cp) (hn : cs.length < n) (p : List Byte) :
    modUtf8Codepoint (b :: cs ++ p) n = (some cp, p) := by
  have hb : b ≠ 0 := by
    rintro rfl
    exact h.more rfl
  have hcont := @continuation_append n cs p h.marks 1 (b.toNat % 2 ^ (6 - expected b)) (by omega)
  rw [h.length, h.value] at hcont
  rw [cons_append, modUtf8Codepoint_cons hb (by omega), if_neg h.more]
  simp only [hcont, Option.bind_some, checkCodepoint_valid hvalid h.long]

theorem continuation_byte : ∀ x : Fin 64, isContinuation (ofNat 8 (0x80 + x.val)) = true := by
  decide

theorem lead_two : ∀ x : Fin 32, expected (ofNat 8 (0xC0 + x.val)) = 1 := by decide

theorem lead_three : ∀ x : Fin 16, expected (ofNat 8 (0xE0 + x.val)) = 2 := by decide

theorem lead_four : ∀ x : Fin 8, expected (ofNat 8 (0xF0 + x.val)) = 3 := by decide

/-- The encoding of a code point is one byte or a sequence for it. -/
theorem encode_cases (hrange : cp ≤ 0x10FFFF) :
    (cp ≠ 0 ∧ cp < 0x80 ∧ encode cp = [ofNat 8 cp]) ∨
      ∃ b cs, encode cp = b :: cs ∧ Sequence b cs cp := by
  by_cases hzero : cp = 0
  · subst hzero
    exact .inr ⟨0xC0, [0x80], rfl, by decide, rfl, by decide, rfl, .inr ⟨rfl, rfl⟩⟩
  by_cases hone : cp < 0x80
  · exact .inl ⟨hzero, hone, by rw [encode, if_neg hzero, if_pos hone]⟩
  have hmark := continuation_byte ⟨cp % 64, by omega⟩
  have hmark1 := continuation_byte ⟨cp / 64 % 64, by omega⟩
  have hmark2 := continuation_byte ⟨cp / 4096 % 64, by omega⟩
  refine .inr ?_
  rw [encode, if_neg hzero, if_neg hone]
  split_ifs with htwo hthree
  · have hlead := lead_two ⟨cp / 64, by omega⟩
    refine ⟨_, _, rfl, ?_⟩
    constructor <;> simp [hlead, hmark, value, minCp] <;> omega
  · have hlead := lead_three ⟨cp / 4096, by omega⟩
    refine ⟨_, _, rfl, ?_⟩
    constructor <;> simp [hlead, hmark, hmark1, value, minCp] <;> omega
  · have hlead := lead_four ⟨cp / 262144, by omega⟩
    refine ⟨_, _, rfl, ?_⟩
    constructor <;> simp [hlead, hmark, hmark1, hmark2, value, minCp] <;> omega

/-- Decoding gives back the code point that was encoded and stops behind it. -/
theorem modUtf8Codepoint_encode (hvalid : ValidCodepoint cp) (hn : (encode cp).length ≤ n)
    (p : List Byte) : modUtf8Codepoint (encode cp ++ p) n = (some cp, p) := by
  rcases encode_cases hvalid.range with ⟨hzero, hone, heq⟩ | ⟨b, cs, heq, hseq⟩
  · rw [heq] at hn ⊢
    have hn : 1 ≤ n := hn
    have hderef := deref_ofNat (show cp < 256 by omega) p
    rw [singleton_append, modUtf8Codepoint]
    simp only [hderef, tail_cons]
    rw [if_neg (by omega), if_pos hone]
  · rw [heq] at hn ⊢
    exact hseq.decode hvalid hn p

theorem deref_encode (hrange : cp ≤ 0x10FFFF) (p : List Byte) : deref (encode cp ++ p) ≠ 0 := by
  unfold encode
  split_ifs <;> simp only [cons_append, nil_append] <;>
    first
    | (rw [deref_ofNat (by omega)]; omega)
    | simp [deref]

def encodeAll (cps : List Nat) : List Byte := cps.flatMap encode

end TcgArm.Unicode
