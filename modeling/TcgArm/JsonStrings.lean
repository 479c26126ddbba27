import TcgArm.JsonParse
import Mathlib.Data.List.Basic
import Mathlib.Data.List.TakeWhile

/-! What becomes of a string that is printed and read again. The escapes of one code point read back
as `reread`: the code point itself in the basic plane, nothing for U+0000, whose `\u0000` ends the C
string that is appended, and beyond the plane the two surrogates one by one. No byte that encodes
U+0000 or starts a sequence of four comes out of the reader. -/

namespace TcgArm.Json

open TcgArm.Unicode List Nat
open BitVec (ofNat toNat_ofNat)

def reread (cp : Nat) : List Byte :=
  if cp = 0 then []
  else if cp ≤ 0xFFFF then encode cp
  else
    encode (0xD800 + (cp - 0x10000) / 1024) ++ encode (0xDC00 + (cp - 0x10000) % 1024)

/-- A string of valid modified UTF-8. -/
def ValidString (s : List Byte) : Prop :=
  ∃ cps : List Nat, (∀ cp ∈ cps, ValidCodepoint cp) ∧ s = encodeAll cps

/-- A string of code points of the basic plane without U+0000. -/
def PlainString (s : List Byte) : Prop :=
  ∃ cps : List Nat, (∀ cp ∈ cps, ValidCodepoint cp ∧ cp ≠ 0 ∧ cp ≤ 0xFFFF) ∧ s = encodeAll cps

theorem lead_or_two : ∀ x : Fin 32, 0xC0 ||| x.val = 0xC0 + x.val := by decide

theorem lead_or_three : ∀ x : Fin 16, 0xE0 ||| x.val = 0xE0 + x.val := by decide

theorem tail_or : ∀ x : Fin 64, 0x80 ||| x.val = 0x80 + x.val := by decide

theorem and_mask {m k : Nat} (x : Nat) (hm : m = 2 ^ k - 1) : x &&& m = x % 2 ^ k := by
  rw [hm, and_two_pow_sub_one_eq_mod]

theorem wcharToUtf8_eq {wchar : Nat} (hne : wchar ≠ 0) (hlt : wchar < 0x10000) :
    wcharToUtf8 wchar = encode wchar := by
  have hlast : 0x80 ||| (wchar &&& 0x3F) = 0x80 + wchar % 64 := by
    rw [and_mask wchar (show 0x3F = 2 ^ 6 - 1 from rfl)]
    exact tail_or ⟨wchar % 64, by omega⟩
  rw [wcharToUtf8, encode, if_neg hne]
  by_cases hone : wchar < 0x80
  · rw [if_pos (by omega), if_pos hone, and_mask wchar (show 0x7F = 2 ^ 7 - 1 from rfl),
      mod_eq_of_lt (show wchar < 2 ^ 7 from hone)]
  rw [if_neg (by omega), if_neg hone, hlast]
  by_cases htwo : wchar < 0x800
  · have hfirst : 0xC0 ||| (wchar >>> 6 &&& 0x1F) = 0xC0 + wchar / 64 := by
      rw [and_mask _ (show 0x1F = 2 ^ 5 - 1 from rfl), shiftRight_eq_div_pow, mod_eq_of_lt (by omega)]
      exact lead_or_two ⟨wchar / 64, by omega⟩
    rw [if_pos (by omega), if_pos htwo, hfirst]
  · have hfirst : 0xE0 ||| (wchar >>> 12 &&& 0x0F) = 0xE0 + wchar / 4096 := by
      rw [and_mask _ (show 0x0F = 2 ^ 4 - 1 from rfl), shiftRight_eq_div_pow, mod_eq_of_lt (by omega)]
      exact lead_or_three ⟨wchar / 4096, by omega⟩
    have hmiddle : 0x80 ||| (wchar >>> 6 &&& 0x3F) = 0x80 + wchar / 64 % 64 := by
      rw [and_mask _ (show 0x3F = 2 ^ 6 - 1 from rfl), shiftRight_eq_div_pow]
      exact tail_or ⟨wchar / 64 % 64, by omega⟩
    rw [if_neg (by omega), if_neg htwo, if_pos hlt, hfirst, hmiddle]

variable {cp : Nat} {cps : List Nat} {s : List Byte} {n : Nat}

theorem encode_ne_zero (hrange : cp ≤ 0x10FFFF) {b : Byte} (hb : b ∈ encode cp) : b ≠ 0 := by
  have hofNat {x : Nat} (hlow : x ≠ 0) (hhigh : x < 256) : ofNat 8 x ≠ (0 : Byte) := by
    intro heq
    have := congrArg BitVec.toNat heq
    simp [mod_eq_of_lt hhigh] at this
    exact hlow this
  unfold encode at hb
  split_ifs at hb <;> simp only [mem_cons, not_mem_nil, or_false] at hb
  · rcases hb with rfl | rfl <;> decide
  · exact hb ▸ hofNat (by omega) (by omega)
  · rcases hb with rfl | rfl <;> exact hofNat (by omega) (by omega)
  · rcases hb with rfl | rfl | rfl <;> exact hofNat (by omega) (by omega)
  · rcases hb with rfl | rfl | rfl | rfl <;> exact hofNat (by omega) (by omega)

theorem cString_wcharToUtf8 {wchar : Nat} (hlt : wchar < 0x10000) :
    cString (wcharToUtf8 wchar) = if wchar = 0 then [] else encode wchar := by
  split_ifs with hzero
  · subst hzero
    rfl
  · rw [wcharToUtf8_eq hzero hlt, cString, takeWhile_eq_self_iff]
    intro b hb
    exact decide_eq_true (encode_ne_zero (by omega) hb)

theorem hexDigit_read : ∀ d : Fin 16,
    isHex (hexDigit d.val) = true ∧ hex2decimal (hexDigit d.val) = d.val := by decide

theorem nibbles (hn : n < 0x10000) :
    (n / 4096 % 16) <<< 12 ||| (n / 256 % 16) <<< 8 ||| (n / 16 % 16) <<< 4 ||| n % 16 = n := by
  have htwo : (n / 16 % 16) <<< 4 + n % 16 < 2 ^ 8 := by rw [shiftLeft_eq]; omega
  have hthree : (n / 256 % 16) <<< 8 + ((n / 16 % 16) <<< 4 + n % 16) < 2 ^ 12 := by
    rw [shiftLeft_eq]
    omega
  rw [Nat.or_assoc, Nat.or_assoc, ← shiftLeft_add_eq_or_of_lt (show n % 16 < 2 ^ 4 by omega),
    ← shiftLeft_add_eq_or_of_lt htwo, ← shiftLeft_add_eq_or_of_lt hthree]
  simp only [shiftLeft_eq]
  omega

theorem unescape_unicode (hn : n < 0x10000) (rest : List Byte) :
    unescape quote (unicodeEscape n ++ rest) =
      ((if n = 0 then [] else encode n) ++ ·) <$> unescape quote rest := by
  have h0 := hexDigit_read ⟨n / 4096 % 16, by omega⟩
  have h1 := hexDigit_read ⟨n / 256 % 16, by omega⟩
  have h2 := hexDigit_read ⟨n / 16 % 16, by omega⟩
  have h3 := hexDigit_read ⟨n % 16, by omega⟩
  simp only at h0 h1 h2 h3
  simp only [unicodeEscape, cons_append, nil_append]
  rw [unescape, if_neg (by decide), if_pos rfl]
  simp only [↓reduceIte, h0, h1, h2, h3, Bool.and_self, nibbles hn, cString_wcharToUtf8 hn]

theorem unescape_simple {e b : Byte} (hu : e ≠ byte 'u') (he : simpleEscape e = some b) (rest : List Byte) :
    unescape quote (backslash :: e :: rest) = (b :: ·) <$> unescape quote rest := by
  rw [unescape.eq_def]
  dsimp only
  rw [if_neg (by decide), if_pos rfl, if_neg hu, he]

theorem unescape_plain {c : Byte} (hzero : c ≠ 0) (hquote : c ≠ quote) (hslash : c ≠ backslash)
    (rest : List Byte) : unescape quote (c :: rest) = (c :: ·) <$> unescape quote rest := by
  rw [unescape.eq_def]
  dsimp only
  rw [if_neg (by tauto), if_neg hslash]

/-- The cases of the printer's `switch`. -/
inductive EscapeCase (cp : Nat) : Prop where
  | simple (e : Byte) (hne : cp ≠ 0) (hlt : cp < 0x80)
      (hescape : escape (some cp) = [backslash, e]) (hu : e ≠ byte 'u')
      (hread : simpleEscape e = some (BitVec.ofNat 8 cp))
      (hmem : e ∈ ascii ['b', 'f', 'n', 'r', 't', '/', '\x5c', '\x27', '\x22'])
  | pair (hlow : 0xFFFF < cp)
      (hescape : escape (some cp) = unicodeEscape (0xD800 + (cp - 0x10000) / 1024) ++
        unicodeEscape (0xDC00 + (cp - 0x10000) % 1024))
  | unicode (hle : cp ≤ 0xFFFF) (hescape : escape (some cp) = unicodeEscape cp)
  | plain (hlow : 0x20 ≤ cp) (hhigh : cp < 0x7F) (hquote : cp ≠ 0x22) (hslash : cp ≠ 0x5c)
      (hescape : escape (some cp) = [BitVec.ofNat 8 cp])

theorem escape_cases (cp : Nat) : EscapeCase cp := by
  have hsimple (n : Nat) (e : Byte) (h : n ≠ 0 ∧ n < 0x80 ∧ escape (some n) = [backslash, e] ∧
      e ≠ byte 'u' ∧ simpleEscape e = some (ofNat 8 n) ∧
      e ∈ ascii ['b', 'f', 'n', 'r', 't', '/', '\x5c', '\x27', '\x22']) (hcp : cp = n) : EscapeCase cp := by
    obtain ⟨hne, hlt, hescape, hu, hread, hmem⟩ := hcp ▸ h
    exact .simple e hne hlt hescape hu hread hmem
  by_cases h1 : cp = 0x22
  · exact hsimple _ quote (by decide) h1
  by_cases h2 : cp = 0x5c
  · exact hsimple _ backslash (by decide) h2
  by_cases h3 : cp = 0x08
  · exact hsimple _ (byte 'b') (by decide) h3
  by_cases h4 : cp = 0x0c
  · exact hsimple _ (byte 'f') (by decide) h4
  by_cases h5 : cp = 0x0a
  · exact hsimple _ (byte 'n') (by decide) h5
  by_cases h6 : cp = 0x0d
  · exact hsimple _ (byte 'r') (by decide) h6
  by_cases h7 : cp = 0x09
  · exact hsimple _ (byte 't') (by decide) h7
  -- the default branch, which the three remaining tests split
  have hdefault : escape (some cp) =
      if cp > 0xFFFF then
        unicodeEscape (0xD800 + (cp - 0x10000) >>> 10) ++ unicodeEscape (0xDC00 + ((cp - 0x10000) &&& 0x3FF))
      else if cp < 0x20 ∨ cp ≥ 0x7F then unicodeEscape cp else [ofNat 8 cp] := by
    simp only [escape, Option.some.injEq, h1, h2, h3, h4, h5, h6, h7, if_false, Option.getD_some]
  by_cases hpair : cp > 0xFFFF
  · refine .pair hpair ?_
    rw [hdefault, if_pos hpair, and_mask _ (show 0x3FF = 2 ^ 10 - 1 from rfl), shiftRight_eq_div_pow]
    rfl
  by_cases hunicode : cp < 0x20 ∨ cp ≥ 0x7F
  · refine .unicode (by omega) ?_
    rw [hdefault, if_neg hpair, if_pos hunicode]
  · refine .plain (by omega) (by omega) h1 h2 ?_
    rw [hdefault, if_neg hpair, if_neg hunicode]

theorem encode_single (hne : cp ≠ 0) (hlt : cp < 0x80) : encode cp = [ofNat 8 cp] := by
  rw [encode, if_neg hne, if_pos hlt]

theorem ofNat_ne {x y : Nat} (hx : x < 256) (hy : y < 256) (hne : x ≠ y) :
    ofNat 8 x ≠ ofNat 8 y := by
  intro heq
  have := congrArg BitVec.toNat heq
  simp only [toNat_ofNat, mod_eq_of_lt (show x < 2 ^ 8 from hx),
    mod_eq_of_lt (show y < 2 ^ 8 from hy)] at this
  exact hne this

theorem quote_eq : quote = ofNat 8 0x22 := by decide

theorem backslash_eq : backslash = ofNat 8 0x5c := by decide

theorem reread_beyond (hlow : 0xFFFF < cp) :
    reread cp = encode (0xD800 + (cp - 0x10000) / 1024) ++ encode (0xDC00 + (cp - 0x10000) % 1024) := by
  rw [reread, if_neg (by omega), if_neg (by omega)]

theorem unescape_pair {a b : Nat} (ha : a < 0x10000) (hb : b < 0x10000) (hane : a ≠ 0)
    (hbne : b ≠ 0) (rest : List Byte) :
    unescape quote (unicodeEscape a ++ unicodeEscape b ++ rest) =
      (encode a ++ encode b ++ ·) <$> unescape quote rest := by
  rw [append_assoc, unescape_unicode ha, unescape_unicode hb, if_neg hane, if_neg hbne]
  cases unescape quote rest with
  | none => rfl
  | some s => simp

/-- The escape of a code point reads back as `reread`. -/
theorem unescape_escape (hrange : cp ≤ 0x10FFFF) (rest : List Byte) :
    unescape quote (escape (some cp) ++ rest) = (reread cp ++ ·) <$> unescape quote rest := by
  cases escape_cases cp with
  | simple e hne hlt hescape hu hread hmem =>
    rw [hescape, cons_append, singleton_append, unescape_simple hu hread, reread,
      if_neg hne, if_pos (by omega), encode_single hne hlt]
    simp only [singleton_append]
  | pair hlow hescape =>
    rw [hescape, reread_beyond hlow]
    exact unescape_pair (by omega) (by omega) (by omega) (by omega) rest
  | unicode hle hescape =>
    rw [hescape, unescape_unicode (by omega), reread]
    by_cases hzero : cp = 0
    · rw [if_pos hzero, if_pos hzero]
    · rw [if_neg hzero, if_neg hzero, if_pos hle]
  | plain hlow hhigh hquote hslash hescape =>
    have hne (y : Nat) (hy : y < 256) (h : cp ≠ y) : ofNat 8 cp ≠ ofNat 8 y :=
      ofNat_ne (by omega) hy h
    rw [hescape, singleton_append,
      unescape_plain (hne 0 (by omega) (by omega))
        (quote_eq ▸ hne 0x22 (by omega) hquote) (backslash_eq ▸ hne 0x5c (by omega) hslash),
      reread, if_neg (by omega), if_pos (by omega),
      encode_single (by omega) (by omega)]
    simp only [singleton_append]

theorem encode_length_pos (cp : Nat) : 0 < (encode cp).length := by
  unfold encode
  split_ifs <;> simp

theorem length_le_encodeAll (cps : List Nat) : cps.length ≤ (encodeAll cps).length := by
  induction cps with
  | nil => exact Nat.le_refl _
  | cons cp cps ih =>
    have := encode_length_pos cp
    simp only [encodeAll, flatMap_cons, length_cons, length_append] at ih ⊢
    omega

section

variable (hvalid : ∀ cp ∈ cps, ValidCodepoint cp)
include hvalid

/-- The printer's loop over a valid string prints the escape of each of its code points. -/
theorem escapeLoop_encodeAll :
    ∀ {turns : Nat}, cps.length ≤ turns →
      escapeLoop turns (encodeAll cps) = cps.flatMap fun cp => escape (some cp) := by
  induction cps with
  | nil =>
    intro turns _
    cases turns <;> rfl
  | cons cp cps ih =>
    intro turns hturns
    obtain ⟨hcp, hcps⟩ := forall_mem_cons.mp hvalid
    obtain ⟨turns, rfl⟩ : ∃ more, turns = more + 1 := Nat.exists_eq_add_of_le' (by
      exact Nat.le_trans (Nat.le_add_left 1 _) hturns)
    rw [encodeAll, flatMap_cons, escapeLoop, if_neg (deref_encode hcp.range _),
      modUtf8Codepoint_encode hcp ((length_encode_le _).trans (by decide))]
    dsimp only
    rw [flatMap_cons, ← ih hcps (by simpa using hturns), encodeAll]

theorem stringToJson_encodeAll :
    stringToJson (encodeAll cps) = quote :: ((cps.flatMap fun cp => escape (some cp)) ++ [quote]) := by
  rw [stringToJson, escapeLoop_encodeAll hvalid (length_le_encodeAll cps)]

theorem unescape_all :
    unescape quote ((cps.flatMap fun cp => escape (some cp)) ++ [quote]) = some (cps.flatMap reread) := by
  induction cps with
  | nil => rfl
  | cons cp cps ih =>
    obtain ⟨hcp, hcps⟩ := forall_mem_cons.mp hvalid
    rw [flatMap_cons, append_assoc, unescape_escape hcp.range, ih hcps, flatMap_cons]
    rfl

def rereadString (s : List Byte) : List Byte := (qstringFromEscapedStr (stringToJson s)).getD []

theorem qstringFromEscapedStr_encodeAll :
    qstringFromEscapedStr (stringToJson (encodeAll cps)) = some (cps.flatMap reread) := by
  rw [stringToJson_encodeAll hvalid, qstringFromEscapedStr]
  exact unescape_all hvalid

theorem rereadString_encodeAll :
    rereadString (encodeAll cps) = cps.flatMap reread := by
  rw [rereadString, qstringFromEscapedStr_encodeAll hvalid, Option.getD_some]

end

/-- The text of a valid string is read back as `rereadString`. -/
theorem qstringFromEscapedStr_valid (hvalid : ValidString s) :
    qstringFromEscapedStr (stringToJson s) = some (rereadString s) := by
  obtain ⟨cps, hcps, rfl⟩ := hvalid
  rw [qstringFromEscapedStr_encodeAll hcps, rereadString_encodeAll hcps]

/-- A byte that neither encodes U+0000 nor starts a sequence of four bytes. -/
def CleanByte (b : Byte) : Prop := b ≠ 0xC0 ∧ b.toNat < 0xF0

theorem encode_clean (hne : cp ≠ 0) (hle : cp ≤ 0xFFFF) {b : Byte} (hb : b ∈ encode cp) : CleanByte b := by
  have hofNat {x : Nat} (h1 : x ≠ 0xC0) (h2 : x < 0xF0) : CleanByte (ofNat 8 x) := by
    refine ⟨@ofNat_ne x 0xC0 (by omega) (by omega) h1, ?_⟩
    rw [toNat_ofNat, mod_eq_of_lt (by omega)]
    exact h2
  rw [encode, if_neg hne] at hb
  split_ifs at hb <;> simp only [mem_cons, not_mem_nil, or_false] at hb
  · exact hb ▸ hofNat (by omega) (by omega)
  · rcases hb with rfl | rfl <;> exact hofNat (by omega) (by omega)
  · rcases hb with rfl | rfl | rfl <;> exact hofNat (by omega) (by omega)
  · omega

theorem reread_clean (hrange : cp ≤ 0x10FFFF) {b : Byte} (hb : b ∈ reread cp) : CleanByte b := by
  unfold reread at hb
  split_ifs at hb with hzero hle
  · exact absurd hb not_mem_nil
  · exact encode_clean hzero hle hb
  · rcases mem_append.mp hb with hb | hb
    · exact encode_clean (by omega) (by omega) hb
    · exact encode_clean (by omega) (by omega) hb

theorem rereadString_clean (hvalid : ValidString s) {b : Byte} (hb : b ∈ rereadString s) : CleanByte b := by
  obtain ⟨cps, hcps, rfl⟩ := hvalid
  rw [rereadString_encodeAll hcps, mem_flatMap] at hb
  obtain ⟨cp, hcp, hb⟩ := hb
  exact reread_clean (hcps cp hcp).range hb

theorem plain_of_clean (hrange : cp ≤ 0x10FFFF) (hclean : ∀ b ∈ encode cp, CleanByte b) :
    cp ≠ 0 ∧ cp ≤ 0xFFFF := by
  constructor
  · rintro rfl
    exact (hclean 0xC0 (by decide)).1 rfl
  · by_contra hlarge
    have hmem : ofNat 8 (0xF0 + cp / 262144) ∈ encode cp := by
      rw [encode, if_neg (by omega), if_neg (by omega), if_neg (by omega), if_neg (by omega)]
      exact mem_cons_self
    have hlow := (hclean _ hmem).2
    rw [toNat_ofNat, mod_eq_of_lt (by omega)] at hlow
    omega

theorem plainString_of_clean (hvalid : ValidString s) (hclean : ∀ b ∈ s, CleanByte b) : PlainString s := by
  obtain ⟨cps, hcps, rfl⟩ := hvalid
  refine ⟨cps, fun cp hcp => ⟨hcps cp hcp, ?_⟩, rfl⟩
  refine plain_of_clean (hcps cp hcp).range fun b hb => hclean b ?_
  exact mem_flatMap.mpr ⟨cp, hcp, hb⟩

theorem rereadString_plain (hplain : PlainString s) : rereadString s = s := by
  obtain ⟨cps, hcps, rfl⟩ := hplain
  rw [rereadString_encodeAll fun cp hcp => (hcps cp hcp).1, encodeAll]
  refine flatMap_congr fun cp hcp => ?_
  obtain ⟨_, hne, hle⟩ := hcps cp hcp
  rw [reread, if_neg hne, if_pos hle]

theorem rereadString_eq_iff (hvalid : ValidString s) : rereadString s = s ↔ PlainString s := by
  refine ⟨fun heq => plainString_of_clean hvalid fun b hb => ?_, rereadString_plain⟩
  exact rereadString_clean hvalid (heq.symm ▸ hb)

end TcgArm.Json
