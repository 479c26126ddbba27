import TcgArm.JsonStream
import Mathlib.Data.List.Perm.Subperm
import Mathlib.Data.List.Nodup

/-! Printing a value and reading the text back. The parser rebuilds every value within the limits of
the reader, with each string and key as read from its escapes. The value is the old one exactly when
all strings and keys are of code points of the basic plane other than U+0000: beyond it the two
surrogates come back as two characters of three bytes, and U+0000 is dropped. -/

namespace TcgArm.Json

open TcgArm.Unicode List Option QObject

variable {δ : Type}

mutual
def rereadObject : QObject δ → QObject δ
  | .str s => .str (rereadString s)
  | .list items => .list (rereadItems items)
  | .dict entries => .dict (rereadEntries [] entries)
  | .null => .null
  | .bool b => .bool b
  | .int n => .int n
  | .float d => .float d

def rereadItems : List (QObject δ) → List (QObject δ)
  | [] => []
  | x :: items => rereadObject x :: rereadItems items

def rereadEntries (dict : QDict δ) : QDict δ → QDict δ
  | [] => dict
  | (k, v) :: entries =>
    rereadEntries (qdictPutObj dict (rereadString k) (rereadObject v)) entries
end

variable {t value : QObject δ}

theorem tokensOf_head (hwf : t.WellFormed) : ∃ token tokens,
    tokensOf t = token :: tokens ∧ token.type ≠ .rsquare ∧ token.type ≠ .rcurly := by
  cases t with
  | null | bool | int | str | list | dict => exact ⟨_, _, by rw [tokensOf], by simp, by simp⟩
  | float d => exact absurd hwf (by rw [QObject.WellFormed]; exact id)

theorem separatorTokens_succ (count : Nat) : separatorTokens (count + 1) = [⟨.comma, [comma]⟩] := by
  rw [separatorTokens, if_pos (Nat.succ_ne_zero count)]

variable {items : List (QObject δ)} {entries : QDict δ} {dict : QDict δ} {key : List Byte}

theorem length_le_tokensOfItems (hwf : ∀ x ∈ items, x.WellFormed) (count : Nat) :
    items.length ≤ (tokensOfItems count items).length := by
  induction items generalizing count with
  | nil => exact Nat.zero_le _
  | cons x items ih =>
    obtain ⟨hx, hitems⟩ := forall_mem_cons.mp hwf
    obtain ⟨token, tokens, heq, -⟩ := tokensOf_head hx
    have := ih hitems (count + 1)
    rw [tokensOfItems, heq]
    simp only [length_append, length_cons]
    omega

theorem length_le_tokensOfEntries (entries : QDict δ) (count : Nat) :
    entries.length ≤ (tokensOfEntries count entries).length := by
  induction entries generalizing count with
  | nil => exact Nat.zero_le _
  | cons e entries ih =>
    have := ih (count + 1)
    rw [tokensOfEntries]
    simp only [length_append, length_cons]
    omega

section Rules

variable {parse : List Token → Option (QObject δ × List Token)}

def Reads (parse : List Token → Option (QObject δ × List Token)) (t : QObject δ) : Prop :=
  ∀ rest, parse (tokensOf t ++ rest) = some (rereadObject t, rest)

theorem parseItems_reads {items : List (QObject δ)} (hitems : ∀ x ∈ items, Reads parse x)
    (rest : List Token) {x : QObject δ} (hx : Reads parse x) {turns count : Nat}
    (hturns : items.length < turns) (list : List (QObject δ)) :
    parseItems parse turns list
        (tokensOf x ++ (tokensOfItems (count + 1) items ++ ⟨.rsquare, [rsquare]⟩ :: rest)) =
      some (list ++ rereadItems (x :: items), rest) := by
  induction items generalizing x turns count list with
  | nil =>
    obtain ⟨turns, rfl⟩ := Nat.exists_eq_add_of_lt hturns
    rw [parseItems, hx, tokensOfItems]
    simp [rereadItems]
  | cons y items ih =>
    obtain ⟨hy, hitems⟩ := forall_mem_cons.mp hitems
    obtain ⟨turns, rfl⟩ : ∃ more, turns = more + 1 := ⟨turns - 1, by omega⟩
    rw [length_cons] at hturns
    rw [parseItems, hx, tokensOfItems, separatorTokens_succ]
    simp only [bind_eq_bind, bind_some, append_assoc, cons_append, nil_append]
    rw [ih hitems hy (by omega), append_assoc]
    rfl

variable {k : List Byte} {v : QObject δ}

theorem parsePair_reads (hk : Reads parse (.str k)) (hv : Reads parse v) (dict : QDict δ)
    (rest : List Token) :
    parsePair parse dict
        (⟨.string, stringToJson k⟩ :: ⟨.colon, [colon]⟩ :: (tokensOf v ++ rest)) =
      some (qdictPutObj dict (rereadString k) (rereadObject v), rest) := by
  have hkey := hk (⟨.colon, [colon]⟩ :: (tokensOf v ++ rest))
  rw [tokensOf, singleton_append, rereadObject] at hkey
  rw [parsePair, hkey]
  simp only [bind_eq_bind, bind_some, hv rest]

theorem parsePairs_reads (hentries : ∀ e ∈ entries, Reads parse (.str e.1) ∧ Reads parse e.2)
    (rest : List Token) (hk : Reads parse (.str k)) (hv : Reads parse v) {turns count : Nat}
    (hturns : entries.length < turns) (dict : QDict δ) :
    parsePairs parse turns dict
        (⟨.string, stringToJson k⟩ :: ⟨.colon, [colon]⟩ :: (tokensOf v ++
          (tokensOfEntries (count + 1) entries ++ ⟨.rcurly, [rcurly]⟩ :: rest))) =
      some (rereadEntries dict ((k, v) :: entries), rest) := by
  induction entries generalizing k v turns count dict with
  | nil =>
    obtain ⟨turns, rfl⟩ := Nat.exists_eq_add_of_lt hturns
    rw [parsePairs, parsePair_reads hk hv, tokensOfEntries]
    simp [rereadEntries]
  | cons e entries ih =>
    obtain ⟨he, hentries⟩ := forall_mem_cons.mp hentries
    obtain ⟨turns, rfl⟩ : ∃ more, turns = more + 1 := ⟨turns - 1, by omega⟩
    rw [length_cons] at hturns
    rw [parsePairs, parsePair_reads hk hv, tokensOfEntries, separatorTokens_succ]
    simp only [bind_eq_bind, bind_some, append_assoc, cons_append, nil_append]
    rw [ih hentries he.1 he.2 (by omega)]
    rfl

variable {token : Token}

theorem parseArray_cons (hne : token.type ≠ .rsquare) (tokens : List Token) :
    parseArray parse (token :: tokens) =
      (parseItems parse (token :: tokens).length [] (token :: tokens)).map fun r => (.list r.1, r.2) := by
  obtain ⟨type, str⟩ := token
  cases type with
  | rsquare => exact absurd rfl hne
  | _ => rfl

theorem parseObject_cons (hne : token.type ≠ .rcurly) (tokens : List Token) :
    parseObject parse (token :: tokens) =
      (parsePairs parse (token :: tokens).length [] (token :: tokens)).map fun r => (.dict r.1, r.2) := by
  obtain ⟨type, str⟩ := token
  cases type with
  | rcurly => exact absurd rfl hne
  | _ => rfl

theorem parseArray_reads (hwf : ∀ x ∈ items, x.WellFormed) (hitems : ∀ x ∈ items, Reads parse x)
    (rest : List Token) :
    parseArray parse (tokensOfItems 0 items ++ ⟨.rsquare, [rsquare]⟩ :: rest) =
      some (.list (rereadItems items), rest) := by
  cases items with
  | nil => rw [tokensOfItems, nil_append, parseArray, rereadItems]
  | cons x items =>
    obtain ⟨hxwf, hitemswf⟩ := forall_mem_cons.mp hwf
    obtain ⟨hx, hitems⟩ := forall_mem_cons.mp hitems
    obtain ⟨token, tokens, heq, hne, -⟩ := tokensOf_head hxwf
    have htokens : tokensOfItems 0 (x :: items) ++ ⟨.rsquare, [rsquare]⟩ :: rest =
        tokensOf x ++ (tokensOfItems 1 items ++ ⟨.rsquare, [rsquare]⟩ :: rest) := by
      rw [tokensOfItems, separatorTokens, if_neg (not_not_intro rfl), nil_append, append_assoc]
    have hlength := length_le_tokensOfItems hitemswf 1
    have hread := fun turns hturns => @parseItems_reads δ parse items hitems rest x hx turns 0 hturns []
    rw [htokens]
    rw [heq, cons_append] at hread ⊢
    rw [parseArray_cons hne, hread _ (by simp only [length_cons, length_append]; omega)]
    rfl

theorem parseObject_reads (hentries : ∀ e ∈ entries, Reads parse (.str e.1) ∧ Reads parse e.2)
    (rest : List Token) :
    parseObject parse (tokensOfEntries 0 entries ++ ⟨.rcurly, [rcurly]⟩ :: rest) =
      some (.dict (rereadEntries [] entries), rest) := by
  cases entries with
  | nil => rw [tokensOfEntries, nil_append, parseObject, rereadEntries]
  | cons e entries =>
    obtain ⟨he, hentries⟩ := forall_mem_cons.mp hentries
    have htokens : tokensOfEntries 0 (e :: entries) ++ ⟨.rcurly, [rcurly]⟩ :: rest =
        ⟨.string, stringToJson e.1⟩ :: ⟨.colon, [colon]⟩ :: (tokensOf e.2 ++
          (tokensOfEntries 1 entries ++ ⟨.rcurly, [rcurly]⟩ :: rest)) := by
      rw [tokensOfEntries, separatorTokens, if_neg (not_not_intro rfl), nil_append,
        cons_append, cons_append, append_assoc]
    have hlength := length_le_tokensOfEntries entries 1
    rw [htokens, parseObject_cons TokenType.noConfusion,
      parsePairs_reads hentries rest he.1 he.2 (by simp only [length_cons, length_append]; omega)]
    rfl

end Rules

theorem nesting_le_items {x : QObject δ} (hx : x ∈ items) : x.nesting ≤ nestingItems items := by
  induction items with
  | nil => exact absurd hx not_mem_nil
  | cons y items ih =>
    rw [nestingItems]
    rcases mem_cons.mp hx with rfl | hx
    · exact Nat.le_max_left _ _
    · exact Nat.le_trans (ih hx) (Nat.le_max_right _ _)

theorem nesting_le_entries {e : List Byte × QObject δ} (he : e ∈ entries) :
    e.2.nesting ≤ nestingEntries entries := by
  induction entries with
  | nil => exact absurd he not_mem_nil
  | cons f entries ih =>
    rw [nestingEntries]
    rcases mem_cons.mp he with rfl | he
    · exact Nat.le_max_left _ _
    · exact Nat.le_trans (ih he) (Nat.le_max_right _ _)

theorem nestingItems_le (h : ∀ x ∈ items, x.nesting ≤ (tokensOf x).length) (count : Nat) :
    nestingItems items ≤ (tokensOfItems count items).length := by
  induction items generalizing count with
  | nil => exact Nat.zero_le _
  | cons x items ih =>
    obtain ⟨hx, hitems⟩ := forall_mem_cons.mp h
    have := ih hitems (count + 1)
    rw [nestingItems, tokensOfItems]
    simp only [length_append]
    omega

theorem nestingEntries_le (h : ∀ e ∈ entries, e.2.nesting ≤ (tokensOf e.2).length) (count : Nat) :
    nestingEntries entries ≤ (tokensOfEntries count entries).length := by
  induction entries generalizing count with
  | nil => exact Nat.zero_le _
  | cons e entries ih =>
    obtain ⟨he, hentries⟩ := forall_mem_cons.mp h
    have := ih hentries (count + 1)
    rw [nestingEntries, tokensOfEntries]
    simp only [length_append, length_cons]
    omega

/-- Every level of nesting has a token of its own. -/
theorem nesting_le_tokens (t : QObject δ) : t.nesting ≤ (tokensOf t).length := by
  induction t using induct with
  | hnull | hbool | hint | hstr | hfloat => exact Nat.zero_le _
  | hlist items ih =>
    have := nestingItems_le ih 0
    rw [nesting, tokensOf]
    simp only [length_cons, length_append]
    omega
  | hdict entries ih =>
    have := nestingEntries_le ih 0
    rw [nesting, tokensOf]
    simp only [length_cons, length_append]
    omega

variable (libc : Libc δ)

theorem parseValue_string {s : List Byte} (hvalid : ValidString s) (depth : Nat) :
    Reads (parseValue libc (depth + 1)) (.str s) := by
  intro rest
  rw [tokensOf, singleton_append, parseValue]
  simp only [parseLiteral, qstringFromEscapedStr_valid hvalid, map_some, rereadObject]

/-- The parser rebuilds a value from its tokens. -/
theorem parseValue_reads (t : QObject δ) (hwf : t.WellFormed) (hvalid : t.EveryString ValidString)
    {depth : Nat} (hdepth : t.nesting < depth) : Reads (parseValue libc depth) t := by
  induction t using induct generalizing depth
  all_goals obtain ⟨depth, rfl⟩ : ∃ more, depth = more + 1 := ⟨depth - 1, by omega⟩
  case hnull =>
    intro rest
    rw [tokensOf, singleton_append, parseValue]
    rfl
  case hbool b =>
    intro rest
    rw [tokensOf, singleton_append, parseValue]
    cases b <;> rfl
  case hint n =>
    intro rest
    rw [QObject.WellFormed] at hwf
    rw [tokensOf, singleton_append, parseValue]
    simp only [parseLiteral, strtoll_int hwf, map_some, rereadObject]
  case hstr s =>
    rw [QObject.EveryString] at hvalid
    exact parseValue_string libc hvalid depth
  case hfloat d => exact absurd hwf (by rw [QObject.WellFormed]; exact id)
  case hlist items ih =>
    intro rest
    rw [QObject.WellFormed, wellFormedItems_iff] at hwf
    rw [QObject.EveryString, everyStringItems_iff] at hvalid
    rw [nesting] at hdepth
    have hitems (x : QObject δ) (hx : x ∈ items) : Reads (parseValue libc depth) x :=
      ih x hx (hwf x hx) (hvalid x hx) (by have := nesting_le_items hx; omega)
    rw [tokensOf, cons_append, append_assoc, singleton_append, parseValue]
    dsimp only
    rw [parseArray_reads hwf hitems, rereadObject]
  case hdict entries ih =>
    intro rest
    rw [QObject.WellFormed, wellFormedEntries_iff] at hwf
    rw [QObject.EveryString, everyStringEntries_iff] at hvalid
    rw [nesting] at hdepth
    have hentries (e : List Byte × QObject δ) (he : e ∈ entries) :
        Reads (parseValue libc depth) (.str e.1) ∧ Reads (parseValue libc depth) e.2 := by
      have hnesting := nesting_le_entries he
      refine ⟨?_, ih e he (hwf.2 e he) (hvalid e he).2 (by omega)⟩
      obtain ⟨less, rfl⟩ : ∃ less, depth = less + 1 := ⟨depth - 1, by omega⟩
      exact parseValue_string libc (hvalid e he).1 less
    rw [tokensOf, cons_append, append_assoc, singleton_append, parseValue]
    dsimp only
    rw [parseObject_reads hentries, rereadObject]

/-- Printing a value, in either form, and reading the text gives `rereadObject`. -/
theorem qobjectFromJson_toJson (hwf : t.WellFormed) (hvalid : t.EveryString ValidString)
    (hwithin : Within t) (pretty : Bool) :
    qobjectFromJson libc (toJson libc pretty 0 t) = some (rereadObject t) := by
  have hsizes (token : Token) (h : token ∈ tokensOf t) : token.str.length ≤ MAX_TOKEN_SIZE :=
    Nat.le_trans (length_le_tokensSize h) hwithin.size
  have hnesting : 0 + t.nesting ≤ MAX_NESTING := by
    rw [Nat.zero_add]
    exact hwithin.nesting
  have hflush := (@lexed δ libc pretty t hwf hvalid hsizes 0 .init hnesting).flush
  have hread := parseValue_reads libc t hwf hvalid (Nat.lt_succ_of_le (nesting_le_tokens t)) []
  rw [idle, processAll_value libc hwf hwithin] at hflush
  rw [append_nil] at hread
  rw [qobjectFromJson, hflush]
  simp only [idle, emitTokens, jsonParserParse, hread, map_some]

theorem qdictGet_eq_none : qdictGet key dict = none ↔ key ∉ dict.map Prod.fst := by
  induction dict with
  | nil => simp [qdictGet]
  | cons e dict ih =>
    rw [qdictGet, map_cons, mem_cons, not_or]
    split_ifs with heq
    · simp [heq]
    · rw [ih]
      exact ⟨fun h => ⟨fun h' => heq h'.symm, h⟩, fun h => h.2⟩

theorem mem_of_qdictGet (h : qdictGet key dict = some value) : (key, value) ∈ dict := by
  induction dict with
  | nil => cases h
  | cons e dict ih =>
    rw [qdictGet] at h
    split_ifs at h with heq
    · cases h
      rw [← heq]
      exact mem_cons_self
    · exact mem_cons_of_mem _ (ih h)

theorem qdictGet_of_mem (hnodup : (dict.map Prod.fst).Nodup) (h : (key, value) ∈ dict) :
    qdictGet key dict = some value := by
  induction dict with
  | nil => exact absurd h not_mem_nil
  | cons e dict ih =>
    rw [map_cons, nodup_cons] at hnodup
    rw [qdictGet]
    rcases mem_cons.mp h with rfl | h
    · exact if_pos rfl
    · rw [if_neg, ih hnodup.2 h]
      rintro heq
      exact hnodup.1 (heq ▸ mem_map_of_mem h)

theorem insertHead_perm (key : List Byte) (value : QObject δ) (dict : QDict δ) :
    (insertHead key value dict).Perm ((key, value) :: dict) := by
  induction dict with
  | nil => exact .refl _
  | cons e dict ih =>
    rw [insertHead]
    split_ifs
    · exact .refl _
    · exact (ih.cons e).trans (.swap _ _ _)

theorem replaceValue_keys (key : List Byte) (value : QObject δ) (dict : QDict δ) :
    (replaceValue key value dict).map Prod.fst = dict.map Prod.fst := by
  induction dict with
  | nil => rfl
  | cons e dict ih =>
    rw [replaceValue]
    split_ifs
    · rfl
    · rw [map_cons, ih, map_cons]

theorem qdictPutObj_new (h : key ∉ dict.map Prod.fst) (value : QObject δ) :
    (qdictPutObj dict key value).Perm ((key, value) :: dict) := by
  rw [qdictPutObj, qdictGet_eq_none.mpr h]
  exact insertHead_perm key value dict

theorem qdictPutObj_keys (hnodup : (dict.map Prod.fst).Nodup) (key : List Byte)
    (value : QObject δ) : ((qdictPutObj dict key value).map Prod.fst).Nodup ∧
      ∀ k ∈ (qdictPutObj dict key value).map Prod.fst, k = key ∨ k ∈ dict.map Prod.fst := by
  by_cases h : key ∈ dict.map Prod.fst
  · have hput : (qdictPutObj dict key value).map Prod.fst = dict.map Prod.fst := by
      rw [qdictPutObj]
      cases hget : qdictGet key dict with
      | none => exact absurd h (qdictGet_eq_none.mp hget)
      | some old => exact replaceValue_keys key value dict
    rw [hput]
    exact ⟨hnodup, fun k hk => .inr hk⟩
  · have hperm := (qdictPutObj_new h value).map Prod.fst
    refine ⟨hperm.nodup_iff.mpr (nodup_cons.mpr ⟨h, hnodup⟩), fun k hk => ?_⟩
    exact mem_cons.mp (hperm.mem_iff.mp hk)

/-- The keys of a dictionary that was read: distinct, and each the image of a printed key. -/
theorem rereadEntries_keys {dict : QDict δ} (hnodup : (dict.map Prod.fst).Nodup)
    (entries : QDict δ) : ((rereadEntries dict entries).map Prod.fst).Nodup ∧
      ∀ k ∈ (rereadEntries dict entries).map Prod.fst,
        k ∈ dict.map Prod.fst ∨ ∃ e ∈ entries, k = rereadString e.1 := by
  induction entries generalizing dict with
  | nil =>
    rw [rereadEntries]
    exact ⟨hnodup, fun k hk => .inl hk⟩
  | cons e entries ih =>
    obtain ⟨hput, hkeys⟩ := qdictPutObj_keys hnodup (rereadString e.1) (rereadObject e.2)
    obtain ⟨hnext, himage⟩ := ih hput
    rw [rereadEntries]
    refine ⟨hnext, fun k hk => ?_⟩
    rcases himage k hk with hk | ⟨f, hf, heq⟩
    · rcases hkeys k hk with heq | hk
      · exact .inr ⟨e, mem_cons_self, heq⟩
      · exact .inl hk
    · exact .inr ⟨f, mem_cons_of_mem e hf, heq⟩

/-- Where no key changes, reading gives the same keys with the values read. -/
theorem rereadEntries_perm {dict entries : QDict δ} (hsame : ∀ e ∈ entries, rereadString e.1 = e.1)
    (hnodup : (dict.map Prod.fst ++ entries.map Prod.fst).Nodup) :
    (rereadEntries dict entries).Perm (dict ++ entries.map fun e => (e.1, rereadObject e.2)) := by
  induction entries generalizing dict with
  | nil =>
    rw [rereadEntries, map_nil, append_nil]
  | cons e entries ih =>
    obtain ⟨he, hsame⟩ := forall_mem_cons.mp hsame
    have hperm := perm_middle.nodup_iff.mp hnodup
    rw [nodup_cons, mem_append, not_or] at hperm
    have hput := qdictPutObj_new hperm.1.1 (rereadObject e.2)
    rw [rereadEntries, he, map_cons]
    refine (ih hsame ?_).trans ((hput.append_right _).trans perm_middle.symm)
    refine ((hput.map Prod.fst).append_right _).nodup_iff.mpr ?_
    rw [map_cons, cons_append, nodup_cons, mem_append, not_or]
    exact hperm

theorem sameItems_reread : SameItems (rereadItems items) items ↔ ∀ x ∈ items, (rereadObject x).Same x := by
  induction items with
  | nil => simp [rereadItems, SameItems]
  | cons x items ih => rw [rereadItems, SameItems, ih, forall_mem_cons]

theorem sameEntries_iff {es fs : QDict δ} :
    SameEntries es fs ↔ ∀ e ∈ es, ∃ w, qdictGet e.1 fs = some w ∧ e.2.Same w := by
  induction es with
  | nil => simp [SameEntries]
  | cons e es ih => rw [SameEntries, ih, forall_mem_cons]

/-- A dictionary comes back with the keys it had only if all its keys are plain: the reader makes no
other ones. -/
theorem keys_plain (hvalid : ∀ e ∈ entries, ValidString e.1)
    (hlength : (rereadEntries [] entries).length = entries.length)
    (hsame : SameEntries (rereadEntries [] entries) entries) :
    ∀ e ∈ entries, PlainString e.1 := by
  obtain ⟨hreadNodup, himage⟩ := @rereadEntries_keys δ [] nodup_nil entries
  have hsubset : (rereadEntries [] entries).map Prod.fst ⊆ entries.map Prod.fst := by
    intro k hk
    obtain ⟨e, he, rfl⟩ := mem_map.mp hk
    obtain ⟨w, hw, -⟩ := sameEntries_iff.mp hsame e he
    exact mem_map.mpr ⟨_, mem_of_qdictGet hw, rfl⟩
  -- as many keys as before, and all of them among the old ones: so they are the old ones
  have hperm : ((rereadEntries [] entries).map Prod.fst).Perm (entries.map Prod.fst) :=
    (hreadNodup.subperm hsubset).perm_of_length_le (by rw [length_map, length_map, hlength])
  intro e he
  refine plainString_of_clean (hvalid e he) fun b hb => ?_
  have hkey := hperm.mem_iff.mpr (mem_map_of_mem (f := Prod.fst) he)
  rcases himage _ hkey with hnil | ⟨f, hf, heq⟩
  · exact absurd hnil not_mem_nil
  · exact rereadString_clean (hvalid f hf) (heq ▸ hb)

/-- What is read equals what was printed exactly when all strings and keys are plain. -/
theorem rereadObject_same_iff (t : QObject δ) (hwf : t.WellFormed) (hvalid : t.EveryString ValidString) :
    (rereadObject t).Same t ↔ t.EveryString PlainString := by
  induction t using induct with
  | hnull | hbool | hint => simp [rereadObject, QObject.Same, QObject.EveryString]
  | hstr s =>
    rw [QObject.EveryString] at hvalid ⊢
    rw [rereadObject, QObject.Same]
    exact rereadString_eq_iff hvalid
  | hfloat d => exact absurd hwf (by rw [QObject.WellFormed]; exact id)
  | hlist items ih =>
    rw [QObject.WellFormed, wellFormedItems_iff] at hwf
    rw [QObject.EveryString, everyStringItems_iff] at hvalid ⊢
    rw [rereadObject, QObject.Same, sameItems_reread]
    exact forall₂_congr fun x hx => ih x hx (hwf x hx) (hvalid x hx)
  | hdict entries ih =>
    rw [QObject.WellFormed, wellFormedEntries_iff] at hwf
    rw [QObject.EveryString, everyStringEntries_iff] at hvalid ⊢
    rw [rereadObject, QObject.Same]
    have hih (e : List Byte × QObject δ) (he : e ∈ entries) := ih e he (hwf.2 e he) (hvalid e he).2
    constructor
    · rintro ⟨hlength, hsame⟩ e he
      have hplain := keys_plain (fun e he => (hvalid e he).1) hlength hsame
      have hperm := @rereadEntries_perm δ [] entries
        (fun e he => rereadString_plain (hplain e he)) (by simpa using hwf.1)
      have hmem : (e.1, rereadObject e.2) ∈ rereadEntries [] entries :=
        hperm.mem_iff.mpr (mem_map_of_mem (f := fun e => (e.1, rereadObject e.2)) he)
      obtain ⟨w, hw, hsame⟩ := sameEntries_iff.mp hsame _ hmem
      rw [qdictGet_of_mem hwf.1 (show (e.1, e.2) ∈ entries from he)] at hw
      cases hw
      exact ⟨hplain e he, (hih e he).mp hsame⟩
    · intro hplain
      have hperm := @rereadEntries_perm δ [] entries
        (fun e he => rereadString_plain (hplain e he).1) (by simpa using hwf.1)
      refine ⟨by simpa using hperm.length_eq, sameEntries_iff.mpr fun f hf => ?_⟩
      obtain ⟨e, he, rfl⟩ := mem_map.mp (hperm.mem_iff.mp hf)
      exact ⟨e.2, qdictGet_of_mem hwf.1 he, (hih e he).mpr (hplain e he).2⟩

/-- A printed value within the limits of the reader is read back equal, in the compact and in the
pretty form, exactly when its strings and keys hold only code points of the basic plane and no
U+0000. -/
theorem json_round_trip_iff (libc : Libc δ) (t : QObject δ) (hwf : t.WellFormed)
    (hvalid : t.EveryString ValidString) (hwithin : Within t) :
    ((∃ u, qobjectFromJson libc (qobjectToJson libc t) = some u ∧ u.Same t) ↔ t.EveryString PlainString) ∧
    ((∃ u, qobjectFromJson libc (qobjectToJsonPretty libc t) = some u ∧ u.Same t) ↔
      t.EveryString PlainString) := by
  have hform (pretty : Bool) :
      (∃ u, qobjectFromJson libc (toJson libc pretty 0 t) = some u ∧ u.Same t) ↔
        t.EveryString PlainString := by
    rw [qobjectFromJson_toJson libc hwf hvalid hwithin pretty, ← rereadObject_same_iff t hwf hvalid]
    refine ⟨?_, fun hsame => ⟨_, rfl, hsame⟩⟩
    rintro ⟨u, hu, hsame⟩
    cases hu
    exact hsame
  exact ⟨hform false, hform true⟩

theorem validString_single {cp : Nat} (hvalid : ValidCodepoint cp) : ValidString (encode cp) :=
  ⟨[cp], by simpa using hvalid, by simp [encodeAll]⟩

def noDoubles : Libc Unit := ⟨fun _ => [], fun _ => ()⟩

/-- A dictionary with the key and the value U+20AC, and the list of a negative number and null. -/
def euro : QObject Unit :=
  .dict [(encode 0x20AC, .str (encode 0x20AC)), (encode 0x61, .list [.int (-7), .null])]

theorem euro_wellFormed : euro.WellFormed := by
  simp only [euro, QObject.WellFormed, WellFormedEntries, WellFormedItems]
  decide

theorem euro_strings {P : List Byte → Prop} (heuro : P (encode 0x20AC)) (ha : P (encode 0x61)) :
    euro.EveryString P := by
  simp only [euro, QObject.EveryString, EveryStringEntries, EveryStringItems]
  exact ⟨heuro, heuro, ha, ⟨trivial, trivial, trivial⟩, trivial⟩

theorem json_round_trip_euro :
    euro.EveryString PlainString ∧
      (∃ u, qobjectFromJson noDoubles (qobjectToJson noDoubles euro) = some u ∧ u.Same euro) ∧
      ∃ u, qobjectFromJson noDoubles (qobjectToJsonPretty noDoubles euro) = some u ∧ u.Same euro := by
  have hcode : ValidCodepoint 0x20AC := ⟨by decide, by decide, by decide, by decide⟩
  have hletter : ValidCodepoint 0x61 := ⟨by decide, by decide, by decide, by decide⟩
  have hplain : euro.EveryString PlainString :=
    euro_strings ⟨[0x20AC], by simp [hcode], by simp [encodeAll]⟩
      ⟨[0x61], by simp [hletter], by simp [encodeAll]⟩
  have hround := json_round_trip_iff noDoubles euro euro_wellFormed
    (euro_strings (validString_single hcode) (validString_single hletter))
    ⟨by decide +kernel, by decide +kernel, by decide +kernel⟩
  exact ⟨hplain, hround.1.mpr hplain, hround.2.mpr hplain⟩

/-- U+1F600 is read back as six bytes instead of four, and U+0000 as the empty string. -/
theorem codepoints_not_read_back :
    ValidString [0xF0, 0x9F, 0x98, 0x80] ∧ ValidString [0xC0, 0x80] ∧
      qobjectFromJson noDoubles (qobjectToJson noDoubles (.str [0xF0, 0x9F, 0x98, 0x80])) =
        some (.str [0xED, 0xA0, 0xBD, 0xED, 0xB8, 0x80]) ∧
      qobjectFromJson noDoubles (qobjectToJson noDoubles (.str [0xC0, 0x80])) = some (.str []) ∧
      ¬ ((QObject.str [0xED, 0xA0, 0xBD, 0xED, 0xB8, 0x80] : QObject Unit).Same
        (.str [0xF0, 0x9F, 0x98, 0x80])) ∧
      ¬ ((QObject.str [] : QObject Unit).Same (.str [0xC0, 0x80])) := by
  refine ⟨?_, ?_, ?_, ?_, ?_, ?_⟩
  · exact @validString_single 0x1F600 ⟨by decide, by decide, by decide, by decide⟩
  · exact @validString_single 0 ⟨by decide, by decide, by decide, by decide⟩
  · rfl
  · rfl
  · rw [QObject.Same]
    decide
  · rw [QObject.Same]
    decide

end TcgArm.Json
