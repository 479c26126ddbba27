import TcgArm.JsonTokens

/-! Every printed value is cut into its tokens: strings byte by byte along their escapes, decimal
numbers digit by digit, and lists and dictionaries along their items, over the separators and the
indentation of either form. -/

namespace TcgArm.Json

open TcgArm.Unicode List

variable {δ : Type}

theorem hexDigit_trace (next : LexState) (d : Fin 16) : ucodeRow next (hexDigit d.val) = .state next := by
  rw [ucodeRow, if_pos (hexDigit_read d).1]

theorem slash_row : jsonLexer .dqString backslash = .state .dqStringEscape := by decide

section

variable (n : Nat)

theorem trace_unicode : trace .dqString (unicodeEscape n) = some .dqString := by
  have hrow (next : LexState) (k : Nat) : ucodeRow next (hexDigit (k % 16)) = .state next :=
    hexDigit_trace next ⟨k % 16, Nat.mod_lt k (by decide)⟩
  rw [unicodeEscape, trace_cons slash_row,
    trace_cons (show jsonLexer .dqStringEscape (byte 'u') = .state .dqUcode0 by decide),
    trace_cons (s := .dqUcode0) (hrow .dqUcode1 _), trace_cons (s := .dqUcode1) (hrow .dqUcode2 _),
    trace_cons (s := .dqUcode2) (hrow .dqUcode3 _), trace_cons (s := .dqUcode3) (hrow .dqString _)]
  rfl

theorem plain_row : ∀ cp : Fin 0x7F, 0x20 ≤ cp.val → cp.val ≠ 0x22 → cp.val ≠ 0x5c →
    jsonLexer .dqString (BitVec.ofNat 8 cp.val) = .state .dqString := by decide +kernel

theorem escape_row : ∀ e ∈ ascii ['b', 'f', 'n', 'r', 't', '/', '\x5c', '\x27', '\x22'],
    jsonLexer .dqStringEscape e = .state .dqString := by decide

theorem trace_escape (cp : Nat) : trace .dqString (escape (some cp)) = some .dqString := by
  cases escape_cases cp with
  | simple e hne hlt hescape hu hread hmem =>
    rw [hescape, trace_cons slash_row, trace_cons (escape_row e hmem)]
    rfl
  | pair hlow hescape => rw [hescape, trace_append (trace_unicode _), trace_unicode]
  | unicode hle hescape => rw [hescape, trace_unicode]
  | plain hlow hhigh hquote hslash hescape =>
    rw [hescape, trace_cons (plain_row ⟨cp, hhigh⟩ hlow hquote hslash)]
    rfl

theorem trace_escapes (cps : List Nat) :
    trace .dqString (cps.flatMap fun cp => escape (some cp)) = some .dqString := by
  induction cps with
  | nil => rfl
  | cons cp cps ih => rw [flatMap_cons, trace_append (trace_escape cp), ih]

def decimal (n : Nat) : List Byte := ascii (Nat.toDigits 10 n)

def decimalDigit (d : Nat) : Byte := byte (Nat.digitChar d)

theorem decimal_eq :
    decimal n = if n < 10 then [decimalDigit n] else decimal (n / 10) ++ [decimalDigit (n % 10)] := by
  rw [decimal, Nat.toDigits_eq_if (by decide)]
  split_ifs
  · rfl
  · exact map_append

theorem decimalDigit_digit : ∀ d : Fin 10, isDigit (decimalDigit d.val) = true ∧
    (decimalDigit d.val).toNat - 48 = d.val ∧
    jsonLexer .nonzeroNumber (decimalDigit d.val) = .state .nonzeroNumber := by decide

theorem decimalDigit_first : ∀ d : Fin 10, d.val ≠ 0 →
    jsonLexer .start (decimalDigit d.val) = .state .nonzeroNumber ∧
    jsonLexer .negNonzeroNumber (decimalDigit d.val) = .state .nonzeroNumber := by decide

theorem decimal_digits {n : Nat} : ∀ ch ∈ decimal n, isDigit ch = true := by
  induction n using Nat.strong_induction_on with
  | _ n ih =>
    intro ch hch
    rw [decimal_eq] at hch
    split_ifs at hch with hsmall
    · rw [mem_singleton.mp hch]
      exact (decimalDigit_digit ⟨n, hsmall⟩).1
    · rcases mem_append.mp hch with hch | hch
      · exact ih (n / 10) (by omega) ch hch
      · rw [mem_singleton.mp hch]
        exact (decimalDigit_digit ⟨n % 10, by omega⟩).1

theorem decimal_ne_nil : decimal n ≠ [] := by
  rw [decimal_eq]
  split_ifs <;> simp

theorem trace_decimal {s : LexState} {n : Nat} (hn : n ≠ 0)
    (hs : ∀ d : Fin 10, d.val ≠ 0 → jsonLexer s (decimalDigit d.val) = .state .nonzeroNumber) :
    trace s (decimal n) = some .nonzeroNumber := by
  induction n using Nat.strong_induction_on with
  | _ n ih =>
    rw [decimal_eq]
    split_ifs with hsmall
    · rw [trace_cons (hs ⟨n, hsmall⟩ hn)]
      rfl
    · rw [trace_append (ih (n / 10) (by omega) (by omega)),
        trace_cons (decimalDigit_digit ⟨n % 10, by omega⟩).2.2]
      rfl

theorem digitsValue_decimal : digitsValue (decimal n) = n := by
  rw [digitsValue, takeWhile_eq_self_iff.mpr decimal_digits]
  induction n using Nat.strong_induction_on with
  | _ n ih =>
    rw [decimal_eq]
    split_ifs with hsmall
    · have hvalue := (decimalDigit_digit ⟨n, hsmall⟩).2.1
      simpa using hvalue
    · have hvalue := (decimalDigit_digit ⟨n % 10, by omega⟩).2.1
      dsimp only at hvalue
      rw [foldl_append, ih (n / 10) (by omega), foldl_cons, foldl_nil, hvalue]
      omega

theorem intToJson_eq (n : Int) :
    intToJson n = if n < 0 then byte '-' :: decimal n.natAbs else decimal n.natAbs := rfl

theorem trace_int (n : Int) :
    trace .start (intToJson n) = some .zero ∨ trace .start (intToJson n) = some .nonzeroNumber := by
  rw [intToJson_eq]
  split_ifs with hneg
  · right
    rw [trace_cons (show jsonLexer .start (byte '-') = .state .negNonzeroNumber by decide)]
    exact trace_decimal (by omega) fun d hd => (decimalDigit_first d hd).2
  · by_cases hzero : n.natAbs = 0
    · left
      rw [hzero]
      decide
    · right
      exact trace_decimal hzero fun d hd => (decimalDigit_first d hd).1

theorem decimal_head : (decimal n).head? ≠ some (byte '-') := by
  intro hhead
  have hdigit := decimal_digits _ (mem_of_mem_head? hhead)
  exact absurd hdigit (by decide)

end

theorem strtoll_int {n : Int} (hrange : -2 ^ 63 ≤ n ∧ n < 2 ^ 63) : strtoll (intToJson n) = some n := by
  have hvalue : (if (intToJson n).head? = some (byte '-') then
      - (digitsValue (intToJson n).tail : Int) else (digitsValue (intToJson n) : Int)) = n := by
    rw [intToJson_eq]
    by_cases hneg : n < 0
    · rw [if_pos hneg, if_pos List.head?_cons, tail_cons, digitsValue_decimal]
      omega
    · rw [if_neg hneg, if_neg (decimal_head _), digitsValue_decimal]
      omega
  rw [strtoll, hvalue, if_pos hrange]

variable (libc : Libc δ)

def processAll (parser : JSONMessageParser δ) (tokens : List Token) : JSONMessageParser δ :=
  tokens.foldl (jsonMessageProcessToken libc) parser

theorem processAll_append (parser : JSONMessageParser δ) (a b : List Token) :
    processAll libc parser (a ++ b) = processAll libc (processAll libc parser a) b :=
  foldl_append

theorem processAll_cons (parser : JSONMessageParser δ) (token : Token) (tokens : List Token) :
    processAll libc parser (token :: tokens) =
      processAll libc (jsonMessageProcessToken libc parser token) tokens := rfl

variable {t : TokenType}

theorem feed_punctuation {ch : Byte} (h : jsonLexer .start ch = .token t) (hskip : t ≠ .skip)
    (parser : JSONMessageParser δ) :
    jsonLexerFeedChar libc (idle parser) ch false = idle (jsonMessageProcessToken libc parser ⟨t, [ch]⟩) :=
  feedChar_emit libc h hskip (by rw [start_zero]; exact Goto.noConfusion) parser

theorem feed_string {s : List Byte} (hvalid : ValidString s)
    (hsize : (stringToJson s).length ≤ MAX_TOKEN_SIZE) (parser : JSONMessageParser δ) :
    jsonLexerFeed libc (idle parser) (stringToJson s) =
      idle (jsonMessageProcessToken libc parser ⟨.string, stringToJson s⟩) := by
  obtain ⟨cps, hcps, rfl⟩ := hvalid
  rw [stringToJson_encodeAll hcps] at hsize ⊢
  have htrace : trace .start (quote :: cps.flatMap fun cp => escape (some cp)) = some .dqString := by
    rw [trace_cons (show jsonLexer .start quote = .state .dqString by decide), trace_escapes]
  rw [length_cons, length_append, length_singleton] at hsize
  rw [← cons_append, feed_append, idle,
    feed_trace libc htrace (by simp only [length_nil, length_cons]; omega), feed_cons,
    feed_nil, feedChar_emit libc (show jsonLexer .dqString quote = .token .string by decide)
      (by decide) (by decide), nil_append]

theorem number_closers : ∀ s ∈ [LexState.zero, .nonzeroNumber],
    jsonLexer s 0 = .token .integer ∧ ∀ ch ∈ closers, jsonLexer s ch = .token .integer := by
  decide

theorem keyword_closers : jsonLexer .keyword 0 = .token .keyword ∧
    ∀ ch ∈ closers, jsonLexer .keyword ch = .token .keyword := by decide

theorem feed_int {n : Int} (hsize : (intToJson n).length ≤ MAX_TOKEN_SIZE) (parser : JSONMessageParser δ) :
    Pending libc (jsonLexerFeed libc (idle parser) (intToJson n))
      (jsonMessageProcessToken libc parser ⟨.integer, intToJson n⟩) := by
  obtain ⟨s, hs, htrace⟩ : ∃ s ∈ [LexState.zero, .nonzeroNumber], trace .start (intToJson n) = some s := by
    rcases trace_int n with h | h
    · exact ⟨.zero, by decide, h⟩
    · exact ⟨.nonzeroNumber, by decide, h⟩
  obtain ⟨hzero, hclose⟩ := number_closers s hs
  rw [idle, feed_trace libc htrace (by rw [length_nil]; omega), nil_append]
  exact @pending_lookahead δ libc ⟨s, intToJson n, parser⟩ .integer (by decide) hzero hclose

theorem feed_keyword {word : List Byte} (htrace : trace .start word = some .keyword)
    (hsize : word.length ≤ MAX_TOKEN_SIZE) (parser : JSONMessageParser δ) :
    Pending libc (jsonLexerFeed libc (idle parser) word)
      (jsonMessageProcessToken libc parser ⟨.keyword, word⟩) := by
  obtain ⟨hzero, hclose⟩ := keyword_closers
  rw [idle, feed_trace libc htrace (by rw [length_nil]; omega), nil_append]
  exact @pending_lookahead δ libc ⟨.keyword, word, parser⟩ .keyword (by decide) hzero hclose

theorem feed_lineBreak {indent : Nat} (hindent : indent ≤ MAX_NESTING) {lexer : JSONLexer δ}
    {parser : JSONMessageParser δ} (hnewline : jsonLexerFeedChar libc lexer newline false =
      jsonLexerFeedChar libc (idle parser) newline false) :
    Blank (1 + 4 * indent) (jsonLexerFeed libc lexer (lineBreak true indent)) parser := by
  have hsize : 1 + 4 * indent ≤ MAX_TOKEN_SIZE := by
    have : MAX_NESTING = 1024 := rfl
    have : MAX_TOKEN_SIZE = 67108864 := rfl
    omega
  rw [lineBreak, if_pos rfl, feed_cons, hnewline]
  refine blank_feed_spaces libc hsize (blank_feed libc (.inr rfl) (by omega) ?_)
  exact Or.inl rfl

variable {parser : JSONMessageParser δ} {lexer : JSONLexer δ} {pretty : Bool} {indent : Nat}

theorem feed_close (hindent : indent ≤ MAX_NESTING) {ch : Byte}
    (hmem : ch ∈ closers) (hgoto : jsonLexer .start ch = .token t)
    (hblank : jsonLexer .whitespace ch = .token .skip) (hskip : t ≠ .skip)
    (hpending : Pending libc lexer parser) :
    jsonLexerFeed libc lexer (lineBreak pretty indent ++ [ch]) =
      idle (jsonMessageProcessToken libc parser ⟨t, [ch]⟩) := by
  cases pretty with
  | false =>
    rw [lineBreak, if_neg Bool.false_ne_true, nil_append, feed_cons, feed_nil,
      hpending.feed ch hmem, feed_punctuation libc hgoto hskip]
  | true =>
    have hline := feed_lineBreak libc hindent (hpending.feed newline (by decide))
    rw [feed_append, feed_cons, feed_nil, blank_start libc hblank hline, feed_punctuation libc hgoto hskip]

/-- Behind the separator a token can start. Before the first item nothing may be pending. -/
theorem feed_separator {indent count : Nat} (hindent : indent ≤ MAX_NESTING)
    {lexer : JSONLexer δ} {parser : JSONMessageParser δ} (hpending : Pending libc lexer parser)
    (hfirst : count = 0 → lexer = idle parser) :
    ∃ n, Blank n (jsonLexerFeed libc lexer (separator pretty indent count))
      (processAll libc parser (separatorTokens count)) := by
  have hcomma := hpending.feed comma (by decide)
  rw [feed_punctuation libc (show jsonLexer .start comma = .token .comma by decide) (by decide)] at hcomma
  have hline (p : JSONMessageParser δ) := @feed_lineBreak δ libc indent hindent (idle p) p rfl
  by_cases hcount : count = 0
  · obtain rfl := hfirst hcount
    rw [separator, separatorTokens, if_neg (not_not_intro hcount), if_neg (not_not_intro hcount), nil_append]
    cases pretty with
    | false => exact ⟨0, .inl rfl⟩
    | true => exact ⟨_, hline parser⟩
  · rw [separator, separatorTokens, if_pos hcount, if_pos hcount]
    cases pretty with
    | false =>
      rw [if_neg Bool.false_ne_true, lineBreak, if_neg Bool.false_ne_true, append_nil, feed_cons, hcomma]
      exact ⟨0 + 1, blank_feed libc (.inl rfl) (by decide) (.inl rfl)⟩
    | true =>
      rw [if_pos rfl, singleton_append, feed_cons, hcomma]
      exact ⟨_, hline _⟩

theorem digit_whitespace : ∀ ch : Byte, isDigit ch = true →
    jsonLexer .whitespace ch = .token .skip := by decide +kernel

/-- The text of a value starts with a character that ends blanks. -/
theorem toJson_head {t : QObject δ} (hwf : t.WellFormed) (pretty : Bool) (indent : Nat) :
    ∃ ch text, toJson libc pretty indent t = ch :: text ∧ jsonLexer .whitespace ch = .token .skip := by
  cases t with
  | null => exact ⟨byte 'n', _, by rw [toJson]; rfl, by decide⟩
  | bool b =>
    cases b with
    | false => exact ⟨byte 'f', _, by rw [toJson]; rfl, by decide⟩
    | true => exact ⟨byte 't', _, by rw [toJson]; rfl, by decide⟩
  | int n =>
    rw [toJson, intToJson_eq]
    split_ifs
    · exact ⟨_, _, rfl, by decide⟩
    · obtain ⟨ch, text, heq⟩ := exists_cons_of_ne_nil (decimal_ne_nil n.natAbs)
      refine ⟨ch, text, heq, digit_whitespace ch (@decimal_digits n.natAbs ch ?_)⟩
      rw [heq]
      exact mem_cons_self
  | str s => exact ⟨quote, _, by rw [toJson, stringToJson], by decide⟩
  | float d => exact absurd hwf (by rw [QObject.WellFormed]; exact id)
  | list items => exact ⟨lsquare, _, by rw [toJson], by decide⟩
  | dict entries => exact ⟨lcurly, _, by rw [toJson], by decide⟩

theorem feed_behind_blank {t : QObject δ} (hwf : t.WellFormed) {indent n : Nat}
    (hblank : Blank n lexer parser) :
    jsonLexerFeed libc lexer (toJson libc pretty indent t) =
      jsonLexerFeed libc (idle parser) (toJson libc pretty indent t) := by
  obtain ⟨ch, text, heq, hstart⟩ := toJson_head libc hwf pretty indent
  rw [heq, feed_cons, feed_cons, blank_start libc hstart hblank]

def Lexed (pretty : Bool) (t : QObject δ) : Prop :=
  ∀ indent parser, indent + t.nesting ≤ MAX_NESTING →
    Pending libc (jsonLexerFeed libc (idle parser) (toJson libc pretty indent t))
      (processAll libc parser (tokensOf t))

theorem feed_items {items : List (QObject δ)} (hwf : WellFormedItems items)
    (hlexed : ∀ x ∈ items, Lexed libc pretty x) (hindent : indent + nestingItems items ≤ MAX_NESTING) :
    ∀ {count lexer parser}, Pending libc lexer parser → (count = 0 → lexer = idle parser) →
      Pending libc (jsonLexerFeed libc lexer (toJsonListIter libc pretty indent count items))
        (processAll libc parser (tokensOfItems count items)) := by
  induction items with
  | nil =>
    intro count lexer parser hpending _
    rw [toJsonListIter, tokensOfItems]
    exact hpending
  | cons x items ih =>
    intro count lexer parser hpending hfirst
    obtain ⟨hx, hitems⟩ := forall_mem_cons.mp hlexed
    rw [WellFormedItems] at hwf
    rw [nestingItems] at hindent
    obtain ⟨n, hblank⟩ := @feed_separator δ libc pretty indent count (by omega) lexer parser hpending hfirst
    rw [toJsonListIter, tokensOfItems, feed_append, feed_append, processAll_append,
      processAll_append, feed_behind_blank libc hwf.1 hblank]
    exact ih hwf.2 hitems (by omega) (hx indent _ (by omega)) (fun h => absurd h (by omega))

theorem feed_entries {entries : QDict δ}
    (hwf : WellFormedEntries entries) (hkeys : ∀ e ∈ entries, ValidString e.1)
    (hsizes : ∀ e ∈ entries, (stringToJson e.1).length ≤ MAX_TOKEN_SIZE)
    (hlexed : ∀ e ∈ entries, Lexed libc pretty e.2)
    (hindent : indent + nestingEntries entries ≤ MAX_NESTING) :
    ∀ {count lexer parser}, Pending libc lexer parser → (count = 0 → lexer = idle parser) →
      Pending libc (jsonLexerFeed libc lexer (toJsonDictIter libc pretty indent count entries))
        (processAll libc parser (tokensOfEntries count entries)) := by
  induction entries with
  | nil =>
    intro count lexer parser hpending _
    rw [toJsonDictIter, tokensOfEntries]
    exact hpending
  | cons e entries ih =>
    intro count lexer parser hpending hfirst
    obtain ⟨k, v⟩ := e
    obtain ⟨hkey, hkeys⟩ := forall_mem_cons.mp hkeys
    obtain ⟨hsize, hsizes⟩ := forall_mem_cons.mp hsizes
    obtain ⟨hv, hlexed⟩ := forall_mem_cons.mp hlexed
    rw [WellFormedEntries] at hwf
    rw [nestingEntries] at hindent
    obtain ⟨n, hblank⟩ := @feed_separator δ libc pretty indent count (by omega) lexer parser hpending hfirst
    have hkeyText : jsonLexerFeed libc (jsonLexerFeed libc lexer (separator pretty indent count))
        (stringToJson k) = idle (jsonMessageProcessToken libc
          (processAll libc parser (separatorTokens count)) ⟨.string, stringToJson k⟩) := by
      rw [← feed_string libc hkey hsize, stringToJson, feed_cons, feed_cons,
        blank_start libc (by decide) hblank]
    have hblank' (p : JSONMessageParser δ) : Blank (0 + 1) (jsonLexerFeedChar libc (idle p) space false) p :=
      blank_feed libc (.inl rfl) (by decide) (.inl rfl)
    rw [toJsonDictIter, tokensOfEntries, feed_append, feed_append, processAll_append, hkeyText,
      feed_cons, feed_cons, feed_append, processAll_cons, processAll_cons, processAll_append,
      feed_punctuation libc (show jsonLexer .start colon = .token .colon by decide) (by decide),
      feed_behind_blank libc hwf.1 (hblank' _)]
    exact ih hwf.2 hkeys hsizes hlexed (by omega)
      (hv indent _ (show indent + v.nesting ≤ MAX_NESTING by omega))
      (fun h => absurd h (by omega))

variable {items : List (QObject δ)} {entries : QDict δ}

theorem wellFormedItems_iff : WellFormedItems items ↔ ∀ x ∈ items, x.WellFormed := by
  induction items with
  | nil => simp [WellFormedItems]
  | cons x items ih => rw [WellFormedItems, ih, forall_mem_cons]

theorem wellFormedEntries_iff : WellFormedEntries entries ↔ ∀ e ∈ entries, e.2.WellFormed := by
  induction entries with
  | nil => simp [WellFormedEntries]
  | cons e entries ih => rw [WellFormedEntries, ih, forall_mem_cons]

variable {P : List Byte → Prop}

theorem everyStringItems_iff :
    EveryStringItems P items ↔ ∀ x ∈ items, x.EveryString P := by
  induction items with
  | nil => simp [EveryStringItems]
  | cons x items ih => rw [EveryStringItems, ih, forall_mem_cons]

theorem everyStringEntries_iff :
    EveryStringEntries P entries ↔ ∀ e ∈ entries, P e.1 ∧ e.2.EveryString P := by
  induction entries with
  | nil => simp [EveryStringEntries]
  | cons e entries ih => rw [EveryStringEntries, ih, forall_mem_cons, and_assoc]

variable {token : Token}

theorem mem_tokensOfItems {x : QObject δ} (hx : x ∈ items) (htoken : token ∈ tokensOf x) (count : Nat) :
    token ∈ tokensOfItems count items := by
  induction items generalizing count with
  | nil => exact absurd hx not_mem_nil
  | cons y items ih =>
    rw [tokensOfItems]
    refine mem_append_right _ (mem_append.mpr ?_)
    rcases mem_cons.mp hx with rfl | hx
    · exact .inl htoken
    · exact .inr (ih hx _)

theorem mem_tokensOfEntries {e : List Byte × QObject δ} (he : e ∈ entries)
    (htoken : token = ⟨.string, stringToJson e.1⟩ ∨ token ∈ tokensOf e.2) (count : Nat) :
    token ∈ tokensOfEntries count entries := by
  induction entries generalizing count with
  | nil => exact absurd he not_mem_nil
  | cons f entries ih =>
    rw [tokensOfEntries]
    refine mem_append_right _ (mem_cons.mpr ?_)
    rcases mem_cons.mp he with rfl | he
    · refine htoken.imp id fun htoken => ?_
      exact mem_cons_of_mem _ (mem_append_left _ htoken)
    · exact .inr (mem_cons_of_mem _ (mem_append_right _ (ih he _)))

/-- Feeding the text of a value, in either form, processes its tokens. -/
theorem lexed (t : QObject δ) (hwf : t.WellFormed) (hvalid : t.EveryString ValidString)
    (hsizes : ∀ token ∈ tokensOf t, token.str.length ≤ MAX_TOKEN_SIZE) : Lexed libc pretty t := by
  induction t using QObject.induct with
  | hnull =>
    intro indent parser _
    rw [toJson]
    exact feed_keyword libc (by decide) (by decide) parser
  | hbool b =>
    intro indent parser _
    rw [toJson, tokensOf]
    cases b with
    | false | true => exact feed_keyword libc (by decide) (by decide) parser
  | hint n =>
    intro indent parser _
    rw [toJson]
    exact feed_int libc (hsizes _ (by rw [tokensOf]; exact mem_cons_self)) parser
  | hstr s =>
    intro indent parser _
    rw [QObject.EveryString] at hvalid
    rw [toJson, feed_string libc hvalid (hsizes _ (by rw [tokensOf]; exact mem_cons_self))]
    exact pending_idle libc _
  | hfloat d => exact absurd hwf (by rw [QObject.WellFormed]; exact id)
  | hlist items ih =>
    intro indent parser hnesting
    rw [QObject.WellFormed] at hwf
    rw [QObject.EveryString, everyStringItems_iff] at hvalid
    rw [QObject.nesting] at hnesting
    rw [tokensOf] at hsizes
    have hlexed (x : QObject δ) (hx : x ∈ items) : Lexed libc pretty x := by
      refine ih x hx (wellFormedItems_iff.mp hwf x hx) (hvalid x hx) fun token htoken => ?_
      refine hsizes token (mem_cons_of_mem _ (mem_append_left _ ?_))
      exact mem_tokensOfItems hx htoken 0
    have hitems (p : JSONMessageParser δ) := @feed_items δ libc pretty (indent + 1) items hwf
      hlexed (by omega) 0 _ p (pending_idle libc p) (fun _ => rfl)
    rw [toJson, tokensOf, feed_cons,
      feed_punctuation libc (show jsonLexer .start lsquare = .token .lsquare by decide)
        (by decide), feed_append, processAll_cons, processAll_append,
      feed_close libc (by omega) (by decide)
        (show jsonLexer .start rsquare = .token .rsquare by decide) (by decide) (by decide)
        (hitems _)]
    exact pending_idle libc _
  | hdict entries ih =>
    intro indent parser hnesting
    rw [QObject.WellFormed] at hwf
    rw [QObject.EveryString, everyStringEntries_iff] at hvalid
    rw [QObject.nesting] at hnesting
    rw [tokensOf] at hsizes
    have hmem {token : Token} (h : token ∈ tokensOfEntries 0 entries) :=
      hsizes token (mem_cons_of_mem _ (mem_append_left _ h))
    have hlexed (e : List Byte × QObject δ) (he : e ∈ entries) : Lexed libc pretty e.2 := by
      refine ih e he (wellFormedEntries_iff.mp hwf.2 e he) (hvalid e he).2 fun token htoken => ?_
      exact hmem (mem_tokensOfEntries he (.inr htoken) 0)
    have hentries (p : JSONMessageParser δ) := @feed_entries δ libc pretty (indent + 1) entries
      hwf.2 (fun e he => (hvalid e he).1)
      (fun e he => hmem (mem_tokensOfEntries he (.inl rfl) 0)) hlexed (by omega) 0 _ p
      (pending_idle libc p) (fun _ => rfl)
    rw [toJson, tokensOf, feed_cons,
      feed_punctuation libc (show jsonLexer .start lcurly = .token .lcurly by decide)
        (by decide), feed_append, processAll_cons, processAll_append,
      feed_close libc (by omega) (by decide)
        (show jsonLexer .start rcurly = .token .rcurly by decide) (by decide) (by decide)
        (hentries _)]
    exact pending_idle libc _

end TcgArm.Json
