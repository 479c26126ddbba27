import TcgArm.JsonStrings

/-! The lexer on printed text. `tokensOf` lists the tokens of a value, and feeding the printed text
hands exactly these to the streamer. Numbers and keywords end at the character behind them, and
blanks at the next token, so the lexer that has read a value is `Pending`: on every character that
the printer puts behind a value, and on the final flush, it does what it would do had the last token
been emitted. -/

namespace TcgArm.Json

open Bool List TcgArm.Unicode

variable {δ : Type}

def separatorTokens (count : Nat) : List Token := if count ≠ 0 then [⟨.comma, [comma]⟩] else []

mutual
def tokensOf : QObject δ → List Token
  | .null => [⟨.keyword, ascii ['n', 'u', 'l', 'l']⟩]
  | .bool b => [⟨.keyword, if b then ascii ['t', 'r', 'u', 'e'] else ascii ['f', 'a', 'l', 's', 'e']⟩]
  | .int n => [⟨.integer, intToJson n⟩]
  | .str s => [⟨.string, stringToJson s⟩]
  | .float _ => []
  | .list items => ⟨.lsquare, [lsquare]⟩ :: (tokensOfItems 0 items ++ [⟨.rsquare, [rsquare]⟩])
  | .dict entries => ⟨.lcurly, [lcurly]⟩ :: (tokensOfEntries 0 entries ++ [⟨.rcurly, [rcurly]⟩])

def tokensOfItems : Nat → List (QObject δ) → List Token
  | _, [] => []
  | count, x :: items =>
    separatorTokens count ++ (tokensOf x ++ tokensOfItems (count + 1) items)

def tokensOfEntries : Nat → QDict δ → List Token
  | _, [] => []
  | count, (k, v) :: entries =>
    separatorTokens count ++ (⟨.string, stringToJson k⟩ :: ⟨.colon, [colon]⟩ ::
      (tokensOf v ++ tokensOfEntries (count + 1) entries))
end

def Goto.isState : Goto → Bool
  | .state _ => true
  | _ => false

def trace : LexState → List Byte → Option LexState
  | s, [] => some s
  | s, ch :: text =>
    match jsonLexer s ch with
    | .state s => trace s text
    | _ => none

variable {s s' : LexState} {ch : Byte} {lexer : JSONLexer δ} {t : TokenType}
    {parser : JSONMessageParser δ}

theorem trace_append {a : List Byte} (ha : trace s a = some s') (b : List Byte) :
    trace s (a ++ b) = trace s' b := by
  induction a generalizing s with
  | nil =>
    cases ha
    rfl
  | cons ch a ih =>
    rw [cons_append, trace] at *
    cases hgoto : jsonLexer s ch with
    | state t =>
      rw [hgoto] at ha
      exact ih ha
    | token | error => rw [hgoto] at ha; cases ha

theorem trace_cons (h : jsonLexer s ch = .state s') (text : List Byte) :
    trace s (ch :: text) = trace s' text := by
  rw [trace, h]

theorem zero_column (s : LexState) : (jsonLexer s 0).isState = false := by
  cases s <;> decide

theorem ne_of_isState : jsonLexer s 0 ≠ .state s' := by
  intro h
  have := zero_column s
  rw [h] at this
  exact Bool.noConfusion this

theorem start_zero : jsonLexer .start 0 = .error := by decide

variable (libc : Libc δ) {n : Nat}

def idle (parser : JSONMessageParser δ) : JSONLexer δ := ⟨.start, [], parser⟩

@[simp] theorem feed_nil (lexer : JSONLexer δ) : jsonLexerFeed libc lexer [] = lexer := rfl

@[simp] theorem feed_cons (lexer : JSONLexer δ) (ch : Byte) (text : List Byte) :
    jsonLexerFeed libc lexer (ch :: text) =
      jsonLexerFeed libc (jsonLexerFeedChar libc lexer ch false) text := rfl

theorem feed_append (lexer : JSONLexer δ) (a b : List Byte) :
    jsonLexerFeed libc lexer (a ++ b) = jsonLexerFeed libc (jsonLexerFeed libc lexer a) b :=
  foldl_append

theorem limitToken_le (hsize : lexer.token.length ≤ MAX_TOKEN_SIZE) : limitToken libc lexer = lexer := by
  rw [limitToken, if_neg (by omega)]

theorem feedChar_inside {token : List Byte} (h : jsonLexer s ch = .state s')
    (hsize : token.length + 1 ≤ MAX_TOKEN_SIZE) (parser : JSONMessageParser δ) :
    jsonLexerFeedChar libc ⟨s, token, parser⟩ ch false = ⟨s', token ++ [ch], parser⟩ := by
  have hconsumed : decide (jsonLexer s 0 ≠ Goto.state s') = true := decide_eq_true ne_of_isState
  simp only [jsonLexerFeedChar, feedTurn, h, hconsumed, if_true, false_eq_true, if_false, Bool.or_false]
  exact limitToken_le libc (by simpa using hsize)

theorem feed_trace {token text : List Byte} (h : trace s text = some s')
    (hsize : token.length + text.length ≤ MAX_TOKEN_SIZE) (parser : JSONMessageParser δ) :
    jsonLexerFeed libc ⟨s, token, parser⟩ text = ⟨s', token ++ text, parser⟩ := by
  induction text generalizing s token with
  | nil =>
    cases h
    rw [append_nil, feed_nil]
  | cons ch text ih =>
    rw [length_cons] at hsize
    rw [trace] at h
    cases hgoto : jsonLexer s ch with
    | state t =>
      rw [hgoto] at h
      rw [feed_cons, feedChar_inside libc hgoto (by omega),
        ih h (by rw [length_append, length_singleton]; omega), append_assoc,
        singleton_append]
    | token | error => rw [hgoto] at h; cases h

theorem feedTurn_token (h : jsonLexer lexer.state ch = .token t) (hskip : t ≠ .skip) :
    feedTurn libc lexer ch = ((if decide (jsonLexer lexer.state 0 ≠ .token t) then
          { lexer with token := lexer.token ++ [ch] } else lexer).emit libc t,
        decide (jsonLexer lexer.state 0 ≠ .token t), false) := by
  cases t with
  | skip => exact absurd rfl hskip
  | _ => simp only [feedTurn, h]

theorem feedChar_emit {s : LexState} {token : List Byte} (h : jsonLexer s ch = .token t)
    (hskip : t ≠ .skip) (hzero : jsonLexer s 0 ≠ .token t) (parser : JSONMessageParser δ) :
    jsonLexerFeedChar libc ⟨s, token, parser⟩ ch false =
      idle (jsonMessageProcessToken libc parser ⟨t, token ++ [ch]⟩) := by
  have hconsumed : decide (jsonLexer s 0 ≠ Goto.token t) = true := decide_eq_true hzero
  rw [jsonLexerFeedChar, feedTurn_token libc h hskip]
  simp only [hconsumed, if_true, false_eq_true, if_false, Bool.or_false]
  exact limitToken_le libc (Nat.zero_le _)

/-- The lexer once the token it holds has been emitted, or dropped when it is blank. -/
def afterToken (lexer : JSONLexer δ) (t : TokenType) : JSONLexer δ :=
  if t = .skip then idle lexer.parser
  else idle (jsonMessageProcessToken libc lexer.parser ⟨t, lexer.token⟩)

theorem feedTurn_lookahead (h : jsonLexer lexer.state ch = .token t)
    (hzero : jsonLexer lexer.state 0 = .token t) :
    feedTurn libc lexer ch = (afterToken libc lexer t, false, false) := by
  have hconsumed : decide (jsonLexer lexer.state 0 ≠ Goto.token t) = false :=
    decide_eq_false (not_not_intro hzero)
  by_cases hskip : t = .skip
  · subst hskip
    simp only [feedTurn, h, hconsumed, afterToken, if_true, false_eq_true, if_false, idle]
  · rw [feedTurn_token libc h hskip]
    simp only [hconsumed, afterToken, if_neg hskip, false_eq_true, if_false, idle, JSONLexer.emit]

/-- From the start state a character is consumed unless it is an error. -/
theorem feedTurn_start {lexer : JSONLexer δ} (hstart : lexer.state = .start) {ch : Byte}
    (hok : (feedTurn libc lexer ch).2.2 = false) : (feedTurn libc lexer ch).2.1 = true := by
  cases hgoto : jsonLexer .start ch with
  | state t =>
    simp only [feedTurn, hstart, hgoto, start_zero]
    exact decide_eq_true Goto.noConfusion
  | token t =>
    have hconsumed : decide (jsonLexer lexer.state 0 ≠ .token t) = true := by
      rw [hstart, start_zero]
      exact decide_eq_true Goto.noConfusion
    by_cases hskip : t = .skip
    · subst hskip
      rw [hstart] at hconsumed
      simp only [feedTurn, hstart, hgoto, hconsumed]
    · rw [feedTurn_token libc (hstart ▸ hgoto) hskip]
      exact hconsumed
  | error =>
    simp only [feedTurn, hstart, hgoto] at hok
    exact Bool.noConfusion hok

theorem afterToken_start (lexer : JSONLexer δ) (t : TokenType) :
    (afterToken libc lexer t).state = .start := by
  rw [afterToken]
  split_ifs <;> rfl

/-- A character that shows the end of a token is then read from the start. -/
theorem feedChar_lookahead {lexer : JSONLexer δ} {ch : Byte} {t : TokenType}
    (h : jsonLexer lexer.state ch = .token t) (hzero : jsonLexer lexer.state 0 = .token t) :
    jsonLexerFeedChar libc lexer ch false = jsonLexerFeedChar libc (afterToken libc lexer t) ch false := by
  have hstart := @feedTurn_start δ libc _ (afterToken_start libc lexer t) ch
  rw [jsonLexerFeedChar, feedTurn_lookahead libc h hzero, jsonLexerFeedChar]
  simp only [Bool.or_self, Bool.or_false, false_eq_true, if_false]
  generalize feedTurn libc (afterToken libc lexer t) ch = turn at hstart
  obtain ⟨next, consumed, failed⟩ := turn
  cases failed with
  | true => rfl
  | false =>
    have hconsumed : consumed = true := hstart rfl
    subst hconsumed
    rfl

theorem flush_lookahead (hzero : jsonLexer lexer.state 0 = .token t) :
    jsonLexerFlush libc lexer = afterToken libc lexer t := by
  have hne : lexer.state ≠ .start := by
    intro h
    rw [h, start_zero] at hzero
    cases hzero
  rw [jsonLexerFlush, if_neg hne, jsonLexerFeedChar, feedTurn_lookahead libc hzero hzero]
  refine limitToken_le libc ?_
  rw [afterToken]
  split_ifs <;> exact Nat.zero_le _

def closers : List Byte := [comma, colon, space, newline, rsquare, rcurly]

/-- The lexer acts as if all it has read had been emitted to `parser`. -/
structure Pending (lexer : JSONLexer δ) (parser : JSONMessageParser δ) : Prop where
  feed : ∀ ch ∈ closers, jsonLexerFeedChar libc lexer ch false = jsonLexerFeedChar libc (idle parser) ch false
  flush : jsonLexerFlush libc lexer = idle parser

theorem pending_idle (parser : JSONMessageParser δ) : Pending libc (idle parser) parser :=
  ⟨fun _ _ => rfl, rfl⟩

theorem pending_lookahead {lexer : JSONLexer δ} {t : TokenType} (hskip : t ≠ .skip)
    (hzero : jsonLexer lexer.state 0 = .token t)
    (hclose : ∀ ch ∈ closers, jsonLexer lexer.state ch = .token t) :
    Pending libc lexer (jsonMessageProcessToken libc lexer.parser ⟨t, lexer.token⟩) := by
  have hafter : afterToken libc lexer t =
      idle (jsonMessageProcessToken libc lexer.parser ⟨t, lexer.token⟩) := if_neg hskip
  refine ⟨fun ch hch => ?_, ?_⟩
  · rw [feedChar_lookahead libc (hclose ch hch) hzero, hafter]
  · rw [flush_lookahead libc hzero, hafter]

/-- At most `n` blanks have been read since the last token. -/
def Blank (n : Nat) (lexer : JSONLexer δ) (parser : JSONMessageParser δ) : Prop :=
  lexer = idle parser ∨ ∃ blanks, blanks.length ≤ n ∧ lexer = ⟨.whitespace, blanks, parser⟩

theorem blank_feed (hch : ch = space ∨ ch = newline) (hsize : n + 1 ≤ MAX_TOKEN_SIZE)
    (hblank : Blank n lexer parser) :
    Blank (n + 1) (jsonLexerFeedChar libc lexer ch false) parser := by
  have hstart : jsonLexer .start ch = .state .whitespace := by
    rcases hch with rfl | rfl <;> decide
  have hmore : jsonLexer .whitespace ch = .state .whitespace := by
    rcases hch with rfl | rfl <;> decide
  rcases hblank with rfl | ⟨blanks, hlength, rfl⟩
  · refine .inr ⟨[ch], Nat.le_add_left 1 n, ?_⟩
    exact feedChar_inside libc hstart (by rw [length_nil]; omega) parser
  · refine .inr ⟨blanks ++ [ch], by simpa using hlength, ?_⟩
    exact feedChar_inside libc hmore (by omega) parser

theorem blank_feed_spaces {n k : Nat} (hsize : n + k ≤ MAX_TOKEN_SIZE) (hblank : Blank n lexer parser) :
    Blank (n + k) (jsonLexerFeed libc lexer (replicate k space)) parser := by
  induction k generalizing n lexer with
  | zero => exact hblank
  | succ k ih =>
    rw [replicate_succ, feed_cons, show n + (k + 1) = n + 1 + k by omega]
    exact ih (by omega) (blank_feed libc (.inl rfl) (by omega) hblank)

theorem blank_start (hch : jsonLexer .whitespace ch = .token .skip) (hblank : Blank n lexer parser) :
    jsonLexerFeedChar libc lexer ch false = jsonLexerFeedChar libc (idle parser) ch false := by
  rcases hblank with rfl | ⟨blanks, -, rfl⟩
  · rfl
  · have hzero : jsonLexer .whitespace 0 = .token .skip := by decide
    exact @feedChar_lookahead δ libc ⟨.whitespace, blanks, parser⟩ ch .skip hch hzero

end TcgArm.Json
