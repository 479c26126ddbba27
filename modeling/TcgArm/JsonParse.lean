import TcgArm.JsonPrint

/-! The reader of `qobject/`: the lexer's state table with `json_lexer_feed_char`, the streamer that
gathers the tokens of one message within its limits, and the recursive descent parser behind
`qobject_from_json`, which has no arguments for format escapes. The places of tokens and the
messages of errors go nowhere and are left out; a failed assertion is `none`, as the null pointer
is. -/

namespace TcgArm.Json

open TcgArm.Unicode

variable {δ : Type}

inductive LexState where
  | dqUcode3 | dqUcode2 | dqUcode1 | dqUcode0 | dqStringEscape | dqString
  | sqUcode3 | sqUcode2 | sqUcode1 | sqUcode0 | sqStringEscape | sqString
  | zero | digits | digit | expE | mantissa | mantissaDigits | nonzeroNumber | negNonzeroNumber
  | keyword | escape | escapeL | escapeLL | escapeI | escapeI6 | escapeI64 | whitespace | start
  deriving DecidableEq

/-- The token types. `raw` is the lexer state that is passed for one when a token is too long. -/
inductive TokenType where
  | lcurly | rcurly | lsquare | rsquare | colon | comma | integer | float | keyword | string
  | escape | skip | error | raw (state : LexState)
  deriving DecidableEq

/-- What the table holds: the next state, a token, or `IN_ERROR`. -/
inductive Goto where
  | state (s : LexState)
  | token (t : TokenType)
  | error
  deriving DecidableEq

def between (low high : Char) (ch : Byte) : Bool := byte low ≤ ch && ch ≤ byte high

def isDigit (ch : Byte) : Bool := between '0' '9' ch

def isHex (ch : Byte) : Bool := isDigit ch || between 'a' 'f' ch || between 'A' 'F' ch

def isBlank (ch : Byte) : Bool :=
  ch = space || ch = byte '\t' || ch = byte '\x0d' || ch = newline

/-- `TERMINAL(state)`. -/
def terminal (t : TokenType) (ch : Byte) : Goto := if ch ≤ 0x7F then .token t else .error

/-- The row of a hexadecimal digit of a `\u` escape. -/
def ucodeRow (next : LexState) (ch : Byte) : Goto := if isHex ch then .state next else .error

def stringEscapeRow (ucode string : LexState) (ch : Byte) : Goto :=
  if ch = byte 'u' then .state ucode
  else if ch ∈ ascii ['b', 'f', 'n', 'r', 't', '/', '\x5c', '\x27', '\x22'] then .state string
  else .error

/-- The row inside a string that the byte `close` ends. -/
def stringRow (close : Byte) (esc string : LexState) (ch : Byte) : Goto :=
  if ch = close then .token .string
  else if ch = backslash then .state esc
  else if (1 ≤ ch && ch ≤ 0xBF) || (0xC2 ≤ ch && ch ≤ 0xF4) then .state string
  else .error

/-- The table `json_lexer`. -/
def jsonLexer : LexState → Byte → Goto
  | .dqUcode3, ch => ucodeRow .dqString ch
  | .dqUcode2, ch => ucodeRow .dqUcode3 ch
  | .dqUcode1, ch => ucodeRow .dqUcode2 ch
  | .dqUcode0, ch => ucodeRow .dqUcode1 ch
  | .dqStringEscape, ch => stringEscapeRow .dqUcode0 .dqString ch
  | .dqString, ch => stringRow quote .dqStringEscape .dqString ch
  | .sqUcode3, ch => ucodeRow .sqString ch
  | .sqUcode2, ch => ucodeRow .sqUcode3 ch
  | .sqUcode1, ch => ucodeRow .sqUcode2 ch
  | .sqUcode0, ch => ucodeRow .sqUcode1 ch
  | .sqStringEscape, ch => stringEscapeRow .sqUcode0 .sqString ch
  | .sqString, ch => stringRow (byte '\x27') .sqStringEscape .sqString ch
  | .zero, ch =>
    if isDigit ch then .error else if ch = byte '.' then .state .mantissa
    else terminal .integer ch
  | .digits, ch => if isDigit ch then .state .digits else terminal .float ch
  | .digit, ch => if isDigit ch then .state .digits else .error
  | .expE, ch =>
    if ch = byte '-' || ch = byte '+' then .state .digit
    else if isDigit ch then .state .digits else .error
  | .mantissaDigits, ch =>
    if isDigit ch then .state .mantissaDigits
    else if ch = byte 'e' || ch = byte 'E' then .state .expE else terminal .float ch
  | .mantissa, ch => if isDigit ch then .state .mantissaDigits else .error
  | .nonzeroNumber, ch =>
    if isDigit ch then .state .nonzeroNumber
    else if ch = byte 'e' || ch = byte 'E' then .state .expE
    else if ch = byte '.' then .state .mantissa else terminal .integer ch
  | .negNonzeroNumber, ch =>
    if ch = byte '0' then .state .zero
    else if between '1' '9' ch then .state .nonzeroNumber else .error
  | .keyword, ch => if between 'a' 'z' ch then .state .keyword else terminal .keyword ch
  | .whitespace, ch => if isBlank ch then .state .whitespace else terminal .skip ch
  | .escapeLL, ch => if ch = byte 'd' then .token .escape else .error
  | .escapeL, ch =>
    if ch = byte 'd' then .token .escape
    else if ch = byte 'l' then .state .escapeLL else .error
  | .escapeI64, ch => if ch = byte 'd' then .token .escape else .error
  | .escapeI6, ch => if ch = byte '4' then .state .escapeI64 else .error
  | .escapeI, ch => if ch = byte '6' then .state .escapeI6 else .error
  | .escape, ch =>
    if ch ∈ ascii ['d', 'i', 'p', 's', 'f'] then .token .escape
    else if ch = byte 'l' then .state .escapeL
    else if ch = byte 'I' then .state .escapeI else .error
  | .start, ch =>
    if ch = quote then .state .dqString
    else if ch = byte '\x27' then .state .sqString
    else if ch = byte '0' then .state .zero
    else if between '1' '9' ch then .state .nonzeroNumber
    else if ch = byte '-' then .state .negNonzeroNumber
    else if ch = lcurly then .token .lcurly
    else if ch = rcurly then .token .rcurly
    else if ch = lsquare then .token .lsquare
    else if ch = rsquare then .token .rsquare
    else if ch = comma then .token .comma
    else if ch = colon then .token .colon
    else if between 'a' 'z' ch then .state .keyword
    else if ch = byte '%' then .state .escape
    else if isBlank ch then .state .whitespace
    else .error

structure Token where
  type : TokenType
  str : List Byte
  deriving DecidableEq

/-- What `qstring_append` takes of a buffer: the bytes before the first zero. -/
def cString (buffer : List Byte) : List Byte := buffer.takeWhile (· ≠ 0)

def wcharToUtf8 (wchar : Nat) : List Byte :=
  if wchar ≤ 0x7F then [BitVec.ofNat 8 (wchar &&& 0x7F)]
  else if wchar ≤ 0x7FF then
    [BitVec.ofNat 8 (0xC0 ||| (wchar >>> 6 &&& 0x1F)), BitVec.ofNat 8 (0x80 ||| (wchar &&& 0x3F))]
  else
    [BitVec.ofNat 8 (0xE0 ||| (wchar >>> 12 &&& 0x0F)),
      BitVec.ofNat 8 (0x80 ||| (wchar >>> 6 &&& 0x3F)), BitVec.ofNat 8 (0x80 ||| (wchar &&& 0x3F))]

def hex2decimal (ch : Byte) : Nat :=
  if isDigit ch then ch.toNat - 48
  else if between 'a' 'f' ch then 10 + (ch.toNat - 97)
  else 10 + (ch.toNat - 65)

/-- What the letter behind a backslash stands for, `\u` apart. -/
def simpleEscape (ch : Byte) : Option Byte :=
  if ch ∈ ascii ['\x22', '\x27', '\x5c', '/'] then some ch
  else if ch = byte 'b' then some 0x08
  else if ch = byte 'f' then some 0x0c
  else if ch = byte 'n' then some 0x0a
  else if ch = byte 'r' then some 0x0d
  else if ch = byte 't' then some 0x09
  else none

/-- The loop of `qstring_from_escaped_str` up to the byte `close` or the end of the token. -/
def unescape (close : Byte) : List Byte → Option (List Byte)
  | [] => some []
  | c :: ptr =>
    if c = 0 ∨ c = close then some []
    else if c = backslash then
      match ptr with
      | [] => none
      | e :: ptr =>
        if e = byte 'u' then
          match ptr with
          | h₀ :: h₁ :: h₂ :: h₃ :: ptr =>
            if isHex h₀ && isHex h₁ && isHex h₂ && isHex h₃ then
              (cString (wcharToUtf8 (hex2decimal h₀ <<< 12 ||| hex2decimal h₁ <<< 8 |||
                hex2decimal h₂ <<< 4 ||| hex2decimal h₃)) ++ ·) <$> unescape close ptr
            else none
          | _ => none
        else
          match simpleEscape e with
          | some b => (b :: ·) <$> unescape close ptr
          | none => none
    else (c :: ·) <$> unescape close ptr

/-- A token in single quotes starts with `'`; every other one is read as if in double quotes. -/
def qstringFromEscapedStr (str : List Byte) : Option (List Byte) :=
  unescape (if str.head? = some quote then quote else byte '\x27') str.tail

def digitsValue (str : List Byte) : Nat :=
  (str.takeWhile isDigit).foldl (fun value ch => 10 * value + (ch.toNat - 48)) 0

/-- `strtoll` in base ten on an integer token; `none` is `ERANGE`. -/
def strtoll (str : List Byte) : Option Int :=
  let value : Int :=
    if str.head? = some (byte '-') then - (digitsValue str.tail : Int) else (digitsValue str : Int)
  if -2 ^ 63 ≤ value ∧ value < 2 ^ 63 then some value else none

def parseKeyword (token : Token) : Option (QObject δ) :=
  if token.str = ascii ['t', 'r', 'u', 'e'] then some (.bool true)
  else if token.str = ascii ['f', 'a', 'l', 's', 'e'] then some (.bool false)
  else if token.str = ascii ['n', 'u', 'l', 'l'] then some .null
  else none

def parseLiteral (libc : Libc δ) (token : Token) : Option (QObject δ) :=
  match token.type with
  | .string => (qstringFromEscapedStr token.str).map .str
  | .integer =>
    match strtoll token.str with
    | some value => some (.int value)
    | none => some (.float (libc.strtod token.str))
  | .float => some (.float (libc.strtod token.str))
  | _ => none

section Rules

variable (parseValue : List Token → Option (QObject δ × List Token))

/-- `parse_pair`: the dictionary with the pair put into it, and the tokens behind the pair. -/
def parsePair (dict : QDict δ) (tokens : List Token) : Option (QDict δ × List Token) := do
  let (key, tokens) ← parseValue tokens
  match key, tokens with
  | .str key, ⟨.colon, _⟩ :: tokens =>
    let (value, tokens) ← parseValue tokens
    some (qdictPutObj dict key value, tokens)
  | _, _ => none

/-- A pair, then the loop of `parse_object`; every turn takes a token at least. -/
def parsePairs : Nat → QDict δ → List Token → Option (QDict δ × List Token)
  | 0, _, _ => none
  | turns + 1, dict, tokens => do
    let (dict, tokens) ← parsePair parseValue dict tokens
    match tokens with
    | ⟨.rcurly, _⟩ :: tokens => some (dict, tokens)
    | ⟨.comma, _⟩ :: tokens => parsePairs turns dict tokens
    | _ => none

/-- `parse_object` behind its opening brace. -/
def parseObject (tokens : List Token) : Option (QObject δ × List Token) :=
  match tokens with
  | ⟨.rcurly, _⟩ :: tokens => some (.dict [], tokens)
  | _ => (parsePairs parseValue tokens.length [] tokens).map fun r => (.dict r.1, r.2)

/-- An item, then the loop of `parse_array`. -/
def parseItems : Nat → List (QObject δ) → List Token → Option (List (QObject δ) × List Token)
  | 0, _, _ => none
  | turns + 1, list, tokens => do
    let (obj, tokens) ← parseValue tokens
    match tokens with
    | ⟨.rsquare, _⟩ :: tokens => some (list ++ [obj], tokens)
    | ⟨.comma, _⟩ :: tokens => parseItems turns (list ++ [obj]) tokens
    | _ => none

/-- `parse_array` behind its opening bracket. -/
def parseArray (tokens : List Token) : Option (QObject δ × List Token) :=
  match tokens with
  | ⟨.rsquare, _⟩ :: tokens => some (.list [], tokens)
  | _ => (parseItems parseValue tokens.length [] tokens).map fun r => (.list r.1, r.2)

end Rules

/-- `parse_value` with room for `depth` nested calls. -/
def parseValue (libc : Libc δ) : Nat → List Token → Option (QObject δ × List Token)
  | 0, _ => none
  | _ + 1, [] => none
  | depth + 1, token :: tokens =>
    match token.type with
    | .lcurly => parseObject (parseValue libc depth) tokens
    | .lsquare => parseArray (parseValue libc depth) tokens
    | .integer | .float | .string => (parseLiteral libc token).map (·, tokens)
    | .keyword => (parseKeyword token).map (·, tokens)
    | _ => none

/-- `json_parser_parse`. Every nested call has taken a token, so their number is depth enough. -/
def jsonParserParse (libc : Libc δ) (tokens : Option (List Token)) : Option (QObject δ) :=
  match tokens with
  | none => none
  | some tokens => (parseValue libc (tokens.length + 1) tokens).map Prod.fst

def MAX_TOKEN_SIZE : Nat := 64 <<< 20
def MAX_TOKEN_COUNT : Nat := 2 <<< 20
def MAX_NESTING : Nat := 1 <<< 10

/-- The streamer with the result that `parse_json` last stored. -/
structure JSONMessageParser (δ : Type) where
  braceCount : Int
  bracketCount : Int
  tokens : List Token
  tokenSize : Nat
  result : Option (QObject δ)

/-- `json_message_parser_init`. -/
def JSONMessageParser.init : JSONMessageParser δ := ⟨0, 0, [], 0, none⟩

/-- `out_emit`: the tokens go to the parser and the streamer starts anew. -/
def emitTokens (libc : Libc δ) (tokens : Option (List Token)) : JSONMessageParser δ :=
  ⟨0, 0, [], 0, jsonParserParse libc tokens⟩

def braceStep : TokenType → Int
  | .lcurly => 1
  | .rcurly => -1
  | _ => 0

def bracketStep : TokenType → Int
  | .lsquare => 1
  | .rsquare => -1
  | _ => 0

def pushToken (parser : JSONMessageParser δ) (token : Token) : JSONMessageParser δ :=
  { parser with
    braceCount := parser.braceCount + braceStep token.type
    bracketCount := parser.bracketCount + bracketStep token.type
    tokens := parser.tokens ++ [token]
    tokenSize := parser.tokenSize + token.str.length }

/-- `json_message_process_token`. -/
def jsonMessageProcessToken (libc : Libc δ) (parser : JSONMessageParser δ) (token : Token) :
    JSONMessageParser δ :=
  let parser := pushToken parser token
  if token.type = .error then emitTokens libc none
  else if parser.braceCount < 0 ∨ parser.bracketCount < 0 ∨
      (parser.braceCount = 0 ∧ parser.bracketCount = 0) then emitTokens libc (some parser.tokens)
  else if parser.tokenSize > MAX_TOKEN_SIZE ∨ parser.tokens.length > MAX_TOKEN_COUNT ∨
      parser.bracketCount + parser.braceCount > MAX_NESTING then emitTokens libc none
  else parser

/-- The lexer's own state and the streamer it emits to. -/
structure JSONLexer (δ : Type) where
  state : LexState
  token : List Byte
  parser : JSONMessageParser δ

def JSONLexer.emit (libc : Libc δ) (lexer : JSONLexer δ) (type : TokenType) : JSONLexer δ :=
  { state := .start, token := []
    parser := jsonMessageProcessToken libc lexer.parser ⟨type, lexer.token⟩ }

/-- One turn of the loop in `json_lexer_feed_char`: the lexer, whether the character was consumed,
and whether the function returned on an error. -/
def feedTurn (libc : Libc δ) (lexer : JSONLexer δ) (ch : Byte) : JSONLexer δ × Bool × Bool :=
  let newState := jsonLexer lexer.state ch
  let consumed := decide (jsonLexer lexer.state 0 ≠ newState)
  let lexer := if consumed then { lexer with token := lexer.token ++ [ch] } else lexer
  match newState with
  | .state s => ({ lexer with state := s }, consumed, false)
  | .token .skip => ({ lexer with state := .start, token := [] }, consumed, false)
  | .token type => (lexer.emit libc type, consumed, false)
  | .error => (lexer.emit libc .error, consumed, true)

def limitToken (libc : Libc δ) (lexer : JSONLexer δ) : JSONLexer δ :=
  if lexer.token.length > MAX_TOKEN_SIZE then lexer.emit libc (.raw lexer.state) else lexer

/-- `json_lexer_feed_char`. A character that ended a token and was not consumed is fed once more:
from the start state every character is consumed or an error. -/
def jsonLexerFeedChar (libc : Libc δ) (lexer : JSONLexer δ) (ch : Byte) (flush : Bool) :
    JSONLexer δ :=
  let (lexer, consumed, failed) := feedTurn libc lexer ch
  if failed then lexer
  else if consumed || flush then limitToken libc lexer
  else
    let (lexer, _, failed) := feedTurn libc lexer ch
    if failed then lexer else limitToken libc lexer

def jsonLexerFeed (libc : Libc δ) (lexer : JSONLexer δ) (buffer : List Byte) : JSONLexer δ :=
  buffer.foldl (fun lexer ch => jsonLexerFeedChar libc lexer ch false) lexer

def jsonLexerFlush (libc : Libc δ) (lexer : JSONLexer δ) : JSONLexer δ :=
  if lexer.state = .start then lexer else jsonLexerFeedChar libc lexer 0 true

def qobjectFromJson (libc : Libc δ) (string : List Byte) : Option (QObject δ) :=
  (jsonLexerFlush libc (jsonLexerFeed libc ⟨.start, [], .init⟩ string)).parser.result

end TcgArm.Json
