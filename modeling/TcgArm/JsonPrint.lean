import TcgArm.QObjects

/-! The printer of `qobject/qjson.c`: `to_json` with its compact and its pretty form. The text is
the list of bytes that `qstring_append` has put together. What the C library makes of a double
(`%f` and `strtod`) is a parameter. -/

namespace TcgArm.Json

open TcgArm.Unicode

variable {δ : Type}

/-- The host's conversions between doubles and text. -/
structure Libc (δ : Type) where
  format : δ → List Byte
  strtod : List Byte → δ

def byte (c : Char) : Byte := BitVec.ofNat 8 c.toNat

def ascii (cs : List Char) : List Byte := cs.map byte

def quote : Byte := byte '\x22'
def backslash : Byte := byte '\x5c'
def lcurly : Byte := byte '\x7b'
def rcurly : Byte := byte '\x7d'
def lsquare : Byte := byte '['
def rsquare : Byte := byte ']'
def comma : Byte := byte ','
def colon : Byte := byte ':'
def space : Byte := byte ' '
def newline : Byte := byte '\n'

/-- A digit of `%X`. -/
def hexDigit (d : Nat) : Byte := BitVec.ofNat 8 (if d < 10 then 48 + d else 55 + d)

/-- `\u%04X` of a number below `0x10000`. -/
def unicodeEscape (n : Nat) : List Byte :=
  [backslash, byte 'u', hexDigit (n / 4096 % 16), hexDigit (n / 256 % 16), hexDigit (n / 16 % 16),
    hexDigit (n % 16)]

/-- The `switch` on one code point of a string; `none` is the -1 of a bad sequence. -/
def escape (cp : Option Nat) : List Byte :=
  if cp = some 0x22 then [backslash, quote]
  else if cp = some 0x5c then [backslash, backslash]
  else if cp = some 0x08 then [backslash, byte 'b']
  else if cp = some 0x0c then [backslash, byte 'f']
  else if cp = some 0x0a then [backslash, byte 'n']
  else if cp = some 0x0d then [backslash, byte 'r']
  else if cp = some 0x09 then [backslash, byte 't']
  else
    let cp := cp.getD 0xFFFD
    if cp > 0xFFFF then
      unicodeEscape (0xD800 + (cp - 0x10000) >>> 10) ++ unicodeEscape (0xDC00 + ((cp - 0x10000) &&& 0x3FF))
    else if cp < 0x20 ∨ cp ≥ 0x7F then unicodeEscape cp
    else [BitVec.ofNat 8 cp]

def escapeLoop : Nat → List Byte → List Byte
  | 0, _ => []
  | turns + 1, ptr =>
    if deref ptr = 0 then []
    else
      let (cp, stop) := modUtf8Codepoint ptr 6
      escape cp ++ escapeLoop turns stop

def stringToJson (s : List Byte) : List Byte := quote :: (escapeLoop s.length s ++ [quote])

/-- `%PRId64`. -/
def intToJson (n : Int) : List Byte :=
  if n < 0 then byte '-' :: ascii (Nat.toDigits 10 n.natAbs) else ascii (Nat.toDigits 10 n.natAbs)

/-- The text of `%f` without the zeros at its end, and without a point that then ends it. -/
def floatToJson (libc : Libc δ) (d : δ) : List Byte :=
  let buffer := (libc.format d).reverse.dropWhile (· = byte '0')
  (if buffer.head? = some (byte '.') then buffer.tail else buffer).reverse

def lineBreak (pretty : Bool) (indent : Nat) : List Byte :=
  if pretty then newline :: List.replicate (4 * indent) space else []

/-- What stands before the next item: the comma unless it is the first, then the line break. -/
def separator (pretty : Bool) (indent count : Nat) : List Byte :=
  (if count ≠ 0 then (if pretty then [comma] else [comma, space]) else []) ++ lineBreak pretty indent

mutual
def toJson (libc : Libc δ) (pretty : Bool) (indent : Nat) : QObject δ → List Byte
  | .null => ascii ['n', 'u', 'l', 'l']
  | .int n => intToJson n
  | .str s => stringToJson s
  | .dict entries =>
    lcurly :: (toJsonDictIter libc pretty (indent + 1) 0 entries ++ (lineBreak pretty indent ++ [rcurly]))
  | .list items =>
    lsquare :: (toJsonListIter libc pretty (indent + 1) 0 items ++ (lineBreak pretty indent ++ [rsquare]))
  | .float d => floatToJson libc d
  | .bool b => if b then ascii ['t', 'r', 'u', 'e'] else ascii ['f', 'a', 'l', 's', 'e']

def toJsonListIter (libc : Libc δ) (pretty : Bool) (indent : Nat) :
    Nat → List (QObject δ) → List Byte
  | _, [] => []
  | count, x :: items =>
    separator pretty indent count ++
      (toJson libc pretty indent x ++ toJsonListIter libc pretty indent (count + 1) items)

def toJsonDictIter (libc : Libc δ) (pretty : Bool) (indent : Nat) : Nat → QDict δ → List Byte
  | _, [] => []
  | count, (k, v) :: entries =>
    separator pretty indent count ++ (stringToJson k ++ (colon :: space ::
      (toJson libc pretty indent v ++ toJsonDictIter libc pretty indent (count + 1) entries)))
end

def qobjectToJson (libc : Libc δ) (obj : QObject δ) : List Byte := toJson libc false 0 obj

def qobjectToJsonPretty (libc : Libc δ) (obj : QObject δ) : List Byte := toJson libc true 0 obj

end TcgArm.Json
