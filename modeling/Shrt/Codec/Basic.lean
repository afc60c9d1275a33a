import Shrt.Common

/-!
# The log line codec

One log line is one operation: a row, a hit delta or a tombstone. The encoder escapes urls and
nothing else. The decoder is a scanner without a grammar: it hops from quote to quote, takes the
first byte of whatever stands between two quotes as a key, and reads the value after the next
colon. Positions of the source are suffixes here: a `pos` that has reached `L` is the empty suffix,
and a `substr` whose end lies beyond the line is clamped in the same way.
-/

namespace Shrt

/-! ## Bytes with a meaning to the scanner -/

/-- The double quote. -/
def dquote : UInt8 := 34

/-- The backslash. -/
def bslash : UInt8 := 92

/-- The byte that ends a key. -/
def colon : UInt8 := 58

/-- The byte between fields. -/
def comma : UInt8 := 44

/-- The byte that closes a line. -/
def rbrace : UInt8 := 125

/-- The line terminator. -/
def NL : UInt8 := 10

/-- A one-byte key. -/
def key (c : Char) : UInt8 := c.toUInt8

/-- The white space the scanner skips. -/
def isBlank (b : UInt8) : Bool := b = 32 || b = 9

/-! ## Escaping -/

/-- One lower-case hexadecimal digit, as `%x` prints it. -/
def hexDigit (b : UInt8) : UInt8 := if b < 10 then 48 + b else 87 + b

/-- The escape of one byte; control bytes are printed with `\u%04x`. -/
def escByte (b : UInt8) : Bytes :=
  if b = dquote then [bslash, dquote]
  else if b = bslash then [bslash, bslash]
  else if b = 10 then [bslash, key 'n']
  else if b = 13 then [bslash, key 'r']
  else if b = 9 then [bslash, key 't']
  else if b < 32 then [bslash, key 'u', 48, 48, hexDigit (b / 16), hexDigit (b % 16)]
  else [b]

/-- JSON-escape a string value. -/
def esc (s : Bytes) : Bytes := s.flatMap escByte

/-- The bytes `unescape` emits for a code point. -/
def utf8Of (cp : UInt32) : Bytes :=
  let tail : UInt8 := (0x80 : UInt32) ||| (cp &&& 63) |>.toUInt8
  if cp < 0x80 then [cp.toUInt8]
  else if cp < 0x800 then [(0xc0 : UInt32) ||| cp >>> 6 |>.toUInt8, tail]
  else [(0xe0 : UInt32) ||| cp >>> 12 |>.toUInt8, (0x80 : UInt32) ||| (cp >>> 6 &&& 63) |>.toUInt8,
    tail]

/-- Undo `esc`. A backslash at the very end is copied, and a `\u` with fewer than four bytes after
it is dropped. -/
def unescape : Bytes → Bytes
  | [] => []
  | b :: r =>
    if b ≠ bslash then b :: unescape r
    else match r with
      | [] => [b]
      | e :: r =>
        if e = key 'n' then 10 :: unescape r
        else if e = key 'r' then 13 :: unescape r
        else if e = key 't' then 9 :: unescape r
        else if e = key 'u' then
          match r with
          | h₁ :: h₂ :: h₃ :: h₄ :: r' =>
            utf8Of (strtoul16 [h₁, h₂, h₃, h₄]).toUInt32 ++ unescape r'
          | short => unescape short
        else e :: unescape r

/-! ## Encoding -/

/-- `row_line`. -/
def rowLine (c u : Bytes) (a e i n : Int64) : Bytes :=
  lit "\x7b\"c\":\"" ++ c ++ lit "\",\"u\":\"" ++ esc u ++ lit "\",\"a\":" ++ itoa a
    ++ lit ",\"e\":" ++ (if e = 0 then lit "null" else itoa e)
    ++ lit ",\"i\":" ++ itoa i ++ lit ",\"n\":" ++ itoa n ++ lit "\x7d"

/-- `hit_line`. -/
def hitLine (c : Bytes) (d i : Int64) : Bytes :=
  lit "\x7b\"h\":\"" ++ c ++ lit "\",\"d\":" ++ itoa d ++ lit ",\"i\":" ++ itoa i ++ lit "\x7d"

/-- `del_line`. -/
def delLine (c : Bytes) : Bytes := lit "\x7b\"x\":\"" ++ c ++ lit "\"\x7d"

/-! ## Decoding -/

/-- One parsed log line. -/
structure Op where
  c : Bytes := []
  u : Bytes := []
  h : Bytes := []
  x : Bytes := []
  a : Int64 := 0
  e : Int64 := 0
  i : Int64 := 0
  n : Int64 := 0
  d : Int64 := 0
  hasE : Bool := false
  deriving DecidableEq

namespace Op

/-- The `switch` of the string branch. -/
def setStr (o : Op) (k : UInt8) (s : Bytes) : Op :=
  if k = key 'c' then { o with c := s }
  else if k = key 'u' then { o with u := s }
  else if k = key 'h' then { o with h := s }
  else if k = key 'x' then { o with x := s }
  else o

/-- The text of a number with the blanks after it removed. -/
def trimNum (num : Bytes) : Bytes := (num.reverse.dropWhile isBlank).reverse

/-- The `switch` of the number branch. -/
def setNum (o : Op) (k : UInt8) (num : Bytes) : Op :=
  let num := trimNum num
  let v := if num = lit "null" then 0 else strtoll num
  if k = key 'a' then { o with a := v }
  else if k = key 'e' then if num ≠ lit "null" then { o with e := v, hasE := true } else o
  else if k = key 'i' then { o with i := v }
  else if k = key 'n' then { o with n := v }
  else if k = key 'd' then { o with d := v }
  else o

/-- The final test of `parse_op`: a line must name a code in one of its three roles. -/
def checked (o : Op) : Option Op :=
  if o.c ≠ [] ∨ o.h ≠ [] ∨ o.x ≠ [] then some o else none

end Op

/-- The value of a field as the scanner found it. -/
inductive Value where
  | str (s : Bytes)
  | num (t : Bytes)
  deriving DecidableEq

/-- Store a field. -/
def Op.set (o : Op) (k : UInt8) : Value → Op
  | .str s => o.setStr k s
  | .num t => o.setNum k t

/-- The string loop, from just after the opening quote: the raw value, whether it holds an escape,
and what follows the closing quote. -/
def scanStr : Bytes → Bytes × Bool × Bytes
  | [] => ([], false, [])
  | b :: r =>
    if b = bslash then
      match r with
      | [] => ([b], true, [])
      | e :: r => (b :: e :: (scanStr r).1, true, (scanStr r).2.2)
    else if b = dquote then ([], false, r)
    else (b :: (scanStr r).1, (scanStr r).2.1, (scanStr r).2.2)

/-- What one turn of the outer loop of `parse_op` finds. -/
inductive Scan where
  /-- No further quote: the loop ends. -/
  | done
  /-- The line ends inside a key or before a value: `parse_op` returns false. -/
  | bad
  /-- A field, and the line after it. -/
  | field (k : UInt8) (v : Value) (rest : Bytes)

/-- One turn of the outer loop of `parse_op`. -/
def scanField (b : Bytes) : Scan :=
  match b.dropWhile (· ≠ dquote) with
  | [] => .done
  | _ :: r =>
    match r.dropWhile (· ≠ dquote) with
    | [] => .bad
    | _ :: r₁ =>
      let k := (r.takeWhile (· ≠ dquote)).headD 0
      match r₁.dropWhile (· ≠ colon) with
      | [] => .bad
      | _ :: r₂ =>
        match r₂.dropWhile isBlank with
        | [] => .bad
        | q :: r₃ =>
          if q = dquote then
            let s := scanStr r₃
            .field k (.str (if s.2.1 then unescape s.1 else s.1)) s.2.2
          else
            .field k (.num ((q :: r₃).takeWhile fun b ↦ b ≠ comma && b ≠ rbrace))
              ((q :: r₃).dropWhile fun b ↦ b ≠ comma && b ≠ rbrace)

/-- The outer loop of `parse_op`. Every turn that goes on consumes at least one byte, so the fuel
of `parseOp` is never used up (`parseLoop_eq_scan`). -/
def parseLoop : ℕ → Bytes → Op → Option Op
  | 0, _, _ => none
  | fuel + 1, b, o =>
    match scanField b with
    | .done => o.checked
    | .bad => none
    | .field k v rest => parseLoop fuel rest (o.set k v)

/-- `parse_op`; `none` is its `false`. -/
def parseOp (line : Bytes) : Option Op := parseLoop (line.length + 1) line {}

end Shrt
