import RedisLite.ByteStrings
import RedisLite.IncrementalDecoding

/-!
# RESP2 values, their parser and their serializer

The parser works on the whole input and a position in it. A header line is read up to the first
CR LF; a bulk string is read by its length, an array by its count. Array elements are parsed with
one nesting level less, so the recursion is on the levels that are left.
-/

namespace RedisLite.Resp
open ByteStrings IncrementalDecoding

inductive RespType where
  | simpleString | error | integer | bulkString | array
  deriving DecidableEq, Repr

structure RespValue where
  type : RespType := .simpleString
  string : Bytes := []
  integer : ℤ := 0
  elements : List RespValue := []
  isNull : Bool := false
  deriving Repr

def makeSimpleString (s : Bytes) : RespValue := { type := .simpleString, string := s }
def makeError (s : Bytes) : RespValue := { type := .error, string := s }
def makeInteger (n : ℤ) : RespValue := { type := .integer, integer := n }
def makeBulkString (s : Bytes) : RespValue := { type := .bulkString, string := s }
def makeNullBulkString : RespValue := { type := .bulkString, isNull := true }
def makeArray (es : List RespValue) : RespValue := { type := .array, elements := es }

def kMaxDepth : ℕ := 128

abbrev ParseResult := Verdict RespValue Bytes

inductive LineStatus where
  | ok (line : Bytes) (pos : ℕ)
  | incomplete
  | malformed

/-- `input.find("\r\n", pos)`. -/
def findFrom (input : Bytes) (pos : ℕ) : Option ℕ :=
  (findCrlf (input.drop pos)).map (· + pos)

/-- `input.substr(pos, count)`. -/
def substr (input : Bytes) (pos count : ℕ) : Bytes := (input.drop pos).take count

def readLine (input : Bytes) (pos : ℕ) : LineStatus :=
  match findFrom input pos with
  | none => .incomplete
  | some crlfPos =>
    let line := substr input pos (crlfPos - pos)
    if cr ∈ line ∨ lf ∈ line then .malformed else .ok line (crlfPos + 2)

def typeOfPrefix (b : UInt8) : Option RespType :=
  if b = byte '+' then some .simpleString
  else if b = byte '-' then some .error
  else if b = byte ':' then some .integer
  else if b = byte '$' then some .bulkString
  else if b = byte '*' then some .array
  else none

def nestingError : Bytes :=
  text "nesting is deeper than " ++ natDecimal kMaxDepth ++ text " levels"

/-- The payload of a bulk string whose header has been read; `pos` is the first payload byte. -/
def parseBulk (input : Bytes) (length : ℤ) (pos : ℕ) : ParseResult :=
  if length = -1 then .ok makeNullBulkString pos
  else if length < -1 then .malformed (text "negative bulk string length")
  else
    let size := length.toNat
    let needed := size + 2
    if input.length - pos < needed then .incomplete
    else if input[pos + size]? ≠ some cr ∨ input[pos + size + 1]? ≠ some lf then
      .malformed (text "bulk string is not terminated by CRLF")
    else .ok (makeBulkString (substr input pos size)) (pos + needed)

/-- The element loop: `count` values from `pos` on, stopping at the first that is not complete. -/
def parseElements (element : ℕ → ParseResult) : ℕ → ℕ → Verdict (List RespValue) Bytes
  | 0, pos => .ok [] pos
  | count + 1, pos =>
    match element pos with
    | .incomplete => .incomplete
    | .malformed e => .malformed e
    | .ok v pos =>
      match parseElements element count pos with
      | .incomplete => .incomplete
      | .malformed e => .malformed e
      | .ok vs pos => .ok (v :: vs) pos

def parseArray (element : ℕ → ParseResult) (count : ℤ) (pos : ℕ) : ParseResult :=
  if count = -1 then .ok { makeArray [] with isNull := true } pos
  else if count < -1 then .malformed (text "negative array length")
  else (parseElements element count.toNat pos).map makeArray

/-- A value whose prefix and header line have been read. -/
def parseBody (input : Bytes) (element : ℕ → ParseResult) (type : RespType) (line : Bytes)
    (pos : ℕ) : ParseResult :=
  match type with
  | .simpleString => .ok (makeSimpleString line) pos
  | .error => .ok (makeError line) pos
  | .integer =>
    match toInteger line with
    | none => .malformed (text "integer is not a valid number")
    | some number => .ok (makeInteger number) pos
  | .bulkString =>
    match toInteger line with
    | none => .malformed (text "bulk string length is not a valid number")
    | some length => parseBulk input length pos
  | .array =>
    match toInteger line with
    | none => .malformed (text "array length is not a valid number")
    | some count => parseArray element count pos

/-- `levels` is `kMaxDepth + 1 - depth`; a value that is `ok` comes with the position after it. -/
def parseValue (input : Bytes) : ℕ → ℕ → ParseResult
  | 0, _ => .malformed nestingError
  | levels + 1, pos =>
    match input[pos]? with
    | none => .incomplete
    | some b =>
      match typeOfPrefix b with
      | none => .malformed (text "unknown RESP type byte")
      | some type =>
        match readLine input (pos + 1) with
        | .incomplete => .incomplete
        | .malformed => .malformed (text "line contains a stray CR or LF")
        | .ok line pos => parseBody input (parseValue input levels) type line pos

def parse (input : Bytes) : ParseResult := parseValue input kMaxDepth 0

mutual

def serialize : RespValue → Bytes
  | ⟨.simpleString, s, _, _, _⟩ => byte '+' :: (s ++ crlf)
  | ⟨.error, s, _, _, _⟩ => byte '-' :: (s ++ crlf)
  | ⟨.integer, _, n, _, _⟩ => byte ':' :: (intDecimal n ++ crlf)
  | ⟨.bulkString, s, _, _, isNull⟩ =>
    if isNull then text "$-1" ++ crlf
    else byte '$' :: (natDecimal s.length ++ crlf ++ s ++ crlf)
  | ⟨.array, _, _, es, isNull⟩ =>
    if isNull then text "*-1" ++ crlf
    else byte '*' :: (natDecimal es.length ++ crlf ++ serializeElements es)

def serializeElements : List RespValue → Bytes
  | [] => []
  | e :: es => serialize e ++ serializeElements es

end

example : parse (text "*2\r\n$3\r\nGET\r\n$3\r\nf\r\n\r\n+") =
    .ok (makeArray [makeBulkString (text "GET"), makeBulkString (text "f\r\n")]) 22 := by rfl

end RedisLite.Resp
