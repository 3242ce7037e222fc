/-
# The wire protocol (`resp.py`)

Requests and replies as bytes, and the readers of both.  A stream is the bytes that are
still to come; a reader takes some of them from its front.  Of `asyncio` this models what
`readuntil` and `readexactly` give for a whole stream, however its bytes arrive; a
connection that breaks is a stream that ends.
-/
import ImmuStore.Storage

namespace Resp

/-- The exceptions of the readers. -/
inductive StreamError where
  | incompleteReadError
  | limitOverrunError
  | protocolError (message : Text)
  | valueError
  | unicodeDecodeError
  | recursionError
  deriving DecidableEq, Repr

/-- Reading from the front of a stream. -/
abbrev Reads (β : Type) := EStateM StreamError Bytes β

/-- `CRLF`. -/
def crlf : Bytes := [13, 10]

/-! ## Limits -/

/-- What a process puts up with: the longest line of its `StreamReader`s and the most
digits of a number that `int` and `str` convert, if there are such limits. -/
structure Limits where
  line : Option ℕ
  digits : Option ℕ

/-- No limits. -/
def Limits.unbounded : Limits := ⟨none, none⟩

/-- The limits of a process that does not set them. -/
def Limits.standard : Limits := ⟨some 65536, some 4300⟩

/-! ## Numbers -/

/-- `str(n).encode("ascii")` for the length of an object, which has few digits. -/
def decimal (n : ℕ) : Bytes :=
  if n = 0 then [48] else (Nat.digits 10 n).reverse.map fun d => UInt8.ofNat (48 + d)

/-- The sign and the digits of a number. -/
def spell (z : ℤ) : Bytes := if z < 0 then 45 :: decimal z.natAbs else decimal z.natAbs

/-- `str(z).encode("ascii")`: `ValueError` for a number of too many digits. -/
def decimalInt (digits : Option ℕ) (z : ℤ) : Except PyError Bytes :=
  if digits.all ((decimal z.natAbs).length ≤ ·) then .ok (spell z) else .error .valueError

/-- The whitespace of `bytes`. -/
def isSpace (b : UInt8) : Bool := b == 32 || (9 ≤ b && b ≤ 13)

def isDigit (b : UInt8) : Bool := 48 ≤ b && b ≤ 57

/-- The digits of a number, with single underscores between them; `digit` says that the
byte before was a digit, `n` is the number read so far. -/
def unsigned (digit : Bool) (n : ℕ) : Bytes → Option ℕ
  | [] => if digit then some n else none
  | b :: rest =>
    if isDigit b then unsigned true (10 * n + (b.toNat - 48)) rest
    else if b == 95 && digit then unsigned false n rest
    else none

/-- A number with its sign. -/
def signed : Bytes → Option ℤ
  | 45 :: rest => (unsigned false 0 rest).map fun n : ℕ => -(n : ℤ)
  | 43 :: rest => (unsigned false 0 rest).map Int.ofNat
  | rest => (unsigned false 0 rest).map Int.ofNat

/-- `int(raw)`, or `None` where it raises `ValueError`; leading zeros count as digits. -/
def int? (digits : Option ℕ) (raw : Bytes) : Option ℤ :=
  if digits.all (raw.countP isDigit ≤ ·) then signed ((raw.dropWhile isSpace).rdropWhile isSpace)
  else none

/-- `int(raw)`. -/
def int (digits : Option ℕ) (raw : Bytes) : Reads ℤ :=
  match int? digits raw with
  | some z => pure z
  | none => throw .valueError

/-! ## Text -/

/-- `text.encode("utf-8")`. -/
def utf8Encode (text : Text) : Bytes := text.flatMap String.utf8EncodeChar

/-- `raw.decode("utf-8")`, or `None` where it raises `UnicodeDecodeError`. -/
def utf8Decode? (raw : Bytes) : Option Text := raw.toByteArray.utf8Decode?.map Array.toList

/-- `raw.decode("utf-8")`. -/
def utf8Decode (raw : Bytes) : Reads Text :=
  match utf8Decode? raw with
  | some text => pure text
  | none => throw .unicodeDecodeError

/-- The ranges of the bytes that may follow a first byte. -/
def continuations (b : UInt8) : List (UInt8 × UInt8) :=
  if b < 0xC2 ∨ 0xF4 < b then []
  else if b < 0xE0 then [(0x80, 0xBF)]
  else if b < 0xF0 then
    [(if b = 0xE0 then 0xA0 else 0x80, if b = 0xED then 0x9F else 0xBF), (0x80, 0xBF)]
  else [(if b = 0xF0 then 0x90 else 0x80, if b = 0xF4 then 0x8F else 0xBF), (0x80, 0xBF), (0x80, 0xBF)]

/-- The number of bytes that lie in the given ranges, one after the other. -/
def matching : List (UInt8 × UInt8) → Bytes → ℕ
  | (lo, hi) :: ranges, b :: rest => if lo ≤ b ∧ b ≤ hi then matching ranges rest + 1 else 0
  | _, _ => 0

/-- `raw.decode("utf-8", "replace")`: bytes that begin a character and do not complete it
are replaced together.  `fuel` is enough if it is the number of bytes. -/
def utf8Replace : ℕ → Bytes → Text
  | fuel + 1, b :: rest =>
    match (b :: rest).toByteArray.utf8DecodeChar? 0 with
    | some c => c :: utf8Replace fuel ((b :: rest).drop (String.utf8EncodeChar c).length)
    | none => '\uFFFD' :: utf8Replace fuel (rest.drop (matching (continuations b) rest))
  | _, _ => []

/-- A hexadecimal digit. -/
def hexDigit (n : ℕ) : Char := if n < 10 then Char.ofNat (48 + n) else Char.ofNat (87 + n)

/-- A byte in the `repr` of `bytes`. -/
def reprByte (quote : Char) (b : UInt8) : Text :=
  let c := Char.ofNat b.toNat
  if c = quote ∨ c = '\\' then ['\\', c]
  else if b = 9 then ['\\', 't']
  else if b = 10 then ['\\', 'n']
  else if b = 13 then ['\\', 'r']
  else if b < 32 ∨ 127 ≤ b then ['\\', 'x', hexDigit (b.toNat / 16), hexDigit (b.toNat % 16)]
  else [c]

/-- `repr(raw)`: in double quotes if there are single quotes in it and no double ones. -/
def reprBytes (raw : Bytes) : Text :=
  let quote := if 39 ∈ raw ∧ 34 ∉ raw then '"' else '\''
  ['b', quote] ++ raw.flatMap (reprByte quote) ++ [quote]

/-! ## Streams -/

/-- What stands before the first CRLF, and what comes behind it. -/
def splitCrlf : Bytes → Option (Bytes × Bytes)
  | [] => none
  | [_] => none
  | a :: b :: rest =>
    if a = 13 ∧ b = 10 then some ([], rest)
    else (splitCrlf (b :: rest)).map fun parts => (a :: parts.1, parts.2)

/-- `(await reader.readuntil(CRLF))[:-2]`.  A line that is longer than the limit of the
reader, if it has one, is refused and stays in the stream. -/
def readLine (limit : Option ℕ) : Reads Bytes := fun s =>
  match splitCrlf s with
  | some (line, rest) =>
    if limit.all (line.length ≤ ·) then .ok line rest else .error .limitOverrunError s
  | none =>
    if limit.all (s.length ≤ · + 1) then .error .incompleteReadError []
    else .error .limitOverrunError s

/-- `await reader.readexactly(n)`. -/
def readExactly (n : ℤ) : Reads Bytes := fun s =>
  if n < 0 then .error .valueError s
  else if n.toNat ≤ s.length then .ok (s.take n.toNat) (s.drop n.toNat)
  else .error .incompleteReadError []

/-- Reading several times. -/
def readTimes {β : Type} (x : Reads β) : ℕ → Reads (List β)
  | 0 => pure []
  | n + 1 => do
    let first ← x
    let rest ← readTimes x n
    return first :: rest

/-! ## Requests -/

/-- An argument of a request. -/
def encodeArg (raw : Bytes) : Bytes := 36 :: decimal raw.length ++ crlf ++ raw ++ crlf

/-- `encode_command`. -/
def encodeCommand (args : List Bytes) : Bytes :=
  42 :: decimal args.length ++ crlf ++ args.flatMap encodeArg

/-- `except IncompleteReadError: return None`. -/
def orNone {β : Type} : EStateM.Result StreamError Bytes β →
    EStateM.Result StreamError Bytes (Option β)
  | .ok b rest => .ok (some b) rest
  | .error .incompleteReadError rest => .ok none rest
  | .error e rest => .error e rest

/-- The first loop of `read_command`: blank lines are skipped. -/
def nextLine (limits : Limits) : Bytes → EStateM.Result StreamError Bytes (Option Bytes)
  | 13 :: 10 :: rest => nextLine limits rest
  | s => orNone (readLine limits.line s)

/-- `raw.split()`. -/
def splitSpaces (raw : Bytes) : List Bytes := (raw.splitOnP isSpace).filter (· ≠ [])

/-- One turn of the second loop of `read_command`. -/
def readArg (limits : Limits) : Reads Bytes := do
  let header ← readLine limits.line
  if header.take 1 ≠ [36] then
    throw (.protocolError ("expected bulk string, got ".toList ++ reprBytes header))
  let length ← int limits.digits (header.drop 1)
  let data ← readExactly length
  let _ ← readExactly 2
  return data

/-- The second loop of `read_command`. -/
def readArgs (limits : Limits) (count : ℕ) : Reads (Option (List Bytes)) := fun s =>
  orNone (readTimes (readArg limits) count s)

/-- What `read_command` does with its first line. -/
def readBody (limits : Limits) (line : Bytes) : Reads (Option (List Bytes)) :=
  if line.take 1 ≠ [42] then pure (some (splitSpaces line))
  else match int? limits.digits (line.drop 1) with
    | none => throw (.protocolError ("bad multibulk count: ".toList ++ reprBytes line))
    | some count => if count ≤ 0 then pure (some []) else readArgs limits count.toNat

/-- `read_command`. -/
def readCommand (limits : Limits) : Reads (Option (List Bytes)) := fun s =>
  match nextLine limits s with
  | .ok none rest => .ok none rest
  | .ok (some line) rest => readBody limits line rest
  | .error e rest => .error e rest

/-! ## Replies -/

/-- The values that a reply is made of. -/
inductive Reply where
  | none
  | simpleString (text : Text)
  | error (text : Text)
  | bool (b : Bool)
  | int (z : ℤ)
  | bytes (raw : Bytes)
  | str (text : Text)
  | list (items : List Reply)

mutual

/-- `encode`. -/
def encode (digits : Option ℕ) : Reply → Except PyError Bytes
  | .none => return [36, 45, 49] ++ crlf
  | .simpleString text => return 43 :: utf8Encode text ++ crlf
  | .error text => return 45 :: utf8Encode text ++ crlf
  | .bool b => return [58, if b then 49 else 48] ++ crlf
  | .int z => do return 58 :: (← decimalInt digits z) ++ crlf
  | .bytes raw => return 36 :: decimal raw.length ++ crlf ++ raw ++ crlf
  | .str text => return 36 :: decimal (utf8Encode text).length ++ crlf ++ utf8Encode text ++ crlf
  | .list items => do return 42 :: decimal items.length ++ crlf ++ (← encodeAll digits items)

/-- `b"".join(encode(item) for item in value)`. -/
def encodeAll (digits : Option ℕ) : List Reply → Except PyError Bytes
  | [] => return []
  | item :: items => do return (← encode digits item) ++ (← encodeAll digits items)

end

/-- The bulk string of a length, or nil. -/
def readBulk (length : ℤ) : Reads Reply :=
  if length = -1 then pure .none
  else do
    let data ← readExactly length
    let _ ← readExactly 2
    let text ← utf8Decode data
    return .str text

/-- What `read_reply` does with its first line; `next` reads the items of an array. -/
def replyOfLine (digits : Option ℕ) (next : Reads Reply) : Bytes → Reads Reply
  | 43 :: rest => .simpleString <$> utf8Decode rest
  | 45 :: rest => .error <$> utf8Decode rest
  | 58 :: rest => do
    let z ← int digits rest
    return .int z
  | 36 :: rest => do
    let length ← int digits rest
    readBulk length
  | 42 :: rest => do
    let count ← int digits rest
    if count = -1 then pure .none else .list <$> readTimes next count.toNat
  | line => throw (.protocolError ("unknown reply type: ".toList ++ reprBytes (line ++ crlf)))

/-- `read_reply`; `fuel` bounds the depth of arrays in arrays. -/
def readReplyAux (limits : Limits) : ℕ → Reads Reply
  | 0 => throw .recursionError
  | fuel + 1 => do
    let line ← readLine limits.line
    replyOfLine limits.digits (readReplyAux limits fuel) line

/-- `read_reply`: every level of an array takes a line of the stream, so that there is
enough fuel. -/
def readReply (limits : Limits) : Reads Reply := fun s => readReplyAux limits (s.length + 1) s

end Resp
