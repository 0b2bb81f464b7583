import BlazeKV.Spec.Resp

/-! `ReplyReader` of `server.cpp`: one reply from a socket, as text for the query console. Each
`read` returns one of the pieces that are to come; without data it returns nothing. -/

namespace BlazeKV

/-- `std::atoll`. The language leaves open what it returns for a number that does not fit. -/
def atoll (s : Bytes) : ℤ :=
  let s := s.dropWhile isSpace
  let neg := s.head? = some 45
  let s := if neg ∨ s.head? = some 43 then s.tail else s
  let v : ℤ := digitsValue (s.takeWhile isDigit)
  if neg then -v else v

structure ReplyReader where
  pieces : List Bytes
  buf : Bytes
  pos : ℕ
  deriving DecidableEq

namespace ReplyReader

/-- A reader of a new connection. -/
def connected (pieces : List Bytes) : ReplyReader := ⟨pieces, [], 0⟩

/-- What has not been read yet. -/
def unread (r : ReplyReader) : Bytes := r.buf.drop r.pos ++ r.pieces.flatten

def getc (r : ReplyReader) : UInt8 × ReplyReader :=
  if r.pos ≥ r.buf.length then
    match r.pieces with
    | [] => (0, r)
    | [] :: pieces => (0, { r with pieces := pieces })
    | piece :: pieces => (piece.getD 0 0, ⟨pieces, piece, 1⟩)
  else (r.buf.getD r.pos 0, { r with pos := r.pos + 1 })

/-- The rounds of `read_line`; `none` means that it goes on after those that it is given. -/
def readLineLoop : ℕ → Bytes → ReplyReader → Option (Bytes × ReplyReader)
  | 0, _, _ => none
  | fuel + 1, out, r =>
    let (ch, r) := r.getc
    if ch = 0 then some (out, r)
    else if ch = 13 then some (out, r.getc.2)
    else readLineLoop fuel (out ++ [ch]) r

def readLine (r : ReplyReader) : Option (Bytes × ReplyReader) := readLineLoop (r.unread.length + 1) [] r

/-- `read_n`, with the number of bytes that `out` still lacks. -/
def readN : ℕ → Bytes → ReplyReader → Bytes × ReplyReader
  | 0, out, r => (out, r)
  | n + 1, out, r =>
    let (ch, r) := r.getc
    if ch = 0 then (out, r) else readN n (out ++ [ch]) r

/-- The loop over the elements of an array: the rounds that remain, and `i`. -/
def readElements (read : ReplyReader → Option (Bytes × ReplyReader)) :
    ℕ → ℕ → Bytes → ReplyReader → Option (Bytes × ReplyReader)
  | 0, _, out, r => some (out, r)
  | rounds + 1, i, out, r => do
    let out := if i ≠ 0 then out ++ ascii ", " else out
    let (s, r) ← read r
    readElements read rounds (i + 1) (out ++ s) r

/-- The calls of `read_reply` in each other, at most `fuel` of them. -/
def readReplyAux : ℕ → ReplyReader → Option (Bytes × ReplyReader)
  | 0, _ => none
  | fuel + 1, r =>
    let (type, r) := r.getc
    if type = 43 then r.readLine
    else if type = 45 then do
      let (s, r) ← r.readLine
      return (ascii "(error) " ++ s, r)
    else if type = 58 then r.readLine
    else if type = 36 then do
      let (line, r) ← r.readLine
      let len := atoll line
      if len < 0 then return (ascii "(nil)", r)
      else
        let (s, r) := readN len.toNat [] r
        let (_, r) ← r.readLine
        return ([34] ++ s ++ [34], r)
    else if type = 42 then do
      let (line, r) ← r.readLine
      let n := atoll line
      if n < 0 then return (ascii "(nil)", r)
      else
        let (out, r) ← readElements (readReplyAux fuel) n.toNat 0 (ascii "[") r
        return (out ++ ascii "]", r)
    else some (ascii "(protocol error)", r)

/-- `read_reply`. Each call takes a byte before it calls itself. -/
def readReply (r : ReplyReader) : Option (Bytes × ReplyReader) := readReplyAux (r.unread.length + 1) r

end ReplyReader

end BlazeKV
