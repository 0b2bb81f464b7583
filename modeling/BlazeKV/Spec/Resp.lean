import BlazeKV.Spec.Number

/-! `resp.hpp`: the request parser, the reply writer and the encoding of logged
commands. Positions are offsets into the buffer and wrap like `size_t`. -/

namespace BlazeKV

def crlf : Bytes := [13, 10]

inductive Parse
  | ok (argv : List Bytes) (consumed : ℕ)
  | needMore
  | protocolError (error : Bytes)
  deriving DecidableEq

namespace RequestParser

def findCrlfAux : Bytes → ℕ → Option ℕ
  | a :: b :: s, pos => if a = 13 ∧ b = 10 then some pos else findCrlfAux (b :: s) (pos + 1)
  | _, _ => none

/-- The next CRLF at or after `pos`. -/
def findCrlf (data : Bytes) (pos : ℕ) : Option ℕ := findCrlfAux (data.drop pos) pos

/-- A view into the buffer. -/
def view (data : Bytes) (start n : ℕ) : Bytes := (data.drop start).take n

/-- The rounds of the loop over the `count` arguments that remain. -/
def parseBulks (data : Bytes) : ℕ → ℕ → List Bytes → Parse
  | 0, pos, argv => .ok argv pos
  | count + 1, pos, argv =>
    if pos ≥ data.length then .needMore
    else if data.getD pos 0 ≠ 36 then .protocolError (ascii "expected '$'")
    else match findCrlf data (pos + 1) with
      | none => .needMore
      | some at' =>
        match parseInt (view data (pos + 1) (at' - pos - 1)) with
        | none => .protocolError (ascii "invalid bulk length")
        | some blen =>
          if blen < 0 then .protocolError (ascii "invalid bulk length")
          else
            let start := u64 (at' + 2)
            let stop := u64 (start + blen.toNat)
            if u64 (stop + 2) > data.length then .needMore
            else parseBulks data count (u64 (stop + 2)) (argv ++ [view data start blen.toNat])

def kMaxCount : ℤ := 1024 * 1024

def parseMultibulk (data : Bytes) : Parse :=
  match findCrlf data 0 with
  | none => .needMore
  | some at' =>
    match parseInt (view data 1 (at' - 1)) with
    | none => .protocolError (ascii "invalid multibulk length")
    | some count =>
      if count < 0 ∨ count > kMaxCount then .protocolError (ascii "invalid multibulk length")
      else parseBulks data count.toNat (at' + 2) []

def isBlank (c : UInt8) : Bool := c = 32 ∨ c = 9

def parseInline (data : Bytes) : Parse :=
  match findCrlf data 0 with
  | some at' => .ok (((data.take at').splitOnP isBlank).filter (· ≠ [])) (at' + 2)
  | none =>
    match data.idxOf? 10 with
    | some nl => .ok (((data.take nl).splitOnP isBlank).filter (· ≠ [])) (nl + 1)
    | none =>
      if data.length > 64 * 1024 then .protocolError (ascii "inline request too long") else .needMore

def parse (data : Bytes) : Parse :=
  if data.length = 0 then .needMore
  else if data.getD 0 0 = 42 then parseMultibulk data
  else parseInline data

end RequestParser

/-! The reply writer: what each call appends to the buffer. -/

namespace Reply

def simpleString (s : Bytes) : Bytes := 43 :: s ++ crlf
def error (s : Bytes) : Bytes := 45 :: s ++ crlf
def integer (v : ℤ) : Bytes := 58 :: intToString v ++ crlf
def bulk (s : Bytes) : Bytes := 36 :: intToString s.length ++ crlf ++ s ++ crlf
def nullBulk : Bytes := ascii "$-1" ++ crlf
def nullArray : Bytes := ascii "*-1" ++ crlf
def arrayHeader (n : ℤ) : Bytes := 42 :: intToString n ++ crlf
def doubleReply (v : Double) : Bytes := bulk (doubleToString v)

end Reply

def encodeMultibulk (argv : List Bytes) : Bytes :=
  42 :: intToString argv.length ++ crlf ++
    argv.flatMap fun a => 36 :: intToString a.length ++ crlf ++ a ++ crlf

example : RequestParser.parse (encodeMultibulk [ascii "SET", [1], []] ++ [42]) =
    .ok [ascii "SET", [1], []] 26 := by decide

end BlazeKV
