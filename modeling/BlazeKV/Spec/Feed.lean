import BlazeKV.Spec.Shard

/-! What `process_input` takes from a connection that is read in pieces. The rounds of
its loop over one buffer are a function of their own here. -/

namespace BlazeKV

/-- What one round obtains: a command, or the reply to a protocol error. -/
inductive Taken
  | command (argv : List Bytes)
  | malformed (reply : Bytes)
  deriving DecidableEq

def Request.taken : Request → Taken
  | .command argv _ => .command argv
  | .malformed b => .malformed b

/-- The loop of `process_input` over a buffer, and what it leaves there; nothing once the
connection is closing. A request consumes at least one byte, so that as many rounds as
bytes are enough. -/
def takeLoop : ℕ → Bytes → List Taken × Option Bytes
  | 0, buf => ([], some buf)
  | fuel + 1, buf =>
    match RequestParser.parse buf with
    | .needMore => ([], some buf)
    | .protocolError e => ([.malformed (Reply.error (ascii "ERR Protocol error: " ++ e))], none)
    | .ok argv consumed =>
      let r := takeLoop fuel (buf.drop consumed)
      (if argv = [] then r.1 else .command argv :: r.1, r.2)

def takeInput (buf : Bytes) : List Taken × Option Bytes := takeLoop (buf.length + 1) buf

/-- The reads of a connection, one after another, over what is left in its buffer. -/
def feed (buf : Bytes) : List Bytes → List Taken
  | [] => []
  | data :: reads =>
    let r := takeInput (buf ++ data)
    r.1 ++ match r.2 with
      | none => []
      | some rest => feed rest reads

/-! The reads of `handle_readable` one by one. -/

/-- What `read()` returns: bytes, `EAGAIN`, or the end of the file. -/
inductive ReadResult
  | data (bytes : Bytes)
  | again
  | eof

def kReadChunk : ℕ := 16 * 1024

namespace ReadResult

def bytes : ReadResult → Bytes
  | data b => b
  | _ => []

/-- `read()` fills the chunk, so that the loop reads again. -/
def fills : ReadResult → Bool
  | data b => kReadChunk ≤ b.length
  | _ => false

end ReadResult

/-- A connection on its way in: its buffer, whether it is closing, and what was taken so far. -/
structure Intake where
  input : Bytes
  closing : Bool
  taken : List Taken

namespace Intake

def start : Intake := ⟨[], false, []⟩

/-- `process_input`. After a protocol error nothing reads the buffer any more. -/
def processInput (s : Intake) : Intake :=
  if s.closing then s
  else
    let r := takeInput s.input
    ⟨r.2.getD [], r.2.isNone, s.taken ++ r.1⟩

/-- What `handle_readable` does behind its loop. -/
def endLoop (s : Intake) : Intake :=
  processInput { s with closing := s.closing || Connection.kMaxInlineBuffer < s.input.length }

/-- One round of the loop of `handle_readable`, and what follows where it is the last one. -/
def read (s : Intake) : ReadResult → Intake
  | .data b =>
    let s := { s with input := s.input ++ b }
    if b.length < kReadChunk then s.endLoop else s
  | .again => s.endLoop
  | .eof => endLoop { s with closing := true }

end Intake

end BlazeKV
