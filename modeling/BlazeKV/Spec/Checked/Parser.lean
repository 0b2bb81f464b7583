import BlazeKV.Lib.Faults
import BlazeKV.Lib.Spans
import BlazeKV.Spec.Aof
import BlazeKV.Spec.Feed

/-! `RequestParser` and the loops over it, with their positions: every byte that is read is in the
buffer, and a `size_t` that wraps is a fault. The arguments are views. -/

namespace BlazeKV.Positions

open Lib
open RequestParser (view isBlank kMaxCount)

inductive Fault
  | outside
  | wraps
  /-- A loop that goes on after the rounds that it is given. -/
  | endless
  deriving DecidableEq

abbrev Located := Except Fault

def plus (a b : ℕ) : Located ℕ := do
  require .wraps (a + b < 2 ^ 64)
  return a + b

def minus (a b : ℕ) : Located ℕ := do
  require .wraps (b ≤ a)
  return a - b

/-- `data[i]`. -/
def byteAt (data : Bytes) (i : ℕ) : Located UInt8 := readAt .outside data i

inductive Outcome
  | ok (argv : List Span) (consumed : ℕ)
  | needMore
  | protocolError (error : Bytes)
  deriving DecidableEq

/-- The outcome with the arguments that its views show. -/
def Outcome.toParse (data : Bytes) : Outcome → Parse
  | ok argv consumed => .ok (argv.map (·.of data)) consumed
  | needMore => .needMore
  | protocolError e => .protocolError e

def findCrlf (data : Bytes) : ℕ → ℕ → Located (Option ℕ)
  | 0, _ => .error .endless
  | fuel + 1, pos => do
    let next ← plus pos 1
    if next < data.length then
      if (← byteAt data pos) = 13 then
        if (← byteAt data next) = 10 then return some pos else findCrlf data fuel next
      else findCrlf data fuel next
    else return none

/-- `to_ll` on the `n` bytes from `p` on. -/
def toLl (data : Bytes) (p n : ℕ) : Located (Option ℤ) := do
  if n = 0 then return none
  else
    require .outside (p + n ≤ data.length)
    return parseInt (view data p n)

/-- The rounds of the loop over the `count` arguments that remain. -/
def parseBulks (data : Bytes) : ℕ → ℕ → List Span → Located Outcome
  | 0, pos, argv => return .ok argv pos
  | count + 1, pos, argv => do
    if pos ≥ data.length then return .needMore
    else if (← byteAt data pos) ≠ 36 then return .protocolError (ascii "expected '$'")
    else
      let line ← plus pos 1
      match ← findCrlf data (data.length + 1) line with
      | none => return .needMore
      | some at' =>
        match ← toLl data line (← minus (← minus at' pos) 1) with
        | none => return .protocolError (ascii "invalid bulk length")
        | some blen =>
          if blen < 0 then return .protocolError (ascii "invalid bulk length")
          else
            let start ← plus at' 2
            let stop ← plus start blen.toNat
            let past ← plus stop 2
            if past > data.length then return .needMore
            else parseBulks data count past (argv ++ [⟨start, blen.toNat⟩])

def parseMultibulk (data : Bytes) : Located Outcome := do
  match ← findCrlf data (data.length + 1) 0 with
  | none => return .needMore
  | some at' =>
    match ← toLl data 1 (← minus at' 1) with
    | none => return .protocolError (ascii "invalid multibulk length")
    | some count =>
      if count < 0 ∨ count > kMaxCount then return .protocolError (ascii "invalid multibulk length")
      else parseBulks data count.toNat (← plus at' 2) []

/-- `while (i < line_end && go(data[i])) ++i`. -/
def skip (data : Bytes) (go : UInt8 → Bool) (lineEnd : ℕ) : ℕ → ℕ → Located ℕ
  | 0, _ => .error .endless
  | fuel + 1, i => do
    if i < lineEnd then
      if go (← byteAt data i) then skip data go lineEnd fuel (← plus i 1) else return i
    else return i

/-- The loop over the words of a line. -/
def words (data : Bytes) (lineEnd : ℕ) : ℕ → ℕ → List Span → Located (List Span)
  | 0, _, _ => .error .endless
  | fuel + 1, i, argv => do
    if i < lineEnd then
      let start ← skip data isBlank lineEnd (lineEnd + 1) i
      let i ← skip data (!isBlank ·) lineEnd (lineEnd + 1) start
      if i > start then words data lineEnd fuel i (argv ++ [⟨start, ← minus i start⟩])
      else words data lineEnd fuel i argv
    else return argv

def parseInline (data : Bytes) : Located Outcome := do
  match ← findCrlf data (data.length + 1) 0 with
  | some at' =>
    let consumed ← plus at' 2
    return .ok (← words data at' (at' + 1) 0 []) consumed
  | none =>
    match data.idxOf? 10 with
    | some nl =>
      let consumed ← plus nl 1
      return .ok (← words data nl (nl + 1) 0 []) consumed
    | none =>
      if data.length > 64 * 1024 then return .protocolError (ascii "inline request too long")
      else return .needMore

def parse (data : Bytes) : Located Outcome := do
  if data.length = 0 then return .needMore
  else if (← byteAt data 0) = 42 then parseMultibulk data
  else parseInline data

/-- The parse from `pos` on, of what is left there. -/
def parseFrom (data : Bytes) (pos : ℕ) : Located Outcome := do
  let _ ← minus data.length pos
  parse (data.drop pos)

/-- The loop of `process_input`: what it takes, and what it leaves in the buffer. -/
def takeLoop (data : Bytes) : ℕ → ℕ → Located (List Taken × Option Bytes)
  | 0, _ => .error .endless
  | fuel + 1, pos => do
    match ← parseFrom data pos with
    | .needMore => return ([], some (data.drop pos))
    | .protocolError e => return ([.malformed (Reply.error (ascii "ERR Protocol error: " ++ e))], none)
    | .ok argv consumed =>
      let r ← takeLoop data fuel (← plus pos consumed)
      return (if argv = [] then r.1 else .command (argv.map (·.of (data.drop pos))) :: r.1, r.2)

/-- The loop of `load_persistence` over the file. -/
def replayLoop {σ : Type} (exec : σ → List Bytes → σ) (data : Bytes) : ℕ → ℕ → σ → Located σ
  | 0, _, _ => .error .endless
  | fuel + 1, pos, s => do
    if pos < data.length then
      match ← parseFrom data pos with
      | .ok argv consumed =>
        replayLoop exec data fuel (← plus pos consumed)
          (if argv ≠ [] then exec s (argv.map (·.of (data.drop pos))) else s)
      | _ => return s
    else return s

end BlazeKV.Positions
