import Mathlib.Data.Int.Bitwise
import Mathlib.Logic.Function.Basic

/-! `reactor.cpp`: the reactor over poll(2), with its two parallel arrays and the map from
descriptors to positions. What the kernel answers is an input of `wait`. -/

namespace BlazeKV

/-! `EventFlags`, and the bits of poll(2). -/

def kRead : ℕ := 1
def kWrite : ℕ := 2
def kError : ℕ := 4

def POLLIN : ℕ := 0x01
def POLLOUT : ℕ := 0x04
def POLLERR : ℕ := 0x08
def POLLHUP : ℕ := 0x10
def POLLNVAL : ℕ := 0x20

structure PollFd where
  fd : ℤ
  events : ℕ
  revents : ℕ
  deriving DecidableEq, Inhabited

structure ReadyEvent (τ : Type) where
  fd : ℤ
  token : τ
  flags : ℕ
  deriving DecidableEq

/-- What poll(2) returns, whether it was interrupted, and the `revents` that it writes. -/
structure Polled where
  n : ℤ
  interrupted : Bool
  revents : List ℕ

structure PollReactor (τ : Type) where
  fds : List PollFd
  tokens : List τ
  index : ℤ → Option ℕ

namespace PollReactor

variable {τ : Type} [Inhabited τ]

def empty : PollReactor τ := ⟨[], [], fun _ => none⟩

def toEvents (flags : ℕ) : ℕ :=
  let e := 0
  let e := if flags &&& kRead ≠ 0 then e ||| POLLIN else e
  if flags &&& kWrite ≠ 0 then e ||| POLLOUT else e

def add (r : PollReactor τ) (fd : ℤ) (flags : ℕ) (token : τ) : PollReactor τ × Bool :=
  ({ fds := r.fds ++ [⟨fd, toEvents flags, 0⟩]
     tokens := r.tokens ++ [token]
     index := Function.update r.index fd (some r.fds.length) }, true)

def mod (r : PollReactor τ) (fd : ℤ) (flags : ℕ) (token : τ) : PollReactor τ × Bool :=
  match r.index fd with
  | none => r.add fd flags token
  | some i =>
    ({ r with
       fds := r.fds.set i { r.fds.getD i default with events := toEvents flags }
       tokens := r.tokens.set i token }, true)

def del (r : PollReactor τ) (fd : ℤ) : PollReactor τ × Bool :=
  match r.index fd with
  | none => (r, false)
  | some i =>
    let last := r.fds.length - 1
    let r :=
      if i ≠ last then
        { fds := r.fds.set i (r.fds.getD last default)
          tokens := r.tokens.set i (r.tokens.getD last default)
          index := Function.update r.index (r.fds.getD last default).fd (some i) }
      else r
    ({ fds := r.fds.dropLast
       tokens := r.tokens.dropLast
       index := Function.update r.index fd none }, true)

/-- The flags of an event. -/
def readiness (re : ℕ) : ℕ :=
  let flags := 0
  let flags := if re &&& (POLLIN ||| POLLHUP) ≠ 0 then flags ||| kRead else flags
  let flags := if re &&& POLLOUT ≠ 0 then flags ||| kWrite else flags
  if re &&& (POLLERR ||| POLLNVAL) ≠ 0 then flags ||| kError else flags

/-- The loop of `wait` over the entries from `i` on, `rounds` of them. -/
def report (r : PollReactor τ) (max : ℤ) : ℕ → ℕ → ℕ → List (ReadyEvent τ)
  | 0, _, _ => []
  | rounds + 1, i, produced =>
    if (produced : ℤ) < max then
      let p := r.fds.getD i default
      if p.revents = 0 then report r max rounds (i + 1) produced
      else ⟨p.fd, r.tokens.getD i default, readiness p.revents⟩ :: report r max rounds (i + 1)
      (produced + 1)
    else []

/-- The return value and what stands in `out`. Without descriptors it only sleeps. -/
def wait (r : PollReactor τ) (polled : Polled) (max : ℤ) : PollReactor τ × ℤ × List (ReadyEvent τ) :=
  if r.fds = [] then (r, 0, [])
  else
    let r := { r with fds := r.fds.mapIdx fun i p => { p with revents := polled.revents.getD i 0 } }
    if polled.n ≤ 0 then (r, if polled.n < 0 ∧ polled.interrupted then 0 else polled.n, [])
    else
      let out := r.report max r.fds.length 0 0
      (r, out.length, out)

end PollReactor

end BlazeKV
