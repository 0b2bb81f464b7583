import BlazeKV.Spec.Aof

/-! `persist/aof.cpp` over a file of which every `write` may take less than it is given, be
interrupted or fail. -/

namespace BlazeKV

/-- What one `write` returns. -/
inductive WriteResult
  | wrote (n : ℕ)
  | interrupted
  | failed
  deriving DecidableEq

/-- The loop of `flush`: what reaches the file. Behind the results that are listed a
`write` takes all that is left. -/
def writeLoop : Bytes → List WriteResult → Bytes
  | rest, [] => rest
  | rest, r :: rs =>
    if rest = [] then []
    else match r with
      | .wrote n => rest.take n ++ writeLoop (rest.drop n) rs
      | .interrupted => writeLoop rest rs
      | .failed => []

/-- An open or closed log. `synced` counts the bytes of the file that were there when
`fdatasync` last succeeded. -/
structure LogFile where
  opened : Bool
  policy : FsyncPolicy
  disk : Bytes
  buf : Bytes
  synced : ℕ
  dirty : Bool
  lastFsync : ℕ

namespace LogFile

/-- `open`, over what the file holds already. -/
def openFile (policy : FsyncPolicy) (disk : Bytes) (now : ℕ) : LogFile := ⟨true, policy, disk, [], 0, false, now⟩

def flush (rs : List WriteResult) (l : LogFile) : LogFile :=
  if l.opened ∧ l.buf ≠ [] then { l with disk := l.disk ++ writeLoop l.buf rs, buf := [] } else l

def doFsync (ok : Bool) (l : LogFile) : LogFile :=
  if l.opened then { l with synced := if ok then l.disk.length else l.synced, dirty := false } else l

def append (encoded : Bytes) (rs : List WriteResult) (ok : Bool) (l : LogFile) : LogFile :=
  if l.opened then
    let l := { l with buf := l.buf ++ encoded }
    let l := if l.buf.length ≥ 16 * 1024 ∨ l.policy = .always then l.flush rs else l
    let l := { l with dirty := true }
    if l.policy = .always then l.doFsync ok else l
  else l

def tick (now : ℕ) (rs : List WriteResult) (ok : Bool) (l : LogFile) : LogFile :=
  if l.opened ∧ l.policy = .everySec ∧ l.dirty ∧ u64 (now + 2 ^ 64 - l.lastFsync) ≥ 1000 then
    { (l.flush rs).doFsync ok with lastFsync := now }
  else l

def close (rs : List WriteResult) (ok : Bool) (l : LogFile) : LogFile :=
  if l.opened then { (l.flush rs).doFsync ok with opened := false } else l

/-- `reset_file`: the file is closed, unlinked and made anew. -/
def resetFile (rs : List WriteResult) (ok : Bool) (now : ℕ) (l : LogFile) : LogFile :=
  { l.close rs ok with opened := true, disk := [], synced := 0, lastFsync := now }

end LogFile

/-- The calls of a log, with what the system makes of them. -/
inductive LogCall
  | append (encoded : Bytes) (rs : List WriteResult) (ok : Bool)
  | tick (now : ℕ) (rs : List WriteResult) (ok : Bool)
  | flush (rs : List WriteResult)
  | close (rs : List WriteResult) (ok : Bool)

def LogFile.call (l : LogFile) : LogCall → LogFile
  | .append encoded rs ok => l.append encoded rs ok
  | .tick now rs ok => l.tick now rs ok
  | .flush rs => l.flush rs
  | .close rs ok => l.close rs ok

/-- The record that a call appends. -/
def LogCall.record : LogCall → List Bytes
  | .append encoded _ _ => [encoded]
  | _ => []

end BlazeKV
