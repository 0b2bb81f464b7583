import BlazeKV.Spec.Registry

/-! `persist/aof.cpp` and the replay loop of `load_persistence`. Writes to the
file succeed; the file is opened for appending and never rewritten in place. -/

namespace BlazeKV

inductive FsyncPolicy
  | always
  | everySec
  | no
  deriving DecidableEq

/-- An open log: the file on disk and what is still buffered. -/
structure Aof where
  policy : FsyncPolicy
  disk : Bytes
  buf : Bytes

namespace Aof

/-- `open` with `O_CREAT | O_APPEND`, over what the file holds already. -/
def openFile (policy : FsyncPolicy) (disk : Bytes) : Aof := ⟨policy, disk, []⟩

def flush (a : Aof) : Aof := { a with disk := a.disk ++ a.buf, buf := [] }

def append (a : Aof) (encoded : Bytes) : Aof :=
  let a := { a with buf := a.buf ++ encoded }
  if a.buf.length ≥ 16 * 1024 ∨ a.policy = .always then a.flush else a

def close (a : Aof) : Bytes := a.flush.disk

@[simp] theorem close_openFile (policy : FsyncPolicy) (disk : Bytes) : (openFile policy disk).close = disk :=
  List.append_nil _

@[simp] theorem close_append (a : Aof) (encoded : Bytes) :
    (a.append encoded).close = a.close ++ encoded := by
  unfold append close flush
  dsimp only
  split_ifs <;> simp

end Aof

/-- The records of a list of commands. -/
def logOf (cs : List (List Bytes)) : Bytes := cs.flatMap encodeMultibulk

/-- One lifetime of the log: opened over a file, extended, and closed. -/
def logged (policy : FsyncPolicy) (disk : Bytes) (cs : List (List Bytes)) : Bytes :=
  (cs.foldl (fun a c => Aof.append a (encodeMultibulk c)) (Aof.openFile policy disk)).close

theorem close_foldl_append (a : Aof) (cs : List (List Bytes)) :
    (cs.foldl (fun a c => Aof.append a (encodeMultibulk c)) a).close = a.close ++ logOf cs := by
  induction cs generalizing a with
  | nil => simp [logOf]
  | cons c cs ih => simp [ih, logOf]

@[simp] theorem logged_eq (policy : FsyncPolicy) (disk : Bytes) (cs : List (List Bytes)) :
    logged policy disk cs = disk ++ logOf cs := by
  rw [logged, close_foldl_append, Aof.close_openFile]

/-- The replay loop over what is left of the file. A command consumes at least one
byte, so that as many rounds as bytes are enough. -/
def replayLoop {σ : Type} (exec : σ → List Bytes → σ) : ℕ → Bytes → σ → σ
  | 0, _, s => s
  | fuel + 1, data, s =>
    if data.length = 0 then s
    else match RequestParser.parse data with
      | .ok argv consumed =>
        replayLoop exec fuel (data.drop consumed) (if argv ≠ [] then exec s argv else s)
      | _ => s

def replay {σ : Type} (exec : σ → List Bytes → σ) (data : Bytes) (s : σ) : σ :=
  replayLoop exec (data.length + 1) data s

/-- The commands that the loop executes, in order. -/
def replayed (data : Bytes) : List (List Bytes) := replay (fun cs c => cs ++ [c]) data []

end BlazeKV
