import BlazeKV.Spec.Checked.Parser
import BlazeKV.Spec.Hash

/-! `hash_bytes` with its loads: each one is inside the key, and every value carries the views of
the key that it was computed from. -/

namespace BlazeKV.Positions

open Lib

/-- `p + n`, a pointer into the key or to its end. -/
def ahead (key : Bytes) (p n : ℕ) : Located ℕ := do
  require .outside (p + n ≤ key.length)
  return p + n

/-- A `memcpy` of `n` bytes from `p` on. -/
def load (key : Bytes) (n p : ℕ) : Located (Fetched ℕ) := do
  require .outside (p + n ≤ key.length)
  return ⟨BlazeKV.wyRead key n p, [⟨p, n⟩]⟩

def wyRead8 (key : Bytes) (p : ℕ) : Located (Fetched ℕ) := load key 8 p
def wyRead4 (key : Bytes) (p : ℕ) : Located (Fetched ℕ) := load key 4 p

def xor (a b : Fetched ℕ) : Fetched ℕ := .map₂ (· ^^^ ·) a b
def or (a b : Fetched ℕ) : Fetched ℕ := .map₂ (· ||| ·) a b
def shiftLeft (a : Fetched ℕ) (n : ℕ) : Fetched ℕ := a.map (· <<< n)

def wyRead3 (key : Bytes) (k : ℕ) : Located (Fetched ℕ) := do
  return or (or (shiftLeft (← load key 1 0) 16) (shiftLeft (← load key 1 (k >>> 1)) 8))
    (← load key 1 (← minus k 1))

def wyMum (a b : Fetched ℕ) : Fetched ℕ × Fetched ℕ :=
  (.map₂ (fun a b => (BlazeKV.wyMum a b).1) a b, .map₂ (fun a b => (BlazeKV.wyMum a b).2) a b)

def wyMix (a b : Fetched ℕ) : Fetched ℕ := xor (wyMum a b).1 (wyMum a b).2

def wyLoop (key : Bytes) : ℕ → ℕ → ℕ → Fetched ℕ → Located (ℕ × ℕ × Fetched ℕ)
  | fuel, i, q, seed => do
    if i > 16 then
      match fuel with
      | 0 => .error .endless
      | fuel + 1 =>
        let x ← wyRead8 key q
        let y ← wyRead8 key (← ahead key q 8)
        wyLoop key fuel (← minus i 16) (← ahead key q 16) (wyMix (xor x (.const wyS1)) (xor y seed))
    else return (i, q, seed)

/-- The operands of the final rounds, by the length of the key. -/
def operands (key : Bytes) (seed : Fetched ℕ) : Located (Fetched ℕ × Fetched ℕ × Fetched ℕ) := do
  let len := key.length
  if len ≤ 16 then
    if len ≥ 4 then
      let a := or (shiftLeft (← wyRead4 key 0) 32) (← wyRead4 key (← ahead key 0 ((len >>> 3) <<< 2)))
      let back ← minus (← ahead key 0 len) 4
      let b := or (shiftLeft (← wyRead4 key back) 32) (← wyRead4 key (← minus back ((len >>> 3) <<< 2)))
      return (a, b, seed)
    else if len > 0 then return (← wyRead3 key len, .const 0, seed)
    else return (.const 0, .const 0, seed)
  else
    let (i, q, s) ← wyLoop key (len / 16) len 0 seed
    let a ← wyRead8 key (← minus (← ahead key q i) 16)
    let b ← wyRead8 key (← minus (← ahead key q i) 8)
    return (a, b, xor s seed)

def hashBytes (key : Bytes) (seed0 : ℕ) : Located (Fetched ℕ) := do
  let (a, b, seed) ← operands key (.const (seed0 ^^^ wyS0))
  let (a, b) := wyMum (xor a (.const wyS1)) (xor b seed)
  return wyMix (xor (xor a (.const wyS0)) (.const (u64 key.length))) (xor b (.const wyS2))

end BlazeKV.Positions
