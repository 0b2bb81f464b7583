import BlazeKV.Spec.Bytes

/-! `hash.hpp`: the 64-bit hash of the tables and of the key routing. Loads are
little-endian, and a product is taken in full before it is folded. -/

namespace BlazeKV

/-- The `n` bytes at `p` as a little-endian number. -/
def wyRead (key : Bytes) (n p : ℕ) : ℕ :=
  ((key.drop p).take n).foldr (fun b acc => b.toNat + 256 * acc) 0

def wyRead8 (key : Bytes) (p : ℕ) : ℕ := wyRead key 8 p
def wyRead4 (key : Bytes) (p : ℕ) : ℕ := wyRead key 4 p

def wyRead3 (key : Bytes) (k : ℕ) : ℕ :=
  ((key.getD 0 0).toNat <<< 16) ||| ((key.getD (k >>> 1) 0).toNat <<< 8) ||| (key.getD (k - 1) 0).toNat

/-- The low and the high half of the 128-bit product. -/
def wyMum (a b : ℕ) : ℕ × ℕ := (u64 (a * b), u64 (a * b / 2 ^ 64))

def wyMix (a b : ℕ) : ℕ := (wyMum a b).1 ^^^ (wyMum a b).2

def kWySeed : ℕ := 0x9E3779B97F4A7C15
def wyS0 : ℕ := 0xa0761d6478bd642f
def wyS1 : ℕ := 0xe7037ed1a0b428db
def wyS2 : ℕ := 0x8ebc6af09c88c6e3

/-- `while (i > 16)`: one round for each sixteen bytes. -/
def wyLoop (key : Bytes) : ℕ → ℕ → ℕ → ℕ → ℕ × ℕ × ℕ
  | 0, i, q, seed => (i, q, seed)
  | fuel + 1, i, q, seed =>
    if i > 16 then
      wyLoop key fuel (i - 16) (q + 16) (wyMix (wyRead8 key q ^^^ wyS1) (wyRead8 key (q + 8) ^^^ seed))
    else (i, q, seed)

def hashBytes (key : Bytes) (seed0 : ℕ) : ℕ :=
  let len := key.length
  let seed := seed0 ^^^ wyS0
  let (a, b, seed) :=
    if len ≤ 16 then
      if len ≥ 4 then
        (((wyRead4 key 0) <<< 32) ||| wyRead4 key ((len >>> 3) <<< 2),
          ((wyRead4 key (len - 4)) <<< 32) ||| wyRead4 key (len - 4 - ((len >>> 3) <<< 2)), seed)
      else if len > 0 then (wyRead3 key len, 0, seed)
      else (0, 0, seed)
    else
      let (i, q, s) := wyLoop key (len / 16) len 0 seed
      (wyRead8 key (q + i - 16), wyRead8 key (q + i - 8), s ^^^ seed)
  let (a, b) := wyMum (a ^^^ wyS1) (b ^^^ seed)
  wyMix (a ^^^ wyS0 ^^^ u64 len) (b ^^^ wyS2)

/-- `BytesHash`. -/
def bytesHash (s : Bytes) : ℕ := hashBytes s kWySeed

end BlazeKV
