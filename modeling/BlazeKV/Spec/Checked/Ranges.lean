import BlazeKV.Spec.Commands.ZSets

/-! The index arithmetic of `ZRANGE` on `int64_t`, with every result looked at. -/

namespace BlazeKV.Checked

/-- A result of signed arithmetic; there is none where it overflows. -/
def int64 (n : ℤ) : Option ℤ := if fitsInt64 n then some n else none

/-- `len + i`, for an index that counts from the end. -/
def fromEnd (len i : ℤ) : Option ℤ := if i < 0 then int64 (len + i) else some i

/-- `if (stop >= len) stop = len - 1`. -/
def notPast (len stop : ℤ) : Option ℤ := if stop ≥ len then int64 (len - 1) else some stop

def headerCount (withscores : Bool) (count : ℤ) : Option ℤ := if withscores then int64 (count * 2) else some count

/-- The rank of element `i`. The last `++i` comes to `stop + 1`, which is `i + 1` for the last element. -/
def rankOfIndex (len : ℤ) (rev : Bool) (i : ℕ) : Option ℕ := do
  let next ← int64 (i + 1)
  let back ← int64 (len - i)
  return u32 (if rev then back else next).toNat

/-- The count that `ZRANGE` writes before its elements, and the ranks that it asks for. -/
def zrangePlan (len : ℤ) (withscores rev : Bool) (start stop : ℤ) : Option (ℤ × List ℕ) := do
  let low ← fromEnd len start
  let low := if start < 0 then max 0 low else low
  let high ← fromEnd len stop
  let high ← notPast len high
  if low > high ∨ len = 0 then return (0, [])
  else
    let width ← int64 (high - low)
    let count ← int64 (width + 1)
    let header ← headerCount withscores count
    let ranks ← (List.range' low.toNat count.toNat).mapM (rankOfIndex len rev)
    return (header, ranks)

/-- What is written for one rank; a rank without a node gives nothing. -/
def rankItem (z : ZSet) (withscores : Bool) (rank : ℕ) : Bytes :=
  match z.sl.atRank rank with
  | some (some x) => Cmd.replyNode withscores (z.sl.node x)
  | _ => []

end BlazeKV.Checked
