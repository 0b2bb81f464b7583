import BlazeKV.Proofs.Framing
import Mathlib.Algebra.BigOperators.Fin

/-! `KEYS`, `SCAN` and `DBSIZE` over all shards. The first two run on the shard of the
connection alone. -/

namespace BlazeKV

open Keyspace

/-- Whether what follows `[` begins with a sign that negates the class. -/
def negates (pat : Bytes) : Bool := pat.head? = some 94 || pat.head? = some 33

/-- What a pattern with `*`, `?`, classes and escapes stands for. -/
inductive Matches : Bytes → Bytes → Prop
  | nil : Matches [] []
  | starEnd {pat str : Bytes} (h : Matches pat str) : Matches (42 :: pat) str
  | starMore {pat str : Bytes} (c : UInt8) (h : Matches (42 :: pat) str) : Matches (42 :: pat) (c :: str)
  | any {pat str : Bytes} (c : UInt8) (h : Matches pat str) : Matches (63 :: pat) (c :: str)
  | escape {pat str : Bytes} (c : UInt8) (h : Matches pat str) : Matches (92 :: c :: pat) (c :: str)
  | class' {pat str : Bytes} (c : UInt8) {found : Bool} {q : ℕ}
      (hc : Cmd.globClass pat c pat.length (if negates pat then 1 else 0) false = (found, q))
      (hf : found ≠ negates pat) (h : Matches (pat.drop (q + 1)) str) : Matches (91 :: pat) (c :: str)
  | literal {pat str : Bytes} (c : UInt8) (hc : c ∉ [42, 63, 91, 92]) (h : Matches pat str) :
      Matches (c :: pat) (c :: str)

/-- A star stands for everything. -/
theorem Matches.star (str : Bytes) : Matches (ascii "*") str := by
  induction str with
  | nil => exact .starEnd .nil
  | cons c str ih => exact .starMore c ih

/-- `glob_match` takes the star for the star of the key. -/
example : Cmd.globMatch (ascii "*") (ascii "*a") = false := by decide +kernel

section Whole

variable {ι γ : Type} [DecidableEq ι] [Fintype ι] (g : HnswGraph γ) (shardFor : Bytes → ι) (here : ι) (now : ℕ)
  (pat : Bytes) (s : ι → Keyspace)

/-- Every stored key is where requests for it go. -/
def Placed : Prop := ∀ i k, ((s i).dict.find k).isSome → shardFor k = i

variable {shardFor here now pat s}

end Whole

end BlazeKV
