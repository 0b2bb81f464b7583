import BlazeKV.Lib.Wildcards
import BlazeKV.Spec.Commands.Generic

/-! The patterns of `KEYS` and `SCAN` as Redis defines them: read once from left to right, whatever
they are matched with. -/

namespace BlazeKV.Glob

open Lib

/-- Whether a class with this body, from its sign on, has the byte. The ends of a range belong to it,
and the order is that of `char`. -/
def inBody (c : UInt8) : Bytes → Bool
  | [] => false
  | lo :: 45 :: hi :: rest => (Cmd.charLe lo c && Cmd.charLe c hi) || inBody c rest
  | b :: rest => b = c || inBody c rest

def inClass (body : Bytes) (c : UInt8) : Bool :=
  match body with
  | [] => false
  | sign :: rest => if sign = 94 ∨ sign = 33 then !inBody c rest else inBody c body

/-- Where the reading of a pattern stands. -/
inductive Mode
  | outside
  | escaped
  | inside (body : Bytes)

/-- What a pattern stands for. A pattern that ends in `\` or within a class stands for nothing, and
neither does one with a `\` in a class. -/
def tokens : Mode → Bytes → Option (List (Wildcard UInt8))
  | .outside, [] => some []
  | .escaped, [] => none
  | .inside _, [] => none
  | .outside, c :: pat =>
    if c = 42 then (tokens .outside pat).map (.star :: ·)
    else if c = 63 then (tokens .outside pat).map (.one (fun _ => true) :: ·)
    else if c = 91 then tokens (.inside []) pat
    else if c = 92 then tokens .escaped pat
    else (tokens .outside pat).map (.one (· = c) :: ·)
  | .escaped, c :: pat => (tokens .outside pat).map (.one (· = c) :: ·)
  | .inside body, c :: pat =>
    if c = 93 then (tokens .outside pat).map (.one (inClass body) :: ·)
    else if c = 92 then none
    else tokens (.inside (body ++ [c])) pat

/-- Whether a string matches a pattern. -/
def matched (pat str : Bytes) : Option Bool := (tokens .outside pat).map (Wildcard.accepts · str)

example : matched (ascii "a[^b-d]*\\*") (ascii "aexy*") = some true := by decide +kernel

end BlazeKV.Glob
