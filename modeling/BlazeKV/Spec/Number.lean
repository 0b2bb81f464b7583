import BlazeKV.Lib.Binary64
import BlazeKV.Spec.Bytes

/-! `object.cpp`: integers and doubles as text. Integers follow `std::from_chars`
and `std::to_chars`; doubles follow `strtod`, with `ERANGE` refused, and the
`%.17g` conversion, both correctly rounded. -/

namespace BlazeKV

abbrev Double := Lib.Binary64

def isDigit (c : UInt8) : Bool := 48 ≤ c.toNat ∧ c.toNat ≤ 57

def digitsValue (s : Bytes) : ℕ := s.foldl (fun n c => 10 * n + (c.toNat - 48)) 0

/-- The range of `std::int64_t`. -/
def fitsInt64 (v : ℤ) : Bool := -2 ^ 63 ≤ v ∧ v < 2 ^ 63

/-- `static_cast<std::int64_t>`, and the wrap of signed arithmetic. -/
def i64 (v : ℤ) : ℤ := Int.bmod v (2 ^ 64)

/-- `static_cast<std::uint64_t>`. -/
def toU64 (v : ℤ) : ℕ := (v % 2 ^ 64).toNat

/-- `parse_int` and `to_ll`: `std::from_chars` on the whole string. -/
def parseInt : Bytes → Option ℤ
  | [] => none
  | c :: s =>
    let neg := c = 45
    let ds := if neg then s else c :: s
    let v : ℤ := if neg then -(digitsValue ds : ℤ) else digitsValue ds
    if ds ≠ [] ∧ ds.all isDigit ∧ fitsInt64 v then some v else none

def digit (n : ℕ) : UInt8 := UInt8.ofNat (48 + n)

/-- The digits of `n` in front of `acc`; `n` has at most `fuel` of them. -/
def decimalAux : ℕ → ℕ → Bytes → Bytes
  | 0, _, acc => acc
  | fuel + 1, n, acc =>
    if n < 10 then digit n :: acc else decimalAux fuel (n / 10) (digit (n % 10) :: acc)

def decimal (n : ℕ) : Bytes := decimalAux (n + 1) n []

/-- `int_to_string` and `append_ll`. -/
def intToString (v : ℤ) : Bytes := if v < 0 then 45 :: decimal v.natAbs else decimal v.natAbs

/-! Reading a double. -/

def isSpace (c : UInt8) : Bool := c.toNat = 32 ∨ (9 ≤ c.toNat ∧ c.toNat ≤ 13)

def hexValue? (c : UInt8) : Option ℕ :=
  let l := (toLower c).toNat
  if isDigit c then some (c.toNat - 48) else if 97 ≤ l ∧ l ≤ 102 then some (l - 87) else none

/-- A mantissa in base `b` from the front of a string: its digits as a number,
how many of them stand after the point, how many there are, and the rest. -/
def mantissa (b : ℕ) (val : UInt8 → Option ℕ) : Bool → ℕ × ℕ × ℕ → Bytes → (ℕ × ℕ × ℕ) × Bytes
  | _, acc, [] => (acc, [])
  | point, (m, f, n), c :: s =>
    match val c with
    | some v => mantissa b val point (b * m + v, if point then f + 1 else f, n + 1) s
    | none => if c = 46 ∧ !point then mantissa b val true (m, f, n) s else ((m, f, n), c :: s)

/-- An optional exponent, which has to be the whole rest. -/
def exponent (mark : UInt8) : Bytes → Option ℤ
  | [] => some 0
  | c :: s =>
    if toLower c ≠ mark then none
    else
      let (neg, ds) := match s with
        | d :: t => if d = 45 then (true, t) else if d = 43 then (false, t) else (false, s)
        | [] => (false, [])
      if ds ≠ [] ∧ ds.all isDigit then
        some (if neg then -(digitsValue ds : ℤ) else digitsValue ds)
      else none

/-- The double nearest to `n / d` units of `2 ^ -1074`; `none` is `ERANGE`, on
overflow and on an inexact result below the normal range. -/
def roundOrErange (neg : Bool) (n d : ℕ) : Option Double :=
  let m := Lib.Binary64.roundQuot n d
  if m = Lib.Binary64.infMag then none
  else if Lib.Binary64.roundQuot (2 * n) d < 2 ^ 53 ∧ Lib.Binary64.units m * d ≠ n then none
  else some (.make neg m)

/-- `m * base ^ e * 2 ^ 1074` as a quotient. -/
def scaled (neg : Bool) (m base : ℕ) (e : ℤ) : Option Double :=
  if m = 0 then some (.make neg 0)
  else roundOrErange neg (m * base ^ e.toNat * 2 ^ 1074) (base ^ (-e).toNat)

/-- What may follow `nan`: nothing, or a payload in parentheses. -/
def isNanTail : Bytes → Bool
  | [] => true
  | c :: s => c = 40 ∧ s.getLast? = some 41 ∧ (s.dropLast.all fun c =>
      isDigit c || c = 95 || (97 ≤ (toLower c).toNat && (toLower c).toNat ≤ 122))

def strtodUnsigned (neg : Bool) (s : Bytes) : Option Double :=
  let l := lowercase s
  if l = ascii "inf" ∨ l = ascii "infinity" then some (.make neg Lib.Binary64.infMag)
  else if l.take 3 = ascii "nan" ∧ isNanTail (s.drop 3) then some .nan
  else if l.take 2 = ascii "0x" then do
    let ((m, f, n), rest) := mantissa 16 hexValue? false (0, 0, 0) (s.drop 2)
    let e ← exponent 112 rest
    if n = 0 then none else scaled neg m 2 (e - 4 * f)
  else do
    let ((m, f, n), rest) :=
      mantissa 10 (fun c => if isDigit c then some (c.toNat - 48) else none) false (0, 0, 0) s
    let e ← exponent 101 rest
    if n = 0 then none else scaled neg m 10 (e - f)

/-- `strtod` on a string that it has to consume whole. -/
def strtod (s : Bytes) : Option Double :=
  match s.dropWhile isSpace with
  | [] => none
  | c :: t =>
    if c = 45 then strtodUnsigned true t
    else if c = 43 then strtodUnsigned false t
    else strtodUnsigned false (c :: t)

def parseDouble (s : Bytes) : Option Double :=
  if s = [] then none
  else if s = ascii "inf" ∨ s = ascii "+inf" ∨ s = ascii "Inf" ∨ s = ascii "+Inf" then some .inf
  else if s = ascii "-inf" ∨ s = ascii "-Inf" then some .negInf
  else strtod s

/-! Writing a double. -/

/-- `n / d` to the nearest integer, ties to even. -/
def roundHalfEven (n d : ℕ) : ℕ :=
  let q := n / d
  let r := n % d
  if d < 2 * r ∨ (2 * r = d ∧ q % 2 = 1) then q + 1 else q

/-- The seventeen significant digits of `u * 2 ^ -1074` and the exponent of the first. -/
def significant (u : ℕ) : ℕ × ℤ :=
  let den := 2 ^ 1074
  let x : ℤ :=
    if u < den then -((decimal ((den + u - 1) / u - 1)).length : ℤ)
    else (decimal (u / den)).length - 1
  let d := roundHalfEven (u * 10 ^ (16 - x).toNat) (den * 10 ^ (x - 16).toNat)
  if d = 10 ^ 17 then (10 ^ 16, x + 1) else (d, x)

def stripZeros (s : Bytes) : Bytes := (s.reverse.dropWhile (· = 48)).reverse

def withPoint (int frac : Bytes) : Bytes :=
  let frac := stripZeros frac
  if frac = [] then int else int ++ 46 :: frac

/-- `snprintf("%.17g")` of a finite magnitude. -/
def formatG (u : ℕ) : Bytes :=
  if u = 0 then [48]
  else
    let (d, x) := significant u
    let ds := decimal d
    if x < -4 ∨ 17 ≤ x then
      let e := decimal x.natAbs
      withPoint (ds.take 1) (ds.drop 1) ++ [101, if x < 0 then 45 else 43] ++
        (if e.length < 2 then 48 :: e else e)
    else if x < 0 then withPoint [48] (List.replicate ((-x).toNat - 1) 48 ++ ds)
    else withPoint (ds.take (x.toNat + 1)) (ds.drop (x.toNat + 1))

def doubleToString (v : Double) : Bytes :=
  if v.isInf then (if v.negative then ascii "-inf" else ascii "inf")
  else if v.isNaN then ascii "nan"
  else (if v.negative then [45] else []) ++ formatG (Lib.Binary64.units v.mag)

end BlazeKV
