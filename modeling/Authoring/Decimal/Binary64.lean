import Authoring.Decimal.Shortest

/-!
# Doubles and their text

A double is kept as its sixty-four bits, so that two doubles are told apart exactly. Here the bits are read
as sign, mantissa and exponent, compared with whole numbers, and written as the shortest decimal that reads
back: positional from `10 ^ -4` up to `10 ^ 16`, with an exponent of at least two digits outside it, and
never without a point or an exponent, so that a double is not taken for a whole number.
-/

namespace Authoring.Decimal

/-- A double, by its bits. -/
structure Binary64 where
  bits : UInt64
  deriving DecidableEq, Inhabited

namespace Binary64

def negative (x : Binary64) : Bool := x.bits.toNat / Nat.pow 2 63 == 1

/-- The exponent field. -/
def field (x : Binary64) : Nat := x.bits.toNat / Nat.pow 2 52 % Nat.pow 2 11

def fraction (x : Binary64) : Nat := x.bits.toNat % Nat.pow 2 52

/-- The mantissa `m` of the absolute value `m * 2 ^ q`. -/
def mantissa (x : Binary64) : Nat := if x.field = 0 then x.fraction else x.fraction + Nat.pow 2 52

/-- The exponent `q` of the absolute value `m * 2 ^ q`. -/
def exponent (x : Binary64) : Int := (if x.field = 0 then 1 else x.field) - 1075

def isFinite (x : Binary64) : Bool := x.field != 2047

/-- Whether a double is no number at all. -/
def isNaN (x : Binary64) : Bool := !x.isFinite && x.fraction != 0

/-- The whole number that a double is, if it is one. -/
def toInt? (x : Binary64) : Option Int :=
  if !x.isFinite then none
  else
    let down := Nat.pow 2 (-x.exponent).toNat
    if x.mantissa % down = 0 then
      let n : Int := (x.mantissa / down * Nat.pow 2 x.exponent.toNat : Nat)
      some (if x.negative then -n else n)
    else none

/-- Whether a double is below zero. -/
def isBelowZero (x : Binary64) : Bool :=
  x.negative && (if x.isFinite then x.mantissa != 0 else x.fraction == 0)

/-- Whether a double counts as true: all but the zeros do. -/
def isNonzero (x : Binary64) : Bool := !(x.isFinite && x.mantissa == 0)

/-- A number of at least two digits. -/
def twoDigits (n : Nat) : String := if n < 10 then "0" ++ toString n else toString n

/-- The digits of a decimal without the zeros at its end, and the exponent of its last digit. -/
def trimZeros : Nat → Nat → Int → Nat × Int
  | 0, c, k => (c, k)
  | n + 1, c, k => if c % 10 = 0 then trimZeros n (c / 10) (k + 1) else (c, k)

/-- A positive decimal `c * 10 ^ k`, positional while the exponent of its first digit is at least `-4` and
below `16`. -/
def writeDecimal (c : Nat) (k : Int) : String :=
  let digits := (Nat.toDigits 10 c)
  let lead : Int := k + digits.length - 1
  if -4 ≤ lead && lead < 16 then
    if 0 ≤ k then String.ofList (digits ++ List.replicate k.toNat '0') ++ ".0"
    else if 0 ≤ lead then
      let whole := lead.toNat + 1
      String.ofList (digits.take whole) ++ "." ++ String.ofList (digits.drop whole)
    else "0." ++ String.ofList (List.replicate (-lead - 1).toNat '0' ++ digits)
  else
    let point := if digits.length = 1 then "" else "." ++ String.ofList (digits.drop 1)
    let sign := if lead < 0 then "-" else "+"
    String.ofList (digits.take 1) ++ point ++ "e" ++ sign ++ twoDigits lead.natAbs

/-- The text of a double: the shortest decimal that reads back. -/
def toText (x : Binary64) : String :=
  let sign := if x.negative then "-" else ""
  if !x.isFinite then (if x.fraction = 0 then sign ++ "inf" else "nan")
  else if x.mantissa = 0 then sign ++ "0.0"
  else
    let narrow := x.fraction == 0 && 1 < x.field
    let (c, k) := (Span.ofBinary x.mantissa x.exponent narrow).shortest
    let (c, k) := trimZeros 400 c k
    sign ++ writeDecimal c k

/-- The text of a double where values are listed: a word for what is not finite. -/
def listed (x : Binary64) : String :=
  if x.isNaN then "NaN"
  else if x.isFinite then x.toText
  else if x.negative then "-Infinity" else "Infinity"

end Binary64

end Authoring.Decimal
