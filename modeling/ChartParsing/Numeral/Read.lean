import ChartParsing.Numeral.Single

/-!
# Reading numerals

A numeral is an optional sign followed by `inf`, `infinity` or `nan` in any
case, or by a decimal: digits with an optional point, at least one of them, and
an optional exponent. The value is rounded once, to the nearest single-precision
number.
-/

namespace ChartParsing.Numeral

def ofDigits (digits : List Char) : Nat :=
  digits.foldl (fun n c => 10 * n + (c.toNat - '0'.toNat)) 0

/-- A nonempty run of digits and nothing else. -/
def digits? (cs : List Char) : Option Nat :=
  if cs.isEmpty || !cs.all Char.isDigit then none else some (ofDigits cs)

/-- The size of an exponent. Once it has reached 65536 the digits that follow are
read and leave it as it is. -/
def exponentSize? (cs : List Char) : Option Nat :=
  (digits? cs).map fun _ => cs.foldl (fun n c =>
    if n < 0x10000 then 10 * n + (c.toNat - '0'.toNat) else n) 0

/-- The exponent part of a decimal, zero where there is none. -/
def exponent? : List Char → Option Int
  | [] => some 0
  | c :: cs =>
    if c = 'e' ∨ c = 'E' then
      match cs with
      | '-' :: ds => (exponentSize? ds).map fun n => -(n : Int)
      | '+' :: ds => (exponentSize? ds).map Int.ofNat
      | ds => (exponentSize? ds).map Int.ofNat
    else none

/-- A decimal without sign, as its digits and the power of ten of the last one. -/
def decimal? (cs : List Char) : Option (List Char × Int) :=
  let whole := cs.takeWhile Char.isDigit
  let rest := cs.dropWhile Char.isDigit
  let (fraction, rest) := match rest with
    | '.' :: more => (more.takeWhile Char.isDigit, more.dropWhile Char.isDigit)
    | _ => ([], rest)
  if whole.isEmpty && fraction.isEmpty then none
  else (exponent? rest).map fun e => (whole ++ fraction, e - fraction.length)

/-- The bits nearest to `digits · 10 ^ power`. A value out of range is settled
by the position of its first digit, before any power is taken. -/
def decimalBits (digits : List Char) (power : Int) : Nat :=
  let digits := digits.dropWhile (· = '0')
  let top := power + digits.length
  if digits.isEmpty ∨ top < -60 then 0
  else if 40 < top then infinityBits
  else nearestBits (ofDigits digits * scaleUp 10 power) (scaleDown 10 power)

def magnitude? (cs : List Char) : Option Nat :=
  let word := cs.map Char.toLower
  if word = "inf".toList ∨ word = "infinity".toList then some infinityBits
  else if word = "nan".toList then some 0x7fc00000
  else (decimal? cs).map fun (digits, power) => decimalBits digits power

def read? (text : String) : Option Float32 :=
  match text.toList with
  | '-' :: cs => (magnitude? cs).map (ofMagnitude true)
  | '+' :: cs => (magnitude? cs).map (ofMagnitude false)
  | cs => (magnitude? cs).map (ofMagnitude false)

/-- An unsigned machine integer: an optional plus sign and digits, below `2 ^ 64`. -/
def readCount? (text : String) : Option Nat :=
  let digits := match text.toList with
    | '+' :: cs => cs
    | cs => cs
  (digits? digits).filter (· < 0x10000000000000000)

end ChartParsing.Numeral
