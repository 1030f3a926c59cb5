/-!
# What a single-precision number stands for

A finite number is `± significand · 2 ^ exponent` with a significand below
`2 ^ 24`. Rounding a positive quotient of integers to the nearest such number is
the inverse of taking it apart.
-/

namespace ChartParsing.Numeral

/-- A single-precision number taken apart. -/
inductive Parts
  | nan
  | infinite (negative : Bool)
  | finite (negative : Bool) (significand : Nat) (exponent : Int)
  deriving Repr, DecidableEq

/-- The sign, significand and exponent held in the bits of `x`. -/
def parts (x : Float32) : Parts :=
  let bits := x.toBits.toNat
  let negative := decide (0x80000000 ≤ bits)
  let exponent : Nat := bits / 0x800000 % 0x100
  let fraction := bits % 0x800000
  if exponent = 255 then
    if fraction = 0 then .infinite negative else .nan
  else if exponent = 0 then .finite negative fraction (-149)
  else .finite negative (fraction + 0x800000) ((exponent : Int) - 150)

/-- The integer nearest to `num / den`; a half goes to the even neighbour. -/
def roundHalfEven (num den : Nat) : Nat :=
  let below := num / den
  let twice := 2 * (num % den)
  if twice < den then below
  else if den < twice then below + 1
  else below + below % 2

def scaleUp (base : Nat) (e : Int) : Nat := Nat.pow base e.toNat

def scaleDown (base : Nat) (e : Int) : Nat := Nat.pow base (-e).toNat

def infinityBits : Nat := 0x7f800000

/-- The bits of the number nearest to `num / den`, for a positive quotient. A
significand that rounds up to `2 ^ 24` carries into the exponent field. -/
def nearestBits (num den : Nat) : Nat :=
  let guess : Int := (num.log2 : Int) - den.log2
  let top := if num * scaleDown 2 guess < den * scaleUp 2 guess then guess - 1 else guess
  let unit := max (top - 23) (-149)
  let significand := roundHalfEven (num * scaleDown 2 unit) (den * scaleUp 2 unit)
  min ((unit + 149).toNat * 0x800000 + significand) infinityBits

def ofMagnitude (negative : Bool) (bits : Nat) : Float32 :=
  Float32.ofBits (UInt32.ofNat (if negative then bits + 0x80000000 else bits))

end ChartParsing.Numeral
