import ChartParsing.Numeral.Single

/-!
# Writing numerals

Two forms of a single-precision number, both positional at every size: the
fewest digits that read back as the number, and a fixed number of places.
-/

namespace ChartParsing.Numeral

/-- The multiple of `10 ^ power` nearest to `significand · 2 ^ exponent` among
those that round to it, if there is one. The numbers that round to it reach half
a unit up and half a unit down, a quarter where the unit shrinks just below, and
include the ends when the significand is even. Of two equally near multiples the
larger is taken. -/
def gridPoint? (significand : Nat) (exponent power : Int) : Option Nat :=
  let up := scaleUp 2 exponent * scaleDown 10 power
  let down := 4 * scaleDown 2 exponent * scaleUp 10 power
  let below := if significand = 0x800000 ∧ exponent > -149 then 1 else 2
  let value := 4 * significand * up
  let low := (4 * significand - below) * up
  let high := (4 * significand + 2) * up
  let reads (c : Nat) : Bool :=
    if significand % 2 = 0 then low ≤ c * down ∧ c * down ≤ high
    else low < c * down ∧ c * down < high
  let c := value / down
  match reads c, reads (c + 1) with
  | true, true => some (if value - c * down < (c + 1) * down - value then c else c + 1)
  | true, false => some c
  | false, true => some (c + 1)
  | false, false => none

/-- The shortest digits that read back as `significand · 2 ^ exponent`, with the
power of ten of the last one: the point of the coarsest decimal grid that has
one. Every number of this precision has nine digits or fewer. -/
def shortest (significand : Nat) (exponent : Int) : Nat × Int :=
  ((List.range 100).findSome? fun (i : Nat) =>
    let power : Int := 39 - (i : Int)
    (gridPoint? significand exponent power).map (·, power)).getD (0, 0)

def digitsOf (n : Nat) : String := String.ofList (Nat.toDigits 10 n)

/-- `n / 10 ^ places`, with exactly that many digits after the point. -/
def positional (n places : Nat) : String :=
  if places = 0 then digitsOf n
  else
    let fraction := Nat.toDigits 10 (n % Nat.pow 10 places)
    digitsOf (n / Nat.pow 10 places) ++ "."
      ++ String.ofList (List.replicate (places - fraction.length) '0' ++ fraction)

def signText (negative : Bool) : String := if negative then "-" else ""

/-- The fewest digits that read back as `x`, never with an exponent. -/
def writeShortest (x : Float32) : String :=
  match parts x with
  | .nan => "NaN"
  | .infinite negative => signText negative ++ "inf"
  | .finite negative 0 _ => signText negative ++ "0"
  | .finite negative significand exponent =>
    let (digits, power) := shortest significand exponent
    signText negative ++ positional (digits * scaleUp 10 power) (-power).toNat

/-- `x` with the given number of places, a half going to the even neighbour. -/
def writeFixed (places : Nat) (x : Float32) : String :=
  match parts x with
  | .nan => "NaN"
  | .infinite negative => signText negative ++ "inf"
  | .finite negative significand exponent =>
    let scaled := roundHalfEven (significand * Nat.pow 10 places * scaleUp 2 exponent)
      (scaleDown 2 exponent)
    signText negative ++ positional scaled places

end ChartParsing.Numeral
