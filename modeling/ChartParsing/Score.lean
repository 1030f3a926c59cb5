/-!
# Log-probability scores

Probabilities are kept as natural logarithms in single precision. Every sum and
product of the library rounds to single precision in the order it is written,
so scores can be compared bit for bit.
-/

namespace ChartParsing

/-- The natural logarithm of a probability. -/
abbrev Score := Float32

namespace Score

/-- The score of what has no derivation. -/
def absent : Score := Float32.ofBits 0xff800000

/-- The exponential, rounded once from double precision. -/
def exp (x : Score) : Score := x.toFloat.exp.toFloat32

/-- The natural logarithm of a probability, rounded once from double precision.
Nothing is known of the last bits of the platform's logarithm; the bound says
that they do not take the logarithm of a probability above zero. -/
def ln (x : Score) : Score := min x.toFloat.log.toFloat32 0

/-- The logarithm of `1 + x` for `x` between 0 and 1. The error of rounding
`1 + x` is cancelled by dividing by the sum's own distance from one. -/
def log1p (x : Score) : Score :=
  let x := x.toFloat
  let u := 1 + x
  (if u == 1 then x else u.log * x / (u - 1)).toFloat32

/-- What is added to the greater of two logarithms that are `d` apart, `d ≤ 0`.
It is at most `log 2`, so the bound is never met, whatever the last bits are. -/
def rise (d : Score) : Score :=
  if d.isNaN then d else min (log1p (exp d)) 1

/-- Adds two probabilities held as logarithms. -/
def logSum (a b : Score) : Score :=
  if a == absent then b
  else if b == absent then a
  else
    let hi := if a ≥ b then a else b
    let lo := if a ≥ b then b else a
    hi + rise (lo - hi)

end Score
end ChartParsing
