import ChartParsing.Schedule

/-!
# Options of a parser

What a parser keeps of each cell, which sentences it takes on, and how it goes
about them. From the options and the schedule of a sentence follow the jobs, one
for each cell to be filled.
-/

namespace ChartParsing

structure ParserOptions where
  beamWidth : Option Nat
  /-- Entries kept of the cell of a single word, whatever `beamWidth` is. -/
  wordBeamWidth : Option Nat
  /-- The share of a word's entries that is held for unary parents. -/
  unaryFraction : Float32
  maxLength : Nat
  parallel : Bool
  /-- Milliseconds after which a sentence is given up. -/
  timeLimit : Option Nat

namespace ParserOptions

def default : ParserOptions where
  beamWidth := none
  wordBeamWidth := none
  unaryFraction := Float32.ofBits 0x3e99999a
  maxLength := 200
  parallel := false
  timeLimit := none

/-- The nearest number from 0 to 1; what is no number stays as it is. -/
def clampFraction (x : Float32) : Float32 :=
  if x < 0 then 0 else if x > 1 then 1 else x

variable (o : ParserOptions)

/-- The options with a share held for unary parents, kept between 0 and 1. -/
def withUnaryFraction (fraction : Float32) : ParserOptions :=
  { o with unaryFraction := clampFraction fraction }

def cellLimit? (s : Span) : Option Nat :=
  if s.width = 1 then o.wordBeamWidth else o.beamWidth

/-- Positions are counted in 16 bits. -/
def lengthLimit : Nat := min o.maxLength 65535

end ParserOptions

/-- A cell to be filled: its span, the limit on its entries, and how many of
these are held for unary parents. -/
structure CellJob where
  span : Span
  limit : Option Nat
  held : Nat
  deriving DecidableEq, Repr

namespace CellJob

/-- The share of `width` entries, cut to a whole number. -/
def share (width : Nat) (fraction : Float32) : Nat :=
  (Float32.ofNat width * fraction).toUInt64.toNat

/-- The job of a span under the options and the schedule. -/
def ofSpan (o : ParserOptions) (schedule : Schedule) (span : Span) : CellJob :=
  let limit := tighter (o.cellLimit? span) (schedule.limit? span)
  let held := match limit, o.wordBeamWidth with
    | some width, some _ => if span.width = 1 then share width o.unaryFraction else 0
    | _, _ => 0
  ⟨span, limit, held⟩

end CellJob
end ChartParsing
