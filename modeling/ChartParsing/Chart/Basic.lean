import ChartParsing.Chart.Cell

/-!
# Charts

A chart has a cell for every span of a sentence. The cells are stored row by
row: first those of the spans that start at 0, shortest first, then those that
start at 1, and so on.
-/

namespace ChartParsing

/-- A part of a sentence, from a position up to a later one. -/
structure Span where
  start : UInt16
  stop : UInt16
  deriving DecidableEq, Repr, Inhabited

namespace Span

/-- The number of words, modulo `2 ^ 16`. -/
def width (s : Span) : UInt16 := s.stop - s.start

/-- The positions strictly inside a span, at which it can be split. -/
def midpoints (s : Span) : List UInt16 :=
  let first := (s.start + 1).toNat
  (List.range' first (s.stop.toNat - first)).map UInt16.ofNat

/-- The spans of a sentence of `size` words in the order of their cells. -/
def all (size : Nat) : List Span :=
  (List.range size).flatMap fun start =>
    (List.range' (start + 1) (size - start)).map fun stop =>
      ⟨UInt16.ofNat start, UInt16.ofNat stop⟩

/-- Whether a span has a first and a last word in a sentence of `size` words. -/
def within (size : Nat) (s : Span) : Bool := s.start < s.stop && s.stop.toNat ≤ size

/-- The place of a span among those of a sentence of `size` words. The rows
before it hold `size`, `size - 1`, … cells. -/
def index (size : Nat) (s : Span) : Nat :=
  let start := s.start.toNat
  start * size - start * (start - 1) / 2 + s.stop.toNat - start - 1

end Span

structure Chart where
  size : Nat
  cells : Array Cell
  deriving Inhabited

namespace Chart

def empty : Chart := ⟨0, #[]⟩

instance : EmptyCollection Chart := ⟨empty⟩

variable (c : Chart)

def spanCount (size : Nat) : Nat := size * (size + 1) / 2

/-- The chart with empty cells for `size` words. Cells that are kept are emptied,
and missing ones are added. -/
def clear (size : Nat) : Chart :=
  let kept := (c.cells.shrink (spanCount size)).map Cell.clear
  ⟨size, kept ++ Array.replicate (spanCount size - kept.size) ∅⟩

def index (s : Span) : Nat := s.index c.size

def holds (s : Span) : Bool := s.within c.size

def cell (s : Span) : Cell := c.cells.getD (c.index s) ∅

/-- Puts a cell in place of the one at a span, which is given back. -/
def replace (s : Span) (cell : Cell) : Cell × Chart :=
  let i := c.index s
  (c.cells.getD i ∅, { c with cells := c.cells.setIfInBounds i cell })

def whole : Span := ⟨0, UInt16.ofNat c.size⟩

def top? : Option Cell := if 0 < c.size then some (c.cell c.whole) else none

def population : Nat := (c.cells.toList.map Cell.size).foldr (· + ·) 0

end Chart
end ChartParsing
