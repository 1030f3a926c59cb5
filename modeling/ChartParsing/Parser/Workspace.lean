import ChartParsing.Beam.Selection
import ChartParsing.Parser.Options

/-!
# Filling one cell

A workspace has the tables that are needed to fill a cell. They are kept from
cell to cell and from sentence to sentence, and so are the cells that were taken
off the chart.
-/

namespace ChartParsing

structure ParseStats where
  sentenceLength : Nat
  cellsVisited : Nat
  /-- Child pairs found, over all cells. -/
  childPairs : Nat
  /-- Entries of the finished cells. -/
  population : Nat
  deriving DecidableEq, Repr

namespace ParseStats

def zero : ParseStats := ⟨0, 0, 0, 0⟩

def merge (s t : ParseStats) : ParseStats :=
  { s with
    cellsVisited := s.cellsVisited + t.cellsVisited
    childPairs := s.childPairs + t.childPairs
    population := s.population + t.population }

end ParseStats

structure Workspace where
  pairs : PairTable
  scratch : Scratch
  /-- The candidates of a unary step. -/
  unaries : Scratch
  beam : BeamSelector
  /-- Cells taken off the chart, to be filled again. -/
  spare : List Cell

namespace Workspace

def new (g : Grammar) : Workspace where
  pairs := PairTable.new g.packing.size
  scratch := Scratch.new g.size
  unaries := Scratch.new g.size
  beam := BeamSelector.new g.size
  spare := []

/-- Enters what lexicon entries or binary rules derive over a span, and tells how
many child pairs were found. -/
def derive (g : Grammar) (chart : Chart) (words : Array UInt32) (span : Span)
    (w : Workspace) : Nat × Workspace :=
  let scratch := w.scratch.reset
  if span.width = 1 then
    (0, { w with scratch := scratch.addWord g (words.getD span.start.toNat 0) })
  else
    let pairs := w.pairs.clear.addSpan g chart span
    (pairs.size, { w with pairs, scratch := scratch.addPairs g pairs })

/-- Fills a cell with what has been derived: all of it and one step of unary
rules, or the best of it as far as the limit goes. -/
def finish (g : Grammar) (merit : Merit) (job : CellJob) (cell : Cell) (w : Workspace) :
    Cell × Workspace :=
  match job.limit with
  | some width =>
    let (cell, scratch, beam) :=
      w.beam.select g merit job.span width job.held w.scratch cell
    (cell, { w with scratch, beam })
  | none =>
    let (scratch, unaries) := w.scratch.addUnaries g job.span.stop w.unaries
    let (cell, scratch) := scratch.finalizeInto cell
    (cell, { w with scratch, unaries })

/-- The cell of a job, filled from the cells of shorter spans. -/
def fill (g : Grammar) (merit : Merit) (chart : Chart) (words : Array UInt32) (job : CellJob)
    (w : Workspace) : Cell × ParseStats × Workspace :=
  let target := w.spare.headD ∅
  let (childPairs, w) := { w with spare := w.spare.tail }.derive g chart words job.span
  let (cell, w) := w.finish g merit job target
  (cell, ⟨0, 1, childPairs, cell.size⟩, w)

/-- The workspace with one more spare cell. -/
def keep (cell : Cell) (w : Workspace) : Workspace := { w with spare := cell :: w.spare }

end Workspace
end ChartParsing
