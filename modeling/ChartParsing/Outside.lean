import ChartParsing.Chart.Basic
import ChartParsing.Grammar.Basic

/-!
# Outside scores

The outside score of a chart entry is the best score of everything in a
derivation of the whole sentence except what is below the entry. Scores are
passed down from the longest span to the shortest: within a cell once along
unary rules, then to the children at every midpoint.
-/

namespace ChartParsing

/-- The non-terminals of a cell in increasing order, and their outside scores. -/
structure OutsideCell where
  nts : Array UInt16
  scores : Array Score
  deriving Inhabited

namespace OutsideCell

def ofCell (c : Cell) : OutsideCell :=
  ⟨c.nonTerminals.toArray, Array.replicate c.size Score.absent⟩

variable (c : OutsideCell)

def indexOf? (nt : UInt16) : Option Nat :=
  SortedSearch.find? nt (c.nts[·]?) 0 c.nts.size

/-- The cell with a greater score for a non-terminal, if it has the non-terminal
with a smaller one. -/
def raise (nt : UInt16) (score : Score) : OutsideCell :=
  match c.indexOf? nt with
  | some i =>
    if score > c.scores.getD i Score.absent then { c with scores := c.scores.setIfInBounds i score }
    else c
  | none => c

def toList : List (UInt16 × Score) := c.nts.toList.zip c.scores.toList

/-- The non-terminals that have been reached. -/
def reached : List (UInt16 × Score) := c.toList.filter fun (_, score) => score != Score.absent

def get (nt : UInt16) : Score :=
  match c.indexOf? nt with
  | some i => c.scores.getD i Score.absent
  | none => Score.absent

end OutsideCell

structure OutsideChart where
  size : Nat
  cells : Array OutsideCell

namespace OutsideChart

variable (o : OutsideChart)

def index (s : Span) : Nat := s.index o.size

def cell (s : Span) : OutsideCell := o.cells.getD (o.index s) default

def raise (s : Span) (nt : UInt16) (score : Score) : OutsideChart :=
  { o with cells := o.cells.modify (o.index s) fun c => c.raise nt score }

/-- The entries of a chart, none of them reached. -/
def unreached (chart : Chart) : OutsideChart :=
  ⟨chart.size, ((Span.all chart.size).map fun s => OutsideCell.ofCell (chart.cell s)).toArray⟩

/-- Passes the scores that a cell has received along its unary rules, once. -/
def passUnaries (g : Grammar) (s : Span) (o : OutsideChart) : OutsideChart :=
  (o.cell s).reached.foldl (fun o (parent, score) =>
    (g.unaryByParent.row parent).foldl
      (fun o (child, rule) => o.raise s child.toUInt16 (score + rule)) o) o

/-- Passes a parent's score to the children that stand beside the given ones. -/
def passBeside (siblings : SiblingIndex) (parent : UInt16) (score : Score) (target : Span)
    (beside : Cell) (o : OutsideChart) : OutsideChart :=
  beside.toList.foldl (fun o sibling =>
    (siblings.children parent sibling.nt).foldl
      (fun o (child, rule) => o.raise target child (score + rule + sibling.inside)) o) o

/-- Passes the scores of parents to their children at one midpoint. -/
def passMidpoint (g : Grammar) (chart : Chart) (s : Span) (parents : List (UInt16 × Score))
    (o : OutsideChart) (midpoint : UInt16) : OutsideChart :=
  let left : Span := ⟨s.start, midpoint⟩
  let right : Span := ⟨midpoint, s.stop⟩
  if (chart.cell left).isEmpty || (chart.cell right).isEmpty then o
  else parents.foldl (fun o (parent, score) =>
    passBeside g.rightChildren parent score right (chart.cell left)
      (passBeside g.leftChildren parent score left (chart.cell right) o)) o

/-- Passes the scores of a cell on, when no more can arrive. -/
def passDown (g : Grammar) (chart : Chart) (o : OutsideChart) (s : Span) : OutsideChart :=
  let o := passUnaries g s o
  let parents := (o.cell s).reached
  s.midpoints.foldl (passMidpoint g chart s parents) o

def spansDown (size : Nat) : List Span :=
  (List.range size).flatMap fun shorter =>
    (List.range (shorter + 1)).map fun start =>
      ⟨UInt16.ofNat start, UInt16.ofNat (start + (size - shorter))⟩

/-- The outside scores of a chart. The start symbol over the whole sentence has
nothing outside it. -/
def compute (g : Grammar) (chart : Chart) : OutsideChart :=
  let o := unreached chart
  if chart.size = 0 then o
  else (spansDown chart.size).foldl (passDown g chart) (o.raise chart.whole g.start 0)

/-- The outside score of a non-terminal over a span, absent where the chart has
no such entry. -/
def get (s : Span) (nt : UInt16) : Score :=
  if s.within o.size then (o.cell s).get nt else Score.absent

end OutsideChart
end ChartParsing
