import ChartParsing.Chart.Basic
import ChartParsing.Grammar.Basic

/-!
# Child pairs of a span

For one span, the best sum of scores of each pair of children, over the places
where the span can be split. No span is split at 0, so a midpoint of 0 marks a
key without a pair. The keys with pairs are also listed, so that clearing the
table touches only those.
-/

namespace ChartParsing

structure PairTable where
  scores : Array Score
  midpoints : Array UInt16
  populated : Array UInt32

namespace PairTable

def new (size : Nat) : PairTable :=
  ⟨Array.replicate size Score.absent, Array.replicate size 0, #[]⟩

variable (t : PairTable)

def holds (key : UInt32) : Bool := key.toNat < t.midpoints.size

def size : Nat := t.populated.size

def isEmpty : Bool := t.populated.isEmpty

/-- The midpoint of the best pair of a key, 0 if it has none. -/
def midpoint (key : UInt32) : UInt16 := t.midpoints.getD key.toNat 0

def score (key : UInt32) : Score := t.scores.getD key.toNat Score.absent

/-- Score and midpoint of the pair of a key. -/
def get? (key : UInt32) : Option (Score × UInt16) :=
  if t.midpoint key = 0 then none else some (t.score key, t.midpoint key)

def clear : PairTable :=
  { scores := t.populated.foldl (fun xs key => xs.setIfInBounds key.toNat Score.absent) t.scores
    midpoints := t.populated.foldl (fun xs key => xs.setIfInBounds key.toNat 0) t.midpoints
    populated := #[] }

/-- Keeps the larger score. Midpoints arrive in increasing order, so of equal
scores the one with the smaller midpoint stays. -/
def update (key : UInt32) (score : Score) (midpoint : UInt16) : PairTable :=
  let i := key.toNat
  if t.midpoint key = 0 then
    { scores := t.scores.setIfInBounds i score
      midpoints := t.midpoints.setIfInBounds i midpoint
      populated := t.populated.push key }
  else if score > t.score key then
    { t with
      scores := t.scores.setIfInBounds i score
      midpoints := t.midpoints.setIfInBounds i midpoint }
  else t

/-- The pairs in the order in which they were found. -/
def toList : List (UInt32 × Score × UInt16) :=
  t.populated.toList.map fun key => (key, t.score key, t.midpoint key)

/-- Pairs a left child with the right children of a cell that lie in the range
of its siblings. -/
def addRights (packing : Packing) (block : LeftBlock) (range : UInt16 × UInt16)
    (rights : Cell) (midpoint : UInt16) (leftInside : Score) (t : PairTable) : PairTable :=
  let first := SortedSearch.boundary
    (fun i => (rights.entries[i]?).any (·.nt < range.1)) 0 rights.size
  let candidates := (rights.entries.extract first rights.size).toList.takeWhile (·.nt ≤ range.2)
  candidates.foldl (fun t right =>
    match packing.packInto block right.nt with
    | some key => t.update key (leftInside + right.inside) midpoint
    | none => t) t

/-- Pairs one entry of the left cell with the entries of the right one. -/
def addLeft (g : Grammar) (rights : Cell) (midpoint : UInt16) (t : PairTable)
    (left : ChartEntry) : PairTable :=
  match g.siblingRange? left.nt with
  | none => t
  | some range =>
    match g.packing.leftBlock? left.nt with
    | none => t
    | some block => addRights g.packing block range rights midpoint left.inside t

def addMidpoint (g : Grammar) (chart : Chart) (span : Span) (t : PairTable) (midpoint : UInt16) :
    PairTable :=
  let lefts := chart.cell ⟨span.start, midpoint⟩
  let rights := chart.cell ⟨midpoint, span.stop⟩
  if lefts.isEmpty || rights.isEmpty then t
  else lefts.toList.foldl (addLeft g rights midpoint) t

def addSpan (g : Grammar) (chart : Chart) (span : Span) (t : PairTable) : PairTable :=
  span.midpoints.foldl (addMidpoint g chart span) t

end PairTable
end ChartParsing
