import ChartParsing.Matrix.Triple
import ChartParsing.SortedSearch

/-!
# Matrices by row

Row-major storage, for walking the columns of a row.
-/

namespace ChartParsing

structure RowMatrix where
  /-- Where each row starts, and the end of the last. -/
  offsets : Array UInt32
  /-- Column and score of every entry, row after row. -/
  cells : Array (UInt32 × Score)

namespace RowMatrix

/-- The matrix with entries (row, column, score). -/
def ofTriples? (rows : Nat) (entries : List Triple) : Option RowMatrix :=
  (Triple.accumulate? rows entries).map fun merged =>
    ⟨Triple.offsets rows (merged.map (·.major.toNat)),
      merged.map fun t => (t.minor, t.value)⟩

variable (m : RowMatrix)

def rows : Nat := m.offsets.size - 1

def size : Nat := m.cells.size

/-- The indices of the entries of a row: the first, and the one after the last. -/
def bounds (row : UInt16) : Nat × Nat :=
  ((m.offsets.getD row.toNat 0).toNat, (m.offsets.getD (row.toNat + 1) 0).toNat)

def row (row : UInt16) : List (UInt32 × Score) :=
  if row.toNat < m.rows then
    let (lo, hi) := m.bounds row
    (m.cells.extract lo hi).toList
  else []

def row? (row : UInt16) : Option (List (UInt32 × Score)) :=
  if row.toNat < m.rows then some (m.row row) else none

def get (row : UInt16) (column : UInt32) : Score :=
  if row.toNat < m.rows then
    let (lo, hi) := m.bounds row
    match SortedSearch.find? column (fun i => m.cells[i]?.map Prod.fst) lo hi with
    | some i => (m.cells.getD i (0, Score.absent)).2
    | none => Score.absent
  else Score.absent

def toLists : List (List (UInt32 × Score)) :=
  (List.range m.rows).map fun i => m.row (UInt16.ofNat i)

end RowMatrix
end ChartParsing
