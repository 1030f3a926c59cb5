import ChartParsing.Matrix.Triple
import ChartParsing.SortedSearch

/-!
# Matrices by column

Column-major storage, for walking the rows of a column. The columns that hold
entries are also listed on their own, so that a product can pass over the rest.
-/

namespace ChartParsing

structure ColumnMatrix where
  /-- The columns that hold entries, in increasing order. -/
  populated : Array UInt32
  /-- Where each of these starts, and the end of the last. -/
  populatedOffsets : Array UInt32
  /-- Where each column starts, and the end of the last. -/
  offsets : Array UInt32
  /-- Row and score of every entry, column after column. -/
  cells : Array (UInt16 × Score)

/-- A position with the column as its bucket. -/
def Triple.inColumn (row : UInt16) (column : UInt32) (value : Score) : Triple :=
  ⟨column, row.toUInt32, value⟩

namespace ColumnMatrix

/-- The columns met so far in a sequence sorted by column, with their starts. -/
structure Runs where
  columns : Array UInt32
  starts : Array UInt32
  length : Nat

def Runs.add (runs : Runs) (t : Triple) : Runs :=
  if runs.columns.back? = some t.major then { runs with length := runs.length + 1 }
  else ⟨runs.columns.push t.major, runs.starts.push (UInt32.ofNat runs.length),
    runs.length + 1⟩

/-- The matrix with entries given by `Triple.inColumn`. -/
def ofTriples? (columns : Nat) (entries : List Triple) : Option ColumnMatrix :=
  (Triple.accumulate? columns entries).map fun merged =>
    let runs := merged.foldl Runs.add ⟨#[], #[], 0⟩
    ⟨runs.columns, runs.starts.push (UInt32.ofNat merged.size),
      Triple.offsets columns (merged.map (·.major.toNat)),
      merged.map fun t => (t.minor.toUInt16, t.value)⟩

variable (m : ColumnMatrix)

def columns : Nat := m.offsets.size - 1

def size : Nat := m.cells.size

def populatedColumn (i : Nat) : List (UInt16 × Score) :=
  (m.cells.extract (m.populatedOffsets.getD i 0).toNat
    (m.populatedOffsets.getD (i + 1) 0).toNat).toList

/-- The indices of the entries of a column: the first, and the one after the last. -/
def bounds (column : UInt32) : Nat × Nat :=
  if column.toNat < m.columns then
    ((m.offsets.getD column.toNat 0).toNat, (m.offsets.getD (column.toNat + 1) 0).toNat)
  else (0, 0)

/-- Row and score of the entries of a column, in increasing order of row. -/
def column (column : UInt32) : List (UInt16 × Score) :=
  (m.cells.extract (m.bounds column).1 (m.bounds column).2).toList

def get (row : UInt16) (column : UInt32) : Score :=
  let (lo, hi) := m.bounds column
  match SortedSearch.find? row (fun i => m.cells[i]?.map Prod.fst) lo hi with
  | some i => (m.cells.getD i (0, Score.absent)).2
  | none => Score.absent

def toLists : List (UInt32 × List (UInt16 × Score)) :=
  m.populated.toList.zipIdx.map fun (column, i) => (column, m.populatedColumn i)

end ColumnMatrix
end ChartParsing
