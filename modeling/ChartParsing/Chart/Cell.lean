import ChartParsing.Score
import ChartParsing.SortedSearch

/-!
# Cells

A cell holds the non-terminals that derive one span, in increasing order, each
with its best score and a pointer to what it was derived from.
-/

namespace ChartParsing

/-- What an entry was derived from. -/
inductive Children
  /-- Two children, by the key of their pair. -/
  | binary (key : UInt32)
  | unary (child : UInt16)
  | lexical (word : UInt32)
  deriving DecidableEq, Repr, Inhabited

structure ChartEntry where
  nt : UInt16
  inside : Score
  children : Children
  /-- Where a binary entry is split; the end of the span for a unary entry, and
  zero for a lexical one. -/
  midpoint : UInt16
  deriving Inhabited

structure Cell where
  entries : Array ChartEntry
  deriving Inhabited

namespace Cell

def empty : Cell := ⟨#[]⟩

instance : EmptyCollection Cell := ⟨empty⟩

variable (c : Cell)

def size : Nat := c.entries.size

def isEmpty : Bool := c.entries.isEmpty

def clear : Cell := ⟨c.entries.shrink 0⟩

def push (e : ChartEntry) : Cell := ⟨c.entries.push e⟩

def toList : List ChartEntry := c.entries.toList

/-- The non-terminals of the cell in increasing order. -/
def nonTerminals : List UInt16 := c.toList.map (·.nt)

def insides : List Score := c.toList.map (·.inside)

def indexOf? (nt : UInt16) : Option Nat :=
  SortedSearch.find? nt (fun i => c.entries[i]?.map (·.nt)) 0 c.size

def get? (nt : UInt16) : Option ChartEntry := (c.indexOf? nt).bind (c.entries[·]?)

def inside (nt : UInt16) : Score :=
  match c.get? nt with
  | some e => e.inside
  | none => Score.absent

@[simp] theorem clear_eq_empty : c.clear = ∅ := by
  simp [clear, EmptyCollection.emptyCollection, empty]

@[simp] theorem toList_empty : (∅ : Cell).toList = [] := rfl

@[simp] theorem toList_push (e : ChartEntry) : (c.push e).toList = c.toList ++ [e] := by
  simp [push, toList]

@[simp] theorem length_toList : c.toList.length = c.size := by simp [toList, size]

end Cell
end ChartParsing
