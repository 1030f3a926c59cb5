import ChartParsing.Packing.Shift
import ChartParsing.SortedSearch

/-!
# Bit-vector packing

Shift packing restricted to the pairs that occur in a rule. The set of their
keys is kept as an increasing array.
-/

namespace ChartParsing

structure BitVectorPacking where
  base : ShiftPacking
  keys : Array UInt32
  deriving DecidableEq, Repr

namespace BitVectorPacking

/-- The packing of the given pairs; a pair of non-children is left out. -/
def build (bounds : ClassBounds) (pairs : List (UInt16 × UInt16)) :
    Except GrammarError BitVectorPacking := do
  let base ← ShiftPacking.build bounds
  let keys := pairs.filterMap fun (left, right) => base.pack left right
  .ok ⟨base, (SortedSearch.sortedDistinct keys).toArray⟩

variable (p : BitVectorPacking)

def isValid (key : UInt32) : Bool :=
  (SortedSearch.find? key (p.keys[·]?) 0 p.keys.size).isSome

def leftBlock? (left : UInt16) : Option LeftBlock := p.base.leftBlock? left

def packInto (block : LeftBlock) (right : UInt16) : Option UInt32 :=
  (p.base.packInto block right).filter p.isValid

def unpack (key : UInt32) : Option (UInt16 × UInt16) :=
  if p.isValid key then p.base.unpack key else none

end BitVectorPacking
end ChartParsing
