import ChartParsing.Packing.Shift
import ChartParsing.SortedSearch
import Std.Data.HashMap

/-!
# Perfect hashing of pairs

Each left child owns a slot table in which its right siblings never share a
slot. A slot holds the right child it is for, so that other children are told
apart, and its key. Keys count the pairs in increasing order.
-/

namespace ChartParsing

/-- A right child and the key of its pair. -/
structure PairSlot where
  right : UInt16
  key : UInt32
  deriving DecidableEq, Repr

structure PairHash where
  lefts : Interval
  /-- The slot table of each left child. -/
  blocks : Array LeftBlock
  slots : Array (Option PairSlot)
  /-- The pair of each key. -/
  pairs : Array (UInt16 × UInt16)
  deriving DecidableEq, Repr

namespace PairHash

/-- The right siblings of each left child, last pair first. -/
def siblings (pairs : List (UInt16 × UInt16)) : Std.HashMap UInt16 (List UInt16) :=
  pairs.foldl (fun m (left, right) => m.insert left (right :: m.getD left [])) ∅

/-- A hash under construction, with the array that the table search reuses. -/
structure Draft where
  blocks : Array LeftBlock
  slots : Array (Option PairSlot)
  pairs : Array (UInt16 × UInt16)
  marks : Array Bool

/-- Enters one pair into the table of its left child. -/
def Draft.enter (block : LeftBlock) (left : UInt16) (d : Draft) (right : UInt16) : Draft :=
  let slot := block.offset + SlotTable.slotOf block.shift block.mask right
  { d with
    slots := d.slots.setIfInBounds slot.toNat (some ⟨right, UInt32.ofNat d.pairs.size⟩)
    pairs := d.pairs.push (left, right) }

/-- Adds the table of the next left child. -/
def Draft.addLeft (rightsOf : UInt16 → List UInt16) (d : Draft) (left : UInt16) : Draft :=
  let rights := SortedSearch.sortedDistinct (rightsOf left)
  let ((shift, mask), marks) := SlotTable.smallest rights d.marks
  let block : LeftBlock := ⟨shift, mask, UInt32.ofNat d.slots.size⟩
  let d : Draft :=
    { d with
      blocks := d.blocks.push block
      slots := d.slots ++ Array.replicate (mask.toNat + 1) none
      marks := marks }
  rights.foldl (Draft.enter block left) d

def build (lefts : Interval) (pairs : List (UInt16 × UInt16)) : PairHash :=
  let found := siblings pairs
  let d := lefts.toList.foldl (Draft.addLeft fun left => found.getD left []) ⟨#[], #[], #[], #[]⟩
  ⟨lefts, d.blocks, d.slots, d.pairs⟩

variable (h : PairHash)

def size : Nat := h.pairs.size

/-- The slots of all tables together. -/
def slotCount : Nat := h.slots.size

def leftBlock? (left : UInt16) : Option LeftBlock :=
  if h.lefts.contains left then h.blocks[(left - h.lefts.start).toNat]? else none

def packInto (block : LeftBlock) (right : UInt16) : Option UInt32 :=
  let slot := block.offset + SlotTable.slotOf block.shift block.mask right
  match h.slots.getD slot.toNat none with
  | some s => if s.right = right then some s.key else none
  | none => none

def pack (left right : UInt16) : Option UInt32 :=
  (h.leftBlock? left).bind fun block => h.packInto block right

def unpack (key : UInt32) : Option (UInt16 × UInt16) := h.pairs[key.toNat]?

end PairHash
end ChartParsing
