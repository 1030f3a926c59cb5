import ChartParsing.Grammar.Error
import ChartParsing.Label.Class
import ChartParsing.Packing.SlotTable

/-!
# Shift packing

The key of a pair is the left child shifted past the bits of the largest right
child. Every left child pairs with every right child, whether or not a rule uses
the pair.
-/

namespace ChartParsing

/-- What is computed once for a left child and used for each right child tried
against it. -/
structure LeftBlock where
  shift : UInt32
  mask : UInt32
  offset : UInt32
  deriving DecidableEq, Repr, Inhabited

/-- Keys are 31 bits at most. -/
def maxKeyCount : Nat := 0x80000000

structure ShiftPacking where
  shift : Nat
  mask : UInt32
  lefts : Interval
  rights : Interval
  size : Nat
  deriving DecidableEq, Repr

namespace ShiftPacking

/-- The packing for the given classes, if its keys are few enough. -/
def build (bounds : ClassBounds) : Except GrammarError ShiftPacking :=
  let lefts := bounds.leftChildren
  let rights := bounds.rightChildren
  let shift := SlotTable.bitsFor (UInt32.ofNat (rights.stop.toNat - 1))
  let required := lefts.stop.toNat * Nat.pow 2 shift
  if required > maxKeyCount then .error (.packingOverflow .shift required)
  else .ok ⟨shift, SlotTable.lowMask shift, lefts, rights, required⟩

variable (p : ShiftPacking)

def leftBlock? (left : UInt16) : Option LeftBlock :=
  if p.lefts.contains left then
    let shift := UInt32.ofNat p.shift
    some ⟨shift, p.mask, left.toUInt32 <<< shift⟩
  else none

def packInto (block : LeftBlock) (right : UInt16) : Option UInt32 :=
  if p.rights.contains right then some (block.offset ||| (right.toUInt32 &&& block.mask))
  else none

def unpack (key : UInt32) : Option (UInt16 × UInt16) :=
  if key.toNat < p.size then
    let left := (key >>> UInt32.ofNat p.shift).toUInt16
    let right := (key &&& p.mask).toUInt16
    if p.lefts.contains left && p.rights.contains right then some (left, right) else none
  else none

def pack (left right : UInt16) : Option UInt32 :=
  (p.leftBlock? left).bind fun block => p.packInto block right

end ShiftPacking
end ChartParsing
