/-!
# Slot tables

A small hash table sends a number to the slot `(number >> shift) & mask`. The
least shift under which the numbers of a list fall into different slots is found
by trying, with one array of marks that is reused from try to try.
-/

namespace ChartParsing.SlotTable

/-- The number of bits that hold every value up to `largest`; at least one. -/
def bitsFor (largest : UInt32) : Nat :=
  if largest = 0 then 1 else largest.toNat.log2 + 1

def slotOf (shift mask : UInt32) (value : UInt16) : UInt32 :=
  (value.toUInt32 >>> shift) &&& mask

def clearMarks (marks : Array Bool) (count : Nat) : Array Bool :=
  marks.shrink 0 ++ Array.replicate count false

/-- Marks the slots of the values one by one; fails at a slot already marked. -/
def markAll (shift mask : UInt32) : List UInt16 → Array Bool → Bool × Array Bool
  | [], marks => (true, marks)
  | value :: values, marks =>
    let slot := (slotOf shift mask value).toNat
    if marks.getD slot false then (false, marks)
    else markAll shift mask values (marks.setIfInBounds slot true)

/-- The first of the given shifts under which no two values share a slot. -/
def firstShift (values : List UInt16) (mask : UInt32) :
    List UInt32 → Array Bool → Option UInt32 × Array Bool
  | [], marks => (none, marks)
  | shift :: shifts, marks =>
    let (separate, marks) := markAll shift mask values (clearMarks marks (mask.toNat + 1))
    if separate then (some shift, marks) else firstShift values mask shifts marks

/-- The least shift up to 16 under which no two values share a slot. -/
def collisionFreeShift (values : List UInt16) (mask : UInt32) (marks : Array Bool) :
    Option UInt32 × Array Bool :=
  firstShift values mask ((List.range 17).map UInt32.ofNat) marks

def lowMask (bits : Nat) : UInt32 := UInt32.ofNat (Nat.pow 2 bits - 1)

/-- The first of the given mask widths that has a collision-free shift, as the
shift and the mask. Sixteen bits with no shift always separate. -/
def firstTable (values : List UInt16) :
    List Nat → Array Bool → (UInt32 × UInt32) × Array Bool
  | [], marks => ((0, lowMask 16), marks)
  | bits :: widths, marks =>
    match collisionFreeShift values (lowMask bits) marks with
    | (some shift, marks) => ((shift, lowMask bits), marks)
    | (none, marks) => firstTable values widths marks

/-- The fewest bits that can tell that many values apart. -/
def leastBits (count : Nat) : Nat :=
  if count ≤ 1 then 0 else bitsFor (UInt32.ofNat (count - 1))

/-- The smallest table in which no two values share a slot, as a shift and a mask. -/
def smallest (values : List UInt16) (marks : Array Bool) : (UInt32 × UInt32) × Array Bool :=
  let least := leastBits values.length
  firstTable values (List.range' least (17 - least)) marks

end ChartParsing.SlotTable
