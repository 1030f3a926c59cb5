import ChartParsing.Packing.BitVector
import ChartParsing.Packing.PairHash

/-!
# Packings

The packing a grammar is compiled with. Whatever the strategy, a pair that is
not accepted has no key, and a key that no accepted pair has stands for nothing.
-/

namespace ChartParsing

inductive Packing
  | shift (packing : ShiftPacking)
  | bitVector (packing : BitVectorPacking)
  | perfectHash (packing : PairHash)
  deriving DecidableEq, Repr

namespace Packing

/-- The packing of a kind for the given classes and the pairs of every binary rule. -/
def build (kind : PackingKind) (bounds : ClassBounds) (pairs : List (UInt16 × UInt16)) :
    Except GrammarError Packing :=
  match kind with
  | .shift => (ShiftPacking.build bounds).map shift
  | .bitVector => (BitVectorPacking.build bounds pairs).map bitVector
  | .perfectHash => .ok (perfectHash (PairHash.build bounds.leftChildren pairs))

def kind : Packing → PackingKind
  | shift _ => .shift
  | bitVector _ => .bitVector
  | perfectHash _ => .perfectHash

/-- What is needed to pack right children against `left`, unless it can never be
a left child. -/
def leftBlock? (p : Packing) (left : UInt16) : Option LeftBlock :=
  match p with
  | shift p => p.leftBlock? left
  | bitVector p => p.leftBlock? left
  | perfectHash p => p.leftBlock? left

/-- The key of a right child against a left child already looked up. -/
def packInto (p : Packing) (block : LeftBlock) (right : UInt16) : Option UInt32 :=
  match p with
  | shift p => p.packInto block right
  | bitVector p => p.packInto block right
  | perfectHash p => p.packInto block right

def pack (p : Packing) (left right : UInt16) : Option UInt32 :=
  (p.leftBlock? left).bind fun block => p.packInto block right

def unpack (p : Packing) (key : UInt32) : Option (UInt16 × UInt16) :=
  match p with
  | shift p => p.unpack key
  | bitVector p => p.unpack key
  | perfectHash p => p.unpack key

def isValid (p : Packing) (key : UInt32) : Bool :=
  match p with
  | shift p => (p.unpack key).isSome
  | bitVector p => p.isValid key
  | perfectHash p => key.toNat < p.size

/-- The length of an array indexed by keys. -/
def size : Packing → Nat
  | shift p => p.size
  | bitVector p => p.base.size
  | perfectHash p => p.size

end Packing

/-- The keys below `size` that stand for a pair, with their pairs. -/
def keyedPairs (unpack : UInt32 → Option (UInt16 × UInt16)) (size : Nat) :
    List (UInt32 × UInt16 × UInt16) :=
  (List.range size).filterMap fun i =>
    let key := UInt32.ofNat i
    (unpack key).map (key, ·)

/-- Every key that stands for a pair, with its pair. -/
def Packing.keyedPairs (p : Packing) : List (UInt32 × UInt16 × UInt16) :=
  ChartParsing.keyedPairs p.unpack p.size

def PairHash.keyedPairs (h : PairHash) : List (UInt32 × UInt16 × UInt16) :=
  ChartParsing.keyedPairs h.unpack h.size

end ChartParsing
