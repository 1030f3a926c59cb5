/-!
# Structural classes of non-terminals

Non-terminals are numbered class by class in the order of declaration, so that
each class is one run of numbers, and so are the non-terminals that can be the
left or the right child of a binary rule.
-/

namespace ChartParsing

/-- A half-open run of 16-bit numbers, empty when it is reversed. -/
structure Interval where
  start : UInt16
  stop : UInt16
  deriving DecidableEq, Repr, Inhabited

namespace Interval

def contains (r : Interval) (n : UInt16) : Bool := r.start ≤ n && n < r.stop

def size (r : Interval) : Nat := r.stop.toNat - r.start.toNat

def toList (r : Interval) : List UInt16 :=
  (List.range' r.start.toNat r.size).map UInt16.ofNat

end Interval

/-- Where a non-terminal occurs. Lexicon parents are parts of speech; any other
is placed by the sides of binary rules it occurs on. -/
inductive LabelClass
  | rightChildOnly
  | partOfSpeech
  | eitherChild
  | leftChildOnly
  | unaryChildOnly
  deriving DecidableEq, Repr

namespace LabelClass

def all : List LabelClass :=
  [rightChildOnly, partOfSpeech, eitherChild, leftChildOnly, unaryChildOnly]

def rank : LabelClass → Nat
  | rightChildOnly => 0
  | partOfSpeech => 1
  | eitherChild => 2
  | leftChildOnly => 3
  | unaryChildOnly => 4

def name : LabelClass → String
  | rightChildOnly => "right-child-only"
  | partOfSpeech => "pos"
  | eitherChild => "either-child"
  | leftChildOnly => "left-child-only"
  | unaryChildOnly => "unary-child-only"

end LabelClass

/-- The first number of each class, and the number of non-terminals. An empty
class starts where the next one does. -/
structure ClassBounds where
  rightChildOnly : UInt16
  partOfSpeech : UInt16
  eitherChild : UInt16
  leftChildOnly : UInt16
  unaryChildOnly : UInt16
  total : UInt16
  deriving DecidableEq, Repr, Inhabited

namespace ClassBounds

/-- The bounds of classes with the given sizes, modulo `2 ^ 16`. -/
def ofSizes (size : LabelClass → Nat) : ClassBounds :=
  let before (n : Nat) : UInt16 :=
    UInt16.ofNat (((LabelClass.all.take n).map size).foldr (· + ·) 0)
  ⟨before 0, before 1, before 2, before 3, before 4, before 5⟩

/-- Whether classes of the given sizes can be counted in 64 bits. -/
def countable (size : LabelClass → Nat) : Bool :=
  (LabelClass.all.map size).foldr (· + ·) 0 < 0x10000000000000000

variable (b : ClassBounds)

def classOf (nt : UInt16) : LabelClass :=
  if nt < b.partOfSpeech then .rightChildOnly
  else if nt < b.eitherChild then .partOfSpeech
  else if nt < b.leftChildOnly then .eitherChild
  else if nt < b.unaryChildOnly then .leftChildOnly
  else .unaryChildOnly

def interval : LabelClass → Interval
  | .rightChildOnly => ⟨b.rightChildOnly, b.partOfSpeech⟩
  | .partOfSpeech => ⟨b.partOfSpeech, b.eitherChild⟩
  | .eitherChild => ⟨b.eitherChild, b.leftChildOnly⟩
  | .leftChildOnly => ⟨b.leftChildOnly, b.unaryChildOnly⟩
  | .unaryChildOnly => ⟨b.unaryChildOnly, b.total⟩

/-- The non-terminals that can be the left child of a binary rule. -/
def leftChildren : Interval := ⟨b.partOfSpeech, b.unaryChildOnly⟩

/-- The non-terminals that can be the right child of a binary rule. -/
def rightChildren : Interval := ⟨b.rightChildOnly, b.leftChildOnly⟩

def isPartOfSpeech (nt : UInt16) : Bool := b.classOf nt = .partOfSpeech

def isLeftChild (nt : UInt16) : Bool := b.leftChildren.contains nt

def isRightChild (nt : UInt16) : Bool := b.rightChildren.contains nt

end ClassBounds
end ChartParsing
