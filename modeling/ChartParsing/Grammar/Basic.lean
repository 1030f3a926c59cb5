import ChartParsing.Label.Table
import ChartParsing.Matrix.ByColumn
import ChartParsing.Matrix.ByRow
import ChartParsing.Packing.Basic
import ChartParsing.Rule

/-!
# Compiled grammars

A compiled grammar keeps its binary rules by parent and by key of the child
pair, its unary rules by parent and by child, and its lexicon by word. Two more
copies of the binary rules, by parent and one child, give the other child to the
outside pass. Equal rules are merged by adding their probabilities.
-/

namespace ChartParsing

/-- Binary rules by parent and one child; the entries are the other child. -/
structure SiblingIndex where
  hash : PairHash
  matrix : ColumnMatrix

namespace SiblingIndex

structure Entry where
  parent : UInt16
  sibling : UInt16
  child : UInt16
  value : Score

def ofEntries? (labels : Nat) (entries : List Entry) : Option SiblingIndex := do
  let hash := PairHash.build ⟨0, UInt16.ofNat labels⟩ (entries.map fun e => (e.parent, e.sibling))
  let matrix ← ColumnMatrix.ofTriples? hash.size (entries.filterMap fun e =>
    (hash.pack e.parent e.sibling).map fun key => Triple.inColumn e.child key e.value)
  return ⟨hash, matrix⟩

/-- The children that a parent and a sibling leave, with the scores of the rules. -/
def children (s : SiblingIndex) (parent sibling : UInt16) : List (UInt16 × Score) :=
  match s.hash.pack parent sibling with
  | some key => s.matrix.column key
  | none => []

end SiblingIndex

structure Grammar where
  start : UInt16
  labels : LabelTable
  lexicon : LabelTable
  bounds : ClassBounds
  packing : Packing
  binaryByParent : RowMatrix
  binaryByPair : ColumnMatrix
  unaryByParent : RowMatrix
  unaryByChild : ColumnMatrix
  lexical : ColumnMatrix
  leftChildren : SiblingIndex
  rightChildren : SiblingIndex
  /-- The least and the greatest right sibling of each left child. -/
  siblingRanges : Array (Option (UInt16 × UInt16))

namespace Grammar

/-- The range widened to hold `n`. -/
def widen (n : UInt16) : Option (UInt16 × UInt16) → Option (UInt16 × UInt16)
  | some (lo, hi) => some (min lo n, max hi n)
  | none => some (n, n)

/-- The binary productions of a list: parent, left and right child, score. -/
def binaryOf (productions : List Production) : List (UInt16 × UInt16 × UInt16 × Score) :=
  productions.filterMap fun p => match p.expansion with
    | .binary left right => some (p.parent, left, right, p.logProb)
    | _ => none

def unaryOf (productions : List Production) : List (UInt16 × UInt16 × Score) :=
  productions.filterMap fun p => match p.expansion with
    | .unary child => some (p.parent, child, p.logProb)
    | _ => none

def lexicalOf (productions : List Production) : List (UInt16 × UInt32 × Score) :=
  productions.filterMap fun p => match p.expansion with
    | .lexical word => some (p.parent, word, p.logProb)
    | _ => none

/-- The least and the greatest right sibling of each of `count` left children. -/
def rangesOf (count : Nat) (pairs : List (UInt16 × UInt16)) :
    Array (Option (UInt16 × UInt16)) :=
  pairs.foldl (fun ranges (left, right) => ranges.modify left.toNat (widen right))
    (Array.replicate count none)

def inRange {α : Type} : Option α → Except GrammarError α
  | some a => .ok a
  | none => .error .indexOutOfRange

/-- The keyed binary rules: parent, key, score. -/
def keyed (kind : PackingKind) (packing : Packing)
    (rules : List (UInt16 × UInt16 × UInt16 × Score)) :
    Except GrammarError (List (UInt16 × UInt32 × Score)) :=
  rules.mapM fun (parent, left, right, value) =>
    match packing.pack left right with
    | some key => .ok (parent, key, value)
    | none => .error (.packingOverflow kind packing.size)

/-- The grammar of the given productions. The labels must already be numbered as
`bounds` says. -/
def ofProductions (start : UInt16) (labels lexicon : LabelTable) (bounds : ClassBounds)
    (productions : List Production) (kind : PackingKind) : Except GrammarError Grammar := do
  let count := labels.size
  let rules := binaryOf productions
  let pairs := rules.map fun (_, left, right, _) => (left, right)
  if pairs.any fun (left, _) => count ≤ left.toNat then throw .indexOutOfRange
  let packing ← Packing.build kind bounds pairs
  let binary ← keyed kind packing rules
  let unary := unaryOf productions
  let binaryByParent ← inRange (RowMatrix.ofTriples? count
    (binary.map fun (p, key, v) => ⟨p.toUInt32, key, v⟩))
  let binaryByPair ← inRange (ColumnMatrix.ofTriples? packing.size
    (binary.map fun (p, key, v) => .inColumn p key v))
  let unaryByParent ← inRange (RowMatrix.ofTriples? count
    (unary.map fun (p, c, v) => ⟨p.toUInt32, c.toUInt32, v⟩))
  let unaryByChild ← inRange (ColumnMatrix.ofTriples? count
    (unary.map fun (p, c, v) => .inColumn p c.toUInt32 v))
  let lexical ← inRange (ColumnMatrix.ofTriples? lexicon.size
    ((lexicalOf productions).map fun (p, w, v) => .inColumn p w v))
  let leftChildren ← inRange (SiblingIndex.ofEntries? count
    (rules.map fun (p, left, right, v) => ⟨p, right, left, v⟩))
  let rightChildren ← inRange (SiblingIndex.ofEntries? count
    (rules.map fun (p, left, right, v) => ⟨p, left, right, v⟩))
  return { start, labels, lexicon, bounds, packing, binaryByParent, binaryByPair,
           unaryByParent, unaryByChild, lexical, leftChildren, rightChildren,
           siblingRanges := rangesOf count pairs }

variable (g : Grammar)

def size : Nat := g.labels.size

def number? (label : String) : Option UInt16 := (g.labels.number? label).map (·.toUInt16)

def label? (nt : UInt16) : Option String := g.labels.label? nt.toUInt32

/-- The label of a non-terminal of the grammar. -/
def label (nt : UInt16) : String := (g.label? nt).getD ""

def nonTerminals : List UInt16 := (List.range g.size).map UInt16.ofNat

/-- The least and the greatest right child that `left` combines with. -/
def siblingRange? (left : UInt16) : Option (UInt16 × UInt16) :=
  g.siblingRanges.getD left.toNat none

def binaryLogProb (parent left right : UInt16) : Score :=
  match g.packing.pack left right with
  | some key => g.binaryByParent.get parent key
  | none => Score.absent

def unaryLogProb (parent child : UInt16) : Score :=
  g.unaryByParent.get parent child.toUInt32

def lexicalLogProb (parent : UInt16) (word : UInt32) : Score :=
  g.lexical.get parent word

/-- Whether the tags of a word are non-terminals of the grammar. -/
def hasTags (word : UInt32) : Bool :=
  (g.lexical.column word).all fun (tag, _) => tag.toNat < g.size

/-- Every binary rule, in increasing order of parent and key. -/
def binaryProductions : List Production :=
  g.nonTerminals.flatMap fun parent =>
    (g.binaryByParent.row parent).filterMap fun (key, value) =>
      (g.packing.unpack key).map fun (left, right) => ⟨parent, .binary left right, value⟩

end Grammar
end ChartParsing
